import PageTrie.Proofs.Checked.Splitting

/-! Storing, looking up and deleting with every step checked. A page that is searched, changed or
split is one that passed its validation or was made from one, so none of the checks fails. -/
namespace PageTrie.Checked

open Session (Ends)

def put (hash : UInt32) (pair : Pair) (need : Nat) (spot : Spot) (page : Page) :
    CheckedM Session Unit := do
  let roomy ← check (fits page need)
  let (number, page) ←
    if roomy then pure (spot.page, page) else makeRoom hash need spot page
  let page ← check (insert page pair)
  let page ← ofResult page
  keep number page
  writePage number page

def storePair (pair : Pair) (mode : PutMode) (need : Nat) : CheckedM Session PutResult := do
  let hash := keyHash pair.key
  let (spot, page) ← locate hash
  match mode with
  | .insert =>
    if ← check (contains page pair.key) then return .exists
    else
      put hash pair need spot page
      return .stored
  | .replace =>
    let removed ← check (remove page pair.key)
    let page := removed.getD page
    keep spot.page page
    put hash pair need spot page
    return .stored

def store (pair : Pair) (mode : PutMode) : CheckedM Session PutResult := do
  lift (Session.requireKey pair.key)
  lift Session.requireWritable
  let need ← check (add pair.key.length pair.value.length)
  if pairLimit < need then throw (.failed (.pairTooLarge need pairLimit))
  flagging (storePair pair mode need)

def fetch (key : Bytes) : CheckedM Session (Option Bytes) := do
  lift (Session.requireKey key)
  let (_, page) ← flagging (locate (keyHash key))
  check (value? page key)

def containsKey (key : Bytes) : CheckedM Session Bool := do
  let value ← fetch key
  return value.isSome

def deletePair (key : Bytes) : CheckedM Session Bool := do
  let (spot, page) ← locate (keyHash key)
  match ← check (remove page key) with
  | none => return false
  | some page =>
    keep spot.page page
    writePage spot.page page
    return true

def delete (key : Bytes) : CheckedM Session Bool := do
  lift (Session.requireKey key)
  lift Session.requireWritable
  flagging (deletePair key)

/-- A call that is calm before and after, and fails only as expected. -/
def Fares {α : Type} (checked : CheckedM Session α) (call : SessionM α) (session : Session) :
    Prop :=
  Agrees id (fun _ => Session.Calm)
    (fun cause session' => cause.isExpected = true ∧ session'.Calm)
    (checked.run session) (call.run session)

theorem Fares.flagging {α : Type} {checked : CheckedM Session α} {call : SessionM α}
    {session : Session} (hcall : Fares checked call session) :
    Fares (flagging checked) (Session.flagging call) session :=
  Agrees.flagging hcall fun _ _ hfailed => ⟨hfailed.1, hfailed.2.flagged⟩

section Busy

variable {session : Session} (h : session.Busy)
include h

theorem agrees_makeRoom {page : Page} (horder : page.InOrder) (hash : UInt32) {need : Nat}
    (hneed : need + 4 < counterRange) {depth : Nat} (hdepth : depth ≤ hashWidth) :
    Agrees (fun found => (found.1.page hash, found.2))
      (fun found session' => session'.Busy ∧ Session.Roomy hash need found.1 found.2)
      (fun cause session' => cause.isExpected = true ∧ session'.Calm)
      ((makeRoom hash need (spot hash (TrieNode.onPath hash depth)) page).run session)
      ((Session.grow hash need (TrieNode.onPath hash depth) page).run session) := by
  have hgrown := agrees_splitUntilFits h horder hash hneed hdepth Session.splitBudget
  rw [EStateM.run, EStateM.run, makeRoom, Session.grow]
  generalize (splitUntilFits hash need _ page Session.splitBudget).run session = result at hgrown
  generalize (Session.growWithin hash need _ page Session.splitBudget).run session = result'
    at hgrown
  cases hgrown with
  | ok done => exact .ok done
  | error failed => exact .error ⟨failed.1, .of_busy_forgetting failed.2⟩

theorem fares_append {pair : Pair} (hsize : pair.size ≤ pairLimit) {leaf : TrieNode} {page : Page}
    (hroomy : Session.Roomy (keyHash pair.key) pair.size leaf page) :
    Fares
      (do
        let page ← check (insert page pair)
        let page ← ofResult page
        keep (leaf.page (keyHash pair.key)) page
        writePage (leaf.page (keyHash pair.key)) page : CheckedM Session Unit)
      (do
        let page ← Session.ofResult (page.insert pair)
        Session.keep (leaf.page (keyHash pair.key)) page
        Session.putPage (leaf.page (keyHash pair.key)) page : SessionM Unit) session := by
  have hneed : pair.size + 4 < counterRange := (Nat.add_le_add_right hsize 4).trans_lt (by decide)
  obtain ⟨page', hinsert, horder⟩ := hroomy.insert hsize
  obtain ⟨depth, hdepth, rfl⟩ := hroomy.onPath
  have hnumber := TrieNode.page_onPath_lt (keyHash pair.key) (keyHash pair.key) hdepth
  have hkept := h.keeping (some ((TrieNode.onPath (keyHash pair.key) depth).page (keyHash pair.key),
    page'))
  unfold Fares
  rw [insert_eq page hneed, check_ok, pure_bind, hinsert, ofResult_ok, pure_bind,
    run_bind_ok (run_keep _ _ session), run_writePage hkept hnumber page',
    run_bind_ok (Session.run_ofResult_ok page' session), run_bind_ok (Session.run_keep _ _ _),
    hkept.modest.ready.run_putPage hkept.writable hnumber page']
  exact .ok (h.calm_wrote hnumber horder)

theorem fares_put {page : Page} (horder : page.InOrder) {pair : Pair}
    (hsize : pair.size ≤ pairLimit) {depth : Nat} (hdepth : depth ≤ hashWidth) :
    Fares
      (put (keyHash pair.key) pair pair.size
        (spot (keyHash pair.key) (TrieNode.onPath (keyHash pair.key) depth)) page)
      (Session.place (keyHash pair.key) pair (TrieNode.onPath (keyHash pair.key) depth) page)
      session := by
  have hneed : pair.size + 4 < counterRange := (Nat.add_le_add_right hsize 4).trans_lt (by decide)
  unfold put Session.place Fares
  rw [fits_eq page hneed, check_ok, pure_bind]
  cases hroom : page.hasRoom pair.size with
  | true =>
    rw [if_pos rfl, if_pos rfl, pure_bind, pure_bind]
    exact fares_append h hsize ⟨horder, ⟨depth, hdepth, rfl⟩, hroom⟩
  | false =>
    rw [if_neg Bool.false_ne_true, if_neg Bool.false_ne_true]
    apply (agrees_makeRoom h horder (keyHash pair.key) hneed hdepth).bind
    rintro ⟨leaf, page⟩ session' ⟨hbusy, hroomy⟩
    exact fares_append hbusy hsize hroomy

end Busy

section Calm

variable {session : Session} (h : session.Calm)
include h

theorem fares_storePair (hwritable : session.config.isReadOnly = false) {pair : Pair}
    (hsize : pair.size ≤ pairLimit) (mode : PutMode) :
    Fares (storePair pair mode pair.size) (Session.put pair mode) session := by
  unfold storePair Session.put Fares
  apply (agrees_locate h (keyHash pair.key)).bind
  rintro ⟨leaf, page⟩ session' ⟨hcalm, hconfig, horder, depth, hdepth, hleaf⟩
  dsimp only at horder hleaf ⊢
  have hbusy : session'.Busy := ⟨hcalm.modest, (congrArg Config.isReadOnly hconfig).trans hwritable⟩
  rw [hleaf]
  cases mode with
  | insert =>
    dsimp only
    rw [contains_eq, check_ok, pure_bind]
    cases page.contains pair.key with
    | true => exact .ok hcalm
    | false =>
      rw [if_neg Bool.false_ne_true, if_neg Bool.false_ne_true]
      apply (fares_put hbusy horder hsize hdepth).bind
      exact fun _ _ hdone => .ok hdone
  | replace =>
    have herased := horder.erased pair.key
    dsimp only
    rw [remove_eq, check_ok, pure_bind, run_bind_ok (run_keep _ _ session'),
      run_bind_ok (Session.run_keep _ _ session')]
    apply (fares_put (hbusy.keeping _) herased hsize hdepth).bind
    exact fun _ _ hdone => .ok hdone

theorem fares_deletePair (hwritable : session.config.isReadOnly = false) (key : Bytes) :
    Fares (deletePair key) (Session.erase key) session := by
  unfold deletePair Session.erase Fares
  apply (agrees_locate h (keyHash key)).bind
  rintro ⟨leaf, page⟩ session' ⟨hcalm, hconfig, horder, depth, hdepth, hleaf⟩
  dsimp only at horder hleaf ⊢
  have hbusy : session'.Busy := ⟨hcalm.modest, (congrArg Config.isReadOnly hconfig).trans hwritable⟩
  rw [hleaf, remove_eq, check_ok, pure_bind]
  cases herase : page.erase? key with
  | none => exact .ok hcalm
  | some erased =>
    have hnumber := TrieNode.page_onPath_lt (keyHash key) (keyHash key) hdepth
    have hkept := hbusy.keeping (some ((TrieNode.onPath (keyHash key) depth).page (keyHash key),
      erased))
    dsimp only
    rw [spot_page, run_bind_ok (run_keep _ _ session'),
      run_bind_ok (run_writePage hkept hnumber erased), run_bind_ok (Session.run_keep _ _ session'),
      run_bind_ok (hkept.modest.ready.run_putPage hkept.writable hnumber erased)]
    exact .ok (hbusy.calm_wrote hnumber (horder.of_erase? herase))

theorem fares_requireKey {key : Bytes} {α : Type} {checked : CheckedM Session α}
    {call : SessionM α} (hnext : Fares checked call session) :
    Fares (do lift (Session.requireKey key); checked) (do Session.requireKey key; call)
      session := by
  have hends : Ends (fun _ session' => session' = session)
      (fun cause session' => cause.isExpected = true ∧ session'.Calm)
      ((Session.requireKey key).run session) := by
    unfold Session.requireKey
    split
    · exact .error ⟨rfl, h⟩
    · exact .ok rfl
  apply (Agrees.lift hends).bind
  rintro _ _ rfl
  exact hnext

theorem fares_requireWritable {α : Type} {checked : CheckedM Session α} {call : SessionM α}
    (hnext : session.config.isReadOnly = false → Fares checked call session) :
    Fares (do lift Session.requireWritable; checked) (do Session.requireWritable; call)
      session := by
  have hends : Ends (fun _ session' => session' = session ∧ session.config.isReadOnly = false)
      (fun cause session' => cause.isExpected = true ∧ session'.Calm)
      (Session.requireWritable.run session) := by
    cases hmode : session.config.isReadOnly with
    | true =>
      rw [Session.run_requireWritable_readOnly hmode]
      exact .error ⟨rfl, h⟩
    | false =>
      rw [Session.run_requireWritable hmode]
      exact .ok ⟨rfl, rfl⟩
  apply (Agrees.lift hends).bind
  rintro _ _ ⟨rfl, hwritable⟩
  exact hnext hwritable

theorem fares_store {pair : Pair} (hkey : pair.key.length < 0x8000000000000000)
    (hvalue : pair.value.length < 0x8000000000000000) (mode : PutMode) :
    Fares (store pair mode) (Session.store pair mode) session := by
  apply fares_requireKey h
  apply fares_requireWritable h
  intro hwritable
  have hneed : add pair.key.length pair.value.length = .ok pair.size := add_eq (by omega)
  unfold Fares
  rw [hneed, check_ok, pure_bind]
  by_cases hlimit : pairLimit < pair.size
  · rw [if_pos hlimit, if_pos hlimit]
    exact .error ⟨rfl, h⟩
  · rw [if_neg hlimit, if_neg hlimit]
    exact (fares_storePair h hwritable (Nat.le_of_not_lt hlimit) mode).flagging

theorem fares_fetch (key : Bytes) : Fares (fetch key) (Session.fetch key) session := by
  apply fares_requireKey h
  have hlocate := (agrees_locate h (keyHash key)).flagging
    fun _ _ hfailed => ⟨hfailed.1, hfailed.2.flagged⟩
  apply hlocate.bind
  rintro ⟨leaf, page⟩ session' ⟨hcalm, -⟩
  dsimp only
  rw [value?_eq, check_ok]
  exact .ok hcalm

theorem fares_contains (key : Bytes) : Fares (containsKey key) (Session.contains key) session := by
  apply (fares_fetch h key).bind
  exact fun _ _ hdone => .ok hdone

theorem fares_delete (key : Bytes) : Fares (delete key) (Session.delete key) session := by
  apply fares_requireKey h
  apply fares_requireWritable h
  intro hwritable
  exact (fares_deletePair h hwritable key).flagging

end Calm

end PageTrie.Checked
