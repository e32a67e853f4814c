import PageTrie.Session.Scan
import PageTrie.Proofs.Checked.Session

/-! The scan with every step checked. It goes on until the end of the file, however far that is;
each block that it passes brings it nearer, and so does each key that it hands out. -/
namespace PageTrie.Checked

open Session (Ends KeyStream scanLimit)

def advance (length : Nat) (point : ScanPoint) : CheckedM Session (Option Bytes) :=
  match _hpos : mul point.block pageSize with
  | .error fault => throw (.fault fault)
  | .ok pos =>
    if _hlt : length ≤ pos then return none
    else do
      let page ← loadPage point.block
      let count ← check (pairCount page)
      if point.next < count then
        let next ← check (add point.next 1)
        modify fun session => { session with scan := { point with next } }
        check (keyAt page point.next)
      else
        match _hblock : add point.block 1 with
        | .error fault => throw (.fault fault)
        | .ok block =>
          modify fun session => { session with scan := ⟨block, 0⟩ }
          advance length ⟨block, 0⟩
termination_by length - point.block * pageSize
decreasing_by
  have hpos := eq_mul_of_ok _hpos
  have hblock := eq_add_of_ok _hblock
  change length - block * 1024 < length - point.block * 1024
  change _ = point.block * 1024 at hpos
  omega

def nextKey : CheckedM Session (Option Bytes) :=
  flagging do
    let session ← get
    advance session.pages.length session.scan

def firstKey : CheckedM Session (Option Bytes) := do
  modify fun session => { session with scan := ⟨0, 0⟩ }
  nextKey

def nextItem (stream : KeyStream) (session : Session) :
    Checked (Option (Except StoreError Bytes) × KeyStream × Session) :=
  if stream.done then return (none, stream, session)
  else
    match (if stream.started then nextKey else firstKey).run session with
    | .ok (some key) session' => return (some (.ok key), ⟨true, false⟩, session')
    | .ok none session' => return (none, ⟨true, true⟩, session')
    | .error (.failed cause) session' => return (some (.error cause), ⟨true, true⟩, session')
    | .error (.fault fault) _ => .error fault

def takeItems (stream : KeyStream) (session : Session) :
    (limit : Nat) → Checked (List (Except StoreError Bytes) × KeyStream × Session)
  | 0 => return ([], stream, session)
  | limit + 1 => do
    match ← nextItem stream session with
    | (none, stream', session') => return ([], stream', session')
    | (some item, stream', session') =>
      let (items, stream'', session'') ← takeItems stream' session' limit
      return (item :: items, stream'', session'')

section

variable {length : Nat} {point : ScanPoint} (h : point.block ≤ scanLimit)
include h

theorem mul_block : mul point.block pageSize = .ok (point.block * pageSize) := by
  apply mul_eq
  change _ * 1024 < _
  change point.block ≤ 0x1000000000000000 / 1024 at h
  omega

theorem advance_of_le (hend : length ≤ point.block * pageSize) :
    advance length point = pure none := by
  rw [advance]
  split
  · next hpos =>
    rw [mul_block h] at hpos
    cases hpos
  · next hpos =>
    rw [mul_block h] at hpos
    cases hpos
    rw [dif_pos hend]

theorem advance_of_lt (hlt : point.block * pageSize < length) : advance length point = (do
      let page ← loadPage point.block
      if point.next < page.size then
        let next ← check (add point.next 1)
        modify fun session => { session with scan := { point with next } }
        return page.key? point.next
      else
        modify fun session => { session with scan := ⟨point.block + 1, 0⟩ }
        advance length ⟨point.block + 1, 0⟩) := by
  have hnext : add point.block 1 = .ok (point.block + 1) := by
    apply add_eq
    change point.block ≤ 0x1000000000000000 / 1024 at h
    omega
  rw [advance]
  split
  · next hpos =>
    rw [mul_block h] at hpos
    cases hpos
  · next hpos =>
    rw [mul_block h] at hpos
    cases hpos
    rw [dif_neg (Nat.not_le_of_lt hlt)]
    simp only [pairCount_eq, keyAt_eq, check_ok, pure_bind]
    congr 1
    funext page
    split
    · rfl
    · split
      · next hblock =>
        rw [hnext] at hblock
        cases hblock
      · next hblock =>
        rw [hnext] at hblock
        cases hblock
        rfl

end

/-- More keys than the scan can still hand out: no page holds 256 pairs. -/
def keysLeft (session : Session) : Nat :=
  (session.pagesInFile - session.scan.block) * 256 - session.scan.next

/-- What the scan hands out brings it nearer to its end. -/
structure Hands (session : Session) (key : Option Bytes) (session' : Session) : Prop where
  calm : session'.Calm
  left_le : keysLeft session' + key.toList.length ≤ keysLeft session

section Calm

variable {session : Session} (h : session.Calm)
include h

theorem agrees_loadPage {number : Nat} (hlt : number * pageSize < session.pages.length) :
    Agrees id
      (fun page session' => page.InOrder ∧ session'.Calm ∧
        session' = session.keeping (some (number, page)))
      (fun cause session' => cause.isExpected = true ∧ session'.Calm)
      ((loadPage number).run session) ((Session.pageAt number).run session) := by
  have hshort := hlt.trans h.modest.pages_lt
  have hload : loadPage number = lift (Session.pageAt number) :=
    loadPage_eq (hshort.trans (by decide))
  rw [hload]
  have hend : number * pageSize + pageSize < positionRange :=
    (Nat.add_lt_add_right hshort pageSize).trans (by decide)
  exact .lift (h.ends_pageAt (OpenFile.reaches_of_lt_length hlt hend))

theorem hands_key {page : Page} (horder : page.InOrder)
    (hblock : session.scan.block < session.pagesInFile) (hkey : session.scan.next < page.size) :
    Hands session (page.key? session.scan.next)
      (session.scanning ⟨session.scan.block, session.scan.next + 1⟩) := by
  have hindex := horder.index_le (Nat.le_refl _)
  have hedge := horder.edge_le_pageSize (Nat.le_refl _)
  change _ ≤ 1024 at hedge
  refine ⟨h.setting session.failed ⟨h.modest.near.block_le, ?_⟩, ?_⟩
  · change session.scan.next + 1 ≤ 256
    omega
  · change (session.pagesInFile - session.scan.block) * 256 - (session.scan.next + 1) +
      (page.key? session.scan.next).toList.length ≤
        (session.pagesInFile - session.scan.block) * 256 - session.scan.next
    have hone : (page.key? session.scan.next).toList.length ≤ 1 := Option.length_toList_le
    omega

omit h in
theorem Hands.of_next_block (hnext : session.scan.next ≤ 256)
    (hblock : session.scan.block < session.pagesInFile) {key : Option Bytes} {session' : Session}
    (hhands : Hands (session.scanning ⟨session.scan.block + 1, 0⟩) key session') :
    Hands session key session' := by
  refine ⟨hhands.calm, hhands.left_le.trans ?_⟩
  change (session.pagesInFile - (session.scan.block + 1)) * 256 - 0 ≤
    (session.pagesInFile - session.scan.block) * 256 - session.scan.next
  omega

/-- The scan comes to the end of the file, or to a key, or to a block that is no page. -/
theorem agrees_advance {remaining : Nat}
    (hremaining : remaining = session.pagesInFile - session.scan.block) :
    Agrees id (Hands session) (fun cause session' => cause.isExpected = true ∧ session'.Calm)
      ((advance session.pages.length session.scan).run session)
      ((Session.nextWithin remaining).run session) := by
  have hblock := h.modest.near.block_le
  have hcount : session.pagesInFile = (session.pages.length + 1023) / 1024 := rfl
  -- By the number of blocks left, which the loop counts down without keeping it.
  induction remaining generalizing session with
  | zero =>
    have hend : session.pages.length ≤ session.scan.block * pageSize := by
      change _ ≤ _ * 1024
      omega
    rw [advance_of_le hblock hend]
    exact .ok ⟨h, Nat.le_refl _⟩
  | succ remaining ih =>
    have hlt : session.scan.block * 1024 < session.pages.length := by omega
    unfold Session.nextWithin
    rw [advance_of_lt hblock hlt, Session.run_get_bind]
    apply (agrees_loadPage h hlt).bind
    rintro page _ ⟨horder, hcalm, rfl⟩
    dsimp only [id]
    by_cases hkey : session.scan.next < page.size
    · have hnext := h.modest.near.next_le
      rw [if_pos hkey, if_pos hkey, add_eq (by omega), check_ok, pure_bind,
        run_bind_ok (EStateM.run_modify _ _), run_bind_ok (EStateM.run_modify _ _)]
      have hhands := hands_key hcalm horder (show session.scan.block < session.pagesInFile by omega)
        hkey
      exact .pure (page.key? session.scan.next) ⟨hhands.calm, hhands.left_le⟩
    · rw [if_neg hkey, if_neg hkey, run_bind_ok (EStateM.run_modify _ _),
        run_bind_ok (EStateM.run_modify _ _)]
      have hnear : Session.Near ⟨session.scan.block + 1, 0⟩ := by
        refine ⟨?_, Nat.zero_le _⟩
        have hshort : session.scan.block * 1024 < 0x1000000000000000 :=
          hlt.trans h.modest.pages_lt
        change session.scan.block + 1 ≤ 0x4000000000000
        clear hblock
        omega
      apply (ih (hcalm.setting session.failed hnear)
        (show remaining = session.pagesInFile - (session.scan.block + 1) by omega)
        hnear.block_le hcount).mono
      · intro key session' hhands
        have hsame := Hands.of_next_block hcalm.modest.near.next_le
          (show session.scan.block < session.pagesInFile by omega) hhands
        exact ⟨hsame.calm, hsame.left_le⟩
      · exact fun _ _ hfailed => hfailed

theorem agrees_nextKey :
    Agrees id (Hands session) (fun cause session' => cause.isExpected = true ∧ session'.Calm)
      (nextKey.run session) (Session.nextKey.run session) := by
  unfold nextKey Session.nextKey
  apply Agrees.flagging _ fun _ _ hfailed => ⟨hfailed.1, hfailed.2.flagged⟩
  rw [Session.run_get_bind]
  exact agrees_advance h rfl

theorem agrees_firstKey :
    Agrees id (Hands (session.scanning ⟨0, 0⟩))
      (fun cause session' => cause.isExpected = true ∧ session'.Calm)
      (firstKey.run session) (Session.firstKey.run session) := by
  unfold firstKey Session.firstKey
  rw [run_bind_ok (EStateM.run_modify _ _), run_bind_ok (EStateM.run_modify _ _)]
  exact agrees_nextKey (h.setting session.failed ⟨Nat.zero_le _, Nat.zero_le _⟩)

end Calm

def itemsLeft (stream : KeyStream) (session : Session) : Nat :=
  if stream.done then 0
  else if stream.started then keysLeft session + 1
  else keysLeft (session.scanning ⟨0, 0⟩) + 1

structure Gives (stream : KeyStream) (session : Session) (item : Option (Except StoreError Bytes))
    (stream' : KeyStream) (session' : Session) : Prop where
  calm : session'.Calm
  expected : ∀ cause, item = some (.error cause) → cause.isExpected = true
  left_lt : item.isSome = true → itemsLeft stream' session' < itemsLeft stream session

theorem nextItem_of_agrees {stream : KeyStream} {start session : Session}
    (hdone : stream.done = false)
    (hleft : itemsLeft stream session = keysLeft start + 1)
    (hrun : Agrees id (Hands start) (fun cause session' => cause.isExpected = true ∧ session'.Calm)
      ((if stream.started then nextKey else firstKey).run session)
      ((if stream.started then Session.nextKey else Session.firstKey).run session)) :
    nextItem stream session = .ok (stream.next session) ∧
      Gives stream session (stream.next session).1 (stream.next session).2.1
        (stream.next session).2.2 := by
  have hnotDone : ¬ stream.done = true := by rw [hdone]; exact Bool.false_ne_true
  unfold nextItem KeyStream.next
  rw [if_neg hnotDone, if_neg hnotDone]
  generalize (if stream.started then nextKey else firstKey).run session = result at hrun
  generalize (if stream.started then Session.nextKey else Session.firstKey).run session = result'
    at hrun
  cases hrun with
  | @ok key session' done =>
    cases key with
    | none => exact ⟨rfl, done.calm, nofun, nofun⟩
    | some key =>
      refine ⟨rfl, done.calm, nofun, fun _ => ?_⟩
      have hbelow : keysLeft session' + 1 ≤ keysLeft start := done.left_le
      rw [hleft]
      exact Nat.succ_lt_succ hbelow
  | @error cause session' failed =>
    refine ⟨rfl, failed.2, ?_, fun _ => ?_⟩
    · rintro cause' heq
      cases heq
      exact failed.1
    · rw [hleft]
      exact Nat.succ_pos _

theorem nextItem_eq {session : Session} (h : session.Calm) (stream : KeyStream) :
    nextItem stream session = .ok (stream.next session) ∧
      Gives stream session (stream.next session).1 (stream.next session).2.1
        (stream.next session).2.2 := by
  obtain ⟨started, done⟩ := stream
  cases done with
  | true => exact ⟨rfl, h, nofun, nofun⟩
  | false =>
    cases started with
    | true => exact nextItem_of_agrees rfl rfl (agrees_nextKey h)
    | false => exact nextItem_of_agrees rfl rfl (agrees_firstKey h)

theorem takeItems_eq {session : Session} (h : session.Calm) (stream : KeyStream) (limit : Nat) :
    takeItems stream session limit = .ok (stream.take session limit) ∧
      (stream.take session limit).1.length ≤ itemsLeft stream session ∧
      (∀ cause, .error cause ∈ (stream.take session limit).1 → cause.isExpected = true) ∧
      (stream.take session limit).2.2.Calm := by
  induction limit generalizing stream session with
  | zero => exact ⟨rfl, Nat.zero_le _, fun _ => (absurd · List.not_mem_nil), h⟩
  | succ limit ih =>
    obtain ⟨hnext, hgives⟩ := nextItem_eq h stream
    unfold takeItems KeyStream.take
    rw [hnext, ok_bind]
    generalize stream.next session = result at hgives
    obtain ⟨item, stream', session'⟩ := result
    obtain ⟨hcalm, hexpected, hleft⟩ := hgives
    cases item with
    | none => exact ⟨rfl, Nat.zero_le _, fun _ => (absurd · List.not_mem_nil), hcalm⟩
    | some item =>
      obtain ⟨htake, hlength, hitems, hcalm'⟩ := ih hcalm stream'
      dsimp only at hleft hexpected ⊢
      rw [htake]
      refine ⟨rfl, ?_, ?_, hcalm'⟩
      · exact Nat.lt_of_le_of_lt hlength (hleft rfl)
      · rintro cause hmem
        obtain heq | hmem := List.mem_cons.mp hmem
        · exact hexpected cause (congrArg some heq.symm)
        · exact hitems cause hmem

def keys (limit : Nat) : CheckedM Session (List (Except StoreError Bytes) × Bool) := fun session =>
  match takeItems .fresh session limit with
  | .ok (items, _, session') => .ok (items, decide (items.length < limit)) session'
  | .error fault => .error (.fault fault) session

end PageTrie.Checked
