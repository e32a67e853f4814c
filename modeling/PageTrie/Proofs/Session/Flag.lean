import PageTrie.Proofs.Session.Abreast

/-! The flag of a session. No call reads it: sessions that differ in nothing else answer every
run of calls alike. A call raises it if its answer reports a failure on the files, and only
clearing it takes it down. -/
namespace PageTrie

def isIoFailure {α : Type} : Except StoreError α → Bool
  | .error cause => cause.isIo
  | .ok _ => false

/-- The answer reports a failure on the files. A pass over the keys reports one as an item. -/
def reportsIo : Except StoreError Reply → Bool
  | .ok (.keys items _) => items.any isIoFailure
  | answer => isIoFailure answer

def Call.flagAfter (failed : Bool) (answer : Except StoreError Reply) : Call → Bool
  | .clearError => false
  | _ => reportsIo answer || failed

namespace Session

def withFlag (session : Session) (failed : Bool) : Session := { session with failed }

def SameButFlag (session other : Session) : Prop := ∃ failed, other = { session with failed }

theorem sameButFlag_flagged (session : Session) : session.SameButFlag session.flagged :=
  ⟨true, rfl⟩

/-- A result with another flag, which a failure of the kind given raises. -/
def reflagged {α : Type} (raises : StoreError → Bool) (failed : Bool) :
    EStateM.Result StoreError Session α → EStateM.Result StoreError Session α
  | .ok a session => .ok a (session.withFlag failed)
  | .error cause session => .error cause (session.withFlag (raises cause || failed))

/-- What a computation comes to does not depend on the flag, and nothing changes the flag but a
failure of the kind given, which raises it. -/
def Flagwise {α : Type} (raises : StoreError → Bool) (x : SessionM α) : Prop :=
  ∀ (session : Session) (failed : Bool),
    x.run (session.withFlag failed) = reflagged raises failed (x.run session)

abbrev LeavesFlag {α : Type} (x : SessionM α) : Prop := Flagwise (fun _ => false) x

abbrev TracksFlag {α : Type} (x : SessionM α) : Prop := Flagwise StoreError.isIo x

section Parts

variable {α β : Type} {raises : StoreError → Bool}

theorem Flagwise.pure (a : α) : Flagwise raises (pure a : SessionM α) := fun _ _ => rfl

theorem Flagwise.throw {cause : StoreError} (h : raises cause = false) :
    Flagwise raises (throw cause : SessionM α) := by
  intro session failed
  change EStateM.Result.error cause (session.withFlag failed) =
    .error cause (session.withFlag (raises cause || failed))
  rw [h, Bool.false_or]

theorem Flagwise.bind {x : SessionM α} {f : α → SessionM β} (hx : Flagwise raises x)
    (hf : ∀ a, Flagwise raises (f a)) : Flagwise raises (x >>= f) := by
  intro session failed
  have hrun := hx session failed
  cases hresult : x.run session with
  | ok a session' =>
    rw [hresult] at hrun
    rw [run_bind_ok hrun, run_bind_ok hresult, hf a session' failed]
  | error cause session' =>
    rw [hresult] at hrun
    rw [run_bind_error hrun, run_bind_error hresult]
    rfl

theorem Flagwise.modify {change : Session → Session}
    (h : ∀ session failed, change (session.withFlag failed) = (change session).withFlag failed) :
    Flagwise raises (modify change : SessionM Unit) := fun session failed =>
  congrArg (EStateM.Result.ok ()) (h session failed)

theorem Flagwise.get_bind {f : Session → SessionM α}
    (hsame : ∀ session failed, f (session.withFlag failed) = f session)
    (hf : ∀ session, Flagwise raises (f session)) : Flagwise raises (get >>= f) := by
  intro session failed
  rw [run_get_bind, run_get_bind, hsame session failed, hf session session failed]

theorem LeavesFlag.flagging {x : SessionM α} (hx : LeavesFlag x) : TracksFlag (flagging x) := by
  intro session failed
  rw [run_flagging, run_flagging, hx session failed]
  cases x.run session with
  | ok a session' => rfl
  | error cause session' =>
    cases hcause : cause.isIo with
    | true => simp only [reflagged, hcause, if_true, Bool.true_or, flagged, withFlag]
    | false => simp only [reflagged, hcause, Bool.false_or, Bool.false_eq_true, if_false]

theorem leavesFlag_onDirectory (call : DirectoryM α) : LeavesFlag (onDirectory call) := by
  intro session failed
  have hsame : (session.withFlag failed).directory = session.directory := rfl
  rw [EStateM.run, EStateM.run, onDirectory, onDirectory, hsame]
  cases call.run session.directory with
  | ok a directory => rfl
  | error cause directory => rfl

theorem leavesFlag_ofResult (result : Except StoreError α) : LeavesFlag (ofResult result) := by
  cases result with
  | ok a => exact .pure a
  | error cause => exact .throw rfl

theorem leavesFlag_pageAt (number : Nat) : LeavesFlag (pageAt number) := by
  intro session failed
  have hkept : (session.withFlag failed).cached? number = session.cached? number := rfl
  have hread : (session.withFlag failed).pageOnDisk = session.pageOnDisk :=
    pageOnDisk_congr rfl rfl
  rw [EStateM.run, EStateM.run, pageAt, pageAt, hkept, hread]
  cases session.cached? number with
  | some page => rfl
  | none =>
    cases session.pageOnDisk number with
    | ok page => rfl
    | error cause => rfl

theorem leavesFlag_keep (number : Nat) (page : Page) : LeavesFlag (keep number page) :=
  .modify fun _ _ => rfl

theorem leavesFlag_putPage (number : Nat) (page : Page) : LeavesFlag (putPage number page) := by
  intro session failed
  have hsame : (session.withFlag failed).pages = session.pages := rfl
  rw [EStateM.run, EStateM.run, putPage, putPage, hsame]
  cases (OpenFile.writeAt (number * pageSize) page.bytes.toList).run session.pages with
  | ok pages => rfl
  | error cause => rfl

end Parts

theorem leavesFlag_descend (hash : UInt32) (node : TrieNode) (remaining : Nat) :
    LeavesFlag (descend hash node remaining) := by
  induction remaining generalizing node with
  | zero => exact .pure node
  | succ remaining ih =>
    refine .get_bind (fun _ _ => rfl) fun session => ?_
    split
    · refine (leavesFlag_onDirectory _).bind fun isSplit => ?_
      split
      · exact ih _
      · exact .pure node
    · exact .pure node

theorem leavesFlag_leafFor (hash : UInt32) : LeavesFlag (leafFor hash) :=
  (leavesFlag_descend hash .root hashWidth).bind fun leaf =>
    (leavesFlag_pageAt (leaf.page hash)).bind fun page => .pure (leaf, page)

theorem leavesFlag_splitLeaf (hash : UInt32) (leaf : TrieNode) (page : Page) :
    LeavesFlag (splitLeaf hash leaf page) := by
  refine (leavesFlag_ofResult _).bind fun halves => ?_
  refine (leavesFlag_putPage _ _).bind fun _ => ?_
  refine (leavesFlag_keep _ _).bind fun _ => ?_
  exact (leavesFlag_onDirectory _).bind fun _ => .pure _

theorem leavesFlag_growWithin (hash : UInt32) (need : Nat) (leaf : TrieNode) (page : Page)
    (budget : Nat) : LeavesFlag (growWithin hash need leaf page budget) := by
  induction budget generalizing leaf page with
  | zero => exact .throw rfl
  | succ budget ih =>
    unfold growWithin
    split
    · exact .throw rfl
    · refine (leavesFlag_splitLeaf hash leaf page).bind fun kept => ?_
      dsimp only
      split
      · exact .pure _
      · exact (leavesFlag_putPage _ kept).bind fun _ => ih _ kept

theorem leavesFlag_grow (hash : UInt32) (need : Nat) (leaf : TrieNode) (page : Page) :
    LeavesFlag (grow hash need leaf page) := by
  intro session failed
  have hgrown := leavesFlag_growWithin hash need leaf page splitBudget session failed
  rw [EStateM.run, EStateM.run, grow, grow, hgrown]
  cases (growWithin hash need leaf page splitBudget).run session with
  | ok found session' => rfl
  | error cause session' => rfl

theorem leavesFlag_place (hash : UInt32) (pair : Pair) (leaf : TrieNode) (page : Page) :
    LeavesFlag (place hash pair leaf page) := by
  have hadd (found : TrieNode × Page) : LeavesFlag (do
      let page ← ofResult (found.2.insert pair)
      keep (found.1.page hash) page
      putPage (found.1.page hash) page : SessionM Unit) := by
    refine (leavesFlag_ofResult _).bind fun page => ?_
    exact (leavesFlag_keep _ page).bind fun _ => leavesFlag_putPage _ page
  unfold place
  dsimp only
  split
  · exact (Flagwise.pure (leaf, page)).bind hadd
  · exact (leavesFlag_grow hash pair.size leaf page).bind hadd

theorem leavesFlag_put (pair : Pair) (mode : PutMode) : LeavesFlag (put pair mode) := by
  refine (leavesFlag_leafFor _).bind fun found => ?_
  cases mode with
  | insert =>
    dsimp only
    split
    · exact .pure _
    · exact (leavesFlag_place _ _ _ _).bind fun _ => .pure _
  | replace =>
    refine (leavesFlag_keep _ _).bind fun _ => ?_
    exact (leavesFlag_place _ _ _ _).bind fun _ => .pure _

theorem leavesFlag_erase (key : Bytes) : LeavesFlag (erase key) := by
  refine (leavesFlag_leafFor _).bind fun found => ?_
  dsimp only
  split
  · exact .pure false
  · refine (leavesFlag_keep _ _).bind fun _ => ?_
    exact (leavesFlag_putPage _ _).bind fun _ => .pure true

theorem leavesFlag_nextWithin (remaining : Nat) : LeavesFlag (nextWithin remaining) := by
  induction remaining with
  | zero => exact .pure none
  | succ remaining ih =>
    refine .get_bind (fun _ _ => rfl) fun session => ?_
    refine (leavesFlag_pageAt _).bind fun page => ?_
    split
    · exact (Flagwise.modify fun _ _ => rfl).bind fun _ => .pure _
    · exact (Flagwise.modify fun _ _ => rfl).bind fun _ => ih

/-! What is refused before the files are looked at does not count as a failure on them. -/

theorem tracksFlag_requireKey (key : Bytes) : TracksFlag (requireKey key) := by
  unfold requireKey
  split
  · exact .throw rfl
  · exact .pure ()

theorem tracksFlag_requireWritable : TracksFlag requireWritable := by
  refine .get_bind (fun _ _ => rfl) fun session => ?_
  split
  · exact .throw rfl
  · exact .pure ()

theorem tracksFlag_store (pair : Pair) (mode : PutMode) : TracksFlag (store pair mode) := by
  refine (tracksFlag_requireKey _).bind fun _ => tracksFlag_requireWritable.bind fun _ => ?_
  split
  · exact (Flagwise.throw rfl).bind fun _ => (leavesFlag_put pair mode).flagging
  · exact (leavesFlag_put pair mode).flagging

theorem tracksFlag_fetch (key : Bytes) : TracksFlag (fetch key) := by
  refine (tracksFlag_requireKey key).bind fun _ => ?_
  exact (leavesFlag_leafFor _).flagging.bind fun found => .pure _

theorem tracksFlag_contains (key : Bytes) : TracksFlag (contains key) :=
  (tracksFlag_fetch key).bind fun _ => .pure _

theorem tracksFlag_delete (key : Bytes) : TracksFlag (delete key) :=
  (tracksFlag_requireKey key).bind fun _ => tracksFlag_requireWritable.bind fun _ =>
    (leavesFlag_erase key).flagging

theorem tracksFlag_nextKey : TracksFlag nextKey :=
  LeavesFlag.flagging (.get_bind (fun _ _ => rfl) fun _ => leavesFlag_nextWithin _)

theorem tracksFlag_firstKey : TracksFlag firstKey :=
  (Flagwise.modify fun _ _ => rfl).bind fun _ => tracksFlag_nextKey

theorem tracksFlag_sync (directory pages : Option IoError) : TracksFlag (sync directory pages) :=
  LeavesFlag.flagging ((leavesFlag_onDirectory _).bind fun _ => leavesFlag_ofResult _)

theorem take_withFlag (stream : KeyStream) (session : Session) (failed : Bool) (limit : Nat) :
    stream.take (session.withFlag failed) limit =
      ((stream.take session limit).1, (stream.take session limit).2.1,
        (stream.take session limit).2.2.withFlag
          ((stream.take session limit).1.any isIoFailure || failed)) := by
  induction limit generalizing stream session failed with
  | zero => rfl
  | succ limit ih =>
    have hnext : TracksFlag (if stream.started = true then nextKey else firstKey) := by
      split
      · exact tracksFlag_nextKey
      · exact tracksFlag_firstKey
    unfold KeyStream.take KeyStream.next
    rw [hnext session failed]
    by_cases hdone : stream.done = true
    · rw [if_pos hdone, if_pos hdone]
      rfl
    rw [if_neg hdone, if_neg hdone]
    cases (if stream.started = true then nextKey else firstKey).run session with
    | ok key session' =>
      cases key with
      | none => rfl
      | some key =>
        dsimp only [reflagged]
        rw [ih]
        rfl
    | error cause session' =>
      dsimp only [reflagged]
      rw [ih, List.any_cons, Bool.or_left_comm, ← Bool.or_assoc]
      rfl

theorem keys_withFlag (session : Session) (failed : Bool) (limit : Nat) :
    ∃ items ended session', (keys limit).run session = .ok (items, ended) session' ∧
      (keys limit).run (session.withFlag failed) =
        .ok (items, ended) (session'.withFlag (items.any isIoFailure || failed)) := by
  rw [EStateM.run, EStateM.run, keys, keys, take_withFlag]
  exact ⟨_, _, _, rfl, rfl⟩

theorem TracksFlag.step {α : Type} {x : SessionM α} (hx : TracksFlag x) (f : α → Reply)
    {call : Call} (hperform : perform call = f <$> x)
    (hreply : ∀ a, reportsIo (.ok (f a)) = false)
    (hflag : ∀ failed answer, call.flagAfter failed answer = (reportsIo answer || failed))
    (session : Session) (failed : Bool) :
    (session.withFlag failed).step call =
      ((session.step call).1,
        (session.step call).2.withFlag (call.flagAfter failed (session.step call).1)) := by
  have hrun := hx session failed
  rw [Session.step, Session.step, hperform, map_eq_pure_bind]
  cases hresult : x.run session with
  | ok a session' =>
    rw [hresult] at hrun
    rw [run_bind_ok hrun, run_bind_ok hresult]
    have hkept : call.flagAfter failed (.ok (f a)) = failed := by
      rw [hflag, hreply, Bool.false_or]
    exact congrArg (fun kept => (_, session'.withFlag kept)) hkept.symm
  | error cause session' =>
    rw [hresult] at hrun
    rw [run_bind_error hrun, run_bind_error hresult]
    dsimp only [reflagged]
    rw [hflag]
    rfl

/-- A call answers the same whatever the flag is, leaves all but the flag the same, and sets the
flag by its answer. -/
theorem step_withFlag (session : Session) (failed : Bool) (call : Call) :
    (session.withFlag failed).step call =
      ((session.step call).1,
        (session.step call).2.withFlag (call.flagAfter failed (session.step call).1)) := by
  cases call with
  | store pair mode =>
    exact (tracksFlag_store pair mode).step .status rfl (fun _ => rfl) (fun _ _ => rfl) _ _
  | fetch key => exact (tracksFlag_fetch key).step .value rfl (fun _ => rfl) (fun _ _ => rfl) _ _
  | contains key =>
    exact (tracksFlag_contains key).step .found rfl (fun _ => rfl) (fun _ _ => rfl) _ _
  | delete key => exact (tracksFlag_delete key).step .found rfl (fun _ => rfl) (fun _ _ => rfl) _ _
  | firstKey => exact tracksFlag_firstKey.step .key rfl (fun _ => rfl) (fun _ _ => rfl) _ _
  | nextKey => exact tracksFlag_nextKey.step .key rfl (fun _ => rfl) (fun _ _ => rfl) _ _
  | keys limit =>
    obtain ⟨items, ended, session', hrun, hrun'⟩ := session.keys_withFlag failed limit
    rw [Session.step, Session.step, perform, map_eq_pure_bind, run_bind_ok hrun, run_bind_ok hrun']
    rfl
  | countBits =>
    exact (leavesFlag_onDirectory _).flagging.step .count rfl (fun _ => rfl) (fun _ _ => rfl) _ _
  | sync directory pages =>
    exact (tracksFlag_sync directory pages).step (fun _ => .done) rfl (fun _ => rfl)
      (fun _ _ => rfl) _ _
  | clearError => rfl

theorem failed_step (session : Session) (call : Call) :
    (session.step call).2.failed = call.flagAfter session.failed (session.step call).1 :=
  congrArg (fun result => result.2.failed) (session.step_withFlag session.failed call)

theorem SameButFlag.step {session other : Session} (h : session.SameButFlag other) (call : Call) :
    (session.step call).1 = (other.step call).1 ∧
      (session.step call).2.SameButFlag (other.step call).2 := by
  obtain ⟨failed, rfl⟩ := h
  change _ = ((session.withFlag failed).step call).1 ∧
    SameButFlag _ ((session.withFlag failed).step call).2
  rw [step_withFlag]
  exact ⟨rfl, _, rfl⟩

end Session

end PageTrie
