import PageTrie.Proofs.SparedFiles

/-! The scan over page files of any contents. It hands out the keys of the readable blocks in
order, and then gives the same answer for ever: that it is done, or which block stops it. -/
namespace PageTrie

def passItems (ending : Option StoreError) (keys : List Bytes) : List (Except StoreError Bytes) :=
  keys.map .ok ++ (ending.map .error).toList

namespace Session

theorem browsing_faithful : Browsing Faithful where
  regular h := h.ready.regular
  read {session number} h _ := by
    rw [h.pageAt]
    cases hread : session.pageOnDisk number with
    | ok page =>
      have hdisk : (session.keeping (some (number, page))).pageOnDisk = session.pageOnDisk :=
        pageOnDisk_congr rfl rfl
      refine ⟨some (number, page), rfl, (h.ready.keeping _).faithful_of_read rfl ?_⟩
      rw [hdisk, hread]
    | error cause => exact ⟨none, rfl, (h.ready.keeping none).faithful rfl⟩
  scanning {session} h scan := h.setting session.failed scan
  flagged h := h.flagged

variable {count : Nat} {ending : Option StoreError}

theorem step_of_run {call : Call} {session session' : Session} {answer : Except StoreError Reply}
    (h : (perform call).run session = (ofResult answer).run session') :
    session.step call = (answer, session') := by
  cases answer with
  | ok reply => exact step_ok h
  | error cause => exact step_error h

theorem run_map_ofResult {x : SessionM α} {session session' : Session} {answer : Except StoreError α}
    (f : α → β) (h : x.run session = (ofResult answer).run session') :
    (f <$> x).run session = (ofResult (answer.map f)).run session' := by
  cases answer with
  | ok a => exact run_map_ok f h
  | error cause => exact run_map_error f h

theorem Sweeping.step_nextKey {session : Session} {rest : List Bytes}
    (h : Sweeping Faithful count ending session rest) :
    ∃ session', session.step .nextKey = ((scanAnswer ending rest.head?).map .key, session') ∧
      Sweeping Faithful count ending session' rest.tail := by
  obtain ⟨session', hrun, hsweeping⟩ := h.nextKey browsing_faithful
  exact ⟨session', step_of_run (run_map_ofResult Reply.key hrun), hsweeping⟩

theorem answers_of_step {session session' : Session} {call : Call} {rest : List Bytes} {n : Nat}
    (hstep : session.step call = ((scanAnswer ending rest.head?).map .key, session'))
    (hanswers : session'.answers (List.replicate n .nextKey) =
      (List.range n).map fun i => (scanAnswer ending rest.tail[i]?).map .key) :
    session.answers (call :: List.replicate n .nextKey) =
      (List.range (n + 1)).map fun i => (scanAnswer ending rest[i]?).map .key := by
  rw [Session.answers, hstep, hanswers, List.range_succ_eq_map, List.map_cons, List.map_map,
    List.head?_eq_getElem?]
  simp only [List.getElem?_tail, Function.comp_def, Nat.succ_eq_add_one]

theorem Sweeping.answers {session : Session} {rest : List Bytes}
    (h : Sweeping Faithful count ending session rest) (n : Nat) :
    session.answers (List.replicate n .nextKey) =
        (List.range n).map (fun i => (scanAnswer ending rest[i]?).map .key) ∧
      (session.run (List.replicate n .nextKey)).scan.block ≤ count := by
  induction n generalizing session rest with
  | zero => exact ⟨rfl, h.block_le⟩
  | succ n ih =>
    obtain ⟨session', hstep, hsweeping⟩ := h.step_nextKey
    obtain ⟨hanswers, hblock⟩ := ih hsweeping
    refine ⟨answers_of_step hstep hanswers, ?_⟩
    rw [List.replicate_succ, run_cons, hstep]
    exact hblock

/-- A pass over the keys, with the items that it has still to give. -/
inductive Passing (count : Nat) (ending : Option StoreError) :
    KeyStream → Session → List (Except StoreError Bytes) → Prop
  | fresh {session : Session} (faithful : session.Faithful)
      (sweeps : Sweeps session.diskPage session.pagesInFile count ending) :
      Passing count ending .fresh session
        (passItems ending (keysBetween session.diskPage 0 count))
  | under {session : Session} {rest : List Bytes}
      (sweeping : Sweeping Faithful count ending session rest) :
      Passing count ending ⟨true, false⟩ session (passItems ending rest)
  | ended (session : Session) : Passing count ending ⟨true, true⟩ session []

theorem passing_of_run {session session' : Session} {rest : List Bytes} {started : Bool}
    (hrun : (if started then nextKey else firstKey).run session =
      (ofResult (scanAnswer ending rest.head?)).run session')
    (hsweeping : Sweeping Faithful count ending session' rest.tail) :
    ∃ stream' session'', KeyStream.next ⟨started, false⟩ session =
        ((passItems ending rest).head?, stream', session'') ∧
      Passing count ending stream' session'' (passItems ending rest).tail := by
  unfold KeyStream.next
  dsimp only
  rw [if_neg Bool.false_ne_true, hrun]
  cases rest with
  | cons key rest => exact ⟨_, _, rfl, .under hsweeping⟩
  | nil =>
    cases ending with
    | none => exact ⟨_, _, rfl, .ended session'⟩
    | some cause => exact ⟨_, _, rfl, .ended session'⟩

theorem Passing.next {stream : KeyStream} {session : Session}
    {items : List (Except StoreError Bytes)} (h : Passing count ending stream session items) :
    ∃ stream' session', stream.next session = (items.head?, stream', session') ∧
      Passing count ending stream' session' items.tail := by
  cases h with
  | fresh faithful sweeps =>
    obtain ⟨session', hrun, hsweeping⟩ := browsing_faithful.firstKey faithful sweeps
    exact passing_of_run hrun hsweeping
  | under sweeping =>
    obtain ⟨session', hrun, hsweeping⟩ := sweeping.nextKey browsing_faithful
    exact passing_of_run hrun hsweeping
  | ended => exact ⟨_, _, rfl, .ended session⟩

theorem Passing.step_keys {session : Session} {items : List (Except StoreError Bytes)}
    (h : Passing count ending .fresh session items) (limit : Nat) :
    (session.step (.keys limit)).1 =
      .ok (.keys (items.take limit) (decide (items.length < limit))) := by
  obtain ⟨stream', session', htake, -⟩ := KeyStream.items_taken Passing.next h limit
  have hlength : (items.take limit).length < limit ↔ items.length < limit := by
    rw [List.length_take]
    omega
  have hkeys : (Session.keys limit).run session =
      .ok (items.take limit, decide (items.length < limit)) session' := by
    rw [EStateM.run, Session.keys, htake]
    simp only [hlength]
  rw [step_ok (run_map_ok _ hkeys)]

/-- A scan of a page file of any contents gives the keys of its blocks up to the first that
cannot be read as a page, and from then on the same answer: none, or that block's failure. No
call goes past the blocks of the file, and a pass gives the same keys and at most one failure. -/
theorem scan_sweeps {session : Session} (h : session.Arises) :
    ∃ count ending, Sweeps session.diskPage session.pagesInFile count ending ∧
      (∀ n, session.answers (.firstKey :: List.replicate n .nextKey) =
        (List.range (n + 1)).map fun i =>
          (scanAnswer ending (keysBetween session.diskPage 0 count)[i]?).map .key) ∧
      (∀ n, (session.run (.firstKey :: List.replicate n .nextKey)).scan.block ≤
        session.pagesInFile) ∧
      (∀ limit, (session.step (.keys limit)).1 = .ok (.keys
        ((passItems ending (keysBetween session.diskPage 0 count)).take limit)
        (decide ((passItems ending (keysBetween session.diskPage 0 count)).length < limit)))) ∧
      ∀ n, ((KeyStream.fresh.after session n).1.next (KeyStream.fresh.after session n).2).1 =
        (passItems ending (keysBetween session.diskPage 0 count))[n]? := by
  obtain ⟨count, ending, hsweeps⟩ := exists_sweeps session.diskPage session.pagesInFile
  have hpassing : Passing count ending .fresh session _ := .fresh h.faithful hsweeps
  obtain ⟨session', hrun, hsweeping⟩ := browsing_faithful.firstKey h.faithful hsweeps
  have hstep : session.step .firstKey = ((scanAnswer ending
      (keysBetween session.diskPage 0 count).head?).map .key, session') :=
    step_of_run (run_map_ofResult Reply.key hrun)
  refine ⟨count, ending, hsweeps, fun n => ?_, fun n => ?_, hpassing.step_keys,
    KeyStream.item_after Passing.next hpassing⟩
  · exact answers_of_step hstep (hsweeping.answers n).1
  · rw [run_cons, hstep]
    exact (hsweeping.answers n).2.trans hsweeps.le

theorem scan_sweeps_damaged :
    damaged.Arises ∧ ∃ count ending, Sweeps damaged.diskPage damaged.pagesInFile count ending ∧
      damaged.answers [.firstKey, .nextKey] = (List.range 2).map fun i =>
        (scanAnswer ending (keysBetween damaged.diskPage 0 count)[i]?).map .key := by
  have harises : damaged.Arises := ⟨_, _, _, _, _, _, _, rfl⟩
  obtain ⟨count, ending, hsweeps, hanswers, -⟩ := scan_sweeps harises
  exact ⟨harises, count, ending, hsweeps, hanswers 1⟩

/-- A store of one pair, with its page in memory, whose page file others have blanked since. -/
def stale : Session :=
  { (onFiles .ofNumberedBlocks {} 1 2 .empty .empty).run [.store ⟨[97], [49]⟩ .insert] with
    pages :=
      FileSystem.ofNumberedBlocks.file 2 .readWrite (.regular (SparseFile.empty.resize 1024)) }

def longHole : SparseFile := SparseFile.empty.resize 0x7fffffffffffffff

def onLongHole : Session := onFiles .ofNumberedBlocks {} 1 2 .empty longHole

theorem byte_resize_empty (size i : Nat) : (SparseFile.empty.resize size).byte i = 0 := by
  rw [SparseFile.byte_resize, SparseFile.byte_eq_zero _ (Nat.zero_le i)]
  exact ite_self _

theorem diskPage_of_clear {session : Session} (h : ∀ i, session.pages.byte i = 0) (number : Nat) :
    session.diskPage number = Page.empty := by
  have hwindow : session.pages.window (number * pageSize) pageSize = Buffer.zeros pageSize := by
    apply Buffer.ext_byte
    intro i hi
    rw [OpenFile.byte_window, if_pos hi, Buffer.byte_zeros]
    exact h _
  rw [diskPage, hwindow]
  rfl

theorem keysBetween_of_clear {session : Session} (h : ∀ i, session.pages.byte i = 0)
    (first last : Nat) : keysBetween session.diskPage first last = [] := by
  rw [keysBetween, List.flatMap_eq_nil_iff]
  intro number _
  rw [diskPage_of_clear h, Page.toList_empty, List.map_nil]

theorem clear_onLongHole (i : Nat) : onLongHole.pages.byte i = 0 := by
  change longHole.byte i = 0
  exact byte_resize_empty _ i

theorem firstKey_onLongHole : (onLongHole.step .firstKey).1 = .error (.io .invalidOffset) := by
  have hfaithful : onLongHole.Faithful := faithful_onFiles _ _ _ _ _ _
  have hclear := clear_onLongHole
  have hcount : onLongHole.pagesInFile = 0x20000000000000 := rfl
  have hreadable : ∀ number < 0x1fffffffffffff, Readable onLongHole.diskPage number := by
    intro number hnumber
    refine ⟨?_, by rw [diskPage_of_clear hclear]; exact Page.isWellFormed_empty⟩
    change number * 1024 + 1024 < 0x8000000000000000
    omega
  have hsweeps : Sweeps onLongHole.diskPage onLongHole.pagesInFile 0x1fffffffffffff
      (some (.io .invalidOffset)) :=
    .beyond (by rw [hcount]; decide) hreadable (by decide)
  obtain ⟨session', hrun, -⟩ := browsing_faithful.firstKey hfaithful hsweeps
  rw [keysBetween_of_clear hclear] at hrun
  have hstep : onLongHole.step .firstKey = (.error (.io .invalidOffset), session') :=
    step_of_run (run_map_ofResult Reply.key hrun)
  rw [hstep]

set_option maxRecDepth 10000 in
theorem firstKey_stale : (stale.step .firstKey).1 = .ok (.key (some [97])) := by rfl

/-- A page in memory can give a key that the file no longer has, and a scan of pages that are all
well formed fails at a block that no read comes to the end of. -/
theorem sweep_fails :
    (∀ number, stale.diskPage number = Page.empty) ∧
      (stale.step .firstKey).1 = .ok (.key (some [97])) ∧
      (∀ number, (onLongHole.diskPage number).isWellFormed = true) ∧
      (onLongHole.step .firstKey).1 = .error (.io .invalidOffset) := by
  refine ⟨diskPage_of_clear (byte_resize_empty _), firstKey_stale, fun number => ?_,
    firstKey_onLongHole⟩
  rw [diskPage_of_clear clear_onLongHole]
  exact Page.isWellFormed_empty

end Session

end PageTrie
