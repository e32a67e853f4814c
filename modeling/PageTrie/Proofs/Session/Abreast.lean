import PageTrie.Proofs.Session.Faithful
import PageTrie.Proofs.Session.Step

/-! Two sessions side by side. Calls that change no pair give both the same answer as soon as
the two see the same trie and the same pages, and go on from the same scan point where they do
not start the scan over: neither what is in memory nor how each was opened has a say. -/
namespace PageTrie

def Call.isChange : Call → Bool
  | .store _ _ | .delete _ => true
  | _ => false

namespace Session

/-- Two runs of a call end in the same answer or in the same failure. -/
inductive Matches {α : Type} (P : α → Session → Session → Prop) (Q : Session → Session → Prop) :
    EStateM.Result StoreError Session α → EStateM.Result StoreError Session α → Prop
  | ok {a : α} {session other : Session} (done : P a session other) :
      Matches P Q (.ok a session) (.ok a other)
  | error {cause : StoreError} {session other : Session} (failed : Q session other) :
      Matches P Q (.error cause session) (.error cause other)

theorem run_flagging (call : SessionM α) (session : Session) :
    (flagging call).run session =
      match call.run session with
      | .ok a session' => .ok a session'
      | .error cause session' =>
        .error cause (if cause.isIo = true then session'.flagged else session') := rfl

section Matches

variable {α β : Type} {P : α → Session → Session → Prop} {P' : β → Session → Session → Prop}
  {Q Q' : Session → Session → Prop} {session other : Session}

theorem Matches.mono {result result' : EStateM.Result StoreError Session α}
    (h : Matches P Q result result') {P' : α → Session → Session → Prop}
    (hdone : ∀ a session other, P a session other → P' a session other)
    (hfailed : ∀ session other, Q session other → Q' session other) :
    Matches P' Q' result result' := by
  cases h with
  | ok done => exact .ok (hdone _ _ _ done)
  | error failed => exact .error (hfailed _ _ failed)

theorem Matches.bind {x : SessionM α} {f : α → SessionM β}
    (h : Matches P Q (x.run session) (x.run other))
    (hnext : ∀ a session' other', P a session' other' →
      Matches P' Q ((f a).run session') ((f a).run other')) :
    Matches P' Q ((x >>= f).run session) ((x >>= f).run other) := by
  generalize hleft : x.run session = result at h
  generalize hright : x.run other = result' at h
  cases h with
  | ok done =>
    rw [run_bind_ok hleft, run_bind_ok hright]
    exact hnext _ _ _ done
  | error failed =>
    rw [run_bind_error hleft, run_bind_error hright]
    exact .error failed

theorem Matches.map {x : SessionM α} (f : α → β)
    (h : Matches (fun _ => Q) Q (x.run session) (x.run other)) :
    Matches (fun _ => Q) Q ((f <$> x).run session) ((f <$> x).run other) := by
  rw [map_eq_pure_bind]
  apply h.bind
  intro a session' other' hdone
  exact .ok hdone

theorem Matches.flagging {x : SessionM α} (h : Matches P Q (x.run session) (x.run other))
    (hflagged : ∀ session other, Q session other → Q session.flagged other.flagged) :
    Matches P Q ((flagging x).run session) ((flagging x).run other) := by
  rw [run_flagging, run_flagging]
  generalize x.run session = result at h ⊢
  generalize x.run other = result' at h ⊢
  cases h with
  | ok done => exact .ok done
  | @error cause session' other' failed =>
    dsimp only
    cases cause.isIo with
    | true => exact .error (hflagged _ _ failed)
    | false => exact .error failed

theorem Matches.step {call : Call}
    (h : Matches (fun _ => Q) Q ((perform call).run session) ((perform call).run other)) :
    (session.step call).1 = (other.step call).1 ∧
      Q (session.step call).2 (other.step call).2 := by
  unfold Session.step
  generalize (perform call).run session = result at h
  generalize (perform call).run other = result' at h
  cases h with
  | ok done => exact ⟨rfl, done⟩
  | error failed => exact ⟨rfl, failed⟩

end Matches

/-- Two faithful sessions see the same trie and the same pages. -/
structure Abreast (session other : Session) : Prop where
  left : session.Faithful
  right : other.Faithful
  sees_eq : session.directory.sees = other.directory.sees
  directory_eq : session.directory.file.content = other.directory.file.content
  pages_eq : session.pages.content = other.pages.content
  limits_eq : session.directory.file.limit = other.directory.file.limit ∧
    session.pages.limit = other.pages.limit

/-- A session changed at most in what is in memory, in the flag and in the scan point. -/
def Peeks (session session' : Session) : Prop :=
  session'.forgetting =
    { session.forgetting with failed := session'.failed, scan := session'.scan }

structure Looked (session other session' other' : Session) : Prop where
  abreast : session'.Abreast other'
  left : session.Peeks session'
  right : other.Peeks other'
  failed_eq : session.failed = other.failed → session'.failed = other'.failed
  scan_eq : session.scan = other.scan → session'.scan = other'.scan

section Abreast

variable {session other session' other' : Session}

theorem Peeks.trans {session'' : Session} (h : session.Peeks session')
    (h' : session'.Peeks session'') : session.Peeks session'' := by
  unfold Peeks at h' ⊢
  rw [h', h]

theorem Abreast.looked (h : session.Abreast other) (hleft : session'.Faithful)
    (hright : other'.Faithful) (hpeeks : session.Peeks session') (hpeeks' : other.Peeks other')
    (hfailed : session.failed = other.failed → session'.failed = other'.failed)
    (hscan : session.scan = other.scan → session'.scan = other'.scan) :
    Looked session other session' other' := by
  refine ⟨⟨hleft, hright, ?_, ?_, ?_, ?_, ?_⟩, hpeeks, hpeeks', hfailed, hscan⟩
  · have hsees := congrArg (fun session => session.directory.sees) hpeeks
    have hsees' := congrArg (fun session => session.directory.sees) hpeeks'
    exact hsees.trans (h.sees_eq.trans hsees'.symm)
  · have hfile := congrArg (fun session => session.directory.file.content) hpeeks
    have hfile' := congrArg (fun session => session.directory.file.content) hpeeks'
    exact hfile.trans (h.directory_eq.trans hfile'.symm)
  · have hfile := congrArg (fun session => session.pages.content) hpeeks
    have hfile' := congrArg (fun session => session.pages.content) hpeeks'
    exact hfile.trans (h.pages_eq.trans hfile'.symm)
  · have hfile := congrArg (fun session => session.directory.file.limit) hpeeks
    have hfile' := congrArg (fun session => session.directory.file.limit) hpeeks'
    exact hfile.trans (h.limits_eq.1.trans hfile'.symm)
  · have hfile := congrArg (fun session => session.pages.limit) hpeeks
    have hfile' := congrArg (fun session => session.pages.limit) hpeeks'
    exact hfile.trans (h.limits_eq.2.trans hfile'.symm)

theorem Abreast.refl_looked (h : session.Abreast other) : Looked session other session other :=
  h.looked h.left h.right rfl rfl id id

theorem Looked.trans {session'' other'' : Session} (h : Looked session other session' other')
    (h' : Looked session' other' session'' other'') :
    Looked session other session'' other'' where
  abreast := h'.abreast
  left := h.left.trans h'.left
  right := h.right.trans h'.right
  failed_eq := h'.failed_eq ∘ h.failed_eq
  scan_eq := h'.scan_eq ∘ h.scan_eq

theorem Looked.flagged (h : Looked session other session' other') :
    Looked session other session'.flagged other'.flagged :=
  h.trans (h.abreast.looked h.abreast.left.flagged h.abreast.right.flagged rfl rfl
    (fun _ => rfl) id)

theorem Looked.scanning (h : Looked session other session' other') (scan : ScanPoint) :
    Looked session other (session'.scanning scan) (other'.scanning scan) :=
  h.trans (h.abreast.looked (h.abreast.left.setting _ scan) (h.abreast.right.setting _ scan) rfl rfl
    id fun _ => rfl)

variable (h : session.Abreast other)
include h

theorem Abreast.pageOnDisk_eq : session.pageOnDisk = other.pageOnDisk :=
  pageOnDisk_congr h.pages_eq h.limits_eq.2

theorem Abreast.leafOf_eq (hash : UInt32) : session.leafOf hash = other.leafOf hash :=
  congrArg (TrieNode.leaf · hash) h.sees_eq

theorem Abreast.pageAt (number : Nat) :
    Matches (fun _ => Looked session other) (Looked session other)
      ((pageAt number).run session) ((pageAt number).run other) := by
  rw [h.left.pageAt, h.right.pageAt]
  have hcoherent := h.left.ready.coherent
  have hcoherent' := h.right.ready.coherent
  cases hread : session.pageOnDisk number with
  | ok page =>
    have hread' := h.pageOnDisk_eq ▸ hread
    rw [hread']
    exact .ok (h.looked (h.left.loaded hcoherent hread) (h.right.loaded hcoherent' hread') rfl rfl
      id id)
  | error cause =>
    rw [← h.pageOnDisk_eq, hread]
    exact .error (h.looked (h.left.unloaded hcoherent) (h.right.unloaded hcoherent') rfl rfl
      id id)

structure Located (hash : UInt32) (found : TrieNode × Page) (session other : Session) : Prop where
  inOrder : found.2.InOrder
  onPath : ∃ depth ≤ hashWidth, found.1 = TrieNode.onPath hash depth
  cached_eq : session.cached = other.cached

theorem Abreast.leafFor (hash : UInt32) :
    Matches (fun found session' other' =>
        Looked session other session' other' ∧ Located hash found session' other')
      (Looked session other) ((leafFor hash).run session) ((leafFor hash).run other) := by
  obtain ⟨block, hblock, hrun⟩ := h.left.leafFor hash
  obtain ⟨block', hblock', hrun'⟩ := h.right.leafFor hash
  rw [← h.leafOf_eq] at hrun'
  rw [hrun, hrun']
  cases hread : session.pageOnDisk ((session.leafOf hash).page hash) with
  | ok page =>
    have hread' := h.pageOnDisk_eq ▸ hread
    rw [hread']
    refine .ok ⟨?_, ⟨?_, session.leafOf_eq_onPath hash, rfl⟩⟩
    · exact h.looked (h.left.loaded hblock hread) (h.right.loaded hblock' hread') rfl rfl
        id id
    · exact (diskPage_of_pageOnDisk h.left.ready.regular hread).1
  | error cause =>
    rw [← h.pageOnDisk_eq, hread]
    exact .error (h.looked (h.left.unloaded hblock) (h.right.unloaded hblock') rfl rfl
      id id)

theorem Abreast.fetch (key : Bytes) :
    Matches (fun _ => Looked session other) (Looked session other)
      ((fetch key).run session) ((fetch key).run other) := by
  unfold Session.fetch
  by_cases hkey : key = []
  · rw [hkey, run_bind_error run_requireKey_nil, run_bind_error run_requireKey_nil]
    exact .error h.refl_looked
  · rw [run_bind_ok (run_requireKey hkey), run_bind_ok (run_requireKey hkey)]
    apply ((h.leafFor (keyHash key)).flagging fun _ _ => Looked.flagged).bind
    intro found session' other' hfound
    exact .ok hfound.1

theorem Abreast.contains (key : Bytes) :
    Matches (fun _ => Looked session other) (Looked session other)
      ((contains key).run session) ((contains key).run other) := by
  apply (h.fetch key).bind
  intro value session' other' hlooked
  exact .ok hlooked

theorem Abreast.countBits :
    Matches (fun _ => Looked session other) (Looked session other)
      (countBits.run session) (countBits.run other) := by
  refine Matches.flagging ?_ fun _ _ => Looked.flagged
  have hblocks := Directory.blocksInFile_congr h.directory_eq
  have hones := Directory.onesFrom_congr h.directory_eq h.limits_eq.1 0 0
    session.directory.blocksInFile
  rw [EStateM.run, EStateM.run, onDirectory, onDirectory, EStateM.run, EStateM.run,
    Directory.count, Directory.count, ← hblocks, ← hones]
  cases session.directory.onesFrom 0 0 session.directory.blocksInFile with
  | ok total => exact .ok h.refl_looked
  | error cause => exact .error h.refl_looked

end Abreast

section Abreast

variable {session other : Session}

/-- Looked at in step: the scan points are the same afterwards, however they were before. -/
structure Scanned (session other session' other' : Session) : Prop where
  looked : Looked session other session' other'
  scan_eq : session'.scan = other'.scan

theorem Scanned.flagged {session' other' : Session}
    (h : Scanned session other session' other') :
    Scanned session other session'.flagged other'.flagged := ⟨h.looked.flagged, h.scan_eq⟩

theorem Looked.scanned {session' other' session'' other'' : Session}
    (h : Looked session other session' other') (h' : Scanned session' other' session'' other'') :
    Scanned session other session'' other'' := ⟨h.trans h'.looked, h'.scan_eq⟩

theorem Abreast.nextWithin (h : session.Abreast other) (hscan : session.scan = other.scan)
    (remaining : Nat) :
    Matches (fun _ => Scanned session other) (Scanned session other)
      ((nextWithin remaining).run session) ((nextWithin remaining).run other) := by
  induction remaining generalizing session other with
  | zero => exact .ok ⟨h.refl_looked, hscan⟩
  | succ remaining ih =>
    unfold Session.nextWithin
    rw [run_get_bind, run_get_bind, ← hscan]
    have hpage := (h.pageAt session.scan.block).mono (fun _ _ _ => id)
      fun _ _ hlooked => Scanned.mk hlooked (hlooked.scan_eq hscan)
    apply hpage.bind
    intro page session' other' hlooked
    split
    · rw [run_bind_ok (EStateM.run_modify _ _), run_bind_ok (EStateM.run_modify _ _)]
      exact .ok ⟨hlooked.scanning _, rfl⟩
    · rw [run_bind_ok (EStateM.run_modify _ _), run_bind_ok (EStateM.run_modify _ _)]
      have hmoved := hlooked.scanning ⟨session.scan.block + 1, 0⟩
      exact (ih hmoved.abreast rfl).mono (fun _ _ _ => hmoved.scanned) fun _ _ => hmoved.scanned

theorem Abreast.nextKey (h : session.Abreast other) (hscan : session.scan = other.scan) :
    Matches (fun _ => Scanned session other) (Scanned session other)
      (nextKey.run session) (nextKey.run other) := by
  refine Matches.flagging ?_ fun _ _ => Scanned.flagged
  have hpages : session.pagesInFile = other.pagesInFile := by
    unfold pagesInFile OpenFile.length
    rw [h.pages_eq]
  rw [run_get_bind, run_get_bind, ← hpages, ← hscan]
  exact h.nextWithin hscan _

theorem Abreast.firstKey (h : session.Abreast other) :
    Matches (fun _ => Scanned session other) (Scanned session other)
      (firstKey.run session) (firstKey.run other) := by
  have hstart := h.refl_looked.scanning ⟨0, 0⟩
  exact (hstart.abreast.nextKey rfl).mono (fun _ _ _ => hstart.scanned) fun _ _ => hstart.scanned

structure Passed {α : Type} (session other : Session) (result result' : α × KeyStream × Session) :
    Prop where
  answer_eq : result.1 = result'.1
  stream_eq : result.2.1 = result'.2.1
  looked : Looked session other result.2.2 result'.2.2
  scan_eq : result.2.1.started = true → result.2.2.scan = result'.2.2.scan

theorem Abreast.next (h : session.Abreast other) (stream : KeyStream)
    (hscan : stream.started = true → session.scan = other.scan) :
    Passed session other (stream.next session) (stream.next other) := by
  unfold KeyStream.next
  split
  · exact ⟨rfl, rfl, h.refl_looked, hscan⟩
  · have hstep : Matches (fun _ => Scanned session other) (Scanned session other)
        ((if stream.started = true then Session.nextKey else Session.firstKey).run session)
        ((if stream.started = true then Session.nextKey else Session.firstKey).run other) := by
      split
      · next hstarted => exact h.nextKey (hscan hstarted)
      · exact h.firstKey
    generalize (if stream.started = true then Session.nextKey else Session.firstKey).run session =
      result at hstep
    generalize (if stream.started = true then Session.nextKey else Session.firstKey).run other =
      result' at hstep
    cases hstep with
    | @ok key session' other' done =>
      cases key with
      | none => exact ⟨rfl, rfl, done.looked, fun _ => done.scan_eq⟩
      | some key => exact ⟨rfl, rfl, done.looked, fun _ => done.scan_eq⟩
    | error failed => exact ⟨rfl, rfl, failed.looked, fun _ => failed.scan_eq⟩

theorem Abreast.take (h : session.Abreast other) (stream : KeyStream)
    (hscan : stream.started = true → session.scan = other.scan) (limit : Nat) :
    Passed session other (stream.take session limit) (stream.take other limit) := by
  induction limit generalizing stream session other with
  | zero => exact ⟨rfl, rfl, h.refl_looked, hscan⟩
  | succ limit ih =>
    have hnext := h.next stream hscan
    unfold KeyStream.take
    generalize stream.next session = result at hnext
    generalize stream.next other = result' at hnext
    obtain ⟨item, stream', session'⟩ := result
    obtain ⟨item', stream'', other'⟩ := result'
    obtain ⟨rfl, rfl, hlooked, hscan'⟩ := hnext
    cases item with
    | none => exact ⟨rfl, rfl, hlooked, hscan'⟩
    | some item =>
      have hrest := ih hlooked.abreast stream' hscan'
      exact ⟨congrArg (item :: ·) hrest.answer_eq, hrest.stream_eq, hlooked.trans hrest.looked,
        hrest.scan_eq⟩

theorem Abreast.keys (h : session.Abreast other) (limit : Nat) :
    Matches (fun _ => Looked session other) (Looked session other)
      ((keys limit).run session) ((keys limit).run other) := by
  have htake := h.take .fresh Bool.noConfusion limit
  rw [EStateM.run, EStateM.run, Session.keys, Session.keys]
  generalize KeyStream.fresh.take session limit = result at htake
  generalize KeyStream.fresh.take other limit = result' at htake
  obtain ⟨items, stream, session'⟩ := result
  obtain ⟨items', stream', other'⟩ := result'
  obtain ⟨rfl, rfl, hlooked, -⟩ := htake
  exact .ok hlooked

/-- Calls that change no pair answer the same on sessions that see the same. -/
theorem Abreast.step (h : session.Abreast other) {call : Call} (hcall : call.isChange = false)
    (hscan : call = .nextKey → session.scan = other.scan) :
    (session.step call).1 = (other.step call).1 ∧
      Looked session other (session.step call).2 (other.step call).2 := by
  have hlooked {α : Type} {result result' : EStateM.Result StoreError Session α}
      (hscanned : Matches (fun _ => Scanned session other) (Scanned session other)
        result result') :
      Matches (fun _ => Looked session other) (Looked session other) result result' :=
    hscanned.mono (fun _ _ _ => Scanned.looked) fun _ _ => Scanned.looked
  apply Matches.step
  cases call with
  | store | delete => cases hcall
  | fetch key => exact (h.fetch key).map _
  | contains key => exact (h.contains key).map _
  | firstKey => exact (hlooked h.firstKey).map _
  | nextKey => exact (hlooked (h.nextKey (hscan rfl))).map _
  | keys limit => exact (h.keys limit).map _
  | countBits => exact h.countBits.map _
  | sync directory pages =>
    cases directory with
    | some cause => exact .error h.refl_looked.flagged
    | none =>
      cases pages with
      | some cause => exact .error h.refl_looked.flagged
      | none => exact .ok h.refl_looked
  | clearError =>
    exact .ok (h.looked (h.left.setting false _) (h.right.setting false _) rfl rfl (fun _ => rfl)
      id)

theorem Abreast.scan_firstKey (h : session.Abreast other) :
    (session.step .firstKey).2.scan = (other.step .firstKey).2.scan := by
  have hscanned : Matches (fun _ => Scanned session other) (Scanned session other)
      ((perform .firstKey).run session) ((perform .firstKey).run other) := h.firstKey.map _
  exact hscanned.step.2.scan_eq

end Abreast

end Session

end PageTrie
