import PageTrie.Proofs.Directory.Census

/-! Calls on a directory in any order. Whatever its file holds, after any run of them in which no
write fails the block in memory is a block of the file, and no bit of the file lies past the bound.
A call at a position that the file cannot be sought to is refused, and leaves the file. -/
namespace PageTrie

inductive DirectoryCall where
  | test (bit : Nat)
  | set (bit : Nat)
  | count
  /-- The file is taken for a directory anew. -/
  | reopen
  deriving DecidableEq, Repr

def DirectoryCall.SetsNode : DirectoryCall → Prop
  | .set bit => bit < 0x100000000
  | .test _ | .count | .reopen => True

instance : DecidablePred DirectoryCall.SetsNode
  | .set bit => Nat.decLt bit 0x100000000
  | .test _ | .count | .reopen => .isTrue trivial

inductive DirectoryReply where
  | bit (isSet : Bool)
  | done
  | total (ones : Nat)
  deriving DecidableEq, Repr

namespace OpenFile

structure SameSpan (file other : OpenFile) : Prop where
  regular : other.IsRegular
  extent_eq : other.extent = file.extent

/-- Another regular file can be read and written at the same places. -/
structure SameUse (file other : OpenFile) : Prop extends file.SameSpan other where
  access_eq : other.access = file.access
  stop_eq : other.stop = file.stop

theorem SameSpan.trans {first second third : OpenFile} (h : first.SameSpan second)
    (h' : second.SameSpan third) : first.SameSpan third :=
  ⟨h'.regular, h'.extent_eq.trans h.extent_eq⟩

theorem SameUse.trans {first second third : OpenFile} (h : first.SameUse second)
    (h' : second.SameUse third) : first.SameUse third :=
  ⟨h.toSameSpan.trans h'.toSameSpan, h'.access_eq.trans h.access_eq, h'.stop_eq.trans h.stop_eq⟩

theorem IsRegular.sameSpan {file : OpenFile} (h : file.IsRegular) : file.SameSpan file := ⟨h, rfl⟩

theorem IsRegular.sameUse {file : OpenFile} (h : file.IsRegular) : file.SameUse file :=
  ⟨h.sameSpan, rfl, rfl⟩

theorem sameUse_overwritten {file : OpenFile} (h : file.IsRegular) {pos : Nat} {bs : Bytes}
    (hend : bs ≠ [] → pos + bs.length ≤ file.extent) :
    file.SameUse (file.overwritten pos bs) :=
  ⟨⟨h.overwritten _ _, extent_overwritten h hend⟩, access_overwritten _ _ _,
    stop_overwritten _ _ _⟩

theorem SameSpan.reachesBit_iff {file other : OpenFile} (h : file.SameSpan other) (bit : Nat) :
    other.ReachesBit bit ↔ file.ReachesBit bit := reaches_congr h.extent_eq _ _

section

variable {file other : OpenFile} (hsame : file.SameUse other)
include hsame

theorem SameUse.refusal_eq (h : file.IsRegular) (pos n : Nat) :
    other.refusal pos n = file.refusal pos n := by
  obtain ⟨body, hbody⟩ := h
  obtain ⟨body', hbody'⟩ := hsame.regular
  unfold refusal lastStop
  simp only [reaches_congr hsame.extent_eq, hsame.extent_eq, hsame.stop_eq, hsame.access_eq, hbody,
    hbody']
  cases file.access <;> rfl

end

/-- What a call asks to be written is written in full. -/
def Admits (file : OpenFile) : DirectoryCall → Prop
  | .set bit => file.ReachesBit bit →
    file.refusal ((BitPlace.ofBit bit).block * bitBlockSize) bitBlockSize = none
  | .test _ | .count | .reopen => True

theorem SameUse.admits_iff {file other : OpenFile} (hsame : file.SameUse other)
    (h : file.IsRegular) (call : DirectoryCall) : other.Admits call ↔ file.Admits call := by
  cases call with
  | set bit => rw [Admits, Admits, hsame.reachesBit_iff, hsame.refusal_eq h]
  | test bit => rfl
  | count => rfl
  | reopen => rfl

end OpenFile

namespace Directory

def left (directory : Directory) (call : DirectoryM α) : Directory :=
  match call.run directory with
  | .ok _ directory' => directory'
  | .error _ directory' => directory'

def answered (directory : Directory) (call : DirectoryM α) : Except StoreError α :=
  match call.run directory with
  | .ok a _ => .ok a
  | .error cause _ => .error cause

def step (directory : Directory) : DirectoryCall → Directory
  | .test bit => directory.left (test bit)
  | .set bit => directory.left (set bit)
  | .count => directory.left count
  | .reopen => ofFile directory.file

def answer (directory : Directory) : DirectoryCall → Except StoreError DirectoryReply
  | .test bit => (directory.answered (test bit)).map .bit
  | .set bit => (directory.answered (set bit)).map fun _ => .done
  | .count => (directory.answered count).map .total
  | .reopen => .ok .done

def run (directory : Directory) (calls : List DirectoryCall) : Directory :=
  calls.foldl step directory

/-- No write of a run fails: each set of a bit whose block can be reached goes through. -/
def Unfailing (directory : Directory) (calls : List DirectoryCall) : Prop :=
  ∀ before bit after, calls = before ++ .set bit :: after →
    (directory.run before).file.ReachesBit bit → (directory.run before).answer (.set bit) = .ok .done

theorem left_ok {directory directory' : Directory} {call : DirectoryM α} {a : α}
    (h : call.run directory = .ok a directory') : directory.left call = directory' := by
  rw [left, h]

theorem left_count (directory : Directory) : directory.left count = directory := by
  rw [left, EStateM.run, count]
  cases directory.onesFrom 0 0 directory.blocksInFile <;> rfl

theorem answered_ok {directory directory' : Directory} {call : DirectoryM α} {a : α}
    (h : call.run directory = .ok a directory') : directory.answered call = .ok a := by
  rw [answered, h]

theorem answered_error {directory directory' : Directory} {call : DirectoryM α}
    {cause : StoreError} (h : call.run directory = .error cause directory') :
    directory.answered call = .error cause := by
  rw [answered, h]

section

variable {directory : Directory} (h : directory.file.IsRegular)
include h

theorem step_test (bit : Nat) :
    directory.step (.test bit) = if directory.Finds (BitPlace.ofBit bit).block then
      directory.remembering
        (some ((BitPlace.ofBit bit).block, directory.blockFor (BitPlace.ofBit bit).block))
    else directory.remembering none := by
  rw [step, left, run_test h]
  by_cases hfinds : directory.Finds (BitPlace.ofBit bit).block
  · rw [if_pos hfinds, if_pos hfinds]
  · rw [if_neg hfinds, if_neg hfinds]

theorem step_set (bit : Nat) :
    directory.step (.set bit) = if directory.Finds (BitPlace.ofBit bit).block then
      (directory.touched bit).spilled (BitPlace.ofBit bit).block
        (directory.taken (BitPlace.ofBit bit).block)
    else directory.remembering none := by
  rw [step, left, run_set h]
  by_cases hfinds : directory.Finds (BitPlace.ofBit bit).block
  · rw [if_pos hfinds, if_pos hfinds]
    cases directory.refusal (BitPlace.ofBit bit).block <;> rfl
  · rw [if_neg hfinds, if_neg hfinds]

theorem answer_set (bit : Nat) :
    directory.answer (.set bit) = if directory.Finds (BitPlace.ofBit bit).block then
      match directory.refusal (BitPlace.ofBit bit).block with
      | none => .ok .done
      | some stop => .error (.io stop.cause)
    else .error (.io .invalidOffset) := by
  rw [answer, answered, run_set h]
  by_cases hfinds : directory.Finds (BitPlace.ofBit bit).block
  · rw [if_pos hfinds, if_pos hfinds]
    cases directory.refusal (BitPlace.ofBit bit).block <;> rfl
  · rw [if_neg hfinds, if_neg hfinds]
    rfl

end

/-- What is in memory is a block of the file, and one that could be read again. -/
structure Fresh (directory : Directory) : Prop extends directory.Coherent where
  reaches : ∀ number block, directory.cached = some (number, block) →
    directory.file.Reaches (number * bitBlockSize) bitBlockSize

theorem fresh_ofFile {file : OpenFile} (h : file.IsRegular) : (ofFile file).Fresh := by
  refine ⟨coherent_ofFile h, ?_⟩
  intro number block hkept
  simp only [ofFile] at hkept
  split at hkept
  · cases hkept
    exact ⟨(Nat.zero_mul _).le.trans (Nat.zero_le _), by decide⟩
  · cases hkept

section

variable {directory : Directory} (h : directory.Fresh)
include h

theorem Fresh.finds_iff (number : Nat) :
    directory.Finds number ↔ directory.file.Reaches (number * bitBlockSize) bitBlockSize := by
  refine ⟨fun hfinds => ?_, Or.inr⟩
  obtain hcached | hreach := hfinds
  · obtain ⟨block, hblock⟩ := Option.isSome_iff_exists.mp hcached
    exact h.reaches number block (cached?_eq_some_iff.mp hblock)
  · exact hreach

theorem Fresh.forgetting : (directory.remembering none).Fresh where
  regular := h.regular
  cached_eq number block hkept := by cases hkept
  reaches number block hkept := by cases hkept

theorem Fresh.answer_test (bit : Nat) :
    directory.answer (.test bit) = if directory.file.ReachesBit bit then
      .ok (.bit (directory.file.bit bit)) else .error (.io .invalidOffset) := by
  split
  · next hreach =>
    obtain ⟨cached, hrun, -⟩ := h.toCoherent.test hreach
    rw [answer, answered_ok hrun]
    rfl
  · next hreach =>
    have hfinds : ¬ directory.Finds (BitPlace.ofBit bit).block := (h.finds_iff _).not.mpr hreach
    rw [answer, answered, run_test h.regular, if_neg hfinds]
    rfl

theorem Fresh.answer_set (bit : Nat) :
    directory.answer (.set bit) = if directory.file.ReachesBit bit then
      match directory.refusal (BitPlace.ofBit bit).block with
      | none => .ok .done
      | some stop => .error (.io stop.cause)
    else .error (.io .invalidOffset) := by
  rw [Directory.answer_set h.regular]
  simp only [h.finds_iff]
  rfl

theorem Fresh.admits_iff (bit : Nat) : directory.file.Admits (.set bit) ↔
    (directory.file.ReachesBit bit → directory.answer (.set bit) = .ok .done) := by
  rw [h.answer_set, OpenFile.Admits, ← Directory.refusal]
  refine forall_congr' fun hreach => ?_
  rw [if_pos hreach]
  cases directory.refusal (BitPlace.ofBit bit).block <;> simp

theorem Fresh.marked {bit : Nat} (hreach : directory.file.ReachesBit bit)
    (hrefusal : directory.refusal (BitPlace.ofBit bit).block = none) :
    (directory.marked bit).Fresh ∧ directory.file.SameUse (directory.marked bit).file := by
  have htaken := taken_of_refusal hrefusal
  have hsame : directory.file.SameUse (directory.marked bit).file := by
    refine OpenFile.sameUse_overwritten h.regular fun _ => ?_
    have hbounds := (OpenFile.taken_bounds h.regular
      ((BitPlace.ofBit bit).block * bitBlockSize) bitBlockSize).2
    rw [← Directory.taken, htaken] at hbounds
    rw [Vector.length_toList]
    exact hbounds (by decide)
  refine ⟨⟨h.toCoherent.marked bit, fun number block hkept => ?_⟩, hsame⟩
  cases hkept
  exact (hsame.reachesBit_iff bit).mpr hreach

theorem Fresh.step_set_of_not_reaches {bit : Nat} (hreach : ¬ directory.file.ReachesBit bit) :
    directory.step (.set bit) = directory.remembering none := by
  have hfinds : ¬ directory.Finds (BitPlace.ofBit bit).block := (h.finds_iff _).not.mpr hreach
  rw [step_set h.regular, if_neg hfinds]

theorem Fresh.step_set_of_refusal {bit : Nat} (hreach : directory.file.ReachesBit bit)
    (hrefusal : directory.refusal (BitPlace.ofBit bit).block = none) :
    directory.step (.set bit) = directory.marked bit := by
  have hfinds : directory.Finds (BitPlace.ofBit bit).block := Or.inr hreach
  rw [step, left_ok (h.set_of_refusal hfinds hrefusal)]

theorem Fresh.step_test (bit : Nat) :
    (directory.step (.test bit)).Fresh ∧
      ∃ cached, directory.step (.test bit) = directory.remembering cached := by
  rw [Directory.step_test h.regular]
  split
  · next hfinds =>
    refine ⟨⟨⟨h.regular, ?_⟩, ?_⟩, _, rfl⟩
    · intro number block hkept
      cases hkept
      exact h.blockFor_eq _
    · intro number block hkept
      cases hkept
      exact (h.finds_iff _).mp hfinds
  · exact ⟨h.forgetting, none, rfl⟩

end

theorem Fresh.step {directory : Directory} (h : directory.Fresh) {call : DirectoryCall}
    (hadmits : directory.file.Admits call) :
    (directory.step call).Fresh ∧ directory.file.SameUse (directory.step call).file := by
  cases call with
  | test bit =>
    obtain ⟨hfresh, cached, hstep⟩ := h.step_test bit
    refine ⟨hfresh, ?_⟩
    rw [hstep]
    exact h.regular.sameUse
  | set bit =>
    by_cases hreach : directory.file.ReachesBit bit
    · rw [h.step_set_of_refusal hreach (hadmits hreach)]
      exact h.marked hreach (hadmits hreach)
    · rw [h.step_set_of_not_reaches hreach]
      exact ⟨h.forgetting, h.regular.sameUse⟩
  | count =>
    rw [Directory.step, left_count]
    exact ⟨h, h.regular.sameUse⟩
  | reopen => exact ⟨fresh_ofFile h.regular, h.regular.sameUse⟩

theorem Fresh.run {directory : Directory} (h : directory.Fresh) {calls : List DirectoryCall}
    (hadmits : ∀ call ∈ calls, directory.file.Admits call) :
    (directory.run calls).Fresh ∧ directory.file.SameUse (directory.run calls).file := by
  induction calls generalizing directory with
  | nil => exact ⟨h, h.regular.sameUse⟩
  | cons call calls ih =>
    obtain ⟨hfresh, hsame⟩ := h.step (hadmits call List.mem_cons_self)
    refine (ih hfresh fun c hc => ?_).imp_right hsame.trans
    exact (hsame.admits_iff h.regular c).mpr (hadmits c (List.mem_cons_of_mem _ hc))

/-- That no write of a run fails is a matter of the file. -/
theorem Fresh.unfailing_iff {directory : Directory} (h : directory.Fresh)
    (calls : List DirectoryCall) :
    directory.Unfailing calls ↔ ∀ call ∈ calls, directory.file.Admits call := by
  constructor
  · intro hwrites
    induction calls generalizing directory with
    | nil => simp
    | cons call calls ih =>
      have hfirst : directory.file.Admits call := by
        cases call with
        | set bit => exact (h.admits_iff bit).mpr (hwrites [] bit calls rfl)
        | test bit => trivial
        | count => trivial
        | reopen => trivial
      obtain ⟨hfresh, hsame⟩ := h.step hfirst
      have hrest := ih hfresh fun before bit after heq =>
        hwrites (call :: before) bit after (by rw [heq, List.cons_append])
      exact List.forall_mem_cons.mpr
        ⟨hfirst, fun c hc => (hsame.admits_iff h.regular c).mp (hrest c hc)⟩
  · rintro hadmits before bit after rfl
    obtain ⟨hbefore, hset, -⟩ := by
      simpa only [List.forall_mem_append, List.forall_mem_cons] using hadmits
    obtain ⟨hfresh, hsame⟩ := h.run hbefore
    exact (hfresh.admits_iff bit).mp ((hsame.admits_iff h.regular _).mpr hset)

structure Counted (directory : Directory) : Prop where
  bounded : directory.Bounded
  length_lt : directory.file.length * 8 < counterRange

theorem counted_ofFile {file : OpenFile} (hlength : file.length * 8 < counterRange) :
    (ofFile file).Counted := ⟨bounded_ofFile hlength, hlength⟩

theorem Counted.marked {directory : Directory} (h : directory.Counted)
    (hcoherent : directory.Coherent) {bit : Nat} (hbit : bit < 0x100000000) :
    (directory.marked bit).Counted := by
  have hrange : bit + bitsInBlock < counterRange := by
    change bit + 32768 < 0x10000000000000000
    omega
  have hend : ((BitPlace.ofBit bit).block + 1) * bitBlockSize * 8 < counterRange := by
    change (bit / 8 / 4096 + 1) * 4096 * 8 < 0x10000000000000000
    omega
  refine ⟨h.bounded.marked hcoherent hrange, ?_⟩
  rw [hcoherent.length_marked]
  obtain hmax | hmax := max_choice directory.file.length
    (((BitPlace.ofBit bit).block + 1) * bitBlockSize)
  · rw [hmax]
    exact h.length_lt
  · rwa [hmax]

/-- The bound stays right as long as no bit is set past the numbers of the trie. -/
theorem Counted.run {directory : Directory} (h : directory.Counted) (hfresh : directory.Fresh)
    {calls : List DirectoryCall} (hadmits : ∀ call ∈ calls, directory.file.Admits call)
    (hcalls : ∀ call ∈ calls, call.SetsNode) : (directory.run calls).Counted := by
  induction calls generalizing directory with
  | nil => exact h
  | cons call calls ih =>
    have hfirst := hadmits call List.mem_cons_self
    obtain ⟨hnext, hsame⟩ := hfresh.step hfirst
    refine ih ?_ hnext (fun c hc => ?_) fun c hc => hcalls c (List.mem_cons_of_mem _ hc)
    · cases call with
      | test bit =>
        obtain ⟨-, cached, hstep⟩ := hfresh.step_test bit
        rw [hstep]
        exact ⟨h.bounded, h.length_lt⟩
      | set bit =>
        have hbit : bit < 0x100000000 := hcalls _ List.mem_cons_self
        by_cases hreach : directory.file.ReachesBit bit
        · rw [hfresh.step_set_of_refusal hreach (hfirst hreach)]
          exact h.marked hfresh.toCoherent hbit
        · rw [hfresh.step_set_of_not_reaches hreach]
          exact ⟨h.bounded, h.length_lt⟩
      | count =>
        rw [Directory.step, left_count]
        exact h
      | reopen => exact counted_ofFile h.length_lt
    · exact (hsame.admits_iff hfresh.regular c).mpr (hadmits c (List.mem_cons_of_mem _ hc))

end Directory

end PageTrie
