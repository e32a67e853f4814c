import PageTrie.Proofs.Directory.Calls

/-! A directory is a set of positions that only grows. Whatever its file holds at first, tests
and censuses answer for the positions that the file or an earlier call has set: neither the
block in memory nor opening the file anew has a say. Positions in blocks that the file cannot be
sought to are turned down. -/
namespace PageTrie

namespace OpenFile

def marked (file : OpenFile) (bit : Nat) : OpenFile := ((Directory.ofFile file).marked bit).file

def afterCall (file : OpenFile) : DirectoryCall → OpenFile
  | .set bit => if file.ReachesBit bit then file.marked bit else file
  | .test _ | .count | .reopen => file

def afterCalls (file : OpenFile) (calls : List DirectoryCall) : OpenFile :=
  calls.foldl afterCall file

theorem afterCalls_filter_reopen (file : OpenFile) (calls : List DirectoryCall) :
    file.afterCalls (calls.filter (· ≠ .reopen)) = file.afterCalls calls := by
  induction calls generalizing file with
  | nil => rfl
  | cons call calls ih => cases call <;> exact ih _

section

variable {file : OpenFile} (h : file.IsRegular)
include h

theorem bit_marked (bit i : Nat) :
    (file.marked bit).bit i = (decide (i = bit) || file.bit i) :=
  (Directory.coherent_ofFile h).bit_marked bit i

theorem bit_afterCall (call : DirectoryCall) (i : Nat) : (file.afterCall call).bit i = true ↔
    file.bit i = true ∨ call = .set i ∧ file.ReachesBit i := by
  cases call with
  | set bit =>
    rw [afterCall]
    split
    · next hreach =>
      rw [bit_marked h, Bool.or_eq_true, decide_eq_true_iff, DirectoryCall.set.injEq]
      refine or_comm.trans (or_congr_right ⟨?_, fun hset => hset.1.symm⟩)
      rintro rfl
      exact ⟨rfl, hreach⟩
    · next hreach =>
      refine ⟨Or.inl, fun hor => hor.resolve_right ?_⟩
      rintro ⟨heq, hset⟩
      cases heq
      exact hreach hset
  | test bit => simp [afterCall]
  | count => simp [afterCall]
  | reopen => simp [afterCall]

theorem length_afterCall_le (call : DirectoryCall) :
    (file.afterCall call).length + bitBlockSize ≤ positionRange ↔
      file.length + bitBlockSize ≤ positionRange := by
  cases call with
  | set bit =>
    rw [afterCall]
    split
    · next hreach =>
      have hlength := (Directory.coherent_ofFile h).length_marked bit
      have hend := hreach.2
      change bit / 8 / 4096 * 4096 + 4096 < 0x8000000000000000 at hend
      change (file.marked bit).length = max file.length ((bit / 8 / 4096 + 1) * 4096) at hlength
      change (file.marked bit).length + 4096 ≤ 0x8000000000000000 ↔
        file.length + 4096 ≤ 0x8000000000000000
      omega
    · rfl
  | test bit => rfl
  | count => rfl
  | reopen => rfl

end

end OpenFile

namespace Directory

/-- The bit that the block in memory has for a position, if it is the position's block. -/
def shown? (directory : Directory) (i : Nat) : Option Bool :=
  (directory.cached? (BitPlace.ofBit i).block).map (BitPlace.ofBit i).isSetIn

theorem Coherent.bit_of_shown {directory : Directory} (h : directory.Coherent) {i : Nat}
    {isSet : Bool} (hshown : directory.shown? i = some isSet) : directory.file.bit i = isSet := by
  obtain ⟨block, hcached, rfl⟩ := Option.map_eq_some_iff.mp hshown
  rw [h.cached_eq _ _ (cached?_eq_some_iff.mp hcached), BitPlace.isSetIn_window]

theorem Coherent.answer_count {directory : Directory} (h : directory.Coherent) :
    directory.answer .count = if directory.file.length + bitBlockSize ≤ positionRange then
      .ok (.total directory.file.marks.card) else .error (.io .invalidOffset) := by
  split
  · next hlength =>
    rw [answer, answered_ok (h.count hlength)]
    rfl
  · next hlength =>
    rw [answer, answered_error (h.count_beyond (Nat.lt_of_not_le hlength))]
    rfl

section

variable {directory : Directory} (h : directory.Fresh)
include h

theorem Fresh.answer_congr {other : Directory} (hother : other.Fresh)
    (hfile : directory.file = other.file) (call : DirectoryCall) :
    directory.answer call = other.answer call := by
  cases call with
  | test bit => rw [h.answer_test, hother.answer_test, hfile]
  | set bit => rw [h.answer_set, hother.answer_set, refusal, refusal, hfile]
  | count => rw [h.answer_count, hother.answer_count, hfile]
  | reopen => rfl

theorem Fresh.file_step {call : DirectoryCall} (hadmits : directory.file.Admits call) :
    (directory.step call).file = directory.file.afterCall call := by
  cases call with
  | test bit =>
    obtain ⟨-, cached, hstep⟩ := h.step_test bit
    rw [hstep]
    rfl
  | set bit =>
    rw [OpenFile.afterCall]
    split
    · next hreach =>
      rw [h.step_set_of_refusal hreach (hadmits hreach)]
      rfl
    · next hreach =>
      rw [h.step_set_of_not_reaches hreach]
      rfl
  | count => rw [Directory.step, left_count, OpenFile.afterCall]
  | reopen => rfl

end

theorem Fresh.file_run {directory : Directory} (h : directory.Fresh) {calls : List DirectoryCall}
    (hadmits : ∀ call ∈ calls, directory.file.Admits call) :
    (directory.run calls).file = directory.file.afterCalls calls ∧
      (∀ i, (directory.run calls).file.bit i = true ↔
        directory.file.bit i = true ∨ .set i ∈ calls ∧ directory.file.ReachesBit i) ∧
      ((directory.run calls).file.length + bitBlockSize ≤ positionRange ↔
        directory.file.length + bitBlockSize ≤ positionRange) := by
  induction calls generalizing directory with
  | nil => exact ⟨rfl, fun i => by simp [Directory.run], Iff.rfl⟩
  | cons call calls ih =>
    have hfirst := hadmits call List.mem_cons_self
    obtain ⟨hfresh, hsame⟩ := h.step hfirst
    obtain ⟨hfile, hbits, hlength⟩ := ih hfresh fun c hc =>
      (hsame.admits_iff h.regular c).mpr (hadmits c (List.mem_cons_of_mem _ hc))
    rw [h.file_step hfirst] at hfile hlength
    refine ⟨hfile, fun i => (hbits i).trans ?_,
      hlength.trans (OpenFile.length_afterCall_le h.regular call)⟩
    rw [hsame.reachesBit_iff, h.file_step hfirst, OpenFile.bit_afterCall h.regular, List.mem_cons,
      eq_comm (a := DirectoryCall.set i)]
    tauto

/-- What a directory that stands for a set of positions answers next, and what setting a bit
does to the others. -/
structure Denotes (directory : Directory) (marks : Finset Nat) : Prop where
  tests : ∀ bit, directory.file.ReachesBit bit →
    directory.answer (.test bit) = .ok (.bit (decide (bit ∈ marks)))
  counts : directory.file.length + bitBlockSize ≤ positionRange →
    directory.answer .count = .ok (.total marks.card)
  shows : ∀ i isSet, directory.shown? i = some isSet → isSet = decide (i ∈ marks)
  sets : ∀ bit, directory.answer (.set bit) = .ok .done → ∀ i ≠ bit,
    (directory.step (.set bit)).file.bit i = directory.file.bit i ∧
      ∀ isSet, (directory.step (.set bit)).shown? i = some isSet →
        isSet = directory.file.bit i

/-- A place that cannot be sought is refused, and the file stays as it is. -/
structure Refuses (directory : Directory) : Prop where
  tests : ∀ bit, ¬ directory.file.ReachesBit bit →
    directory.answer (.test bit) = .error (.io .invalidOffset)
  sets : ∀ bit, ¬ directory.file.ReachesBit bit →
    directory.answer (.set bit) = .error (.io .invalidOffset) ∧
      (directory.step (.set bit)).file = directory.file
  counts : ¬ directory.file.length + bitBlockSize ≤ positionRange →
    directory.answer .count = .error (.io .invalidOffset)

theorem Fresh.denotes {directory : Directory} (h : directory.Fresh) :
    directory.Denotes directory.file.marks where
  tests bit hreach := by
    rw [h.answer_test, if_pos hreach]
    simp
  counts hlength := by rw [h.answer_count, if_pos hlength]
  shows i isSet hshown := by
    rw [← h.bit_of_shown hshown]
    simp
  sets bit hdone i hi := by
    have hadmits := (h.admits_iff bit).mpr fun _ => hdone
    obtain ⟨hfresh, -⟩ := h.step hadmits
    have hsame : (directory.step (.set bit)).file.bit i = directory.file.bit i := by
      rw [Bool.eq_iff_iff, h.file_step hadmits, OpenFile.bit_afterCall h.regular]
      refine or_iff_left ?_
      rintro ⟨heq, -⟩
      cases heq
      exact hi rfl
    exact ⟨hsame, fun isSet hshown => (hfresh.bit_of_shown hshown).symm.trans hsame⟩

theorem Fresh.refuses {directory : Directory} (h : directory.Fresh) : directory.Refuses where
  tests bit hreach := by rw [h.answer_test, if_neg hreach]
  sets bit hreach := by
    rw [h.answer_set, if_neg hreach, h.step_set_of_not_reaches hreach]
    exact ⟨rfl, rfl⟩
  counts hlength := by rw [h.answer_count, if_neg hlength]

end Directory

end PageTrie
