import PageTrie.Proofs.Directory.Attempts

/-! The bound of a directory along a run of tests and sets whose writes may fail or stop short. A set
takes the bound to the end of the bit's block. For the last block that 64 bits can number that end is
2^64, which comes out as 0; but on a file system whose files end before that block it cannot be
sought, and the set fails first. There the bound rises and stays above every bit of the file. -/
namespace PageTrie

namespace DirectoryCall

def IsBitCall : DirectoryCall → Prop
  | .test bit | .set bit => bit < counterRange
  | .count | .reopen => False

/-- A bit is set whose block ends past what 64 bits can hold, and that the file can be sought to. -/
def SetsLast (file : OpenFile) : DirectoryCall → Prop
  | .set bit => counterRange ≤ bit + bitsInBlock ∧ file.ReachesBit bit
  | .test _ | .count | .reopen => False

instance : DecidablePred IsBitCall
  | .test bit => Nat.decLt bit counterRange
  | .set bit => Nat.decLt bit counterRange
  | .count | .reopen => .isFalse id

end DirectoryCall

namespace Standing

variable {file : OpenFile} {i : Nat} {standing : Standing} {attempt : Attempt}

theorem seen_of_after (h : (standing.after file i attempt).seen = true) :
    standing.seen = true ∨ standing.written = true ∨
      attempt.call = .set i ∧ standing.found = true := by
  obtain ⟨access, stop, call⟩ := attempt
  cases call with
  | count => exact Or.inl h
  | reopen => exact Or.inr (Or.inl h)
  | test bit =>
    simp only [after] at h
    split at h
    · exact Or.inl h
    · exact Or.inr (Or.inl h)
  | set bit =>
    simp only [after] at h
    split at h
    · split at h
      · next hfound =>
        obtain heq | hseen := Bool.or_eq_true_iff.mp h
        · exact Or.inr (Or.inr ⟨by rw [of_decide_eq_true heq], hfound⟩)
        · exact Or.inl hseen
      · exact Or.inl h
    · exact Or.inr (Or.inl h)

theorem written_of_after (h : (standing.after file i attempt).written = true) :
    standing.written = true ∨ (standing.after file i attempt).seen = true := by
  obtain ⟨access, stop, call⟩ := attempt
  cases call with
  | count => exact Or.inl h
  | reopen => exact Or.inl h
  | test bit =>
    simp only [after] at h
    split at h <;> exact Or.inl h
  | set bit =>
    simp only [after] at h ⊢
    split at h
    · next hblock =>
      split at h
      · next hfound =>
        rw [if_pos hblock, if_pos hfound]
        dsimp only at h ⊢
        split at h
        · exact Or.inr h
        · exact Or.inl h
      · exact Or.inl h
    · exact Or.inl h

theorem found_of_after (h : (standing.after file i attempt).found = true) :
    standing.found = true ∨ file.ReachesBit i := by
  by_cases hkeeps : attempt.call.Keeps (BitPlace.ofBit i).block
  · left
    obtain ⟨access, stop, call⟩ := attempt
    cases call with
    | count => exact h
    | reopen => exact hkeeps.elim
    | test bit =>
      have hblock : (BitPlace.ofBit bit).block = (BitPlace.ofBit i).block := hkeeps
      simp only [after, if_pos hblock] at h
      exact h
    | set bit =>
      have hblock : (BitPlace.ofBit bit).block = (BitPlace.ofBit i).block := hkeeps
      simp only [after, if_pos hblock] at h
      split at h
      · next hfound => exact hfound
      · exact h
  · rw [after_of_not_keeps hkeeps] at h
    exact Or.inr (of_decide_eq_true h)

end Standing

namespace Directory

/-- Along a run of calls the bound never falls, and every bit of the file lies below it. -/
structure HoldsBound (directory : Directory) (calls : List Attempt) : Prop where
  rises : ∀ before attempt after, calls = before ++ attempt :: after →
    (directory.attempts before).bound ≤ (directory.attempts (before ++ [attempt])).bound
  bounded : ∀ before after, calls = before ++ after → (directory.attempts before).Bounded

theorem holdsBound_nil {directory : Directory} (h : directory.Bounded) :
    directory.HoldsBound [] where
  rises before attempt after heq := by simp at heq
  bounded before after heq := by
    obtain ⟨rfl, -⟩ := List.append_eq_nil_iff.mp heq.symm
    exact h

theorem HoldsBound.cons {directory : Directory} {attempt : Attempt} {calls : List Attempt}
    (h : (directory.attempt attempt).HoldsBound calls) (hbounded : directory.Bounded)
    (hrises : directory.bound ≤ (directory.attempt attempt).bound) :
    directory.HoldsBound (attempt :: calls) where
  rises before later after heq := by
    cases before with
    | nil =>
      cases heq
      exact hrises
    | cons first before =>
      cases heq
      exact h.rises before later after rfl
  bounded before after heq := by
    cases before with
    | nil => exact hbounded
    | cons first before =>
      cases heq
      exact h.bounded before after rfl

section

variable {directory : Directory} (h : directory.file.IsRegular) (access : Access)
  (stop : Option WriteStop) (bit : Nat)
include h

theorem bound_attempt_test :
    (directory.attempt ⟨access, stop, .test bit⟩).bound = directory.bound := by
  have hregular : (directory.during ⟨access, stop, .test bit⟩).file.IsRegular := h
  rw [Directory.attempt, step_test hregular]
  split <;> rfl

theorem bound_attempt_set : (directory.attempt ⟨access, stop, .set bit⟩).bound =
    if directory.Finds (BitPlace.ofBit bit).block then raisedBound directory.bound bit
    else directory.bound := by
  have hregular : (directory.during ⟨access, stop, .set bit⟩).file.IsRegular := h
  rw [Directory.attempt, step_set hregular]
  exact apply_ite bound _ _ _

end

/-- Every bit of the file lies below the bound, and so does every bit that a test finds: a set that
fails leaves its bit in memory. The block in memory is one that can be read. -/
structure Fenced (directory : Directory) : Prop where
  regular : directory.file.IsRegular
  reaches : ∀ i, (directory.standing i).found = true → directory.file.ReachesBit i
  written_lt : ∀ i, (directory.standing i).written = true → i < directory.bound
  seen_lt : ∀ i, (directory.standing i).seen = true → i < directory.bound

theorem fenced_ofFile {file : OpenFile} (h : file.IsRegular)
    (hlength : file.length * 8 < counterRange) : (ofFile file).Fenced := by
  have hbounded : (ofFile file).Bounded := bounded_ofFile hlength
  have hopened := fresh_ofFile h
  refine ⟨h, fun i hfound => ?_, hbounded, fun i hseen => hbounded i ?_⟩
  · exact (hopened.finds_iff _).mp (of_decide_eq_true hfound)
  · rwa [standing, hopened.blockFor_eq, BitPlace.isSetIn_window] at hseen

section

variable {directory : Directory} (h : directory.Fenced) {next : Attempt}
  (hcall : next.call.IsBitCall) (hlast : ¬ next.call.SetsLast directory.file)
include h hcall hlast

theorem Fenced.bound_le_attempt : directory.bound ≤ (directory.attempt next).bound := by
  obtain ⟨access, stop, call⟩ := next
  cases call with
  | test bit => rw [bound_attempt_test h.regular]
  | set bit =>
    rw [bound_attempt_set h.regular]
    split
    · next hfinds =>
      have hreach := h.reaches bit (decide_eq_true hfinds)
      have hrange : bit + bitsInBlock < counterRange := by
        by_contra hout
        exact hlast ⟨Nat.le_of_not_lt hout, hreach⟩
      exact le_raisedBound hrange _
    · exact Nat.le_refl _
  | count => exact hcall.elim
  | reopen => exact hcall.elim

theorem Fenced.attempt : (directory.attempt next).Fenced := by
  have hle := h.bound_le_attempt hcall hlast
  have hstanding (i : Nat) := (standing_attempt h.regular next i).2
  have hspan := (standing_attempt h.regular next 0).1
  have hseen (i : Nat) (hset : ((directory.attempt next).standing i).seen = true) :
      i < (directory.attempt next).bound := by
    rw [hstanding] at hset
    obtain hbefore | hwritten | ⟨heq, hfound⟩ := Standing.seen_of_after hset
    · exact (h.seen_lt i hbefore).trans_le hle
    · exact (h.written_lt i hwritten).trans_le hle
    · obtain ⟨access, stop, call⟩ := next
      cases heq
      have hrange : i + bitsInBlock < counterRange := by
        by_contra hout
        exact hlast ⟨Nat.le_of_not_lt hout, h.reaches i hfound⟩
      rw [bound_attempt_set h.regular, if_pos (of_decide_eq_true hfound)]
      exact lt_raisedBound hrange _
  refine ⟨hspan.regular, fun i hfound => ?_, fun i hwritten => ?_, hseen⟩
  · rw [hstanding] at hfound
    rw [hspan.reachesBit_iff]
    exact (Standing.found_of_after hfound).elim (h.reaches i) id
  · rw [hstanding] at hwritten
    obtain hbefore | hset := Standing.written_of_after hwritten
    · exact (h.written_lt i hbefore).trans_le hle
    · rw [← hstanding] at hset
      exact hseen i hset

end

theorem Fenced.holdsBound {directory : Directory} (h : directory.Fenced) {calls : List Attempt}
    (hcalls : ∀ attempt ∈ calls, attempt.call.IsBitCall)
    (hspares : ∀ attempt ∈ calls, ¬ attempt.call.SetsLast directory.file) :
    directory.HoldsBound calls := by
  induction calls generalizing directory with
  | nil => exact holdsBound_nil h.written_lt
  | cons attempt calls ih =>
    have hcall := hcalls attempt List.mem_cons_self
    have hlast := hspares attempt List.mem_cons_self
    have hspan := (standing_attempt h.regular attempt 0).1
    refine (ih (h.attempt hcall hlast) (fun a ha => hcalls a (List.mem_cons_of_mem _ ha))
      fun a ha hsets => hspares a (List.mem_cons_of_mem _ ha) ?_).cons h.written_lt
        (h.bound_le_attempt hcall hlast)
    obtain ⟨access, stop, call⟩ := a
    cases call with
    | set bit => exact ⟨hsets.1, (hspan.reachesBit_iff bit).mp hsets.2⟩
    | test bit => exact hsets.elim
    | count => exact hsets.elim
    | reopen => exact hsets.elim

abbrev lastBlockStart : Nat := counterRange / 8 - bitBlockSize

def oneBitFile (limit : Nat) : OpenFile := ⟨0, .readWrite, .regular (.ofBytes [1]), limit, none⟩

theorem raisedBound_last {bound bit : Nat} (hbound : bound + bitsInBlock ≤ counterRange)
    (hbit : bit < counterRange) (hlast : counterRange ≤ bit + bitsInBlock) :
    raisedBound bound bit = 0 := by
  change bound + 32768 ≤ 0x10000000000000000 at hbound
  change 0x10000000000000000 ≤ bit + 32768 at hlast
  change bit < 0x10000000000000000 at hbit
  have hend : ((BitPlace.ofBit bit).block + 1) * bitsInBlock = counterRange := by
    change (bit / 8 / 4096 + 1) * 32768 = 0x10000000000000000
    omega
  rw [raisedBound, if_pos (by omega), hend, Nat.mod_self]

/-- Where the last block can be found, a set there turns the bound to 0, whether it works or not. -/
theorem bound_falls {directory : Directory} (h : directory.file.IsRegular)
    (hbound : directory.bound + bitsInBlock ≤ counterRange) {bit : Nat} (hbit : bit < counterRange)
    (hlast : counterRange ≤ bit + bitsInBlock)
    (hfinds : directory.Finds (BitPlace.ofBit bit).block) (access : Access)
    (stop : Option WriteStop) : (directory.attempt ⟨access, stop, .set bit⟩).bound = 0 := by
  rw [bound_attempt_set h, if_pos hfinds, raisedBound_last hbound hbit hlast]

example : ((ofFile (oneBitFile (positionRange - 1))).attempt
    ⟨.readOnly, none, .set 18446744073709551615⟩).bound = 0 :=
  bound_falls ⟨_, rfl⟩ (by decide) (by decide) (by decide) (by decide) _ _

end Directory

end PageTrie
