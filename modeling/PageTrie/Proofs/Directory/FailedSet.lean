import PageTrie.Proofs.Directory.Attempts

/-! What a set leaves behind that fails. A set changes the block in memory and the bound before it
writes, and takes neither back if the write fails. Of the block the first bytes may have come to the
file, and no more. The bit shows for as long as its block is kept in memory, and goes to the file if
it is among those bytes or if the block is written meanwhile. -/
namespace PageTrie.Directory

/-- The bit of a position in the file, and what a test of it answers, are the same. -/
def SameAt (i : Nat) (directory other : Directory) : Prop :=
  directory.file.bit i = other.file.bit i ∧
    directory.answer (.test i) = other.answer (.test i)

def onFile (directory : Directory) (file : OpenFile) : Directory := { directory with file }

/-- Position `i` lies in the first `count` bytes of the block of `bit`. -/
def Covers (bit count i : Nat) : Prop :=
  (BitPlace.ofBit i).block = (BitPlace.ofBit bit).block ∧ (BitPlace.ofBit i).byte < count

/-- What a set of `bit` that failed has left behind, `count` bytes of its block having come to the
file. -/
structure Lingers (directory : Directory) (bit count : Nat) (left : Directory) : Prop where
  bound_eq : left.bound = raisedBound directory.bound bit
  came : ∀ i, Covers bit count i → (left.file.bit i = true ↔
    i = bit ∨ directory.answer (.test i) = .ok (.bit true))
  stayed : ∀ i, ¬ Covers bit count i → left.file.bit i = directory.file.bit i
  untouched : count = 0 → left.file = directory.file
  counts : ∀ later : List Attempt, (∀ attempt ∈ later, IsQuiet directory.file attempt) →
    (left.attempts later).answer .count =
      ((directory.onFile left.file).attempts later).answer .count
  shows : ∀ later : List Attempt,
    (∀ attempt ∈ later, attempt.call.Keeps (BitPlace.ofBit bit).block) →
    (left.attempts later).answer (.test bit) = .ok (.bit true)
  /-- A set whose write gets as far as the bit meanwhile takes it along into the file. -/
  writes : ∀ later : List Attempt,
    (∀ attempt ∈ later, attempt.call.Keeps (BitPlace.ofBit bit).block) →
    ((left.attempts later).file.bit bit = true ↔ left.file.bit bit = true ∨
      ∃ attempt ∈ later, attempt.brings directory.file (BitPlace.ofBit bit).byte = true)
  remains : Covers bit count bit → ∀ later : List Attempt,
    (left.attempts later).file.bit bit = true ∧
      (left.attempts later).answer (.test bit) = .ok (.bit true)
  /-- If it has not, and no write gets as far before a call looks at another block, that is the end
  of it. -/
  ends : ¬ Covers bit count bit → ∀ (before : List Attempt) (leaving : Attempt)
    (later : List Attempt),
    (∀ attempt ∈ before, attempt.brings directory.file (BitPlace.ofBit bit).byte = false) →
    ¬ leaving.call.Keeps (BitPlace.ofBit bit).block →
    SameAt bit (left.attempts (before ++ leaving :: later))
      (directory.attempts (before ++ leaving :: later))
  /-- If memory had no other block wrong either, all but the bound is then as without the call,
  on the file as the call left it. -/
  vanishes : directory.CleanBut (BitPlace.ofBit bit).block →
    ∀ (before : List Attempt) (leaving : Attempt) (later : List Attempt),
      (∀ attempt ∈ before, IsQuiet directory.file attempt) →
      (∀ attempt ∈ before, attempt.call.Keeps (BitPlace.ofBit bit).block) →
      ¬ leaving.call.Keeps (BitPlace.ofBit bit).block →
      (left.attempts (before ++ leaving :: later)).SameButBound
          ((directory.onFile left.file).attempts (before ++ leaving :: later)) ∧
        ∀ call : DirectoryCall, (left.attempts (before ++ leaving :: later)).answer call =
          ((directory.onFile left.file).attempts (before ++ leaving :: later)).answer call
  /-- Other positions are as without the call, unless memory had them wrong. -/
  others : ∀ i ≠ bit,
    (BitPlace.ofBit i).block = (BitPlace.ofBit bit).block ∧ ¬ Covers bit count i ∨
      directory.answer (.test i) = (ofFile directory.file).answer (.test i) →
    ∀ later : List Attempt, SameAt i (left.attempts later) (directory.attempts later)

theorem sameAt_of_standing {directory other : Directory} (h : directory.file.IsRegular)
    (hother : other.file.IsRegular) {i : Nat} (hstanding : directory.standing i = other.standing i) :
    SameAt i directory other :=
  ⟨congrArg Standing.written hstanding, by rw [answer_test h, answer_test hother, hstanding]⟩

section

variable {directory : Directory} (h : directory.file.IsRegular)
include h

theorem window_spilled {number other : Nat} (hne : other ≠ number) (count : Nat) :
    (directory.spilled number count).file.window (other * bitBlockSize) bitBlockSize =
      directory.file.window (other * bitBlockSize) bitBlockSize := by
  apply Buffer.ext_byte
  intro k hk
  have hapart : ¬ (number * bitBlockSize ≤ other * bitBlockSize + k ∧
      other * bitBlockSize + k < number * bitBlockSize + min count bitBlockSize) := by
    change k < 4096 at hk
    change ¬ (number * 4096 ≤ other * 4096 + k ∧ other * 4096 + k < number * 4096 + min count 4096)
    omega
  rw [OpenFile.byte_window, OpenFile.byte_window, if_pos hk, if_pos hk, spilled,
    OpenFile.byte_overwritten h, List.length_take, Vector.length_toList, if_neg hapart]

theorem standing_of_answer {i : Nat}
    (hagrees : directory.answer (.test i) = (ofFile directory.file).answer (.test i)) :
    directory.standing i = (directory.standing i).unloaded directory.file i := by
  rw [answer_test h, (fresh_ofFile h).answer_test] at hagrees
  by_cases hfound : (directory.standing i).found = true
  · rw [if_pos hfound] at hagrees
    split at hagrees
    · next hreach =>
      have hreach : directory.file.ReachesBit i := hreach
      rw [Except.ok.injEq, DirectoryReply.bit.injEq] at hagrees
      have hseen : directory.file.bit i = (directory.standing i).seen := hagrees.symm
      rw [Standing.unloaded, decide_eq_true hreach]
      change _ = Standing.mk _ (directory.file.bit i) true
      rw [hseen, ← hfound]
    · cases hagrees
  · apply standing_of_not_cached
    apply not_cached_of_not_finds
    rwa [standing, decide_eq_true_eq] at hfound

/-- Directories on one file that differ in memory in one block go the same way, up to the bound,
from the first call on that looks at another block. -/
theorem sameButBound_attempts {other : Directory} (hfile : directory.file = other.file)
    {number : Nat} (hclean : directory.CleanBut number) (hclean' : other.CleanBut number)
    {before : List Attempt} (hquiet : ∀ attempt ∈ before, IsQuiet directory.file attempt)
    (hkeeps : ∀ attempt ∈ before, attempt.call.Keeps number)
    {leaving : Attempt} (hleaves : ¬ leaving.call.Keeps number) (later : List Attempt) :
    (directory.attempts (before ++ leaving :: later)).SameButBound
      (other.attempts (before ++ leaving :: later)) := by
  have hmeanwhile := isRegular_attempts h before
  have hsame := sameButBound_leaving hmeanwhile (file_attempts h hfile hquiet)
    (hclean.attempts h hkeeps) (hclean'.attempts (hfile ▸ h) hkeeps) hleaves
  rw [attempts_append_cons, attempts_append_cons]
  exact hsame.attempts (isRegular_attempt hmeanwhile leaving) later

omit h in
theorem CleanBut.onFile {file : OpenFile} {number : Nat} (hclean : directory.CleanBut number)
    (hspan : directory.file.SameSpan file)
    (hwindow : ∀ other ≠ number, file.window (other * bitBlockSize) bitBlockSize =
      directory.file.window (other * bitBlockSize) bitBlockSize) :
    (directory.onFile file).CleanBut number where
  block_eq other hne := by
    have hblock := hclean.block_eq other hne
    rw [blockFor] at hblock ⊢
    change (directory.cached? other).getD (file.window _ _) = file.window _ _
    rw [hwindow other hne, hblock]
  reaches other hne hfinds := by
    rw [Directory.onFile, OpenFile.reaches_congr hspan.extent_eq]
    refine hclean.reaches other hne ?_
    rwa [Finds, ← OpenFile.reaches_congr hspan.extent_eq]

end

structure Spills (directory : Directory) (bit count : Nat) (left : Directory) : Prop where
  regular : directory.file.IsRegular
  finds : directory.Finds (BitPlace.ofBit bit).block
  span : directory.file.SameSpan left.file
  left_eq : left = (directory.touched bit).spilled (BitPlace.ofBit bit).block count
  reaches : count ≠ 0 → directory.file.ReachesBit bit

section

variable {directory left : Directory} {bit count : Nat} (h : directory.Spills bit count left)
include h

theorem Spills.standing_eq (i : Nat) :
    left.standing i = if (BitPlace.ofBit bit).block = (BitPlace.ofBit i).block then
      let seen := decide (i = bit) || (directory.standing i).seen
      ⟨if (BitPlace.ofBit i).byte < count then seen else directory.file.bit i, seen, true⟩
    else (directory.standing i).unloaded directory.file i := by
  have hregular : (directory.touched bit).file.IsRegular := h.regular
  have hextent := h.span.extent_eq
  rw [h.left_eq] at hextent ⊢
  rw [standing_spilled hregular rfl hextent, standing_touched]
  split <;> rfl

theorem Spills.standing_self :
    left.standing bit = ⟨left.file.bit bit, true, true⟩ := by
  have hself := h.standing_eq bit
  rw [if_pos rfl, decide_eq_true rfl, Bool.true_or] at hself
  have hwritten := congrArg Standing.written hself
  rw [hself]
  exact congrArg (Standing.mk · true true) hwritten.symm

theorem Spills.bit_of_not_covers {i : Nat} (hout : ¬ Covers bit count i) :
    left.file.bit i = directory.file.bit i := by
  have hwritten := congrArg Standing.written (h.standing_eq i)
  split at hwritten
  · next hblock =>
    have hbyte : ¬ (BitPlace.ofBit i).byte < count := fun hlt => hout ⟨hblock.symm, hlt⟩
    simp only [if_neg hbyte] at hwritten
    exact hwritten
  · exact hwritten

theorem Spills.bit_of_covers {i : Nat} (hin : Covers bit count i) :
    left.file.bit i = (decide (i = bit) || (directory.standing i).seen) := by
  have hwritten := congrArg Standing.written (h.standing_eq i)
  simp only [if_pos hin.1.symm, if_pos hin.2] at hwritten
  exact hwritten

theorem Spills.answer_test {i : Nat}
    (hblock : (BitPlace.ofBit i).block = (BitPlace.ofBit bit).block) :
    directory.answer (.test i) = .ok (.bit (directory.standing i).seen) := by
  have hfound : (directory.standing i).found = true :=
    decide_eq_true (hblock ▸ h.finds : directory.Finds (BitPlace.ofBit i).block)
  rw [Directory.answer_test h.regular, if_pos hfound]

theorem Spills.standing_of_ne {i : Nat} (hne : i ≠ bit)
    (hagrees : (BitPlace.ofBit i).block = (BitPlace.ofBit bit).block ∧ ¬ Covers bit count i ∨
      directory.answer (.test i) = (ofFile directory.file).answer (.test i)) :
    left.standing i = directory.standing i := by
  rw [h.standing_eq]
  split
  · next hblock =>
    have hfound : (directory.standing i).found = true :=
      decide_eq_true (hblock ▸ h.finds : directory.Finds (BitPlace.ofBit i).block)
    rw [decide_eq_false hne, Bool.false_or, ← hfound]
    dsimp only
    obtain ⟨-, hout⟩ | hanswer := hagrees
    · have hbyte : ¬ (BitPlace.ofBit i).byte < count := fun hlt => hout ⟨hblock.symm, hlt⟩
      rw [if_neg hbyte]
      rfl
    · have hclean := congrArg Standing.seen (standing_of_answer h.regular hanswer)
      have hseen : (directory.standing i).seen = directory.file.bit i := hclean
      rw [← hseen, ite_self, hseen]
      change _ = Standing.mk _ (directory.standing i).seen _
      rw [hseen]
      rfl
  · next hblock =>
    refine (standing_of_answer h.regular (hagrees.resolve_left ?_)).symm
    exact fun hin => hblock hin.1.symm

theorem Spills.isQuiet {later : List Attempt}
    (hquiet : ∀ attempt ∈ later, IsQuiet directory.file attempt) :
    ∀ attempt ∈ later, IsQuiet left.file attempt := fun attempt hmem =>
  (h.span.brings_eq h.regular attempt 0).trans (hquiet attempt hmem)

theorem Spills.standing_attempts (later : List Attempt) (i : Nat) :
    (left.attempts later).standing i =
      later.foldl (Standing.after directory.file i) (left.standing i) := by
  rw [(Directory.standing_attempts h.span.regular later i).2, after_congr h.regular h.span]

theorem Spills.standing_of_keeps {later : List Attempt}
    (hkeeps : ∀ attempt ∈ later, attempt.call.Keeps (BitPlace.ofBit bit).block) :
    (left.attempts later).standing bit = ⟨left.file.bit bit ||
      later.any (·.brings directory.file (BitPlace.ofBit bit).byte), true, true⟩ := by
  rw [h.standing_attempts, h.standing_self, Standing.foldl_after_of_keeps hkeeps]

theorem Spills.standing_of_covers (hin : Covers bit count bit) (later : List Attempt) :
    (left.attempts later).standing bit = ⟨true, true, true⟩ := by
  have hreach : directory.file.ReachesBit bit := h.reaches (Nat.ne_zero_of_lt hin.2)
  have hset : left.file.bit bit = true := by
    rw [h.bit_of_covers hin, decide_eq_true rfl, Bool.true_or]
  rw [h.standing_attempts, h.standing_self, hset, Standing.foldl_after_of_written hreach]

theorem Spills.standing_of_leaving (hout : ¬ Covers bit count bit) {before : List Attempt}
    {leaving : Attempt} (later : List Attempt)
    (hquiet : ∀ attempt ∈ before,
      attempt.brings directory.file (BitPlace.ofBit bit).byte = false)
    (hleaves : ¬ leaving.call.Keeps (BitPlace.ofBit bit).block) :
    (left.attempts (before ++ leaving :: later)).standing bit =
      (directory.attempts (before ++ leaving :: later)).standing bit := by
  rw [h.standing_attempts, (Directory.standing_attempts h.regular _ bit).2, List.foldl_append,
    List.foldl_append, List.foldl_cons, List.foldl_cons]
  congr 1
  -- The call that leaves the block brings both back to what the file has, which is the same.
  rw [Standing.after_of_not_keeps hleaves, Standing.after_of_not_keeps hleaves,
    Standing.unloaded, Standing.unloaded, Standing.written_foldl_after hquiet,
    Standing.written_foldl_after hquiet, h.standing_self, h.bit_of_not_covers hout]
  rfl

theorem Spills.cleanBut : left.CleanBut (BitPlace.ofBit bit).block := by
  rw [h.left_eq]
  exact cleanBut_of_cached rfl

theorem Spills.window_eq {number : Nat} (hne : number ≠ (BitPlace.ofBit bit).block) :
    left.file.window (number * bitBlockSize) bitBlockSize =
      directory.file.window (number * bitBlockSize) bitBlockSize := by
  have hregular : (directory.touched bit).file.IsRegular := h.regular
  rw [h.left_eq]
  exact window_spilled hregular hne count

theorem Spills.lingers : directory.Lingers bit count left where
  bound_eq := by
    rw [h.left_eq]
    rfl
  came i hin := by
    rw [h.bit_of_covers hin, h.answer_test hin.1]
    simp
  stayed i hout := h.bit_of_not_covers hout
  untouched hzero := by
    rw [h.left_eq, hzero, spilled, List.take_zero, OpenFile.overwritten_nil]
    rfl
  counts later hquiet := by
    have hfile : left.file = (directory.onFile left.file).file := rfl
    exact answer_count_congr (file_attempts h.span.regular hfile (h.isQuiet hquiet))
  shows later hkeeps :=
    answer_test_of_standing (isRegular_attempts h.span.regular later) (h.standing_of_keeps hkeeps)
  writes later hkeeps := by
    have hwritten : (left.attempts later).file.bit bit = _ :=
      congrArg Standing.written (h.standing_of_keeps hkeeps)
    rw [hwritten, Bool.or_eq_true, List.any_eq_true]
  remains hin later := by
    have hstanding := h.standing_of_covers hin later
    exact ⟨congrArg Standing.written hstanding,
      answer_test_of_standing (isRegular_attempts h.span.regular later) hstanding⟩
  ends hout before leaving later hquiet hleaves :=
    sameAt_of_standing (isRegular_attempts h.span.regular _) (isRegular_attempts h.regular _)
      (h.standing_of_leaving hout later hquiet hleaves)
  vanishes hclean before leaving later hquiet hkeeps hleaves := by
    have hfile : left.file = (directory.onFile left.file).file := rfl
    have hsame := sameButBound_attempts h.span.regular hfile h.cleanBut
      (hclean.onFile h.span fun _ hne => h.window_eq hne) (h.isQuiet hquiet) hkeeps hleaves later
    exact ⟨hsame, fun call => (hsame.step (isRegular_attempts h.span.regular _) call).2⟩
  others i hne hagrees later := by
    refine sameAt_of_standing (isRegular_attempts h.span.regular later)
      (isRegular_attempts h.regular later) ?_
    rw [h.standing_attempts, (Directory.standing_attempts h.regular later i).2,
      h.standing_of_ne hne hagrees]

end

def Unreadable (directory : Directory) (number : Nat) : Prop :=
  directory.cached? number = none ∧ ∃ cause, directory.blockOnDisk number = .error cause

theorem finds_of_blockOnDisk {directory : Directory} {number : Nat} {block : Buffer bitBlockSize}
    (hread : directory.blockOnDisk number = .ok block) :
    directory.file.IsRegular ∧ directory.Finds number := by
  rw [blockOnDisk] at hread
  cases hblock : directory.file.block (number * bitBlockSize) bitBlockSize with
  | error cause =>
    rw [hblock] at hread
    cases hread
  | ok block =>
    refine ⟨OpenFile.isRegular_of_block (by decide) hblock, Or.inr ?_⟩
    by_contra hout
    rw [OpenFile.block_of_not_reaches hout] at hblock
    cases hblock

theorem run_blockAt_cases (directory : Directory) (number : Nat) :
    directory.Finds number ∧ (blockAt number).run directory = .ok (directory.blockFor number)
      (directory.remembering (some (number, directory.blockFor number))) ∨
    directory.Unreadable number ∧
      ∃ cause, (blockAt number).run directory = .error cause (directory.remembering none) := by
  cases hcached : directory.cached? number with
  | some block =>
    exact Or.inl ⟨Or.inl (by rw [hcached]; rfl), run_blockAt_of_cached hcached⟩
  | none =>
    cases hread : directory.blockOnDisk number with
    | ok block =>
      obtain ⟨hregular, hfinds⟩ := finds_of_blockOnDisk hread
      exact Or.inl ⟨hfinds, (run_blockAt hregular number).trans (if_pos hfinds)⟩
    | error cause =>
      refine Or.inr ⟨⟨hcached, cause, hread⟩, cause, ?_⟩
      rw [EStateM.run, blockAt, hcached, hread]
      rfl

/-- A set that fails either finds no block, drops the one in memory and does nothing else, or has
written the block but for its last bytes. Then the bit is left set in memory and the bound is left
raised. -/
theorem failed_set_lingers {directory left : Directory} {bit : Nat} {cause : StoreError}
    (hfail : (set bit).run directory = .error cause left) :
    directory.Unreadable (BitPlace.ofBit bit).block ∧ left = directory.remembering none ∨
      directory.taken (BitPlace.ofBit bit).block < bitBlockSize ∧
        left = (directory.touched bit).spilled (BitPlace.ofBit bit).block
          (directory.taken (BitPlace.ofBit bit).block) ∧
        (directory.file.IsRegular →
          directory.Lingers bit (directory.taken (BitPlace.ofBit bit).block) left) := by
  obtain ⟨hfinds, hfound⟩ | ⟨hunread, cause', herror⟩ :=
    directory.run_blockAt_cases (BitPlace.ofBit bit).block
  · right
    have hput := @run_putBlock (directory.touched bit) (BitPlace.ofBit bit).block _ rfl
    unfold set at hfail
    rw [run_bind_ok hfound, run_bind_ok (EStateM.run_modify _ _)] at hfail
    cases hrefusal : (directory.touched bit).refusal (BitPlace.ofBit bit).block with
    | none =>
      rw [hrefusal] at hput
      cases hput.symm.trans hfail
    | some stop =>
      rw [hrefusal] at hput
      cases hput.symm.trans hfail
      refine ⟨OpenFile.taken_lt (by decide) hrefusal, rfl, fun hregular => ?_⟩
      have hregular' : (directory.touched bit).file.IsRegular := hregular
      have hspan := (sameUse_spilled hregular' (BitPlace.ofBit bit).block).toSameSpan
      have hreach : directory.taken (BitPlace.ofBit bit).block ≠ 0 → directory.file.ReachesBit bit :=
        OpenFile.reaches_of_taken hregular
      exact Spills.lingers ⟨hregular, hfinds, hspan, rfl, hreach⟩
  · have hset : (set bit).run directory = .error cause' (directory.remembering none) :=
      run_bind_error herror
    rw [hset] at hfail
    cases hfail
    exact Or.inl ⟨hunread, rfl⟩

def cappedFile : OpenFile :=
  { FileSystem.ofNumberedBlocks.file 0 .readWrite (.regular .empty) with
    stop := some ⟨1024, .fileTooLarge⟩ }

theorem run_set_cappedFile : (set 9000).run (ofFile cappedFile) =
    .error (.io .fileTooLarge) (((ofFile cappedFile).touched 9000).spilled 0 1024) := by
  have hfinds : (ofFile cappedFile).Finds (BitPlace.ofBit 9000).block := by decide
  have hrefusal : (ofFile cappedFile).refusal (BitPlace.ofBit 9000).block =
      some ⟨1024, .fileTooLarge⟩ := by decide
  rw [run_set ⟨_, rfl⟩, if_pos hfinds, taken, OpenFile.taken, ← refusal, hrefusal]
  rfl

/-- Bit 9000 is not in the part of its block that comes to the file. The next write of the block
takes it along, and a test in another block ends it. -/
theorem failed_set_lingers_capped :
    ∃ left, (set 9000).run (ofFile cappedFile) = .error (.io .fileTooLarge) left ∧
      left.file.bit 9000 = false ∧ left.bound = 32768 ∧
      left.answer (.test 9000) = .ok (.bit true) ∧
      (left.attempts [⟨.readWrite, none, .set 4⟩]).file.bit 9000 = true ∧
      (left.attempts [⟨.readWrite, none, .test 32768⟩]).SameButBound
        (((ofFile cappedFile).onFile left.file).attempts [⟨.readWrite, none, .test 32768⟩]) := by
  refine ⟨_, run_set_cappedFile, ?_⟩
  obtain ⟨⟨hcached, -⟩, -⟩ | ⟨-, -, hlingers⟩ := failed_set_lingers run_set_cappedFile
  · exact absurd hcached (Option.some_ne_none _)
  have h := hlingers ⟨_, rfl⟩
  have htaken : (ofFile cappedFile).taken (BitPlace.ofBit 9000).block = 1024 := by decide
  rw [htaken] at h
  have hout : ¬ Covers 9000 1024 9000 := fun hin => absurd hin.2 (by decide)
  have hkeeps : (DirectoryCall.set 4).Keeps (BitPlace.ofBit 9000).block := rfl
  have hleaves : ¬ (DirectoryCall.test 32768).Keeps (BitPlace.ofBit 9000).block := by
    simp [DirectoryCall.Keeps, BitPlace.ofBit]
  have hbrings : (Attempt.mk .readWrite none (.set 4)).brings cappedFile
      (BitPlace.ofBit 9000).byte = true := by decide
  have hregular : cappedFile.IsRegular := ⟨_, rfl⟩
  have hclean := (fresh_ofFile hregular).cleanBut (BitPlace.ofBit 9000).block
  refine ⟨?_, h.bound_eq.trans rfl, h.shows [] (by simp), ?_, ?_⟩
  · rw [h.stayed 9000 hout]
    exact OpenFile.bit_of_length_le (Nat.zero_le _)
  · refine (h.writes _ ?_).mpr (Or.inr ⟨_, List.mem_cons_self, hbrings⟩)
    simpa using hkeeps
  · exact (h.vanishes hclean [] _ [] (by simp) (by simp) hleaves).1

def sealedFile : OpenFile := FileSystem.ofNumberedBlocks.file 0 .readOnly (.regular .empty)

/-- A set that fails on an empty file raises the bound, and a test then finds its bit set. -/
theorem failed_set_shows :
    let directory := ofFile sealedFile
    let left := directory.step (.set 3)
    directory.answer (.set 3) = .error (.io .badDescriptor) ∧
      directory.bound = 0 ∧ left.bound = 32768 ∧
      directory.answer (.test 3) = .ok (.bit false) ∧ left.answer (.test 3) = .ok (.bit true) := by
  intro directory left
  have hregular : directory.file.IsRegular := ⟨_, rfl⟩
  have hfinds : directory.Finds (BitPlace.ofBit 3).block := by decide
  have hrefusal : directory.refusal (BitPlace.ofBit 3).block = some ⟨0, .badDescriptor⟩ := by decide
  have htaken : directory.taken (BitPlace.ofBit 3).block = 0 := by decide
  have hleft : left = directory.touched 3 := by
    simp only [left]
    rw [step_set hregular, if_pos hfinds, htaken, spilled, List.take_zero, OpenFile.overwritten_nil]
  have hempty : directory.file.bit 3 = false := OpenFile.bit_of_length_le (Nat.zero_le _)
  refine ⟨?_, rfl, by rw [hleft]; rfl, ?_, ?_⟩
  · rw [answer_set hregular, if_pos hfinds, hrefusal]
  · have hopened : directory.Fresh := fresh_ofFile hregular
    have hreach : directory.file.ReachesBit 3 := by decide
    rw [hopened.answer_test, if_pos hreach, hempty]
  · have hafter : (directory.touched 3).file.IsRegular := hregular
    rw [hleft, answer_test hafter, standing_touched, if_pos rfl]
    rfl

end PageTrie.Directory
