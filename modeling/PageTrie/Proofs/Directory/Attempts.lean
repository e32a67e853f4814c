import PageTrie.Proofs.Directory.GrowingSet

/-! Calls on a directory while writes to its file come and go. The block in memory may then run ahead
of the file: what there is to know of a position is its bit in the file, its bit as a test finds
it, and whether a test finds it at all, and each call says what becomes of the three. -/
namespace PageTrie

/-- A call, and what the file takes meanwhile. A write may stop short at one time and go through at
another, as on a disk that is full for a while. -/
structure Attempt where
  access : Access
  stop : Option WriteStop
  call : DirectoryCall
  deriving DecidableEq, Repr

def OpenFile.during (file : OpenFile) (attempt : Attempt) : OpenFile :=
  { file with access := attempt.access, stop := attempt.stop }

/-- The call makes no other block take the place of this one in memory. -/
def DirectoryCall.Keeps (number : Nat) : DirectoryCall → Prop
  | .test bit | .set bit => (BitPlace.ofBit bit).block = number
  | .count => True
  | .reopen => False

namespace Attempt

def taken (attempt : Attempt) (file : OpenFile) (number : Nat) : Nat :=
  (file.during attempt).taken (number * bitBlockSize) bitBlockSize

/-- A bit is set, and its block comes to the file up to byte `byte` and beyond. -/
def brings (attempt : Attempt) (file : OpenFile) (byte : Nat) : Bool :=
  match attempt.call with
  | .set bit => decide (byte < attempt.taken file (BitPlace.ofBit bit).block)
  | .test _ | .count | .reopen => false

end Attempt

namespace OpenFile

variable {file other : OpenFile} (h : file.IsRegular)
include h

theorem IsRegular.during (attempt : Attempt) : file.SameSpan (file.during attempt) := ⟨h, rfl⟩

theorem SameSpan.taken_eq (hspan : file.SameSpan other) (attempt : Attempt) (number : Nat) :
    attempt.taken other number = attempt.taken file number := by
  have hsame : (file.during attempt).SameUse (other.during attempt) :=
    ⟨⟨hspan.regular, hspan.extent_eq⟩, rfl, rfl⟩
  rw [Attempt.taken, Attempt.taken, OpenFile.taken, OpenFile.taken,
    hsame.refusal_eq (h.during attempt).regular]

theorem SameSpan.brings_eq (hspan : file.SameSpan other) (attempt : Attempt) (byte : Nat) :
    attempt.brings other byte = attempt.brings file byte := by
  unfold Attempt.brings
  simp only [hspan.taken_eq h]

end OpenFile

/-- What there is to know of one position. -/
structure Standing where
  written : Bool
  /-- The bit is set in its block as a call finds it. -/
  seen : Bool
  found : Bool
  deriving DecidableEq, Repr

namespace Standing

def unloaded (file : OpenFile) (i : Nat) (standing : Standing) : Standing :=
  { standing with seen := standing.written, found := decide (file.ReachesBit i) }

def after (file : OpenFile) (i : Nat) (standing : Standing) (attempt : Attempt) : Standing :=
  match attempt.call with
  | .count => standing
  | .reopen => standing.unloaded file i
  | .test bit =>
    if (BitPlace.ofBit bit).block = (BitPlace.ofBit i).block then standing
    else standing.unloaded file i
  | .set bit =>
    if (BitPlace.ofBit bit).block = (BitPlace.ofBit i).block then
      if standing.found then
        let seen := decide (i = bit) || standing.seen
        ⟨if attempt.brings file (BitPlace.ofBit i).byte then seen else standing.written, seen, true⟩
      else standing
    else standing.unloaded file i

variable {file : OpenFile} {i : Nat}

theorem after_of_keeps {attempt : Attempt} (h : attempt.call.Keeps (BitPlace.ofBit i).block)
    (written : Bool) : after file i ⟨written, true, true⟩ attempt =
      ⟨written || attempt.brings file (BitPlace.ofBit i).byte, true, true⟩ := by
  obtain ⟨access, stop, call⟩ := attempt
  cases call with
  | test bit =>
    have hblock : (BitPlace.ofBit bit).block = (BitPlace.ofBit i).block := h
    simp only [after, if_pos hblock, Attempt.brings, Bool.or_false]
  | set bit =>
    have hblock : (BitPlace.ofBit bit).block = (BitPlace.ofBit i).block := h
    simp only [after, if_pos hblock, if_true, Bool.or_true]
    cases Attempt.brings ⟨access, stop, .set bit⟩ file (BitPlace.ofBit i).byte <;> simp
  | count => simp only [after, Attempt.brings, Bool.or_false]
  | reopen => exact h.elim

theorem after_of_not_keeps {attempt : Attempt}
    (h : ¬ attempt.call.Keeps (BitPlace.ofBit i).block) (standing : Standing) :
    standing.after file i attempt = standing.unloaded file i := by
  obtain ⟨access, stop, call⟩ := attempt
  cases call with
  | test bit => exact if_neg h
  | set bit => exact if_neg h
  | count => exact absurd trivial h
  | reopen => rfl

theorem written_after {attempt : Attempt}
    (h : attempt.brings file (BitPlace.ofBit i).byte = false) (standing : Standing) :
    (standing.after file i attempt).written = standing.written := by
  obtain ⟨access, stop, call⟩ := attempt
  cases call with
  | test bit => exact (apply_ite written _ _ _).trans (ite_self _)
  | set bit =>
    simp only [after, h]
    split
    · split <;> rfl
    · rfl
  | count => rfl
  | reopen => rfl

/-- While a block stays in memory, a bit set there stays set, and is in the file from the first
write on that gets as far. -/
theorem foldl_after_of_keeps {later : List Attempt}
    (h : ∀ attempt ∈ later, attempt.call.Keeps (BitPlace.ofBit i).block) (written : Bool) :
    later.foldl (after file i) ⟨written, true, true⟩ =
      ⟨written || later.any (·.brings file (BitPlace.ofBit i).byte), true, true⟩ := by
  induction later generalizing written with
  | nil => simp
  | cons attempt later ih =>
    rw [List.foldl_cons, after_of_keeps (h attempt List.mem_cons_self),
      ih fun a ha => h a (List.mem_cons_of_mem _ ha), List.any_cons, Bool.or_assoc]

theorem written_foldl_after {later : List Attempt}
    (h : ∀ attempt ∈ later, attempt.brings file (BitPlace.ofBit i).byte = false)
    (standing : Standing) : (later.foldl (after file i) standing).written = standing.written := by
  induction later generalizing standing with
  | nil => rfl
  | cons attempt later ih =>
    rw [List.foldl_cons, ih fun a ha => h a (List.mem_cons_of_mem _ ha),
      written_after (h attempt List.mem_cons_self)]

theorem foldl_after_of_written (hreach : file.ReachesBit i) (later : List Attempt) :
    later.foldl (after file i) ⟨true, true, true⟩ = ⟨true, true, true⟩ := by
  induction later with
  | nil => rfl
  | cons attempt later ih =>
    rw [List.foldl_cons]
    by_cases hkeeps : attempt.call.Keeps (BitPlace.ofBit i).block
    · rw [after_of_keeps hkeeps, Bool.true_or, ih]
    · rw [after_of_not_keeps hkeeps, unloaded, decide_eq_true hreach, ih]

end Standing

namespace Directory

def during (directory : Directory) (attempt : Attempt) : Directory :=
  { directory with file := directory.file.during attempt }

def attempt (directory : Directory) (attempt : Attempt) : Directory :=
  (directory.during attempt).step attempt.call

def attempts (directory : Directory) (later : List Attempt) : Directory :=
  later.foldl Directory.attempt directory

theorem attempts_append_cons (directory : Directory) (before : List Attempt) (leaving : Attempt)
    (later : List Attempt) : directory.attempts (before ++ leaving :: later) =
      ((directory.attempts before).attempt leaving).attempts later :=
  List.foldl_append

def standing (directory : Directory) (i : Nat) : Standing where
  written := directory.file.bit i
  seen := (BitPlace.ofBit i).isSetIn (directory.blockFor (BitPlace.ofBit i).block)
  found := decide (directory.Finds (BitPlace.ofBit i).block)

theorem finds_of_cached {directory : Directory} {number : Nat} {block : Buffer bitBlockSize}
    (h : directory.cached = some (number, block)) (other : Nat) : directory.Finds other ↔
      number = other ∨ directory.file.Reaches (other * bitBlockSize) bitBlockSize := by
  rw [Finds, cached?, h]
  by_cases hnumber : number = other <;> simp [hnumber]

theorem not_cached_of_not_finds {directory : Directory} {number : Nat}
    (h : ¬ directory.Finds number) : directory.cached? number = none := by
  cases hcached : directory.cached? number with
  | none => rfl
  | some block => exact absurd (Or.inl (by rw [hcached]; rfl)) h

theorem standing_of_not_cached {directory : Directory} {i : Nat}
    (h : directory.cached? (BitPlace.ofBit i).block = none) :
    directory.standing i = (directory.standing i).unloaded directory.file i := by
  have hfinds : directory.Finds (BitPlace.ofBit i).block ↔ directory.file.ReachesBit i := by
    rw [Finds, h]
    exact or_iff_right (by simp)
  rw [standing, Standing.unloaded, blockFor, h, Option.getD_none, BitPlace.isSetIn_window]
  simp only [hfinds]

theorem standing_forgetting (directory : Directory) (i : Nat) :
    (directory.remembering none).standing i = (directory.standing i).unloaded directory.file i := by
  have hcached : (directory.remembering none).cached? (BitPlace.ofBit i).block = none := rfl
  rw [standing_of_not_cached hcached]
  simp only [Standing.unloaded, standing]
  rfl

/-- A block that cannot be found was not in memory, so nothing is lost with what was. -/
theorem standing_forgetting_of_not_finds {directory : Directory} {number : Nat}
    (h : ¬ directory.Finds number) (i : Nat) : (directory.remembering none).standing i =
      if number = (BitPlace.ofBit i).block then directory.standing i
      else (directory.standing i).unloaded directory.file i := by
  rw [standing_forgetting]
  split
  · next hnumber => exact (standing_of_not_cached (not_cached_of_not_finds (hnumber ▸ h))).symm
  · rfl

theorem standing_of_cached {directory : Directory} {number i : Nat} {block : Buffer bitBlockSize}
    (h : directory.cached = some (number, block)) (hne : number ≠ (BitPlace.ofBit i).block) :
    directory.standing i = (directory.standing i).unloaded directory.file i := by
  apply standing_of_not_cached
  rw [cached?, h]
  exact if_neg hne

theorem standing_remembering {directory : Directory} {number : Nat} (h : directory.Finds number)
    (i : Nat) : (directory.remembering (some (number, directory.blockFor number))).standing i =
      if number = (BitPlace.ofBit i).block then directory.standing i
      else (directory.standing i).unloaded directory.file i := by
  have hcached : (directory.remembering (some (number, directory.blockFor number))).cached =
      some (number, directory.blockFor number) := rfl
  split
  · next hnumber =>
    subst hnumber
    rw [standing, standing, blockFor_of_cached hcached, if_pos rfl]
    simp only [finds_of_cached hcached, h, true_or]
    rfl
  · next hnumber =>
    rw [standing_of_cached hcached hnumber]
    rfl

theorem standing_touched (directory : Directory) (bit i : Nat) :
    (directory.touched bit).standing i =
      if (BitPlace.ofBit bit).block = (BitPlace.ofBit i).block then
        ⟨directory.file.bit i, decide (i = bit) || (directory.standing i).seen, true⟩
      else (directory.standing i).unloaded directory.file i := by
  have hcached : (directory.touched bit).cached = some ((BitPlace.ofBit bit).block,
      (BitPlace.ofBit bit).setIn (directory.blockFor (BitPlace.ofBit bit).block)) := rfl
  split
  · next hblock =>
    rw [standing, blockFor_of_cached hcached, if_pos hblock, BitPlace.isSetIn_setIn hblock, hblock]
    simp only [finds_of_cached hcached, hblock, true_or, decide_true]
    rfl
  · next hblock =>
    rw [standing_of_cached hcached hblock]
    rfl

theorem bit_spilled {directory : Directory} (h : directory.file.IsRegular) (number count i : Nat) :
    (directory.spilled number count).file.bit i =
      if number = (BitPlace.ofBit i).block ∧ (BitPlace.ofBit i).byte < count then
        (BitPlace.ofBit i).isSetIn (directory.blockFor number)
      else directory.file.bit i := by
  have hbyte : (BitPlace.ofBit i).byte < bitBlockSize := BitPlace.byte_lt i
  have hplace : (BitPlace.ofBit i).block * bitBlockSize + (BitPlace.ofBit i).byte = i / 8 :=
    Nat.div_add_mod' (i / 8) bitBlockSize
  have hwithin : number * bitBlockSize ≤ i / 8 ∧
      i / 8 < number * bitBlockSize + min count bitBlockSize ↔
        number = (BitPlace.ofBit i).block ∧ (BitPlace.ofBit i).byte < count := by
    change (BitPlace.ofBit i).byte < 4096 at hbyte
    change (BitPlace.ofBit i).block * 4096 + (BitPlace.ofBit i).byte = i / 8 at hplace
    change number * 4096 ≤ i / 8 ∧ i / 8 < number * 4096 + min count 4096 ↔ _
    omega
  rw [OpenFile.bit, spilled, OpenFile.byte_overwritten h, List.length_take, Vector.length_toList]
  simp only [hwithin]
  split
  · next hin =>
    obtain ⟨rfl, hcount⟩ := hin
    rw [← hplace, Nat.add_sub_cancel_left, BitPlace.isSetIn, Buffer.byte, dif_pos hbyte]
    have hget : ((directory.blockFor (BitPlace.ofBit i).block).toList.take count).getD
        (BitPlace.ofBit i).byte 0 =
          (directory.blockFor (BitPlace.ofBit i).block)[(BitPlace.ofBit i).byte] := by
      simp [List.getD_eq_getElem?_getD, hcount, hbyte]
    rw [hget]
    rfl
  · rfl

theorem standing_spilled {directory : Directory} (h : directory.file.IsRegular) {number : Nat}
    {block : Buffer bitBlockSize} (hcached : directory.cached = some (number, block)) {count : Nat}
    (hextent : (directory.spilled number count).file.extent = directory.file.extent) (i : Nat) :
    (directory.spilled number count).standing i =
      if number = (BitPlace.ofBit i).block then
        ⟨if (BitPlace.ofBit i).byte < count then (directory.standing i).seen
          else directory.file.bit i, (directory.standing i).seen, true⟩
      else directory.standing i := by
  have hkept : (directory.spilled number count).cached = some (number, block) := hcached
  split
  · next hnumber =>
    subst hnumber
    rw [standing, standing, blockFor_of_cached hkept, blockFor_of_cached hcached, if_pos rfl,
      bit_spilled h, blockFor_of_cached hcached, if_pos rfl]
    simp only [finds_of_cached hkept, true_and, true_or, decide_true]
  · next hnumber =>
    have hbit : (directory.spilled number count).file.bit i = directory.file.bit i := by
      rw [bit_spilled h, if_neg fun hin => hnumber hin.1]
    rw [standing_of_cached hkept hnumber, standing_of_cached hcached hnumber]
    simp only [Standing.unloaded, standing, hbit, OpenFile.ReachesBit,
      OpenFile.reaches_congr hextent]

section

variable {directory : Directory} (h : directory.file.IsRegular)
include h

theorem sameUse_spilled (number : Nat) : directory.file.SameUse
    (directory.spilled number (directory.taken number)).file := by
  apply OpenFile.sameUse_overwritten h
  intro hne
  obtain ⟨hle, hend⟩ := OpenFile.taken_bounds h (number * bitBlockSize) bitBlockSize
  rw [← Directory.taken] at hle hend
  rw [List.length_take, Vector.length_toList, Nat.min_eq_left hle]
  apply hend
  intro hzero
  rw [hzero, List.take_zero] at hne
  exact hne rfl

theorem answer_test (bit : Nat) : directory.answer (.test bit) =
    if (directory.standing bit).found then .ok (.bit (directory.standing bit).seen)
    else .error (.io .invalidOffset) := by
  rw [answer, answered, run_test h]
  simp only [standing, decide_eq_true_eq]
  by_cases hfinds : directory.Finds (BitPlace.ofBit bit).block
  · rw [if_pos hfinds, if_pos hfinds]
    rfl
  · rw [if_neg hfinds, if_neg hfinds]
    rfl

theorem answer_test_of_standing {bit : Nat} {written seen : Bool}
    (hstanding : directory.standing bit = ⟨written, seen, true⟩) :
    directory.answer (.test bit) = .ok (.bit seen) := by
  rw [answer_test h, hstanding]
  rfl

theorem standing_step_test (bit i : Nat) :
    directory.file.SameSpan (directory.step (.test bit)).file ∧
      (directory.step (.test bit)).standing i =
        if (BitPlace.ofBit bit).block = (BitPlace.ofBit i).block then directory.standing i
        else (directory.standing i).unloaded directory.file i := by
  rw [step_test h]
  by_cases hfinds : directory.Finds (BitPlace.ofBit bit).block
  · rw [if_pos hfinds, standing_remembering hfinds]
    exact ⟨h.sameSpan, rfl⟩
  · rw [if_neg hfinds, standing_forgetting_of_not_finds hfinds]
    exact ⟨h.sameSpan, rfl⟩

theorem standing_step_set (bit i : Nat) :
    directory.file.SameSpan (directory.step (.set bit)).file ∧
      (directory.step (.set bit)).standing i =
        if (BitPlace.ofBit bit).block = (BitPlace.ofBit i).block then
          if (directory.standing i).found then
            let seen := decide (i = bit) || (directory.standing i).seen
            ⟨if (BitPlace.ofBit i).byte < directory.taken (BitPlace.ofBit bit).block then seen
              else directory.file.bit i, seen, true⟩
          else directory.standing i
        else (directory.standing i).unloaded directory.file i := by
  rw [step_set h]
  by_cases hfinds : directory.Finds (BitPlace.ofBit bit).block
  · have hregular : (directory.touched bit).file.IsRegular := h
    have huse := sameUse_spilled hregular (BitPlace.ofBit bit).block
    rw [if_pos hfinds]
    refine ⟨huse.toSameSpan, (standing_spilled hregular rfl huse.extent_eq i).trans ?_⟩
    rw [standing_touched]
    split
    · next hblock =>
      have hfound : (directory.standing i).found = true := decide_eq_true (hblock ▸ hfinds)
      rw [if_pos hfound]
      rfl
    · rfl
  · rw [if_neg hfinds, standing_forgetting_of_not_finds hfinds]
    refine ⟨h.sameSpan, ?_⟩
    split
    · next hblock =>
      have hfound : ¬ (directory.standing i).found = true := by
        rw [standing, decide_eq_true_eq, ← hblock]
        exact hfinds
      rw [if_neg hfound]
    · rfl

/-- What becomes of a position hangs on nothing but what there is to know of it. -/
theorem standing_attempt (attempt : Attempt) (i : Nat) :
    directory.file.SameSpan (directory.attempt attempt).file ∧
      (directory.attempt attempt).standing i =
        (directory.standing i).after directory.file i attempt := by
  have hspan := h.during attempt
  have hregular : (directory.during attempt).file.IsRegular := hspan.regular
  obtain ⟨access, stop, call⟩ := attempt
  cases call with
  | test bit =>
    obtain ⟨hnext, hstanding⟩ := standing_step_test hregular bit i
    exact ⟨hspan.trans hnext, hstanding⟩
  | set bit =>
    obtain ⟨hnext, hstanding⟩ := standing_step_set hregular bit i
    refine ⟨hspan.trans hnext, hstanding.trans ?_⟩
    simp only [Standing.after, Attempt.brings, decide_eq_true_eq]
    rfl
  | count =>
    rw [Directory.attempt, step, left_count]
    exact ⟨hspan, rfl⟩
  | reopen =>
    have hopened := fresh_ofFile hregular
    refine ⟨hspan, ?_⟩
    rw [Directory.attempt, step, standing, hopened.blockFor_eq, BitPlace.isSetIn_window]
    simp only [hopened.finds_iff]
    rfl

end

theorem after_congr {file other : OpenFile} (h : file.IsRegular) (hspan : file.SameSpan other)
    (i : Nat) : Standing.after other i = Standing.after file i := by
  funext standing attempt
  unfold Standing.after Standing.unloaded
  simp only [hspan.brings_eq h, hspan.reachesBit_iff]

theorem standing_attempts {directory : Directory} (h : directory.file.IsRegular)
    (later : List Attempt) (i : Nat) :
    directory.file.SameSpan (directory.attempts later).file ∧
      (directory.attempts later).standing i =
        later.foldl (Standing.after directory.file i) (directory.standing i) := by
  induction later generalizing directory with
  | nil => exact ⟨h.sameSpan, rfl⟩
  | cons attempt later ih =>
    obtain ⟨hspan, hstanding⟩ := standing_attempt h attempt i
    obtain ⟨hrest, hlast⟩ := ih hspan.regular
    rw [hstanding, after_congr h hspan] at hlast
    exact ⟨hspan.trans hrest, hlast⟩

theorem isRegular_attempt {directory : Directory} (h : directory.file.IsRegular)
    (attempt : Attempt) : (directory.attempt attempt).file.IsRegular :=
  (standing_attempt h attempt 0).1.regular

theorem isRegular_attempts {directory : Directory} (h : directory.file.IsRegular)
    (later : List Attempt) : (directory.attempts later).file.IsRegular :=
  (standing_attempts h later 0).1.regular

theorem answer_count_congr {directory other : Directory} (h : directory.file = other.file) :
    directory.answer .count = other.answer .count := by
  have hcontent := congrArg OpenFile.content h
  have hlimit := congrArg OpenFile.limit h
  have hcount : directory.answered count = other.answered count := by
    simp only [answered, EStateM.run, count, blocksInFile_congr hcontent,
      onesFrom_congr hcontent hlimit]
    cases other.onesFrom 0 0 other.blocksInFile <;> rfl
  rw [answer, answer, hcount]

structure SameButBound (directory other : Directory) : Prop where
  file_eq : directory.file = other.file
  cached_eq : directory.cached = other.cached

/-- What is in memory is a block that the file has, and one that can be read, unless it is the block
of this number. -/
structure CleanBut (number : Nat) (directory : Directory) : Prop where
  block_eq : ∀ other ≠ number,
    directory.blockFor other = directory.file.window (other * bitBlockSize) bitBlockSize
  reaches : ∀ other ≠ number, directory.Finds other →
    directory.file.Reaches (other * bitBlockSize) bitBlockSize

theorem cleanBut_of_cached {directory : Directory} {number : Nat} {block : Buffer bitBlockSize}
    (h : directory.cached = some (number, block)) : directory.CleanBut number where
  block_eq other hne := by rw [blockFor_of_cached h, if_neg (Ne.symm hne)]
  reaches other hne hfinds := ((finds_of_cached h other).mp hfinds).resolve_left (Ne.symm hne)

theorem cleanBut_forgetting (directory : Directory) (number : Nat) :
    (directory.remembering none).CleanBut number where
  block_eq other hne := rfl
  reaches other hne hfinds := hfinds.resolve_left (by simp [cached?, remembering])

theorem Fresh.cleanBut {directory : Directory} (h : directory.Fresh) (number : Nat) :
    directory.CleanBut number where
  block_eq other _ := h.blockFor_eq other
  reaches other _ := (h.finds_iff other).mp

structure FindsAlike (number : Nat) (directory other : Directory) : Prop where
  finds_iff : directory.Finds number ↔ other.Finds number
  block_eq : directory.blockFor number = other.blockFor number

section

variable {directory other : Directory}

theorem SameButBound.findsAlike (hsame : directory.SameButBound other) (number : Nat) :
    directory.FindsAlike number other where
  finds_iff := by rw [Finds, Finds, cached?, cached?, hsame.file_eq, hsame.cached_eq]
  block_eq := by rw [blockFor, blockFor, cached?, cached?, hsame.file_eq, hsame.cached_eq]

theorem CleanBut.findsAlike {number another : Nat} (hclean : directory.CleanBut number)
    (hclean' : other.CleanBut number) (hfile : directory.file = other.file)
    (hne : another ≠ number) : directory.FindsAlike another other where
  finds_iff := by
    refine ⟨fun hfinds => Or.inr ?_, fun hfinds => Or.inr ?_⟩
    · rw [← hfile]
      exact hclean.reaches another hne hfinds
    · rw [hfile]
      exact hclean'.reaches another hne hfinds
  block_eq := by rw [hclean.block_eq another hne, hclean'.block_eq another hne, hfile]

section

variable (h : directory.file.IsRegular) (hfile : directory.file = other.file) {bit : Nat}
  (halike : directory.FindsAlike (BitPlace.ofBit bit).block other)
include h hfile halike

theorem sameButBound_test :
    (directory.step (.test bit)).SameButBound (other.step (.test bit)) := by
  rw [step_test h, step_test (hfile ▸ h), halike.block_eq]
  simp only [halike.finds_iff]
  split
  · exact ⟨hfile, rfl⟩
  · exact ⟨hfile, rfl⟩

theorem sameButBound_set :
    (directory.step (.set bit)).SameButBound (other.step (.set bit)) := by
  have htouched : (directory.touched bit).SameButBound (other.touched bit) :=
    ⟨hfile, by rw [touched, touched, halike.block_eq]⟩
  rw [step_set h, step_set (hfile ▸ h)]
  simp only [halike.finds_iff]
  split
  · refine ⟨?_, htouched.cached_eq⟩
    change OpenFile.overwritten _ _ _ = OpenFile.overwritten _ _ _
    rw [htouched.file_eq, (htouched.findsAlike _).block_eq, taken, taken, hfile]
  · exact ⟨hfile, rfl⟩

end

theorem SameButBound.step (hsame : directory.SameButBound other) (h : directory.file.IsRegular)
    (call : DirectoryCall) :
    (directory.step call).SameButBound (other.step call) ∧
      directory.answer call = other.answer call := by
  have hfile := hsame.file_eq
  have hother : other.file.IsRegular := hfile ▸ h
  cases call with
  | test bit =>
    have halike := hsame.findsAlike (BitPlace.ofBit bit).block
    refine ⟨sameButBound_test h hfile halike, ?_⟩
    rw [answer_test h, answer_test hother, standing, standing, halike.block_eq]
    simp only [halike.finds_iff]
  | set bit =>
    have halike := hsame.findsAlike (BitPlace.ofBit bit).block
    refine ⟨sameButBound_set h hfile halike, ?_⟩
    rw [answer_set h, answer_set hother, refusal, refusal, hfile]
    simp only [halike.finds_iff]
  | count =>
    rw [Directory.step, Directory.step, left_count, left_count]
    exact ⟨hsame, answer_count_congr hfile⟩
  | reopen =>
    rw [Directory.step, Directory.step, hfile]
    exact ⟨⟨rfl, rfl⟩, rfl⟩

theorem SameButBound.during (hsame : directory.SameButBound other) (attempt : Attempt) :
    (directory.during attempt).SameButBound (other.during attempt) :=
  ⟨congrArg (·.during attempt) hsame.file_eq, hsame.cached_eq⟩

theorem SameButBound.attempts (hsame : directory.SameButBound other)
    (h : directory.file.IsRegular) (later : List Attempt) :
    (directory.attempts later).SameButBound (other.attempts later) := by
  induction later generalizing directory other with
  | nil => exact hsame
  | cons attempt later ih =>
    have hregular := (h.during attempt).regular
    exact ih ((hsame.during attempt).step hregular attempt.call).1 (isRegular_attempt h attempt)

/-- Two directories on the same file that differ in memory in one block only are the same, up to the
bound, once a call looks at another block. -/
theorem sameButBound_leaving (h : directory.file.IsRegular) (hfile : directory.file = other.file)
    {number : Nat} (hclean : directory.CleanBut number) (hclean' : other.CleanBut number)
    {leaving : Attempt} (hleaves : ¬ leaving.call.Keeps number) :
    (directory.attempt leaving).SameButBound (other.attempt leaving) := by
  have hregular : (directory.during leaving).file.IsRegular := (h.during leaving).regular
  have hduring : (directory.during leaving).file = (other.during leaving).file :=
    congrArg (·.during leaving) hfile
  have halike (another : Nat) (hne : another ≠ number) :
      (directory.during leaving).FindsAlike another (other.during leaving) :=
    ⟨(hclean.findsAlike hclean' hfile hne).finds_iff, (hclean.findsAlike hclean' hfile hne).block_eq⟩
  obtain ⟨access, stop, call⟩ := leaving
  cases call with
  | test bit => exact sameButBound_test hregular hduring (halike _ hleaves)
  | set bit => exact sameButBound_set hregular hduring (halike _ hleaves)
  | count => exact absurd trivial hleaves
  | reopen =>
    rw [Directory.attempt, Directory.attempt, Directory.step, Directory.step, hduring]
    exact ⟨rfl, rfl⟩

end

section

variable {directory : Directory} (h : directory.file.IsRegular)
include h

theorem CleanBut.attempt {number : Nat} (hclean : directory.CleanBut number) {attempt : Attempt}
    (hkeeps : attempt.call.Keeps number) : (directory.attempt attempt).CleanBut number := by
  have hregular : (directory.during attempt).file.IsRegular := (h.during attempt).regular
  obtain ⟨access, stop, call⟩ := attempt
  cases call with
  | test bit =>
    obtain rfl : (BitPlace.ofBit bit).block = number := hkeeps
    rw [Directory.attempt, step_test hregular]
    split
    · exact cleanBut_of_cached rfl
    · exact cleanBut_forgetting _ _
  | set bit =>
    obtain rfl : (BitPlace.ofBit bit).block = number := hkeeps
    rw [Directory.attempt, step_set hregular]
    split
    · exact cleanBut_of_cached rfl
    · exact cleanBut_forgetting _ _
  | count =>
    rw [Directory.attempt, step, left_count]
    exact ⟨hclean.block_eq, hclean.reaches⟩
  | reopen => exact hkeeps.elim

theorem CleanBut.attempts {number : Nat} (hclean : directory.CleanBut number)
    {later : List Attempt} (hkeeps : ∀ attempt ∈ later, attempt.call.Keeps number) :
    (directory.attempts later).CleanBut number := by
  induction later generalizing directory with
  | nil => exact hclean
  | cons attempt later ih =>
    have hnext := hclean.attempt h (hkeeps attempt List.mem_cons_self)
    exact ih (isRegular_attempt h attempt) hnext fun a ha => hkeeps a (List.mem_cons_of_mem _ ha)

end

/-- The attempt puts nothing in the file. -/
def IsQuiet (file : OpenFile) (attempt : Attempt) : Prop := attempt.brings file 0 = false

theorem file_attempt {directory : Directory} (h : directory.file.IsRegular) {attempt : Attempt}
    (hquiet : IsQuiet directory.file attempt) :
    (directory.attempt attempt).file = directory.file.during attempt := by
  have hregular : (directory.during attempt).file.IsRegular := (h.during attempt).regular
  obtain ⟨access, stop, call⟩ := attempt
  cases call with
  | test bit =>
    rw [Directory.attempt, step_test hregular]
    split <;> rfl
  | set bit =>
    rw [Directory.attempt, step_set hregular]
    split
    · have hnone : (directory.during ⟨access, stop, .set bit⟩).taken (BitPlace.ofBit bit).block = 0 :=
        Nat.eq_zero_of_not_pos (of_decide_eq_false hquiet)
      rw [hnone, spilled, List.take_zero, OpenFile.overwritten_nil]
      rfl
    · rfl
  | count =>
    rw [Directory.attempt, step, left_count]
    rfl
  | reopen => rfl

theorem file_attempts {directory other : Directory} (h : directory.file.IsRegular)
    (hfile : directory.file = other.file) {later : List Attempt}
    (hquiet : ∀ attempt ∈ later, IsQuiet directory.file attempt) :
    (directory.attempts later).file = (other.attempts later).file := by
  induction later generalizing directory other with
  | nil => exact hfile
  | cons attempt later ih =>
    have hfirst := hquiet attempt List.mem_cons_self
    have hspan := (standing_attempt h attempt 0).1
    have hnext : (directory.attempt attempt).file = (other.attempt attempt).file := by
      rw [file_attempt h hfirst, file_attempt (hfile ▸ h) (hfile ▸ hfirst), hfile]
    refine ih hspan.regular hnext fun a ha => ?_
    exact (hspan.brings_eq h a 0).trans (hquiet a (List.mem_cons_of_mem _ ha))

end Directory

end PageTrie
