import PageTrie.Directory
import PageTrie.Proofs.Storage.Window

/-! The directory as a set of positions. While the block in memory agrees with the file,
testing a bit reads the file's bit, and setting one adds that position and no other. -/
namespace PageTrie

theorem run_bind_ok {x : EStateM ε σ α} {f : α → EStateM ε σ β} {s s' : σ} {a : α}
    (h : x.run s = .ok a s') : (x >>= f).run s = (f a).run s' := by
  rw [EStateM.run_bind, h]

theorem run_bind_error {x : EStateM ε σ α} {f : α → EStateM ε σ β} {s s' : σ} {e : ε}
    (h : x.run s = .error e s') : (x >>= f).run s = .error e s' := by
  rw [EStateM.run_bind, h]

namespace BitPlace

theorem toNat_mask {i : Nat} (hi : i < 8) : (UInt8.ofNat (1 <<< i)).toNat = 2 ^ i := by
  have := Nat.pow_lt_pow_right (a := 2) (by decide) hi
  rw [UInt8.toNat_ofNat', Nat.one_shiftLeft]
  exact Nat.mod_eq_of_lt (by omega)

theorem testBit_mark (b : UInt8) {i j : Nat} (hi : i < 8) :
    (b ||| UInt8.ofNat (1 <<< i)).toNat.testBit j = (decide (j = i) || b.toNat.testBit j) := by
  rw [UInt8.toNat_or, Nat.testBit_or, toNat_mask hi, Nat.testBit_two_pow, Bool.or_comm]
  simp only [eq_comm]

theorem byte_lt (bit : Nat) : (ofBit bit).byte < bitBlockSize := Nat.mod_lt _ (by decide)

theorem block_end_le {bit : Nat} (hbit : bit < 0x100000000) :
    (ofBit bit).block * bitBlockSize + bitBlockSize ≤ storeSpan := by
  change bit / 8 / 4096 * 4096 + 4096 ≤ 0x40000000000
  omega

theorem bit_lt (bit : Nat) : (ofBit bit).bit < 8 := Nat.mod_lt _ (by decide)

theorem isSetIn_window (file : OpenFile) (bit : Nat) :
    (ofBit bit).isSetIn (file.window ((ofBit bit).block * bitBlockSize) bitBlockSize) =
      file.bit bit := by
  have hbyte : (ofBit bit).block * bitBlockSize + (ofBit bit).byte = bit / 8 :=
    Nat.div_add_mod' (bit / 8) bitBlockSize
  rw [isSetIn, OpenFile.byte_window, if_pos (byte_lt bit), hbyte]
  rfl

theorem byte_setIn (place : BitPlace) (block : Buffer bitBlockSize) (i : Nat)
    (hbyte : place.byte < bitBlockSize) :
    Buffer.byte (place.setIn block) i = if i = place.byte then
      Buffer.byte block i ||| UInt8.ofNat (1 <<< place.bit) else Buffer.byte block i := by
  rw [setIn, Buffer.byte_setIfInBounds]
  by_cases hi : i = place.byte
  · rw [if_pos ⟨hi, hi ▸ hbyte⟩, if_pos hi, hi]
  · rw [if_neg (fun h => hi h.1), if_neg hi]

theorem isSetIn_setIn {bit i : Nat} (h : (ofBit bit).block = (ofBit i).block)
    (block : Buffer bitBlockSize) :
    (ofBit i).isSetIn ((ofBit bit).setIn block) =
      (decide (i = bit) || (ofBit i).isSetIn block) := by
  rw [isSetIn, byte_setIn _ _ _ (byte_lt bit)]
  by_cases hbyte : (ofBit i).byte = (ofBit bit).byte
  · have hsame : i = bit ↔ (ofBit i).bit = (ofBit bit).bit := by
      simp only [ofBit, bitBlockSize] at h hbyte ⊢
      omega
    rw [if_pos hbyte, testBit_mark _ (bit_lt bit), isSetIn]
    simp only [hsame]
  · have hne : i ≠ bit := fun heq => hbyte (by rw [heq])
    rw [if_neg hbyte, ← isSetIn, decide_eq_false hne, Bool.false_or]

end BitPlace

namespace OpenFile

def ReachesBit (file : OpenFile) (bit : Nat) : Prop :=
  file.Reaches ((BitPlace.ofBit bit).block * bitBlockSize) bitBlockSize

instance (file : OpenFile) : DecidablePred file.ReachesBit := fun _ => instDecidableAnd

theorem reachesBit_of_lt {file : OpenFile} (h : storeSpan ≤ file.extent) {bit : Nat}
    (hbit : bit < 0x100000000) : file.ReachesBit bit := reaches_of_le h (BitPlace.block_end_le hbit)

end OpenFile

namespace Directory

/-- The file can be read, and what is in memory is a block of it. -/
structure Coherent (directory : Directory) : Prop where
  regular : directory.file.IsRegular
  cached_eq : ∀ number block, directory.cached = some (number, block) →
    block = directory.file.window (number * bitBlockSize) bitBlockSize

def Bounded (directory : Directory) : Prop :=
  ∀ i, directory.file.bit i = true → i < directory.bound

/-- Whether a walk takes a node for split: numbers at or above the bound are not looked up. -/
def sees (directory : Directory) (i : Nat) : Bool :=
  decide (i < directory.bound) && directory.file.bit i

theorem Bounded.sees_eq {directory : Directory} (h : directory.Bounded) :
    directory.sees = directory.file.bit := by
  funext i
  have hbound := h i
  cases hbit : directory.file.bit i with
  | true => simp [sees, hbit, hbound hbit]
  | false => simp [sees, hbit]

def remembering (directory : Directory) (cached : Option (Nat × Buffer bitBlockSize)) :
    Directory := { directory with cached }

theorem cached?_eq_some_iff {directory : Directory} {number : Nat} {block : Buffer bitBlockSize} :
    directory.cached? number = some block ↔ directory.cached = some (number, block) := by
  unfold cached?
  cases directory.cached with
  | none => simp
  | some kept => simp [Prod.ext_iff]

/-- The block that a call finds under a number: what is in memory goes before the file. -/
def blockFor (directory : Directory) (number : Nat) : Buffer bitBlockSize :=
  (directory.cached? number).getD (directory.file.window (number * bitBlockSize) bitBlockSize)

theorem blockFor_of_cached {directory : Directory} {number : Nat} {block : Buffer bitBlockSize}
    (h : directory.cached = some (number, block)) (other : Nat) :
    directory.blockFor other = if number = other then block else
      directory.file.window (other * bitBlockSize) bitBlockSize := by
  rw [blockFor, cached?, h]
  dsimp only
  split <;> rfl

/-- A block is in memory, or can be read. -/
def Finds (directory : Directory) (number : Nat) : Prop :=
  (directory.cached? number).isSome = true ∨
    directory.file.Reaches (number * bitBlockSize) bitBlockSize

instance (directory : Directory) : DecidablePred directory.Finds := fun _ => instDecidableOr

theorem run_blockAt_of_cached {directory : Directory} {number : Nat}
    {block : Buffer bitBlockSize} (h : directory.cached? number = some block) :
    (blockAt number).run directory = .ok (directory.blockFor number)
      (directory.remembering (some (number, directory.blockFor number))) := by
  rw [EStateM.run, blockAt, blockFor, h, Option.getD_some, remembering,
    ← cached?_eq_some_iff.mp h]

section

variable {directory : Directory} (h : directory.file.IsRegular)
include h

theorem run_blockAt (number : Nat) :
    (blockAt number).run directory = if directory.Finds number then
      .ok (directory.blockFor number)
        (directory.remembering (some (number, directory.blockFor number)))
    else .error (.io .invalidOffset) (directory.remembering none) := by
  cases hcached : directory.cached? number with
  | some block =>
    have hfinds : directory.Finds number := Or.inl (by rw [hcached]; rfl)
    rw [if_pos hfinds, run_blockAt_of_cached hcached]
  | none =>
    have hfinds : directory.Finds number ↔
        directory.file.Reaches (number * bitBlockSize) bitBlockSize := by
      rw [Finds, hcached]
      simp
    rw [EStateM.run, blockAt, blockFor, hcached, blockOnDisk]
    by_cases hreach : directory.file.Reaches (number * bitBlockSize) bitBlockSize
    · rw [if_pos (hfinds.mpr hreach), OpenFile.block_eq_window h hreach]
      rfl
    · rw [if_neg (hfinds.not.mpr hreach), OpenFile.block_of_not_reaches hreach]
      rfl

theorem run_test (bit : Nat) :
    (test bit).run directory = if directory.Finds (BitPlace.ofBit bit).block then
      .ok ((BitPlace.ofBit bit).isSetIn (directory.blockFor (BitPlace.ofBit bit).block))
        (directory.remembering
          (some ((BitPlace.ofBit bit).block, directory.blockFor (BitPlace.ofBit bit).block)))
    else .error (.io .invalidOffset) (directory.remembering none) := by
  have hblock := run_blockAt h (BitPlace.ofBit bit).block
  unfold test
  split
  · next hfinds =>
    rw [if_pos hfinds] at hblock
    rw [run_bind_ok hblock, EStateM.run_pure]
  · next hfinds =>
    rw [if_neg hfinds] at hblock
    exact run_bind_error hblock

end

section Coherent

variable {directory : Directory} (h : directory.Coherent)
include h

theorem Coherent.blockFor_eq (number : Nat) :
    directory.blockFor number = directory.file.window (number * bitBlockSize) bitBlockSize := by
  rw [blockFor]
  cases hcase : directory.cached? number with
  | none => rfl
  | some block => exact h.cached_eq number block (cached?_eq_some_iff.mp hcase)

theorem Coherent.test {bit : Nat} (hreach : directory.file.ReachesBit bit) :
    ∃ cached, (test bit).run directory =
        .ok (directory.file.bit bit) (directory.remembering cached) ∧
      (directory.remembering cached).Coherent := by
  have hfinds : directory.Finds (BitPlace.ofBit bit).block := Or.inr hreach
  refine ⟨some ((BitPlace.ofBit bit).block, directory.blockFor (BitPlace.ofBit bit).block), ?_,
    h.regular, ?_⟩
  · rw [run_test h.regular, if_pos hfinds, h.blockFor_eq, BitPlace.isSetIn_window]
  · intro number block hkept
    cases hkept
    exact h.blockFor_eq _

end Coherent

def touched (directory : Directory) (bit : Nat) : Directory :=
  let place := BitPlace.ofBit bit
  { directory with
    cached := some (place.block, place.setIn (directory.blockFor place.block))
    bound := raisedBound directory.bound bit }

/-- The directory once so many bytes of a block in memory are in the file as well. -/
def spilled (directory : Directory) (number count : Nat) : Directory :=
  { directory with
    file := directory.file.overwritten (number * bitBlockSize)
      ((directory.blockFor number).toList.take count) }

theorem blockFor_touched (directory : Directory) (bit : Nat) :
    (directory.touched bit).blockFor (BitPlace.ofBit bit).block =
      (BitPlace.ofBit bit).setIn (directory.blockFor (BitPlace.ofBit bit).block) :=
  (blockFor_of_cached rfl _).trans (if_pos rfl)

def refusal (directory : Directory) (number : Nat) : Option WriteStop :=
  directory.file.refusal (number * bitBlockSize) bitBlockSize

def taken (directory : Directory) (number : Nat) : Nat :=
  directory.file.taken (number * bitBlockSize) bitBlockSize

def ending (stop : Option WriteStop) (directory : Directory) :
    EStateM.Result StoreError Directory Unit :=
  match stop with
  | none => .ok () directory
  | some stop => .error (.io stop.cause) directory

theorem run_putBlock {directory : Directory} {number : Nat} {block : Buffer bitBlockSize}
    (h : directory.cached = some (number, block)) :
    (putBlock number block).run directory =
      ending (directory.refusal number) (directory.spilled number (directory.taken number)) := by
  have hblock : directory.blockFor number = block := (blockFor_of_cached h number).trans (if_pos rfl)
  have hlength : block.toList.length = bitBlockSize := Vector.length_toList
  have hkept : ({ directory with cached := some (number, block) } : Directory) = directory := by
    rw [← h]
  unfold ending refusal spilled taken OpenFile.taken
  rw [EStateM.run, putBlock, hkept, hblock]
  cases hrefusal : directory.file.refusal (number * bitBlockSize) bitBlockSize with
  | none =>
    rw [OpenFile.run_writeAt_ok (by rw [hlength, hrefusal]), List.take_of_length_le hlength.le]
  | some stop => rw [OpenFile.run_writeAt_error (by rw [hlength, hrefusal])]

/-- A bit is set in memory first, and stays set there however much of its block comes to the file. -/
theorem run_set {directory : Directory} (h : directory.file.IsRegular) (bit : Nat) :
    (set bit).run directory = if directory.Finds (BitPlace.ofBit bit).block then
      ending (directory.refusal (BitPlace.ofBit bit).block)
        ((directory.touched bit).spilled (BitPlace.ofBit bit).block
          (directory.taken (BitPlace.ofBit bit).block))
    else .error (.io .invalidOffset) (directory.remembering none) := by
  have hblock := run_blockAt h (BitPlace.ofBit bit).block
  unfold set
  split
  · next hfinds =>
    rw [if_pos hfinds] at hblock
    rw [run_bind_ok hblock, run_bind_ok (EStateM.run_modify _ _)]
    exact @run_putBlock (directory.touched bit) _ _ rfl
  · next hfinds =>
    rw [if_neg hfinds] at hblock
    exact run_bind_error hblock

def marked (directory : Directory) (bit : Nat) : Directory :=
  let place := BitPlace.ofBit bit
  let block := place.setIn (directory.file.window (place.block * bitBlockSize) bitBlockSize)
  { file := directory.file.overwritten (place.block * bitBlockSize) block.toList
    cached := some (place.block, block)
    bound := raisedBound directory.bound bit }

theorem Coherent.spilled_touched {directory : Directory} (h : directory.Coherent) (bit : Nat) :
    (directory.touched bit).spilled (BitPlace.ofBit bit).block bitBlockSize =
      directory.marked bit := by
  have hlength (block : Buffer bitBlockSize) : block.toList.length ≤ bitBlockSize :=
    (@Vector.length_toList _ _ block).le
  rw [spilled, blockFor_touched, touched, h.blockFor_eq, List.take_of_length_le (hlength _)]
  rfl

theorem taken_of_refusal {directory : Directory} {number : Nat}
    (h : directory.refusal number = none) : directory.taken number = bitBlockSize := by
  rw [refusal] at h
  rw [taken, OpenFile.taken, h]

theorem Coherent.set_of_refusal {directory : Directory} (h : directory.Coherent) {bit : Nat}
    (hfinds : directory.Finds (BitPlace.ofBit bit).block)
    (hrefusal : directory.refusal (BitPlace.ofBit bit).block = none) :
    (set bit).run directory = .ok () (directory.marked bit) := by
  rw [run_set h.regular, if_pos hfinds, hrefusal, taken_of_refusal hrefusal,
    h.spilled_touched]
  rfl

theorem Coherent.set {directory : Directory} (h : directory.Coherent)
    (hample : directory.file.IsAmple) (haccess : directory.file.access = .readWrite) {bit : Nat}
    (hbit : bit < 0x100000000) : (set bit).run directory = .ok () (directory.marked bit) :=
  h.set_of_refusal (Or.inr (OpenFile.reachesBit_of_lt hample.storeSpan_le_extent hbit))
    (hample.refusal_eq_none h.regular haccess (BitPlace.block_end_le hbit))

theorem Coherent.marked {directory : Directory} (h : directory.Coherent) (bit : Nat) :
    (directory.marked bit).Coherent := by
  refine ⟨h.regular.overwritten _ _, ?_⟩
  intro number block hkept
  cases hkept
  exact ((OpenFile.window_overwritten h.regular _ _ _).trans (if_pos rfl)).symm

theorem Coherent.bit_marked {directory : Directory} (h : directory.Coherent) (bit i : Nat) :
    (directory.marked bit).file.bit i = (decide (i = bit) || directory.file.bit i) := by
  have hwindow := OpenFile.window_overwritten h.regular
    ((BitPlace.ofBit bit).setIn (directory.file.window
      ((BitPlace.ofBit bit).block * bitBlockSize) bitBlockSize))
    (BitPlace.ofBit bit).block (BitPlace.ofBit i).block
  rw [← BitPlace.isSetIn_window, Directory.marked, hwindow]
  by_cases hblock : (BitPlace.ofBit i).block = (BitPlace.ofBit bit).block
  · rw [if_pos hblock, BitPlace.isSetIn_setIn hblock.symm, ← hblock, BitPlace.isSetIn_window]
  · have hne : i ≠ bit := fun heq => hblock (by rw [heq])
    rw [if_neg hblock, BitPlace.isSetIn_window]
    simp only [hne, decide_false, Bool.false_or]

theorem Coherent.length_marked {directory : Directory} (h : directory.Coherent) (bit : Nat) :
    (directory.marked bit).file.length =
      max directory.file.length (((BitPlace.ofBit bit).block + 1) * bitBlockSize) :=
  OpenFile.length_overwritten_block h.regular (by decide) _ _

section

variable {bit : Nat} (hbit : bit + bitsInBlock < counterRange) (bound : Nat)
include hbit

/-- Only the end of the last block is past what 64 bits can hold. -/
theorem raisedBound_eq_of_lt :
    raisedBound bound bit = if bound ≤ bit then (bit / 8 / 4096 + 1) * 32768 else bound := by
  have hend : ((BitPlace.ofBit bit).block + 1) * bitsInBlock = (bit / 8 / 4096 + 1) * 32768 := rfl
  change bit + 32768 < counterRange at hbit
  rw [raisedBound, hend, Nat.mod_eq_of_lt (by omega)]

theorem lt_raisedBound : bit < raisedBound bound bit := by
  rw [raisedBound_eq_of_lt hbit]
  split <;> omega

theorem le_raisedBound : bound ≤ raisedBound bound bit := by
  rw [raisedBound_eq_of_lt hbit]
  split <;> omega

end

theorem Bounded.marked {directory : Directory} (h : directory.Bounded)
    (hcoherent : directory.Coherent) {bit : Nat} (hbit : bit + bitsInBlock < counterRange) :
    (directory.marked bit).Bounded := by
  intro i hi
  rw [hcoherent.bit_marked] at hi
  change i < raisedBound directory.bound bit
  by_cases heq : i = bit
  · rw [heq]
    exact lt_raisedBound hbit _
  · simp only [heq, decide_false, Bool.false_or] at hi
    exact (h i hi).trans_le (le_raisedBound hbit _)

theorem coherent_ofFile {file : OpenFile} (h : file.IsRegular) : (ofFile file).Coherent := by
  refine ⟨h, ?_⟩
  intro number block hkept
  simp only [ofFile] at hkept ⊢
  split at hkept
  · next hlength =>
    cases hkept
    rw [OpenFile.window_of_length_le (by omega)]
  · cases hkept

theorem bounded_ofFile {file : OpenFile} (h : file.length * 8 < counterRange) :
    (ofFile file).Bounded := by
  intro i hi
  by_contra hbound
  simp only [ofFile, Nat.mod_eq_of_lt h] at hi hbound
  rw [OpenFile.bit_of_length_le (by omega)] at hi
  cases hi

end Directory

end PageTrie
