import Std.Data.TreeMap
import PageTrie.Bytes

/-! A file that keeps only the kilobyte chunks that were written; the rest reads as zero.
`byte` is the view: `byte_write` and `byte_resize` say what a write and a change of length
do to it. Nothing is kept past the end, so a file that grows again shows zeros there. -/
namespace PageTrie

abbrev chunkSize : Nat := 1024

abbrev Chunks := Std.TreeMap Nat (Buffer chunkSize)

namespace Chunks

def byte (chunks : Chunks) (i : Nat) : UInt8 :=
  match chunks[i / chunkSize]? with
  | some chunk => Buffer.byte chunk (i % chunkSize)
  | none => 0

def spanned (pos n : Nat) : Nat := (pos % chunkSize + n + (chunkSize - 1)) / chunkSize

def write (chunks : Chunks) (pos : Nat) (bs : Bytes) : (count : Nat) → Chunks
  | 0 => chunks
  | count + 1 =>
    let room := chunkSize - pos % chunkSize
    let chunk := chunks.getD (pos / chunkSize) (Buffer.zeros chunkSize)
    let chunk' := Buffer.patch chunk (pos % chunkSize) (bs.take room)
    Chunks.write (chunks.insert (pos / chunkSize) chunk') (pos + room) (bs.drop room) count

def clip (chunks : Chunks) (size : Nat) : Chunks :=
  chunks.filterMap fun k chunk =>
    if k * chunkSize < size then
      let kept := min chunkSize (size - k * chunkSize)
      some (Buffer.patch chunk kept (List.replicate (chunkSize - kept) 0))
    else none

theorem byte_insert (chunks : Chunks) (k : Nat) (chunk : Buffer chunkSize) (i : Nat) :
    Chunks.byte (chunks.insert k chunk) i =
      if i / chunkSize = k then Buffer.byte chunk (i % chunkSize) else chunks.byte i := by
  simp only [byte, Std.TreeMap.getElem?_insert, Nat.compare_eq_eq]
  by_cases h : k = i / chunkSize
  · simp [h]
  · simp [h, Ne.symm h]

theorem byte_getD (chunks : Chunks) (k j : Nat) (hj : j < chunkSize) :
    Buffer.byte (chunks.getD k (Buffer.zeros chunkSize)) j = chunks.byte (k * chunkSize + j) := by
  have hdiv : (k * chunkSize + j) / chunkSize = k := by
    simp only [chunkSize] at *; omega
  have hmod : (k * chunkSize + j) % chunkSize = j := by
    simp only [chunkSize] at *; omega
  simp only [byte, hdiv, hmod, Std.TreeMap.getD_eq_getD_getElem?]
  cases chunks[k]? <;> simp

theorem byte_insert_patch (chunks : Chunks) (pos : Nat) (bs : Bytes) (i : Nat)
    (hfits : pos % chunkSize + bs.length ≤ chunkSize) :
    Chunks.byte (chunks.insert (pos / chunkSize)
        (Buffer.patch (chunks.getD (pos / chunkSize) (Buffer.zeros chunkSize)) (pos % chunkSize)
          bs)) i =
      if pos ≤ i ∧ i < pos + bs.length then bs.getD (i - pos) 0 else chunks.byte i := by
  have hk : chunkSize = 1024 := rfl
  rw [byte_insert, Buffer.byte_patch]
  simp only [hk] at hfits ⊢
  by_cases hdiv : i / 1024 = pos / 1024
  · rw [if_pos hdiv]
    by_cases hin : pos ≤ i ∧ i < pos + bs.length
    · rw [if_pos hin, if_pos (by omega)]
      congr 1
      omega
    · have hkept := byte_getD chunks (pos / 1024) (i % 1024) (Nat.mod_lt i (by decide))
      simp only [hk, ← hdiv, Nat.div_add_mod'] at hkept
      rw [if_neg hin, if_neg (by omega), ← hdiv, hkept]
  · rw [if_neg hdiv, if_neg (by omega)]

theorem byte_write (count : Nat) (chunks : Chunks) (pos : Nat) (bs : Bytes) (i : Nat)
    (h : pos % chunkSize + bs.length ≤ count * chunkSize) :
    (chunks.write pos bs count).byte i =
      if pos ≤ i ∧ i < pos + bs.length then bs.getD (i - pos) 0 else chunks.byte i := by
  induction count generalizing chunks pos bs with
  | zero =>
    have h0 : bs.length = 0 := by omega
    have : ¬ (pos ≤ i ∧ i < pos + bs.length) := by omega
    simp [write, this]
  | succ count ih =>
    have hk : chunkSize = 1024 := rfl
    have hfits : pos % chunkSize + (bs.take (chunkSize - pos % chunkSize)).length ≤ chunkSize := by
      rw [List.length_take, hk]
      omega
    rw [write, ih, byte_insert_patch _ _ _ _ hfits]
    · simp only [List.length_take, List.length_drop, hk] at h ⊢
      by_cases hnext : pos + (1024 - pos % 1024) ≤ i
      · have hpast : ¬ (pos ≤ i ∧ i < pos + min (1024 - pos % 1024) bs.length) := by omega
        rw [if_neg hpast]
        by_cases hin : i < pos + bs.length
        · rw [if_pos (by omega), if_pos (by omega)]
          simp only [List.getD_eq_getElem?_getD, List.getElem?_drop]
          congr 2
          omega
        · rw [if_neg (by omega), if_neg (by omega)]
      · rw [if_neg (by omega)]
        by_cases hin : pos ≤ i ∧ i < pos + bs.length
        · rw [if_pos (by omega), if_pos hin]
          simp only [List.getD_eq_getElem?_getD]
          rw [List.getElem?_take_of_lt (by omega)]
        · rw [if_neg (by omega), if_neg hin]
    · simp only [List.length_drop, hk] at h ⊢
      omega

theorem byte_clip (chunks : Chunks) (size i : Nat) :
    (chunks.clip size).byte i = if i < size then chunks.byte i else 0 := by
  have hk : chunkSize = 1024 := rfl
  simp only [byte, clip, Std.TreeMap.getElem?_filterMap', hk]
  cases chunks[i / 1024]? with
  | none => simp
  | some chunk =>
    simp only [Option.bind_some]
    by_cases h : i / 1024 * 1024 < size
    · rw [if_pos h]
      simp only [Buffer.byte_patch, List.length_replicate]
      by_cases hi : i < size
      · rw [if_pos hi, if_neg (by omega)]
      · rw [if_neg hi, if_pos (by omega)]
        simp only [List.getD_eq_getElem?_getD, List.getElem?_replicate]
        split <;> rfl
    · rw [if_neg h, if_neg (by omega)]

end Chunks

structure SparseFile where
  size : Nat
  chunks : Chunks
  /-- Nothing is kept past the end of the file. -/
  byte_of_le : ∀ i, size ≤ i → chunks.byte i = 0

namespace SparseFile

def empty : SparseFile := ⟨0, ∅, fun i _ => by simp [Chunks.byte]⟩

instance : Inhabited SparseFile := ⟨empty⟩

/-- The byte at a position, zero in holes and past the end. -/
def byte (file : SparseFile) (i : Nat) : UInt8 := file.chunks.byte i

def bit (file : SparseFile) (i : Nat) : Bool := (file.byte (i / 8)).toNat.testBit (i % 8)

def read (file : SparseFile) (pos n : Nat) : Bytes :=
  (List.range' pos (min n (file.size - pos))).map file.byte

/-- Overwrites the bytes from `pos` on; a write past the end leaves a hole before it, and
an empty write does nothing. -/
def write (file : SparseFile) (pos : Nat) (bs : Bytes) : SparseFile :=
  if bs.isEmpty then file
  else
    { size := max file.size (pos + bs.length)
      chunks := file.chunks.write pos bs (Chunks.spanned pos bs.length)
      byte_of_le := fun i hi => by
        rw [Chunks.byte_write]
        · rw [if_neg (by omega)]
          exact file.byte_of_le i (by omega)
        · simp only [Chunks.spanned, chunkSize]
          omega }

def resize (file : SparseFile) (size : Nat) : SparseFile where
  size := size
  chunks := if size < file.size then file.chunks.clip size else file.chunks
  byte_of_le := fun i hi => by
    split
    · rw [Chunks.byte_clip, if_neg (by omega)]
    · exact file.byte_of_le i (by omega)

def isHole (file : SparseFile) (pos n : Nat) : Bool :=
  (List.range' (pos / chunkSize) (Chunks.spanned pos n)).all fun k => !file.chunks.contains k

def ofBytes (bs : Bytes) : SparseFile := empty.write 0 bs

def toBytes (file : SparseFile) : Bytes := file.read 0 file.size

def setBits (file : SparseFile) : List Nat :=
  file.chunks.keys.flatMap fun k =>
    (List.range' (k * chunkSize * 8) (chunkSize * 8)).filter file.bit

theorem byte_eq_zero (file : SparseFile) {i : Nat} (h : file.size ≤ i) : file.byte i = 0 :=
  file.byte_of_le i h

@[simp] theorem byte_empty (i : Nat) : empty.byte i = 0 := byte_eq_zero empty (Nat.zero_le i)

@[simp] theorem size_empty : empty.size = 0 := rfl

theorem byte_write (file : SparseFile) (pos : Nat) (bs : Bytes) (i : Nat) :
    (file.write pos bs).byte i =
      if pos ≤ i ∧ i < pos + bs.length then bs.getD (i - pos) 0 else file.byte i := by
  unfold write
  split
  · next h =>
    have : bs.length = 0 := by simpa using h
    rw [if_neg (by omega)]
  · exact Chunks.byte_write _ _ _ _ _ (by simp only [Chunks.spanned, chunkSize]; omega)

theorem size_write (file : SparseFile) (pos : Nat) (bs : Bytes) :
    (file.write pos bs).size = if bs = [] then file.size else max file.size (pos + bs.length) := by
  cases bs <;> simp [write]

@[simp] theorem size_resize (file : SparseFile) (size : Nat) : (file.resize size).size = size := rfl

theorem byte_resize (file : SparseFile) (size i : Nat) :
    (file.resize size).byte i = if i < size then file.byte i else 0 := by
  by_cases h : size < file.size
  · simp [byte, resize, h, Chunks.byte_clip]
  · by_cases hi : i < size
    · simp [byte, resize, h, hi]
    · simp only [hi, if_false]
      exact byte_eq_zero _ (by simp; omega)

theorem length_read (file : SparseFile) (pos n : Nat) :
    (file.read pos n).length = min n (file.size - pos) := by
  simp [read]

theorem getD_read (file : SparseFile) (pos n k : Nat) :
    (file.read pos n).getD k 0 = if k < min n (file.size - pos) then file.byte (pos + k) else 0 := by
  by_cases h : k < min n (file.size - pos) <;> simp [read, List.getD_eq_getElem?_getD, h]

theorem getD_toBytes (file : SparseFile) (i : Nat) : file.toBytes.getD i 0 = file.byte i := by
  rw [toBytes, getD_read, Nat.zero_add]
  split
  · rfl
  · exact (file.byte_eq_zero (by omega)).symm

theorem byte_of_isHole (file : SparseFile) {pos n i : Nat} (h : file.isHole pos n = true)
    (hlo : pos ≤ i) (hhi : i < pos + n) : file.byte i = 0 := by
  simp only [isHole, List.all_eq_true, List.mem_range'_1, Chunks.spanned, chunkSize] at h
  have hk := h (i / 1024) (by omega)
  simp only [Std.TreeMap.contains_eq_isSome_getElem?, Bool.not_eq_true', Option.isSome_eq_false_iff,
    Option.isNone_iff_eq_none] at hk
  simp [byte, Chunks.byte, chunkSize, hk]

end SparseFile

end PageTrie
