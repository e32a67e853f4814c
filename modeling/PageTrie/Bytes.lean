/-! Byte strings and fixed-size byte buffers. A buffer is read and overwritten by
offset; `word` and `setWord` see it as little-endian 16-bit words. The lemmas say
which bytes an overwrite leaves alone. -/
namespace PageTrie

abbrev Bytes := List UInt8

/-- Sizes and positions are counted in 64 bits, so their sums are taken modulo this. -/
abbrev counterRange : Nat := 0x10000000000000000

abbrev Buffer (n : Nat) := Vector UInt8 n

namespace Buffer

def zeros (n : Nat) : Buffer n := Vector.replicate n 0

/-- The byte at an offset, zero past the end of the buffer. -/
def byte (b : Buffer n) (i : Nat) : UInt8 := if h : i < n then b[i] else 0

def slice (b : Buffer n) (lo hi : Nat) : Bytes := (List.range' lo (hi - lo)).map b.byte

/-- Overwrites the bytes from an offset on; what would fall past the end is dropped. -/
def patch (b : Buffer n) (pos : Nat) : Bytes → Buffer n
  | [] => b
  | x :: xs => patch (b.setIfInBounds pos x) (pos + 1) xs

def word (b : Buffer n) (i : Nat) : Nat :=
  (b.byte (2 * i)).toNat + 256 * (b.byte (2 * i + 1)).toNat

def setWord (b : Buffer n) (i v : Nat) : Buffer n :=
  (b.setIfInBounds (2 * i) (UInt8.ofNat v)).setIfInBounds (2 * i + 1) (UInt8.ofNat (v / 256))

def ofBytes (n : Nat) (bs : Bytes) : Buffer n := patch (zeros n) 0 bs

theorem ext_byte {b c : Buffer n} (h : ∀ i, i < n → b.byte i = c.byte i) : b = c := by
  apply Vector.ext
  intro i hi
  simpa [byte, hi] using h i hi

theorem toList_ne_nil (b : Buffer n) (hn : n ≠ 0) : b.toList ≠ [] := by
  intro hnil
  have hlength : b.toList.length = n := Vector.length_toList
  rw [hnil] at hlength
  exact hn hlength.symm

@[simp] theorem byte_zeros (n i : Nat) : (zeros n).byte i = 0 := by
  simp [byte, zeros]

theorem byte_setIfInBounds (b : Buffer n) (p : Nat) (x : UInt8) (i : Nat) :
    Buffer.byte (b.setIfInBounds p x) i = if i = p ∧ i < n then x else b.byte i := by
  by_cases hi : i < n
  · simp only [byte, hi, dif_pos, Vector.getElem_setIfInBounds, and_true, eq_comm (a := p)]
  · simp [byte, hi]

theorem byte_patch (b : Buffer n) (pos : Nat) (bs : Bytes) (i : Nat) :
    (b.patch pos bs).byte i =
      if pos ≤ i ∧ i < pos + bs.length ∧ i < n then bs.getD (i - pos) 0 else b.byte i := by
  induction bs generalizing b pos with
  | nil => simp [patch]; omega
  | cons x xs ih =>
    rw [patch, ih, byte_setIfInBounds]
    by_cases hi : i < n
    · by_cases hp : i = pos
      · subst hp
        have hlo : ¬ (i + 1 ≤ i) := by omega
        simp [hi, hlo]
      · by_cases hlo : pos + 1 ≤ i
        · have : i - pos = (i - (pos + 1)) + 1 := by omega
          have h2 : pos ≤ i := by omega
          simp only [hi, hlo, h2, hp, this, List.length_cons, List.getD_cons_succ, and_true, true_and,
            if_false]
          congr 1
          simp only [eq_iff_iff]; omega
        · have h2 : ¬ pos ≤ i := by omega
          simp [hlo, h2, hp]
    · simp [hi]

theorem length_slice (b : Buffer n) (lo hi : Nat) : (b.slice lo hi).length = hi - lo := by
  simp [slice]

theorem getD_slice (b : Buffer n) (lo hi k : Nat) :
    (b.slice lo hi).getD k 0 = if k < hi - lo then b.byte (lo + k) else 0 := by
  by_cases h : k < hi - lo <;> simp [slice, List.getD_eq_getElem?_getD, h]

theorem word_lt (b : Buffer n) (i : Nat) : b.word i < 65536 := by
  have h1 := (b.byte (2 * i)).toNat_lt
  have h2 := (b.byte (2 * i + 1)).toNat_lt
  simp only [word]
  omega

theorem word_setWord (b : Buffer n) (i v j : Nat) (h : 2 * i + 1 < n) :
    (b.setWord i v).word j = if j = i then v % 65536 else b.word j := by
  simp only [word, setWord, byte_setIfInBounds]
  by_cases hj : j = i
  · subst hj
    have h0 : 2 * j < n := by omega
    have hne : ¬ (2 * j = 2 * j + 1) := by omega
    simp [h, h0]
    omega
  · have e1 : ¬ (2 * j = 2 * i) := by omega
    have e2 : ¬ (2 * j = 2 * i + 1) := by omega
    have e3 : ¬ (2 * j + 1 = 2 * i) := by omega
    have e4 : ¬ (2 * j + 1 = 2 * i + 1) := by omega
    simp only [e1, e2, e3, e4, hj, false_and, if_false]

end Buffer

end PageTrie
