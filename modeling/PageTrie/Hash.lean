import PageTrie.Bytes

/-! The 32-bit key hash and its low-bit masks. -/
namespace PageTrie

/-- Number of bits in a hash, hence the depth at which the trie ends. -/
abbrev hashWidth : Nat := 32

/-- Multiplies by 65599 and adds the byte, modulo `2 ^ 32`, for each byte in turn. -/
def keyHash (key : Bytes) : UInt32 :=
  key.foldl (fun acc b => b.toUInt32 + 65599 * acc) 0

def lowMask (depth : Nat) : UInt32 := UInt32.ofNat (1 <<< min depth hashWidth - 1)

theorem toNat_lowMask (depth : Nat) (h : depth ≤ hashWidth) :
    (lowMask depth).toNat = 1 <<< depth - 1 := by
  rw [lowMask, Nat.min_eq_left h, UInt32.toNat_ofNat', Nat.one_shiftLeft]
  apply Nat.mod_eq_of_lt
  have := Nat.pow_le_pow_right (n := 2) (by decide) h
  simp only [hashWidth] at this
  omega

theorem toNat_and_lowMask (h : UInt32) (depth : Nat) (hd : depth ≤ hashWidth) :
    (h &&& lowMask depth).toNat = h.toNat % 1 <<< depth := by
  rw [UInt32.toNat_and, toNat_lowMask depth hd, Nat.one_shiftLeft, Nat.and_two_pow_sub_one_eq_mod]

end PageTrie
