import Mathlib
import PageTrie.Bytes

/-! Arithmetic and access that stop where a machine would: at a count past 64 bits, at an offset
outside a buffer, at a word cut short. Within the bounds they are the operations themselves. -/
namespace PageTrie

/-- What a machine stops at. -/
inductive Fault where
  | overflow
  | underflow
  | outOfRange
  | truncation
  deriving DecidableEq, Repr

abbrev Checked := Except Fault

namespace Checked

@[simp] theorem ok_bind (a : α) (f : α → Checked β) : (Except.ok a >>= f) = f a := rfl

@[simp] theorem pure_eq (a : α) : (pure a : Checked α) = .ok a := rfl

def add (a b : Nat) : Checked Nat :=
  if a + b < counterRange then .ok (a + b) else .error .overflow

def mul (a b : Nat) : Checked Nat :=
  if a * b < counterRange then .ok (a * b) else .error .overflow

def sub (a b : Nat) : Checked Nat := if b ≤ a then .ok (a - b) else .error .underflow

def bit (width position : Nat) : Checked Nat :=
  if position < width then .ok (1 <<< position) else .error .overflow

def narrow (value : Nat) : Checked Nat := if value < 65536 then .ok value else .error .truncation

def addWord (a b : UInt32) : Checked UInt32 :=
  if a.toNat + b.toNat < 0x100000000 then .ok (a + b) else .error .overflow

def subWord (a b : UInt32) : Checked UInt32 :=
  if b.toNat ≤ a.toNat then .ok (a - b) else .error .underflow

theorem add_eq {a b : Nat} (h : a + b < 0x10000000000000000) : add a b = .ok (a + b) := if_pos h

theorem mul_eq {a b : Nat} (h : a * b < 0x10000000000000000) : mul a b = .ok (a * b) := if_pos h

theorem sub_eq {a b : Nat} (h : b ≤ a) : sub a b = .ok (a - b) := if_pos h

theorem bit_eq {width position : Nat} (h : position < width) :
    bit width position = .ok (1 <<< position) := if_pos h

theorem narrow_eq {value : Nat} (h : value < 65536) : narrow value = .ok value := if_pos h

theorem addWord_eq {a b : UInt32} (h : a.toNat + b.toNat < 0x100000000) :
    addWord a b = .ok (a + b) := if_pos h

theorem subWord_eq {a b : UInt32} (h : b.toNat ≤ a.toNat) : subWord a b = .ok (a - b) := if_pos h

theorem eq_add_of_ok {a b c : Nat} (h : add a b = .ok c) : c = a + b := by
  obtain ⟨-, heq⟩ | ⟨-, heq⟩ := ite_eq_iff.mp h
  · exact (Except.ok.inj heq).symm
  · cases heq

theorem eq_mul_of_ok {a b c : Nat} (h : mul a b = .ok c) : c = a * b := by
  obtain ⟨-, heq⟩ | ⟨-, heq⟩ := ite_eq_iff.mp h
  · exact (Except.ok.inj heq).symm
  · cases heq

def byte (b : Buffer n) (i : Nat) : Checked UInt8 :=
  if i < n then .ok (b.byte i) else .error .outOfRange

def slice (b : Buffer n) (lo hi : Nat) : Checked Bytes :=
  if lo ≤ hi ∧ hi ≤ n then .ok (b.slice lo hi) else .error .outOfRange

def patch (b : Buffer n) (lo hi : Nat) (bs : Bytes) : Checked (Buffer n) :=
  if lo ≤ hi ∧ hi ≤ n ∧ bs.length = hi - lo then .ok (b.patch lo bs) else .error .outOfRange

def copy (b : Buffer n) (lo hi pos : Nat) : Checked (Buffer n) :=
  if lo ≤ hi ∧ hi ≤ n ∧ pos + (hi - lo) ≤ n then .ok (b.patch pos (b.slice lo hi))
  else .error .outOfRange

variable {n : Nat} (b : Buffer n)

theorem byte_eq {i : Nat} (h : i < n) : byte b i = .ok (b.byte i) := if_pos h

theorem slice_eq {lo hi : Nat} (hlo : lo ≤ hi) (hhi : hi ≤ n) :
    slice b lo hi = .ok (b.slice lo hi) := if_pos ⟨hlo, hhi⟩

theorem patch_eq {lo hi : Nat} {bs : Bytes} (hlo : lo ≤ hi) (hhi : hi ≤ n)
    (hlength : bs.length = hi - lo) : patch b lo hi bs = .ok (b.patch lo bs) :=
  if_pos ⟨hlo, hhi, hlength⟩

theorem copy_eq {lo hi pos : Nat} (hlo : lo ≤ hi) (hhi : hi ≤ n) (hpos : pos + (hi - lo) ≤ n) :
    copy b lo hi pos = .ok (b.patch pos (b.slice lo hi)) := if_pos ⟨hlo, hhi, hpos⟩

end Checked

end PageTrie
