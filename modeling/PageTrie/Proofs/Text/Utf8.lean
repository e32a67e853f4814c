import Mathlib
import PageTrie.Text.LossyUtf8

/-! Text that is written as UTF-8 and read back. Nothing of it is broken, so nothing is
replaced, and different texts are different byte strings. -/
namespace PageTrie.LossyUtf8

theorem toList_loop (bs : ByteArray) (i : Nat) (read : Bytes) :
    ByteArray.toList.loop bs i read = read.reverse ++ bs.data.toList.drop i := by
  fun_induction ByteArray.toList.loop bs i read with
  | case1 i read hlt ih =>
    have hbyte : bs.get! i = bs.data.toList[i] := getElem!_pos bs.data i hlt
    have hdrop : bs.data.toList.drop i = bs.data.toList[i] :: bs.data.toList.drop (i + 1) :=
      List.drop_eq_getElem_cons hlt
    rw [ih, hdrop, hbyte, List.reverse_cons, List.append_assoc]
    rfl
  | case2 i read hle =>
    have hend : bs.data.toList.length ≤ i := Nat.le_of_not_lt hle
    rw [List.drop_eq_nil_of_le hend, List.append_nil]

theorem encode_ofList (text : List Char) :
    encode (String.ofList text) = text.flatMap String.utf8EncodeChar := by
  rw [encode, ByteArray.toList, toList_loop, String.toUTF8, String.toByteArray_ofList,
    List.utf8Encode, List.data_toByteArray]
  rfl

/-- A whole character at the front is read as itself, whatever comes after it. -/
theorem first_append (c : Char) (rest : Bytes) :
    first (String.utf8EncodeChar c ++ rest) = (c, c.utf8Size) := by
  have hlength := String.length_utf8EncodeChar c
  have hfour := c.utf8Size_le_four
  rw [first, List.take_append, List.take_of_length_le (by omega), List.toByteArray_append,
    ByteArray.utf8DecodeChar?_utf8EncodeChar_append]

theorem decodeUpTo_flatMap (text : List Char) {count : Nat} (hcount : text.length ≤ count) :
    decodeUpTo (text.flatMap String.utf8EncodeChar) count = text := by
  induction text generalizing count with
  | nil => cases count <;> rfl
  | cons c text ih =>
    obtain ⟨count, rfl⟩ : ∃ rest, count = rest + 1 := Nat.exists_eq_add_one.mpr (by
      rw [List.length_cons] at hcount
      omega)
    have hlength := String.length_utf8EncodeChar c
    have hpos := c.utf8Size_pos
    have hne : (String.utf8EncodeChar c ++ text.flatMap String.utf8EncodeChar).isEmpty = false := by
      rw [List.isEmpty_eq_false_iff, ← List.length_pos_iff, List.length_append]
      omega
    rw [List.flatMap_cons, decodeUpTo, hne, if_neg Bool.false_ne_true, first_append]
    dsimp only
    rw [← hlength, List.drop_left, ih (Nat.le_of_succ_le_succ hcount)]

theorem length_le_flatMap (text : List Char) :
    text.length ≤ (text.flatMap String.utf8EncodeChar).length := by
  induction text with
  | nil => exact Nat.le_refl _
  | cons c text ih =>
    have hlength := String.length_utf8EncodeChar c
    have hpos := c.utf8Size_pos
    rw [List.flatMap_cons, List.length_append, List.length_cons]
    omega

/-- Text that was encoded is read back as it was. -/
theorem decode_encode (text : String) : decode (encode text) = text := by
  have htext : encode text = text.toList.flatMap String.utf8EncodeChar := by
    rw [← encode_ofList, String.ofList_toList]
  rw [decode, htext, decodeUpTo_flatMap _ (length_le_flatMap _), String.ofList_toList]

theorem encode_injective : Function.Injective encode :=
  Function.LeftInverse.injective decode_encode

theorem length_encode (text : String) : (encode text).length = text.utf8ByteSize := by
  rw [encode, ByteArray.toList, toList_loop]
  rfl

theorem encode_eq_nil_iff {text : String} : encode text = [] ↔ text = "" := by
  have hempty : encode "" = [] := by
    rw [← List.length_eq_zero_iff, length_encode]
    rfl
  rw [← hempty, encode_injective.eq_iff]

end PageTrie.LossyUtf8
