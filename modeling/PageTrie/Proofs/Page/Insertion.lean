import PageTrie.Proofs.Page.Layout
import PageTrie.Page.Edit

/-! Insertion appends a pair to the list that a page holds. The pairs that were there stay
because their edges and the bytes between them stay. -/
namespace PageTrie

namespace Buffer

theorem word_patch_of_le (b : Buffer n) {pos i : Nat} (bs : Bytes) (h : 2 * i + 2 ≤ pos) :
    (b.patch pos bs).word i = b.word i := by
  simp only [word, byte_patch]
  rw [if_neg (by omega), if_neg (by omega)]

theorem byte_setWord_of_outside (b : Buffer n) {i j : Nat} (v : Nat)
    (h : j < 2 * i ∨ 2 * i + 2 ≤ j) :
    (b.setWord i v).byte j = b.byte j := by
  simp only [setWord, byte_setIfInBounds]
  rw [if_neg (by omega), if_neg (by omega)]

theorem slice_eq_slice {b c : Buffer n} {lo hi lo' hi' : Nat} (hlength : hi - lo = hi' - lo')
    (h : ∀ k, k < hi - lo → b.byte (lo + k) = c.byte (lo' + k)) :
    b.slice lo hi = c.slice lo' hi' := by
  unfold slice
  rw [← hlength]
  apply List.ext_getElem
  · simp
  · intro k hk _
    simp only [List.getElem_map, List.getElem_range', Nat.one_mul]
    exact h k (by simpa using hk)

theorem slice_eq_of_byte (b : Buffer n) (lo hi : Nat) (bs : Bytes) (hlength : hi - lo = bs.length)
    (h : ∀ k, (hk : k < bs.length) → b.byte (lo + k) = bs[k]) : b.slice lo hi = bs := by
  unfold slice
  apply List.ext_getElem
  · simpa using hlength
  · intro k _ hk
    simp only [List.getElem_map, List.getElem_range', Nat.one_mul]
    exact h k hk

end Buffer

namespace Page

theorem byte_setSlot_of_le (page : Page) {i j : Nat} (value : Nat) (h : 2 * i + 2 ≤ j) :
    (page.setSlot i value).bytes.byte j = page.bytes.byte j :=
  Buffer.byte_setWord_of_outside _ _ (Or.inr h)

theorem pairAt_eq_pairAt {page page' : Page} {p q : Nat} (gap : Nat)
    (hvalue : page'.edge (q + 1) = page.edge (p + 1) + gap)
    (hkey : page'.slot (2 * q + 1) = page.slot (2 * p + 1) + gap)
    (hend : page'.edge q = page.edge p + gap)
    (hbytes : ∀ i, page.edge (p + 1) ≤ i → i < page.edge p →
      page'.bytes.byte (i + gap) = page.bytes.byte i)
    (hdown : page.edge (p + 1) ≤ page.slot (2 * p + 1) ∧ page.slot (2 * p + 1) ≤ page.edge p) :
    page'.pairAt q = page.pairAt p := by
  simp only [pairAt, cut, extentAt, hvalue, hkey, hend]
  congr 1
  · apply Buffer.slice_eq_slice (by omega)
    intro k hk
    rw [show page.slot (2 * p + 1) + gap + k = page.slot (2 * p + 1) + k + gap by omega]
    exact hbytes _ (by omega) (by omega)
  · apply Buffer.slice_eq_slice (by omega)
    intro k hk
    rw [show page.edge (p + 1) + gap + k = page.edge (p + 1) + k + gap by omega]
    exact hbytes _ (by omega) (by omega)

/-- The page that an insertion with room ends in. -/
def appended (page : Page) (pair : Pair) : Page :=
  let n := page.slotsUsed
  let keyStart := page.dataFloor - pair.key.length
  let valueStart := keyStart - pair.value.length
  let filled : Page := ⟨(page.bytes.patch keyStart pair.key).patch valueStart pair.value⟩
  ((filled.setSlot (n + 1) keyStart).setSlot (n + 2) valueStart).setSlot 0 (n + 2)

theorem insert_of_hasRoom {page : Page} {pair : Pair} (h : page.hasRoom pair.size = true) :
    page.insert pair = .ok (page.appended pair) := by
  simp [insert, h, appended]

section Appended

variable {page : Page} {pair : Pair} (h : page.InOrder) (hroom : pair.footprint ≤ page.room)
include h hroom

private theorem appended_space :
    (2 * page.size + 3) * 2 + pair.key.length + pair.value.length ≤ page.edge page.size ∧
      page.edge page.size ≤ pageSize := by
  have hend := h.edge_le_pageSize (Nat.le_refl _)
  simp only [Pair.footprint, Pair.size, room, h.dataFloor_eq, indexEnd, h.even] at hroom
  omega

private theorem slot_appended (j : Nat) (hj : j ≤ 2 * page.size + 2) :
    (page.appended pair).slot j =
      if j = 0 then 2 * page.size + 2
      else if j = 2 * page.size + 2 then
        page.edge page.size - pair.key.length - pair.value.length
      else if j = 2 * page.size + 1 then page.edge page.size - pair.key.length
      else page.slot j := by
  obtain ⟨hspace, hend⟩ := appended_space h hroom
  have hpage : pageSize = 1024 := rfl
  simp only [appended, h.even, h.dataFloor_eq]
  rw [slot_setSlot _ _ _ _ (by decide), slot_setSlot _ _ _ _ (by omega),
    slot_setSlot _ _ _ _ (by omega)]
  simp only [Nat.mod_eq_of_lt (show 2 * page.size + 2 < 65536 by omega),
    Nat.mod_eq_of_lt (show page.edge page.size - pair.key.length < 65536 by omega),
    Nat.mod_eq_of_lt (show page.edge page.size - pair.key.length - pair.value.length < 65536 by
      omega)]
  split
  · rfl
  · split
    · rfl
    · split
      · rfl
      · unfold slot
        rw [Buffer.word_patch_of_le _ _ (by omega), Buffer.word_patch_of_le _ _ (by omega)]

omit hroom in
private theorem byte_appended (i : Nat) (hi : (2 * page.size + 3) * 2 ≤ i) :
    (page.appended pair).bytes.byte i =
      ((page.bytes.patch (page.edge page.size - pair.key.length) pair.key).patch
        (page.edge page.size - pair.key.length - pair.value.length) pair.value).byte i := by
  simp only [appended, h.even, h.dataFloor_eq]
  rw [byte_setSlot_of_le _ _ (by omega), byte_setSlot_of_le _ _ (by omega),
    byte_setSlot_of_le _ _ (by omega)]

private theorem size_appended : (page.appended pair).size = page.size + 1 := by
  have hslot := slot_appended h hroom 0 (by omega)
  rw [if_pos rfl] at hslot
  rw [size, slotsUsed, hslot]
  omega

private theorem edge_appended (p : Nat) (hp : p ≤ page.size) :
    (page.appended pair).edge p = page.edge p := by
  unfold edge
  split
  · rfl
  · rw [slot_appended h hroom _ (by omega), if_neg (by omega), if_neg (by omega),
      if_neg (by omega)]

private theorem edge_appended_succ :
    (page.appended pair).edge (page.size + 1) =
      page.edge page.size - pair.key.length - pair.value.length := by
  rw [edge_succ, slot_appended h hroom _ (by omega), if_neg (by omega), if_pos rfl]

private theorem slot_appended_key (p : Nat) (hp : p < page.size) :
    (page.appended pair).slot (2 * p + 1) = page.slot (2 * p + 1) := by
  rw [slot_appended h hroom _ (by omega), if_neg (by omega), if_neg (by omega), if_neg (by omega)]

private theorem slot_appended_last :
    (page.appended pair).slot (2 * page.size + 1) = page.edge page.size - pair.key.length := by
  rw [slot_appended h hroom _ (by omega), if_neg (by omega), if_neg (by omega), if_pos rfl]

theorem inOrder_appended : (page.appended pair).InOrder := by
  obtain ⟨hspace, hend⟩ := appended_space h hroom
  have hslots : (page.appended pair).slotsUsed = 2 * page.size + 2 := by
    rw [slotsUsed, slot_appended h hroom 0 (by omega), if_pos rfl]
  constructor
  · rw [size_appended h hroom, hslots]
    omega
  · rw [size_appended h hroom, edge_appended_succ h hroom, indexEnd, hslots]
    omega
  · intro p hp
    rw [size_appended h hroom] at hp
    rw [edge_appended h hroom p (by omega)]
    by_cases hlast : p = page.size
    · rw [hlast, slot_appended_last h hroom]
      omega
    · rw [slot_appended_key h hroom p (by omega)]
      exact h.key_le p (by omega)
  · intro p hp
    rw [size_appended h hroom] at hp
    by_cases hlast : p = page.size
    · rw [hlast, slot_appended_last h hroom, edge_appended_succ h hroom]
      omega
    · rw [slot_appended_key h hroom p (by omega), edge_appended h hroom (p + 1) (by omega)]
      exact h.value_le p (by omega)

private theorem pairAt_appended (p : Nat) (hp : p < page.size) :
    (page.appended pair).pairAt p = page.pairAt p := by
  obtain ⟨hspace, hend⟩ := appended_space h hroom
  have hfloor := h.edge_le (show p + 1 ≤ page.size from hp) (Nat.le_refl _)
  apply pairAt_eq_pairAt 0
  · exact edge_appended h hroom (p + 1) (by omega)
  · exact slot_appended_key h hroom p hp
  · exact edge_appended h hroom p (by omega)
  · intro i hlo _
    rw [Nat.add_zero, byte_appended h i (by omega), Buffer.byte_patch, if_neg (by omega),
      Buffer.byte_patch, if_neg (by omega)]
  · exact ⟨h.value_le p hp, h.key_le p hp⟩

private theorem pairAt_appended_last : (page.appended pair).pairAt page.size = pair := by
  obtain ⟨hspace, hend⟩ := appended_space h hroom
  simp only [pairAt, cut, extentAt, slot_appended_last h hroom, edge_appended_succ h hroom,
    edge_appended h hroom page.size (Nat.le_refl _)]
  congr 1
  · apply Buffer.slice_eq_of_byte _ _ _ _ (by omega)
    intro k hk
    rw [byte_appended h _ (by omega), Buffer.byte_patch, if_neg (by omega),
      Buffer.byte_patch, if_pos (by omega), Nat.add_sub_cancel_left, List.getD_eq_getElem]
  · apply Buffer.slice_eq_of_byte _ _ _ _ (by omega)
    intro k hk
    rw [byte_appended h _ (by omega), Buffer.byte_patch, if_pos (by omega),
      Nat.add_sub_cancel_left, List.getD_eq_getElem]

theorem toList_appended : (page.appended pair).toList = page.toList ++ [pair] := by
  apply (inOrder_appended h hroom).toList_eq_of_pairAt
  · rw [size_appended h hroom, List.length_append, h.length_toList, List.length_singleton]
  · intro p hp
    rw [List.length_append, h.length_toList, List.length_singleton] at hp
    by_cases hlast : p = page.size
    · rw [List.getElem_append_right (by rw [h.length_toList]; omega), List.getElem_singleton,
        hlast, pairAt_appended_last h hroom]
    · rw [List.getElem_append_left (by rw [h.length_toList]; omega),
        pairAt_appended h hroom p (by omega)]
      simp only [h.toList_eq, List.getElem_map, List.getElem_range]

theorem isBlank_appended (hblank : page.IsBlank) : (page.appended pair).IsBlank := by
  obtain ⟨hspace, hend⟩ := appended_space h hroom
  have horder := inOrder_appended h hroom
  intro i hfree
  rw [horder.isFree_iff, indexEnd, horder.even, size_appended h hroom,
    edge_appended_succ h hroom] at hfree
  have hfree' : page.IsFree i := by
    rw [h.isFree_iff, indexEnd, h.even]
    omega
  rw [byte_appended h i (by omega), Buffer.byte_patch, if_neg (by omega), Buffer.byte_patch,
    if_neg (by omega)]
  exact hblank i hfree'

end Appended

section Fitting

variable {page : Page} (h : page.InOrder) {pair : Pair}
  (hfits : weight page.toList + pair.footprint ≤ 1022)
include h hfits

theorem InOrder.footprint_le_room : pair.footprint ≤ page.room := by
  have := h.weight_add_room
  omega

theorem InOrder.insert_eq_appended : page.insert pair = .ok (page.appended pair) := by
  have hrange : pair.footprint < counterRange :=
    ((Nat.le_add_left _ _).trans hfits).trans_lt (by decide)
  exact insert_of_hasRoom ((h.hasRoom_iff hrange).mpr hfits)

theorem InOrder.insert :
    ∃ page', page.insert pair = .ok page' ∧ page'.InOrder ∧
      page'.toList = page.toList ++ [pair] := by
  have hroom := h.footprint_le_room hfits
  exact ⟨page.appended pair, h.insert_eq_appended hfits, inOrder_appended h hroom,
    toList_appended h hroom⟩

end Fitting

end Page

end PageTrie
