import PageTrie.Proofs.Page.Insertion

/-! Erasure takes the first pair of a key out of the list that a page holds. The pairs behind
it move up by its size, edges and bytes together. -/
namespace PageTrie.Page

theorem slot_shiftSlots (page : Page) (gap i count j : Nat)
    (hindex : 2 * (i + count) ≤ pageSize)
    (hvalue : ∀ k, i ≤ k → k < i + count → page.slot (k + 2) + gap < 65536) :
    (page.shiftSlots gap i count).slot j =
      if i ≤ j ∧ j < i + count then page.slot (j + 2) + gap else page.slot j := by
  induction count generalizing page i with
  | zero =>
    rw [if_neg (by omega)]
    rfl
  | succ count ih =>
    have hother (k : Nat) (hk : k ≠ i) :
        (page.setSlot i (page.slot (i + 2) + gap)).slot k = page.slot k := by
      rw [slot_setSlot _ _ _ _ (by omega), if_neg hk]
    rw [shiftSlots, ih _ (i + 1) (by omega)]
    · obtain hj | rfl | hj := Nat.lt_trichotomy j i
      · rw [if_neg (by omega), if_neg (by omega), hother j (by omega)]
      · rw [if_neg (by omega), if_pos (by omega), slot_setSlot _ _ _ _ (by omega), if_pos rfl,
          Nat.mod_eq_of_lt (hvalue j (Nat.le_refl j) (by omega))]
      · rw [hother (j + 2) (by omega), hother j (by omega)]
        congr 1
        simp only [eq_iff_iff]
        omega
    · intro k hlo hhi
      rw [hother (k + 2) (by omega)]
      exact hvalue k (by omega) (by omega)

theorem byte_shiftSlots (page : Page) (gap i count j : Nat) (h : 2 * (i + count) ≤ j) :
    (page.shiftSlots gap i count).bytes.byte j = page.bytes.byte j := by
  induction count generalizing page i with
  | zero => rfl
  | succ count ih =>
    rw [shiftSlots, ih _ (i + 1) (by omega), byte_setSlot_of_le _ _ (by omega)]

/-- The page once the bytes below pair `p` are moved up to where that pair ends. Its index still
says where the pairs were before. -/
def slid (page : Page) (p : Nat) : Page :=
  ⟨page.bytes.patch (page.edge page.size + (page.edge p - page.edge (p + 1)))
    (page.bytes.slice (page.edge page.size) (page.edge (p + 1)))⟩

section CloseGap

variable {page : Page} (h : page.InOrder) {p : Nat} (hp : p < page.size)
include h hp

theorem gap_bounds :
    page.edge page.size ≤ page.edge (p + 1) ∧ page.edge (p + 1) ≤ page.edge p ∧
      page.edge p ≤ pageSize ∧ (2 * page.size + 1) * 2 ≤ page.edge page.size :=
  ⟨h.edge_le hp (Nat.le_refl _), h.edge_le (Nat.le_succ p) hp,
    h.edge_le_pageSize (Nat.le_of_lt hp), h.index_le (Nat.le_refl _)⟩

theorem slot_slotsUsed : page.slot page.slotsUsed = page.edge page.size := by
  rw [h.even, edge, if_neg (Nat.ne_of_gt (Nat.zero_lt_of_lt hp))]

theorem slot_slid {j : Nat} (hj : j ≤ 2 * page.size) : (page.slid p).slot j = page.slot j := by
  obtain ⟨hlow, hdown, hend, hindex⟩ := gap_bounds h hp
  exact Buffer.word_patch_of_le _ _ (by omega)

/-- Every offset that is raised stays in the page: the pair it belongs to moves with it. -/
theorem slot_slid_add_le {k : Nat} (hlo : 2 * p + 1 ≤ k) (hhi : k + 2 ≤ 2 * page.size) :
    (page.slid p).slot (k + 2) + (page.edge p - page.edge (p + 1)) ≤ pageSize := by
  obtain ⟨hlow, hdown, hend, hindex⟩ := gap_bounds h hp
  have hbelow := h.slot_le_edge (show 2 * (p + 1) < k + 2 by omega) hhi
  rw [slot_slid h hp hhi]
  omega

private theorem closeGap_of_lt (hlast : p + 1 < page.size) :
    page.closeGap p =
      ((page.slid p).shiftSlots (page.edge p - page.edge (p + 1)) (2 * p + 1)
        (2 * page.size - 2 * p - 2)).setSlot 0 (2 * page.size - 2) := by
  have hedge := slot_slotsUsed h hp
  rw [h.even] at hedge
  unfold closeGap
  rw [h.even, if_pos (by omega), hedge,
    show 2 * page.size - 1 - (2 * p + 1) = 2 * page.size - 2 * p - 2 by omega]
  rfl

private theorem slot_closeGap (j : Nat) (hzero : j ≠ 0) (hj : j ≤ 2 * page.size - 2) :
    (page.closeGap p).slot j =
      if 2 * p + 1 ≤ j then page.slot (j + 2) + (page.edge p - page.edge (p + 1))
      else page.slot j := by
  obtain ⟨hlow, hdown, hend, hindex⟩ := gap_bounds h hp
  have hpage : pageSize = 1024 := rfl
  by_cases hlast : p + 1 < page.size
  · rw [closeGap_of_lt h hp hlast, slot_setSlot _ _ _ _ (by decide), if_neg hzero,
      slot_shiftSlots _ _ _ _ _ (by omega)]
    · rw [slot_slid h hp (by omega), slot_slid h hp (by omega)]
      congr 1
      simp only [eq_iff_iff]
      omega
    · intro k hlo hhi
      exact (slot_slid_add_le h hp hlo (by omega)).trans_lt (by decide)
  · rw [if_neg (by omega)]
    unfold closeGap
    rw [h.even, if_neg (by omega), slot_setSlot _ _ _ _ (by decide), if_neg hzero]

private theorem slotsUsed_closeGap : (page.closeGap p).slotsUsed = 2 * page.size - 2 := by
  obtain ⟨hlow, hdown, hend, hindex⟩ := gap_bounds h hp
  have hpage : pageSize = 1024 := rfl
  have hset (other : Page) : (other.setSlot 0 (2 * page.size - 2)).slotsUsed =
      2 * page.size - 2 := by
    rw [slotsUsed, slot_setSlot _ _ _ _ (by decide), if_pos rfl, Nat.mod_eq_of_lt (by omega)]
  by_cases hlast : p + 1 < page.size
  · rw [closeGap_of_lt h hp hlast, hset]
  · unfold closeGap
    rw [h.even, if_neg (by omega), hset]

private theorem size_closeGap : (page.closeGap p).size = page.size - 1 := by
  rw [size, slotsUsed_closeGap h hp]
  omega

private theorem edge_closeGap_of_le (q : Nat) (hq : q ≤ p) :
    (page.closeGap p).edge q = page.edge q := by
  unfold edge
  split
  · rfl
  · rw [slot_closeGap h hp _ (by omega) (by omega), if_neg (by omega)]

private theorem edge_closeGap_of_ge (q : Nat) (hlo : p ≤ q) (hhi : q < page.size) :
    (page.closeGap p).edge q = page.edge (q + 1) + (page.edge p - page.edge (p + 1)) := by
  obtain ⟨hlow, hdown, hend, hindex⟩ := gap_bounds h hp
  by_cases hq : q = p
  · rw [hq, edge_closeGap_of_le h hp p (Nat.le_refl p)]
    omega
  · obtain ⟨r, rfl⟩ : ∃ r, q = r + 1 := ⟨q - 1, by omega⟩
    rw [edge_succ, slot_closeGap h hp _ (by omega) (by omega), if_pos (by omega)]
    rfl

private theorem byte_closeGap_moved (i : Nat) (hlo : page.edge page.size ≤ i)
    (hhi : i < page.edge (p + 1)) :
    (page.closeGap p).bytes.byte (i + (page.edge p - page.edge (p + 1))) =
      page.bytes.byte i := by
  obtain ⟨hlow, hdown, hend, hindex⟩ := gap_bounds h hp
  by_cases hlast : p + 1 < page.size
  · rw [closeGap_of_lt h hp hlast, byte_setSlot_of_le _ _ (by omega),
      byte_shiftSlots _ _ _ _ _ (by omega), slid, Buffer.byte_patch, Buffer.length_slice,
      if_pos (by omega), Buffer.getD_slice, if_pos (by omega)]
    congr 1
    omega
  · have hsize : p + 1 = page.size := by omega
    rw [hsize] at hhi
    omega

private theorem byte_closeGap_kept (i : Nat) (hi : page.edge p ≤ i) :
    (page.closeGap p).bytes.byte i = page.bytes.byte i := by
  obtain ⟨hlow, hdown, hend, hindex⟩ := gap_bounds h hp
  by_cases hlast : p + 1 < page.size
  · rw [closeGap_of_lt h hp hlast, byte_setSlot_of_le _ _ (by omega),
      byte_shiftSlots _ _ _ _ _ (by omega), slid, Buffer.byte_patch, Buffer.length_slice,
      if_neg (by omega)]
  · unfold closeGap
    rw [h.even, if_neg (by omega), byte_setSlot_of_le _ _ (by omega)]

theorem inOrder_closeGap : (page.closeGap p).InOrder := by
  obtain ⟨hlow, hdown, hend, hindex⟩ := gap_bounds h hp
  constructor
  · rw [slotsUsed_closeGap h hp, size_closeGap h hp]
    omega
  · rw [size_closeGap h hp, indexEnd, slotsUsed_closeGap h hp,
      edge_closeGap_of_ge h hp _ (by omega) (by omega), Nat.sub_add_cancel (by omega)]
    omega
  · intro q hq
    rw [size_closeGap h hp] at hq
    rw [slot_closeGap h hp _ (by omega) (by omega)]
    split
    · rw [edge_closeGap_of_ge h hp q (by omega) (by omega)]
      have := h.key_le (q + 1) (by omega)
      change page.slot (2 * q + 1 + 2) ≤ _ at this
      omega
    · rw [edge_closeGap_of_le h hp q (by omega)]
      exact h.key_le q (by omega)
  · intro q hq
    rw [size_closeGap h hp] at hq
    rw [slot_closeGap h hp _ (by omega) (by omega)]
    split
    · rw [edge_closeGap_of_ge h hp (q + 1) (by omega) (by omega)]
      have := h.value_le (q + 1) (by omega)
      change _ ≤ page.slot (2 * q + 1 + 2) at this
      omega
    · rw [edge_closeGap_of_le h hp (q + 1) (by omega)]
      exact h.value_le q (by omega)

private theorem pairAt_closeGap (q : Nat) (hq : q < page.size - 1) :
    (page.closeGap p).pairAt q = if q < p then page.pairAt q else page.pairAt (q + 1) := by
  split
  · next hbefore =>
    have hedge := h.edge_le (show q + 1 ≤ p from hbefore) (Nat.le_of_lt hp)
    apply pairAt_eq_pairAt 0
    · exact edge_closeGap_of_le h hp (q + 1) (by omega)
    · rw [slot_closeGap h hp _ (by omega) (by omega), if_neg (by omega)]
      rfl
    · exact edge_closeGap_of_le h hp q (by omega)
    · intro i hlo _
      exact byte_closeGap_kept h hp i (by omega)
    · exact ⟨h.value_le q (by omega), h.key_le q (by omega)⟩
  · next hbehind =>
    have hedge := h.edge_le (show p + 1 ≤ q + 1 by omega) (by omega)
    have hfloor := h.edge_le (show q + 1 + 1 ≤ page.size by omega) (Nat.le_refl _)
    apply pairAt_eq_pairAt (page.edge p - page.edge (p + 1))
    · exact edge_closeGap_of_ge h hp (q + 1) (by omega) (by omega)
    · rw [slot_closeGap h hp _ (by omega) (by omega), if_pos (by omega)]
      rfl
    · exact edge_closeGap_of_ge h hp q (by omega) (by omega)
    · intro i hlo hhi
      exact byte_closeGap_moved h hp i (by omega) (by omega)
    · exact ⟨h.value_le (q + 1) (by omega), h.key_le (q + 1) (by omega)⟩

theorem toList_closeGap : (page.closeGap p).toList = page.toList.eraseIdx p := by
  have hlength := h.length_toList
  have herase : (page.toList.eraseIdx p).length = page.size - 1 := by
    rw [List.length_eraseIdx_of_lt (by omega), hlength]
  apply (inOrder_closeGap h hp).toList_eq_of_pairAt
  · rw [size_closeGap h hp, herase]
  · intro q hq
    rw [pairAt_closeGap h hp q (by omega), List.getElem_eraseIdx]
    split <;> simp only [h.toList_eq, List.getElem_map, List.getElem_range]

end CloseGap

theorem InOrder.findIdx?_toList {page : Page} (h : page.InOrder) (key : Bytes) :
    page.toList.findIdx? (fun pair => pair.key == key) = page.indexOf? key := by
  cases hfind : page.indexOf? key with
  | none =>
    have hnone := h.find?_toList key
    rw [hfind, Option.map_none, List.find?_eq_none] at hnone
    rw [List.findIdx?_eq_none_iff]
    intro pair hpair
    simpa using hnone pair hpair
  | some p =>
    have hp := indexOf?_lt hfind
    obtain ⟨hkey, -, hbefore⟩ := List.find?_range_eq_some.mp hfind
    rw [h.key?_eq hp] at hkey
    rw [List.findIdx?_eq_some_iff_getElem]
    refine ⟨h.length_toList ▸ hp, ?_, fun q hq => ?_⟩
    · simpa only [h.toList_eq, List.getElem_map, List.getElem_range, Option.some_beq_some] using hkey
    · have := hbefore q hq
      rw [h.key?_eq (hq.trans hp)] at this
      simpa only [h.toList_eq, List.getElem_map, List.getElem_range, Option.some_beq_some,
        Bool.not_eq_true, Bool.not_eq_eq_eq_not, Bool.not_true] using this

theorem InOrder.erase?_of_mem {page : Page} (h : page.InOrder) {key : Bytes}
    (hmem : ∃ pair ∈ page.toList, pair.key = key) :
    ∃ page', page.erase? key = some page' ∧ page'.InOrder ∧
      page'.toList = page.toList.eraseP fun pair => pair.key == key := by
  obtain ⟨pair, hpair, hkey⟩ := hmem
  cases hfind : page.indexOf? key with
  | none =>
    have hnone := h.find?_toList key
    rw [hfind, Option.map_none, List.find?_eq_none] at hnone
    exact absurd (beq_iff_eq.mpr hkey) (hnone pair hpair)
  | some p =>
    have hp := indexOf?_lt hfind
    refine ⟨page.closeGap p, ?_, inOrder_closeGap h hp, ?_⟩
    · rw [erase?, if_pos ((isWellFormed_iff page).mpr h), hfind, Option.map_some]
    · rw [toList_closeGap h hp, List.eraseP_eq_eraseIdx, h.findIdx?_toList, hfind]

theorem InOrder.erase?_of_not_mem {page : Page} (h : page.InOrder) {key : Bytes}
    (hmem : ∀ pair ∈ page.toList, pair.key ≠ key) : page.erase? key = none := by
  have hfind := h.findIdx?_toList key
  rw [List.findIdx?_eq_none_iff.mpr (by simpa using hmem)] at hfind
  rw [erase?, if_pos ((isWellFormed_iff page).mpr h), ← hfind, Option.map_none]

theorem InOrder.of_erase? {page page' : Page} (h : page.InOrder) {key : Bytes}
    (herase : page.erase? key = some page') : page'.InOrder := by
  by_cases hmem : ∃ pair ∈ page.toList, pair.key = key
  · obtain ⟨erased, herased, horder, -⟩ := h.erase?_of_mem hmem
    rw [herase, Option.some.injEq] at herased
    rwa [herased]
  · have hnone := h.erase?_of_not_mem fun pair hpair hkey => hmem ⟨pair, hpair, hkey⟩
    rw [herase] at hnone
    cases hnone

theorem InOrder.erased {page : Page} (h : page.InOrder) (key : Bytes) :
    ((page.erase? key).getD page).InOrder := by
  cases herase : page.erase? key with
  | none => exact h
  | some erased => exact h.of_erase? herase

end PageTrie.Page
