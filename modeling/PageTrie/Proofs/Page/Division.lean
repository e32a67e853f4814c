import PageTrie.Proofs.Page.Erasure
import PageTrie.Page.Halves

/-! Dividing a page keeps every pair, in order, on the half that its hash selects. Neither
half can overflow: what goes to one is part of what the page held. -/
namespace PageTrie

/-- Whether division by `bit` moves a pair. -/
def Pair.hits (bit : UInt32) (pair : Pair) : Bool := decide (keyHash pair.key &&& bit ≠ 0)

namespace Halves

structure InOrder (halves : Halves) : Prop where
  stay : halves.stay.InOrder
  moved : halves.moved.InOrder

theorem InOrder.place {halves : Halves} (h : halves.InOrder) (bit : UInt32) (pair : Pair)
    (hstay : weight halves.stay.toList + weight ([pair].filter fun pair => !pair.hits bit) ≤ 1022)
    (hmoved : weight halves.moved.toList + weight ([pair].filter (Pair.hits bit)) ≤ 1022) :
    ∃ halves', place bit halves pair = .ok halves' ∧ halves'.InOrder ∧
      halves'.stay.toList = halves.stay.toList ++ [pair].filter (fun pair => !pair.hits bit) ∧
      halves'.moved.toList = halves.moved.toList ++ [pair].filter (Pair.hits bit) := by
  unfold Halves.place
  by_cases hhit : keyHash pair.key &&& bit ≠ 0
  · simp only [Pair.hits, hhit, List.filter_cons, List.filter_nil, decide_true, if_true,
      Bool.not_true, Bool.false_eq_true, if_false, weight_cons, weight_nil, ne_eq,
      not_false_eq_true, List.append_nil] at hmoved ⊢
    obtain ⟨page, hpage, horder, hlist⟩ :=
      @Page.InOrder.insert _ h.moved pair (by omega)
    exact ⟨{ halves with moved := page }, by rw [hpage]; rfl, ⟨h.stay, horder⟩, rfl, hlist⟩
  · simp only [Pair.hits, hhit, List.filter_cons, List.filter_nil, decide_false, if_true,
      Bool.not_false, Bool.false_eq_true, if_false, weight_cons, weight_nil,
      List.append_nil] at hstay ⊢
    obtain ⟨page, hpage, horder, hlist⟩ :=
      @Page.InOrder.insert _ h.stay pair (by omega)
    exact ⟨{ halves with stay := page }, by rw [hpage]; rfl, ⟨horder, h.moved⟩, hlist, rfl⟩

theorem InOrder.foldlM_place {halves : Halves} (h : halves.InOrder) (bit : UInt32)
    (pairs : List Pair)
    (hstay : weight halves.stay.toList + weight (pairs.filter fun pair => !pair.hits bit) ≤ 1022)
    (hmoved : weight halves.moved.toList + weight (pairs.filter (Pair.hits bit)) ≤ 1022) :
    ∃ halves', pairs.foldlM (Halves.place bit) halves = .ok halves' ∧ halves'.InOrder ∧
      halves'.stay.toList = halves.stay.toList ++ pairs.filter (fun pair => !pair.hits bit) ∧
      halves'.moved.toList = halves.moved.toList ++ pairs.filter (Pair.hits bit) := by
  induction pairs generalizing halves with
  | nil => exact ⟨halves, rfl, h, by simp, by simp⟩
  | cons pair rest ih =>
    have hsplit (property : Pair → Bool) : (pair :: rest).filter property =
        [pair].filter property ++ rest.filter property := by
      rw [← List.filter_append]
      rfl
    rw [hsplit, weight_append] at hstay hmoved
    obtain ⟨next, hnext, horder, hstay', hmoved'⟩ := h.place bit pair (by omega)
      (by omega)
    obtain ⟨last, hlast, hinOrder, hstay'', hmoved''⟩ := ih horder
      (by rw [hstay', weight_append]; omega) (by rw [hmoved', weight_append]; omega)
    refine ⟨last, ?_, hinOrder, ?_, ?_⟩
    · rw [List.foldlM_cons, hnext]
      exact hlast
    · rw [hstay'', hstay', hsplit, List.append_assoc]
    · rw [hmoved'', hmoved', hsplit, List.append_assoc]

end Halves

theorem Page.InOrder.divide {page : Page} (h : page.InOrder) (bit : UInt32) :
    ∃ halves, page.divide bit = .ok halves ∧ halves.InOrder ∧
      halves.stay.toList = page.toList.filter (fun pair => !pair.hits bit) ∧
      halves.moved.toList = page.toList.filter (Pair.hits bit) := by
  have htotal := h.weight_add_room
  have hparts := weight_filter_add (Pair.hits bit) page.toList
  obtain ⟨halves, hdivide, horder, hstay, hmoved⟩ :=
    Halves.InOrder.foldlM_place
      (show Halves.InOrder ⟨Page.empty, Page.empty⟩ from ⟨Page.inOrder_empty, Page.inOrder_empty⟩)
      bit page.toList
      (by simp only [Page.toList_empty, weight_nil]; omega)
      (by simp only [Page.toList_empty, weight_nil]; omega)
  exact ⟨halves, hdivide, horder, by simpa using hstay, by simpa using hmoved⟩

end PageTrie
