import PageTrie.Proofs.Page.Division
import PageTrie.Proofs.Page.Encoding

/-! Dividing a page as a partition of its pairs. Each half is written from nothing, so it is the
page of its part of the pairs to the byte, and no part needs more space than the whole. -/
namespace PageTrie

/-- What the two halves of a page are. -/
structure Page.PartedBy (page : Page) (bit : UInt32) (halves : Halves) : Prop where
  stay_isWellFormed : halves.stay.isWellFormed = true
  moved_isWellFormed : halves.moved.isWellFormed = true
  stay_toList : halves.stay.toList = page.toList.filter fun pair => keyHash pair.key &&& bit = 0
  moved_toList : halves.moved.toList = page.toList.filter fun pair => keyHash pair.key &&& bit ≠ 0
  stay_isBlank : halves.stay.IsBlank
  moved_isBlank : halves.moved.IsBlank
  room_add : halves.stay.room + halves.moved.room = page.room + 1022

namespace Halves

theorem place_hit {bit : UInt32} {halves halves' : Halves} {pair : Pair}
    (hhit : pair.hits bit = true) (h : halves.place bit pair = .ok halves') :
    halves'.stay = halves.stay ∧ halves.moved.insert pair = .ok halves'.moved := by
  rw [place, if_pos (of_decide_eq_true hhit)] at h
  cases hinsert : halves.moved.insert pair with
  | error cause =>
    rw [hinsert] at h
    cases h
  | ok page =>
    rw [hinsert] at h
    cases h
    exact ⟨rfl, rfl⟩

theorem place_not_hit {bit : UInt32} {halves halves' : Halves} {pair : Pair}
    (hhit : pair.hits bit = false) (h : halves.place bit pair = .ok halves') :
    halves'.moved = halves.moved ∧ halves.stay.insert pair = .ok halves'.stay := by
  rw [place, if_neg (of_decide_eq_false hhit)] at h
  cases hinsert : halves.stay.insert pair with
  | error cause =>
    rw [hinsert] at h
    cases h
  | ok page =>
    rw [hinsert] at h
    cases h
    exact ⟨rfl, rfl⟩

/-- Placing pairs one after another inserts each part of them into its half. -/
theorem foldlM_insert_of_place {bit : UInt32} {pairs : List Pair} {halves halves' : Halves}
    (h : pairs.foldlM (place bit) halves = .ok halves') :
    (pairs.filter fun pair => !pair.hits bit).foldlM Page.insert halves.stay = .ok halves'.stay ∧
      (pairs.filter (Pair.hits bit)).foldlM Page.insert halves.moved = .ok halves'.moved := by
  induction pairs generalizing halves with
  | nil =>
    cases h
    exact ⟨rfl, rfl⟩
  | cons pair rest ih =>
    rw [List.foldlM_cons] at h
    cases hplace : halves.place bit pair with
    | error cause =>
      rw [hplace] at h
      cases h
    | ok next =>
      rw [hplace] at h
      obtain ⟨hstay, hmoved⟩ := ih h
      cases hhit : pair.hits bit with
      | true =>
        obtain ⟨hkept, hinsert⟩ := place_hit hhit hplace
        rw [hkept] at hstay
        simp only [List.filter_cons, hhit, Bool.not_true, Bool.false_eq_true, if_false, if_true,
          List.foldlM_cons, hinsert]
        exact ⟨hstay, hmoved⟩
      | false =>
        obtain ⟨hkept, hinsert⟩ := place_not_hit hhit hplace
        rw [hkept] at hmoved
        simp only [List.filter_cons, hhit, Bool.not_false, Bool.false_eq_true, if_false, if_true,
          List.foldlM_cons, hinsert]
        exact ⟨hstay, hmoved⟩

end Halves

namespace Page

theorem ofList_of_divide {page : Page} {bit : UInt32} {halves : Halves}
    (h : page.divide bit = .ok halves) :
    ofList (page.toList.filter fun pair => !pair.hits bit) = .ok halves.stay ∧
      ofList (page.toList.filter (Pair.hits bit)) = .ok halves.moved :=
  Halves.foldlM_insert_of_place h

theorem InOrder.isBlank_of_divide {page : Page} (h : page.InOrder) {bit : UInt32}
    {halves : Halves} (hdivide : page.divide bit = .ok halves) :
    halves.stay.IsBlank ∧ halves.moved.IsBlank := by
  have hparts := weight_filter_add (Pair.hits bit) page.toList
  have hwhole := h.weight_add_room
  obtain ⟨hstay, hmoved⟩ := ofList_of_divide hdivide
  obtain ⟨stay, hstay', -, hblank⟩ := @exists_ofList
    (page.toList.filter fun pair => !pair.hits bit) (by omega)
  obtain ⟨moved, hmoved', -, hblank'⟩ := @exists_ofList
    (page.toList.filter (Pair.hits bit)) (by omega)
  cases hstay.symm.trans hstay'
  cases hmoved.symm.trans hmoved'
  exact ⟨hblank, hblank'⟩

/-- A well-formed page is divided by any bits without a failure. No pair is lost, none changes
its order, and what the pairs left free of one page they leave free of two. -/
theorem divide_partedBy {page : Page} (h : page.isWellFormed = true) (bit : UInt32) :
    ∃ halves, page.divide bit = .ok halves ∧ page.PartedBy bit halves := by
  have horder := (isWellFormed_iff page).mp h
  obtain ⟨halves, hdivide, hhalves, hstay, hmoved⟩ := horder.divide bit
  obtain ⟨hstayBlank, hmovedBlank⟩ := horder.isBlank_of_divide hdivide
  refine ⟨halves, hdivide, ?_⟩
  constructor
  · exact (isWellFormed_iff _).mpr hhalves.stay
  · exact (isWellFormed_iff _).mpr hhalves.moved
  · rw [hstay]
    apply List.filter_congr
    intro pair _
    simp [Pair.hits]
  · exact hmoved
  · exact hstayBlank
  · exact hmovedBlank
  · have hparts := weight_filter_add (Pair.hits bit) page.toList
    have hwhole := horder.weight_add_room
    have hstayRoom := hhalves.stay.weight_add_room
    have hmovedRoom := hhalves.moved.weight_add_room
    rw [hstay] at hstayRoom
    rw [hmoved] at hmovedRoom
    omega

def crammed : List Pair := [⟨[107], [1]⟩, ⟨[], []⟩, ⟨[108], List.replicate 1007 2⟩]

theorem divide_partedBy_crammed :
    ∃ page : Page, page.isWellFormed = true ∧ page.room = 0 ∧
      ∃ halves, page.divide 1 = .ok halves ∧ page.PartedBy 1 halves ∧
        halves.moved.toList = [⟨[107], [1]⟩] := by
  have hweight : weight crammed = 1022 := by
    simp only [crammed, weight_cons, weight_nil, Pair.footprint, Pair.size, List.length_replicate,
      List.length_cons, List.length_nil]
  obtain ⟨page, -, hpage, -⟩ := exists_ofList (Nat.le_of_eq hweight)
  obtain ⟨hformed, hlist⟩ := (laysOut_iff _ _).mp hpage
  have hroom := hpage.inOrder.weight_add_room
  rw [hlist, hweight] at hroom
  obtain ⟨halves, hdivide, hparted⟩ := divide_partedBy hformed 1
  refine ⟨page, hformed, by omega, halves, hdivide, hparted, ?_⟩
  rw [hparted.moved_toList, hlist]
  decide

end Page

end PageTrie
