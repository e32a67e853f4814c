import Mathlib
import PageTrie.Page.Basic

/-! What a well-formed page holds. Pair `p` lies between two edges: it ends at `edge p` and
begins at `edge (p + 1)`. The edges go down from the end of the page, so the pairs tile the
bytes above the last edge, and the room left is 1022 less their footprints. -/
namespace PageTrie

/-- Bytes and slots that a list of pairs takes on a page. -/
def weight (pairs : List Pair) : Nat := (pairs.map Pair.footprint).sum

@[simp] theorem weight_nil : weight [] = 0 := rfl

@[simp] theorem weight_cons (pair : Pair) (pairs : List Pair) :
    weight (pair :: pairs) = pair.footprint + weight pairs := by
  simp [weight]

@[simp] theorem weight_append (first second : List Pair) :
    weight (first ++ second) = weight first + weight second := by
  simp [weight]

theorem weight_le_of_sublist {first second : List Pair} (h : first.Sublist second) :
    weight first ≤ weight second := by
  unfold weight
  exact (h.map Pair.footprint).sum_le_sum (fun _ _ => Nat.zero_le _)

theorem weight_perm {first second : List Pair} (h : first.Perm second) :
    weight first = weight second := (h.map Pair.footprint).sum_eq

theorem weight_filter_add (property : Pair → Bool) (pairs : List Pair) :
    weight (pairs.filter property) + weight (pairs.filter fun pair => !property pair) =
      weight pairs := by
  induction pairs with
  | nil => rfl
  | cons pair rest ih =>
    cases hpair : property pair <;>
      simp only [List.filter_cons, hpair, Bool.not_true, Bool.not_false, if_true, if_false,
        Bool.false_eq_true, weight_cons] <;> omega

namespace Page

/-- Where pair `p` ends, and with `p + 1` where it begins. -/
def edge (page : Page) (p : Nat) : Nat := if p = 0 then pageSize else page.slot (2 * p)

def extentAt (page : Page) (p : Nat) : Extent where
  valueStart := page.edge (p + 1)
  keyStart := page.slot (2 * p + 1)
  keyEnd := page.edge p

def pairAt (page : Page) (p : Nat) : Pair := page.cut (page.extentAt p)

/-- What `isWellFormed` checks, with every offset between the two edges of its pair. -/
structure InOrder (page : Page) : Prop where
  even : page.slotsUsed = 2 * page.size
  index : page.indexEnd ≤ page.edge page.size
  key_le : ∀ p < page.size, page.slot (2 * p + 1) ≤ page.edge p
  value_le : ∀ p < page.size, page.edge (p + 1) ≤ page.slot (2 * p + 1)

@[simp] theorem edge_zero (page : Page) : page.edge 0 = pageSize := rfl

theorem edge_succ (page : Page) (p : Nat) : page.edge (p + 1) = page.slot (2 * p + 2) := rfl

theorem lowest?_eq_some_iff (page : Page) (count p low : Nat) :
    lowest? (page.edge p) ((List.range' p count).map fun q =>
        (page.slot (2 * q + 1), page.edge (q + 1))) = some low ↔
      (∀ q, p ≤ q → q < p + count →
        page.slot (2 * q + 1) ≤ page.edge q ∧ page.edge (q + 1) ≤ page.slot (2 * q + 1)) ∧
      page.edge (p + count) = low := by
  induction count generalizing p with
  | zero =>
    simp only [List.range'_zero, List.map_nil, lowest?, Option.some.injEq, Nat.add_zero]
    constructor
    · intro h
      exact ⟨fun q hlo hhi => by omega, h⟩
    · exact fun h => h.2
  | succ count ih =>
    simp only [List.range'_succ, List.map_cons, lowest?]
    split
    · next h =>
      rw [ih (p + 1), show p + 1 + count = p + (count + 1) by omega]
      constructor
      · rintro ⟨hrest, hlow⟩
        refine ⟨fun q hlo hhi => ?_, hlow⟩
        by_cases hq : q = p
        · rw [hq]
          exact h
        · exact hrest q (by omega) (by omega)
      · rintro ⟨hall, hlow⟩
        exact ⟨fun q hlo hhi => hall q (by omega) hhi, hlow⟩
    · next h =>
      constructor
      · intro hfalse
        cases hfalse
      · rintro ⟨hall, -⟩
        exact absurd (hall p (Nat.le_refl p) (by omega)) h

theorem InOrder.edge_le {page : Page} (h : page.InOrder) {p q : Nat} (hpq : p ≤ q)
    (hq : q ≤ page.size) : page.edge q ≤ page.edge p := by
  induction q, hpq using Nat.le_induction with
  | base => exact Nat.le_refl _
  | succ q hpq ih =>
    have hkey := h.key_le q (by omega)
    have hvalue := h.value_le q (by omega)
    have := ih (by omega)
    omega

theorem InOrder.edge_le_pageSize {page : Page} (h : page.InOrder) {p : Nat}
    (hp : p ≤ page.size) : page.edge p ≤ pageSize := h.edge_le (Nat.zero_le p) hp

theorem InOrder.index_le {page : Page} (h : page.InOrder) {p : Nat} (hp : p ≤ page.size) :
    (2 * page.size + 1) * 2 ≤ page.edge p := by
  have hindex := h.index
  have hedge := h.edge_le hp (Nat.le_refl _)
  simp only [indexEnd, h.even] at hindex
  omega

theorem InOrder.slot_le_edge {page : Page} (h : page.InOrder) {p j : Nat} (hp : 2 * p < j)
    (hj : j ≤ 2 * page.size) : page.slot j ≤ page.edge p := by
  obtain ⟨q, rfl | rfl⟩ := Nat.even_or_odd' j
  · have hedge : page.edge q = page.slot (2 * q) := if_neg (by omega)
    rw [← hedge]
    exact h.edge_le (by omega) (by omega)
  · exact (h.key_le q (by omega)).trans (h.edge_le (by omega) (by omega))

theorem isWellFormed_iff (page : Page) : page.isWellFormed = true ↔ page.InOrder := by
  have hlowest := page.lowest?_eq_some_iff page.size 0
  simp only [edge_zero, edge_succ, Nat.zero_add, ← List.range_eq_range'] at hlowest
  unfold isWellFormed
  simp only [Bool.and_eq_true, beq_iff_eq, decide_eq_true_eq]
  constructor
  · rintro ⟨⟨heven, -⟩, hlow⟩
    cases hcase : lowest? pageSize page.offsets with
    | none => simp [hcase] at hlow
    | some low =>
      obtain ⟨hsteps, hend⟩ := (hlowest low).mp hcase
      simp only [hcase, decide_eq_true_eq] at hlow
      exact ⟨by unfold size; omega, hend ▸ hlow, fun p hp => (hsteps p (Nat.zero_le p) hp).1,
        fun p hp => (hsteps p (Nat.zero_le p) hp).2⟩
  · intro h
    have hcase : lowest? pageSize page.offsets = some (page.edge page.size) :=
      (hlowest _).mpr ⟨fun q _ hq => ⟨h.key_le q hq, h.value_le q hq⟩, rfl⟩
    have hend := h.edge_le_pageSize (Nat.le_refl _)
    have hindex := h.index
    refine ⟨⟨by rw [h.even]; omega, by omega⟩, ?_⟩
    simpa only [hcase, decide_eq_true_eq] using hindex

theorem pair?_of_size_le {page : Page} {p : Nat} (h : page.size ≤ p) : page.pair? p = none := by
  simp [pair?, extent?, h]

theorem InOrder.pair?_eq {page : Page} (h : page.InOrder) {p : Nat} (hp : p < page.size) :
    page.pair? p = some (page.pairAt p) := by
  have hindex := h.index_le (Nat.le_refl page.size)
  have hend := h.edge_le_pageSize (Nat.le_refl _)
  have htop := h.edge_le_pageSize (Nat.le_of_lt hp)
  have hkey := h.key_le p hp
  have hvalue := h.value_le p hp
  have hguard : ¬ (page.size ≤ p ∨ pageSize < (2 * p + 3) * 2) := by omega
  unfold pair? extent?
  rw [if_neg hguard]
  simp only [edge_succ] at hvalue
  change Option.map page.cut (if page.slot (2 * p + 2) ≤ page.slot (2 * p + 1) ∧
    page.slot (2 * p + 1) ≤ page.edge p ∧ page.edge p ≤ pageSize then _ else none) = _
  rw [if_pos ⟨hvalue, hkey, htop⟩]
  rfl

theorem InOrder.key?_eq {page : Page} (h : page.InOrder) {p : Nat} (hp : p < page.size) :
    page.key? p = some (page.pairAt p).key := by
  rw [key?, h.pair?_eq hp, Option.map_some]

theorem InOrder.listFrom_eq {page : Page} (h : page.InOrder) (p count : Nat)
    (hcount : p + count ≤ page.size) :
    page.listFrom p count = (List.range' p count).map page.pairAt := by
  induction count generalizing p with
  | zero => rfl
  | succ count ih =>
    rw [listFrom, h.pair?_eq (by omega), List.range'_succ, List.map_cons, ih (p + 1) (by omega)]

theorem InOrder.toList_eq {page : Page} (h : page.InOrder) :
    page.toList = (List.range page.size).map page.pairAt := by
  rw [toList, h.listFrom_eq 0 page.size (by omega), List.range_eq_range']

theorem InOrder.length_toList {page : Page} (h : page.InOrder) :
    page.toList.length = page.size := by
  rw [h.toList_eq, List.length_map, List.length_range]

theorem InOrder.getElem?_toList {page : Page} (h : page.InOrder) (p : Nat) :
    page.toList[p]? = page.pair? p := by
  by_cases hp : p < page.size
  · rw [h.pair?_eq hp, h.toList_eq]
    simp [hp]
  · rw [pair?_of_size_le (by omega), List.getElem?_eq_none]
    rw [h.length_toList]
    omega

theorem InOrder.toList_eq_of_pairAt {page : Page} (h : page.InOrder) {pairs : List Pair}
    (hlength : page.size = pairs.length)
    (hpairs : ∀ p, (hp : p < pairs.length) → page.pairAt p = pairs[p]) : page.toList = pairs := by
  rw [h.toList_eq]
  apply List.ext_getElem
  · simp [hlength]
  · intro p _ hp
    simp only [List.getElem_map, List.getElem_range]
    exact hpairs p hp

@[simp] theorem inOrder_empty : empty.InOrder := (isWellFormed_iff empty).mp isWellFormed_empty

@[simp] theorem toList_empty : empty.toList = [] := by
  simp [toList, size, listFrom]

theorem InOrder.dataFloor_eq {page : Page} (h : page.InOrder) :
    page.dataFloor = page.edge page.size := by
  have hend := h.edge_le_pageSize (Nat.le_refl _)
  have hindex := h.index
  have heven := h.even
  unfold dataFloor
  by_cases hzero : page.slotsUsed = 0
  · have hsize : page.size = 0 := by omega
    rw [if_pos hzero, hsize, edge_zero]
  · have hsize : page.size ≠ 0 := by omega
    have hslot : page.edge page.size = page.slot page.slotsUsed := by
      rw [edge, if_neg hsize, ← heven]
    rw [if_neg hzero, if_neg (by omega), if_neg (by omega), hslot]

theorem InOrder.footprint_pairAt {page : Page} (h : page.InOrder) {p : Nat}
    (hp : p < page.size) :
    (page.pairAt p).footprint = page.edge p - page.edge (p + 1) + 4 := by
  have hkey := h.key_le p hp
  have hvalue := h.value_le p hp
  simp only [Pair.footprint, Pair.size, pairAt, cut, extentAt, Buffer.length_slice]
  omega

theorem InOrder.weight_pairAt {page : Page} (h : page.InOrder) {p : Nat} (hp : p ≤ page.size) :
    weight ((List.range p).map page.pairAt) + page.edge p = pageSize + 4 * p := by
  induction p with
  | zero => simp
  | succ p ih =>
    have hkey := h.key_le p hp
    have hvalue := h.value_le p hp
    have := ih (by omega)
    rw [List.range_succ, List.map_append, weight_append]
    simp only [List.map_cons, List.map_nil, weight_cons, weight_nil, h.footprint_pairAt hp]
    omega

/-- The pairs and the room make up the page but for the count. -/
theorem InOrder.weight_add_room {page : Page} (h : page.InOrder) :
    weight page.toList + page.room = 1022 := by
  have hweight := h.weight_pairAt (Nat.le_refl page.size)
  have hend := h.edge_le_pageSize (Nat.le_refl _)
  have hindex := h.index_le (Nat.le_refl page.size)
  simp only [pageSize] at hend hweight
  simp only [room, h.dataFloor_eq, h.toList_eq, indexEnd, h.even]
  omega

theorem InOrder.hasRoom_iff {page : Page} (h : page.InOrder) {need : Nat}
    (hneed : need + 4 < counterRange) :
    page.hasRoom need = true ↔ weight page.toList + (need + 4) ≤ 1022 := by
  have := h.weight_add_room
  rw [hasRoom, Nat.mod_eq_of_lt hneed, decide_eq_true_eq]
  omega

/-- A byte behind the slots in use and below every offset that they hold. -/
def IsFree (page : Page) (i : Nat) : Prop :=
  page.indexEnd ≤ i ∧ i < pageSize ∧ ∀ j < page.slotsUsed, i < page.slot (j + 1)

instance (page : Page) (i : Nat) : Decidable (page.IsFree i) :=
  inferInstanceAs (Decidable (_ ∧ _ ∧ _))

def IsBlank (page : Page) : Prop := ∀ i, page.IsFree i → page.bytes.byte i = 0

theorem isBlank_empty : empty.IsBlank := by
  intro i _
  simp [empty]

theorem InOrder.edge_size_le_slot {page : Page} (h : page.InOrder) {j : Nat}
    (hj : j < page.slotsUsed) : page.edge page.size ≤ page.slot (j + 1) := by
  rw [h.even] at hj
  have hpair : j / 2 < page.size := by omega
  have hedge := h.edge_le (show j / 2 + 1 ≤ page.size from hpair) (Nat.le_refl _)
  have hvalue := h.value_le (j / 2) hpair
  obtain heven | hodd := Nat.mod_two_eq_zero_or_one j
  · rw [show j + 1 = 2 * (j / 2) + 1 by omega]
    omega
  · rw [show j + 1 = 2 * (j / 2) + 2 by omega, ← edge_succ]
    exact hedge

theorem InOrder.isFree_iff {page : Page} (h : page.InOrder) {i : Nat} :
    page.IsFree i ↔ page.indexEnd ≤ i ∧ i < page.edge page.size := by
  constructor
  · rintro ⟨hlo, hhi, hslots⟩
    refine ⟨hlo, ?_⟩
    by_cases hsize : page.size = 0
    · rwa [hsize, edge_zero]
    · have hlast := hslots (2 * page.size - 1) (by rw [h.even]; omega)
      rwa [edge, if_neg hsize, show 2 * page.size = 2 * page.size - 1 + 1 by omega]
  · rintro ⟨hlo, hhi⟩
    exact ⟨hlo, hhi.trans_le (h.edge_le_pageSize (Nat.le_refl _)),
      fun j hj => hhi.trans_le (h.edge_size_le_slot hj)⟩

theorem InOrder.find?_toList {page : Page} (h : page.InOrder) (key : Bytes) :
    page.toList.find? (fun pair => pair.key == key) = (page.indexOf? key).map page.pairAt := by
  rw [h.toList_eq, List.find?_map, indexOf?]
  congr 1
  apply List.find?_congr
  intro p hp
  rw [h.key?_eq (List.mem_range.mp hp)]
  simp

theorem indexOf?_lt {page : Page} {key : Bytes} {p : Nat} (h : page.indexOf? key = some p) :
    p < page.size := List.mem_range.mp (List.mem_of_find?_eq_some h)

theorem InOrder.get?_eq {page : Page} (h : page.InOrder) (key : Bytes) :
    page.get? key = (page.toList.find? fun pair => pair.key == key).map (·.value) := by
  rw [h.find?_toList]
  unfold get?
  cases hfind : page.indexOf? key with
  | none => rfl
  | some p =>
    simp [h.pair?_eq (indexOf?_lt hfind)]

theorem InOrder.contains_eq {page : Page} (h : page.InOrder) (key : Bytes) :
    page.contains key = (page.toList.find? fun pair => pair.key == key).isSome := by
  rw [h.find?_toList, contains, Option.isSome_map]

end Page

end PageTrie
