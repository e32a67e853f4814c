import PageTrie.Proofs.Page.OrderedList

/-! Which buffers are pages. Inserting a list of pairs into the empty page writes the count, the
slots and the pair bytes, and leaves the bytes between them at zero. A buffer is a well-formed
page just when it shows such a page everywhere but between, and then of one list only. -/
namespace PageTrie

namespace Buffer

theorem byte_eq_of_word {b c : Buffer n} {i : Nat} (h : b.word (i / 2) = c.word (i / 2)) :
    b.byte i = c.byte i := by
  have hlow := (b.byte (2 * (i / 2))).toNat_lt
  have hlow' := (c.byte (2 * (i / 2))).toNat_lt
  simp only [word] at h
  obtain heven | hodd := Nat.mod_two_eq_zero_or_one i
  · have hi : 2 * (i / 2) = i := by omega
    rw [hi] at h hlow hlow'
    apply UInt8.toNat_inj.mp
    omega
  · have hi : 2 * (i / 2) + 1 = i := by omega
    rw [hi] at h
    apply UInt8.toNat_inj.mp
    omega

theorem byte_eq_of_slice {b c : Buffer n} {lo hi i : Nat} (h : b.slice lo hi = c.slice lo hi)
    (hlo : lo ≤ i) (hhi : i < hi) : b.byte i = c.byte i := by
  have hget := congrArg (·.getD (i - lo) 0) h
  simp only [getD_slice] at hget
  rwa [if_pos (by omega), if_pos (by omega), Nat.add_sub_cancel' hlo] at hget

end Buffer

namespace Page

/-- The page shows what inserting the pairs in turn into the empty page gives; what its free
bytes hold does not matter. -/
def Encodes (page : Page) (pairs : List Pair) : Prop :=
  weight pairs ≤ 1022 ∧ ∃ written, ofList pairs = .ok written ∧
    ∀ i < pageSize, ¬ page.IsFree i → page.bytes.byte i = written.bytes.byte i

theorem InOrder.foldlM_insert {page : Page} (h : page.InOrder) (hblank : page.IsBlank)
    (pairs : List Pair) (hroom : weight page.toList + weight pairs ≤ 1022) :
    ∃ page', pairs.foldlM Page.insert page = .ok page' ∧ page'.InOrder ∧ page'.IsBlank ∧
      page'.toList = page.toList ++ pairs := by
  induction pairs generalizing page with
  | nil => exact ⟨page, rfl, h, hblank, (List.append_nil _).symm⟩
  | cons pair rest ih =>
    rw [weight_cons] at hroom
    have hfirst : weight page.toList + pair.footprint ≤ 1022 := by omega
    have hfits := h.footprint_le_room hfirst
    have hlist := toList_appended h hfits
    have hrest : weight (page.appended pair).toList + weight rest ≤ 1022 := by
      rw [hlist, weight_append, weight_cons, weight_nil]
      omega
    obtain ⟨page', hfold, horder, hblank', hlist'⟩ :=
      ih (inOrder_appended h hfits) (isBlank_appended h hfits hblank) hrest
    refine ⟨page', ?_, horder, hblank', ?_⟩
    · rw [List.foldlM_cons, h.insert_eq_appended hfirst]
      exact hfold
    · rw [hlist', hlist, List.append_assoc, List.singleton_append]

/-- A list of pairs for which there is space fills a page, and nothing else is on it. -/
theorem exists_ofList {pairs : List Pair} (h : weight pairs ≤ 1022) :
    ∃ page, ofList pairs = .ok page ∧ page.LaysOut pairs ∧ page.IsBlank := by
  obtain ⟨page, hpage, horder, hblank, hlist⟩ := inOrder_empty.foldlM_insert isBlank_empty pairs (by
    rw [toList_empty, weight_nil, Nat.zero_add]
    exact h)
  rw [toList_empty, List.nil_append] at hlist
  exact ⟨page, hpage, hlist ▸ horder.laysOut, hblank⟩

section LaysOut

variable {page other : Page} {pairs : List Pair} (h : page.LaysOut pairs)
  (h' : other.LaysOut pairs)
include h h'

theorem LaysOut.slot_eq {j : Nat} (hj : j ≤ 2 * pairs.length) : page.slot j = other.slot j := by
  obtain rfl | hpos := Nat.eq_zero_or_pos j
  · exact h.count.trans h'.count.symm
  · have hpair : (j - 1) / 2 < pairs.length := by omega
    obtain ⟨hkey, hvalue, -⟩ := h.placed _ hpair
    obtain ⟨hkey', hvalue', -⟩ := h'.placed _ hpair
    obtain hodd | heven := Nat.mod_two_eq_zero_or_one (j - 1)
    · rw [show j = 2 * ((j - 1) / 2) + 1 by omega]
      exact hkey.trans hkey'.symm
    · rw [show j = 2 * ((j - 1) / 2) + 2 by omega]
      exact hvalue.trans hvalue'.symm

theorem LaysOut.byte_eq_of_edge_le {p i : Nat} (hp : p ≤ pairs.length) (hlo : page.edge p ≤ i)
    (hhi : i < 1024) : page.bytes.byte i = other.bytes.byte i := by
  induction p with
  | zero =>
    exact absurd hlo (Nat.not_le_of_lt hhi)
  | succ p ih =>
    by_cases habove : page.edge p ≤ i
    · exact ih (Nat.le_of_succ_le hp) habove
    · obtain ⟨-, hvalue, hkeyBytes, hvalueBytes⟩ := h.placed p hp
      obtain ⟨-, -, hkeyBytes', hvalueBytes'⟩ := h'.placed p hp
      rw [h.edge_eq (Nat.le_of_succ_le hp)] at habove
      rw [edge_succ, hvalue] at hlo
      by_cases hkey : 1024 - content (pairs.take p) - pairs[p].key.length ≤ i
      · exact Buffer.byte_eq_of_slice (hkeyBytes.trans hkeyBytes'.symm) hkey (by omega)
      · exact Buffer.byte_eq_of_slice (hvalueBytes.trans hvalueBytes'.symm) hlo (by omega)

/-- Pages of one list differ in their free bytes alone. -/
theorem LaysOut.byte_eq {i : Nat} (hi : i < pageSize) (hfree : ¬ page.IsFree i) :
    page.bytes.byte i = other.bytes.byte i := by
  rw [h.inOrder.isFree_iff, indexEnd, h.count, h.size_eq, not_and_or, Nat.not_le,
    Nat.not_lt] at hfree
  obtain hindex | hdata := hfree
  · exact Buffer.byte_eq_of_word (h.slot_eq h' (by omega))
  · exact h.byte_eq_of_edge_le h' (Nat.le_refl _) hdata hi

end LaysOut

section Written

variable {page written : Page} {pairs : List Pair}

theorem slot_eq_of_byte_eq
    (hbytes : ∀ i < pageSize, ¬ page.IsFree i → page.bytes.byte i = written.bytes.byte i)
    {j : Nat} (hj : j ≤ page.slotsUsed) (hpage : 2 * j + 1 < pageSize) :
    page.slot j = written.slot j := by
  have hindex {i : Nat} (hi : i ≤ 2 * j + 1) : page.bytes.byte i = written.bytes.byte i := by
    apply hbytes i (hi.trans_lt hpage)
    rintro ⟨hbehind, -⟩
    rw [indexEnd] at hbehind
    omega
  simp only [slot, Buffer.word]
  rw [hindex (Nat.le_succ _), hindex (Nat.le_refl _)]

theorem LaysOut.isFree_congr (h : written.LaysOut pairs)
    (hslots : ∀ j ≤ 2 * pairs.length, page.slot j = written.slot j) (i : Nat) :
    page.IsFree i ↔ written.IsFree i := by
  have hcount : page.slotsUsed = written.slotsUsed := hslots 0 (Nat.zero_le _)
  have hoffsets (j : Nat) (hj : j < written.slotsUsed) :
      i < page.slot (j + 1) ↔ i < written.slot (j + 1) := by
    rw [hslots (j + 1) (h.count ▸ hj)]
  simp only [IsFree, indexEnd, hcount]
  exact and_congr_right' (and_congr_right' (forall₂_congr hoffsets))

theorem LaysOut.of_byte_eq (h : written.LaysOut pairs)
    (hbytes : ∀ i < pageSize, ¬ page.IsFree i → page.bytes.byte i = written.bytes.byte i) :
    page.LaysOut pairs := by
  have hlimit := h.content_le pairs.length
  rw [List.take_length] at hlimit
  have hcount : page.slotsUsed = 2 * pairs.length :=
    (slot_eq_of_byte_eq hbytes (Nat.zero_le _) (by decide)).trans h.count
  have hslots (j : Nat) (hj : j ≤ 2 * pairs.length) : page.slot j = written.slot j :=
    slot_eq_of_byte_eq hbytes (hcount ▸ hj) (by change 2 * j + 1 < 1024; omega)
  have hdata {i : Nat} (hlo : 1024 - content pairs ≤ i) (hhi : i < 1024) :
      page.bytes.byte i = written.bytes.byte i := by
    apply hbytes i hhi
    rw [h.isFree_congr hslots, h.inOrder.isFree_iff, h.size_eq, h.edge_eq (Nat.le_refl _),
      List.take_length]
    exact fun hfree => absurd hfree.2 (Nat.not_lt_of_le hlo)
  refine ⟨hcount, h.weight_le, fun p hp => ?_⟩
  obtain ⟨hkey, hvalue, hkeyBytes, hvalueBytes⟩ := h.placed p hp
  have hall := content_take_le pairs (p + 1)
  rw [content_take_succ hp, Pair.size] at hall
  refine ⟨(hslots _ (by omega)).trans hkey, (hslots _ (by omega)).trans hvalue,
    Eq.trans ?_ hkeyBytes, Eq.trans ?_ hvalueBytes⟩
  · exact Buffer.slice_eq_slice rfl fun k hk => hdata (by omega) (by omega)
  · exact Buffer.slice_eq_slice rfl fun k hk => hdata (by omega) (by omega)

end Written

theorem encodes_iff (page : Page) (pairs : List Pair) :
    page.Encodes pairs ↔ page.LaysOut pairs := by
  constructor
  · rintro ⟨hweight, written, hwritten, hbytes⟩
    obtain ⟨written', hwritten', hlaysOut, -⟩ := exists_ofList hweight
    cases hwritten.symm.trans hwritten'
    exact hlaysOut.of_byte_eq hbytes
  · intro h
    obtain ⟨written, hwritten, hlaysOut, -⟩ := exists_ofList h.weight_le
    exact ⟨h.weight_le, written, hwritten, fun i hi hfree => h.byte_eq hlaysOut hi hfree⟩

/-- A buffer is a well-formed page just when it encodes a list of pairs. It encodes one list
only, the one that it yields, and it is written again from that list but for its free bytes. -/
theorem isWellFormed_iff_encodes (page : Page) :
    (page.isWellFormed = true ↔ ∃ pairs, page.Encodes pairs) ∧
      (∀ pairs, page.Encodes pairs →
        page.toList = pairs ∧ ∀ other, page.Encodes other → other = pairs) ∧
      (page.isWellFormed = true → page.Encodes page.toList) := by
  have hencodes : page.isWellFormed = true → page.Encodes page.toList := fun hformed =>
    (encodes_iff _ _).mpr ((laysOut_iff _ _).mpr ⟨hformed, rfl⟩)
  have hlist {pairs : List Pair} (h : page.Encodes pairs) :
      page.isWellFormed = true ∧ page.toList = pairs :=
    (laysOut_iff _ _).mp ((encodes_iff _ _).mp h)
  refine ⟨⟨fun hformed => ⟨_, hencodes hformed⟩, ?_⟩, ?_, hencodes⟩
  · rintro ⟨pairs, h⟩
    exact (hlist h).1
  · intro pairs h
    exact ⟨(hlist h).2, fun other hother => (hlist hother).2.symm.trans (hlist h).2⟩

def worn : Page :=
  empty.edits [.insert ⟨[107], [1]⟩, .insert ⟨[], []⟩, .insert ⟨[108], [2]⟩, .erase [108]]

theorem isWellFormed_iff_encodes_worn :
    worn.isWellFormed = true ∧ worn.Encodes [⟨[107], [1]⟩, ⟨[], []⟩] ∧
      worn.IsFree 1021 ∧ worn.bytes.byte 1021 = 108 := by
  obtain ⟨-, -, hencodes⟩ := isWellFormed_iff_encodes worn
  have hformed : worn.isWellFormed = true := by decide +kernel
  have hlist : worn.toList = [⟨[107], [1]⟩, ⟨[], []⟩] := by decide +kernel
  exact ⟨hformed, hlist ▸ hencodes hformed, by decide +kernel, by decide +kernel⟩

end Page

end PageTrie
