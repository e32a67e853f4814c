import Mathlib
import PageTrie.Page.Basic

/-! How much room a page of any bytes has, and which needs are let in. The room is the gap between
the index and the data. The guard adds to a need in 64 bits, so that it is exact but for the four
largest needs: their sums wrap round, and pass for small ones. -/
namespace PageTrie.Page

/-- The slots in use do not fit on the page, or the last of them points past it. -/
def IsBogus (page : Page) : Prop :=
  page.slotsUsed ≠ 0 ∧ (pageSize < page.indexEnd ∨ pageSize < page.slot page.slotsUsed)

instance (page : Page) : Decidable page.IsBogus := inferInstanceAs (Decidable (_ ∧ _))

def dataStart (page : Page) : Nat :=
  if page.slotsUsed = 0 then pageSize else page.slot page.slotsUsed

/-- The bytes between the index and the data; none on a bogus page. -/
def gap (page : Page) : Finset Nat :=
  if page.IsBogus then ∅ else Finset.Ico page.indexEnd page.dataStart

theorem dataFloor_of_isBogus {page : Page} (h : page.IsBogus) : page.dataFloor = 0 := by
  obtain ⟨hused, hbogus⟩ := h
  rw [dataFloor, if_neg hused]
  split
  · rfl
  · next hindex => rw [if_pos (hbogus.resolve_left hindex)]

theorem dataFloor_of_not_isBogus {page : Page} (h : ¬ page.IsBogus) :
    page.dataFloor = page.dataStart := by
  unfold dataFloor dataStart
  split
  · rfl
  · next hused =>
    have hsane : ¬ pageSize < page.indexEnd ∧ ¬ pageSize < page.slot page.slotsUsed :=
      not_or.mp fun hbogus => h ⟨hused, hbogus⟩
    rw [if_neg hsane.1, if_neg hsane.2]

theorem room_eq_card_gap (page : Page) : page.room = page.gap.card := by
  unfold room gap
  split
  · next hbogus => rw [dataFloor_of_isBogus hbogus, Nat.zero_sub, Finset.card_empty]
  · next hsane => rw [dataFloor_of_not_isBogus hsane, Nat.card_Ico]

theorem room_lt (page : Page) : page.room < counterRange - 4 := by
  have hfloor : page.dataFloor ≤ 65536 := by
    have hslot := page.slot_lt page.slotsUsed
    unfold dataFloor
    split
    · decide
    · split
      · exact Nat.zero_le _
      · split <;> omega
  refine (Nat.sub_le _ _).trans_lt (hfloor.trans_lt ?_)
  decide

theorem hasRoom_of_lt (page : Page) {need : Nat} (h : need < counterRange - 4) :
    page.hasRoom need = true ↔ need + 4 ≤ page.room := by
  have hsum : need + 4 < counterRange := Nat.add_lt_of_lt_sub h
  rw [hasRoom, Nat.mod_eq_of_lt hsum, decide_eq_true_eq]

theorem hasRoom_of_le (page : Page) {need : Nat} (h : counterRange - 4 ≤ need)
    (hneed : need < counterRange) :
    page.hasRoom need = true ↔ need + 4 - counterRange ≤ page.room := by
  have hover : counterRange ≤ need + 4 := Nat.sub_le_iff_le_add.mp h
  have hrest : need + 4 - counterRange < counterRange := by
    change need < 0x10000000000000000 at hneed
    change need + 4 - 0x10000000000000000 < 0x10000000000000000
    omega
  rw [hasRoom, Nat.mod_eq_sub_mod hover, Nat.mod_eq_of_lt hrest, decide_eq_true_eq]

theorem antitoneOn_hasRoom (page : Page) :
    AntitoneOn page.hasRoom (Set.Iio (counterRange - 4)) := by
  intro small hsmall large hlarge hle
  rw [Bool.le_iff_imp]
  intro hroom
  rw [page.hasRoom_of_lt hlarge] at hroom
  rw [page.hasRoom_of_lt hsmall]
  omega

theorem not_antitoneOn_hasRoom (page : Page) :
    ¬ AntitoneOn page.hasRoom (Set.Iio counterRange) := by
  intro hantitone
  have hroom := page.room_lt
  have hlarge : page.hasRoom (counterRange - 4) = true :=
    (page.hasRoom_of_le (Nat.le_refl _) (by decide)).mpr (Nat.zero_le _)
  have hsmall : page.hasRoom (counterRange - 5) = false := by
    rw [← Bool.not_eq_true, page.hasRoom_of_lt (by decide)]
    omega
  have hle := @hantitone (counterRange - 5) (by decide) (counterRange - 4) (by decide) (by decide)
  rw [hlarge, hsmall] at hle
  exact absurd hle (by decide)

/-- On a page of any bytes the room is the gap between the index and the data, and a need is let
in if it fits there with its two slots. The four largest needs are the exception: they are let in
if what their sum leaves past the range fits. So a larger need is never let in where a smaller one
is not, up to these, and with them on no page. -/
theorem hasRoom_iff_card_gap (page : Page) :
    page.room = page.gap.card ∧
      (∀ need < counterRange, page.hasRoom need = true ↔
        need + 4 ≤ page.gap.card ∨
          counterRange ≤ need + 4 ∧ need + 4 - counterRange ≤ page.gap.card) ∧
      AntitoneOn page.hasRoom (Set.Iio (counterRange - 4)) ∧
      ¬ AntitoneOn page.hasRoom (Set.Iio counterRange) := by
  refine ⟨page.room_eq_card_gap, fun need hneed => ?_, page.antitoneOn_hasRoom,
    page.not_antitoneOn_hasRoom⟩
  have hroom := page.room_lt
  rw [← room_eq_card_gap]
  obtain hlt | hle := Nat.lt_or_ge need (counterRange - 4)
  · rw [page.hasRoom_of_lt hlt]
    omega
  · rw [page.hasRoom_of_le hle hneed]
    omega

theorem hasRoom_of_huge_need :
    empty.hasRoom 18446744073709551612 = true ∧ empty.gap.card = 1022 ∧
      ¬ 18446744073709551612 + 4 ≤ empty.gap.card := by
  have hgap : empty.gap.card = 1022 := by rw [← room_eq_card_gap, room_empty]
  refine ⟨?_, hgap, by omega⟩
  rw [hasRoom, room_empty]
  decide

def bogusPage : Page := ⟨Buffer.ofBytes pageSize [255, 255, 0, 1]⟩

theorem hasRoom_iff_card_gap_bogus :
    bogusPage.IsBogus ∧ 0 < counterRange ∧ bogusPage.hasRoom 0 = false ∧
      counterRange - 4 < counterRange ∧ bogusPage.hasRoom (counterRange - 4) = true := by
  have hbogus : bogusPage.IsBogus := by decide +kernel
  have hgap : bogusPage.gap.card = 0 := by rw [gap, if_pos hbogus, Finset.card_empty]
  obtain ⟨-, hlets, -, -⟩ := hasRoom_iff_card_gap bogusPage
  rw [hgap] at hlets
  refine ⟨hbogus, by decide, ?_, by decide, ?_⟩
  · rw [← Bool.not_eq_true, hlets 0 (by decide)]
    decide
  · rw [hlets _ (by decide)]
    decide

end PageTrie.Page
