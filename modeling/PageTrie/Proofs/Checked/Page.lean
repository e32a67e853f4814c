import PageTrie.Proofs.Checked.Arithmetic
import PageTrie.Proofs.Page.Division

/-! Looking at a page with every sum, offset and slice checked. Whatever the bytes of the
page are, none of the checks fails and the operations come to the same. -/
namespace PageTrie.Checked

def slot (page : Page) (i : Nat) : Checked Nat := do
  let pos ← mul 2 i
  let low ← byte page.bytes pos
  let next ← add pos 1
  let high ← byte page.bytes next
  return low.toNat + 256 * high.toNat

def setSlot (page : Page) (i value : Nat) : Checked Page := do
  let pos ← mul 2 i
  let word ← narrow value
  let stop ← add pos 2
  let bytes ← patch page.bytes pos stop [UInt8.ofNat word, UInt8.ofNat (word / 256)]
  return ⟨bytes⟩

def pairCount (page : Page) : Checked Nat := do
  let used ← slot page 0
  return used / 2

def indexEnd (page : Page) : Checked Nat := do
  let used ← slot page 0
  let count ← add used 1
  mul count 2

def dataStart (page : Page) : Checked Nat := do
  let used ← slot page 0
  if used = 0 then return pageSize
  else
    let stop ← indexEnd page
    if pageSize < stop then return 0
    else
      let low ← slot page used
      return if pageSize < low then 0 else low

def freeSpace (page : Page) : Checked Nat := do
  let low ← dataStart page
  let stop ← indexEnd page
  return low - stop

def fits (page : Page) (need : Nat) : Checked Bool := do
  let total ← add need 4
  let free ← freeSpace page
  return decide (total ≤ free)

section

variable (page : Page)

theorem slot_eq {i : Nat} (h : i < 512) : slot page i = .ok (page.slot i) := by
  have hlow := byte_eq page.bytes (show 2 * i < pageSize by change _ < 1024; omega)
  have hhigh := byte_eq page.bytes (show 2 * i + 1 < pageSize by change _ < 1024; omega)
  unfold slot
  simp (disch := omega) only [mul_eq, add_eq, ok_bind, hlow, hhigh, pure_eq]
  rfl

theorem setSlot_eq {i value : Nat} (h : i < 512) (hvalue : value < 65536) :
    setSlot page i value = .ok (page.setSlot i value) := by
  have hstop : 2 * i + 2 ≤ pageSize := by
    change _ ≤ 1024
    omega
  have hlength : [UInt8.ofNat value, UInt8.ofNat (value / 256)].length =
      2 * i + 2 - 2 * i := by
    rw [Nat.add_sub_cancel_left]
    rfl
  unfold setSlot
  simp (disch := omega) only [mul_eq, add_eq, narrow_eq, ok_bind, pure_eq,
    patch_eq page.bytes (Nat.le_add_right (2 * i) 2) hstop hlength]
  rfl

theorem pairCount_eq : pairCount page = .ok page.size := by
  unfold pairCount
  rw [slot_eq page (by decide), ok_bind]
  rfl

theorem indexEnd_eq : indexEnd page = .ok page.indexEnd := by
  have hused := page.slot_lt 0
  unfold indexEnd
  simp (disch := omega) only [slot_eq, add_eq, mul_eq, ok_bind]
  rfl

theorem dataStart_eq : dataStart page = .ok page.dataFloor := by
  unfold dataStart Page.dataFloor
  rw [slot_eq page (by decide), ok_bind, ← Page.slotsUsed]
  by_cases hzero : page.slotsUsed = 0
  · rw [if_pos hzero, if_pos hzero]
    rfl
  rw [if_neg hzero, if_neg hzero, indexEnd_eq, ok_bind]
  by_cases hindex : pageSize < page.indexEnd
  · rw [if_pos hindex, if_pos hindex]
    rfl
  have hused : page.slotsUsed < 512 := by
    change ¬ 1024 < (page.slotsUsed + 1) * 2 at hindex
    omega
  rw [if_neg hindex, if_neg hindex, slot_eq page hused, ok_bind]
  rfl

theorem freeSpace_eq : freeSpace page = .ok page.room := by
  unfold freeSpace
  rw [dataStart_eq, indexEnd_eq]
  rfl

theorem fits_eq {need : Nat} (h : need + 4 < counterRange) :
    fits page need = .ok (page.hasRoom need) := by
  unfold fits
  rw [add_eq h, freeSpace_eq, Page.hasRoom, Nat.mod_eq_of_lt h]
  rfl

end

/-- Where pair `p` ends: at the offset in slot `i`, but for the first pair. -/
def edge (page : Page) (p i : Nat) : Checked Nat :=
  if p = 0 then .ok pageSize else slot page i

def bounds (page : Page) (p : Nat) : Checked (Option Extent) := do
  let count ← pairCount page
  if count ≤ p then return none
  else
    let double ← mul 2 p
    let last ← add double 3
    let stop ← mul last 2
    if pageSize < stop then return none
    else
      let keyEnd ← edge page p double
      let first ← add double 1
      let keyStart ← slot page first
      let second ← add double 2
      let valueStart ← slot page second
      return if valueStart ≤ keyStart ∧ keyStart ≤ keyEnd ∧ keyEnd ≤ pageSize then
        some ⟨valueStart, keyStart, keyEnd⟩
      else none

def pairAt (page : Page) (p : Nat) : Checked (Option Pair) := do
  match ← bounds page p with
  | none => return none
  | some extent =>
    let key ← slice page.bytes extent.keyStart extent.keyEnd
    let value ← slice page.bytes extent.valueStart extent.keyStart
    return some ⟨key, value⟩

def keyAt (page : Page) (p : Nat) : Checked (Option Bytes) := do
  let pair ← pairAt page p
  return pair.map (·.key)

def position (page : Page) (key : Bytes) : Checked (Option Nat) := do
  let count ← pairCount page
  (List.range count).findM? fun p => do
    let found ← keyAt page p
    return found == some key

def value? (page : Page) (key : Bytes) : Checked (Option Bytes) := do
  match ← position page key with
  | none => return none
  | some p =>
    let pair ← pairAt page p
    return pair.map (·.value)

def contains (page : Page) (key : Bytes) : Checked Bool := do
  let found ← position page key
  return found.isSome

section

variable (page : Page)

theorem edge_eq (p : Nat) {i : Nat} (h : i < 512) :
    edge page p i = .ok (if p = 0 then pageSize else page.slot i) := by
  unfold edge
  split
  · rfl
  · exact slot_eq page h

theorem bounds_eq (p : Nat) : bounds page p = .ok (page.extent? p) := by
  have hused := page.slot_lt 0
  unfold bounds Page.extent?
  rw [pairCount_eq, ok_bind]
  by_cases hp : page.size ≤ p
  · rw [if_pos hp, if_pos (Or.inl hp)]
    rfl
  have hsize : page.size = page.slot 0 / 2 := rfl
  simp (disch := omega) only [if_neg hp, mul_eq, add_eq, ok_bind]
  by_cases hstop : pageSize < (2 * p + 3) * 2
  · rw [if_pos hstop, if_pos (Or.inr hstop)]
    rfl
  have hlast : 2 * p + 3 ≤ 512 := by
    change ¬ 1024 < (2 * p + 3) * 2 at hstop
    omega
  rw [if_neg hstop, if_neg (not_or.mpr ⟨hp, hstop⟩)]
  simp (disch := omega) only [edge_eq, slot_eq, ok_bind]
  rfl

theorem extent_bounds {p : Nat} {extent : Extent} (h : page.extent? p = some extent) :
    p < page.size ∧ extent.valueStart ≤ extent.keyStart ∧ extent.keyStart ≤ extent.keyEnd ∧
      extent.keyEnd ≤ pageSize := by
  unfold Page.extent? at h
  by_cases hguard : page.size ≤ p ∨ pageSize < (2 * p + 3) * 2
  · rw [if_pos hguard] at h
    cases h
  rw [if_neg hguard] at h
  obtain ⟨horder, heq⟩ := Option.ite_none_right_eq_some.mp h
  rw [← Option.some.inj heq]
  exact ⟨Nat.lt_of_not_le fun hle => hguard (Or.inl hle), horder⟩

theorem pairAt_eq (p : Nat) : pairAt page p = .ok (page.pair? p) := by
  unfold pairAt Page.pair?
  rw [bounds_eq, ok_bind]
  cases hextent : page.extent? p with
  | none => rfl
  | some extent =>
    obtain ⟨-, hvalue, hkey, hend⟩ := extent_bounds page hextent
    dsimp only
    rw [slice_eq _ hkey hend, ok_bind, slice_eq _ hvalue (hkey.trans hend)]
    rfl

theorem keyAt_eq (p : Nat) : keyAt page p = .ok (page.key? p) := by
  unfold keyAt
  rw [pairAt_eq]
  rfl

theorem findM?_eq {α : Type} (f : α → Bool) (xs : List α) :
    xs.findM? (fun x => (.ok (f x) : Checked Bool)) = .ok (xs.find? f) := by
  induction xs with
  | nil => rfl
  | cons x xs ih =>
    rw [List.findM?, List.find?, ih]
    cases f x <;> rfl

theorem position_eq (key : Bytes) : position page key = .ok (page.indexOf? key) := by
  unfold position
  rw [pairCount_eq, ok_bind]
  simp only [keyAt_eq, ok_bind, pure_eq]
  exact findM?_eq _ _

theorem value?_eq (key : Bytes) : value? page key = .ok (page.get? key) := by
  unfold value? Page.get?
  rw [position_eq, ok_bind]
  cases page.indexOf? key with
  | none => rfl
  | some p =>
    dsimp only
    rw [pairAt_eq, ok_bind]
    cases hpair : page.pair? p <;> simp [hpair]

theorem contains_eq (key : Bytes) : contains page key = .ok (page.contains key) := by
  unfold contains
  rw [position_eq]
  rfl

end

end PageTrie.Checked
