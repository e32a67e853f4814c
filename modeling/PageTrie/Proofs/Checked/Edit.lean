import PageTrie.Proofs.Checked.Page

/-! Inserting, removing and splitting with every sum, offset and slice checked. What a page is
checked for on removal bounds every slot that is then shifted, and room for a pair bounds where its
bytes go. -/
namespace PageTrie.Checked

def insert (page : Page) (pair : Pair) : Checked (Except StoreError Page) := do
  let need ← add pair.key.length pair.value.length
  if ← fits page need then
    let used ← slot page 0
    let low ← dataStart page
    let keyStart ← sub low pair.key.length
    let keyEnd ← add keyStart pair.key.length
    let bytes ← patch page.bytes keyStart keyEnd pair.key
    let valueStart ← sub keyStart pair.value.length
    let bytes ← patch bytes valueStart keyStart pair.value
    let first ← add used 1
    let page ← setSlot ⟨bytes⟩ first keyStart
    let second ← add used 2
    let page ← setSlot page second valueStart
    let page ← setSlot page 0 second
    return .ok page
  else
    let free ← freeSpace page
    return .error (.pageFull need free)

theorem dataFloor_le (page : Page) : page.dataFloor ≤ 1024 := by
  unfold Page.dataFloor
  split
  · exact Nat.le_refl _
  · split
    · exact Nat.zero_le _
    · split
      · exact Nat.zero_le _
      · next hlow => exact Nat.le_of_not_lt hlow

theorem insert_eq (page : Page) {pair : Pair} (h : pair.size + 4 < counterRange) :
    insert page pair = .ok (page.insert pair) := by
  have hsize : pair.size = pair.key.length + pair.value.length := rfl
  unfold insert Page.insert
  rw [add_eq (by change _ < counterRange; omega), ok_bind, ← hsize, fits_eq page h, ok_bind]
  cases hroom : page.hasRoom pair.size with
  | false =>
    rw [if_neg Bool.false_ne_true, if_neg Bool.false_ne_true, freeSpace_eq]
    rfl
  | true =>
    have hfloor := dataFloor_le page
    have hspace : pair.size + 4 + (page.slotsUsed + 1) * 2 ≤ page.dataFloor := by
      rw [Page.hasRoom, Nat.mod_eq_of_lt h, decide_eq_true_eq, Page.room, Page.indexEnd] at hroom
      omega
    rw [if_pos rfl, if_pos rfl, slot_eq page (by decide), ok_bind, dataStart_eq, ok_bind,
      ← Page.slotsUsed]
    simp (disch := omega) only [sub_eq, add_eq, ok_bind]
    rw [patch_eq page.bytes (by omega) (by change _ ≤ 1024; omega) (by omega), ok_bind,
      patch_eq _ (by omega) (by change _ ≤ 1024; omega) (by omega), ok_bind]
    simp (disch := omega) only [setSlot_eq, ok_bind]
    rfl

/-- Follows the offsets of `count` pairs down from `top`; none if one goes up. -/
def lowest (page : Page) (p top : Nat) : (count : Nat) → Checked (Option Nat)
  | 0 => return some top
  | count + 1 => do
    let double ← mul 2 p
    let first ← add double 1
    let keyStart ← slot page first
    let second ← add double 2
    let valueStart ← slot page second
    if top < keyStart ∨ keyStart < valueStart then return none
    else lowest page (p + 1) valueStart count

def isValid (page : Page) : Checked Bool := do
  let used ← slot page 0
  let stop ← indexEnd page
  if used % 2 ≠ 0 ∨ pageSize < stop then return false
  else
    match ← lowest page 0 pageSize (used / 2) with
    | none => return false
    | some low => return decide (stop ≤ low)

def shiftSlots (page : Page) (gap i : Nat) : (count : Nat) → Checked Page
  | 0 => return page
  | count + 1 => do
    let source ← add i 2
    let offset ← slot page source
    let raised ← add offset gap
    let page ← setSlot page i raised
    shiftSlots page gap (i + 1) count

def closeGap (page : Page) (p : Nat) : Checked Page := do
  let used ← slot page 0
  let double ← mul 2 p
  let i ← add double 1
  let last ← sub used 1
  if i < last then
    let above ← sub i 1
    let top ← edge page p above
    let below ← add i 1
    let bottom ← slot page below
    let gap ← sub top bottom
    let low ← slot page used
    let pos ← add low gap
    let bytes ← copy page.bytes low bottom pos
    let page ← shiftSlots ⟨bytes⟩ gap i (last - i)
    let left ← sub used 2
    setSlot page 0 left
  else
    let left ← sub used 2
    setSlot page 0 left

def remove (page : Page) (key : Bytes) : Checked (Option Page) := do
  if ← isValid page then
    match ← position page key with
    | none => return none
    | some p =>
      let page ← closeGap page p
      return some page
  else return none

section

variable (page : Page)

theorem lowest_eq (count p top : Nat) (h : 2 * (p + count) < 512) :
    lowest page p top count = .ok (Page.lowest? top ((List.range' p count).map fun q =>
      (page.slot (2 * q + 1), page.slot (2 * q + 2)))) := by
  induction count generalizing p top with
  | zero => rfl
  | succ count ih =>
    rw [List.range'_succ, List.map_cons, Page.lowest?, lowest]
    simp (disch := omega) only [mul_eq, add_eq, slot_eq, ok_bind]
    by_cases horder : page.slot (2 * p + 1) ≤ top ∧ page.slot (2 * p + 2) ≤ page.slot (2 * p + 1)
    · rw [if_pos horder, if_neg (by omega), ih _ _ (by omega)]
    · rw [if_neg horder, if_pos (by omega)]
      rfl

theorem isValid_eq : isValid page = .ok page.isWellFormed := by
  unfold isValid Page.isWellFormed
  rw [slot_eq page (by decide), ok_bind, indexEnd_eq, ok_bind, ← Page.slotsUsed]
  by_cases hguard : page.slotsUsed % 2 ≠ 0 ∨ pageSize < page.indexEnd
  · have hrefused : (page.slotsUsed % 2 == 0 && decide (page.indexEnd ≤ pageSize)) = false := by
      rw [← Bool.not_eq_true, Bool.and_eq_true, beq_iff_eq, decide_eq_true_eq]
      omega
    rw [if_pos hguard, hrefused]
    rfl
  · obtain ⟨heven, hindex⟩ := not_or.mp hguard
    have hadmitted : (page.slotsUsed % 2 == 0 && decide (page.indexEnd ≤ pageSize)) = true := by
      rw [Bool.and_eq_true, beq_iff_eq, decide_eq_true_eq]
      exact ⟨not_not.mp heven, Nat.le_of_not_lt hindex⟩
    have hused : 2 * (0 + page.slotsUsed / 2) < 512 := by
      change ¬ 1024 < (page.slotsUsed + 1) * 2 at hindex
      omega
    have hoffsets : page.offsets = (List.range' 0 (page.slotsUsed / 2)).map fun q =>
        (page.slot (2 * q + 1), page.slot (2 * q + 2)) := by
      rw [← List.range_eq_range']
      rfl
    rw [if_neg hguard, hadmitted, Bool.true_and, lowest_eq page _ _ _ hused, ok_bind, ← hoffsets]
    cases Page.lowest? pageSize page.offsets <;> rfl

theorem shiftSlots_eq (gap i count : Nat) (h : i + count + 2 ≤ 512)
    (hraised : ∀ k, i ≤ k → k < i + count → page.slot (k + 2) + gap < 65536) :
    shiftSlots page gap i count = .ok (page.shiftSlots gap i count) := by
  induction count generalizing page i with
  | zero => rfl
  | succ count ih =>
    have hslot := page.slot_lt (i + 2)
    have hfirst := hraised i (Nat.le_refl i) (by omega)
    rw [shiftSlots, Page.shiftSlots]
    simp (disch := omega) only [add_eq, slot_eq, setSlot_eq, ok_bind]
    apply ih _ _ (by omega)
    intro k hlo hhi
    rw [Page.slot_setSlot _ _ _ _ (by change _ < 1024; omega), if_neg (by omega)]
    exact hraised k (by omega) (by omega)

theorem closeGap_eq (h : page.InOrder) {p : Nat} (hp : p < page.size) :
    closeGap page p = .ok (page.closeGap p) := by
  have heven := h.even
  obtain ⟨hrest, hdown, htop, hindex⟩ := Page.gap_bounds h hp
  have hlow := Page.slot_slotsUsed h hp
  have habove : (if p = 0 then pageSize else page.slot (2 * p + 1 - 1)) = page.edge p := rfl
  change page.edge p ≤ 1024 at htop
  unfold closeGap Page.closeGap
  rw [slot_eq page (by decide), ok_bind, ← Page.slotsUsed]
  simp (disch := omega) only [mul_eq, add_eq, sub_eq, ok_bind]
  by_cases hlast : 2 * p + 1 < page.slotsUsed - 1
  · have hbelow : page.slot (2 * p + 1 + 1) = page.edge (p + 1) := rfl
    rw [if_pos hlast, if_pos hlast]
    simp (disch := omega) only [edge_eq, slot_eq, ok_bind]
    rw [habove, hbelow, hlow, sub_eq hdown, ok_bind, add_eq (by omega), ok_bind,
      copy_eq _ hrest (by change _ ≤ 1024; omega) (by change _ ≤ 1024; omega), ok_bind,
      shiftSlots_eq _ _ _ _ (by omega), ok_bind]
    · exact setSlot_eq _ (by decide) (by omega)
    · intro k hlo hhi
      exact (Page.slot_slid_add_le h hp hlo (by omega)).trans_lt (by decide)
  · rw [if_neg hlast, if_neg hlast]
    exact setSlot_eq _ (by decide) (by omega)

theorem remove_eq (key : Bytes) : remove page key = .ok (page.erase? key) := by
  unfold remove Page.erase?
  rw [isValid_eq, ok_bind]
  cases hvalid : page.isWellFormed with
  | false => rfl
  | true =>
    rw [if_pos rfl, if_pos rfl, position_eq, ok_bind]
    cases hfound : page.indexOf? key with
    | none => rfl
    | some p =>
      dsimp only
      rw [closeGap_eq page ((Page.isWellFormed_iff page).mp hvalid) (Page.indexOf?_lt hfound)]
      rfl

end

theorem lt_size_of_pair? (page : Page) {p : Nat} {pair : Pair} (h : page.pair? p = some pair) :
    p < page.size := by
  by_contra hle
  rw [Page.pair?_of_size_le (Nat.le_of_not_lt hle)] at h
  cases h

/-- The next pair of a pass over a page, and where the pass goes on. -/
def nextPair (page : Page) (p : Nat) : Checked (Option (Pair × Nat)) := do
  match ← pairAt page p with
  | none => return none
  | some pair =>
    let next ← add p 1
    return some (pair, next)

theorem nextPair_eq (page : Page) (p : Nat) :
    nextPair page p = .ok ((page.pair? p).map fun pair => (pair, p + 1)) := by
  unfold nextPair
  rw [pairAt_eq, ok_bind]
  cases hpair : page.pair? p with
  | none => rfl
  | some pair =>
    have hp := lt_size_of_pair? page hpair
    have hused := page.slot_lt 0
    have hsize : page.size = page.slot 0 / 2 := rfl
    dsimp only
    rw [add_eq (by omega)]
    rfl

def pairs (page : Page) (p : Nat) : Checked (List Pair) :=
  match _hnext : nextPair page p with
  | .error fault => .error fault
  | .ok none => .ok []
  | .ok (some (pair, next)) => do
    let rest ← pairs page next
    return pair :: rest
termination_by page.size - p
decreasing_by
  rw [nextPair_eq, Except.ok.injEq] at _hnext
  obtain ⟨_, hpair, heq⟩ := Option.map_eq_some_iff.mp _hnext
  have hp := lt_size_of_pair? page hpair
  cases heq
  omega

theorem pairs_eq (page : Page) (p : Nat) :
    pairs page p = .ok (page.listFrom p (page.size - p)) := by
  induction hcount : page.size - p generalizing p with
  | zero =>
    have hnone : page.pair? p = none := Page.pair?_of_size_le (Nat.le_of_sub_eq_zero hcount)
    rw [pairs]
    split
    · next hnext =>
      rw [nextPair_eq] at hnext
      cases hnext
    · rfl
    · next hnext =>
      rw [nextPair_eq, hnone] at hnext
      cases hnext
  | succ count ih =>
    rw [pairs, Page.listFrom]
    split
    · next hnext =>
      rw [nextPair_eq] at hnext
      cases hnext
    · next hnext =>
      rw [nextPair_eq, Except.ok.injEq, Option.map_eq_none_iff] at hnext
      rw [hnext]
    · next hnext =>
      rw [nextPair_eq, Except.ok.injEq] at hnext
      obtain ⟨pair, hpair, heq⟩ := Option.map_eq_some_iff.mp hnext
      cases heq
      rw [hpair, ih (p + 1) (by omega)]
      rfl

def place (bit : UInt32) (halves : Halves) (pair : Pair) : Checked (Except StoreError Halves) :=
  if keyHash pair.key &&& bit ≠ 0 then do
    let moved ← insert halves.moved pair
    return moved.map fun page => { halves with moved := page }
  else do
    let stay ← insert halves.stay pair
    return stay.map fun page => { halves with stay := page }

def placeAll (bit : UInt32) (halves : Halves) : List Pair → Checked (Except StoreError Halves)
  | [] => return .ok halves
  | pair :: rest => do
    match ← place bit halves pair with
    | .ok halves => placeAll bit halves rest
    | .error cause => return .error cause

def split (page : Page) (bit : UInt32) : Checked (Except StoreError Halves) := do
  let pairs ← pairs page 0
  placeAll bit ⟨Page.empty, Page.empty⟩ pairs

theorem place_eq (bit : UInt32) (halves : Halves) {pair : Pair}
    (h : pair.size + 4 < counterRange) :
    place bit halves pair = .ok (Halves.place bit halves pair) := by
  unfold place Halves.place
  split
  · rw [insert_eq _ h]
    rfl
  · rw [insert_eq _ h]
    rfl

theorem placeAll_eq (bit : UInt32) (halves : Halves) (pairs : List Pair)
    (h : ∀ pair ∈ pairs, pair.size + 4 < counterRange) :
    placeAll bit halves pairs = .ok (pairs.foldlM (Halves.place bit) halves) := by
  induction pairs generalizing halves with
  | nil => rfl
  | cons pair rest ih =>
    rw [placeAll, place_eq bit halves (h pair List.mem_cons_self), List.foldlM_cons]
    cases Halves.place bit halves pair with
    | error cause => rfl
    | ok halves => exact ih halves fun pair hpair => h pair (List.mem_cons_of_mem _ hpair)

theorem size_le_of_mem_listFrom (page : Page) {p count : Nat} {pair : Pair}
    (h : pair ∈ page.listFrom p count) : pair.size ≤ pageSize := by
  induction count generalizing p with
  | zero => cases h
  | succ count ih =>
    rw [Page.listFrom] at h
    cases hpair : page.pair? p with
    | none =>
      rw [hpair] at h
      cases h
    | some first =>
      rw [hpair] at h
      obtain rfl | hrest := List.mem_cons.mp h
      · obtain ⟨extent, hextent, rfl⟩ := Option.map_eq_some_iff.mp hpair
        obtain ⟨-, hvalue, hkey, hend⟩ := extent_bounds page hextent
        simp only [Pair.size, Page.cut, Buffer.length_slice]
        omega
      · exact ih hrest

theorem split_eq (page : Page) (bit : UInt32) : split page bit = .ok (page.divide bit) := by
  unfold split Page.divide
  rw [pairs_eq, ok_bind]
  apply placeAll_eq
  intro pair hpair
  have hsize := size_le_of_mem_listFrom page hpair
  change pair.size ≤ 1024 at hsize
  change _ < 0x10000000000000000
  omega

end PageTrie.Checked
