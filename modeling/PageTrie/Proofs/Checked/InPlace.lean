import PageTrie.Proofs.Checked.Directory

/-! Inserting, removing and splitting as they change a page in place: byte by byte, with every sum,
offset and slice checked, and every stretch of the page noted that is written. An offset or a count
is stored only if it lies in the page. -/
namespace PageTrie.Checked

/-- The bytes of a page from one offset up to another. -/
structure Stretch where
  first : Nat
  stop : Nat
  deriving DecidableEq, Repr

namespace Stretch

def ofSlot (i : Nat) : Stretch := ⟨2 * i, 2 * i + 2⟩

def Holds (stretch : Stretch) (i : Nat) : Prop := stretch.first ≤ i ∧ i < stretch.stop

def Apart (stretch other : Stretch) : Prop :=
  stretch.stop ≤ other.first ∨ other.stop ≤ stretch.first

end Stretch

/-- A page that is being changed, and the stretches of it that were written so far. -/
structure Draft where
  page : Page
  written : List Stretch

def Draft.ofPage (page : Page) : Draft := ⟨page, []⟩

abbrev DraftM := CheckedM Draft

def look (reading : Page → Checked α) : DraftM α := do
  let draft ← get
  check (reading draft.page)

def write (first stop : Nat) (bs : Bytes) : DraftM Unit := do
  let draft ← get
  let bytes ← check (patch draft.page.bytes first stop bs)
  set { page := ⟨bytes⟩, written := draft.written ++ [⟨first, stop⟩] : Draft }

def move (lo hi pos : Nat) : DraftM Unit := do
  let draft ← get
  let bytes ← check (copy draft.page.bytes lo hi pos)
  set { page := ⟨bytes⟩, written := draft.written ++ [⟨pos, pos + (hi - lo)⟩] : Draft }

def inPage (offset : Nat) : Checked Nat :=
  if offset ≤ pageSize then .ok offset else .error .outOfRange

def storeSlot (i value : Nat) : DraftM Unit := do
  let draft ← get
  let offset ← check (inPage value)
  let page ← check (setSlot draft.page i offset)
  set { page, written := draft.written ++ [.ofSlot i] : Draft }

def insertPair (pair : Pair) : DraftM Unit := do
  let need ← check (add pair.key.length pair.value.length)
  if ← look (fits · need) then
    let used ← look (slot · 0)
    let low ← look dataStart
    let keyStart ← check (sub low pair.key.length)
    let keyEnd ← check (add keyStart pair.key.length)
    write keyStart keyEnd pair.key
    let valueStart ← check (sub keyStart pair.value.length)
    write valueStart keyStart pair.value
    let first ← check (add used 1)
    storeSlot first keyStart
    let second ← check (add used 2)
    storeSlot second valueStart
    storeSlot 0 second
  else
    let free ← look freeSpace
    throw (.failed (.pageFull need free))

def shiftSlotsDown (gap i : Nat) : (count : Nat) → DraftM Unit
  | 0 => pure ()
  | count + 1 => do
    let source ← check (add i 2)
    let offset ← look (slot · source)
    let raised ← check (add offset gap)
    storeSlot i raised
    shiftSlotsDown gap (i + 1) count

def closeGapOf (p : Nat) : DraftM Unit := do
  let used ← look (slot · 0)
  let double ← check (mul 2 p)
  let i ← check (add double 1)
  let last ← check (sub used 1)
  if i < last then
    let above ← check (sub i 1)
    let top ← look (edge · p above)
    let below ← check (add i 1)
    let bottom ← look (slot · below)
    let gap ← check (sub top bottom)
    let low ← look (slot · used)
    let pos ← check (add low gap)
    move low bottom pos
    shiftSlotsDown gap i (last - i)
  let left ← check (sub used 2)
  storeSlot 0 left

def removeKey (key : Bytes) : DraftM Bool := do
  if ← look isValid then
    match ← look (position · key) with
    | none => return false
    | some p =>
      closeGapOf p
      return true
  else return false

structure Drafts where
  stay : Draft
  moved : Draft

namespace Drafts

def blank : Drafts := ⟨.ofPage .empty, .ofPage .empty⟩

def halves (drafts : Drafts) : Halves := ⟨drafts.stay.page, drafts.moved.page⟩

end Drafts

def onStay (change : DraftM α) : CheckedM Drafts α := fun drafts =>
  match change.run drafts.stay with
  | .ok a stay => .ok a { drafts with stay }
  | .error halt stay => .error halt { drafts with stay }

def onMoved (change : DraftM α) : CheckedM Drafts α := fun drafts =>
  match change.run drafts.moved with
  | .ok a moved => .ok a { drafts with moved }
  | .error halt moved => .error halt { drafts with moved }

def putInHalf (bit : UInt32) (pair : Pair) : CheckedM Drafts Unit :=
  if keyHash pair.key &&& bit ≠ 0 then onMoved (insertPair pair) else onStay (insertPair pair)

def distribute (bit : UInt32) : List Pair → CheckedM Drafts Unit
  | [] => pure ()
  | pair :: rest => do
    putInHalf bit pair
    distribute bit rest

def splitPage (page : Page) (bit : UInt32) : CheckedM Drafts Unit := do
  let all ← check (pairs page 0)
  distribute bit all

section

variable {draft : Draft}

theorem run_check_ok {σ : Type} {state : σ} {x : Checked α} {a : α} (h : x = .ok a) :
    (check x : CheckedM σ α).run state = .ok a state := by
  rw [h]
  rfl

theorem run_look {reading : Page → Checked α} {a : α} (h : reading draft.page = .ok a) :
    (look reading).run draft = .ok a draft := run_check_ok h

theorem run_write {first stop : Nat} {bs : Bytes} (hfirst : first ≤ stop) (hstop : stop ≤ 1024)
    (hlength : bs.length = stop - first) :
    (write first stop bs).run draft =
      .ok () ⟨⟨draft.page.bytes.patch first bs⟩, draft.written ++ [⟨first, stop⟩]⟩ := by
  unfold write
  rw [run_bind_ok (EStateM.run_get _),
    run_bind_ok (run_check_ok (patch_eq _ hfirst hstop hlength))]
  rfl

theorem run_move {lo hi pos : Nat} (hlo : lo ≤ hi) (hhi : hi ≤ 1024)
    (hpos : pos + (hi - lo) ≤ 1024) :
    (move lo hi pos).run draft =
      .ok () ⟨⟨draft.page.bytes.patch pos (draft.page.bytes.slice lo hi)⟩,
        draft.written ++ [⟨pos, pos + (hi - lo)⟩]⟩ := by
  unfold move
  rw [run_bind_ok (EStateM.run_get _), run_bind_ok (run_check_ok (copy_eq _ hlo hhi hpos))]
  rfl

theorem run_storeSlot {i value : Nat} (hi : i < 512) (hvalue : value ≤ 1024) :
    (storeSlot i value).run draft =
      .ok () ⟨draft.page.setSlot i value, draft.written ++ [.ofSlot i]⟩ := by
  have hoffset : inPage value = .ok value := if_pos hvalue
  unfold storeSlot
  rw [run_bind_ok (EStateM.run_get _), run_bind_ok (run_check_ok hoffset),
    run_bind_ok (run_check_ok (setSlot_eq _ hi (by omega)))]
  rfl

end

def insertStretches (page : Page) (pair : Pair) : List Stretch :=
  let keyStart := page.dataFloor - pair.key.length
  [⟨keyStart, page.dataFloor⟩, ⟨keyStart - pair.value.length, keyStart⟩,
    .ofSlot (page.slotsUsed + 1), .ofSlot (page.slotsUsed + 2), .ofSlot 0]

theorem space_of_hasRoom {page : Page} {need : Nat} (h : need + 4 < counterRange)
    (hroom : page.hasRoom need = true) :
    need + 4 + (page.slotsUsed + 1) * 2 ≤ page.dataFloor ∧ page.dataFloor ≤ 1024 := by
  rw [Page.hasRoom, Nat.mod_eq_of_lt h, decide_eq_true_eq, Page.room, Page.indexEnd] at hroom
  exact ⟨by omega, dataFloor_le page⟩

theorem run_insertPair (draft : Draft) {pair : Pair} (h : pair.size + 4 < counterRange) :
    (insertPair pair).run draft = match draft.page.insert pair with
      | .ok page => .ok () ⟨page, draft.written ++ insertStretches draft.page pair⟩
      | .error cause => .error (.failed cause) draft := by
  have hsize : pair.size = pair.key.length + pair.value.length := rfl
  have hneed : add pair.key.length pair.value.length = .ok pair.size :=
    add_eq (by change _ < counterRange; omega)
  unfold insertPair Page.insert
  rw [run_bind_ok (run_check_ok hneed), run_bind_ok (run_look (fits_eq draft.page h))]
  cases hroom : draft.page.hasRoom pair.size with
  | false =>
    rw [if_neg Bool.false_ne_true, if_neg Bool.false_ne_true,
      run_bind_ok (run_look (freeSpace_eq draft.page))]
    rfl
  | true =>
    obtain ⟨hspace, hfloor⟩ := space_of_hasRoom h hroom
    rw [if_pos rfl, if_pos rfl, run_bind_ok (run_look (slot_eq draft.page (by decide))),
      run_bind_ok (run_look (dataStart_eq draft.page)), ← Page.slotsUsed,
      run_bind_ok (run_check_ok (sub_eq (by omega))),
      run_bind_ok (run_check_ok (add_eq (by omega))),
      run_bind_ok (run_write (by omega) (by omega) (by omega)),
      run_bind_ok (run_check_ok (sub_eq (by omega))),
      run_bind_ok (run_write (by omega) (by omega) (by omega)),
      run_bind_ok (run_check_ok (add_eq (by omega))),
      run_bind_ok (run_storeSlot (by omega) (by omega)),
      run_bind_ok (run_check_ok (add_eq (by omega))),
      run_bind_ok (run_storeSlot (by omega) (by omega)), run_storeSlot (by decide) (by omega)]
    have hkeyEnd : draft.page.dataFloor - pair.key.length + pair.key.length =
        draft.page.dataFloor := by omega
    simp only [hkeyEnd, insertStretches, List.append_assoc, List.cons_append, List.nil_append]

/-- The stretches that an insert writes lie in the page, and have no byte in common with each other
or with the slots in use. -/
theorem insertStretches_apart {page : Page} {pair : Pair} (h : pair.size + 4 < counterRange)
    (hroom : page.hasRoom pair.size = true) :
    (⟨2, page.indexEnd⟩ :: insertStretches page pair).Pairwise Stretch.Apart ∧
      ∀ stretch ∈ insertStretches page pair,
        stretch.first ≤ stretch.stop ∧ stretch.stop ≤ pageSize := by
  obtain ⟨hspace, hfloor⟩ := space_of_hasRoom h hroom
  have hsize : pair.size = pair.key.length + pair.value.length := rfl
  have hpage : pageSize = 1024 := rfl
  have hindex : page.indexEnd = (page.slotsUsed + 1) * 2 := rfl
  simp only [insertStretches, List.pairwise_cons, List.forall_mem_cons, Stretch.Apart,
    Stretch.ofSlot, List.not_mem_nil, false_imp_iff, implies_true, List.Pairwise.nil, and_true]
  omega

theorem byte_insert_of_not_holds {page page' : Page} {pair : Pair}
    (h : page.insert pair = .ok page') {i : Nat}
    (hi : ∀ stretch ∈ insertStretches page pair, ¬ stretch.Holds i)
    (hsize : pair.size + 4 < counterRange) :
    page'.bytes.byte i = page.bytes.byte i := by
  cases hroom : page.hasRoom pair.size with
  | false =>
    rw [Page.insert_of_not_hasRoom hroom] at h
    cases h
  | true =>
    obtain ⟨hspace, -⟩ := space_of_hasRoom hsize hroom
    have hlength : pair.size = pair.key.length + pair.value.length := rfl
    simp only [insertStretches, List.forall_mem_cons, Stretch.Holds, Stretch.ofSlot] at hi
    obtain ⟨hkey, hvalue, hfirst, hsecond, hcount, -⟩ := hi
    rw [Page.insert_of_hasRoom hroom] at h
    rw [← Except.ok.inj h]
    simp only [Page.appended, Page.setSlot]
    rw [Buffer.byte_setWord_of_outside _ _ (by omega),
      Buffer.byte_setWord_of_outside _ _ (by omega),
      Buffer.byte_setWord_of_outside _ _ (by omega), Buffer.byte_patch, if_neg (by omega),
      Buffer.byte_patch, if_neg (by omega)]

theorem run_shiftSlotsDown (draft : Draft) (gap i count : Nat) (h : i + count + 2 ≤ 512)
    (hraised : ∀ k, i ≤ k → k < i + count → draft.page.slot (k + 2) + gap ≤ 1024) :
    ∃ written, (shiftSlotsDown gap i count).run draft =
      .ok () ⟨draft.page.shiftSlots gap i count, written⟩ := by
  induction count generalizing draft i with
  | zero => exact ⟨_, rfl⟩
  | succ count ih =>
    have hfirst := hraised i (Nat.le_refl i) (by omega)
    rw [shiftSlotsDown, Page.shiftSlots, run_bind_ok (run_check_ok (add_eq (by omega))),
      run_bind_ok (run_look (slot_eq _ (by omega))),
      run_bind_ok (run_check_ok (add_eq (by omega))),
      run_bind_ok (run_storeSlot (by omega) hfirst)]
    apply ih _ _ (by omega)
    intro k hlo hhi
    rw [Page.slot_setSlot _ _ _ _ (by change _ < 1024; omega), if_neg (by omega)]
    exact hraised k (by omega) (by omega)

theorem run_closeGapOf (draft : Draft) (h : draft.page.InOrder) {p : Nat}
    (hp : p < draft.page.size) :
    ∃ written, (closeGapOf p).run draft = .ok () ⟨draft.page.closeGap p, written⟩ := by
  have heven := h.even
  obtain ⟨hrest, hdown, htop, hindex⟩ := Page.gap_bounds h hp
  have hlow := Page.slot_slotsUsed h hp
  change draft.page.edge p ≤ 1024 at htop
  unfold closeGapOf Page.closeGap
  rw [run_bind_ok (run_look (slot_eq draft.page (by decide))), ← Page.slotsUsed,
    run_bind_ok (run_check_ok (mul_eq (by omega))), run_bind_ok (run_check_ok (add_eq (by omega))),
    run_bind_ok (run_check_ok (sub_eq (by omega)))]
  by_cases hlast : 2 * p + 1 < draft.page.slotsUsed - 1
  · have habove : (if p = 0 then pageSize else draft.page.slot (2 * p + 1 - 1)) =
        draft.page.edge p := rfl
    have hbelow : draft.page.slot (2 * p + 1 + 1) = draft.page.edge (p + 1) := rfl
    obtain ⟨noted, hmove⟩ : ∃ noted, (move (draft.page.edge draft.page.size)
        (draft.page.edge (p + 1)) (draft.page.edge draft.page.size +
          (draft.page.edge p - draft.page.edge (p + 1)))).run draft =
        .ok () ⟨draft.page.slid p, noted⟩ := ⟨_, run_move hrest (by omega) (by omega)⟩
    obtain ⟨written, hshift⟩ := run_shiftSlotsDown ⟨draft.page.slid p, noted⟩
      (draft.page.edge p - draft.page.edge (p + 1)) (2 * p + 1)
      (draft.page.slotsUsed - 1 - (2 * p + 1)) (by omega)
      fun k hlo hhi => Page.slot_slid_add_le h hp hlo (by omega)
    rw [if_pos hlast, if_pos hlast, run_bind_ok (run_check_ok (sub_eq (by omega))),
      run_bind_ok (run_look (edge_eq draft.page p (by omega))),
      run_bind_ok (run_check_ok (add_eq (by omega))),
      run_bind_ok (run_look (slot_eq draft.page (by omega))), habove, hbelow,
      run_bind_ok (run_check_ok (sub_eq hdown)),
      run_bind_ok (run_look (slot_eq draft.page (by omega))), hlow,
      run_bind_ok (run_check_ok (add_eq (by omega))),
      run_bind_ok hmove, run_bind_ok hshift, run_bind_ok (run_check_ok (sub_eq (by omega))),
      run_storeSlot (by decide) (by omega)]
    exact ⟨_, rfl⟩
  · rw [if_neg hlast, if_neg hlast, run_bind_ok (run_check_ok (sub_eq (by omega))),
      run_storeSlot (by decide) (by omega)]
    exact ⟨_, rfl⟩

theorem run_removeKey (draft : Draft) (key : Bytes) :
    ∃ written, (removeKey key).run draft = match draft.page.erase? key with
      | some page => .ok true ⟨page, written⟩
      | none => .ok false draft := by
  unfold removeKey Page.erase?
  rw [run_bind_ok (run_look (isValid_eq draft.page))]
  cases hvalid : draft.page.isWellFormed with
  | false => exact ⟨[], rfl⟩
  | true =>
    rw [if_pos rfl, if_pos rfl, run_bind_ok (run_look (position_eq draft.page key))]
    cases hfound : draft.page.indexOf? key with
    | none => exact ⟨[], rfl⟩
    | some p =>
      obtain ⟨written, hrun⟩ := run_closeGapOf draft ((Page.isWellFormed_iff draft.page).mp hvalid)
        (Page.indexOf?_lt hfound)
      dsimp only
      rw [run_bind_ok hrun]
      exact ⟨written, rfl⟩

/-- A split in place ends like the split itself, with the halves on its drafts; no check failed. -/
inductive SplitsLike : EStateM.Result Halt Drafts Unit → Except StoreError Halves → Prop
  | ok (drafts : Drafts) : SplitsLike (.ok () drafts) (.ok drafts.halves)
  | error (cause : StoreError) (drafts : Drafts) :
      SplitsLike (.error (.failed cause) drafts) (.error cause)

theorem run_onStay (change : DraftM α) (drafts : Drafts) :
    (onStay change).run drafts = match change.run drafts.stay with
      | .ok a stay => .ok a { drafts with stay }
      | .error halt stay => .error halt { drafts with stay } := rfl

theorem run_onMoved (change : DraftM α) (drafts : Drafts) :
    (onMoved change).run drafts = match change.run drafts.moved with
      | .ok a moved => .ok a { drafts with moved }
      | .error halt moved => .error halt { drafts with moved } := rfl

theorem splitsLike_putInHalf (bit : UInt32) (drafts : Drafts) {pair : Pair}
    (h : pair.size + 4 < counterRange) :
    SplitsLike ((putInHalf bit pair).run drafts) (Halves.place bit drafts.halves pair) := by
  unfold putInHalf Halves.place
  split
  · rw [run_onMoved, run_insertPair _ h, Drafts.halves]
    cases drafts.moved.page.insert pair with
    | ok page => exact .ok { drafts with moved := ⟨page, _⟩ }
    | error cause => exact .error cause _
  · rw [run_onStay, run_insertPair _ h, Drafts.halves]
    cases drafts.stay.page.insert pair with
    | ok page => exact .ok { drafts with stay := ⟨page, _⟩ }
    | error cause => exact .error cause _

theorem splitsLike_distribute (bit : UInt32) (drafts : Drafts) (pairs : List Pair)
    (h : ∀ pair ∈ pairs, pair.size + 4 < counterRange) :
    SplitsLike ((distribute bit pairs).run drafts)
      (pairs.foldlM (Halves.place bit) drafts.halves) := by
  induction pairs generalizing drafts with
  | nil => exact .ok drafts
  | cons pair rest ih =>
    have hput := splitsLike_putInHalf bit drafts (h pair List.mem_cons_self)
    rw [distribute, List.foldlM_cons]
    generalize hrun : (putInHalf bit pair).run drafts = result at hput
    generalize Halves.place bit drafts.halves pair = outcome at hput
    cases hput with
    | ok drafts' =>
      rw [run_bind_ok hrun]
      exact ih drafts' fun pair hpair => h pair (List.mem_cons_of_mem _ hpair)
    | error cause drafts' =>
      rw [run_bind_error hrun]
      exact .error cause drafts'

theorem splitsLike_splitPage (page : Page) (bit : UInt32) :
    SplitsLike ((splitPage page bit).run .blank) (page.divide bit) := by
  unfold splitPage Page.divide
  rw [run_bind_ok (run_check_ok (pairs_eq page 0))]
  apply splitsLike_distribute
  intro pair hpair
  have hsize := size_le_of_mem_listFrom page hpair
  change pair.size ≤ 1024 at hsize
  change _ < 0x10000000000000000
  omega

end PageTrie.Checked
