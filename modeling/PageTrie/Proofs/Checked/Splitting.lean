import PageTrie.Proofs.Checked.Locating

/-! Making room with every step checked. The trie grows along the way of one hash, so a mask that
has a bit left to add always belongs to a leaf above the last level. -/
namespace PageTrie.Checked

/-- Writes the half of a page that the hash does not go to, and keeps the other. -/
def part (hash splitBit : UInt32) (spot : Spot) (halves : Halves) :
    CheckedM Session (Nat × Page) := do
  let sibling := (hash &&& spot.mask).toNat ||| splitBit.toNat
  if hash &&& splitBit ≠ 0 then
    writePage spot.page halves.stay
    keep sibling halves.moved
    return (sibling, halves.moved)
  else
    writePage sibling halves.moved
    keep spot.page halves.stay
    return (spot.page, halves.stay)

def splitLeaf (hash splitBit : UInt32) (spot : Spot) (page : Page) :
    CheckedM Session (Nat × Page) := do
  let halves ← check (split page splitBit)
  let halves ← ofResult halves
  let kept ← part hash splitBit spot halves
  onDirectory (setBit spot.number)
  return kept

def splitUntilFits (hash : UInt32) (need : Nat) (spot : Spot) (page : Page) :
    (budget : Nat) → CheckedM Session (Nat × Page)
  | 0 => throw (.failed (.cannotMakeRoom Session.splitBudget))
  | budget + 1 => do
    if spot.mask = 0xffffffff then throw (.failed (.cannotMakeRoom Session.splitBudget))
    let splitBit ← check (addWord spot.mask 1)
    let (number, kept) ← splitLeaf hash splitBit spot page
    if ← check (fits kept need) then return (number, kept)
    else
      let below ← check (child spot.number hash splitBit)
      writePage number kept
      splitUntilFits hash need ⟨below, spot.mask ||| splitBit, number⟩ kept budget

def makeRoom (hash : UInt32) (need : Nat) (spot : Spot) (page : Page) :
    CheckedM Session (Nat × Page) := fun session =>
  match (splitUntilFits hash need spot page Session.splitBudget).run session with
  | .ok found session' => .ok found session'
  | .error halt session' => .error halt { session' with cached := none }

theorem lift_ofResult (x : Except StoreError α) :
    lift (Session.ofResult x) = ofResult x := by
  cases x <;> rfl

section

variable (hash : UInt32) {depth : Nat} (h : depth < hashWidth)
include h

theorem depth_onPath_lt : (TrieNode.onPath hash depth).depth < hashWidth := by
  rwa [TrieNode.depth_onPath]

theorem page_with_bit : (hash &&& (spot hash (TrieNode.onPath hash depth)).mask).toNat |||
    (TrieNode.onPath hash depth).splitBit.toNat = hash.toNat % 2 ^ depth + 2 ^ depth := by
  refine (page_or_splitBit (depth_onPath_lt hash h) hash).trans ?_
  rw [TrieNode.page_onPath hash hash (Nat.le_of_lt h), TrieNode.depth_onPath]

theorem spot_below : spot hash (TrieNode.onPath hash (depth + 1)) =
    ⟨(TrieNode.onPath hash (depth + 1)).number,
      (spot hash (TrieNode.onPath hash depth)).mask ||| (TrieNode.onPath hash depth).splitBit,
      (TrieNode.onPath hash (depth + 1)).page hash⟩ :=
  congrArg (Spot.mk _ · _) (lowMask_or_splitBit (depth_onPath_lt hash h)).symm

theorem splitLeaf_eq (page : Page) :
    splitLeaf hash (TrieNode.onPath hash depth).splitBit (spot hash (TrieNode.onPath hash depth))
        page =
      (fun kept => ((TrieNode.onPath hash (depth + 1)).page hash, kept)) <$>
        lift (Session.splitLeaf hash (TrieNode.onPath hash depth) page) := by
  have hnumber : (spot hash (TrieNode.onPath hash depth)).number < 0xffffffff :=
    TrieNode.number_onPath_lt hash h
  have hpage : (spot hash (TrieNode.onPath hash depth)).page = hash.toNat % 2 ^ depth :=
    TrieNode.page_onPath hash hash (Nat.le_of_lt h)
  have hbelow := (TrieNode.page_onPath hash hash h).trans (mod_two_pow_succ _ _)
  have hhits := TrieNode.hits_splitBit_iff hash hash h
  have hwrite := writePage_eq (TrieNode.siblingPage_onPath_lt hash h)
  rw [TrieNode.siblingPage_onPath hash h] at hwrite
  unfold splitLeaf part Session.splitLeaf
  rw [← TrieNode.onPath_succ, TrieNode.siblingPage_onPath hash h, split_eq, TrieNode.depth_onPath]
  simp only [check_ok, pure_bind, lift_bind, lift_ofResult, lift_pure, map_bind, map_pure,
    setBit_eq hnumber, onDirectory_lift, page_with_bit hash h, hpage, hbelow, hhits]
  congr 1
  funext halves
  -- Which half is written and which is kept goes by the bit of the hash.
  cases hbit : hash.toNat.testBit depth with
  | true =>
    simp only [hbit, if_true, Nat.add_zero] at hwrite ⊢
    simp only [hwrite, bind_assoc, pure_bind]
    rfl
  | false =>
    simp only [hbit, if_false, Bool.false_eq_true, Nat.add_zero] at hwrite ⊢
    simp only [hwrite, bind_assoc, pure_bind]
    rfl

end

theorem splits_busy {session : Session} (h : session.Busy) {page : Page} (horder : page.InOrder)
    (hash : UInt32) {depth : Nat} (hdepth : depth < hashWidth) :
    ∃ kept session',
      (splitLeaf hash (TrieNode.onPath hash depth).splitBit (spot hash (TrieNode.onPath hash depth))
          page).run session = .ok ((TrieNode.onPath hash (depth + 1)).page hash, kept) session' ∧
        (Session.splitLeaf hash (TrieNode.onPath hash depth) page).run session =
          .ok kept session' ∧
        kept.InOrder ∧ session'.Busy := by
  obtain ⟨kept, away, hrun, hkept, -⟩ :=
    h.modest.ready.run_splitLeaf h.writable horder hash hdepth
  refine ⟨kept, session.parted hash depth kept away, ?_, hrun, hkept, ?_⟩
  · rw [splitLeaf_eq hash hdepth]
    exact run_map_ok _ (run_lift_ok hrun)
  · exact ((h.wrote (TrieNode.siblingPage_onPath_lt hash hdepth) away).keeping _).marked
      (TrieNode.number_onPath_lt hash hdepth)

/-- Each round of splitting starts from a leaf on the way of the hash, one level further down. -/
theorem agrees_splitUntilFits {session : Session} (h : session.Busy) {page : Page}
    (horder : page.InOrder) (hash : UInt32) {need : Nat} (hneed : need + 4 < counterRange)
    {depth : Nat} (hdepth : depth ≤ hashWidth) (budget : Nat) :
    Agrees (fun found => (found.1.page hash, found.2))
      (fun found session' => session'.Busy ∧ Session.Roomy hash need found.1 found.2)
      (fun cause session' => cause.isExpected = true ∧ session'.Busy)
      ((splitUntilFits hash need (spot hash (TrieNode.onPath hash depth)) page budget).run session)
      ((Session.growWithin hash need (TrieNode.onPath hash depth) page budget).run session) := by
  induction budget generalizing session depth page with
  | zero => exact .error ⟨rfl, h⟩
  | succ budget ih =>
    have hmask : (spot hash (TrieNode.onPath hash depth)).mask = 0xffffffff ↔
        depth = hashWidth := by
      rw [← lowMask_eq_max_iff hdepth, spot, TrieNode.depth_onPath]
    unfold splitUntilFits Session.growWithin
    rw [TrieNode.depth_onPath]
    simp only [hmask]
    by_cases hend : depth = hashWidth
    · rw [if_pos hend, if_pos hend]
      exact .error ⟨rfl, h⟩
    have hlt : depth < hashWidth := Nat.lt_of_le_of_ne hdepth hend
    have hbit : addWord (spot hash (TrieNode.onPath hash depth)).mask 1 =
        .ok (TrieNode.onPath hash depth).splitBit := addWord_lowMask (depth_onPath_lt hash hlt)
    have hchild : child (spot hash (TrieNode.onPath hash depth)).number hash
        (TrieNode.onPath hash depth).splitBit = .ok (TrieNode.onPath hash (depth + 1)).number :=
      child_eq hash hlt
    obtain ⟨kept, session', hsplit, hrun, hkept, hbusy⟩ := splits_busy h horder hash hlt
    rw [if_neg hend, if_neg hend, hbit, check_ok, pure_bind, run_bind_ok hsplit, run_bind_ok hrun,
      fits_eq kept hneed, check_ok, pure_bind, ← TrieNode.onPath_succ]
    cases hroom : kept.hasRoom need with
    | true =>
      rw [if_pos rfl, if_pos rfl]
      exact .pure (_, kept) ⟨hbusy, hkept, ⟨depth + 1, hlt, rfl⟩, hroom⟩
    | false =>
      have hnumber := TrieNode.page_onPath_lt hash hash hlt
      have hput := hbusy.modest.ready.run_putPage hbusy.writable hnumber kept
      rw [if_neg Bool.false_ne_true, if_neg Bool.false_ne_true, hchild, check_ok, pure_bind,
        run_bind_ok (run_writePage hbusy hnumber kept), run_bind_ok hput, ← spot_below hash hlt]
      exact ih (hbusy.wrote hnumber kept) hkept hlt

end PageTrie.Checked
