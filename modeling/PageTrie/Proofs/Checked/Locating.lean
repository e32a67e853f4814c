import PageTrie.Proofs.Checked.Session

/-! Finding the page of a hash with every step checked. Where a leaf lies is kept as its bit in
the directory, the mask of its depth and the number of its page. -/
namespace PageTrie.Checked

def mask (depth : UInt32) : Checked UInt32 :=
  if hashWidth ≤ depth.toNat then return 0xffffffff
  else do
    let one ← bit hashWidth depth.toNat
    subWord (UInt32.ofNat one) 1

theorem toNat_depth {depth : Nat} (h : depth ≤ hashWidth) : (UInt32.ofNat depth).toNat = depth := by
  rw [UInt32.toNat_ofNat']
  change depth ≤ 32 at h
  omega

theorem addWord_depth {depth : Nat} (h : depth < hashWidth) :
    addWord (UInt32.ofNat depth) 1 = .ok (UInt32.ofNat (depth + 1)) := by
  have hone : (1 : UInt32).toNat = 1 := rfl
  have hdepth := toNat_depth (Nat.le_of_lt h)
  have hsum : depth + 1 < 2 ^ 32 := Nat.lt_of_le_of_lt h (by decide)
  rw [addWord_eq (by omega), Except.ok.injEq, ← UInt32.toNat_inj, UInt32.toNat_add, hdepth, hone,
    toNat_depth h]
  exact Nat.mod_eq_of_lt hsum

theorem mask_eq {depth : Nat} (h : depth ≤ hashWidth) :
    mask (UInt32.ofNat depth) = .ok (lowMask depth) := by
  unfold mask
  rw [toNat_depth h]
  split
  · next hend =>
    rw [Nat.le_antisymm h hend]
    rfl
  · next hlt =>
    have hdepth : depth < hashWidth := Nat.lt_of_not_le hlt
    have hbit : (UInt32.ofNat (1 <<< depth)).toNat = 2 ^ depth :=
      @TrieNode.toNat_splitBit ⟨0, depth⟩ hdepth
    have hone : (1 : UInt32).toNat ≤ (UInt32.ofNat (1 <<< depth)).toNat := by
      rw [hbit]
      exact Nat.two_pow_pos depth
    rw [bit_eq hdepth, ok_bind, subWord_eq hone, Except.ok.injEq, ← UInt32.toNat_inj,
      UInt32.toNat_sub_of_le _ _ (UInt32.le_iff_toNat_le.mpr hone), toNat_lowMask depth h, hbit,
      Nat.one_shiftLeft]
    rfl

theorem lowMask_eq_max_iff {depth : Nat} (h : depth ≤ hashWidth) :
    lowMask depth = 0xffffffff ↔ depth = hashWidth := by
  constructor
  · intro heq
    have hmask := toNat_lowMask depth h
    rw [heq, Nat.one_shiftLeft] at hmask
    change 4294967295 = _ at hmask
    by_contra hne
    have hpow : 2 ^ depth < 2 ^ 32 :=
      Nat.pow_lt_pow_right (by decide) (Nat.lt_of_le_of_ne h hne)
    omega
  · rintro rfl
    rfl

theorem or_two_pow {low depth : Nat} (hlow : low < 2 ^ depth) :
    low ||| 2 ^ depth = low + 2 ^ depth := by
  have hor := Nat.two_pow_add_eq_or_of_lt hlow 1
  rw [Nat.mul_one] at hor
  rw [Nat.lor_comm, ← hor, Nat.add_comm]

section

variable {node : TrieNode} (h : node.depth < hashWidth)
include h

theorem addWord_lowMask : addWord (lowMask node.depth) 1 = .ok node.splitBit := by
  have hmask := toNat_lowMask node.depth (Nat.le_of_lt h)
  have hbit := TrieNode.toNat_splitBit h
  have hpow : 2 ^ node.depth < 2 ^ 32 := Nat.pow_lt_pow_right (by decide) h
  have hpos := Nat.two_pow_pos node.depth
  rw [Nat.one_shiftLeft] at hmask
  have hsum : (lowMask node.depth).toNat + (1 : UInt32).toNat = 2 ^ node.depth := by
    change _ + 1 = _
    omega
  rw [addWord_eq (by omega), Except.ok.injEq, ← UInt32.toNat_inj, UInt32.toNat_add, hsum, hbit]
  exact Nat.mod_eq_of_lt hpow

theorem lowMask_or_splitBit : lowMask node.depth ||| node.splitBit = lowMask (node.depth + 1) := by
  have hpow := Nat.pow_succ (n := 2) (m := node.depth)
  have hpos := Nat.two_pow_pos node.depth
  rw [← UInt32.toNat_inj, UInt32.toNat_or, toNat_lowMask _ (Nat.le_of_lt h), toNat_lowMask _ h,
    TrieNode.toNat_splitBit h, Nat.one_shiftLeft, Nat.one_shiftLeft, or_two_pow (by omega)]
  omega

theorem page_or_splitBit (hash : UInt32) :
    node.page hash ||| node.splitBit.toNat = node.page hash + 2 ^ node.depth := by
  rw [TrieNode.toNat_splitBit h]
  apply or_two_pow
  rw [TrieNode.page_eq_mod node hash (Nat.le_of_lt h), Nat.one_shiftLeft]
  exact Nat.mod_lt _ (Nat.two_pow_pos _)

end

def child (number : Nat) (hash hashBit : UInt32) : Checked Nat := do
  let double ← mul 2 number
  add double (if hash &&& hashBit ≠ 0 then 2 else 1)

def descend (hash : UInt32) (number : Nat) (depth : UInt32) :
    (remaining : Nat) → CheckedM Session (Nat × UInt32)
  | 0 => return (number, depth)
  | remaining + 1 => do
    if number < (← get).directory.bound then
      if ← onDirectory (testBit number) then
        let hashBit ← check (bit hashWidth depth.toNat)
        let next ← check (child number hash (UInt32.ofNat hashBit))
        let below ← check (addWord depth 1)
        descend hash next below remaining
      else return (number, depth)
    else return (number, depth)

/-- Where a leaf lies: its bit in the directory, the mask of its depth, its page's number. -/
structure Spot where
  number : Nat
  mask : UInt32
  page : Nat

def locate (hash : UInt32) : CheckedM Session (Spot × Page) := do
  let (number, depth) ← descend hash 0 0 hashWidth
  let mask ← check (mask depth)
  let page ← loadPage (hash &&& mask).toNat
  return (⟨number, mask, (hash &&& mask).toNat⟩, page)

def spot (hash : UInt32) (leaf : TrieNode) : Spot :=
  ⟨leaf.number, lowMask leaf.depth, leaf.page hash⟩

theorem spot_page (hash : UInt32) (leaf : TrieNode) : (spot hash leaf).page = leaf.page hash := rfl

theorem child_eq (hash : UInt32) {depth : Nat} (h : depth < hashWidth) :
    child (TrieNode.onPath hash depth).number hash (TrieNode.onPath hash depth).splitBit =
      .ok (TrieNode.onPath hash (depth + 1)).number := by
  have hnumber := TrieNode.number_onPath_lt hash h
  have hhits := TrieNode.hits_splitBit_iff hash hash h
  unfold child
  rw [mul_eq (by omega), ok_bind, TrieNode.number_onPath_succ]
  simp only [hhits]
  apply add_eq
  split <;> omega

theorem descend_eq (hash : UInt32) {depth remaining : Nat} (h : depth + remaining ≤ hashWidth) :
    descend hash (TrieNode.onPath hash depth).number (UInt32.ofNat depth) remaining =
      (fun leaf => (leaf.number, UInt32.ofNat leaf.depth)) <$>
        lift (Session.descend hash (TrieNode.onPath hash depth) remaining) := by
  induction remaining generalizing depth with
  | zero =>
    rw [descend, Session.descend, lift_pure, map_pure, TrieNode.depth_onPath]
  | succ remaining ih =>
    have hdepth : depth < hashWidth := by omega
    have hnumber := TrieNode.number_onPath_lt hash hdepth
    have hbit : UInt32.ofNat (1 <<< depth) = (TrieNode.onPath hash depth).splitBit := by
      rw [TrieNode.splitBit, TrieNode.depth_onPath]
    rw [descend, Session.descend]
    simp only [lift_bind, lift_get, map_bind, testBit_eq hnumber, onDirectory_lift]
    congr 1
    funext session
    split
    · simp only [lift_bind, map_bind]
      congr 1
      funext isSplit
      cases isSplit with
      | true =>
        simp only [if_true, toNat_depth (Nat.le_of_lt hdepth), bit_eq hdepth, check_ok, pure_bind,
          hbit, child_eq hash hdepth, addWord_depth hdepth]
        exact ih (by omega)
      | false => simp
    · simp

/-- A search comes to the leaf of the hash, whatever the files hold. -/
theorem agrees_locate {session : Session} (h : session.Calm) (hash : UInt32) :
    Agrees (fun found => (spot hash found.1, found.2))
      (fun found session' => session'.Calm ∧ session'.config = session.config ∧
        found.2.InOrder ∧ ∃ depth ≤ hashWidth, found.1 = TrieNode.onPath hash depth)
      (fun cause session' => cause.isExpected = true ∧ session'.Calm)
      ((locate hash).run session) ((Session.leafFor hash).run session) := by
  apply Agrees.of_ends _ (h.ends_leafFor hash)
  obtain ⟨block, hwalk, -⟩ := Session.run_descend_root h.faithful.ready.coherent
    h.faithful.ready.ample.1.storeSpan_le_extent hash
  obtain ⟨depth, hdepth, hleaf⟩ := session.leafOf_eq_onPath hash
  change TrieNode.leaf session.directory.sees hash = _ at hleaf
  rw [hleaf] at hwalk
  have hnumber := TrieNode.page_onPath_lt hash hash hdepth
  have hpage : (hash &&& lowMask depth).toNat = (TrieNode.onPath hash depth).page hash := by
    rw [TrieNode.page, TrieNode.depth_onPath]
  have hlift := run_lift_ok hwalk
  have hdescend : (descend hash 0 0 hashWidth).run session =
      .ok ((TrieNode.onPath hash depth).number, UInt32.ofNat (TrieNode.onPath hash depth).depth)
        (session.recalling block session.cached) := by
    have hroot := @descend_eq hash 0 hashWidth (Nat.le_of_eq (Nat.zero_add hashWidth))
    exact (congrArg (EStateM.run · session) hroot).trans (run_map_ok _ hlift)
  have hload : loadPage ((TrieNode.onPath hash depth).page hash) =
      lift (Session.pageAt ((TrieNode.onPath hash depth).page hash)) := loadPage_eq (by omega)
  unfold locate Session.leafFor
  rw [run_bind_ok hdescend, lift_bind, map_bind, run_bind_ok hlift]
  simp only [TrieNode.depth_onPath, mask_eq hdepth, check_ok, pure_bind, hpage, lift_bind,
    lift_pure, map_bind, map_pure, hload, spot]

end PageTrie.Checked
