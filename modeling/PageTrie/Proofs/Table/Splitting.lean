import PageTrie.Proofs.Table.Basic

/-! Splitting a leaf of a table. The pairs of the leaf's page are divided between that page
and one above it that held nothing, so the same pairs are held as before. -/
namespace PageTrie.Table

def Moves (depth : Nat) (pair : Pair) : Bool := (keyHash pair.key).toNat.testBit depth

def split (table : Table) (h : UInt32) (depth : Nat) : Table where
  isSplit := TrieNode.mark table.isSplit (TrieNode.onPath h depth).number
  pairs page :=
    let low := h.toNat % 2 ^ depth
    if page = low then (table.pairs low).filter fun pair => !Moves depth pair
    else if page = low + 2 ^ depth then (table.pairs low).filter (Moves depth)
    else table.pairs page

/-- Splits the leaf of a hash, then the leaf that the hash has below it, and so on. -/
def splits (table : Table) (h : UInt32) (depth : Nat) : (count : Nat) → Table
  | 0 => table
  | count + 1 => (table.split h depth).splits h (depth + 1) count

section Split

variable {table : Table} {h : UInt32} {depth : Nat}

theorem pageOf_eq_iff_of_isLeaf (hleaf : TrieNode.IsLeaf table.isSplit h depth) (key : Bytes) :
    table.pageOf key = h.toNat % 2 ^ depth ↔ Agree depth h (keyHash key) := by
  have hpage := TrieNode.page_leaf_eq_iff table.isSplit h (keyHash key)
  rw [TrieNode.page_leaf, hleaf.depth_eq] at hpage
  rw [← hpage]
  exact eq_comm

theorem pageOf_split (hleaf : TrieNode.IsLeaf table.isSplit h depth)
    (hclosed : TrieNode.Closed table.isSplit) (hdepth : depth < hashWidth) (key : Bytes) :
    (table.split h depth).pageOf key =
      if Agree depth h (keyHash key) then
        h.toNat % 2 ^ depth + if (keyHash key).toNat.testBit depth then 2 ^ depth else 0
      else table.pageOf key := by
  by_cases agree : Agree depth h (keyHash key)
  · have hbelow : TrieNode.IsLeaf (table.split h depth).isSplit (keyHash key) (depth + 1) :=
      hleaf.mark_of_agree hclosed hdepth agree
    rw [if_pos agree, pageOf_eq_of_isLeaf hbelow, mod_two_pow_succ, ← agree.symm]
  · have hstay : TrieNode.IsLeaf (table.split h depth).isSplit (keyHash key)
        (table.depthOf key) := (table.isLeaf key).mark_of_not_agree agree
    rw [if_neg agree, pageOf_eq_of_isLeaf hstay, pageOf_eq_mod]

theorem Sound.pairs_sibling (hsound : table.Sound)
    (hleaf : TrieNode.IsLeaf table.isSplit h depth) :
    table.pairs (h.toNat % 2 ^ depth + 2 ^ depth) = [] := by
  rw [List.eq_nil_iff_forall_not_mem]
  intro pair hpair
  have hplaced := (hsound.placed _ pair hpair).2
  have hmod := table.pageOf_eq_mod pair.key
  obtain hlt | hle := Nat.lt_or_ge depth (table.depthOf pair.key)
  · have agree : Agree depth h (keyHash pair.key) := by
      have hdvd := Nat.pow_dvd_pow 2 (Nat.le_of_lt hlt)
      unfold Agree
      rw [← Nat.mod_mod_of_dvd (keyHash pair.key).toNat hdvd, ← hmod, hplaced,
        Nat.add_mod_right, Nat.mod_mod]
    have hpage := (pageOf_eq_iff_of_isLeaf hleaf pair.key).mpr agree
    have hpos := Nat.two_pow_pos depth
    omega
  · have hsmall := Nat.mod_lt (keyHash pair.key).toNat (Nat.two_pow_pos (table.depthOf pair.key))
    have hpow : 2 ^ table.depthOf pair.key ≤ 2 ^ depth := Nat.pow_le_pow_right (by decide) hle
    omega

theorem mem_split (pair : Pair) (page : Nat) :
    pair ∈ (table.split h depth).pairs page ↔
      if page = h.toNat % 2 ^ depth then
        pair ∈ table.pairs (h.toNat % 2 ^ depth) ∧ Moves depth pair = false
      else if page = h.toNat % 2 ^ depth + 2 ^ depth then
        pair ∈ table.pairs (h.toNat % 2 ^ depth) ∧ Moves depth pair = true
      else pair ∈ table.pairs page := by
  unfold split
  dsimp only
  split
  · rw [List.mem_filter, Bool.not_eq_true']
  · split
    · rw [List.mem_filter]
    · rfl

theorem Sound.split (hsound : table.Sound) (hleaf : TrieNode.IsLeaf table.isSplit h depth)
    (hdepth : depth < hashWidth) : (table.split h depth).Sound := by
  have hpageOf := pageOf_split hleaf hsound.closed hdepth
  refine ⟨hsound.closed.mark hleaf, ?_, ?_, ?_⟩
  · intro i hi
    simp only [Table.split, TrieNode.mark, Bool.or_eq_true, decide_eq_true_eq] at hi
    obtain rfl | hset := hi
    · exact TrieNode.number_onPath_lt h hdepth
    · exact hsound.small i hset
  · intro page pair hpair
    rw [mem_split] at hpair
    rw [hpageOf]
    by_cases hlow : page = h.toNat % 2 ^ depth
    · rw [if_pos hlow] at hpair
      obtain ⟨hkey, hplaced⟩ := hsound.placed _ pair hpair.1
      have hbit : (keyHash pair.key).toNat.testBit depth = false := hpair.2
      rw [if_pos ((pageOf_eq_iff_of_isLeaf hleaf _).mp hplaced), hbit, hlow]
      exact ⟨hkey, rfl⟩
    · rw [if_neg hlow] at hpair
      by_cases hhigh : page = h.toNat % 2 ^ depth + 2 ^ depth
      · rw [if_pos hhigh] at hpair
        obtain ⟨hkey, hplaced⟩ := hsound.placed _ pair hpair.1
        have hbit : (keyHash pair.key).toNat.testBit depth = true := hpair.2
        rw [if_pos ((pageOf_eq_iff_of_isLeaf hleaf _).mp hplaced), hbit, hhigh]
        exact ⟨hkey, rfl⟩
      · rw [if_neg hhigh] at hpair
        obtain ⟨hkey, hplaced⟩ := hsound.placed _ pair hpair
        have hapart : ¬ Agree depth h (keyHash pair.key) := by
          rw [← pageOf_eq_iff_of_isLeaf hleaf, hplaced]
          exact hlow
        rw [if_neg hapart]
        exact ⟨hkey, hplaced⟩
  · intro page
    have hdistinct := hsound.distinct (h.toNat % 2 ^ depth)
    unfold Table.split
    dsimp only
    split
    · exact hdistinct.sublist (List.filter_sublist.map _)
    · split
      · exact hdistinct.sublist (List.filter_sublist.map _)
      · exact hsound.distinct page

theorem Sound.holds_split (hsound : table.Sound)
    (hleaf : TrieNode.IsLeaf table.isSplit h depth) (pair : Pair) :
    (table.split h depth).Holds pair ↔ table.Holds pair := by
  have hpos := Nat.two_pow_pos depth
  unfold Holds
  simp only [mem_split]
  constructor
  · rintro ⟨page, hpair⟩
    split at hpair
    · exact ⟨_, hpair.1⟩
    · split at hpair
      · exact ⟨_, hpair.1⟩
      · exact ⟨page, hpair⟩
  · rintro ⟨page, hpair⟩
    by_cases hlow : page = h.toNat % 2 ^ depth
    · rw [hlow] at hpair
      cases hbit : Moves depth pair with
      | false => exact ⟨h.toNat % 2 ^ depth, by rw [if_pos rfl]; exact ⟨hpair, rfl⟩⟩
      | true =>
        refine ⟨h.toNat % 2 ^ depth + 2 ^ depth, ?_⟩
        rw [if_neg (by omega), if_pos rfl]
        exact ⟨hpair, rfl⟩
    · have hhigh : page ≠ h.toNat % 2 ^ depth + 2 ^ depth := by
        rintro rfl
        rw [hsound.pairs_sibling hleaf] at hpair
        cases hpair
      exact ⟨page, by rw [if_neg hlow, if_neg hhigh]; exact hpair⟩

theorem Sound.lookup_split (hsound : table.Sound)
    (hleaf : TrieNode.IsLeaf table.isSplit h depth) (hdepth : depth < hashWidth) :
    (table.split h depth).lookup = table.lookup := by
  funext key
  apply hsound.lookup_congr (hsound.split hleaf hdepth)
  exact fun value => hsound.holds_split hleaf _

theorem isLeaf_split (hsound : table.Sound) (hleaf : TrieNode.IsLeaf table.isSplit h depth)
    (hdepth : depth < hashWidth) :
    TrieNode.IsLeaf (table.split h depth).isSplit h (depth + 1) :=
  hleaf.mark_of_agree hsound.closed hdepth rfl

end Split

/-- A split comes about by writing the half that the hash does not go to, marking the node
and putting the other half in its place. -/
theorem split_putPage (table : Table) (h : UInt32) (depth : Nat) (pairs : List Pair) :
    Table.putPage
        { isSplit := TrieNode.mark table.isSplit (TrieNode.onPath h depth).number
          pairs := (table.putPage
            (h.toNat % 2 ^ depth + if h.toNat.testBit depth then 0 else 2 ^ depth)
            (pairs.filter fun pair => Moves depth pair != h.toNat.testBit depth)).pairs }
        (h.toNat % 2 ^ (depth + 1))
        (pairs.filter fun pair => Moves depth pair == h.toNat.testBit depth) =
      (table.putPage (h.toNat % 2 ^ depth) pairs).split h depth := by
  have hne : h.toNat % 2 ^ depth ≠ h.toNat % 2 ^ depth + 2 ^ depth := by
    have := Nat.two_pow_pos depth
    omega
  have hpairs (page : Nat) :
      Function.update (Function.update table.pairs
        (h.toNat % 2 ^ depth + if h.toNat.testBit depth then 0 else 2 ^ depth)
        (pairs.filter fun pair => Moves depth pair != h.toNat.testBit depth))
        (h.toNat % 2 ^ (depth + 1))
        (pairs.filter fun pair => Moves depth pair == h.toNat.testBit depth) page =
      ((table.putPage (h.toNat % 2 ^ depth) pairs).split h depth).pairs page := by
    rw [mod_two_pow_succ]
    unfold split putPage
    dsimp only
    rw [Function.update_self]
    cases h.toNat.testBit depth with
    | true =>
      simp only [if_true, Nat.add_zero, Bool.bne_true, beq_true]
      by_cases hhigh : page = h.toNat % 2 ^ depth + 2 ^ depth
      · rw [hhigh, Function.update_self, if_neg hne.symm, if_pos rfl]
      · rw [Function.update_of_ne hhigh, if_neg hhigh, Function.update_apply]
        split
        · rfl
        · next hlow => rw [Function.update_of_ne hlow]
    | false =>
      simp only [Bool.false_eq_true, if_false, Nat.add_zero, Bool.bne_false, beq_false]
      by_cases hlow : page = h.toNat % 2 ^ depth
      · rw [hlow, Function.update_self, if_pos rfl]
      · rw [Function.update_of_ne hlow, if_neg hlow, Function.update_of_ne hlow,
          Function.update_apply]
  exact congrArg (Table.mk _) (funext hpairs)

variable {h : UInt32}

theorem Sound.splits {table : Table} {depth : Nat} (hsound : table.Sound)
    (hleaf : TrieNode.IsLeaf table.isSplit h depth) {count : Nat}
    (hcount : depth + count ≤ hashWidth) :
    (table.splits h depth count).Sound ∧
      TrieNode.IsLeaf (table.splits h depth count).isSplit h (depth + count) ∧
      (table.splits h depth count).lookup = table.lookup := by
  induction count generalizing table depth with
  | zero => exact ⟨hsound, hleaf, rfl⟩
  | succ count ih =>
    have hdepth : depth < hashWidth := by omega
    obtain ⟨hsound', hleaf', hlookup⟩ :=
      ih (hsound.split hleaf hdepth) (isLeaf_split hsound hleaf hdepth) (by omega)
    rw [Nat.add_right_comm, Nat.add_assoc] at hleaf'
    rw [hsound.lookup_split hleaf hdepth] at hlookup
    exact ⟨hsound', hleaf', hlookup⟩

theorem isSplit_splits (table : Table) (h : UInt32) (depth count i : Nat) :
    (table.splits h depth count).isSplit i = true ↔
      table.isSplit i = true ∨ i ∈ TrieNode.stretch h depth count := by
  induction count generalizing table depth with
  | zero => simp [splits]
  | succ count ih =>
    rw [splits, ih, TrieNode.mem_stretch_succ]
    simp only [split, TrieNode.mark, Bool.or_eq_true, decide_eq_true_eq]
    tauto

theorem pairs_split (table : Table) (depth : Nat) :
    (table.split h depth).pairs (h.toNat % 2 ^ (depth + 1)) =
      (table.pairs (h.toNat % 2 ^ depth)).filter fun pair =>
        Moves depth pair == h.toNat.testBit depth := by
  have hpos := Nat.two_pow_pos depth
  rw [mod_two_pow_succ]
  unfold split
  dsimp only
  cases h.toNat.testBit depth with
  | true =>
    simp only [if_true, beq_true]
    rw [if_neg (by omega)]
  | false => simp only [Bool.false_eq_true, if_false, Nat.add_zero, if_true, beq_false]

/-- After some splits the page of the hash has the pairs that agree with it that far. -/
theorem Sound.pairs_splits {table : Table} {depth : Nat} (hsound : table.Sound)
    (hleaf : TrieNode.IsLeaf table.isSplit h depth) (count : Nat) :
    (table.splits h depth count).pairs (h.toNat % 2 ^ (depth + count)) =
      (table.pairs (h.toNat % 2 ^ depth)).filter fun pair =>
        decide (Agree (depth + count) h (keyHash pair.key)) := by
  -- Pairs on the leaf's page agree with the hash that far; a split keeps those that agree on.
  have hstart : ∀ pair ∈ table.pairs (h.toNat % 2 ^ depth), Agree depth h (keyHash pair.key) :=
    fun pair hpair => (pageOf_eq_iff_of_isLeaf hleaf _).mp (hsound.placed _ pair hpair).2
  clear hsound hleaf
  induction count generalizing table depth with
  | zero =>
    exact (List.filter_eq_self.mpr fun pair hpair => decide_eq_true (hstart pair hpair)).symm
  | succ count ih =>
    have hdepth : depth + (count + 1) = depth + 1 + count := by omega
    rw [hdepth]
    have hbelow := @ih (table.split h depth) (depth + 1) (by
      intro pair hpair
      rw [pairs_split, List.mem_filter, beq_iff_eq] at hpair
      rw [agree_succ_iff]
      exact ⟨hstart pair hpair.1, hpair.2.symm⟩)
    rw [Table.splits, hbelow, pairs_split, List.filter_filter]
    apply List.filter_congr
    intro pair _
    by_cases agree : Agree (depth + 1 + count) h (keyHash pair.key)
    · have hbit := ((agree_succ_iff _ _ _).mp (agree.mono (Nat.le_add_right _ _))).2
      simp [agree, Moves, hbit]
    · simp [agree]

end PageTrie.Table
