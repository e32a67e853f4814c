import Mathlib
import PageTrie.Trie

/-! The trie that a set of split nodes describes. The nodes on the way of a hash are told
apart by their depth and the low hash bits above them, so two hashes share a leaf exactly
when they share its page, and splitting a leaf moves only the hashes that stop there. -/
namespace PageTrie

def Agree (depth : Nat) (h h' : UInt32) : Prop := h.toNat % 2 ^ depth = h'.toNat % 2 ^ depth

theorem Agree.symm {depth : Nat} {h h' : UInt32} (agree : Agree depth h h') :
    Agree depth h' h := Eq.symm agree

instance (depth : Nat) (h h' : UInt32) : Decidable (Agree depth h h') :=
  inferInstanceAs (Decidable (_ = _))

theorem agree_zero (h h' : UInt32) : Agree 0 h h' := by
  simp [Agree, Nat.mod_one]

theorem mod_two_pow_succ (x depth : Nat) :
    x % 2 ^ (depth + 1) = x % 2 ^ depth + if x.testBit depth then 2 ^ depth else 0 := by
  rw [Nat.mod_pow_succ, Nat.testBit_eq_decide_div_mod_eq]
  have hbit := Nat.mod_two_eq_zero_or_one (x / 2 ^ depth)
  obtain hbit | hbit := hbit <;> simp [hbit]

theorem agree_succ_iff (depth : Nat) (h h' : UInt32) :
    Agree (depth + 1) h h' ↔
      Agree depth h h' ∧ h.toNat.testBit depth = h'.toNat.testBit depth := by
  unfold Agree
  rw [mod_two_pow_succ, mod_two_pow_succ]
  have hlt := Nat.mod_lt h.toNat (Nat.two_pow_pos depth)
  have hlt' := Nat.mod_lt h'.toNat (Nat.two_pow_pos depth)
  cases h.toNat.testBit depth <;> cases h'.toNat.testBit depth <;>
    simp only [if_true, if_false, Bool.false_eq_true, Bool.true_eq_false, and_true, and_false,
      iff_false, Nat.add_zero, Nat.add_right_cancel_iff]
  · omega
  · omega

theorem Agree.mono {depth depth' : Nat} {h h' : UInt32} (agree : Agree depth h h')
    (hle : depth' ≤ depth) : Agree depth' h h' := by
  unfold Agree at agree ⊢
  rw [← Nat.mod_mod_of_dvd h.toNat (Nat.pow_dvd_pow 2 hle), agree,
    Nat.mod_mod_of_dvd h'.toNat (Nat.pow_dvd_pow 2 hle)]

namespace TrieNode

theorem onPath_succ (h : UInt32) (depth : Nat) : onPath h (depth + 1) = (onPath h depth).child h :=
  rfl

theorem number_onPath_succ (h : UInt32) (depth : Nat) :
    (onPath h (depth + 1)).number =
      2 * (onPath h depth).number + if h.toNat.testBit depth then 2 else 1 := by
  rw [onPath_succ, child, depth_onPath]

theorem number_onPath_bounds (h : UInt32) (depth : Nat) :
    2 ^ depth ≤ (onPath h depth).number + 1 ∧ (onPath h depth).number + 1 < 2 ^ (depth + 1) := by
  induction depth with
  | zero => simp [onPath, root]
  | succ depth ih =>
    rw [number_onPath_succ]
    have hpow := Nat.pow_succ (n := 2) (m := depth)
    have hpow' := Nat.pow_succ (n := 2) (m := depth + 1)
    split <;> omega

theorem number_onPath_lt (h : UInt32) {depth : Nat} (hdepth : depth < hashWidth) :
    (onPath h depth).number < 0xffffffff := by
  have hbounds := number_onPath_bounds h depth
  have hpow : 2 ^ (depth + 1) ≤ 2 ^ 32 := Nat.pow_le_pow_right (by decide) hdepth
  omega

/-- A node on the way of a hash tells its depth and the low bits of the hash. -/
theorem number_onPath_inj {h h' : UInt32} {depth depth' : Nat} :
    (onPath h depth).number = (onPath h' depth').number ↔ depth = depth' ∧ Agree depth h h' := by
  induction depth generalizing depth' with
  | zero =>
    cases depth' with
    | zero => simp [onPath, agree_zero]
    | succ depth' =>
      rw [number_onPath_succ]
      simp only [onPath, root]
      split <;> omega
  | succ depth ih =>
    cases depth' with
    | zero =>
      rw [number_onPath_succ]
      simp only [onPath, root]
      split <;> omega
    | succ depth' =>
      rw [number_onPath_succ, number_onPath_succ, agree_succ_iff, Nat.add_right_cancel_iff,
        ← and_assoc, ← ih]
      constructor
      · intro heq
        have hparent : (onPath h depth).number = (onPath h' depth').number := by
          split at heq <;> split at heq <;> omega
        obtain ⟨rfl, -⟩ := ih.mp hparent
        rw [hparent, Nat.add_left_cancel_iff] at heq
        refine ⟨hparent, ?_⟩
        cases hbit : h.toNat.testBit depth <;> cases hbit' : h'.toNat.testBit depth <;>
          simp [hbit, hbit'] at heq ⊢
      · rintro ⟨hparent, hbit⟩
        obtain ⟨rfl, -⟩ := ih.mp hparent
        rw [hparent, hbit]

theorem exists_onPath {i depth : Nat} (hdepth : depth ≤ hashWidth) (hlo : 2 ^ depth ≤ i + 1)
    (hhi : i + 1 < 2 ^ (depth + 1)) : ∃ h : UInt32, (onPath h depth).number = i := by
  induction depth generalizing i with
  | zero => exact ⟨0, by simp only [onPath, root]; omega⟩
  | succ depth ih =>
    obtain ⟨h, hnumber⟩ := @ih ((i - 1) / 2) (Nat.le_of_succ_le hdepth) (by omega) (by omega)
    -- The hash of the parent up to its depth, with the bit that leads on to this node.
    have hpow : 2 ^ (depth + 1) ≤ 2 ^ 32 := Nat.pow_le_pow_right (by decide) hdepth
    have hlow := Nat.mod_lt h.toNat (Nat.two_pow_pos depth)
    have hbits : (UInt32.ofNat (h.toNat % 2 ^ depth + if i % 2 = 0 then 2 ^ depth else 0)).toNat =
        h.toNat % 2 ^ depth + if i % 2 = 0 then 2 ^ depth else 0 := by
      rw [UInt32.toNat_ofNat']
      apply Nat.mod_eq_of_lt
      split <;> omega
    refine ⟨UInt32.ofNat (h.toNat % 2 ^ depth + if i % 2 = 0 then 2 ^ depth else 0), ?_⟩
    have agree : Agree depth h
        (UInt32.ofNat (h.toNat % 2 ^ depth + if i % 2 = 0 then 2 ^ depth else 0)) := by
      unfold Agree
      rw [hbits]
      split <;> simp
    rw [number_onPath_succ, ← number_onPath_inj.mpr ⟨rfl, agree⟩, hnumber, hbits,
      Nat.testBit_eq_decide_div_mod_eq]
    split
    · rw [Nat.add_div_right _ (Nat.two_pow_pos depth), Nat.div_eq_of_lt hlow]
      simp
      omega
    · rw [Nat.add_zero, Nat.div_eq_of_lt hlow]
      simp
      omega

theorem exists_onPath_of_lt {i : Nat} (h : i < 0xffffffff) :
    ∃ (depth : Nat) (hash : UInt32), depth < hashWidth ∧ (onPath hash depth).number = i := by
  have hdepth : Nat.log 2 (i + 1) < hashWidth :=
    Nat.log_lt_of_lt_pow (by omega) (show i + 1 < 2 ^ 32 by omega)
  obtain ⟨hash, hnumber⟩ := exists_onPath (Nat.le_of_lt hdepth)
    (Nat.pow_log_le_self 2 (by omega)) (Nat.lt_pow_succ_log_self (by decide) (i + 1))
  exact ⟨_, hash, hdepth, hnumber⟩

theorem onPath_congr {h h' : UInt32} {depth : Nat} (agree : Agree depth h h') :
    onPath h depth = onPath h' depth := by
  have hnumber := number_onPath_inj.mpr ⟨rfl, agree⟩
  have hdepth : (onPath h depth).depth = (onPath h' depth).depth := by
    rw [depth_onPath, depth_onPath]
  cases hnode : onPath h depth
  cases hnode' : onPath h' depth
  simp only [hnode, hnode'] at hnumber hdepth
  rw [hnumber, hdepth]

theorem page_onPath (h h' : UInt32) {depth : Nat} (hdepth : depth ≤ hashWidth) :
    (onPath h depth).page h' = h'.toNat % 2 ^ depth := by
  rw [page_eq_mod _ _ (by rwa [depth_onPath]), depth_onPath, Nat.one_shiftLeft]

theorem page_onPath_lt (h h' : UInt32) {depth : Nat} (hdepth : depth ≤ hashWidth) :
    (onPath h depth).page h' < 0x100000000 := by
  rw [page_onPath h h' hdepth]
  exact (Nat.mod_lt _ (Nat.two_pow_pos depth)).trans_le (Nat.pow_le_pow_right (by decide) hdepth)

/-- Splitting gives one child the page of the parent and the other a page above it. -/
theorem siblingPage_onPath (h : UInt32) {depth : Nat} (hdepth : depth < hashWidth) :
    (onPath h depth).siblingPage h =
      h.toNat % 2 ^ depth + if h.toNat.testBit depth then 0 else 2 ^ depth := by
  rw [siblingPage, depth_onPath, page_onPath h h (Nat.le_of_lt hdepth), Nat.one_shiftLeft]
  split <;> rfl

theorem siblingPage_onPath_lt (h : UInt32) {depth : Nat} (hdepth : depth < hashWidth) :
    (onPath h depth).siblingPage h < 0x100000000 := by
  have hlt := Nat.mod_lt h.toNat (Nat.two_pow_pos depth)
  have hpow : 2 ^ (depth + 1) ≤ 2 ^ 32 := Nat.pow_le_pow_right (by decide) hdepth
  rw [siblingPage_onPath h hdepth]
  split <;> omega

theorem toNat_splitBit {node : TrieNode} (hdepth : node.depth < hashWidth) :
    node.splitBit.toNat = 2 ^ node.depth := by
  have hpow : 2 ^ node.depth < 2 ^ 32 := Nat.pow_lt_pow_right (by decide) hdepth
  rw [splitBit, UInt32.toNat_ofNat', Nat.one_shiftLeft]
  exact Nat.mod_eq_of_lt hpow

theorem hits_splitBit_iff (pair : UInt32) (h : UInt32) {depth : Nat} (hdepth : depth < hashWidth) :
    pair &&& (onPath h depth).splitBit ≠ 0 ↔ pair.toNat.testBit depth = true := by
  rw [ne_eq, ← UInt32.toNat_inj, UInt32.toNat_and, toNat_splitBit (by rwa [depth_onPath]),
    depth_onPath, Nat.and_two_pow]
  have := Nat.two_pow_pos depth
  cases pair.toNat.testBit depth <;> simp

/-- The walk of a hash stops at a depth. -/
structure IsLeaf (isSplit : Nat → Bool) (h : UInt32) (depth : Nat) : Prop where
  depth_le : depth ≤ hashWidth
  above : ∀ d < depth, isSplit (onPath h d).number = true
  stop : depth < hashWidth → isSplit (onPath h depth).number = false

theorem walk_onPath (isSplit : Nat → Bool) (h : UInt32) (remaining depth : Nat) :
    ∃ stop, depth ≤ stop ∧ stop ≤ depth + remaining ∧
      walk isSplit h (onPath h depth) remaining = onPath h stop ∧
      (∀ d, depth ≤ d → d < stop → isSplit (onPath h d).number = true) ∧
      (stop < depth + remaining → isSplit (onPath h stop).number = false) := by
  induction remaining generalizing depth with
  | zero => exact ⟨depth, Nat.le_refl _, Nat.le_refl _, rfl, fun d _ _ => by omega, by omega⟩
  | succ remaining ih =>
    cases hsplit : isSplit (onPath h depth).number with
    | false =>
      refine ⟨depth, Nat.le_refl _, by omega, ?_, fun d _ _ => by omega, fun _ => hsplit⟩
      rw [walk, hsplit, if_neg Bool.false_ne_true]
    | true =>
      obtain ⟨stop, hlo, hhi, hwalk, habove, hstop⟩ := ih (depth + 1)
      refine ⟨stop, by omega, by omega, ?_, fun d hd hlt => ?_, fun hlt => hstop (by omega)⟩
      · rw [walk, hsplit, if_pos rfl, ← onPath_succ, hwalk]
      · by_cases heq : d = depth
        · rw [heq, hsplit]
        · exact habove d (by omega) hlt

variable {isSplit : Nat → Bool} {h h' : UInt32} {depth depth' : Nat}

theorem leaf_eq_onPath (isSplit : Nat → Bool) (h : UInt32) :
    leaf isSplit h = onPath h (leaf isSplit h).depth := by
  obtain ⟨stop, -, -, hwalk, -, -⟩ := walk_onPath isSplit h hashWidth 0
  have hleaf : leaf isSplit h = onPath h stop := hwalk
  rw [hleaf, depth_onPath]

theorem isLeaf_depth (isSplit : Nat → Bool) (h : UInt32) :
    IsLeaf isSplit h (leaf isSplit h).depth := by
  obtain ⟨stop, -, hhi, hwalk, habove, hstop⟩ := walk_onPath isSplit h hashWidth 0
  have hleaf : leaf isSplit h = onPath h stop := hwalk
  rw [hleaf, depth_onPath]
  exact ⟨by omega, fun d hd => habove d (Nat.zero_le d) hd, fun hlt => hstop (by omega)⟩

theorem IsLeaf.unique (hleaf : IsLeaf isSplit h depth) (hleaf' : IsLeaf isSplit h depth') :
    depth = depth' := by
  have hle := hleaf.depth_le
  have hle' := hleaf'.depth_le
  obtain hlt | heq | hlt := Nat.lt_trichotomy depth depth'
  · have := hleaf.stop (by omega)
    rw [hleaf'.above depth hlt] at this
    cases this
  · exact heq
  · have := hleaf'.stop (by omega)
    rw [hleaf.above depth' hlt] at this
    cases this

theorem IsLeaf.depth_eq (hleaf : IsLeaf isSplit h depth) : (leaf isSplit h).depth = depth :=
  (isLeaf_depth isSplit h).unique hleaf

theorem IsLeaf.congr (hleaf : IsLeaf isSplit h depth) (agree : Agree depth h h') :
    IsLeaf isSplit h' depth := by
  refine ⟨hleaf.depth_le, fun d hd => ?_, fun hlt => ?_⟩
  · rw [← onPath_congr (agree.mono (Nat.le_of_lt hd))]
    exact hleaf.above d hd
  · rw [← onPath_congr agree]
    exact hleaf.stop hlt

theorem page_leaf (isSplit : Nat → Bool) (h : UInt32) :
    (leaf isSplit h).page h = h.toNat % 2 ^ (leaf isSplit h).depth := by
  conv_lhs => rw [leaf_eq_onPath]
  exact page_onPath h h (isLeaf_depth isSplit h).depth_le

/-- A page belongs to one leaf only. -/
theorem page_leaf_eq_iff (isSplit : Nat → Bool) (h h' : UInt32) :
    (leaf isSplit h).page h = (leaf isSplit h').page h' ↔ Agree (leaf isSplit h).depth h h' := by
  have hleaf := isLeaf_depth isSplit h
  have hleaf' := isLeaf_depth isSplit h'
  constructor
  · intro hpage
    rw [page_leaf, page_leaf] at hpage
    obtain hle | hle := Nat.le_total (leaf isSplit h).depth (leaf isSplit h').depth
    · calc h.toNat % 2 ^ (leaf isSplit h).depth
          = h.toNat % 2 ^ (leaf isSplit h).depth % 2 ^ (leaf isSplit h).depth := by
            rw [Nat.mod_mod]
        _ = h'.toNat % 2 ^ (leaf isSplit h').depth % 2 ^ (leaf isSplit h).depth := by rw [hpage]
        _ = h'.toNat % 2 ^ (leaf isSplit h).depth :=
            Nat.mod_mod_of_dvd _ (Nat.pow_dvd_pow 2 hle)
    · have agree : Agree (leaf isSplit h').depth h' h := by
        calc h'.toNat % 2 ^ (leaf isSplit h').depth
            = h'.toNat % 2 ^ (leaf isSplit h').depth % 2 ^ (leaf isSplit h').depth := by
              rw [Nat.mod_mod]
          _ = h.toNat % 2 ^ (leaf isSplit h).depth % 2 ^ (leaf isSplit h').depth := by rw [hpage]
          _ = h.toNat % 2 ^ (leaf isSplit h').depth :=
              Nat.mod_mod_of_dvd _ (Nat.pow_dvd_pow 2 hle)
      rw [hleaf.unique (hleaf'.congr agree)]
      exact agree.symm
  · intro agree
    rw [page_leaf, page_leaf, (hleaf.congr agree).depth_eq]
    exact agree

def mark (isSplit : Nat → Bool) (number : Nat) : Nat → Bool :=
  fun i => decide (i = number) || isSplit i

theorem mark_of_ne {number i : Nat} (hne : i ≠ number) : mark isSplit number i = isSplit i := by
  simp [mark, hne]

theorem mark_self (number : Nat) : mark isSplit number number = true := by
  simp [mark]

def Closed (isSplit : Nat → Bool) : Prop :=
  ∀ i, isSplit (2 * i + 1) = true ∨ isSplit (2 * i + 2) = true → isSplit i = true

theorem Closed.parent (hclosed : Closed isSplit)
    (hchild : isSplit (onPath h (depth + 1)).number = true) :
    isSplit (onPath h depth).number = true := by
  apply hclosed
  rw [number_onPath_succ] at hchild
  split at hchild
  · exact Or.inr hchild
  · exact Or.inl hchild

theorem Closed.mark (hclosed : Closed isSplit) (hleaf : IsLeaf isSplit h depth) :
    Closed (mark isSplit (onPath h depth).number) := by
  have hparent : ∀ i, 2 * i + 1 = (onPath h depth).number ∨ 2 * i + 2 = (onPath h depth).number →
      isSplit i = true := by
    intro i hi
    cases depth with
    | zero =>
      simp only [onPath, root] at hi
      omega
    | succ d =>
      have hnumber : i = (onPath h d).number := by
        rw [number_onPath_succ] at hi
        split at hi <;> omega
      rw [hnumber]
      exact hleaf.above d (Nat.lt_succ_self d)
  intro i hi
  simp only [TrieNode.mark, Bool.or_eq_true, decide_eq_true_eq] at hi ⊢
  right
  obtain (heq | hset) | (heq | hset) := hi
  · exact hparent i (Or.inl heq)
  · exact hclosed i (Or.inl hset)
  · exact hparent i (Or.inr heq)
  · exact hclosed i (Or.inr hset)

theorem IsLeaf.mark_of_agree (hleaf : IsLeaf isSplit h depth) (hclosed : Closed isSplit)
    (hdepth : depth < hashWidth) (agree : Agree depth h h') :
    IsLeaf (mark isSplit (onPath h depth).number) h' (depth + 1) := by
  have hleaf' := hleaf.congr agree
  refine ⟨hdepth, fun d hd => ?_, fun _ => ?_⟩
  · by_cases heq : d = depth
    · rw [heq, ← onPath_congr agree, mark_self]
    · rw [mark_of_ne (fun hnumber => heq (number_onPath_inj.mp hnumber).1)]
      exact hleaf'.above d (by omega)
  · rw [mark_of_ne (fun hnumber => absurd (number_onPath_inj.mp hnumber).1 (by omega))]
    by_contra hset
    have hparent := hclosed.parent (Bool.not_eq_false _ ▸ hset)
    rw [hleaf'.stop hdepth] at hparent
    cases hparent

theorem IsLeaf.mark_of_not_agree (hleaf : IsLeaf isSplit h' depth')
    (hapart : ¬ Agree depth h h') :
    IsLeaf (mark isSplit (onPath h depth).number) h' depth' := by
  have hne (d : Nat) : (onPath h' d).number ≠ (onPath h depth).number := by
    intro hnumber
    obtain ⟨rfl, agree⟩ := number_onPath_inj.mp hnumber
    exact hapart agree.symm
  refine ⟨hleaf.depth_le, fun d hd => ?_, fun hlt => ?_⟩
  · rw [mark_of_ne (hne d)]
    exact hleaf.above d hd
  · rw [mark_of_ne (hne depth')]
    exact hleaf.stop hlt

/-- In a trie nothing is split at a leaf or below it. -/
theorem IsLeaf.isSplit_below (hleaf : IsLeaf isSplit h depth) (hclosed : Closed isSplit)
    {below : Nat} (hle : depth ≤ below) (hbelow : below < hashWidth) :
    isSplit (onPath h below).number = false := by
  induction below, hle using Nat.le_induction with
  | base => exact hleaf.stop hbelow
  | succ below hle ih =>
    by_contra hset
    have hparent := hclosed.parent (Bool.not_eq_false _ ▸ hset)
    rw [ih (Nat.lt_of_succ_lt hbelow)] at hparent
    cases hparent

/-- The numbers of `count` nodes that a hash passes, from a depth on. -/
def stretch (h : UInt32) (depth count : Nat) : Finset Nat :=
  (Finset.range count).image fun i => (onPath h (depth + i)).number

theorem mem_stretch {i count : Nat} :
    i ∈ stretch h depth count ↔ ∃ d, depth ≤ d ∧ d < depth + count ∧ (onPath h d).number = i := by
  simp only [stretch, Finset.mem_image, Finset.mem_range]
  constructor
  · rintro ⟨step, hstep, rfl⟩
    exact ⟨depth + step, by omega, by omega, rfl⟩
  · rintro ⟨d, hlo, hhi, rfl⟩
    exact ⟨d - depth, by omega, by rw [Nat.add_sub_cancel' hlo]⟩

theorem number_mem_stretch_iff {h' : UInt32} {depth' count : Nat} :
    (onPath h' depth').number ∈ stretch h depth count ↔
      (depth ≤ depth' ∧ depth' < depth + count) ∧ Agree depth' h' h := by
  rw [mem_stretch]
  constructor
  · rintro ⟨d, hlo, hhi, hnumber⟩
    obtain ⟨rfl, agree⟩ := number_onPath_inj.mp hnumber
    exact ⟨⟨hlo, hhi⟩, agree.symm⟩
  · rintro ⟨⟨hlo, hhi⟩, agree⟩
    exact ⟨depth', hlo, hhi, number_onPath_inj.mpr ⟨rfl, agree.symm⟩⟩

theorem IsLeaf.isSplit_stretch (hleaf : IsLeaf isSplit h depth) (hclosed : Closed isSplit)
    {count : Nat} (hcount : depth + count ≤ hashWidth) :
    ∀ i ∈ stretch h depth count, isSplit i = false := by
  intro i hi
  obtain ⟨d, hlo, hhi, rfl⟩ := mem_stretch.mp hi
  exact hleaf.isSplit_below hclosed hlo (by omega)

@[simp] theorem card_stretch (h : UInt32) (depth count : Nat) :
    (stretch h depth count).card = count := by
  rw [stretch, Finset.card_image_of_injective _ ?_, Finset.card_range]
  intro step step' hnumber
  have hdepth := (number_onPath_inj.mp hnumber).1
  omega

@[simp] theorem stretch_zero (h : UInt32) (depth : Nat) : stretch h depth 0 = ∅ := rfl

theorem mem_stretch_succ {i count : Nat} :
    i ∈ stretch h depth (count + 1) ↔
      i = (onPath h depth).number ∨ i ∈ stretch h (depth + 1) count := by
  simp only [mem_stretch]
  constructor
  · rintro ⟨d, hlo, hhi, rfl⟩
    obtain rfl | hlt := Nat.eq_or_lt_of_le hlo
    · exact Or.inl rfl
    · exact Or.inr ⟨d, hlt, by omega, rfl⟩
  · rintro (rfl | ⟨d, hlo, hhi, rfl⟩)
    · exact ⟨depth, Nat.le_refl _, by omega, rfl⟩
    · exact ⟨d, by omega, by omega, rfl⟩

end TrieNode

end PageTrie
