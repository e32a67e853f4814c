import PageTrie.Proofs.Trie

/-! The pages of a trie's leaves. Splitting a leaf again and again on the way of a hash takes in
the pages of its footprint: they are pages of leaves afterwards, and none but the leaf's own was
one before. -/
namespace PageTrie.TrieNode

/-- The page that the walk of some hash ends at. -/
def IsPage (isSplit : Nat → Bool) (number : Nat) : Prop :=
  ∃ hash, (leaf isSplit hash).page hash = number

def siblings (h : UInt32) (depth count : Nat) : List Nat :=
  (List.range count).map fun i => h.toNat % 2 ^ (depth + i) + 2 ^ (depth + i)

/-- The page of the leaf of a hash, and those that `count` splits there put above it. -/
def footprint (h : UInt32) (depth count : Nat) : List Nat :=
  h.toNat % 2 ^ depth :: siblings h depth count

variable {isSplit isSplit' : Nat → Bool} {h : UInt32} {depth count number : Nat}

theorem toNat_ofNat_of_lt {number depth : Nat} (hnumber : number < 2 ^ depth)
    (hdepth : depth ≤ hashWidth) : (UInt32.ofNat number).toNat = number := by
  have hpow : 2 ^ depth ≤ 2 ^ 32 := Nat.pow_le_pow_right (by decide) hdepth
  rw [UInt32.toNat_ofNat']
  exact Nat.mod_eq_of_lt (by omega)

theorem isPage_of_split (hdepth : depth ≤ hashWidth) (hnumber : number < 2 ^ depth)
    (hsplit : ∀ d < depth, isSplit (onPath (UInt32.ofNat number) d).number = true) :
    IsPage isSplit number := by
  have hleaf := isLeaf_depth isSplit (UInt32.ofNat number)
  have hle : depth ≤ (leaf isSplit (UInt32.ofNat number)).depth := by
    by_contra hlt
    have hstop := hleaf.stop (by omega)
    rw [hsplit _ (by omega)] at hstop
    cases hstop
  have hpow : 2 ^ depth ≤ 2 ^ (leaf isSplit (UInt32.ofNat number)).depth :=
    Nat.pow_le_pow_right (by decide) hle
  refine ⟨UInt32.ofNat number, ?_⟩
  rw [page_leaf, toNat_ofNat_of_lt hnumber hdepth]
  exact Nat.mod_eq_of_lt (by omega)

theorem IsPage.mono (hpage : IsPage isSplit number)
    (hgrows : ∀ i, isSplit i = true → isSplit' i = true) : IsPage isSplit' number := by
  obtain ⟨hash, rfl⟩ := hpage
  have hleaf := isLeaf_depth isSplit hash
  have hlt := Nat.mod_lt hash.toNat (Nat.two_pow_pos (leaf isSplit hash).depth)
  have agree : Agree (leaf isSplit hash).depth hash
      (UInt32.ofNat (hash.toNat % 2 ^ (leaf isSplit hash).depth)) := by
    rw [Agree, toNat_ofNat_of_lt hlt hleaf.depth_le, Nat.mod_mod]
  rw [page_leaf]
  apply isPage_of_split hleaf.depth_le hlt
  exact fun d hd => hgrows _ ((hleaf.congr agree).above d hd)

theorem IsLeaf.isPage (hleaf : IsLeaf isSplit h depth) : IsPage isSplit (h.toNat % 2 ^ depth) :=
  ⟨h, by rw [page_leaf, hleaf.depth_eq]⟩

theorem mem_siblings : number ∈ siblings h depth count ↔
    ∃ i < count, h.toNat % 2 ^ (depth + i) + 2 ^ (depth + i) = number := by
  simp only [siblings, List.mem_map, List.mem_range]

theorem footprint_succ (h : UInt32) (depth count : Nat) : footprint h depth (count + 1) =
    h.toNat % 2 ^ depth :: (h.toNat % 2 ^ depth + 2 ^ depth) :: siblings h (depth + 1) count := by
  rw [footprint, siblings, siblings, List.range_succ_eq_map, List.map_cons, List.map_map,
    Nat.add_zero]
  simp only [Function.comp_def, Nat.succ_eq_add_one, Nat.add_right_comm, Nat.add_assoc]

theorem mem_footprint_of_succ (hnumber : number ∈ footprint h (depth + 1) count) :
    number ∈ footprint h depth (count + 1) := by
  rw [footprint_succ]
  obtain rfl | hmem := List.mem_cons.mp hnumber
  · rw [mod_two_pow_succ]
    split
    · exact List.mem_cons_of_mem _ List.mem_cons_self
    · exact List.mem_cons_self
  · exact List.mem_cons_of_mem _ (List.mem_cons_of_mem _ hmem)

theorem mod_mem_footprint (h : UInt32) (depth count : Nat) :
    h.toNat % 2 ^ (depth + count) ∈ footprint h depth count := by
  induction count generalizing depth with
  | zero => exact List.mem_cons_self
  | succ count ih =>
    have hdepth : depth + (count + 1) = depth + 1 + count := by omega
    rw [hdepth]
    exact mem_footprint_of_succ (ih (depth + 1))

theorem siblingPage_mem_footprint (h : UInt32) (hdepth : depth < hashWidth) :
    (onPath h depth).siblingPage h ∈ footprint h depth 1 := by
  rw [siblingPage_onPath h hdepth, footprint_succ]
  split
  · exact List.mem_cons_self
  · exact List.mem_cons_of_mem _ List.mem_cons_self

theorem sibling_lt (h : UInt32) (depth : Nat) :
    h.toNat % 2 ^ depth + 2 ^ depth < 2 ^ (depth + 1) := by
  have hlt := Nat.mod_lt h.toNat (Nat.two_pow_pos depth)
  rw [Nat.pow_succ]
  omega

theorem nodup_footprint (h : UInt32) (depth count : Nat) : (footprint h depth count).Nodup := by
  have hlow := Nat.mod_lt h.toNat (Nat.two_pow_pos depth)
  refine List.nodup_cons.mpr ⟨?_, ?_⟩
  · intro hmem
    obtain ⟨i, -, heq⟩ := mem_siblings.mp hmem
    have hpow : 2 ^ depth ≤ 2 ^ (depth + i) := Nat.pow_le_pow_right (by decide) (by omega)
    omega
  · apply List.Nodup.map_on _ List.nodup_range
    -- A page from a later split lies above all that came before it.
    have hapart {i j : Nat} (hlt : i < j) : h.toNat % 2 ^ (depth + i) + 2 ^ (depth + i) ≠
        h.toNat % 2 ^ (depth + j) + 2 ^ (depth + j) := by
      have hbelow := sibling_lt h (depth + i)
      have hpow : 2 ^ (depth + i + 1) ≤ 2 ^ (depth + j) :=
        Nat.pow_le_pow_right (by decide) (by omega)
      omega
    intro i _ j _ heq
    obtain hlt | rfl | hlt := Nat.lt_trichotomy i j
    · exact absurd heq (hapart hlt)
    · rfl
    · exact absurd heq.symm (hapart hlt)

theorem IsLeaf.not_isPage (hleaf : IsLeaf isSplit h depth)
    (hnumber : number ∈ siblings h depth count) : ¬ IsPage isSplit number := by
  rintro ⟨hash, hpage⟩
  obtain ⟨i, -, rfl⟩ := mem_siblings.mp hnumber
  have hleaf' := isLeaf_depth isSplit hash
  rw [page_leaf] at hpage
  generalize (leaf isSplit hash).depth = depth' at hleaf' hpage
  have hlt : depth + i < depth' := by
    apply (Nat.pow_lt_pow_iff_right (by decide : 1 < 2)).mp
    have hlow := Nat.mod_lt hash.toNat (Nat.two_pow_pos depth')
    omega
  have agree : Agree depth h hash := by
    have hdvd : 2 ^ depth ∣ 2 ^ (depth + i) := Nat.pow_dvd_pow 2 (Nat.le_add_right _ _)
    calc h.toNat % 2 ^ depth
        = (h.toNat % 2 ^ (depth + i) + 2 ^ (depth + i)) % 2 ^ depth := by
          rw [Nat.add_mod, Nat.mod_mod_of_dvd _ hdvd, Nat.mod_eq_zero_of_dvd hdvd, Nat.add_zero,
            Nat.mod_mod]
      _ = hash.toNat % 2 ^ depth := by
          rw [← hpage, Nat.mod_mod_of_dvd _ (Nat.pow_dvd_pow 2 (by omega))]
  have hdepth := (hleaf.congr agree).unique hleaf'
  omega

/-- After the splits every page of the footprint is the page of a leaf. -/
theorem IsLeaf.isPage_footprint (hleaf : IsLeaf isSplit h depth)
    (hcount : depth + count ≤ hashWidth)
    (hsplit : ∀ i, isSplit' i = true ↔ isSplit i = true ∨ i ∈ stretch h depth count)
    (hnumber : number ∈ footprint h depth count) : IsPage isSplit' number := by
  obtain rfl | hmem := List.mem_cons.mp hnumber
  · exact hleaf.isPage.mono fun i hset => (hsplit i).mpr (Or.inl hset)
  · obtain ⟨i, hi, rfl⟩ := mem_siblings.mp hmem
    have hlt := sibling_lt h (depth + i)
    have hdepth : depth + i + 1 ≤ hashWidth := by omega
    have agree : Agree (depth + i) h
        (UInt32.ofNat (h.toNat % 2 ^ (depth + i) + 2 ^ (depth + i))) := by
      rw [Agree, toNat_ofNat_of_lt hlt hdepth, Nat.add_mod_right, Nat.mod_mod]
    apply isPage_of_split hdepth hlt
    intro d hd
    rw [← onPath_congr (agree.mono (Nat.le_of_lt_succ hd)), hsplit]
    obtain habove | hbelow := Nat.lt_or_ge d depth
    · exact Or.inl (hleaf.above d habove)
    · exact Or.inr (mem_stretch.mpr ⟨d, hbelow, by omega, rfl⟩)

end PageTrie.TrieNode
