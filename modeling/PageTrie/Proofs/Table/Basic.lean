import PageTrie.Proofs.Trie
import PageTrie.Page.Basic

/-! A store without bytes: the split nodes of the trie and the list of pairs on each page.
`Sound` is the invariant that all of the store's guarantees rest on. Splitting a leaf, erasing
a key and adding a pair keep it, and each is described by what it does to the pairs held. -/
namespace PageTrie

structure Table where
  isSplit : Nat → Bool
  pairs : Nat → List Pair

namespace Table

def pageOf (table : Table) (key : Bytes) : Nat :=
  (TrieNode.leaf table.isSplit (keyHash key)).page (keyHash key)

/-- The depth at which the walk of a key ends. -/
def depthOf (table : Table) (key : Bytes) : Nat :=
  (TrieNode.leaf table.isSplit (keyHash key)).depth

def bucket (table : Table) (key : Bytes) : List Pair := table.pairs (table.pageOf key)

def lookup (table : Table) (key : Bytes) : Option Bytes :=
  ((table.bucket key).find? fun pair => pair.key == key).map (·.value)

def Holds (table : Table) (pair : Pair) : Prop := ∃ page, pair ∈ table.pairs page

/-- The trie is a trie, each pair stands on the page of its key, and no page repeats a key. -/
structure Sound (table : Table) : Prop where
  closed : TrieNode.Closed table.isSplit
  small : ∀ i, table.isSplit i = true → i < 0xffffffff
  placed : ∀ page, ∀ pair ∈ table.pairs page, pair.key ≠ [] ∧ table.pageOf pair.key = page
  distinct : ∀ page, ((table.pairs page).map (·.key)).Nodup

def putPage (table : Table) (page : Nat) (pairs : List Pair) : Table :=
  { table with pairs := Function.update table.pairs page pairs }

theorem isLeaf (table : Table) (key : Bytes) :
    TrieNode.IsLeaf table.isSplit (keyHash key) (table.depthOf key) :=
  TrieNode.isLeaf_depth _ _

theorem pageOf_eq_mod (table : Table) (key : Bytes) :
    table.pageOf key = (keyHash key).toNat % 2 ^ table.depthOf key :=
  TrieNode.page_leaf _ _

theorem pageOf_eq_of_isLeaf {table : Table} {key : Bytes} {depth : Nat}
    (hleaf : TrieNode.IsLeaf table.isSplit (keyHash key) depth) :
    table.pageOf key = (keyHash key).toNat % 2 ^ depth := by
  rw [pageOf_eq_mod, depthOf, hleaf.depth_eq]

section Sound

variable {table table' : Table} (h : table.Sound)
include h

theorem Sound.holds_iff (pair : Pair) : table.Holds pair ↔ pair ∈ table.bucket pair.key := by
  constructor
  · rintro ⟨page, hpair⟩
    rw [bucket, (h.placed page pair hpair).2]
    exact hpair
  · exact fun hpair => ⟨_, hpair⟩

theorem Sound.lookup_eq_some_iff (key value : Bytes) :
    table.lookup key = some value ↔ table.Holds ⟨key, value⟩ := by
  rw [h.holds_iff]
  unfold lookup
  constructor
  · intro hlookup
    obtain ⟨pair, hfind, hvalue⟩ := Option.map_eq_some_iff.mp hlookup
    have hkey : pair.key = key := by
      have := List.find?_some hfind
      simpa using this
    have hpair := List.mem_of_find?_eq_some hfind
    have heq : (⟨key, value⟩ : Pair) = pair := by rw [← hkey, ← hvalue]
    rw [heq, hkey]
    exact hpair
  · intro hpair
    cases hfind : (table.bucket key).find? fun pair => pair.key == key with
    | none =>
      rw [List.find?_eq_none] at hfind
      exact absurd (beq_self_eq_true key) (hfind _ hpair)
    | some found =>
      have hkey : found.key = key := by
        have := List.find?_some hfind
        simpa using this
      have hfound := List.mem_of_find?_eq_some hfind
      have heq := List.inj_on_of_nodup_map (h.distinct _) hfound hpair hkey
      rw [heq, Option.map_some]

theorem Sound.lookup_eq_none_iff (key : Bytes) :
    table.lookup key = none ↔ ∀ value, ¬ table.Holds ⟨key, value⟩ := by
  rw [Option.eq_none_iff_forall_ne_some]
  simp only [ne_eq, h.lookup_eq_some_iff]

theorem Sound.key_ne_of_lookup_eq_none {key : Bytes} (habsent : table.lookup key = none)
    {pair : Pair} (hpair : table.Holds pair) : pair.key ≠ key := by
  rintro rfl
  exact (h.lookup_eq_none_iff pair.key).mp habsent pair.value hpair

theorem Sound.lookup_nil : table.lookup [] = none := by
  rw [h.lookup_eq_none_iff]
  rintro value ⟨page, hpair⟩
  exact (h.placed page _ hpair).1 rfl

theorem Sound.lookup_congr (h' : table'.Sound) {key : Bytes}
    (hholds : ∀ value, table'.Holds ⟨key, value⟩ ↔ table.Holds ⟨key, value⟩) :
    table'.lookup key = table.lookup key := by
  apply Option.ext
  intro value
  rw [h'.lookup_eq_some_iff, h.lookup_eq_some_iff, hholds]

theorem Sound.nodup_keys (count : Nat) :
    ((List.range count).flatMap fun page => (table.pairs page).map (·.key)).Nodup := by
  rw [List.nodup_flatMap]
  refine ⟨fun page _ => h.distinct page, ?_⟩
  apply List.nodup_range.imp
  intro page page' hne key hkey hkey'
  obtain ⟨pair, hpair, rfl⟩ := List.mem_map.mp hkey
  obtain ⟨pair', hpair', heq⟩ := List.mem_map.mp hkey'
  have hplaced := (h.placed page pair hpair).2
  have hplaced' := (h.placed page' pair' hpair').2
  rw [heq, hplaced] at hplaced'
  exact hne hplaced'

end Sound

def erased (table : Table) (key : Bytes) : Table :=
  table.putPage (table.pageOf key) ((table.bucket key).eraseP fun pair => pair.key == key)

def added (table : Table) (pair : Pair) : Table :=
  table.putPage (table.pageOf pair.key) (table.bucket pair.key ++ [pair])

theorem putPage_putPage (table : Table) (page : Nat) (pairs pairs' : List Pair) :
    (table.putPage page pairs).putPage page pairs' = table.putPage page pairs' :=
  congrArg (Table.mk _) (Function.update_idem _ _ _)

theorem mem_putPage {table : Table} {page : Nat} {pairs : List Pair} {pair : Pair} {other : Nat} :
    pair ∈ (table.putPage page pairs).pairs other ↔
      other = page ∧ pair ∈ pairs ∨ other ≠ page ∧ pair ∈ table.pairs other := by
  rw [putPage]
  by_cases heq : other = page
  · subst heq
    simp
  · simp [heq]

theorem Sound.putPage {table : Table} (h : table.Sound) {page : Nat} {pairs : List Pair}
    (hplaced : ∀ pair ∈ pairs, pair.key ≠ [] ∧ table.pageOf pair.key = page)
    (hdistinct : (pairs.map (·.key)).Nodup) : (table.putPage page pairs).Sound := by
  refine ⟨h.closed, h.small, ?_, ?_⟩
  · intro other pair hpair
    obtain ⟨rfl, hmem⟩ | ⟨-, hmem⟩ := mem_putPage.mp hpair
    · exact hplaced pair hmem
    · exact h.placed other pair hmem
  · intro other
    by_cases heq : other = page
    · subst heq
      simpa [Table.putPage] using hdistinct
    · simpa [Table.putPage, heq] using h.distinct other

theorem Sound.erased {table : Table} (h : table.Sound) (key : Bytes) :
    (table.erased key).Sound := by
  have hsublist := List.eraseP_sublist (p := fun pair : Pair => pair.key == key)
    (l := table.bucket key)
  apply h.putPage
  · intro pair hpair
    exact h.placed _ pair (hsublist.subset hpair)
  · exact (h.distinct _).sublist (hsublist.map _)

/-- Where no key stands twice, erasing the first pair of a key erases all of them. -/
theorem eraseP_key_eq_filter {pairs : List Pair} (hdistinct : (pairs.map (·.key)).Nodup)
    (key : Bytes) :
    pairs.eraseP (fun pair => pair.key == key) = pairs.filter fun pair => pair.key != key := by
  induction pairs with
  | nil => rfl
  | cons pair pairs ih =>
    rw [List.map_cons, List.nodup_cons] at hdistinct
    obtain ⟨hfresh, hrest⟩ := hdistinct
    by_cases hkey : pair.key = key
    · have hkept : pairs.filter (fun pair => pair.key != key) = pairs := by
        apply List.filter_eq_self.mpr
        intro other hother
        rw [bne_iff_ne]
        intro heq
        apply hfresh
        rw [hkey, ← heq]
        exact List.mem_map_of_mem hother
      rw [List.eraseP_cons_of_pos (by simpa using hkey),
        List.filter_cons_of_neg (by simpa using hkey), hkept]
    · rw [List.eraseP_cons_of_neg (by simpa using hkey),
        List.filter_cons_of_pos (by simpa using hkey), ih hrest]

theorem mem_eraseP_key {pairs : List Pair} (hdistinct : (pairs.map (·.key)).Nodup) (key : Bytes)
    (pair : Pair) :
    pair ∈ pairs.eraseP (fun pair => pair.key == key) ↔ pair ∈ pairs ∧ pair.key ≠ key := by
  rw [eraseP_key_eq_filter hdistinct, List.mem_filter, bne_iff_ne]

theorem Sound.holds_erased {table : Table} (h : table.Sound) (key : Bytes) (pair : Pair) :
    (table.erased key).Holds pair ↔ table.Holds pair ∧ pair.key ≠ key := by
  have hbucket : ((table.bucket key).map (·.key)).Nodup := h.distinct _
  simp only [Holds, Table.erased, mem_putPage, mem_eraseP_key hbucket]
  constructor
  · rintro ⟨page, ⟨rfl, hpair, hkey⟩ | ⟨hpage, hpair⟩⟩
    · exact ⟨⟨_, hpair⟩, hkey⟩
    · refine ⟨⟨page, hpair⟩, fun hkey => hpage ?_⟩
      rw [← hkey, (h.placed page pair hpair).2]
  · rintro ⟨⟨page, hpair⟩, hkey⟩
    refine ⟨page, ?_⟩
    by_cases hpage : page = table.pageOf key
    · rw [hpage] at hpair
      exact Or.inl ⟨hpage, hpair, hkey⟩
    · exact Or.inr ⟨hpage, hpair⟩

theorem Sound.erased_eq_self {table : Table} (h : table.Sound) {key : Bytes}
    (habsent : table.lookup key = none) : table.erased key = table := by
  have hsame : (table.bucket key).eraseP (fun pair => pair.key == key) = table.bucket key := by
    apply List.eraseP_of_forall_not
    intro pair hpair hkey
    exact h.key_ne_of_lookup_eq_none habsent ⟨_, hpair⟩ (beq_iff_eq.mp hkey)
  rw [Table.erased, hsame]
  exact congrArg (Table.mk _) (Function.update_eq_self _ _)

theorem Sound.added {table : Table} (h : table.Sound) {pair : Pair} (hkey : pair.key ≠ [])
    (habsent : table.lookup pair.key = none) : (table.added pair).Sound := by
  apply h.putPage
  · intro other hother
    obtain hmem | heq := List.mem_append.mp hother
    · exact h.placed _ other hmem
    · rw [List.mem_singleton.mp heq]
      exact ⟨hkey, rfl⟩
  · rw [List.map_append, List.nodup_append]
    refine ⟨h.distinct _, by simp, ?_⟩
    intro key hmem key' hmem'
    obtain ⟨other, hother, rfl⟩ := List.mem_map.mp hmem
    simp only [List.map_cons, List.map_nil, List.mem_singleton] at hmem'
    rw [hmem']
    exact h.key_ne_of_lookup_eq_none habsent ⟨_, hother⟩

theorem holds_added (table : Table) (pair other : Pair) :
    (table.added pair).Holds other ↔ table.Holds other ∨ other = pair := by
  simp only [Holds, Table.added, mem_putPage, List.mem_append, List.mem_singleton]
  constructor
  · rintro ⟨page, ⟨rfl, hother | heq⟩ | ⟨-, hother⟩⟩
    · exact Or.inl ⟨_, hother⟩
    · exact Or.inr heq
    · exact Or.inl ⟨page, hother⟩
  · rintro (⟨page, hother⟩ | heq)
    · refine ⟨page, ?_⟩
      by_cases hpage : page = table.pageOf pair.key
      · rw [hpage] at hother
        exact Or.inl ⟨hpage, Or.inl hother⟩
      · exact Or.inr ⟨hpage, hother⟩
    · exact ⟨_, Or.inl ⟨rfl, Or.inr heq⟩⟩

theorem Sound.lookup_erased {table : Table} (h : table.Sound) (key : Bytes) :
    (table.erased key).lookup = Function.update table.lookup key none := by
  funext other
  by_cases heq : other = key
  · subst heq
    rw [Function.update_self, (h.erased other).lookup_eq_none_iff]
    intro value hholds
    exact ((h.holds_erased other _).mp hholds).2 rfl
  · rw [Function.update_of_ne heq]
    apply h.lookup_congr (h.erased key)
    intro value
    rw [h.holds_erased]
    exact and_iff_left heq

theorem Sound.lookup_added {table : Table} (h : table.Sound) {pair : Pair} (hkey : pair.key ≠ [])
    (habsent : table.lookup pair.key = none) :
    (table.added pair).lookup = Function.update table.lookup pair.key (some pair.value) := by
  have hsound := h.added hkey habsent
  funext other
  by_cases heq : other = pair.key
  · subst heq
    rw [Function.update_self, hsound.lookup_eq_some_iff, holds_added]
    exact Or.inr rfl
  · rw [Function.update_of_ne heq]
    apply h.lookup_congr hsound
    intro value
    rw [holds_added]
    refine or_iff_left fun hpair => heq ?_
    rw [← hpair]

end Table

end PageTrie
