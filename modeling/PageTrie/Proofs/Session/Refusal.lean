import PageTrie.Proofs.Session.Step

/-! When a pair finds no room, and what is then left of an older pair of its key. Splitting
parts a key from the pairs whose hashes differ in the bits that it goes on to. -/
namespace PageTrie

namespace Table

/-- The other pairs on the page of a key whose hashes agree with the key's to a depth. -/
def rivals (table : Table) (key : Bytes) (depth : Nat) : List Pair :=
  (table.bucket key).filter fun pair =>
    pair.key != key && decide (Agree depth (keyHash key) (keyHash pair.key))

def depthAfter (table : Table) (key : Bytes) : Nat :=
  min hashWidth (table.depthOf key + Session.splitBudget)

/-- A pair finds no room even beside the rivals that no split parts it from. -/
def Refuses (table : Table) (pair : Pair) : Prop :=
  1022 < weight (table.rivals pair.key (table.depthAfter pair.key)) + pair.footprint

theorem weight_rivals_le (table : Table) (key : Bytes) {depth depth' : Nat} (h : depth ≤ depth') :
    weight (table.rivals key depth') ≤ weight (table.rivals key depth) := by
  apply weight_le_of_sublist
  apply List.monotone_filter_right
  intro pair hpair
  rw [Bool.and_eq_true, decide_eq_true_eq] at hpair ⊢
  exact ⟨hpair.1, hpair.2.mono h⟩

variable {table : Table}

theorem Sound.pairs_erased (h : table.Sound) (key : Bytes) :
    (table.erased key).pairs ((keyHash key).toNat % 2 ^ table.depthOf key) =
      (table.bucket key).filter fun pair => pair.key != key := by
  have hbucket : ((table.bucket key).map (·.key)).Nodup := h.distinct _
  rw [← pageOf_eq_mod, Table.erased, eraseP_key_eq_filter hbucket]
  exact Function.update_self _ _ _

theorem Sound.pairs_splits_erased (h : table.Sound) (key : Bytes) (count : Nat) :
    ((table.erased key).splits (keyHash key) (table.depthOf key) count).pairs
        ((keyHash key).toNat % 2 ^ (table.depthOf key + count)) =
      table.rivals key (table.depthOf key + count) := by
  rw [(h.erased key).pairs_splits (table.isLeaf key) count, h.pairs_erased, List.filter_filter]
  apply List.filter_congr
  intro pair _
  exact Bool.and_comm _ _

theorem Sound.not_refuses (h : table.Sound) {pair : Pair} {count : Nat}
    (hcount : count ≤ Session.splitBudget) (hdepth : table.depthOf pair.key + count ≤ hashWidth)
    (hroom : ((table.erased pair.key).splits (keyHash pair.key) (table.depthOf pair.key)
      count).HasRoom (keyHash pair.key) (table.depthOf pair.key + count) pair.size) :
    ¬ table.Refuses pair := by
  rw [HasRoom, h.pairs_splits_erased] at hroom
  have hend : table.depthOf pair.key + count ≤ table.depthAfter pair.key := by
    unfold depthAfter
    omega
  have hrivals := table.weight_rivals_le pair.key hend
  unfold Refuses Pair.footprint
  omega

theorem Sound.refuses (h : table.Sound) {pair : Pair} {count : Nat}
    (hcount : count = min Session.splitBudget (hashWidth - table.depthOf pair.key))
    (hfull : ¬ ((table.erased pair.key).splits (keyHash pair.key) (table.depthOf pair.key)
      count).HasRoom (keyHash pair.key) (table.depthOf pair.key + count) pair.size) :
    table.Refuses pair := by
  have hend : table.depthOf pair.key + count = table.depthAfter pair.key := by
    have hle : table.depthOf pair.key ≤ hashWidth := (table.isLeaf pair.key).depth_le
    unfold depthAfter
    omega
  rw [HasRoom, h.pairs_splits_erased, hend] at hfull
  exact Nat.lt_of_not_le hfull

/-- A new pair finds room at the leaf of its key after a number of splits, and not before. -/
structure Takes (table : Table) (pair : Pair) (count : Nat) : Prop where
  key_ne : pair.key ≠ []
  size_le : pair.size ≤ pairLimit
  unbound : table.lookup pair.key = none
  count_le : count ≤ Session.splitBudget
  depth_le : table.depthOf pair.key + count ≤ hashWidth
  room : weight (table.rivals pair.key (table.depthOf pair.key + count)) + pair.footprint ≤ 1022
  full : ∀ i < count,
    1022 < weight (table.rivals pair.key (table.depthOf pair.key + i)) + pair.footprint

instance (table : Table) (pair : Pair) (count : Nat) : Decidable (table.Takes pair count) :=
  decidable_of_iff
    (pair.key ≠ [] ∧ pair.size ≤ pairLimit ∧ table.lookup pair.key = none ∧
      count ≤ Session.splitBudget ∧ table.depthOf pair.key + count ≤ hashWidth ∧
      weight (table.rivals pair.key (table.depthOf pair.key + count)) + pair.footprint ≤ 1022 ∧
      ∀ i < count,
        1022 < weight (table.rivals pair.key (table.depthOf pair.key + i)) + pair.footprint)
    ⟨fun ⟨key_ne, size_le, unbound, count_le, depth_le, room, full⟩ =>
      ⟨key_ne, size_le, unbound, count_le, depth_le, room, full⟩,
    fun h => ⟨h.key_ne, h.size_le, h.unbound, h.count_le, h.depth_le, h.room, h.full⟩⟩

def taking (table : Table) (pair : Pair) (count : Nat) : Table :=
  (table.splits (keyHash pair.key) (table.depthOf pair.key) count).added pair

theorem Sound.taking (h : table.Sound) {pair : Pair} {count : Nat}
    (htakes : table.Takes pair count) : (table.taking pair count).Sound := by
  obtain ⟨hsound, -, hlookup⟩ := h.splits (table.isLeaf pair.key) htakes.depth_le
  exact hsound.added htakes.key_ne (by rw [hlookup, htakes.unbound])

theorem Sound.holds_taking (h : table.Sound) {pair : Pair} {count : Nat}
    (htakes : table.Takes pair count) (other : Pair) :
    (table.taking pair count).Holds other ↔ table.Holds other ∨ other = pair := by
  obtain ⟨hsound, -, hlookup⟩ := h.splits (table.isLeaf pair.key) htakes.depth_le
  rw [Table.taking, holds_added, ← hsound.lookup_eq_some_iff, hlookup, h.lookup_eq_some_iff]

theorem Takes.count_eq {pair : Pair} {count count' : Nat} (htakes : table.Takes pair count)
    (hroom : weight (table.rivals pair.key (table.depthOf pair.key + count')) +
      pair.footprint ≤ 1022)
    (hfull : ∀ i < count',
      1022 < weight (table.rivals pair.key (table.depthOf pair.key + i)) + pair.footprint) :
    count' = count := by
  obtain hlt | heq | hlt := Nat.lt_trichotomy count' count
  · exact absurd hroom (Nat.not_le_of_lt (htakes.full count' hlt))
  · exact heq
  · exact absurd htakes.room (Nat.not_le_of_lt (hfull count hlt))

def TakesAll (table : Table) : List (Pair × Nat) → Prop
  | [] => True
  | (pair, count) :: takings => table.Takes pair count ∧ (table.taking pair count).TakesAll takings

def takingAll (table : Table) (takings : List (Pair × Nat)) : Table :=
  takings.foldl (fun table taking => table.taking taking.1 taking.2) table

theorem Sound.takingAll {table : Table} (h : table.Sound) {takings : List (Pair × Nat)}
    (htakings : table.TakesAll takings) :
    (table.takingAll takings).Sound ∧ ∀ pair, (table.takingAll takings).Holds pair ↔
      table.Holds pair ∨ pair ∈ takings.map (·.1) := by
  induction takings generalizing table with
  | nil => exact ⟨h, fun pair => by simp [Table.takingAll]⟩
  | cons taking takings ih =>
    obtain ⟨htakes, hrest⟩ := htakings
    obtain ⟨hsound, hholds⟩ := ih (h.taking htakes) hrest
    refine ⟨hsound, fun pair => (hholds pair).trans ?_⟩
    rw [h.holds_taking htakes, List.map_cons, List.mem_cons, or_assoc]

end Table

namespace Session

inductive Replacing (session : Session) (pair : Pair) : Except StoreError Reply × Session → Prop
  | stored {session' : Session} (room : ¬ session.table.Refuses pair)
      (lookup_eq : session'.table.lookup =
        Function.update session.table.lookup pair.key (some pair.value)) :
      Replacing session pair (.ok (.status .stored), session')
  | refused {session' : Session} (full : session.table.Refuses pair)
      (lookup_eq : session'.table.lookup =
        if session.table.depthOf pair.key = hashWidth then session.table.lookup
        else Function.update session.table.lookup pair.key none) :
      Replacing session pair (.error (.cannotMakeRoom splitBudget), session')

/-- A pair is refused just when its rivals leave no room, and then its key loses the value it
had, unless the leaf was too deep to be split at all. -/
theorem Sound.replace {session : Session} (h : session.Sound) {pair : Pair} (hkey : pair.key ≠ [])
    (hsize : pair.size ≤ pairLimit) (hwritable : session.config.isReadOnly = false) :
    session.Replacing pair (session.step (.store pair .replace)) := by
  have hstore := h.store pair .replace
  generalize hresult : (Session.store pair .replace).run session = result at hstore
  cases hstore with
  | rejected cause reason => exact absurd reason (not_rejected hkey hsize hwritable)
  | «exists» inserting bound recalls sound => cases inserting
  | stored key_ne unbound placement =>
    rw [step_ok (run_map_ok _ hresult)]
    have hlookup := h.lookup_placed key_ne placement
    cases placement with
    | placed count count_le leaf sound alike table_eq room full =>
      exact .stored (h.table.not_refuses count_le leaf.depth_le room) hlookup
  | refused key_ne unbound placement =>
    rw [step_error (run_map_error _ hresult)]
    obtain ⟨rfl, -, hlookup⟩ := h.refused placement
    cases placement with
    | refused count count_eq grounded forgotten alike unsplit split full =>
      exact .refused (h.table.refuses count_eq (full count (Nat.le_refl count))) hlookup

theorem Sound.table_insert {session : Session} (h : session.Sound)
    (hwritable : session.config.isReadOnly = false) {pair : Pair} {count : Nat}
    (htakes : session.table.Takes pair count) :
    (session.step (.store pair .insert)).2.table = session.table.taking pair count := by
  have hstore := h.store pair .insert
  have habsent := htakes.unbound
  have hfits (count : Nat) : ((session.table.erased pair.key).splits (keyHash pair.key)
      (session.table.depthOf pair.key) count).HasRoom (keyHash pair.key)
        (session.table.depthOf pair.key + count) pair.size ↔
      weight (session.table.rivals pair.key (session.table.depthOf pair.key + count)) +
        pair.footprint ≤ 1022 := by
    rw [Table.HasRoom, h.table.pairs_splits_erased]
    rfl
  generalize hresult : (Session.store pair .insert).run session = result at hstore
  cases hstore with
  | rejected cause reason =>
    exact absurd reason (not_rejected htakes.key_ne htakes.size_le hwritable)
  | «exists» inserting bound recalls sound =>
    rw [habsent] at bound
    cases bound
  | stored key_ne unbound placement =>
    rw [step_ok (run_map_ok _ hresult)]
    cases placement with
    | placed count' count_le leaf sound alike table_eq room full =>
      have hcount : count' = count := htakes.count_eq ((hfits count').mp room)
        fun i hi => Nat.lt_of_not_le fun hle => full i hi ((hfits i).mpr hle)
      rw [table_eq, h.table.erased_eq_self habsent, hcount]
      rfl
  | refused key_ne unbound placement =>
    cases placement with
    | refused count' count_eq grounded forgotten alike unsplit split full =>
      have hle : count ≤ count' := by
        rw [count_eq]
        exact Nat.le_min.mpr ⟨htakes.count_le, Nat.le_sub_of_add_le' htakes.depth_le⟩
      exact absurd ((hfits count).mpr htakes.room) (full count hle)

end Session

end PageTrie
