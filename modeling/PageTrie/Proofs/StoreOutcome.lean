import PageTrie.Proofs.Replacement

/-! How storing a pair ends, read off the two files alone: which pairs it has to share a page
with after each split, how many splits are made, and which bits and which page change. -/
namespace PageTrie

namespace Table

/-- The pairs that a new pair of a key shares its page with, once that is split down to a
depth. The pair that it replaces is not one of them. -/
def company (table : Table) (key : Bytes) (mode : PutMode) (depth : Nat) : List Pair :=
  let settled := match mode with
    | .insert => table.bucket key
    | .replace => (table.bucket key).filter fun pair => pair.key != key
  settled.filter fun pair => decide (Agree depth (keyHash key) (keyHash pair.key))

def Fits (table : Table) (pair : Pair) (mode : PutMode) (count : Nat) : Prop :=
  weight (table.company pair.key mode (table.depthOf pair.key + count)) + (pair.size + 4) ≤ 1022

def splitsLeft (table : Table) (key : Bytes) : Nat :=
  min Session.splitBudget (hashWidth - table.depthOf key)

structure Gains (table table' : Table) (h : UInt32) (depth count : Nat) : Prop where
  split_iff : ∀ i, table'.isSplit i = true ↔
    table.isSplit i = true ∨ i ∈ TrieNode.stretch h depth count
  unsplit : ∀ i ∈ TrieNode.stretch h depth count, table.isSplit i = false
  card_eq : (TrieNode.stretch h depth count).card = count

/-- What storing a pair answers, and the table that it leaves. -/
inductive Settles (table : Table) (pair : Pair) (mode : PutMode) :
    Except StoreError Reply → Table → Prop
  | exists (inserting : mode = .insert) (bound : ∃ old ∈ table.bucket pair.key, old.key = pair.key) :
      Settles table pair mode (.ok (.status .exists)) table
  | stored (count : Nat) {table' : Table}
      (unbound : mode = .insert → ∀ old ∈ table.bucket pair.key, old.key ≠ pair.key)
      (least : IsLeast {count | count ≤ table.splitsLeft pair.key ∧ table.Fits pair mode count}
        count)
      (gains : table.Gains table' (keyHash pair.key) (table.depthOf pair.key) count)
      (placed : table'.pairs
          (keyHash pair.key &&& lowMask (table.depthOf pair.key + count)).toNat =
        table.company pair.key mode (table.depthOf pair.key + count) ++ [pair]) :
      Settles table pair mode (.ok (.status .stored)) table'
  | refused {table' : Table}
      (unbound : mode = .insert → ∀ old ∈ table.bucket pair.key, old.key ≠ pair.key)
      (full : ∀ count ≤ table.splitsLeft pair.key, ¬ table.Fits pair mode count)
      (gains : table.Gains table' (keyHash pair.key) (table.depthOf pair.key)
        (table.splitsLeft pair.key)) :
      Settles table pair mode (.error (.cannotMakeRoom Session.splitBudget)) table'

variable {table : Table}

theorem Sound.bound_iff (h : table.Sound) (key : Bytes) :
    (table.lookup key).isSome = true ↔ ∃ old ∈ table.bucket key, old.key = key := by
  rw [Option.isSome_iff_exists]
  constructor
  · rintro ⟨value, hlookup⟩
    rw [h.lookup_eq_some_iff, h.holds_iff] at hlookup
    exact ⟨_, hlookup, rfl⟩
  · rintro ⟨old, hold, rfl⟩
    exact ⟨old.value, (h.lookup_eq_some_iff _ _).mpr ⟨_, hold⟩⟩

theorem Sound.key_ne_of_unbound (h : table.Sound) {key : Bytes} (habsent : table.lookup key = none)
    {old : Pair} (hold : old ∈ table.bucket key) : old.key ≠ key :=
  h.key_ne_of_lookup_eq_none habsent ⟨_, hold⟩

theorem Sound.company_eq_rivals (h : table.Sound) {key : Bytes} {mode : PutMode}
    (hunbound : mode = .insert → table.lookup key = none) (depth : Nat) :
    table.company key mode depth = table.rivals key depth := by
  have hswap (pairs : List Pair) : (pairs.filter fun pair => pair.key != key).filter
        (fun pair => decide (Agree depth (keyHash key) (keyHash pair.key))) =
      pairs.filter fun pair =>
        pair.key != key && decide (Agree depth (keyHash key) (keyHash pair.key)) := by
    rw [List.filter_filter]
    simp only [Bool.and_comm]
  cases mode with
  | replace => exact hswap (table.bucket key)
  | insert =>
    have hkept : (table.bucket key).filter (fun pair => pair.key != key) = table.bucket key := by
      apply List.filter_eq_self.mpr
      intro old hold
      exact bne_iff_ne.mpr (h.key_ne_of_unbound (hunbound rfl) hold)
    rw [rivals, ← hswap, hkept]
    rfl

theorem Sound.hasRoom_splits_iff (h : table.Sound) {pair : Pair} {mode : PutMode}
    (hunbound : mode = .insert → table.lookup pair.key = none) (count : Nat) :
    ((table.erased pair.key).splits (keyHash pair.key) (table.depthOf pair.key) count).HasRoom
        (keyHash pair.key) (table.depthOf pair.key + count) pair.size ↔
      table.Fits pair mode count := by
  rw [HasRoom, h.pairs_splits_erased, Fits, h.company_eq_rivals hunbound]

theorem Sound.gains_splits (h : table.Sound) (key : Bytes) {count : Nat}
    (hcount : table.depthOf key + count ≤ hashWidth) {table' : Table}
    (hsplit : table'.isSplit =
      ((table.erased key).splits (keyHash key) (table.depthOf key) count).isSplit) :
    table.Gains table' (keyHash key) (table.depthOf key) count where
  split_iff i := by
    rw [hsplit, isSplit_splits]
    rfl
  unsplit := (table.isLeaf key).isSplit_stretch h.closed hcount
  card_eq := TrieNode.card_stretch _ _ _

end Table

namespace Session

variable {session : Session}

theorem admitted_of_stored {pair : Pair} {mode : PutMode}
    (h : (session.step (.store pair mode)).1 = .ok (.status .stored)) :
    pair.key ≠ [] ∧ session.config.isReadOnly = false ∧ pair.size ≤ pairLimit := by
  have hrun (cause : StoreError) (hrejected : (Session.store pair mode).run session =
      .error cause session) : False := by
    rw [step_error (run_map_error _ hrejected)] at h
    cases h
  rw [run_store] at hrun
  split_ifs at hrun with hkey hreadOnly hsize
  · exact (hrun _ rfl).elim
  · exact (hrun _ rfl).elim
  · exact (hrun _ rfl).elim
  · exact ⟨hkey, eq_false_of_ne_true hreadOnly, Nat.le_of_not_lt hsize⟩

section Settles

variable (h : session.Sound) {pair : Pair} {mode : PutMode} {session' : Session}
  (hunbound : mode = .insert → session.table.lookup pair.key = none)
include h hunbound

/-- Splitting goes on only until there is room, so a pair that finds room finds it at the least
number of splits that makes any. -/
theorem Sound.settles_placed
    (hplacement : session.Placement (session.table.erased pair.key) pair
      (session.table.depthOf pair.key) (.ok () session')) :
    session.table.Settles pair mode (.ok (.status .stored)) session'.table := by
  have hroom := h.table.hasRoom_splits_iff hunbound
  cases hplacement with
  | placed count count_le leaf sound alike table_eq room full =>
    have hle : session.table.depthOf pair.key + count ≤ hashWidth := leaf.depth_le
    have hcount : count ≤ session.table.splitsLeft pair.key := by
      have hdepth := (session.table.isLeaf pair.key).depth_le
      unfold Table.splitsLeft
      omega
    have hleast : count ∈ lowerBounds
        {count | count ≤ session.table.splitsLeft pair.key ∧
          session.table.Fits pair mode count} := by
      rintro fewer ⟨-, hfits⟩
      by_contra hlt
      exact full fewer (Nat.lt_of_not_le hlt) ((hroom fewer).mpr hfits)
    refine .stored count (fun hmode old => h.table.key_ne_of_unbound (hunbound hmode))
      ⟨⟨hcount, (hroom count).mp room⟩, hleast⟩
      (h.table.gains_splits pair.key hle (by rw [table_eq]; rfl)) ?_
    rw [toNat_and_lowMask _ _ hle, Nat.one_shiftLeft, table_eq, Table.added, Table.bucket,
      Table.pageOf_eq_of_isLeaf leaf, h.table.pairs_splits_erased,
      ← h.table.company_eq_rivals hunbound]
    exact Function.update_self _ _ _

theorem Sound.settles_refused {cause : StoreError}
    (hplacement : session.Placement (session.table.erased pair.key) pair
      (session.table.depthOf pair.key) (.error cause session')) :
    session.table.Settles pair mode (.error cause) session'.table := by
  have hroom := h.table.hasRoom_splits_iff hunbound
  have hdepth := (session.table.isLeaf pair.key).depth_le
  cases hplacement with
  | refused count count_eq grounded forgotten alike unsplit split full =>
    have hleft : count = session.table.splitsLeft pair.key := count_eq
    have hsplit : session'.table.isSplit = ((session.table.erased pair.key).splits
        (keyHash pair.key) (session.table.depthOf pair.key) count).isSplit := by
      obtain hzero | hpos := Nat.eq_zero_or_pos count
      · rw [unsplit hzero, hzero]
        rfl
      · rw [split hpos]
    rw [hleft] at full hsplit
    refine .refused (fun hmode old => h.table.key_ne_of_unbound (hunbound hmode))
      (fun fewer hfewer hfits => full fewer hfewer ((hroom fewer).mpr hfits))
      (h.table.gains_splits pair.key ?_ hsplit)
    unfold Table.splitsLeft
    omega

end Settles

theorem Sound.settles (h : session.Sound) {pair : Pair} (hkey : pair.key ≠ [])
    (hsize : pair.size ≤ pairLimit) (hwritable : session.config.isReadOnly = false)
    (mode : PutMode) :
    session.table.Settles pair mode (session.step (.store pair mode)).1
      (session.step (.store pair mode)).2.table := by
  have hstore := h.store pair mode
  generalize hresult : (Session.store pair mode).run session = result at hstore
  cases hstore with
  | rejected cause reason => exact absurd reason (not_rejected hkey hsize hwritable)
  | «exists» inserting bound recalls sound =>
    rw [step_ok (run_map_ok _ hresult), recalls.table_eq]
    exact .exists inserting ((h.table.bound_iff pair.key).mp bound)
  | stored key_ne unbound placement =>
    rw [step_ok (run_map_ok _ hresult)]
    exact h.settles_placed unbound placement
  | refused key_ne unbound placement =>
    have hsettles := h.settles_refused unbound placement
    rw [step_error (run_map_error _ hresult)]
    exact hsettles

end Session

namespace Host

/-- Storing a pair of allowed size answers `exists` only to an insertion of a key that is
there; otherwise the least number of splits that makes room decides where the pair goes and
which bits are added, and a pair is refused only when all splits in reach make none. -/
theorem store_settles {host : Host} {slot : Nat} {path : String} (h : Reached slot path host)
    {directory pages : SparseFile} (hfiles : host.Files path directory pages)
    (hwritable : host.IsWritable slot) {pair : Pair} (hkey : pair.key ≠ [])
    (hsize : pair.size ≤ pairLimit) (mode : PutMode) :
    ∃ answer directory' pages', (host.call slot (.store pair mode)).1 = some answer ∧
      (host.call slot (.store pair mode)).2.Files path directory' pages' ∧
      (Table.ofFiles directory pages).Settles pair mode answer
        (Table.ofFiles directory' pages') := by
  obtain ⟨session, hserves, rfl⟩ := h.serves
  obtain ⟨hanswer, hleft⟩ := hserves.call (.store pair mode)
  obtain ⟨directory', pages', hfiles', -⟩ := hleft.files
  have htable := hleft.ofFiles_eq hfiles'
  rw [(hserves.sound.effect _).alike.config] at hfiles'
  refine ⟨_, directory', pages', hanswer, hfiles', ?_⟩
  rw [hserves.ofFiles_eq hfiles, htable]
  exact hserves.sound.settles hkey hsize (hserves.isWritable hwritable) mode

theorem fits_flat_iff (pairs : List Pair) (pair : Pair) (count : Nat) :
    (Table.flat pairs).Fits pair .insert count ↔
      weight (pairs.filter fun other =>
        decide (Agree count (keyHash pair.key) (keyHash other.key))) + (pair.size + 4) ≤ 1022 := by
  simp only [Table.Fits, Table.company, Table.bucket_flat, Table.depthOf_flat, Nat.zero_add]

theorem store_settles_single : ∃ directory pages directory' pages',
    single.Files "t" directory pages ∧
    (single.call 0 (.store (longPair [98]) .insert)).1 = some (.ok (.status .stored)) ∧
    (single.call 0 (.store (longPair [98]) .insert)).2.Files "t" directory' pages' ∧
    (Table.ofFiles directory pages).Gains (Table.ofFiles directory' pages') (keyHash [98]) 0 1 := by
  obtain ⟨session, hserves, hconfig, htable⟩ := isFlat_single
  obtain ⟨directory, pages, hfiles, -⟩ := hserves.files
  have hflat := (hserves.ofFiles_eq hfiles).trans htable
  rw [hconfig] at hfiles
  have hsize : (longPair [98]).size ≤ pairLimit := by
    rw [size_longPair]
    decide
  obtain ⟨answer, directory', pages', hanswer, hfiles', hsettles⟩ :=
    store_settles reached_single hfiles (isFlat_single.isWritable rfl) (List.cons_ne_nil 98 [])
      hsize .insert
  have hfull : ¬ (Table.flat [longPair [97, 122]]).Fits (longPair [98]) .insert 0 := by
    rw [fits_flat_iff]
    simp [Agree, Nat.mod_one, Pair.footprint, size_longPair]
  have hroom : (Table.flat [longPair [97, 122]]).Fits (longPair [98]) .insert 1 := by
    have hapart : ¬ Agree 1 (keyHash [98]) (keyHash [97, 122]) := by decide
    rw [fits_flat_iff]
    simp [hapart, size_longPair]
  refine ⟨directory, pages, directory', pages', hfiles, ?_⟩
  rw [hflat] at hsettles ⊢
  generalize Table.ofFiles directory' pages' = table' at hsettles ⊢
  cases hsettles with
  | «exists» inserting bound =>
    obtain ⟨old, hold, hkey⟩ := bound
    rw [Table.bucket_flat] at hold
    rw [List.mem_singleton.mp hold] at hkey
    cases hkey
  | refused unbound full gains => exact absurd hroom (full 1 (by decide))
  | stored count unbound least gains placed =>
    have hle : count ≤ 1 := least.2 ⟨by decide, hroom⟩
    have hne : count ≠ 0 := fun hzero => hfull (hzero ▸ least.1.2)
    obtain rfl : count = 1 := by omega
    exact ⟨hanswer, hfiles', gains⟩

end Host

end PageTrie
