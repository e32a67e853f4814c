import PageTrie.Proofs.MapRefinement
import PageTrie.Proofs.Structure
import PageTrie.Proofs.Session.Refusal

/-! What a refused replacement leaves behind. The old pair is off its page before the splits
are written, so the first of them makes the loss last; only a leaf that cannot be split at all
leaves the old value where it was. -/
namespace PageTrie

def Table.ofFiles (directory pages : SparseFile) : Table where
  isSplit := directory.bit
  pairs number := (pages.page number).toList

theorem Session.ofFiles_eq {session : Session} {directory pages : SparseFile}
    (hdirectory : session.directory.file.content = .regular directory)
    (hpages : session.pages.content = .regular pages) :
    Table.ofFiles directory pages = session.table := by
  rw [Table.ofFiles, bit_eq_isSplit hdirectory]
  simp only [page_eq_diskPage hpages]
  rfl

namespace Table

def flat (pairs : List Pair) : Table := Table.empty.putPage 0 pairs

variable (pairs : List Pair) (key : Bytes)

theorem depthOf_flat : (flat pairs).depthOf key = 0 := rfl

theorem pageOf_flat : (flat pairs).pageOf key = 0 := by
  rw [pageOf_eq_mod, depthOf_flat, Nat.pow_zero, Nat.mod_one]

theorem bucket_flat : (flat pairs).bucket key = pairs := by
  rw [bucket, pageOf_flat]
  exact Function.update_self 0 pairs Table.empty.pairs

theorem holds_flat {pairs : List Pair} {pair : Pair} : (flat pairs).Holds pair ↔ pair ∈ pairs := by
  simp [Holds, flat, mem_putPage, Table.empty]

theorem taking_flat (pair : Pair) : (flat pairs).taking pair 0 = flat (pairs ++ [pair]) := by
  rw [taking, splits, added, bucket_flat, pageOf_flat, flat, putPage_putPage, flat]

theorem takes_flat {pairs : List Pair} {pair : Pair} (hkey : pair.key ≠ [])
    (hsize : pair.size ≤ pairLimit) (habsent : ∀ other ∈ pairs, other.key ≠ pair.key)
    (hroom : weight pairs + pair.footprint ≤ 1022) : (flat pairs).Takes pair 0 where
  key_ne := hkey
  size_le := hsize
  unbound := by
    rw [lookup, bucket_flat, Option.map_eq_none_iff, List.find?_eq_none]
    intro other hother hsame
    exact habsent other hother (beq_iff_eq.mp hsame)
  count_le := Nat.zero_le _
  depth_le := by
    rw [depthOf_flat]
    exact Nat.zero_le _
  room := by
    rw [rivals, bucket_flat]
    exact (Nat.add_le_add_right (weight_le_of_sublist List.filter_sublist) _).trans hroom
  full i hi := absurd hi (Nat.not_lt_zero i)

end Table

namespace Host

/-- What a slot answers for a key now, and once its store is opened again. -/
structure Finds (host : Host) (slot : Nat) (path : String) (key : Bytes)
    (value : Option Bytes) : Prop where
  fetch : (host.call slot (.fetch key)).1 = some (.ok (.value value))
  reopened : ∀ config : Config, config.path = path → config.mode ≠ .truncate →
    (host.openSlot slot config).1 = .ok () ∧
      ((host.openSlot slot config).2.call slot (.fetch key)).1 = some (.ok (.value value))

section Serves

variable {host : Host} {slot : Nat} {session : Session}

theorem Serves.ofFiles_eq (h : host.Serves slot session) {directory pages : SparseFile}
    (hfiles : host.Files session.config.path directory pages) :
    Table.ofFiles directory pages = session.table := by
  obtain ⟨directory', pages', hfiles', hdirectory, hpages⟩ := h.files
  obtain ⟨rfl, rfl⟩ := hfiles.unique hfiles'
  exact Session.ofFiles_eq hdirectory hpages

theorem Serves.finds (h : host.Serves slot session) {key : Bytes} (hkey : key ≠ []) :
    host.Finds slot session.config.path key (session.table.lookup key) := by
  refine ⟨h.shows.fetch key hkey, fun config hpath hmode => ?_⟩
  obtain ⟨hopened, session', hserves, -, htable, -⟩ := h.reopen hpath
  rw [if_neg hmode] at htable
  rw [← htable]
  exact ⟨hopened, hserves.shows.fetch key hkey⟩

theorem Serves.lookup_eq (h : host.Serves slot session) {key value : Bytes}
    (hbound : (host.call slot (.fetch key)).1 = some (.ok (.value (some value)))) :
    key ≠ [] ∧ session.table.lookup key = some value := by
  have hkey : key ≠ [] := by
    rintro rfl
    rw [(h.call _).1, Session.step_error (run_map_error _ Session.run_fetch_nil)] at hbound
    cases hbound
  rw [h.shows.fetch key hkey, Option.some.injEq, Except.ok.injEq, Reply.value.injEq] at hbound
  exact ⟨hkey, hbound⟩

theorem Serves.replace_stored (h : host.Serves slot session) {pair : Pair} (hkey : pair.key ≠ [])
    (hsize : pair.size ≤ pairLimit) (hwritable : session.config.isReadOnly = false)
    (hroom : ¬ session.table.Refuses pair) :
    (host.call slot (.store pair .replace)).1 = some (.ok (.status .stored)) := by
  have hreplace := h.sound.replace hkey hsize hwritable
  rw [(h.call _).1]
  generalize session.step (.store pair .replace) = answer at hreplace
  cases hreplace with
  | stored room lookup_eq => rfl
  | refused full lookup_eq => exact absurd full hroom

/-- A pair without room is refused, and unless the leaf of its key is as deep as can be, the
key then has no value. -/
theorem Serves.replace_refused (h : host.Serves slot session) (pair : Pair) (hkey : pair.key ≠ [])
    (hsize : pair.size ≤ pairLimit) (hwritable : session.config.isReadOnly = false)
    (hfull : session.table.Refuses pair) :
    (host.call slot (.store pair .replace)).1 =
        some (.error (.cannotMakeRoom Session.splitBudget)) ∧
      (host.call slot (.store pair .replace)).2.Finds slot session.config.path pair.key
        (if session.table.depthOf pair.key = hashWidth then session.table.lookup pair.key
          else none) := by
  obtain ⟨hanswer, hserves⟩ := h.call (.store pair .replace)
  have hreplace := h.sound.replace hkey hsize hwritable
  have hconfig := (h.sound.effect (.store pair .replace)).alike.config
  have hfinds := hserves.finds hkey
  rw [hconfig] at hfinds
  rw [hanswer]
  generalize session.step (.store pair .replace) = answer at hreplace hfinds
  cases hreplace with
  | stored room lookup_eq => exact absurd hfull room
  | refused full lookup_eq =>
    dsimp only at hfinds
    rw [lookup_eq] at hfinds
    refine ⟨rfl, ?_⟩
    by_cases hend : session.table.depthOf pair.key = hashWidth
    · rw [if_pos hend] at hfinds ⊢
      exact hfinds
    · rw [if_neg hend, Function.update_self] at hfinds
      rw [if_neg hend]
      exact hfinds

end Serves

/-- A pair that is to replace an older one is refused just when its rivals leave it no room.
The key keeps its old value if its leaf has all bits of a hash behind it, and has none
otherwise, in the same store and in the store opened again. -/
theorem fetch_after_refused_replace {host : Host} {slot : Nat} {path : String}
    (h : Reached slot path host) {directory pages : SparseFile}
    (hfiles : host.Files path directory pages) (hwritable : host.IsWritable slot) {pair : Pair}
    {old : Bytes} (hbound : (host.call slot (.fetch pair.key)).1 = some (.ok (.value (some old))))
    (hsize : pair.size ≤ pairLimit) :
    ((∃ cause, (host.call slot (.store pair .replace)).1 = some (.error cause)) ↔
      (Table.ofFiles directory pages).Refuses pair) ∧
    ∀ cause, (host.call slot (.store pair .replace)).1 = some (.error cause) →
      cause = .cannotMakeRoom Session.splitBudget ∧
      (host.call slot (.store pair .replace)).2.Finds slot path pair.key
        (if (Table.ofFiles directory pages).depthOf pair.key = hashWidth then some old
          else none) := by
  obtain ⟨session, hserves, rfl⟩ := h.serves
  obtain ⟨hkey, hlookup⟩ := hserves.lookup_eq hbound
  have hmode := hserves.isWritable hwritable
  rw [hserves.ofFiles_eq hfiles]
  by_cases hfull : session.table.Refuses pair
  · obtain ⟨hanswer, hfinds⟩ := hserves.replace_refused pair hkey hsize hmode hfull
    rw [hlookup] at hfinds
    refine ⟨iff_of_true ⟨_, hanswer⟩ hfull, ?_⟩
    intro cause hcause
    rw [hanswer] at hcause
    cases hcause
    exact ⟨rfl, hfinds⟩
  · have hanswer := hserves.replace_stored hkey hsize hmode hfull
    refine ⟨iff_of_false ?_ hfull, ?_⟩
    · rintro ⟨cause, hcause⟩
      rw [hanswer] at hcause
      cases hcause
    · intro cause hcause
      rw [hanswer] at hcause
      cases hcause

def IsFlat (host : Host) (slot : Nat) (config : Config) (pairs : List Pair) : Prop :=
  host.Bears slot config (Table.flat pairs)

theorem IsFlat.insert {host : Host} {slot : Nat} {config : Config} {pairs : List Pair}
    (h : host.IsFlat slot config pairs) (hwritable : config.isReadOnly = false) {pair : Pair}
    (hkey : pair.key ≠ []) (hsize : pair.size ≤ pairLimit)
    (habsent : ∀ other ∈ pairs, other.key ≠ pair.key)
    (hroom : weight pairs + pair.footprint ≤ 1022) :
    (host.after slot (.call (.store pair .insert))).IsFlat slot config (pairs ++ [pair]) := by
  rw [IsFlat, ← Table.taking_flat]
  exact Bears.insert h hwritable (Table.takes_flat hkey hsize habsent hroom)

theorem IsFlat.isWritable {host : Host} {slot : Nat} {config : Config} {pairs : List Pair}
    (h : host.IsFlat slot config pairs) (hwritable : config.isReadOnly = false) :
    host.IsWritable slot := by
  obtain ⟨session, hserves, rfl, -⟩ := h
  exact ⟨session, hserves.session?_eq, hwritable⟩

def single : Host :=
  newStore.after 0 (.call (.store (longPair [97, 122]) .insert))

/-- A store of two pairs whose hashes agree in their lowest sixteen bits. -/
def crowded : Host := single.after 0 (.call (.store ⟨[98, 59], [111, 108, 100]⟩ .insert))

theorem reached_single : Reached 0 "t" single := reached_newStore.move _ trivial

theorem reached_crowded : Reached 0 "t" crowded := reached_single.move _ trivial

theorem isFlat_newStore : newStore.IsFlat 0 { path := "t" } [] := by
  have hempty : Table.flat [] = Table.empty :=
    congrArg (Table.mk _) (Function.update_eq_self 0 Table.empty.pairs)
  rw [IsFlat, hempty]
  exact bears_newStore

theorem isFlat_single : single.IsFlat 0 { path := "t" } [longPair [97, 122]] := by
  have hsize := size_longPair [97, 122]
  apply isFlat_newStore.insert rfl (List.cons_ne_nil 97 [122])
  · rw [hsize]
    decide
  · intro other hother
    cases hother
  · rw [weight_nil, Pair.footprint, hsize]
    decide

theorem isFlat_crowded : crowded.IsFlat 0 { path := "t" }
    [longPair [97, 122], ⟨[98, 59], [111, 108, 100]⟩] := by
  apply isFlat_single.insert rfl (List.cons_ne_nil 98 [59])
  · decide
  · intro other hother
    rw [List.mem_singleton.mp hother]
    decide
  · rw [weight_cons, Pair.footprint, size_longPair]
    decide

theorem refuses_crowded :
    (Table.flat [longPair [97, 122], ⟨[98, 59], [111, 108, 100]⟩]).Refuses (longPair [98, 59]) := by
  have hdepth : (Table.flat [longPair [97, 122], ⟨[98, 59], [111, 108, 100]⟩]).depthAfter
      [98, 59] = 10 := rfl
  have hrivals : (Table.flat [longPair [97, 122], ⟨[98, 59], [111, 108, 100]⟩]).rivals [98, 59] 10 =
      [longPair [97, 122]] := by
    rw [Table.rivals, Table.bucket_flat]
    rfl
  rw [Table.Refuses, key_longPair, hdepth, hrivals, weight_cons, weight_nil, Pair.footprint,
    Pair.footprint, size_longPair, size_longPair]
  decide

theorem isWritable_crowded : crowded.IsWritable 0 := isFlat_crowded.isWritable rfl

theorem fetch_crowded :
    (crowded.call 0 (.fetch [98, 59])).1 = some (.ok (.value (some [111, 108, 100]))) := by
  obtain ⟨session, hserves, -, htable⟩ := isFlat_crowded
  have hlookup : session.table.lookup [98, 59] = some [111, 108, 100] := by
    rw [hserves.sound.table.lookup_eq_some_iff, htable, Table.holds_flat]
    exact List.mem_cons_of_mem _ List.mem_cons_self
  rw [hserves.shows.fetch _ (List.cons_ne_nil 98 [59]), hlookup]

theorem size_longPair_le : (longPair [98, 59]).size ≤ pairLimit := by
  rw [size_longPair]
  decide

theorem fetch_after_refused_replace_crowded :
    ∃ cause, (crowded.call 0 (.store (longPair [98, 59]) .replace)).1 = some (.error cause) ∧
      (crowded.call 0 (.store (longPair [98, 59]) .replace)).2.Finds 0 "t" [98, 59] none := by
  obtain ⟨session, hserves, hconfig, htable⟩ := isFlat_crowded
  obtain ⟨directory, pages, hfiles, -⟩ := hserves.files
  have htables := hserves.ofFiles_eq hfiles
  rw [hconfig] at hfiles
  obtain ⟨hrefused, hleft⟩ := @fetch_after_refused_replace crowded 0 "t" reached_crowded
    directory pages hfiles isWritable_crowded (longPair [98, 59]) [111, 108, 100] fetch_crowded
    size_longPair_le
  rw [htables, htable] at hrefused hleft
  obtain ⟨cause, hcause⟩ := hrefused.mpr refuses_crowded
  exact ⟨cause, hcause, (hleft cause hcause).2⟩

/-- A replacement that fails does not always leave the old value. -/
theorem refused_replace_loses_value :
    ¬ ∀ (host : Host) (slot : Nat) (path : String) (pair : Pair) (old : Bytes) (cause : StoreError),
      Reached slot path host → host.IsWritable slot →
      (host.call slot (.fetch pair.key)).1 = some (.ok (.value (some old))) →
      pair.size ≤ pairLimit →
      (host.call slot (.store pair .replace)).1 = some (.error cause) →
      (host.call slot (.store pair .replace)).2.Finds slot path pair.key (some old) := by
  intro hkeeps
  obtain ⟨session, hserves, hconfig, htable⟩ := isFlat_crowded
  obtain ⟨hanswer, hfinds⟩ := hserves.replace_refused (longPair [98, 59])
    (List.cons_ne_nil 98 [59]) size_longPair_le (by rw [hconfig]; rfl)
    (by rw [htable]; exact refuses_crowded)
  have hkept := hkeeps crowded 0 "t" (longPair [98, 59]) _ _ reached_crowded isWritable_crowded
    fetch_crowded size_longPair_le hanswer
  have hlost := hfinds.fetch
  rw [htable, Table.depthOf_flat, hkept.fetch] at hlost
  cases hlost

end Host

end PageTrie
