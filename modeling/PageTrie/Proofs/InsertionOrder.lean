import PageTrie.Proofs.StoreOutcome

/-! A store that pairs were only inserted into has a shape that the pairs alone decide: a node
is split just when the pairs that pass it are too heavy for one page. So the order in which
they came leaves no trace in the bits, and none in what is on which page. -/
namespace PageTrie

def passing (pairs : List Pair) (number depth : Nat) : List Pair :=
  pairs.filter fun pair =>
    decide ((TrieNode.onPath (keyHash pair.key) depth).number = number)

theorem passing_perm {pairs pairs' : List Pair} (h : pairs.Perm pairs') (number depth : Nat) :
    (passing pairs number depth).Perm (passing pairs' number depth) := h.filter _

theorem mem_passing {pairs : List Pair} {pair : Pair} {h : UInt32} {depth : Nat} :
    pair ∈ passing pairs (TrieNode.onPath h depth).number depth ↔
      pair ∈ pairs ∧ Agree depth h (keyHash pair.key) := by
  simp only [passing, List.mem_filter, decide_eq_true_eq, TrieNode.number_onPath_inj, true_and]
  exact and_congr_right fun _ => ⟨Agree.symm, Agree.symm⟩

theorem passing_concat_of_agree (pairs : List Pair) {pair : Pair} {h : UInt32} {depth : Nat}
    (agree : Agree depth h (keyHash pair.key)) :
    passing (pairs ++ [pair]) (TrieNode.onPath h depth).number depth =
      passing pairs (TrieNode.onPath h depth).number depth ++ [pair] := by
  simp [passing, TrieNode.onPath_congr agree]

theorem passing_concat_of_not_agree (pairs : List Pair) {pair : Pair} {h : UInt32} {depth : Nat}
    (hapart : ¬ Agree depth h (keyHash pair.key)) :
    passing (pairs ++ [pair]) (TrieNode.onPath h depth).number depth =
      passing pairs (TrieNode.onPath h depth).number depth := by
  have hnumber : (TrieNode.onPath (keyHash pair.key) depth).number ≠
      (TrieNode.onPath h depth).number :=
    fun heq => hapart (TrieNode.number_onPath_inj.mp heq).2.symm
  simp [passing, hnumber]

theorem weight_passing_le (pairs : List Pair) (h : UInt32) {depth depth' : Nat}
    (hle : depth ≤ depth') :
    weight (passing pairs (TrieNode.onPath h depth').number depth') ≤
      weight (passing pairs (TrieNode.onPath h depth).number depth) := by
  apply weight_le_of_sublist
  apply List.monotone_filter_right
  intro pair hpair
  simp only [decide_eq_true_eq, TrieNode.number_onPath_inj, true_and] at hpair ⊢
  exact hpair.mono hle

namespace Table

/-- A table of the given pairs whose nodes are split just where too many of them pass. -/
structure Canonical (table : Table) (pairs : List Pair) : Prop where
  sound : table.Sound
  nodup : pairs.Nodup
  holds_iff : ∀ pair, table.Holds pair ↔ pair ∈ pairs
  split_iff : ∀ (h : UInt32) (depth : Nat), depth < hashWidth →
    (table.isSplit (TrieNode.onPath h depth).number = true ↔
      1022 < weight (passing pairs (TrieNode.onPath h depth).number depth))

theorem canonical_empty : Table.empty.Canonical [] where
  sound := sound_empty
  nodup := List.nodup_nil
  holds_iff pair := by simp [Holds, Table.empty]
  split_iff h depth _ := by simp [Table.empty, passing]

section Canonical

variable {table table' : Table} {pairs pairs' : List Pair}

theorem Canonical.isSplit_eq (h : table.Canonical pairs) (h' : table'.Canonical pairs')
    (hperm : pairs.Perm pairs') : table.isSplit = table'.isSplit := by
  have hnode (hash : UInt32) (depth : Nat) (hdepth : depth < hashWidth) :
      table.isSplit (TrieNode.onPath hash depth).number =
        table'.isSplit (TrieNode.onPath hash depth).number := by
    rw [Bool.eq_iff_iff, h.split_iff hash depth hdepth, h'.split_iff hash depth hdepth,
      weight_perm (passing_perm hperm _ _)]
  funext i
  by_cases hi : i < 0xffffffff
  · obtain ⟨depth, hash, hdepth, rfl⟩ := TrieNode.exists_onPath_of_lt hi
    exact hnode hash depth hdepth
  · have hfalse : table.isSplit i = false := by
      by_contra hset
      exact hi (h.sound.small i (Bool.not_eq_false _ ▸ hset))
    have hfalse' : table'.isSplit i = false := by
      by_contra hset
      exact hi (h'.sound.small i (Bool.not_eq_false _ ▸ hset))
    rw [hfalse, hfalse']

theorem Canonical.mem_pairs_iff (h : table.Canonical pairs) (h' : table'.Canonical pairs')
    (hperm : pairs.Perm pairs') (page : Nat) (pair : Pair) :
    pair ∈ table.pairs page ↔ pair ∈ table'.pairs page := by
  have hpageOf : table.pageOf pair.key = table'.pageOf pair.key := by
    rw [pageOf, pageOf, h.isSplit_eq h' hperm]
  have hholds : table.Holds pair ↔ table'.Holds pair := by
    rw [h.holds_iff, h'.holds_iff, hperm.mem_iff]
  constructor
  · intro hpair
    have hthere := (h'.sound.holds_iff pair).mp (hholds.mp ⟨page, hpair⟩)
    rwa [bucket, ← hpageOf, (h.sound.placed page pair hpair).2] at hthere
  · intro hpair
    have hthere := (h.sound.holds_iff pair).mp (hholds.mpr ⟨page, hpair⟩)
    rwa [bucket, hpageOf, (h'.sound.placed page pair hpair).2] at hthere

theorem Canonical.weight_company (h : table.Canonical pairs) (key : Bytes) {depth : Nat}
    (hdepth : table.depthOf key ≤ depth) :
    weight (table.company key .insert depth) =
      weight (passing pairs (TrieNode.onPath (keyHash key) depth).number depth) := by
  apply weight_perm
  have hbucket : (table.bucket key).Nodup := (h.sound.distinct _).of_map
  apply (List.perm_ext_iff_of_nodup (hbucket.filter _) (h.nodup.filter _)).mpr
  intro pair
  rw [List.mem_filter, decide_eq_true_eq]
  refine Iff.trans ?_ mem_passing.symm
  refine and_congr_left fun agree => ?_
  rw [← h.holds_iff, h.sound.holds_iff]
  have hpage : table.pageOf pair.key = table.pageOf key := by
    rw [(pageOf_eq_iff_of_isLeaf (table.isLeaf key) pair.key).mpr (agree.mono hdepth),
      pageOf_eq_mod]
  rw [bucket, bucket, hpage]

theorem Canonical.split_iff_on_way (h : table.Canonical pairs) {pair : Pair} {count : Nat}
    (hleast : IsLeast {count | count ≤ table.splitsLeft pair.key ∧ table.Fits pair .insert count}
      count) {depth : Nat} (hdepth : depth < hashWidth) :
    (table.isSplit (TrieNode.onPath (keyHash pair.key) depth).number = true ∨
        table.depthOf pair.key ≤ depth ∧ depth < table.depthOf pair.key + count) ↔
      1022 < weight (passing pairs (TrieNode.onPath (keyHash pair.key) depth).number depth) +
        pair.footprint := by
  have hleaf := table.isLeaf pair.key
  have hold := h.split_iff (keyHash pair.key) depth hdepth
  -- The node is above the leaf, among those that are split now, or at or below the new leaf.
  by_cases habove : depth < table.depthOf pair.key
  · have hset := hleaf.above depth habove
    have hheavy := hold.mp hset
    exact iff_of_true (Or.inl hset) (by omega)
  have hbelow := Nat.le_of_not_lt habove
  have hunsplit := hleaf.isSplit_below h.sound.closed hbelow hdepth
  rw [hunsplit, Pair.footprint]
  by_cases hsplit : depth < table.depthOf pair.key + count
  · have hfull : ¬ table.Fits pair .insert (depth - table.depthOf pair.key) := by
      intro hfits
      have hcount := hleast.1.1
      have hle := hleast.2 ⟨by omega, hfits⟩
      omega
    rw [Fits, Nat.add_sub_cancel' hbelow, h.weight_company pair.key hbelow] at hfull
    exact iff_of_true (Or.inr ⟨hbelow, hsplit⟩) (by omega)
  · have hfits : table.Fits pair .insert count := hleast.1.2
    rw [Fits, h.weight_company pair.key (Nat.le_add_right _ _)] at hfits
    have hfewer := weight_passing_le pairs (keyHash pair.key) (Nat.le_of_not_lt hsplit)
    refine iff_of_false ?_ (by omega)
    rintro (hset | ⟨-, hlt⟩)
    · cases hset
    · exact hsplit hlt

/-- Storing a new pair splits just the nodes that it makes too heavy. -/
theorem Canonical.split_iff_stored (h : table.Canonical pairs) {pair : Pair} {count : Nat}
    (hleast : IsLeast {count | count ≤ table.splitsLeft pair.key ∧ table.Fits pair .insert count}
      count)
    (hgains : table.Gains table' (keyHash pair.key) (table.depthOf pair.key) count)
    (hash : UInt32) (depth : Nat) (hdepth : depth < hashWidth) :
    table'.isSplit (TrieNode.onPath hash depth).number = true ↔
      1022 < weight (passing (pairs ++ [pair]) (TrieNode.onPath hash depth).number depth) := by
  rw [hgains.split_iff, TrieNode.number_mem_stretch_iff]
  by_cases agree : Agree depth hash (keyHash pair.key)
  · rw [passing_concat_of_agree pairs agree, weight_append, weight_cons, weight_nil, Nat.add_zero,
      TrieNode.onPath_congr agree, ← h.split_iff_on_way hleast hdepth]
    exact or_congr_right (and_iff_left agree)
  · rw [passing_concat_of_not_agree pairs agree, ← h.split_iff hash depth hdepth]
    exact or_iff_left fun hpassed => agree hpassed.2

theorem Canonical.stored (h : table.Canonical pairs) {pair : Pair} (hsound : table'.Sound)
    (hlookup : table'.lookup = Function.update table.lookup pair.key (some pair.value))
    (hsettles : table.Settles pair .insert (.ok (.status .stored)) table') :
    table'.Canonical (pairs ++ [pair]) := by
  cases hsettles with
  | stored count unbound least gains placed =>
    have hfresh : ∀ old ∈ pairs, old.key ≠ pair.key := by
      intro old hold hkey
      have hthere := (h.sound.holds_iff old).mp ((h.holds_iff old).mpr hold)
      rw [hkey] at hthere
      exact unbound rfl old hthere hkey
    refine ⟨hsound, ?_, fun other => ?_, h.split_iff_stored least gains⟩
    · rw [List.nodup_append]
      refine ⟨h.nodup, List.nodup_singleton pair, ?_⟩
      rintro old hold other hother rfl
      exact hfresh old hold (congrArg Pair.key (List.mem_singleton.mp hother))
    · have hholds := hsound.lookup_eq_some_iff other.key other.value
      rw [hlookup] at hholds
      rw [← hholds, List.mem_append, List.mem_singleton]
      by_cases hkey : other.key = pair.key
      · rw [hkey, Function.update_self, Option.some.injEq]
        constructor
        · intro hvalue
          right
          change (⟨other.key, other.value⟩ : Pair) = pair
          rw [hkey, ← hvalue]
        · rintro (hold | rfl)
          · exact absurd hkey (hfresh other hold)
          · rfl
      · rw [Function.update_of_ne hkey, h.sound.lookup_eq_some_iff, h.holds_iff]
        refine (or_iff_left ?_).symm
        rintro rfl
        exact hkey rfl

end Canonical

end Table

namespace Host

/-- Hosts in which pairs were inserted into a slot one by one, all of them stored. -/
inductive Filled (slot : Nat) (start : Host) : List Pair → Host → Prop
  | nil : Filled slot start [] start
  | insert {pairs : List Pair} {host : Host} {pair : Pair} (filled : Filled slot start pairs host)
      (stored : (host.call slot (.store pair .insert)).1 = some (.ok (.status .stored))) :
      Filled slot start (pairs ++ [pair]) (host.call slot (.store pair .insert)).2

theorem Filled.canonical {slot : Nat} {start host : Host} {pairs : List Pair}
    (h : Filled slot start pairs host) {session : Session} (hserves : start.Serves slot session)
    (hempty : session.table = Table.empty) :
    ∃ session', host.Serves slot session' ∧ session'.config = session.config ∧
      session'.table.Canonical pairs := by
  induction h with
  | nil => exact ⟨session, hserves, rfl, hempty ▸ Table.canonical_empty⟩
  | @insert pairs host pair filled stored ih =>
    obtain ⟨before, hbefore, hconfig, hcanonical⟩ := ih
    obtain ⟨hanswer, hafter⟩ := hbefore.call (.store pair .insert)
    have heffect := hbefore.sound.effect (.store pair .insert)
    rw [stored, Option.some.injEq] at hanswer
    have hturns := heffect.turns
    rw [← hanswer] at hturns
    obtain ⟨hkey, hwritable, hsize⟩ := Session.admitted_of_stored hanswer.symm
    have hsettles := hbefore.sound.settles hkey hsize hwritable .insert
    rw [← hanswer] at hsettles
    exact ⟨_, hafter, heffect.alike.config.trans hconfig,
      hcanonical.stored heffect.sound.table hturns hsettles⟩

/-- Two stores that the same pairs were inserted into, each in an order of its own, have the
same bits and the same pairs on every page. A node at a depth is split just when the pairs
that pass it weigh more than a page holds. -/
theorem insertion_order_irrelevant {start start' host host' : Host} {slot slot' : Nat}
    {config config' : Config} (hfresh : start.Fresh config)
    (hopened : (start.openSlot slot config).1 = .ok ()) (hfresh' : start'.Fresh config')
    (hopened' : (start'.openSlot slot' config').1 = .ok ()) {pairs pairs' : List Pair}
    (hperm : pairs.Perm pairs') (hfilled : Filled slot (start.openSlot slot config).2 pairs host)
    (hfilled' : Filled slot' (start'.openSlot slot' config').2 pairs' host') :
    ∃ directory pages directory' pages', host.Files config.path directory pages ∧
      host'.Files config'.path directory' pages' ∧
      (∀ i, directory.bit i = directory'.bit i) ∧
      (∀ number pair,
        pair ∈ (pages.page number).toList ↔ pair ∈ (pages'.page number).toList) ∧
      ∀ i depth, depth ≤ 31 → 2 ^ depth ≤ i + 1 → i + 1 < 2 ^ (depth + 1) →
        (directory.bit i = true ↔ 1022 < weight (passing pairs i depth)) := by
  obtain ⟨session, hserves, rfl, hempty⟩ := hfresh.serves hopened
  obtain ⟨session', hserves', rfl, hempty'⟩ := hfresh'.serves hopened'
  obtain ⟨last, hlast, hconfig, hcanonical⟩ := hfilled.canonical hserves hempty
  obtain ⟨last', hlast', hconfig', hcanonical'⟩ := hfilled'.canonical hserves' hempty'
  obtain ⟨directory, pages, hfiles, -⟩ := hlast.files
  obtain ⟨directory', pages', hfiles', -⟩ := hlast'.files
  rw [← hlast.ofFiles_eq hfiles] at hcanonical
  rw [← hlast'.ofFiles_eq hfiles'] at hcanonical'
  rw [hconfig] at hfiles
  rw [hconfig'] at hfiles'
  refine ⟨directory, pages, directory', pages', hfiles, hfiles',
    congrFun (hcanonical.isSplit_eq hcanonical' hperm),
    hcanonical.mem_pairs_iff hcanonical' hperm, ?_⟩
  intro i depth hdepth hlo hhi
  obtain ⟨hash, rfl⟩ := TrieNode.exists_onPath (Nat.le_succ_of_le hdepth) hlo hhi
  exact hcanonical.split_iff hash depth (Nat.lt_succ_of_le hdepth)

theorem IsFlat.stored_of_fits {host : Host} {slot : Nat} {config : Config} {pairs : List Pair}
    (h : host.IsFlat slot config pairs) (hwritable : config.isReadOnly = false) {pair : Pair}
    (hkey : pair.key ≠ []) (hsize : pair.size ≤ pairLimit)
    (habsent : ∀ other ∈ pairs, other.key ≠ pair.key) {count : Nat}
    (hcount : count ≤ Session.splitBudget) (hfits : (Table.flat pairs).Fits pair .insert count) :
    (host.call slot (.store pair .insert)).1 = some (.ok (.status .stored)) := by
  obtain ⟨session, hserves, rfl, htable⟩ := h
  have hsettles := hserves.sound.settles hkey hsize hwritable .insert
  rw [htable] at hsettles
  rw [(hserves.call _).1]
  generalize (session.step (.store pair .insert)).2.table = table' at hsettles
  generalize (session.step (.store pair .insert)).1 = result at hsettles ⊢
  cases hsettles with
  | «exists» inserting bound =>
    obtain ⟨old, hold, hsame⟩ := bound
    rw [Table.bucket_flat] at hold
    exact absurd hsame (habsent old hold)
  | stored => rfl
  | refused unbound full gains =>
    refine absurd hfits (full count ?_)
    rw [Table.splitsLeft, Table.depthOf_flat]
    exact le_min hcount (hcount.trans (by decide))

theorem filled_longPair {key key' : Bytes} (hlength : 0 < key.length ∧ key.length ≤ 2)
    (hlength' : 0 < key'.length ∧ key'.length ≤ 2)
    (hapart : ¬ Agree 1 (keyHash key') (keyHash key)) :
    ∃ host, Filled 0 newStore [longPair key, longPair key'] host := by
  have hne : ∀ other ∈ [longPair key], other.key ≠ (longPair key').key := by
    intro other hother hsame
    rw [List.mem_singleton.mp hother] at hsame
    apply hapart
    rw [← key_longPair key', ← hsame, key_longPair]
    exact rfl
  have hsize : (longPair key).size ≤ pairLimit := by
    rw [size_longPair]
    exact (Nat.add_le_add_right hlength.2 600).trans (by decide)
  have hsize' : (longPair key').size ≤ pairLimit := by
    rw [size_longPair]
    exact (Nat.add_le_add_right hlength'.2 600).trans (by decide)
  have hkey : key ≠ [] := List.length_pos_iff.mp hlength.1
  have hkey' : key' ≠ [] := List.length_pos_iff.mp hlength'.1
  have hfirst := isFlat_newStore.stored_of_fits rfl hkey hsize (fun other h => by cases h)
    (Nat.zero_le _) (by
      rw [fits_flat_iff]
      simp [size_longPair]
      omega)
  have hflat := isFlat_newStore.insert rfl hkey hsize (fun other h => by cases h) (by
    simp [Pair.footprint, size_longPair]
    omega)
  have hsecond := hflat.stored_of_fits rfl hkey' hsize' hne (show 1 ≤ Session.splitBudget by decide)
    (by
      rw [fits_flat_iff]
      simp [hapart, size_longPair]
      omega)
  exact ⟨_, (Filled.nil.insert hfirst).insert hsecond⟩

theorem insertion_order_irrelevant_longPair : ∃ host host',
    Filled 0 newStore [longPair [98], longPair [97, 122]] host ∧
    Filled 0 newStore [longPair [97, 122], longPair [98]] host' ∧
    ∃ directory pages directory' pages', host.Files "t" directory pages ∧
      host'.Files "t" directory' pages' ∧ (∀ i, directory.bit i = directory'.bit i) ∧
      directory.bit 0 = true := by
  obtain ⟨host, hfilled⟩ := @filled_longPair [98] [97, 122] (by decide) (by decide) (by decide)
  obtain ⟨host', hfilled'⟩ := @filled_longPair [97, 122] [98] (by decide) (by decide) (by decide)
  obtain ⟨directory, pages, directory', pages', hfiles, hfiles', hbits, -, hsplit⟩ :=
    insertion_order_irrelevant (fresh_empty _ rfl) rfl (fresh_empty _ rfl) rfl
      (List.Perm.swap (longPair [97, 122]) (longPair [98]) []) hfilled hfilled'
  refine ⟨host, host', hfilled, hfilled', directory, pages, directory', pages', hfiles, hfiles',
    hbits, (hsplit 0 0 (by decide) (by decide) (by decide)).mpr ?_⟩
  simp [passing, TrieNode.onPath, TrieNode.root, Pair.footprint, size_longPair]

end Host

end PageTrie
