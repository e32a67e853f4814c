import PageTrie.Proofs.Session.Lookup
import PageTrie.Proofs.Session.Placement

/-! Storing and deleting, from the requirements on a call to the table that it leaves. Storing
places the pair in a table that its key was erased from; a failure is felt only if the trie
was split on the way to it. -/
namespace PageTrie.Session

variable {session : Session}

theorem run_requireWritable (hwritable : session.config.isReadOnly = false) :
    requireWritable.run session = .ok () session := by
  unfold requireWritable
  rw [run_get_bind, hwritable]
  rfl

theorem run_requireWritable_readOnly (hreadOnly : session.config.isReadOnly = true) :
    requireWritable.run session = .error .readOnly session := by
  unfold requireWritable
  rw [run_get_bind, hreadOnly]
  rfl

/-- A change asks for a key and then for a store open for writing. Turned away, it leaves the
session alone. -/
theorem run_required (session : Session) (key : Bytes) (x : SessionM α) :
    (do requireKey key; requireWritable; x : SessionM α).run session =
      if key = [] then .error (.invalidArgument "empty key") session
      else if session.config.isReadOnly then .error .readOnly session
      else x.run session := by
  split_ifs with hkey hreadOnly
  · rw [hkey, run_bind_error run_requireKey_nil]
  · rw [run_bind_ok (run_requireKey hkey),
      run_bind_error (run_requireWritable_readOnly hreadOnly)]
  · rw [run_bind_ok (run_requireKey hkey),
      run_bind_ok (run_requireWritable (eq_false_of_ne_true hreadOnly))]

theorem run_store (session : Session) (pair : Pair) (mode : PutMode) :
    (store pair mode).run session =
      if pair.key = [] then .error (.invalidArgument "empty key") session
      else if session.config.isReadOnly then .error .readOnly session
      else if pairLimit < pair.size then .error (.pairTooLarge pair.size pairLimit) session
      else (flagging (put pair mode)).run session := by
  unfold Session.store
  rw [run_required]
  split_ifs <;> rfl

theorem run_delete (session : Session) (key : Bytes) :
    (delete key).run session =
      if key = [] then .error (.invalidArgument "empty key") session
      else if session.config.isReadOnly then .error .readOnly session
      else (flagging (erase key)).run session :=
  run_required session key _

section Sound

variable (h : session.Sound)
include h

theorem Sound.leafFor_key (key : Bytes) :
    ∃ session', (Session.leafFor (keyHash key)).run session =
        .ok (TrieNode.onPath (keyHash key) (session.table.depthOf key),
          session.diskPage (session.table.pageOf key)) session' ∧
      session.Recalls session' ∧ session'.Sound := by
  obtain ⟨session', hrun, hrecalls, hsound⟩ := h.leafFor (keyHash key)
  refine ⟨session', ?_, hrecalls, hsound⟩
  rw [hrun, Table.pageOf, Table.depthOf, ← TrieNode.leaf_eq_onPath]

theorem Sound.contains_eq (key : Bytes) :
    (session.diskPage (session.table.pageOf key)).contains key =
      (session.table.lookup key).isSome := by
  rw [(h.grounded.inOrder _).contains_eq, Table.lookup, Option.isSome_map]
  rfl

theorem Sound.erase_page (key : Bytes) :
    ∃ page, ((session.diskPage (session.table.pageOf key)).erase? key).getD
        (session.diskPage (session.table.pageOf key)) = page ∧
      page.InOrder ∧
      page.toList = (session.table.bucket key).eraseP (fun pair => pair.key == key) ∧
      (((session.diskPage (session.table.pageOf key)).erase? key).isSome =
        (session.table.lookup key).isSome) := by
  have horder := h.grounded.inOrder (session.table.pageOf key)
  by_cases hmem : ∃ pair ∈ (session.diskPage (session.table.pageOf key)).toList, pair.key = key
  · obtain ⟨page, herase, hpage, hlist⟩ := horder.erase?_of_mem hmem
    refine ⟨page, by rw [herase, Option.getD_some], hpage, hlist, ?_⟩
    obtain ⟨pair, hpair, rfl⟩ := hmem
    have hlookup : session.table.lookup pair.key = some pair.value :=
      (h.table.lookup_eq_some_iff _ _).mpr ⟨_, hpair⟩
    rw [herase, hlookup]
    rfl
  · have habsent : ∀ pair ∈ (session.diskPage (session.table.pageOf key)).toList,
        pair.key ≠ key := fun pair hpair hkey => hmem ⟨pair, hpair, hkey⟩
    have herase := horder.erase?_of_not_mem habsent
    have hlookup : session.table.lookup key = none := by
      rw [h.table.lookup_eq_none_iff]
      intro value hholds
      rw [h.table.holds_iff] at hholds
      exact habsent _ hholds rfl
    refine ⟨_, by rw [herase, Option.getD_none], horder, ?_, by rw [herase, hlookup]; rfl⟩
    apply Eq.symm
    apply List.eraseP_of_forall_not
    intro pair hpair hkey
    exact habsent pair hpair (beq_iff_eq.mp hkey)

/-- The page without the key is one that its leaf can grow from, whatever is in memory. -/
theorem Sound.growing (hwritable : session.config.isReadOnly = false) (key : Bytes) {page : Page}
    (horder : page.InOrder)
    (hlist : page.toList = (session.table.bucket key).eraseP (fun pair => pair.key == key))
    {start : Session} (hrecalls : session.Recalls start) (hstart : start.Grounded) :
    start.Growing (keyHash key) (session.table.depthOf key) page ∧
      start.pending (keyHash key) (session.table.depthOf key) page = session.table.erased key := by
  obtain ⟨block, cached, rfl⟩ := hrecalls
  have hpending : (session.recalling block cached).pending (keyHash key)
      (session.table.depthOf key) page = session.table.erased key := by
    rw [pending, hlist, Table.erased, Table.pageOf_eq_mod]
    rfl
  refine ⟨⟨hstart, hwritable, horder, session.table.isLeaf key, ?_⟩, hpending⟩
  rw [hpending]
  exact h.table.erased key

end Sound

theorem Placement.of_alike {start : Session} {table : Table} {pair : Pair} {depth : Nat}
    {result : EStateM.Result StoreError Session Unit} (halike : session.Alike start)
    (htable : start.table = session.table) (h : start.Placement table pair depth result) :
    session.Placement table pair depth result := by
  cases h with
  | placed count count_le leaf sound alike table_eq room full =>
    exact .placed count count_le leaf sound (halike.trans alike) table_eq room full
  | refused count count_eq grounded forgotten alike unsplit split full =>
    exact .refused count count_eq grounded forgotten (halike.trans alike)
      (fun hzero => (unsplit hzero).trans htable) split full

/-- How a call to store a pair can end. -/
inductive Storing (session : Session) (pair : Pair) (mode : PutMode) :
    EStateM.Result StoreError Session PutResult → Prop
  | rejected (cause : StoreError)
      (reason : pair.key = [] ∨ session.config.isReadOnly = true ∨ pairLimit < pair.size) :
      Storing session pair mode (.error cause session)
  | exists {session' : Session} (inserting : mode = .insert)
      (bound : (session.table.lookup pair.key).isSome = true) (recalls : session.Recalls session')
      (sound : session'.Sound) : Storing session pair mode (.ok .exists session')
  | stored {session' : Session} (key_ne : pair.key ≠ [])
      (unbound : mode = .insert → session.table.lookup pair.key = none)
      (placement : session.Placement (session.table.erased pair.key) pair
        (session.table.depthOf pair.key) (.ok () session')) :
      Storing session pair mode (.ok .stored session')
  | refused {cause : StoreError} {session' : Session} (key_ne : pair.key ≠ [])
      (unbound : mode = .insert → session.table.lookup pair.key = none)
      (placement : session.Placement (session.table.erased pair.key) pair
        (session.table.depthOf pair.key) (.error cause session')) :
      Storing session pair mode (.error cause session'.flagged)

theorem not_rejected {pair : Pair} (hkey : pair.key ≠ []) (hsize : pair.size ≤ pairLimit)
    (hwritable : session.config.isReadOnly = false) :
    ¬ (pair.key = [] ∨ session.config.isReadOnly = true ∨ pairLimit < pair.size) := by
  rintro (hnil | hreadOnly | hlarge)
  · exact hkey hnil
  · rw [hwritable] at hreadOnly
    cases hreadOnly
  · exact Nat.not_le_of_lt hlarge hsize

theorem run_flagging_congr {call call' : SessionM α} {start : Session}
    (h : call.run session = call'.run start) :
    (flagging call).run session = (flagging call').run start := by
  unfold flagging EStateM.run
  rw [EStateM.run] at h
  dsimp only
  rw [h]
  rfl

theorem Sound.storing_of_growing (h : session.Sound) {start : Session} {pair : Pair} {page : Page}
    {mode : PutMode} (halike : session.Alike start) (htable : start.table = session.table)
    (hgrowing : start.Growing (keyHash pair.key) (session.table.depthOf pair.key) page)
    (hpending : start.pending (keyHash pair.key) (session.table.depthOf pair.key) page =
      session.table.erased pair.key)
    (hkey : pair.key ≠ []) (hsize : pair.size ≤ pairLimit)
    (hunbound : mode = .insert → session.table.lookup pair.key = none) :
    session.Storing pair mode ((flagging do
      place (keyHash pair.key) pair
        (TrieNode.onPath (keyHash pair.key) (session.table.depthOf pair.key)) page
      pure .stored).run start) := by
  have habsent : (session.table.erased pair.key).lookup pair.key = none := by
    rw [h.table.lookup_erased, Function.update_self]
  have hplace := hgrowing.place hkey hsize (by rw [hpending, habsent])
  rw [hpending] at hplace
  have hplacement := hplace.of_alike halike htable
  generalize hresult : (Session.place (keyHash pair.key) pair
    (TrieNode.onPath (keyHash pair.key) (session.table.depthOf pair.key)) page).run start =
    result at hplacement
  cases result with
  | ok placed session' =>
    have hrun : (do
        Session.place (keyHash pair.key) pair
          (TrieNode.onPath (keyHash pair.key) (session.table.depthOf pair.key)) page
        pure .stored : SessionM PutResult).run start = .ok .stored session' := run_bind_ok hresult
    rw [run_flagging_ok hrun]
    exact .stored hkey hunbound hplacement
  | error cause session' =>
    have hio : cause.isIo = true := by
      cases hplacement
      rfl
    have hrun : (do
        Session.place (keyHash pair.key) pair
          (TrieNode.onPath (keyHash pair.key) (session.table.depthOf pair.key)) page
        pure .stored : SessionM PutResult).run start = .error cause session' :=
      run_bind_error hresult
    rw [run_flagging_error hrun hio]
    exact .refused hkey hunbound hplacement

/-- What `put` comes down to: the key has a value already, or the pair is placed on the page
without its key. -/
theorem Sound.run_put (h : session.Sound) {pair : Pair} {mode : PutMode} {page : Page}
    (hpage : ((session.diskPage (session.table.pageOf pair.key)).erase? pair.key).getD
      (session.diskPage (session.table.pageOf pair.key)) = page)
    (herased : ((session.diskPage (session.table.pageOf pair.key)).erase? pair.key).isSome =
      (session.table.lookup pair.key).isSome) :
    ∃ start, session.Recalls start ∧ start.Grounded ∧
      (mode = .insert ∧ (session.table.lookup pair.key).isSome = true ∧ start.Sound ∧
          (put pair mode).run session = .ok .exists start ∨
        (mode = .insert → session.table.lookup pair.key = none) ∧
          (put pair mode).run session = (do
            Session.place (keyHash pair.key) pair
              (TrieNode.onPath (keyHash pair.key) (session.table.depthOf pair.key)) page
            pure .stored : SessionM PutResult).run start) := by
  obtain ⟨found, hleaf, ⟨block, kept, rfl⟩, hsound⟩ := h.leafFor_key pair.key
  unfold Session.put
  rw [run_bind_ok hleaf]
  dsimp only
  cases mode with
  | insert =>
    refine ⟨_, ⟨block, kept, rfl⟩, hsound.grounded, ?_⟩
    rw [h.contains_eq]
    cases hlookup : session.table.lookup pair.key with
    | some value => exact Or.inl ⟨rfl, rfl, hsound, rfl⟩
    | none =>
      rw [hlookup, Option.isSome_none, Option.isSome_eq_false_iff,
        Option.isNone_iff_eq_none] at herased
      rw [herased, Option.getD_none] at hpage
      rw [hpage]
      exact Or.inr ⟨fun _ => rfl, rfl⟩
  | replace =>
    -- The page in memory is ahead of the file here, so `start` is grounded but not sound.
    refine ⟨_, ⟨block, _, rfl⟩, hsound.grounded.keeping (some
      ((TrieNode.onPath (keyHash pair.key) (session.table.depthOf pair.key)).page
        (keyHash pair.key), page)), Or.inr ⟨PutMode.noConfusion, ?_⟩⟩
    rw [hpage, run_bind_ok (run_keep _ _ _)]
    rfl

theorem Sound.put (h : session.Sound) (hwritable : session.config.isReadOnly = false)
    {pair : Pair} (hkey : pair.key ≠ []) (hsize : pair.size ≤ pairLimit) (mode : PutMode) :
    session.Storing pair mode ((flagging (put pair mode)).run session) := by
  obtain ⟨page, hpage, horder, hlist, herased⟩ := h.erase_page pair.key
  obtain ⟨start, hrecalls, hstart, hrun⟩ := h.run_put hpage herased
  obtain ⟨hmode, hbound, hsound, hrun⟩ | ⟨hunbound, hrun⟩ := hrun
  · rw [run_flagging_ok hrun]
    exact .exists hmode hbound hrecalls hsound
  · obtain ⟨hgrowing, hpending⟩ := h.growing hwritable pair.key horder hlist hrecalls hstart
    rw [run_flagging_congr hrun]
    exact h.storing_of_growing hrecalls.alike hrecalls.table_eq hgrowing hpending hkey hsize
      hunbound

theorem Sound.store (h : session.Sound) (pair : Pair) (mode : PutMode) :
    session.Storing pair mode ((store pair mode).run session) := by
  rw [run_store]
  split_ifs with hkey hreadOnly hsize
  · exact .rejected _ (Or.inl hkey)
  · exact .rejected _ (Or.inr (Or.inl hreadOnly))
  · exact .rejected _ (Or.inr (Or.inr hsize))
  · exact h.put (eq_false_of_ne_true hreadOnly) hkey (Nat.le_of_not_lt hsize) mode

inductive Deleting (session : Session) (key : Bytes) :
    EStateM.Result StoreError Session Bool → Prop
  | rejected (cause : StoreError) (reason : key = [] ∨ session.config.isReadOnly = true) :
      Deleting session key (.error cause session)
  | absent {session' : Session} (unbound : session.table.lookup key = none)
      (recalls : session.Recalls session') (sound : session'.Sound) :
      Deleting session key (.ok false session')
  | erased {session' : Session} (bound : (session.table.lookup key).isSome = true)
      (sound : session'.Sound) (alike : session.Alike session')
      (table_eq : session'.table = session.table.erased key)
      (scan_eq : session'.scan = session.scan) : Deleting session key (.ok true session')

theorem Sound.erase (h : session.Sound) (hwritable : session.config.isReadOnly = false)
    (key : Bytes) : session.Deleting key ((flagging (erase key)).run session) := by
  obtain ⟨found, hleaf, ⟨block, kept, rfl⟩, hsound⟩ := h.leafFor_key key
  obtain ⟨page, hpage, horder, hlist, herased⟩ := h.erase_page key
  cases herase : (session.diskPage (session.table.pageOf key)).erase? key with
  | none =>
    have hrun : (Session.erase key).run session = .ok false (session.recalling block kept) := by
      unfold Session.erase
      rw [run_bind_ok hleaf]
      dsimp only
      rw [herase]
      rfl
    rw [run_flagging_ok hrun]
    rw [herase, Option.isSome_none] at herased
    exact .absent (by simpa using herased.symm) ⟨block, kept, rfl⟩ hsound
  | some page' =>
    rw [herase, Option.getD_some] at hpage
    rw [herase, Option.isSome_some] at herased
    obtain ⟨hgrowing, hpending⟩ := h.growing hwritable key horder hlist ⟨block, some (
      (TrieNode.onPath (keyHash key) (session.table.depthOf key)).page (keyHash key), page), rfl⟩
      (hsound.grounded.keeping _)
    obtain ⟨hput, htable, -, hwritten⟩ := hgrowing.writePage
    have hrun : (Session.erase key).run session = .ok true
        ((session.recalling block (some
          ((TrieNode.onPath (keyHash key) (session.table.depthOf key)).page (keyHash key),
            page))).wrote ((keyHash key).toNat % 2 ^ session.table.depthOf key) page) := by
      unfold Session.erase
      rw [run_bind_ok hleaf]
      dsimp only
      rw [herase, hpage]
      dsimp only
      rw [run_bind_ok (run_keep _ _ _), keeping_recalling, run_bind_ok hput, EStateM.run_pure]
    rw [run_flagging_ok hrun]
    refine .erased herased.symm ⟨hwritten.grounded, ?_, ?_⟩ ?_ (htable.trans hpending) rfl
    · intro number cached hcached
      cases hcached
      rw [hgrowing.grounded.ready.diskPage_wrote, TrieNode.page_onPath _ _ hgrowing.leaf.depth_le,
        if_pos rfl]
    · rw [htable, hpending]
      exact h.table.erased key
    · exact (Recalls.alike ⟨block, _, rfl⟩).trans (alike_wrote _ _ _)

theorem Sound.delete (h : session.Sound) (key : Bytes) :
    session.Deleting key ((delete key).run session) := by
  rw [run_delete]
  split_ifs with hkey hreadOnly
  · exact .rejected _ (Or.inl hkey)
  · exact .rejected _ (Or.inr hreadOnly)
  · exact h.erase (eq_false_of_ne_true hreadOnly) key

end PageTrie.Session
