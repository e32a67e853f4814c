import PageTrie.Proofs.Session.Erosion
import PageTrie.Proofs.SingleWriter
import PageTrie.Proofs.Traversal

/-! A scan of a reached store with lookups and deletes between its steps. It hands out no key
twice and none that is not there; on each page it passes over no more keys than were deleted. -/
namespace PageTrie.Host

def Binds (host : Host) (slot : Nat) (key : Bytes) : Prop :=
  ∃ value, (host.call slot (.fetch key)).1 = some (.ok (.value (some value)))

/-- A key is in the store before a run of calls, behind each of them and at the end. -/
def Stays (host : Host) (slot : Nat) (calls : List Call) (key : Bytes) : Prop :=
  ∀ before after, calls = before ++ after → (host.afterCalls slot before).Binds slot key

def handed (host : Host) (slot : Nat) (calls : List Call) : List Bytes :=
  (host.answers slot calls).filterMap fun answer => answer.bind handedKey

def deleted (host : Host) (slot : Nat) (calls : List Call) : List Bytes :=
  (calls.zip (host.answers slot calls)).filterMap fun (call, answer) =>
    answer.bind (deletedKey call)

section Serves

variable {host : Host} {slot : Nat} {session start : Session} {handed deleted : List Bytes}

theorem Serves.afterCalls_run (h : host.Serves slot session) (calls : List Call) :
    (host.afterCalls slot calls).Serves slot (session.run calls) := by
  induction calls generalizing host session with
  | nil => exact h
  | cons call calls ih => exact ih (h.call call).2

theorem handed_cons (h : host.Serves slot session) (call : Call) (calls : List Call) :
    host.handed slot (call :: calls) = (handedKey (session.step call).1).toList ++
      (host.call slot call).2.handed slot calls := by
  rw [Host.handed, answers, (h.call call).1, List.filterMap_cons]
  cases hkey : handedKey (session.step call).1 <;> simp [hkey, Host.handed]

theorem deleted_cons (h : host.Serves slot session) (call : Call) (calls : List Call) :
    host.deleted slot (call :: calls) = (deletedKey call (session.step call).1).toList ++
      (host.call slot call).2.deleted slot calls := by
  rw [Host.deleted, answers, (h.call call).1, List.zip_cons_cons, List.filterMap_cons]
  cases hkey : deletedKey call (session.step call).1 <;> simp [hkey, Host.deleted]

theorem Serves.scanning_run (h : host.Serves slot session)
    (hscanning : start.Scanning session handed deleted) {calls : List Call}
    (hcalls : ∀ call ∈ calls, call.isScanStep = true) :
    start.Scanning (session.run calls) (handed ++ host.handed slot calls)
      (deleted ++ host.deleted slot calls) := by
  induction calls generalizing host session handed deleted with
  | nil => simpa [Host.handed, Host.deleted, answers] using hscanning
  | cons call calls ih =>
    have hstep := hscanning.step (hcalls call List.mem_cons_self)
    rw [handed_cons h, deleted_cons h, ← List.append_assoc, ← List.append_assoc]
    exact ih (h.call call).2 hstep fun c hc => hcalls c (List.mem_cons_of_mem _ hc)

theorem Serves.scanning_firstKey (h : host.Serves slot session) {calls : List Call}
    (hcalls : ∀ call ∈ calls, call.isScanStep = true) :
    session.Scanning (session.run (.firstKey :: calls)) (host.handed slot (.firstKey :: calls))
      (host.deleted slot (.firstKey :: calls)) := by
  obtain ⟨session', hstep, hscanning⟩ := h.sound.scanning_start.nextKey
  have hfirst : session.step .firstKey = (session.scanning ⟨0, 0⟩).step .nextKey := rfl
  have hserves := (h.call .firstKey).2
  rw [handed_cons h, deleted_cons h]
  rw [hfirst, hstep] at hserves ⊢
  rw [Session.run_cons, hfirst, hstep]
  exact hserves.scanning_run hscanning hcalls

theorem Serves.binds_iff (h : host.Serves slot session) (key : Bytes) :
    host.Binds slot key ↔ key ∈ session.keyList := (h.mem_keyList key).symm

theorem Serves.scan_replicate (h : host.Serves slot session) (count : Nat) :
    host.handed slot (List.replicate count .nextKey) = session.ahead.take count ∧
      host.deleted slot (List.replicate count .nextKey) = [] ∧
      ((host.afterCalls slot (List.replicate count .nextKey)).call slot .nextKey).1 =
        some (.ok (.key session.ahead[count]?)) := by
  induction count generalizing host session with
  | zero =>
    obtain ⟨session', hrun, -⟩ := h.sound.nextKey
    have hanswer := (h.call .nextKey).1
    rw [Session.step_ok (run_map_ok _ hrun)] at hanswer
    rw [← List.head?_eq_getElem?]
    exact ⟨rfl, rfl, hanswer⟩
  | succ count ih =>
    obtain ⟨session', hrun, -, -, htail⟩ := h.sound.nextKey
    have hstep : session.step .nextKey = (.ok (.key session.ahead.head?), session') :=
      Session.step_ok (run_map_ok _ hrun)
    have hserves := (h.call .nextKey).2
    rw [hstep] at hserves
    obtain ⟨hhanded, hdeleted, hanswer⟩ := ih hserves
    rw [List.replicate_succ, handed_cons h, deleted_cons h, hstep, hhanded, hdeleted]
    rw [htail] at hanswer ⊢
    refine ⟨?_, rfl, ?_⟩
    · cases session.ahead with
      | nil => rw [List.tail_nil, List.take_nil, List.take_nil]; rfl
      | cons first rest => rfl
    · rw [List.getElem?_tail] at hanswer
      exact hanswer

/-- A step of a scan never fails, and the key that it hands out is in the store. -/
theorem Serves.scan_call (h : host.Serves slot session) {call : Call}
    (hcall : call = .firstKey ∨ call = .nextKey) :
    ∃ found, (host.call slot call).1 = some (.ok (.key found)) ∧
      ∀ key, found = some key → (host.call slot call).2.Binds slot key := by
  obtain ⟨hanswer, hserves⟩ := h.call call
  obtain ⟨found, session', hstep, hscans, hfound⟩ : ∃ found session',
      session.step call = (.ok (.key found), session') ∧ session.Scans session' ∧
        ∀ key, found = some key → key ∈ session.keyList := by
    obtain rfl | rfl := hcall
    · obtain ⟨session', hrun, -, hscans, -⟩ := h.sound.firstKey
      exact ⟨_, session', Session.step_ok (run_map_ok _ hrun), hscans,
        fun key hkey => List.mem_of_head? hkey⟩
    · obtain ⟨session', hrun, -, hscans, -⟩ := h.sound.nextKey
      exact ⟨_, session', Session.step_ok (run_map_ok _ hrun), hscans,
        fun key hkey => h.sound.ahead_sublist.subset (List.mem_of_head? hkey)⟩
  rw [hstep] at hanswer hserves
  refine ⟨found, hanswer, fun key hkey => ?_⟩
  rw [hserves.binds_iff, hscans.keyList_eq]
  exact hfound key hkey

end Serves

/-- Scan a reached store from the first key on, with lookups and deletes between the steps. No
step of the scan fails, no key is handed out twice, and each key is in the store both when the
scan begins and when it is handed out. Once the scan comes to its end, any keys of one page that
were there all along and not handed out are at most as many as the deletes on that page; so a
key whose page saw none was handed out exactly once. -/
theorem scan_while_deleting {host : Host} {slot : Nat} {path : String}
    (h : Reached slot path host) {calls : List Call}
    (hcalls : ∀ call ∈ calls, call.isScanStep = true) :
    ∃ session, host.session? slot = some session ∧
      (host.handed slot (.firstKey :: calls)).Nodup ∧
      (∀ key ∈ host.handed slot (.firstKey :: calls), host.Binds slot key) ∧
      (∀ before call after, .firstKey :: calls = before ++ call :: after →
        call = .firstKey ∨ call = .nextKey →
        ∃ found, ((host.afterCalls slot before).call slot call).1 = some (.ok (.key found)) ∧
          ∀ key, found = some key → (host.afterCalls slot (before ++ [call])).Binds slot key) ∧
      (((host.afterCalls slot (.firstKey :: calls)).call slot .nextKey).1 =
          some (.ok (.key none)) →
        (∀ key, host.Stays slot (.firstKey :: calls) key →
          (∀ other ∈ host.deleted slot (.firstKey :: calls),
            session.table.pageOf other ≠ session.table.pageOf key) →
          (host.handed slot (.firstKey :: calls)).count key = 1) ∧
        ∀ (page : Nat) (keys : Finset Bytes),
          (∀ key ∈ keys, host.Stays slot (.firstKey :: calls) key ∧
            session.table.pageOf key = page ∧ key ∉ host.handed slot (.firstKey :: calls)) →
          keys.card ≤ (host.deleted slot (.firstKey :: calls)).countP
            fun key => session.table.pageOf key = page) := by
  obtain ⟨session, hserves, -⟩ := h.serves
  have hscanning := hserves.scanning_firstKey hcalls
  have hended := hserves.afterCalls_run (.firstKey :: calls)
  refine ⟨session, hserves.session?_eq, hscanning.nodup, ?_, ?_, ?_⟩
  · intro key hkey
    rw [hserves.binds_iff]
    exact hscanning.known key (Or.inl hkey)
  · intro before call after _ hcall
    obtain ⟨found, hanswer, hbinds⟩ := (hserves.afterCalls_run before).scan_call hcall
    refine ⟨found, hanswer, fun key hkey => ?_⟩
    rw [Host.afterCalls, List.foldl_append]
    exact hbinds key hkey
  · intro hnone
    have hahead := hscanning.ahead_of_nextKey (Option.some.inj ((hended.call _).1.symm.trans hnone))
    have hbound (key : Bytes) (hstays : host.Stays slot (.firstKey :: calls) key) :
        key ∈ (session.run (.firstKey :: calls)).keyList :=
      (hended.binds_iff key).mp (hstays _ [] (List.append_nil _).symm)
    refine ⟨fun key hstays => hscanning.count_eq_one hahead (hbound key hstays), ?_⟩
    intro page keys hkeys
    apply hscanning.card_le hahead
    intro key hkey
    obtain ⟨hstays, hrest⟩ := hkeys key hkey
    exact ⟨hbound key hstays, hrest⟩

def trimming : List Call := .delete [98] :: List.replicate 3 .nextKey

theorem Bears.run_trimming {host : Host}
    (h : host.Bears 0 { path := "t" } (Table.empty.takingAll branches)) :
    host.handed 0 (.firstKey :: trimming) = [[98], [102], [97, 122], [97]] ∧
      host.deleted 0 (.firstKey :: trimming) = [[98]] ∧
      ((host.afterCalls 0 (.firstKey :: trimming)).call 0 .nextKey).1 =
        some (.ok (.key none)) := by
  obtain ⟨session, hserves, hconfig, htable⟩ := h
  have hkeys := keyList_branched hserves.sound htable
  obtain ⟨first, hrun, hsound, hscans, htail⟩ := hserves.sound.firstKey
  rw [hkeys] at hrun htail
  have hstep : session.step .firstKey = (.ok (.key (some [98])), first) :=
    Session.step_ok (run_map_ok _ hrun)
  have hserves' := (hserves.call .firstKey).2
  rw [hstep] at hserves'
  -- The scan is behind `[98]` on its page, so the delete closes `[100]` up to where it is.
  have htable' := hscans.table_eq.trans htable
  obtain ⟨hon, hon'⟩ := keysOn_branched htable'
  have hfrom : first.keysFrom 1 = [[97, 122], [97]] := by
    rw [hsound.keysFrom_eq, hon', keysFrom_branched hsound htable']
    rfl
  have hparts : first.keysOn 0 = [[98]] ++ [[100], [102]] := hon
  obtain ⟨hblock, hnext⟩ := hsound.scan_eq_of_ahead hparts (by decide) (by decide)
    (by rw [htail, hfrom]; rfl)
  have hbehind : [98] ∈ (first.keysOn first.scan.block).take first.scan.next := by
    rw [hblock, hnext, hon]
    decide
  have hwritable : first.config.isReadOnly = false := by
    rw [hscans.alike.config, hconfig]
    rfl
  obtain ⟨second, hstep', -, hahead⟩ := hsound.delete_behind hwritable hbehind
  rw [hblock, hnext, hon, hfrom] at hahead
  have hserves'' := (hserves'.call (.delete [98])).2
  rw [hstep'] at hserves''
  obtain ⟨hhanded, hdeleted, hanswer⟩ := hserves''.scan_replicate 3
  rw [hahead] at hhanded hanswer
  rw [trimming, handed_cons hserves, handed_cons hserves', hhanded, deleted_cons hserves,
    deleted_cons hserves', hdeleted, hstep, hstep']
  exact ⟨rfl, rfl, hanswer⟩

/-- The delete makes the scan pass over `[100]`, and over no other key of that page. -/
theorem scan_while_deleting_branched :
    branched.handed 0 (.firstKey :: trimming) = [[98], [102], [97, 122], [97]] ∧
      ∃ session, branched.session? 0 = some session ∧ session.table.isSplit 0 = true ∧
        session.keysOn 0 = [[98], [100], [102]] ∧
        (branched.handed 0 (.firstKey :: trimming)).Nodup ∧
        ∀ keys : Finset Bytes,
          (∀ key ∈ keys, branched.Stays 0 (.firstKey :: trimming) key ∧
            session.table.pageOf key = 0 ∧
            key ∉ branched.handed 0 (.firstKey :: trimming)) → keys.card ≤ 1 := by
  obtain ⟨hhanded, hdeleted, hnone⟩ := bears_branched.run_trimming
  obtain ⟨session, hsession, hnodup, -, -, hend⟩ :=
    @scan_while_deleting branched 0 "t" reached_branched trimming (by decide)
  obtain ⟨served, hserves, -, htable⟩ := bears_branched
  obtain rfl : served = session := Option.some.inj (hserves.session?_eq.symm.trans hsession)
  refine ⟨hhanded, served, hsession, ?_, (keysOn_branched htable).1, hnodup, fun keys hkeys => ?_⟩
  · rw [htable]
    decide +kernel
  · have hcard := (hend hnone).2 0 keys hkeys
    rw [hdeleted] at hcard
    exact hcard.trans (List.countP_le_length)

end PageTrie.Host
