import PageTrie.Proofs.Host.Runs

/-! A scan of a reached store gives each of its keys once, and lookups on the way do not
disturb it. A pass over the keys gives the same sequence. -/
namespace PageTrie

namespace Session

variable {session : Session}

theorem Recalls.keyList_eq {session' : Session} (h : session.Recalls session') :
    session'.keyList = session.keyList := by
  obtain ⟨block, page, rfl⟩ := h
  rfl

end Session

namespace Host

def afterCalls (host : Host) (slot : Nat) (calls : List Call) : Host :=
  calls.foldl (fun host call => (host.call slot call).2) host

def scanCall : (count : Nat) → Call
  | 0 => .firstKey
  | _ + 1 => .nextKey

def scanned (host : Host) (slot : Nat) (between : Nat → List Call) : (count : Nat) → Host
  | 0 => host
  | count + 1 =>
    (((host.scanned slot between count).call slot (scanCall count)).2).afterCalls slot
      (between count)

section Serves

variable {host : Host} {slot : Nat} {session : Session}

theorem Serves.afterCalls (h : host.Serves slot session) {calls : List Call}
    (hcalls : ∀ call ∈ calls, call.isLookup = true) :
    ∃ session', (host.afterCalls slot calls).Serves slot session' ∧ session.Recalls session' := by
  induction calls generalizing host session with
  | nil => exact ⟨session, h, Session.Recalls.refl session⟩
  | cons call calls ih =>
    have hrecalls := (h.sound.step_lookup (hcalls call List.mem_cons_self)).1
    obtain ⟨session', hserves, hrecalls'⟩ := ih (h.call call).2
      fun call hcall => hcalls call (List.mem_cons_of_mem _ hcall)
    exact ⟨session', hserves, hrecalls.trans hrecalls'⟩

theorem Serves.scan (h : host.Serves slot session) {keys : List Bytes} (count : Nat)
    (hkeys : session.keyList = keys) (hahead : count ≠ 0 → session.ahead = keys.drop count) :
    (host.call slot (scanCall count)).1 = some (.ok (.key keys[count]?)) ∧
      ∃ session', (host.call slot (scanCall count)).2.Serves slot session' ∧
        session'.keyList = keys ∧ session'.ahead = keys.drop (count + 1) := by
  obtain ⟨hanswer, hserves⟩ := h.call (scanCall count)
  cases count with
  | zero =>
    obtain ⟨session', hrun, hsound, hscans, htail⟩ := h.sound.firstKey
    have hstep : session.step (scanCall 0) = (.ok (.key session.keyList.head?), session') :=
      Session.step_ok (run_map_ok _ hrun)
    rw [hstep, hkeys, List.head?_eq_getElem?] at hanswer
    rw [hstep] at hserves
    refine ⟨hanswer, session', hserves, hscans.keyList_eq.trans hkeys, ?_⟩
    rw [htail, hkeys, List.drop_one]
  | succ count =>
    obtain ⟨session', hrun, hsound, hscans, htail⟩ := h.sound.nextKey
    have hstep : session.step (scanCall (count + 1)) = (.ok (.key session.ahead.head?), session') :=
      Session.step_ok (run_map_ok _ hrun)
    have hdrop := hahead (Nat.succ_ne_zero count)
    rw [hstep, hdrop, List.head?_drop] at hanswer
    rw [hstep] at hserves
    refine ⟨hanswer, session', hserves, hscans.keyList_eq.trans hkeys, ?_⟩
    rw [htail, hdrop, List.tail_drop]

/-- Wherever a scan is, the keys that it has not given are ahead. -/
theorem Serves.scanned (h : host.Serves slot session) {between : Nat → List Call}
    (hbetween : ∀ n, ∀ call ∈ between n, call.isLookup = true) (count : Nat) :
    ∃ session', (host.scanned slot between count).Serves slot session' ∧
      session'.keyList = session.keyList ∧
      (count ≠ 0 → session'.ahead = session.keyList.drop count) := by
  induction count with
  | zero => exact ⟨session, h, rfl, fun hne => absurd rfl hne⟩
  | succ count ih =>
    obtain ⟨before, hbefore, hkeys, hahead⟩ := ih
    obtain ⟨-, stepped, hstepped, hkeys', hahead'⟩ := hbefore.scan count hkeys hahead
    obtain ⟨session', hserves, hrecalls⟩ := hstepped.afterCalls (hbetween count)
    exact ⟨session', hserves, hrecalls.keyList_eq.trans hkeys',
      fun _ => hrecalls.ahead_eq.trans hahead'⟩

theorem Serves.fetch_iff (h : host.Serves slot session) (key value : Bytes) :
    (host.call slot (.fetch key)).1 = some (.ok (.value (some value))) ↔
      session.table.lookup key = some value := by
  rw [(h.call _).1]
  by_cases hkey : key = []
  · rw [hkey, h.sound.table.lookup_nil, Session.step_error (run_map_error _ Session.run_fetch_nil)]
    simp
  · obtain ⟨session', hrun, -⟩ := h.sound.fetch hkey
    rw [Session.step_ok (run_map_ok _ hrun)]
    simp

theorem Serves.mem_keyList (h : host.Serves slot session) (key : Bytes) :
    key ∈ session.keyList ↔
      ∃ value, (host.call slot (.fetch key)).1 = some (.ok (.value (some value))) := by
  simp only [h.sound.mem_keyList, Option.isSome_iff_exists, h.fetch_iff]

end Serves

/-- In every reached host there is one sequence of the keys, each once, that every scan gives,
with lookups between its steps or without, and that every pass over the keys gives too. -/
theorem traversal_complete {host : Host} {slot : Nat} {path : String} (h : Reached slot path host) :
    ∃ keys : List Bytes, keys.Nodup ∧
      (∀ key, key ∈ keys ↔
        ∃ value, (host.call slot (.fetch key)).1 = some (.ok (.value (some value)))) ∧
      (∀ between : Nat → List Call, (∀ n, ∀ call ∈ between n, call.isLookup = true) → ∀ n,
        ((host.scanned slot between n).call slot (scanCall n)).1 =
          some (.ok (.key keys[n]?))) ∧
      (∀ limit, (host.call slot (.keys limit)).1 =
        some (.ok (.keys ((keys.take limit).map .ok) (decide (keys.length < limit))))) ∧
      ∃ session, host.session? slot = some session ∧ ∀ n,
        ((Session.KeyStream.fresh.after session n).1.next
          (Session.KeyStream.fresh.after session n).2).1 = keys[n]?.map .ok := by
  obtain ⟨session, hserves, -⟩ := h.serves
  refine ⟨session.keyList, hserves.sound.nodup_keyList, hserves.mem_keyList, ?_, hserves.call_keys,
    session, hserves.session?_eq, Session.KeyStream.next_after hserves.sound .fresh⟩
  intro between hbetween n
  obtain ⟨session', hserves', hkeys, hahead⟩ := hserves.scanned hbetween n
  exact (hserves'.scan n hkeys hahead).1

theorem pageOf_branches : ∀ pair ∈ branches.map (·.1),
    (Table.empty.takingAll branches).pageOf pair.key < 2 := by decide +kernel

theorem keysOn_branched {session : Session}
    (htable : session.table = Table.empty.takingAll branches) :
    session.keysOn 0 = [[98], [100], [102]] ∧ session.keysOn 1 = [[97, 122], [97]] := by
  rw [Session.keysOn, Session.keysOn, htable]
  decide +kernel

theorem keysFrom_branched {session : Session} (hsound : session.Sound)
    (htable : session.table = Table.empty.takingAll branches) : session.keysFrom 2 = [] := by
  obtain ⟨-, hholds⟩ := Table.sound_empty.takingAll takesAll_branches
  rw [List.eq_nil_iff_forall_not_mem]
  intro key hkey
  obtain ⟨number, hnumber, hon⟩ := hsound.mem_keysFrom.mp hkey
  obtain ⟨pair, hpair, rfl⟩ := List.mem_map.mp hon
  have hpage := (hsound.table.placed number pair hpair).2
  rw [htable] at hpair hpage
  obtain ⟨page, hnone⟩ | hmem := (hholds pair).mp ⟨number, hpair⟩
  · cases hnone
  have hlt := pageOf_branches pair hmem
  omega

theorem keyList_branched {session : Session} (hsound : session.Sound)
    (htable : session.table = Table.empty.takingAll branches) :
    session.keyList = [[98], [100], [102], [97, 122], [97]] := by
  obtain ⟨hfirst, hsecond⟩ := keysOn_branched htable
  rw [Session.keyList, hsound.keysFrom_eq, hsound.keysFrom_eq, keysFrom_branched hsound htable,
    hfirst, hsecond]
  rfl

theorem traversal_complete_branched :
    (∃ session, branched.session? 0 = some session ∧ session.table.isSplit 0 = true) ∧
      ∀ n, ((branched.scanned 0 (fun _ => [.fetch [102], .contains [99], .countBits]) n).call 0
        (scanCall n)).1 =
          some (.ok (.key ([[98], [100], [102], [97, 122], [97]] : List Bytes)[n]?)) := by
  obtain ⟨keys, -, -, hscan, hpass, -⟩ := traversal_complete reached_branched
  obtain ⟨session, hserves, -, htable⟩ := bears_branched
  have hkeys : keys = session.keyList := by
    have hcall := (hpass (keys.length + session.keyList.length)).symm.trans (hserves.call_keys _)
    rw [Option.some.injEq, Except.ok.injEq, Reply.keys.injEq,
      List.take_of_length_le (Nat.le_add_right _ _),
      List.take_of_length_le (Nat.le_add_left _ _)] at hcall
    exact List.map_injective_iff.mpr (fun _ _ => Except.ok.inj) hcall.1
  rw [hkeys, keyList_branched hserves.sound htable] at hscan
  refine ⟨⟨session, hserves.session?_eq, ?_⟩, hscan _ ?_⟩
  · rw [htable]
    decide +kernel
  · intro _
    decide

end Host

end PageTrie
