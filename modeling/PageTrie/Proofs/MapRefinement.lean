import PageTrie.Proofs.Host.Runs

/-! A store is a map from keys to values. Along every run of calls and reopenings there is a
map at each step that all lookups show, and each answer says how the next map comes about. -/
namespace PageTrie

namespace Session

variable {session : Session}

theorem Sound.answer_fetch (h : session.Sound) {key : Bytes} (hkey : key ≠ []) :
    (session.step (.fetch key)).1 = .ok (.value (session.table.lookup key)) := by
  obtain ⟨session', hrun, -⟩ := h.fetch hkey
  rw [step_ok (run_map_ok _ hrun)]

theorem Sound.answer_contains (h : session.Sound) {key : Bytes} (hkey : key ≠ []) :
    (session.step (.contains key)).1 = .ok (.found (session.table.lookup key).isSome) := by
  obtain ⟨session', hrun, -⟩ := h.contains hkey
  rw [step_ok (run_map_ok _ hrun)]

theorem Sound.answer_insert (h : session.Sound) {pair : Pair} (hkey : pair.key ≠ [])
    (hsize : pair.size ≤ pairLimit) (hwritable : session.config.isReadOnly = false) :
    (session.step (.store pair .insert)).1 = .ok (.status .exists) ↔
      (session.table.lookup pair.key).isSome = true := by
  have hstore := h.store pair .insert
  generalize hresult : (Session.store pair .insert).run session = result at hstore
  cases hstore with
  | rejected cause reason => exact absurd reason (not_rejected hkey hsize hwritable)
  | «exists» inserting bound recalls sound =>
    rw [step_ok (run_map_ok _ hresult)]
    exact iff_of_true rfl bound
  | stored key_ne unbound placement =>
    rw [step_ok (run_map_ok _ hresult), unbound rfl]
    refine iff_of_false ?_ Bool.false_ne_true
    intro hanswer
    cases hanswer
  | refused key_ne unbound placement =>
    rw [step_error (run_map_error _ hresult), unbound rfl]
    refine iff_of_false ?_ Bool.false_ne_true
    intro hanswer
    cases hanswer

theorem Sound.answer_delete (h : session.Sound) {key : Bytes} (hkey : key ≠ [])
    (hwritable : session.config.isReadOnly = false) :
    (session.step (.delete key)).1 = .ok (.found (session.table.lookup key).isSome) := by
  have hdelete := h.delete key
  generalize hresult : (Session.delete key).run session = result at hdelete
  cases hdelete with
  | rejected cause reason =>
    obtain hnil | hreadOnly := reason
    · exact absurd hnil hkey
    · rw [hwritable] at hreadOnly
      cases hreadOnly
  | absent unbound recalls sound =>
    rw [step_ok (run_map_ok _ hresult), unbound]
    rfl
  | erased bound sound alike table_eq => rw [step_ok (run_map_ok _ hresult), bound]

end Session

namespace Host

def IsWritable (host : Host) (slot : Nat) : Prop :=
  ∃ session, host.session? slot = some session ∧ session.config.isReadOnly = false

/-- The store in a slot answers every lookup as a map does, calls for a new pair or for an old
one as the map has it, and a pass with the keys that have a value. -/
structure Shows (host : Host) (slot : Nat) (map : Bytes → Option Bytes) : Prop where
  nil : map [] = none
  fetch : ∀ key, key ≠ [] →
    (host.call slot (.fetch key)).1 = some (.ok (.value (map key)))
  contains : ∀ key, key ≠ [] →
    (host.call slot (.contains key)).1 = some (.ok (.found (map key).isSome))
  insert : ∀ pair : Pair, pair.key ≠ [] → pair.size ≤ pairLimit → host.IsWritable slot →
    ((host.call slot (.store pair .insert)).1 = some (.ok (.status .exists)) ↔
      (map pair.key).isSome = true)
  delete : ∀ key, key ≠ [] → host.IsWritable slot →
    (host.call slot (.delete key)).1 = some (.ok (.found (map key).isSome))
  keys : ∃ keys : List Bytes, keys.Nodup ∧ (∀ key, key ∈ keys ↔ (map key).isSome = true) ∧
    ∀ limit, (host.call slot (.keys limit)).1 =
      some (.ok (.keys ((keys.take limit).map .ok) (decide (keys.length < limit))))

/-- What a move says about the map before it and the map after it. -/
def Turns (host : Host) (slot : Nat) (move : Move) (map map' : Bytes → Option Bytes) : Prop :=
  match move with
  | .call call => ∃ result, (host.call slot call).1 = some result ∧ call.Turns result map map'
  | .reopen config => (host.openSlot slot config).1 = .ok () ∧ map' = map

section Serves

variable {host : Host} {slot : Nat} {session : Session}

theorem Serves.isWritable (h : host.Serves slot session) (hwritable : host.IsWritable slot) :
    session.config.isReadOnly = false := by
  obtain ⟨session', hsession', hmode⟩ := hwritable
  rw [h.session?_eq] at hsession'
  cases hsession'
  exact hmode

theorem Serves.shows (h : host.Serves slot session) : host.Shows slot session.table.lookup where
  nil := h.sound.table.lookup_nil
  fetch key hkey := by rw [(h.call _).1, h.sound.answer_fetch hkey]
  contains key hkey := by rw [(h.call _).1, h.sound.answer_contains hkey]
  insert pair hkey hsize hwritable := by
    rw [(h.call _).1, Option.some.injEq]
    exact h.sound.answer_insert hkey hsize (h.isWritable hwritable)
  delete key hkey hwritable := by
    rw [(h.call _).1, h.sound.answer_delete hkey (h.isWritable hwritable)]
  keys := ⟨session.keyList, h.sound.nodup_keyList, h.sound.mem_keyList, h.call_keys⟩

theorem Serves.turns (h : host.Serves slot session) {move : Move}
    (hkeeps : move.Keeps session.config.path) (htruncates : move.truncates = false) :
    ∃ session', (host.after slot move).Serves slot session' ∧
      session'.config.path = session.config.path ∧
      host.Turns slot move session.table.lookup session'.table.lookup := by
  cases move with
  | call call =>
    obtain ⟨hanswer, hserves⟩ := h.call call
    have heffect := h.sound.effect call
    exact ⟨_, hserves, by rw [heffect.alike.config], _, hanswer, heffect.turns⟩
  | reopen config =>
    obtain ⟨hopened, session', hserves, hconfig, htable, -⟩ := h.reopen hkeeps
    rw [if_neg (of_decide_eq_false htruncates)] at htable
    exact ⟨session', hserves, by rw [hconfig]; exact hkeeps, hopened, by rw [htable]⟩

end Serves

/-- Along every run from a fresh store, whatever is called and however often the store is
reopened, it shows a map that starts empty and turns as the answers say. -/
theorem refines_map {host : Host} {slot : Nat} {config : Config} (hfresh : host.Fresh config)
    (hopened : (host.openSlot slot config).1 = .ok ()) (moves : Nat → Move)
    (hmoves : ∀ n, (moves n).Keeps config.path ∧ (moves n).truncates = false) :
    ∃ maps : Nat → Bytes → Option Bytes, maps 0 = (fun _ => none) ∧
      ∀ n, ((host.openSlot slot config).2.afterMoves slot moves n).Shows slot (maps n) ∧
        ((host.openSlot slot config).2.afterMoves slot moves n).Turns slot (moves n)
          (maps n) (maps (n + 1)) := by
  obtain ⟨session, hserves, hconfig, htable⟩ := hfresh.serves hopened
  -- The maps are the lookups of the sessions that the run goes through.
  have hrun (n : Nat) : ∃ session',
      ((host.openSlot slot config).2.afterMoves slot moves n).Serves slot session' ∧
        session'.config.path = config.path := by
    induction n with
    | zero => exact ⟨session, hserves, by rw [hconfig]⟩
    | succ n ih =>
      obtain ⟨before, hbefore, hpath⟩ := ih
      obtain ⟨hkeeps, htruncates⟩ := hmoves n
      rw [← hpath] at hkeeps
      obtain ⟨next, hnext, hsame, -⟩ := hbefore.turns hkeeps htruncates
      exact ⟨next, hnext, hsame.trans hpath⟩
  choose sessions hsessions hpaths using hrun
  refine ⟨fun n => (sessions n).table.lookup, ?_, fun n => ⟨(hsessions n).shows, ?_⟩⟩
  · have hfirst := (hsessions 0).session?_eq
    have hsame := hserves.session?_eq
    rw [afterMoves, hsame, Option.some.injEq] at hfirst
    funext key
    dsimp only
    rw [← hfirst, htable, Table.lookup_empty]
  · obtain ⟨hkeeps, htruncates⟩ := hmoves n
    rw [← hpaths n] at hkeeps
    obtain ⟨next, hnext, -, hturns⟩ := (hsessions n).turns hkeeps htruncates
    have hsame := hnext.session?_eq
    have hthere := (hsessions (n + 1)).session?_eq
    rw [afterMoves, hsame, Option.some.injEq] at hthere
    dsimp only
    rw [← hthere]
    exact hturns

def reopening (n : Nat) : Move :=
  if n % 2 = 0 then .call (.store ⟨[107], [118]⟩ .replace)
  else .reopen { path := "t", mode := .readWrite }

theorem refines_map_reopening :
    ∃ maps : Nat → Bytes → Option Bytes, maps 0 = (fun _ => none) ∧
      ∀ n, (newStore.afterMoves 0 reopening n).Shows 0 (maps n) ∧
        (newStore.afterMoves 0 reopening n).Turns 0
          (reopening n) (maps n) (maps (n + 1)) := by
  apply refines_map (fresh_empty _ rfl) rfl reopening
  intro n
  unfold reopening
  split
  · exact ⟨trivial, rfl⟩
  · exact ⟨rfl, rfl⟩

end Host

end PageTrie
