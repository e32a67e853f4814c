import PageTrie.Session.Call
import PageTrie.Proofs.Session.Scan
import PageTrie.Proofs.Session.Update

/-! One call on a session, whichever it is. The invariant is kept, and the map from keys to
values follows the answer: only what a call reports as stored or deleted changes it. -/
namespace PageTrie

/-- What the answer to a call says about the map before it and the map after it. A pair that
cannot be put in its old one's place may be lost with it. -/
def Call.Turns (call : Call) (result : Except StoreError Reply)
    (map map' : Bytes → Option Bytes) : Prop :=
  match call with
  | .store pair mode =>
    match result with
    | .ok (.status .stored) => map' = Function.update map pair.key (some pair.value)
    | .error (.cannotMakeRoom _) =>
      map' = map ∨ mode = .replace ∧ map' = Function.update map pair.key none
    | _ => map' = map
  | .delete key =>
    match result with
    | .ok (.found true) => map' = Function.update map key none
    | _ => map' = map
  | _ => map' = map

def Call.isLookup : Call → Bool
  | .fetch _ | .contains _ | .countBits => true
  | _ => false

def Call.isStore : Call → Bool
  | .store _ _ => true
  | _ => false

theorem run_map_ok {x : EStateM ε σ α} {s s' : σ} {a : α} (f : α → β)
    (h : x.run s = .ok a s') : (f <$> x).run s = .ok (f a) s' := by
  rw [EStateM.run_map, h]
  rfl

theorem run_map_error {x : EStateM ε σ α} {s s' : σ} {e : ε} (f : α → β)
    (h : x.run s = .error e s') : (f <$> x).run s = .error e s' := by
  rw [EStateM.run_map, h]
  rfl

namespace Session

variable {session : Session}

theorem step_ok {call : Call} {reply : Reply} {session' : Session}
    (h : (perform call).run session = .ok reply session') :
    session.step call = (.ok reply, session') := by
  rw [step, h]

theorem step_error {call : Call} {cause : StoreError} {session' : Session}
    (h : (perform call).run session = .error cause session') :
    session.step call = (.error cause, session') := by
  rw [step, h]

theorem step_sync (session : Session) (directory pages : Option IoError) :
    session.step (.sync directory pages) = match directory.or pages with
      | none => (.ok .done, session)
      | some cause => (.error (.io cause), session.flagged) := by
  cases directory with
  | some cause => rfl
  | none => cases pages <;> rfl

/-- What every call does to a session that is sound. -/
structure Effect (session : Session) (call : Call) (answer : Except StoreError Reply × Session) :
    Prop where
  sound : answer.2.Sound
  alike : session.Alike answer.2
  turns : call.Turns answer.1 session.table.lookup answer.2.table.lookup
  grows : ∀ i, session.table.isSplit i = true → answer.2.table.isSplit i = true
  unsplit : call.isStore = false → answer.2.table.isSplit = session.table.isSplit

theorem Scans.alike {session' : Session} (h : session.Scans session') :
    session.Alike session' := by
  obtain ⟨cached, scan, rfl⟩ := h
  exact ⟨rfl, rfl, rfl, rfl, rfl⟩

theorem run_keys (h : session.Sound) (limit : Nat) :
    ∃ session', (keys limit).run session =
        .ok ((session.keyList.take limit).map .ok, decide (session.keyList.length < limit))
          session' ∧
      session'.Sound ∧ session.Scans session' := by
  have hgives : KeyStream.Gives session .fresh session (session.keyList.map .ok) :=
    ⟨h, .refl session, rfl⟩
  obtain ⟨stream', session', htake, -, hsound, hscans, -⟩ :=
    KeyStream.items_taken KeyStream.Gives.next hgives limit
  refine ⟨session', ?_, hsound, hscans⟩
  have hlength : (session.keyList.take limit).length < limit ↔ session.keyList.length < limit := by
    rw [List.length_take]
    omega
  rw [EStateM.run, keys, htake, ← List.map_take]
  dsimp only
  rw [List.length_map]
  simp only [hlength]

theorem Effect.of_table_eq {call : Call} {result : Except StoreError Reply} {session' : Session}
    (hturns : call.Turns result session.table.lookup session.table.lookup)
    (hsound : session'.Sound) (halike : session.Alike session')
    (htable : session'.table = session.table) : session.Effect call (result, session') where
  sound := hsound
  alike := halike
  turns := by
    rw [htable]
    exact hturns
  grows i hset := by
    rw [htable]
    exact hset
  unsplit _ := by rw [htable]

theorem Sound.lookup_placed (h : session.Sound) {pair : Pair} (hkey : pair.key ≠ [])
    {session' : Session} (hplacement : session.Placement (session.table.erased pair.key) pair
      (session.table.depthOf pair.key) (.ok () session')) :
    session'.table.lookup = Function.update session.table.lookup pair.key (some pair.value) := by
  cases hplacement with
  | placed count count_le leaf sound alike table_eq room full =>
    obtain ⟨hsound, -, hlookup⟩ := (h.table.erased pair.key).splits
      (session.table.isLeaf pair.key) leaf.depth_le
    have habsent : ((session.table.erased pair.key).splits (keyHash pair.key)
        (session.table.depthOf pair.key) count).lookup pair.key = none := by
      rw [hlookup, h.table.lookup_erased, Function.update_self]
    rw [table_eq, hsound.lookup_added hkey habsent, hlookup, h.table.lookup_erased,
      Function.update_idem]

/-- A pair that found no room takes the old one of its key with it, unless nothing could be
split. -/
theorem Sound.refused (h : session.Sound) {pair : Pair} {cause : StoreError}
    {session' : Session} (hplacement : session.Placement (session.table.erased pair.key) pair
      (session.table.depthOf pair.key) (.error cause session')) :
    cause = .cannotMakeRoom splitBudget ∧ session'.Sound ∧
      session'.table.lookup =
        if session.table.depthOf pair.key = hashWidth then session.table.lookup
        else Function.update session.table.lookup pair.key none := by
  have hleaf := session.table.isLeaf pair.key
  cases hplacement with
  | refused count count_eq grounded forgotten alike unsplit split full =>
    have hcached : ∀ number page, session'.cached = some (number, page) →
        page = session'.diskPage number := by
      intro number page hcached
      rw [forgotten] at hcached
      cases hcached
    have hbudget : splitBudget = 10 := rfl
    have hdepth := hleaf.depth_le
    -- With no split nothing was written, so the file has the old pair still.
    by_cases hend : session.table.depthOf pair.key = hashWidth
    · have htable := unsplit (by omega)
      refine ⟨rfl, ⟨grounded, hcached, ?_⟩, ?_⟩
      · rw [htable]
        exact h.table
      · rw [if_pos hend, htable]
    · have htable := split (by omega)
      obtain ⟨hsound, -, hlookup⟩ := (h.table.erased pair.key).splits hleaf
        (show session.table.depthOf pair.key + count ≤ hashWidth by omega)
      refine ⟨rfl, ⟨grounded, hcached, ?_⟩, ?_⟩
      · rw [htable]
        exact hsound
      · rw [if_neg hend, htable, hlookup, h.table.lookup_erased]

def left : EStateM.Result StoreError Session α → Session
  | .ok _ session => session
  | .error _ session => session

theorem Placement.grows {pair : Pair} {key : Bytes} {depth : Nat}
    {result : EStateM.Result StoreError Session Unit}
    (h : session.Placement (session.table.erased key) pair depth result) (i : Nat)
    (hset : session.table.isSplit i = true) : (left result).table.isSplit i = true := by
  have hsplits (count : Nat) :=
    (Table.isSplit_splits (session.table.erased key) (keyHash pair.key) depth count i).mpr
      (Or.inl hset)
  cases h with
  | placed count count_le leaf sound alike table_eq room full =>
    rw [left, table_eq]
    exact hsplits count
  | refused count count_eq grounded forgotten alike unsplit split full =>
    obtain hzero | hpos := Nat.eq_zero_or_pos count
    · rw [left, unsplit hzero]
      exact hset
    · rw [left, split hpos]
      exact hsplits count

theorem Placement.alike {table : Table} {pair : Pair} {depth : Nat}
    {result : EStateM.Result StoreError Session Unit}
    (h : session.Placement table pair depth result) : session.Alike (left result) := by
  cases h with
  | placed count count_le leaf sound alike table_eq room full => exact alike
  | refused count count_eq grounded forgotten alike unsplit split full => exact alike

theorem turns_store_error (pair : Pair) (mode : PutMode) (cause : StoreError)
    (map : Bytes → Option Bytes) : (Call.store pair mode).Turns (.error cause) map map := by
  cases cause
  case cannotMakeRoom => exact Or.inl rfl
  all_goals rfl

theorem Sound.effect_store (h : session.Sound) (pair : Pair) (mode : PutMode) :
    session.Effect (.store pair mode) (session.step (.store pair mode)) := by
  have hstore := h.store pair mode
  generalize hresult : (Session.store pair mode).run session = result at hstore
  cases hstore with
  | rejected cause reason =>
    rw [step_error (run_map_error _ hresult)]
    exact .of_table_eq (turns_store_error _ _ _ _) h (Alike.refl session) rfl
  | «exists» inserting bound recalls sound =>
    rw [step_ok (run_map_ok _ hresult)]
    exact .of_table_eq rfl sound recalls.alike recalls.table_eq
  | stored key_ne unbound placement =>
    rw [step_ok (run_map_ok _ hresult)]
    have hlookup := h.lookup_placed key_ne placement
    have hgrows := placement.grows
    have halike := placement.alike
    cases placement with
    | placed count count_le leaf sound alike table_eq room full =>
      exact ⟨sound, halike, hlookup, hgrows, Bool.noConfusion⟩
  | @refused cause session' key_ne unbound placement =>
    rw [step_error (run_map_error _ hresult)]
    have hgrows := placement.grows
    have halike := placement.alike
    obtain ⟨rfl, hsound, hlookup⟩ := h.refused placement
    refine ⟨hsound.flagged, ⟨halike.config, halike.directory, halike.pages, halike.limits⟩, ?_,
      hgrows, Bool.noConfusion⟩
    change session'.table.lookup = session.table.lookup ∨ mode = .replace ∧
      session'.table.lookup = Function.update session.table.lookup pair.key none
    rw [hlookup]
    split
    · exact Or.inl rfl
    · cases mode with
      | insert =>
        left
        rw [← unbound rfl, Function.update_eq_self]
      | replace => exact Or.inr ⟨rfl, rfl⟩

theorem Sound.effect_delete (h : session.Sound) (key : Bytes) :
    session.Effect (.delete key) (session.step (.delete key)) := by
  have hdelete := h.delete key
  generalize hresult : (Session.delete key).run session = result at hdelete
  cases hdelete with
  | rejected cause reason =>
    rw [step_error (run_map_error _ hresult)]
    exact .of_table_eq rfl h (Alike.refl session) rfl
  | absent unbound recalls sound =>
    rw [step_ok (run_map_ok _ hresult)]
    exact .of_table_eq rfl sound recalls.alike recalls.table_eq
  | erased bound sound alike table_eq =>
    rw [step_ok (run_map_ok _ hresult)]
    refine ⟨sound, alike, ?_, fun i hset => ?_, fun _ => ?_⟩
    · change _ = Function.update session.table.lookup key none
      rw [table_eq, h.table.lookup_erased]
    · rw [table_eq]
      exact hset
    · rw [table_eq]
      rfl

theorem Sound.step_lookup (h : session.Sound) {call : Call} (hcall : call.isLookup = true) :
    session.Recalls (session.step call).2 ∧ (session.step call).2.Sound := by
  cases call with
  | fetch key =>
    by_cases hkey : key = []
    · rw [hkey, step_error (run_map_error _ run_fetch_nil)]
      exact ⟨Recalls.refl session, h⟩
    · obtain ⟨session', hrun, hrecalls, hsound⟩ := h.fetch hkey
      rw [step_ok (run_map_ok _ hrun)]
      exact ⟨hrecalls, hsound⟩
  | contains key =>
    by_cases hkey : key = []
    · rw [hkey, step_error (run_map_error _ run_contains_nil)]
      exact ⟨Recalls.refl session, h⟩
    · obtain ⟨session', hrun, hrecalls, hsound⟩ := h.contains hkey
      rw [step_ok (run_map_ok _ hrun)]
      exact ⟨hrecalls, hsound⟩
  | countBits =>
    obtain ⟨count, hrun⟩ := h.grounded.countBits
    rw [step_ok (run_map_ok _ hrun)]
    exact ⟨Recalls.refl session, h⟩
  | store | delete | firstKey | nextKey | keys | sync | clearError => cases hcall

theorem Sound.effect_lookup (h : session.Sound) {call : Call} (hcall : call.isLookup = true) :
    session.Effect call (session.step call) := by
  obtain ⟨hrecalls, hsound⟩ := h.step_lookup hcall
  apply Effect.of_table_eq _ hsound hrecalls.alike hrecalls.table_eq
  cases call with
  | fetch | contains | countBits => rfl
  | store | delete | firstKey | nextKey | keys | sync | clearError => cases hcall

/-- Every call keeps the invariant and turns the map as its answer says. -/
theorem Sound.effect (h : session.Sound) (call : Call) :
    session.Effect call (session.step call) := by
  cases call with
  | store pair mode => exact h.effect_store pair mode
  | fetch | contains | countBits => exact h.effect_lookup rfl
  | delete key => exact h.effect_delete key
  | firstKey =>
    obtain ⟨session', hrun, hsound, hscans, -⟩ := h.firstKey
    rw [step_ok (run_map_ok _ hrun)]
    exact .of_table_eq rfl hsound hscans.alike hscans.table_eq
  | nextKey =>
    obtain ⟨session', hrun, hsound, hscans, -⟩ := h.nextKey
    rw [step_ok (run_map_ok _ hrun)]
    exact .of_table_eq rfl hsound hscans.alike hscans.table_eq
  | keys limit =>
    obtain ⟨session', hrun, hsound, hscans⟩ := run_keys h limit
    rw [step_ok (run_map_ok _ hrun)]
    exact .of_table_eq rfl hsound hscans.alike hscans.table_eq
  | sync directory pages =>
    rw [step_sync]
    cases directory.or pages with
    | none => exact .of_table_eq rfl h (Alike.refl session) rfl
    | some cause => exact .of_table_eq rfl h.flagged ⟨rfl, rfl, rfl, rfl, rfl⟩ rfl
  | clearError =>
    exact .of_table_eq rfl (h.setting false session.scan) ⟨rfl, rfl, rfl, rfl, rfl⟩ rfl

end Session

end PageTrie
