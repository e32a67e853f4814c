import PageTrie.Proofs.Session.Twins

/-! What a run of a call ends in, for one session. Calls on files of any contents go by the same
few steps: find a leaf, change its page, split it on the way. -/
namespace PageTrie.Session

/-- A run ends in an answer and a session that go together, or in a failure and one. -/
inductive Ends {α : Type} (P : α → Session → Prop) (Q : StoreError → Session → Prop) :
    EStateM.Result StoreError Session α → Prop
  | ok {a : α} {session : Session} (done : P a session) : Ends P Q (.ok a session)
  | error {cause : StoreError} {session : Session} (failed : Q cause session) :
      Ends P Q (.error cause session)

section Ends

variable {α β : Type} {P : α → Session → Prop} {P' : β → Session → Prop}
  {Q : StoreError → Session → Prop} {session : Session}

theorem Ends.mono {result : EStateM.Result StoreError Session α} (h : Ends P Q result)
    {P' : α → Session → Prop} {Q' : StoreError → Session → Prop}
    (hdone : ∀ a session, P a session → P' a session)
    (hfailed : ∀ cause session, Q cause session → Q' cause session) : Ends P' Q' result := by
  cases h with
  | ok done => exact .ok (hdone _ _ done)
  | error failed => exact .error (hfailed _ _ failed)

theorem Ends.bind {x : SessionM α} {f : α → SessionM β} (h : Ends P Q (x.run session))
    (hnext : ∀ a session', P a session' → Ends P' Q ((f a).run session')) :
    Ends P' Q ((x >>= f).run session) := by
  generalize hresult : x.run session = result at h
  cases h with
  | ok done =>
    rw [run_bind_ok hresult]
    exact hnext _ _ done
  | error failed =>
    rw [run_bind_error hresult]
    exact .error failed

theorem Ends.map {P : β → Session → Prop} {x : SessionM α} (f : α → β)
    (h : Ends (fun a => P (f a)) Q (x.run session)) : Ends P Q ((f <$> x).run session) := by
  rw [map_eq_pure_bind]
  apply h.bind
  intro a session' hdone
  exact .ok hdone

theorem Ends.flagging {x : SessionM α} (h : Ends P Q (x.run session))
    (hflagged : ∀ cause session, Q cause session → Q cause session.flagged) :
    Ends P Q ((flagging x).run session) := by
  rw [run_flagging]
  generalize x.run session = result at h ⊢
  cases h with
  | ok done => exact .ok done
  | @error cause session' failed =>
    dsimp only
    cases cause.isIo with
    | true => exact .error (hflagged _ _ failed)
    | false => exact .error failed

theorem Ends.step {P : Reply → Session → Prop} {call : Call}
    (h : Ends P Q ((perform call).run session)) :
    (∃ reply, (session.step call).1 = .ok reply ∧ P reply (session.step call).2) ∨
      ∃ cause, (session.step call).1 = .error cause ∧ Q cause (session.step call).2 := by
  unfold Session.step
  generalize (perform call).run session = result at h
  cases h with
  | ok done => exact Or.inl ⟨_, rfl, done⟩
  | error failed => exact Or.inr ⟨_, rfl, failed⟩

theorem Ends.left {R : Session → Prop} {call : Call}
    (h : Ends (fun _ => R) (fun _ => R) ((perform call).run session)) :
    R (session.step call).2 := by
  obtain ⟨reply, -, hdone⟩ | ⟨cause, -, hfailed⟩ := h.step
  · exact hdone
  · exact hfailed

end Ends

variable {session : Session}

theorem ends_required {P : α → Session → Prop} {Q : StoreError → Session → Prop} {key : Bytes}
    {x : SessionM α} (hkey : Q (.invalidArgument "empty key") session)
    (hreadOnly : Q .readOnly session)
    (hnext : key ≠ [] → session.config.isReadOnly = false → Ends P Q (x.run session)) :
    Ends P Q ((do requireKey key; requireWritable; x : SessionM α).run session) := by
  rw [run_required]
  split_ifs with hnil hmode
  · exact .error hkey
  · exact .error hreadOnly
  · exact hnext hnil (eq_false_of_ne_true hmode)

/-- Finding the leaf of a hash changes at most what is in memory; what it finds is a page in
order, unless there is none to be had. -/
theorem Faithful.ends_leafFor (h : session.Faithful) (hash : UInt32) :
    Ends (fun found session' => session.Recalls session' ∧ session'.Faithful ∧
        found.1 = session.leafOf hash ∧ found.2.InOrder ∧
        session.pageOnDisk ((session.leafOf hash).page hash) = .ok found.2)
      (fun cause session' => session.Recalls session' ∧ session'.Faithful ∧
        session.pageOnDisk ((session.leafOf hash).page hash) = .error cause)
      ((Session.leafFor hash).run session) := by
  obtain ⟨block, hblock, hrun⟩ := h.leafFor hash
  rw [hrun]
  cases hread : session.pageOnDisk ((session.leafOf hash).page hash) with
  | ok page =>
    exact .ok ⟨⟨block, _, rfl⟩, h.loaded hblock hread, rfl,
      (diskPage_of_pageOnDisk h.ready.regular hread).1, rfl⟩
  | error cause => exact .error ⟨⟨block, _, rfl⟩, h.unloaded hblock, rfl⟩

end PageTrie.Session
