import PageTrie.Proofs.Checked.Directory
import PageTrie.Proofs.Session.Modest

/-! Calls on a session with every step checked: when one agrees with the call itself, and the
reading and writing of pages. -/
namespace PageTrie.Checked

open Session (Ends)

/-- A checked call ends like the call itself, its answer read off the other's; no check failed. -/
inductive Agrees {α β : Type} (f : α → β) (P : α → Session → Prop)
    (Q : StoreError → Session → Prop) :
    EStateM.Result Halt Session β → EStateM.Result StoreError Session α → Prop
  | ok {a : α} {session : Session} (done : P a session) :
      Agrees f P Q (.ok (f a) session) (.ok a session)
  | error {cause : StoreError} {session : Session} (failed : Q cause session) :
      Agrees f P Q (.error (.failed cause) session) (.error cause session)

section Agrees

variable {α α' β β' : Type} {f : α → β} {g : α' → β'} {P : α → Session → Prop}
  {P' : α' → Session → Prop} {Q : StoreError → Session → Prop} {session : Session}

theorem Agrees.of_ends {x : CheckedM Session β} {call : SessionM α}
    (hrun : x.run session = (f <$> lift call).run session) (h : Ends P Q (call.run session)) :
    Agrees f P Q (x.run session) (call.run session) := by
  rw [hrun, EStateM.run_map, run_lift]
  generalize call.run session = result at h ⊢
  cases h with
  | ok done => exact .ok done
  | error failed => exact .error failed

theorem Agrees.pure (a : α) (h : P a session) :
    Agrees f P Q ((Pure.pure (f a) : CheckedM Session β).run session)
      ((Pure.pure a : SessionM α).run session) := .ok h

theorem Agrees.lift {call : SessionM α} (h : Ends P Q (call.run session)) :
    Agrees id P Q ((lift call).run session) (call.run session) :=
  .of_ends (by rw [id_map]) h

theorem Agrees.bind {x : CheckedM Session β} {call : SessionM α} {k : β → CheckedM Session β'}
    {next : α → SessionM α'} (h : Agrees f P Q (x.run session) (call.run session))
    (hnext : ∀ a session', P a session' →
      Agrees g P' Q ((k (f a)).run session') ((next a).run session')) :
    Agrees g P' Q ((x >>= k).run session) ((call >>= next).run session) := by
  generalize hleft : x.run session = result at h
  generalize hright : call.run session = result' at h
  cases h with
  | ok done =>
    rw [run_bind_ok hleft, run_bind_ok hright]
    exact hnext _ _ done
  | error failed =>
    rw [run_bind_error hleft, run_bind_error hright]
    exact .error failed

theorem Agrees.map {γ : Type} {checked : CheckedM Session α} {call : SessionM α} {next : α → γ}
    {P' : γ → Session → Prop} (h : Agrees id P Q (checked.run session) (call.run session))
    (hdone : ∀ a session', P a session' → P' (next a) session') :
    Agrees id P' Q ((next <$> checked).run session) ((next <$> call).run session) := by
  rw [map_eq_pure_bind, map_eq_pure_bind]
  exact h.bind fun a session' hP => .ok (hdone a session' hP)

theorem Agrees.mono {result : EStateM.Result Halt Session β}
    {result' : EStateM.Result StoreError Session α} (h : Agrees f P Q result result')
    {P' : α → Session → Prop} {Q' : StoreError → Session → Prop}
    (hdone : ∀ a session, P a session → P' a session)
    (hfailed : ∀ cause session, Q cause session → Q' cause session) :
    Agrees f P' Q' result result' := by
  cases h with
  | ok done => exact .ok (hdone _ _ done)
  | error failed => exact .error (hfailed _ _ failed)

end Agrees

def onDirectory (call : CheckedM Directory α) : CheckedM Session α := fun session =>
  match call.run session.directory with
  | .ok a directory => .ok a { session with directory }
  | .error halt directory => .error halt { session with directory }

def flagging (call : CheckedM Session α) : CheckedM Session α := fun session =>
  match call.run session with
  | .ok a session' => .ok a session'
  | .error (.failed cause) session' =>
    .error (.failed cause) (if cause.isIo then { session' with failed := true } else session')
  | .error (.fault fault) session' => .error (.fault fault) session'

theorem onDirectory_lift (call : DirectoryM α) :
    onDirectory (lift call) = lift (Session.onDirectory call) := by
  funext session
  change (match (lift call).run session.directory with
    | .ok a directory => EStateM.Result.ok a { session with directory }
    | .error halt directory => .error halt { session with directory }) =
      (lift (Session.onDirectory call)).run session
  rw [run_lift, run_lift, EStateM.run.eq_def (Session.onDirectory call), Session.onDirectory]
  cases call.run session.directory <;> rfl

theorem Agrees.flagging {α β : Type} {f : α → β} {P : α → Session → Prop}
    {Q : StoreError → Session → Prop} {session : Session} {x : CheckedM Session β}
    {call : SessionM α} (h : Agrees f P Q (x.run session) (call.run session))
    (hflagged : ∀ cause session, Q cause session → Q cause session.flagged) :
    Agrees f P Q ((flagging x).run session) ((Session.flagging call).run session) := by
  rw [Session.run_flagging, EStateM.run.eq_def (Checked.flagging x), Checked.flagging]
  generalize x.run session = result at h ⊢
  generalize call.run session = result' at h ⊢
  cases h with
  | ok done => exact .ok done
  | @error cause session' failed =>
    dsimp only
    cases cause.isIo with
    | true => exact .error (hflagged _ _ failed)
    | false => exact .error failed

def loadPage (number : Nat) : CheckedM Session Page := do
  let session ← get
  match session.cached? number with
  | some page => return page
  | none =>
    set { session with cached := none }
    let pos ← check (mul number pageSize)
    let bytes ← ofFile (session.pages.block pos pageSize)
    if ← check (isValid ⟨bytes⟩) then
      modify fun session => { session with cached := some (number, ⟨bytes⟩) }
      return ⟨bytes⟩
    else throw (.failed (.corruptPage number))

def keep (number : Nat) (page : Page) : CheckedM Session Unit :=
  modify fun session => { session with cached := some (number, page) }

def writePagesAt (pos : Nat) (bs : Bytes) : CheckedM Session Unit := fun session =>
  match (OpenFile.writeAt pos bs).run session.pages with
  | .ok () pages => .ok () { session with pages }
  | .error cause pages => .error (.failed (.io cause)) { session with pages }

def writePage (number : Nat) (page : Page) : CheckedM Session Unit := do
  let pos ← check (mul number pageSize)
  writePagesAt pos page.bytes.toList

theorem loadPage_eq {number : Nat} (h : number * 1024 < 0x10000000000000000) :
    loadPage number = lift (Session.pageAt number) := by
  have hpos : mul number pageSize = .ok (number * pageSize) := mul_eq h
  funext session
  change (loadPage number).run session = (lift (Session.pageAt number)).run session
  unfold loadPage
  rw [run_lift, EStateM.run_bind, EStateM.run_get, EStateM.run.eq_def (Session.pageAt number),
    Session.pageAt]
  dsimp only
  cases session.cached? number with
  | some page => simp only [EStateM.run_pure]
  | none =>
    unfold Session.pageOnDisk
    simp only [hpos, check_ok, pure_bind]
    cases session.pages.block (number * pageSize) pageSize with
    | error cause => rfl
    | ok bytes =>
      simp only [ofFile_ok, pure_bind, isValid_eq, check_ok]
      cases (Page.mk bytes).isWellFormed <;> rfl

theorem writePage_eq {number : Nat} (h : number < Session.pageCountLimit) (page : Page) :
    writePage number page = lift (Session.putPage number page) := by
  have hpos : mul number pageSize = .ok (number * pageSize) := by
    apply mul_eq
    change number < 0x100000000 at h
    change number * 1024 < _
    omega
  funext session
  change (writePage number page).run session = (lift (Session.putPage number page)).run session
  unfold writePage
  simp only [hpos, check_ok, pure_bind]
  rw [run_lift, EStateM.run.eq_def (Session.putPage number page), Session.putPage,
    EStateM.run.eq_def (writePagesAt _ _), writePagesAt]
  cases (OpenFile.writeAt (number * pageSize) page.bytes.toList).run session.pages <;> rfl

theorem run_keep (number : Nat) (page : Page) (session : Session) :
    (keep number page).run session = .ok () (session.keeping (some (number, page))) := rfl

theorem run_writePage {session : Session} (h : session.Busy) {number : Nat}
    (hnumber : number < Session.pageCountLimit) (page : Page) :
    (writePage number page).run session = .ok () (session.wrote number page) := by
  rw [writePage_eq hnumber]
  exact run_lift_ok (h.modest.ready.run_putPage h.writable hnumber page)

end PageTrie.Checked
