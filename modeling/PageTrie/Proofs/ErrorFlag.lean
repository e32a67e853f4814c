import Mathlib.Data.List.DropRight
import PageTrie.Proofs.Session.Flag
import PageTrie.Proofs.SparedFiles

/-! The flag of a handle over its whole life: it is up exactly if a call has reported a failure
on the files since the handle was opened or the flag last cleared, whatever the files hold and
whatever others write to them meanwhile. -/
namespace PageTrie

abbrev Exchange := Call × Except StoreError Reply

/-- The exchanges since the flag was last cleared, or all of them if it never was. -/
def sinceCleared (log : List Exchange) : List Exchange :=
  log.rtakeWhile fun exchange => decide (exchange.1 ≠ .clearError)

/-- The call itself is wrong, which shows before the files are looked at. -/
def StoreError.isMisuse : StoreError → Bool
  | .invalidArgument _ | .readOnly | .pairTooLarge _ _ => true
  | _ => false

theorem StoreError.isIo_of_isMisuse {cause : StoreError} (h : cause.isMisuse = true) :
    cause.isIo = false := by
  cases cause <;> first | rfl | cases h

theorem Call.flagAfter_of_ne {call : Call} (h : call ≠ .clearError) (failed : Bool)
    (answer : Except StoreError Reply) :
    call.flagAfter failed answer = (reportsIo answer || failed) := by
  cases call with
  | clearError => exact absurd rfl h
  | _ => rfl

theorem any_sinceCleared_concat (log : List Exchange) (exchange : Exchange) :
    (sinceCleared (log ++ [exchange])).any (reportsIo ·.2) =
      exchange.1.flagAfter ((sinceCleared log).any (reportsIo ·.2)) exchange.2 := by
  obtain ⟨call, answer⟩ := exchange
  by_cases hcall : call = .clearError
  · subst hcall
    rw [sinceCleared, List.rtakeWhile_concat_neg _ _ _ (by simp)]
    rfl
  · rw [sinceCleared, List.rtakeWhile_concat_pos _ _ _ (by simpa using hcall),
      Call.flagAfter_of_ne hcall, List.any_append, List.any_cons, List.any_nil, Bool.or_false,
      Bool.or_comm, sinceCleared]

namespace Session

/-- What comes to pass with a handle, from the session that it starts with: calls on it, and
between them anything that others do to the two files. -/
inductive Serves (session : Session) : List Exchange → Session → Prop
  | opened : Serves session [] session
  | answered {log : List Exchange} {session' : Session} (before : Serves session log session')
      (call : Call) :
      Serves session (log ++ [(call, (session'.step call).1)]) (session'.step call).2
  | disturbed {log : List Exchange} {session' : Session} (before : Serves session log session')
      (directory pages : OpenFile) :
      Serves session log { session' with
        directory := { session'.directory with file := directory }
        pages := pages }

theorem Serves.run {start session : Session} {log : List Exchange} (h : start.Serves log session)
    (calls : List Call) :
    start.Serves (log ++ calls.zip (session.answers calls)) (session.run calls) := by
  induction calls generalizing session log with
  | nil => simpa using h
  | cons call calls ih =>
    have hrest := ih (h.answered call)
    rw [List.append_assoc] at hrest
    exact hrest

theorem Serves.failed_eq {start session : Session} {log : List Exchange}
    (h : start.Serves log session) (hstart : start.failed = false) :
    session.failed = (sinceCleared log).any (reportsIo ·.2) := by
  induction h with
  | opened => exact hstart
  | answered _ call ih => rw [failed_step, ih, any_sinceCleared_concat]
  | disturbed _ _ _ ih => exact ih

theorem step_sync_failing (session : Session) {directory pages : Option IoError} {cause : IoError}
    (h : directory.or pages = some cause) :
    (session.step (.sync directory pages)).1 = .error (.io cause) ∧
      (session.step (.sync directory pages)).2.failed = true := by
  rw [step_sync, h]
  exact ⟨rfl, rfl⟩

/-- The flag is up exactly if a call has reported a failure on the files since the flag was last
cleared. What is wrong with a call itself does not touch it, only clearing it takes it down, and a
sync that the system fails at reports that failure. -/
theorem failed_iff_reported (config : Config) (directory pages : OpenFile) :
    (∀ calls, ((start config directory pages).run calls).failed = true ↔
      ∃ exchange ∈ sinceCleared (calls.zip ((start config directory pages).answers calls)),
        reportsIo exchange.2 = true) ∧
    (∀ log session, (start config directory pages).Serves log session →
      (session.failed = true ↔
        ∃ exchange ∈ sinceCleared log, reportsIo exchange.2 = true) ∧
      (∀ call cause, (session.step call).1 = .error cause → cause.isMisuse = true →
        (session.step call).2.failed = session.failed) ∧
      (∀ call, call ≠ .clearError → session.failed = true →
        (session.step call).2.failed = true) ∧
      ∀ synced synced' cause, synced.or synced' = some cause →
        (session.step (.sync synced synced')).1 = .error (.io cause) ∧
          (session.step (.sync synced synced')).2.failed = true) := by
  have hexact (log : List Exchange) (session : Session)
      (h : (start config directory pages).Serves log session) :
      session.failed = true ↔ ∃ exchange ∈ sinceCleared log, reportsIo exchange.2 = true := by
    rw [h.failed_eq rfl, List.any_eq_true]
  refine ⟨fun calls => hexact _ _ (Serves.opened.run calls), fun log session h =>
    ⟨hexact log session h, fun call cause hanswer hcause => ?_, fun call hcall hfailed => ?_,
      fun _ _ _ => session.step_sync_failing⟩⟩
  · have hcall : call ≠ .clearError := by
      rintro rfl
      cases hanswer
    rw [failed_step, hanswer, Call.flagAfter_of_ne hcall]
    exact congrArg (· || session.failed) (StoreError.isIo_of_isMisuse hcause)
  · rw [failed_step, Call.flagAfter_of_ne hcall, hfailed, Bool.or_true]

theorem failed_iff_reported_damaged :
    ∃ log session, (onFiles .ofNumberedBlocks {} 1 2 strayDirectory brokenPages).Serves log session ∧
      log = [(.sync none (some .fileTooLarge), .error (.io .fileTooLarge)),
        (.clearError, .ok .done), (.fetch [107], .error (.corruptPage 0))] ∧
      session.failed = true ∧ (session.step (.fetch [])).2.failed = session.failed ∧
      (session.step (.sync none none)).2.failed = true := by
  have hfaithful := faithful_onFiles .ofNumberedBlocks {} 1 2 strayDirectory brokenPages
  have hopened : (onFiles .ofNumberedBlocks {} 1 2 strayDirectory brokenPages).Serves [] _ :=
    .opened
  generalize hfirst : onFiles .ofNumberedBlocks {} 1 2 strayDirectory brokenPages = first
    at hfaithful hopened ⊢
  have hpage : first.pageFor [107] = 0 := by
    rw [← hfirst]
    decide +kernel
  have hcorrupt : (first.diskPage (first.pageFor [107])).isWellFormed = false := by
    rw [hpage, ← hfirst]
    decide +kernel
  have hcleared : first.Serves _ { first with failed := false } :=
    (hopened.answered (.sync none (some .fileTooLarge))).answered .clearError
  obtain ⟨block, -, hstep⟩ := (hfaithful.setting false first.scan).step_corrupt
    (.fetch (List.cons_ne_nil 107 [])) hcorrupt
  have hserves := hcleared.answered (.fetch [107])
  rw [hstep] at hserves
  obtain ⟨-, hserved⟩ := failed_iff_reported {}
    (FileSystem.ofNumberedBlocks.file 1 .readWrite (.regular strayDirectory))
    (FileSystem.ofNumberedBlocks.file 2 .readWrite (.regular brokenPages))
  obtain ⟨hexact, hmisuse, hstays, -⟩ := hserved _ _ (hfirst ▸ hserves)
  have hfailed := hexact.mpr ⟨_, List.mem_singleton_self _, rfl⟩
  refine ⟨_, _, hserves, ?_, hfailed, hmisuse (.fetch []) _ rfl rfl,
    hstays (.sync none none) (by decide) hfailed⟩
  rw [← hpage]
  rfl

end Session

end PageTrie
