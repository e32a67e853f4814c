import PageTrie.Proofs.FaultFreedom
import PageTrie.Proofs.Session.Flag
import PageTrie.Proofs.Session.Frame
import PageTrie.Proofs.SingleWriter

/-! Which calls leave the files alone, whatever these hold: those that look, those that fail
before anything is written, and those that find nothing to change. A page that is found corrupt
has no part in what comes after. -/
namespace PageTrie

def StoreError.isRefusal : StoreError → Bool
  | .invalidArgument _ | .readOnly | .pairTooLarge _ _ | .corruptPage _ => true
  | .io _ | .cannotMakeRoom _ | .pageFull _ _ | .locked _ => false

namespace Session

open TrieNode

def Arises (session : Session) : Prop :=
  ∃ system config inode inode' directory pages calls,
    session = (onFiles system config inode inode' directory pages).run calls

def pageFor (session : Session) (key : Bytes) : Nat :=
  (session.leafOf (keyHash key)).page (keyHash key)

/-- An answer to a call that reports no change. -/
inductive Spares (session : Session) : Call → Except StoreError Reply → Prop
  | looking {call : Call} (answer : Except StoreError Reply) (looks : call.isChange = false) :
      Spares session call answer
  | readOnly (call : Call) (answer : Except StoreError Reply)
      (mode : session.config.isReadOnly = true) : Spares session call answer
  | exists (pair : Pair) (mode : PutMode) :
      Spares session (.store pair mode) (.ok (.status .exists))
  | refused (pair : Pair) (mode : PutMode) {cause : StoreError} (refusal : cause.isRefusal = true) :
      Spares session (.store pair mode) (.error cause)
  | full (pair : Pair) (mode : PutMode) (attempts : Nat)
      (depth : (session.leafOf (keyHash pair.key)).depth = hashWidth) :
      Spares session (.store pair mode) (.error (.cannotMakeRoom attempts))
  | absent (key : Bytes) : Spares session (.delete key) (.ok (.found false))
  | failed (key : Bytes) (cause : StoreError) : Spares session (.delete key) (.error cause)

inductive Seeks (session : Session) : Call → Bytes → Prop
  | fetch {key : Bytes} (key_ne : key ≠ []) : Seeks session (.fetch key) key
  | contains {key : Bytes} (key_ne : key ≠ []) : Seeks session (.contains key) key
  | store {pair : Pair} (mode : PutMode) (key_ne : pair.key ≠ [])
      (size_le : pair.size ≤ pairLimit) (writable : session.config.isReadOnly = false) :
      Seeks session (.store pair mode) pair.key
  | delete {key : Bytes} (key_ne : key ≠ []) (writable : session.config.isReadOnly = false) :
      Seeks session (.delete key) key

/-- A failed call spared the files, unless it gave up on splits that it had made. -/
def Balked (session : Session) (hash : UInt32) (cause : StoreError) (session' : Session) : Prop :=
  session.SameFiles session' ∨
    (session.leafOf hash).depth ≠ hashWidth ∧ cause = .cannotMakeRoom splitBudget

section Faithful

variable {session : Session} (h : session.Faithful)
include h

theorem Faithful.starts (hwritable : session.config.isReadOnly = false) (hash : UInt32) :
    Ends (fun found session' => session.SameFiles session' ∧ found.2.InOrder ∧
        found.1 = onPath hash (session.leafOf hash).depth ∧
        session'.Underway hash (session.leafOf hash).depth 0 session')
      (fun _ => session.SameFiles) ((Session.leafFor hash).run session) := by
  apply (h.ends_leafFor hash).mono
  · rintro found session' ⟨hrecalls, hfaithful, hleaf, horder, -⟩
    refine ⟨hrecalls.sameFiles, horder, hleaf.trans (leaf_eq_onPath _ hash),
      (isLeaf_depth _ hash).depth_le, .refl _ _ _, hfaithful.ready, ?_⟩
    rw [hrecalls.alike.config, hwritable]
  · exact fun _ _ hfailed => hfailed.1.sameFiles

theorem Faithful.spares_put (hwritable : session.config.isReadOnly = false) {pair : Pair}
    (hsize : pair.size ≤ pairLimit) (mode : PutMode) :
    Ends (fun result session' => result = .exists → session.SameFiles session')
      (session.Balked (keyHash pair.key)) ((put pair mode).run session) := by
  unfold Session.put
  apply ((h.starts hwritable (keyHash pair.key)).mono (fun _ _ => id)
    fun _ _ => Or.inl).bind
  rintro ⟨leaf, page⟩ session' ⟨hsame, horder, hleaf, hstart⟩
  have hbalked {start session'' : Session} {cause : StoreError} (hstart : session.SameFiles start)
      (hcrammed : start.Crammed (keyHash pair.key) (session.leafOf (keyHash pair.key)).depth cause
        session'') : session.Balked (keyHash pair.key) cause session'' := by
    by_cases hend : (session.leafOf (keyHash pair.key)).depth = hashWidth
    · exact Or.inl (hstart.trans (hcrammed.sameFiles hend))
    · exact Or.inr ⟨hend, hcrammed.cause_eq⟩
  dsimp only at hleaf horder ⊢
  rw [hleaf]
  cases mode with
  | insert =>
    dsimp only
    split
    · exact .ok fun _ => hsame
    · apply ((hstart.place horder hsize).mono (fun _ _ => id) fun _ _ => hbalked hsame).bind
      intro _ session'' _
      exact .ok nofun
  | replace =>
    have hplace := (hstart.restart (some
      ((onPath (keyHash pair.key) (session.leafOf (keyHash pair.key)).depth).page
        (keyHash pair.key), (page.erase? pair.key).getD page))).place
      (horder.erased pair.key) hsize
    dsimp only
    rw [run_bind_ok (run_keep _ _ _)]
    apply (hplace.mono (fun _ _ => id)
      fun _ _ => hbalked ⟨hsame.directory_eq, hsame.pages_eq⟩).bind
    intro _ session'' _
    exact .ok nofun

theorem Faithful.spares_erase (hwritable : session.config.isReadOnly = false) (key : Bytes) :
    Ends (fun found session' => found = false → session.SameFiles session')
      (fun _ => session.SameFiles) ((erase key).run session) := by
  unfold Session.erase
  apply (h.starts hwritable (keyHash key)).bind
  rintro ⟨leaf, page⟩ session' ⟨hsame, horder, hleaf, hstart⟩
  dsimp only at hleaf ⊢
  rw [hleaf]
  cases page.erase? key with
  | none => exact .ok fun _ => hsame
  | some erased =>
    obtain ⟨written, hput, -⟩ := (hstart.restart (some
      ((onPath (keyHash key) (session.leafOf (keyHash key)).depth).page (keyHash key),
        erased))).putPage erased
    rw [Nat.add_zero] at hput
    dsimp only
    rw [run_bind_ok (run_keep _ _ _), run_bind_ok hput]
    exact .ok nofun

theorem Faithful.spares_store (pair : Pair) (mode : PutMode) :
    (∃ result, (session.step (.store pair mode)).1 = .ok (.status result) ∧
        (result = .exists → session.SameFiles (session.step (.store pair mode)).2)) ∨
      ∃ cause, (session.step (.store pair mode)).1 = .error cause ∧
        session.Balked (keyHash pair.key) cause (session.step (.store pair mode)).2 := by
  have hends : Ends (fun reply session' => ∃ result, reply = .status result ∧
      (result = .exists → session.SameFiles session')) (session.Balked (keyHash pair.key))
      ((perform (.store pair mode)).run session) := by
    apply Ends.map
    apply ends_required (Or.inl (.refl session)) (Or.inl (.refl session))
    intro _ hwritable
    split
    · exact .error (Or.inl (.refl session))
    · next hsize =>
      apply ((h.spares_put hwritable (Nat.le_of_not_lt hsize) mode).mono
        (fun result _ hspared => ⟨result, rfl, hspared⟩) fun _ _ => id).flagging
      rintro cause session' (hsame | hcrammed)
      · exact Or.inl hsame.flagged
      · exact Or.inr hcrammed
  obtain ⟨reply, hanswer, result, rfl, hspared⟩ | hfailed := hends.step
  · exact Or.inl ⟨result, hanswer, hspared⟩
  · exact Or.inr hfailed

theorem Faithful.spares_delete (key : Bytes) :
    (∃ found, (session.step (.delete key)).1 = .ok (.found found) ∧
        (found = false → session.SameFiles (session.step (.delete key)).2)) ∨
      ∃ cause, (session.step (.delete key)).1 = .error cause ∧
        session.SameFiles (session.step (.delete key)).2 := by
  have hends : Ends (fun reply session' => ∃ found, reply = .found found ∧
      (found = false → session.SameFiles session')) (fun _ => session.SameFiles)
      ((perform (.delete key)).run session) := by
    apply Ends.map
    apply ends_required (.refl session) (.refl session)
    intro _ hwritable
    apply ((h.spares_erase hwritable key).mono
      (fun found _ hspared => ⟨found, rfl, hspared⟩) fun _ _ => id).flagging
    exact fun _ _ => SameFiles.flagged
  obtain ⟨reply, hanswer, found, rfl, hspared⟩ | hfailed := hends.step
  · exact Or.inl ⟨found, hanswer, hspared⟩
  · exact Or.inr hfailed

theorem Faithful.sameFiles_step {call : Call} (hspares : session.Spares call (session.step call).1) :
    session.SameFiles (session.step call).2 := by
  generalize hanswer : (session.step call).1 = answer at hspares
  cases hspares with
  | looking _ looks => exact (h.twins.abreast.step looks fun _ => rfl).2.left.sameFiles
  | readOnly _ _ mode => exact (h.peeks_of_readOnly mode call).sameFiles
  | «exists» pair mode =>
    obtain ⟨result, hresult, hspared⟩ | ⟨cause, hcause, -⟩ := h.spares_store pair mode
    · rw [hanswer] at hresult
      cases hresult
      exact hspared rfl
    · rw [hanswer] at hcause
      cases hcause
  | refused pair mode refusal =>
    obtain ⟨result, hresult, -⟩ | ⟨cause, hcause, hsame | ⟨-, rfl⟩⟩ := h.spares_store pair mode
    · rw [hanswer] at hresult
      cases hresult
    · exact hsame
    · rw [hanswer] at hcause
      cases hcause
      cases refusal
  | full pair mode attempts depth =>
    obtain ⟨result, hresult, -⟩ | ⟨cause, hcause, hsame | ⟨hdepth, -⟩⟩ := h.spares_store pair mode
    · rw [hanswer] at hresult
      cases hresult
    · exact hsame
    · exact absurd depth hdepth
  | absent key =>
    obtain ⟨found, hfound, hspared⟩ | ⟨cause, hcause, -⟩ := h.spares_delete key
    · rw [hanswer] at hfound
      cases hfound
      exact hspared rfl
    · rw [hanswer] at hcause
      cases hcause
  | failed key cause =>
    obtain ⟨found, hfound, -⟩ | ⟨cause, -, hsame⟩ := h.spares_delete key
    · rw [hanswer] at hfound
      cases hfound
    · exact hsame

end Faithful

section Corrupt

variable {session other : Session}

/-- Two sessions answer all calls alike if each call keeps something between them that makes
them answer it alike. -/
theorem answers_congr {R : Session → Session → Prop}
    (hstep : ∀ {session other : Session}, R session other → ∀ call : Call,
      (session.step call).1 = (other.step call).1 ∧ R (session.step call).2 (other.step call).2)
    (h : R session other) (calls : List Call) : session.answers calls = other.answers calls := by
  induction calls generalizing session other with
  | nil => rfl
  | cons call calls ih =>
    obtain ⟨hanswer, hnext⟩ := hstep h call
    rw [Session.answers, Session.answers, hanswer, ih hnext]

theorem Twins.answers (h : session.Twins other) (calls : List Call) :
    session.answers calls = other.answers calls :=
  answers_congr (fun h call => (h.step call).imp_right Settled.twins) h calls

theorem SameButFlag.answers (h : session.SameButFlag other) (calls : List Call) :
    session.answers calls = other.answers calls :=
  answers_congr SameButFlag.step h calls

theorem Faithful.step_corrupt (h : session.Faithful) {call : Call} {key : Bytes}
    (hseeks : session.Seeks call key)
    (hcorrupt : (session.diskPage (session.pageFor key)).isWellFormed = false) :
    ∃ block, (session.directory.remembering block).Coherent ∧
      session.step call =
        (.error (.corruptPage (session.pageFor key)), (session.recalling block none).flagged) := by
  obtain ⟨block, hblock, hrun⟩ := h.leafFor (keyHash key)
  have hread : session.pageOnDisk ((session.leafOf (keyHash key)).page (keyHash key)) =
      .error (.corruptPage (session.pageFor key)) := by
    rw [pageOnDisk_eq_ite h.ready.regular
      (reachesPage h.ready.ample.2.storeSpan_le_extent (session.page_leafOf_lt (keyHash key)))]
    exact if_neg (ne_true_of_eq_false hcorrupt)
  rw [hread] at hrun
  have hfetch (hkey : key ≠ []) : (Session.fetch key).run session =
      .error (.corruptPage (session.pageFor key)) (session.recalling block none).flagged := by
    unfold Session.fetch
    rw [run_bind_ok (run_requireKey hkey)]
    exact run_bind_error (run_flagging_error hrun rfl)
  refine ⟨block, hblock, ?_⟩
  cases hseeks with
  | fetch key_ne => exact step_error (run_map_error _ (hfetch key_ne))
  | contains key_ne => exact step_error (run_map_error _ (run_bind_error (hfetch key_ne)))
  | @store pair mode key_ne size_le writable =>
    have hput : (put pair mode).run session = .error (.corruptPage (session.pageFor pair.key))
        (session.recalling block none) := run_bind_error hrun
    apply step_error
    apply run_map_error
    rw [run_store, if_neg key_ne, if_neg (ne_true_of_eq_false writable),
      if_neg (Nat.not_lt.mpr size_le)]
    exact run_flagging_error hput rfl
  | delete key_ne writable =>
    have herase : (erase key).run session = .error (.corruptPage (session.pageFor key))
        (session.recalling block none) := run_bind_error hrun
    apply step_error
    apply run_map_error
    rw [run_delete, if_neg key_ne, if_neg (ne_true_of_eq_false writable)]
    exact run_flagging_error herase rfl

end Corrupt

theorem Arises.faithful {session : Session} (h : session.Arises) : session.Faithful := by
  obtain ⟨system, config, inode, inode', directory, pages, calls, rfl⟩ := h
  have hopened := faithful_onFiles system config inode inode' directory pages
  exact (hopened.twins.runForgetting calls).left

/-- Take any session that calls on two files of any contents lead to. A call that reports no
change leaves both files alone. A call that looks for a key on a page that is not well formed
answers with that page, and all calls after it answer as if it had not been made. -/
theorem files_spared {session : Session} (h : session.Arises) (call : Call) :
    (session.Spares call (session.step call).1 → session.SameFiles (session.step call).2) ∧
      ∀ key, session.Seeks call key →
        (session.diskPage (session.pageFor key)).isWellFormed = false →
        (session.step call).1 = .error (.corruptPage (session.pageFor key)) ∧
          ∀ calls, (session.step call).2.answers calls = session.answers calls := by
  have hfaithful := h.faithful
  refine ⟨hfaithful.sameFiles_step, fun key hseeks hcorrupt => ?_⟩
  obtain ⟨block, hblock, hstep⟩ := hfaithful.step_corrupt hseeks hcorrupt
  have htwins : (session.recalling block none).Twins session :=
    ⟨hfaithful.unloaded hblock, hfaithful, rfl⟩
  rw [hstep]
  refine ⟨rfl, fun calls => ?_⟩
  rw [← (sameButFlag_flagged (session.recalling block none)).answers, htwins.answers]

def damaged : Session :=
  (onFiles .ofNumberedBlocks {} 1 2 strayDirectory brokenPages).run [.sync none none]

theorem files_spared_damaged :
    damaged.Arises ∧ (damaged.step (.delete [107])).1 = .error (.corruptPage 0) ∧
      damaged.SameFiles (damaged.step (.delete [107])).2 := by
  have harises : damaged.Arises := ⟨_, _, _, _, _, _, _, rfl⟩
  have hpage : damaged.pageFor [107] = 0 := by decide +kernel
  have hcorrupt : (damaged.diskPage 0).isWellFormed = false := by decide +kernel
  obtain ⟨hspares, hseeks⟩ := files_spared harises (.delete [107])
  obtain ⟨hanswer, -⟩ := hseeks [107] (.delete (List.cons_ne_nil _ _) rfl) (by rwa [hpage])
  rw [hpage] at hanswer
  refine ⟨harises, hanswer, hspares ?_⟩
  rw [hanswer]
  exact .failed _ _

end Session

end PageTrie
