import PageTrie.Proofs.CacheTransparency
import PageTrie.Proofs.Checked.Changing
import PageTrie.Proofs.Checked.Scanning

/-! Calls on files of any contents. Whatever the bytes of the two files are, no offset lies outside
its buffer, no count overflows and no word is cut short on the way to an answer, and a call that
fails does so over its arguments, a page that is none, or a page that cannot be made room on. -/
namespace PageTrie

/-- The arguments of a call are no longer than what a machine can address. -/
def Call.IsAddressable : Call → Prop
  | .store pair _ =>
    pair.key.length < 0x8000000000000000 ∧ pair.value.length < 0x8000000000000000
  | _ => True

def Call.HasFailure : Call → StoreError → Prop
  | .sync directory pages, cause =>
    ∃ failure, directory.or pages = some failure ∧ cause = .io failure
  | _, _ => False

namespace Checked

def countSession : CheckedM Session Nat := flagging (onDirectory countBits)

def perform : Call → CheckedM Session Reply
  | .store pair mode => Reply.status <$> store pair mode
  | .fetch key => Reply.value <$> fetch key
  | .contains key => Reply.found <$> containsKey key
  | .delete key => Reply.found <$> delete key
  | .firstKey => Reply.key <$> firstKey
  | .nextKey => Reply.key <$> nextKey
  | .keys limit => (fun (items, ended) => Reply.keys items ended) <$> keys limit
  | .countBits => Reply.count <$> countSession
  | .sync directory pages => (fun _ => Reply.done) <$> lift (Session.sync directory pages)
  | .clearError => (fun _ => Reply.done) <$> lift Session.clearError

def step (session : Session) (call : Call) : Checked (Except StoreError Reply × Session) :=
  match (perform call).run session with
  | .ok reply session' => .ok (.ok reply, session')
  | .error (.failed cause) session' => .ok (.error cause, session')
  | .error (.fault fault) _ => .error fault

def run (session : Session) (calls : List Call) : Checked Session :=
  calls.foldlM (fun session call => do return (← step session call).2) session

def start (config : Config) (directory pages : OpenFile) : Checked Session := do
  let bound ← mul directory.length 8
  return { Session.start config directory pages with
    directory := { Directory.ofFile directory with bound } }

end Checked

namespace Session

/-- What can come out of a call on files of any contents. A pass over the keys ends in any case. -/
def Admits (session : Session) (call : Call) : Except StoreError Reply → Prop
  | .ok (.keys items _) => items.length ≤ session.keyBound ∧
      ∀ cause, .error cause ∈ items → cause.isExpected = true
  | .ok _ => True
  | .error cause => cause.isExpected = true ∨ call.HasFailure cause

open Checked (Agrees CheckedM Fares)

section Calm

variable {session : Session} (h : session.Calm)
include h

theorem Calm.fares_countBits : Fares Checked.countSession countBits session := by
  have hcount := h.modest.directory_lt
  have hlength : session.directory.file.length + bitBlockSize ≤ positionRange := by
    change _ < 0x1000000000000000 at hcount
    change _ + 4096 ≤ 0x8000000000000000
    omega
  have hrun := h.faithful.ready.coherent.count hlength
  have hchecked : (Checked.onDirectory Checked.countBits).run session =
      .ok session.directory.file.marks.card { session with directory := session.directory } := by
    rw [EStateM.run, Checked.onDirectory, Checked.run_countBits hcount, Checked.run_lift_ok hrun]
  apply Fares.flagging
  unfold Fares
  rw [hchecked, run_onDirectory hrun]
  exact .ok h

theorem Calm.fares_keys (limit : Nat) :
    Agrees id
      (fun answer session' =>
        session.Admits (.keys limit) (.ok (.keys answer.1 answer.2)) ∧ session'.Calm)
      (fun cause session' => cause.isExpected = true ∧ session'.Calm)
      ((Checked.keys limit).run session) ((keys limit).run session) := by
  obtain ⟨htake, hlength, hexpected, hcalm⟩ := Checked.takeItems_eq h .fresh limit
  rw [EStateM.run, EStateM.run, Checked.keys, keys, htake]
  exact .ok ⟨⟨hlength, hexpected⟩, hcalm⟩

theorem Calm.agrees_sync (directory pages : Option IoError) :
    Agrees id
      (fun reply session' => session.Admits (.sync directory pages) (.ok reply) ∧ session'.Calm)
      (fun cause session' => session.Admits (.sync directory pages) (.error cause) ∧ session'.Calm)
      ((Checked.perform (.sync directory pages)).run session)
      ((perform (.sync directory pages)).run session) := by
  cases directory with
  | some failure => exact .error ⟨.inr ⟨failure, rfl, rfl⟩, h.flagged⟩
  | none =>
    cases pages with
    | some failure => exact .error ⟨.inr ⟨failure, rfl, rfl⟩, h.flagged⟩
    | none => exact .ok ⟨trivial, h⟩

theorem Calm.agrees_perform {call : Call} (hcall : call.IsAddressable) :
    Agrees id (fun reply session' => session.Admits call (.ok reply) ∧ session'.Calm)
      (fun cause session' => session.Admits call (.error cause) ∧ session'.Calm)
      ((Checked.perform call).run session) ((perform call).run session) := by
  have hwiden {checked : CheckedM Session Reply} {x : SessionM Reply}
      (hagrees : Agrees id (fun reply session' => session.Admits call (.ok reply) ∧ session'.Calm)
        (fun cause session' => cause.isExpected = true ∧ session'.Calm)
        (checked.run session) (x.run session)) :
      Agrees id (fun reply session' => session.Admits call (.ok reply) ∧ session'.Calm)
        (fun cause session' => session.Admits call (.error cause) ∧ session'.Calm)
        (checked.run session) (x.run session) :=
    hagrees.mono (fun _ _ hdone => hdone) fun _ _ hfailed => ⟨.inl hfailed.1, hfailed.2⟩
  have hends {α : Type} {f : α → Reply} {checked : CheckedM Session α} {x : SessionM α}
      (hf : ∀ a, session.Admits call (.ok (f a))) (hfares : Fares checked x session) :
      Agrees id (fun reply session' => session.Admits call (.ok reply) ∧ session'.Calm)
        (fun cause session' => session.Admits call (.error cause) ∧ session'.Calm)
        ((f <$> checked).run session) ((f <$> x).run session) :=
    hwiden (hfares.map fun a _ hcalm => ⟨hf a, hcalm⟩)
  cases call with
  | store pair mode => exact hends (fun _ => trivial) (Checked.fares_store h hcall.1 hcall.2 mode)
  | fetch key => exact hends (fun _ => trivial) (Checked.fares_fetch h key)
  | contains key => exact hends (fun _ => trivial) (Checked.fares_contains h key)
  | delete key => exact hends (fun _ => trivial) (Checked.fares_delete h key)
  | firstKey =>
    exact hwiden ((Checked.agrees_firstKey h).map fun _ _ hands => ⟨trivial, hands.calm⟩)
  | nextKey =>
    exact hwiden ((Checked.agrees_nextKey h).map fun _ _ hands => ⟨trivial, hands.calm⟩)
  | keys limit => exact hwiden ((h.fares_keys limit).map fun _ _ hdone => hdone)
  | countBits => exact hends (fun _ => trivial) h.fares_countBits
  | sync directory pages => exact h.agrees_sync directory pages
  | clearError => exact .ok ⟨trivial, h.setting false h.modest.near⟩

theorem Calm.step {call : Call} (hcall : call.IsAddressable) :
    Checked.step session call = .ok (session.step call) ∧
      session.Admits call (session.step call).1 ∧ (session.step call).2.Calm := by
  have hperform := h.agrees_perform hcall
  unfold Checked.step Session.step
  generalize (Checked.perform call).run session = result at hperform
  generalize (Session.perform call).run session = result' at hperform
  cases hperform with
  | ok done => exact ⟨rfl, done⟩
  | error failed => exact ⟨rfl, failed⟩

theorem Calm.run {calls : List Call} (hcalls : ∀ call ∈ calls, call.IsAddressable) :
    Checked.run session calls = .ok (session.run calls) ∧ (session.run calls).Calm := by
  induction calls generalizing session with
  | nil => exact ⟨rfl, h⟩
  | cons call calls ih =>
    obtain ⟨hstep, -, hcalm⟩ := h.step (hcalls call List.mem_cons_self)
    obtain ⟨hrun, hcalm'⟩ := ih hcalm fun call' hmem => hcalls call' (List.mem_cons_of_mem _ hmem)
    refine ⟨?_, hcalm'⟩
    unfold Checked.run at hrun ⊢
    rw [List.foldlM_cons, hstep]
    exact hrun

end Calm

theorem calm_onFiles {system : FileSystem} {config : Config} {inode inode' : Nat}
    {directory pages : SparseFile}
    (hdirectory : directory.size < lengthLimit) (hpages : pages.size < lengthLimit) :
    (onFiles system config inode inode' directory pages).Calm := by
  have hfaithful := faithful_onFiles system config inode inode' directory pages
  exact ⟨hfaithful, hfaithful.ready, hdirectory, hpages, Nat.zero_le _, Nat.zero_le _⟩

theorem checked_start (config : Config) {directory : OpenFile} (pages : OpenFile)
    (hlength : directory.length < lengthLimit) :
    Checked.start config directory pages = .ok (start config directory pages) := by
  have hbound : directory.length * 8 < 0x10000000000000000 := by
    change directory.length < 0x1000000000000000 at hlength
    omega
  unfold Checked.start
  rw [Checked.mul_eq hbound, Checked.ok_bind]
  unfold Session.start Directory.ofFile
  rw [Nat.mod_eq_of_lt hbound]
  rfl

/-- On files of any bytes, and after any calls, checking every step comes to the same as not
checking, and what comes out of a call is an answer or an expected failure. -/
theorem calls_never_fault (system : FileSystem) (config : Config) (inode inode' : Nat)
    {directory pages : SparseFile}
    (hdirectory : directory.size < lengthLimit) (hpages : pages.size < lengthLimit)
    {calls : List Call} (hcalls : ∀ call ∈ calls, call.IsAddressable) :
    (do
        let session ← Checked.start config (system.file inode config.access (.regular directory))
          (system.file inode' config.access (.regular pages))
        Checked.run session calls) =
        .ok ((onFiles system config inode inode' directory pages).run calls) ∧
      ∀ call : Call, call.IsAddressable →
        Checked.step ((onFiles system config inode inode' directory pages).run calls) call =
            .ok (((onFiles system config inode inode' directory pages).run calls).step call) ∧
          ((onFiles system config inode inode' directory pages).run calls).Admits call
            (((onFiles system config inode inode' directory pages).run calls).step call).1 := by
  have hcalm : (onFiles system config inode inode' directory pages).Calm :=
    calm_onFiles hdirectory hpages
  obtain ⟨hrun, hcalm'⟩ := hcalm.run hcalls
  refine ⟨?_, ?_⟩
  · have hstart := @checked_start config (system.file inode config.access (.regular directory))
      (system.file inode' config.access (.regular pages)) hdirectory
    rw [hstart, Checked.ok_bind]
    exact hrun
  · intro call hcall
    obtain ⟨hstep, hadmits, -⟩ := hcalm'.step hcall
    exact ⟨hstep, hadmits⟩

def strayDirectory : SparseFile := .ofBytes [2]

def brokenPages : SparseFile := .ofBytes [255, 255, 1]

theorem calls_never_fault_damaged :
    strayDirectory.size < lengthLimit ∧ brokenPages.size < lengthLimit ∧
      (do
        let session ← Checked.start {}
          (FileSystem.ofNumberedBlocks.file 1 .readWrite (.regular strayDirectory))
          (FileSystem.ofNumberedBlocks.file 2 .readWrite (.regular brokenPages))
        Checked.run session [.store ⟨[107], [118]⟩ .replace, .keys 5, .delete [107]]) =
        .ok ((onFiles .ofNumberedBlocks {} 1 2 strayDirectory brokenPages).run
          [.store ⟨[107], [118]⟩ .replace, .keys 5, .delete [107]]) ∧
      Checked.step ((onFiles .ofNumberedBlocks {} 1 2 strayDirectory brokenPages).run
          [.store ⟨[107], [118]⟩ .replace, .keys 5, .delete [107]]) .nextKey =
        .ok (((onFiles .ofNumberedBlocks {} 1 2 strayDirectory brokenPages).run
          [.store ⟨[107], [118]⟩ .replace, .keys 5, .delete [107]]).step .nextKey) := by
  have hdirectory : strayDirectory.size < lengthLimit := by decide
  have hpages : brokenPages.size < lengthLimit := by decide
  have hcalls : ∀ call ∈ [Call.store ⟨[107], [118]⟩ .replace, .keys 5, .delete [107]],
      call.IsAddressable := by
    simp [Call.IsAddressable]
  obtain ⟨hrun, hnext⟩ := calls_never_fault .ofNumberedBlocks {} 1 2 hdirectory hpages hcalls
  exact ⟨hdirectory, hpages, hrun, (hnext .nextKey trivial).1⟩

end Session

end PageTrie
