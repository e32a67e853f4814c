import PageTrie.CommandLine.Run
import PageTrie.Proofs.Host.Reopening

/-! A run of the command line opens a store, makes one call and closes the store again. Between
two runs nobody has the store open, and its files are missing or as the last run left them. -/
namespace PageTrie

namespace Volume

structure Creatable (volume : Volume) (text : String) : Prop where
  lacks : volume.Lacks text
  opens : ∃ created, volume.openFile text .readWrite (some 0o644) = .ok created

variable {volume : Volume} {text : String}

theorem Creatable.names (h : volume.Creatable text) :
    (∃ path, volume.Names text path ∧ volume.lookup path = none) ∧
      ∀ components, Path.components text = .ok components →
        (Path.ending components).slash = false := by
  obtain ⟨⟨volume', file⟩, hopen⟩ := h.opens
  obtain ⟨hcreated, -, hplain⟩ := openFile_create hopen
  refine ⟨?_, hplain⟩
  generalize file.inode = inode at hcreated
  cases hcreated with
  | found names lookup_eq =>
    rw [h.lacks.lookup_eq_none names] at lookup_eq
    cases lookup_eq
  | made requested names lookup_eq => exact ⟨_, names, lookup_eq⟩

theorem Creatable.openFile_none (h : volume.Creatable text) (access : Access) :
    volume.openFile text access none = .error .notFound := by
  obtain ⟨⟨path, hnames, hlookup⟩, -⟩ := h.names
  unfold openFile
  rw [Option.isSome_none, if_neg Bool.false_ne_true, resolve_of_names hnames, place, hlookup]
  rfl

theorem openFile_some_of_names {path : Path} (hnames : volume.Names text path)
    (hlookup : volume.lookup path = none)
    (hplain : ∀ components, Path.components text = .ok components →
      (Path.ending components).slash = false) (access : Access) (requested : Nat) :
    ∃ created, volume.openFile text access (some requested) = .ok created := by
  have hnew : volume.resolveNew text = .ok ⟨path, none⟩ := by
    rw [resolveNew_of_plain hplain, resolve_of_names hnames, place, hlookup]
  unfold openFile
  rw [Option.isSome_some, if_pos rfl, hnew]
  exact ⟨_, rfl⟩

end Volume

namespace Host

/-- Nobody has a file open, and the two files of a store are still to be created. -/
structure Untouched (host : Host) (db : String) : Prop where
  volume : host.volume.Proper
  handles : host.handles = []
  locks : host.locks = []
  path_ne : db ≠ ""
  directory : host.volume.Creatable (db ++ ".dir")
  pages : host.volume.Creatable (db ++ ".pag")

variable {host : Host} {db : String}

theorem closeSlot_of_handles (hhandles : host.handles = []) (slot : Nat) :
    host.closeSlot slot = (false, host) := by
  rw [closeSlot, handle?, hhandles]
  rfl

theorem Untouched.fresh (h : host.Untouched db) {config : Config} (hpath : config.path = db)
    (hmode : config.mode = .create) : host.Fresh config where
  proper := by
    refine ⟨h.volume, ?_⟩
    rw [h.locks]
    intro grant hgrant
    cases hgrant
  start := by
    subst hpath
    exact .inl ⟨hmode, h.directory.lacks, h.pages.lacks⟩

theorem Untouched.openSlot_ok (h : host.Untouched db) {config : Config} (hpath : config.path = db)
    (hmode : config.mode = .create) (slot : Nat) : (host.openSlot slot config).1 = .ok () := by
  subst hpath
  have hcreates : config.mode.creates = true := by rw [hmode]; rfl
  obtain ⟨⟨path, hnames, hlookup⟩, hplain⟩ := h.directory.names
  obtain ⟨⟨path', hnames', hlookup'⟩, hplain'⟩ := h.pages.names
  obtain ⟨⟨between, directory⟩, hdirectory⟩ :=
    Volume.openFile_some_of_names hnames hlookup hplain config.access config.permissions
  obtain ⟨hcreated, -, -⟩ := Volume.openFile_create hdirectory
  have hlacks : between.Lacks config.pagePath :=
    hcreated.lacks_other h.volume h.pages.lacks fun _ _ hfirst hsecond =>
      (config.paths_apart hfirst hsecond).symm
  have hbetween : between.Names config.pagePath path' :=
    (hcreated.names_iff h.volume _ _).mpr hnames'
  obtain ⟨⟨volume, pages⟩, hpages⟩ := Volume.openFile_some_of_names hbetween
    (hlacks.lookup_eq_none hbetween) hplain' config.access config.permissions
  have hlock : (host.candidate pages).acquire config.lockKind config.pagePath host.locks =
      (.ok (), ⟨host.nextOwner, pages.inode, config.lockKind⟩ :: host.locks) := by
    apply Lockable.acquire_of_free rfl <;>
    · rw [h.locks]
      intro grant hgrant
      cases hgrant
  have hne : config.path.isEmpty = false := String.isEmpty_eq_false_iff.mpr h.path_ne
  have hopens : host.Opens config volume directory pages
      (⟨host.nextOwner, pages.inode, config.lockKind⟩ :: host.locks) := by
    refine ⟨hne, ⟨between, ?_, ?_⟩, hlock⟩
    · rw [if_pos hcreates]
      exact hdirectory
    · rw [if_pos hcreates]
      exact hpages
  have hclosed := closeSlot_of_handles h.handles slot
  rw [openSlot_eq (by rw [hclosed]; exact hopens)]

theorem Untouched.openStore_error (h : host.Untouched db) {config : Config}
    (hpath : config.path = db) (hmode : config.mode = .readOnly) :
    (openStore config).run host = .error (.io .notFound) host := by
  subst hpath
  have hne : config.path.isEmpty = false := String.isEmpty_eq_false_iff.mpr h.path_ne
  have hmissing : host.volume.openFile config.directoryPath config.access
      (if config.mode.creates then some config.permissions else none) = .error .notFound := by
    rw [hmode]
    exact h.directory.openFile_none _
  unfold openStore
  rw [hne, if_neg Bool.false_ne_true]
  dsimp only
  rw [run_bind_error (run_openFile_error hmissing)]

/-- Nobody has a file open, and the files of a store are as a session left them. -/
structure Resting (host : Host) (session : Session) : Prop where
  handles : host.handles = []
  closed : ∃ earlier slot, Serves earlier slot session ∧ (earlier.closeSlot slot).2 = host

theorem closeSlot_setSlot {slot : Nat} (hslot : ∀ entry ∈ host.handles, entry.1 = slot)
    (handle : Handle) : ((host.setSlot slot handle).closeSlot slot).2 =
      { release handle host with handles := [] } := by
  have hothers : (host.handles.filter fun entry => entry.1 != slot) = [] := by
    rw [List.filter_eq_nil_iff]
    intro entry hentry
    rw [hslot entry hentry, bne_self_eq_false]
    exact Bool.false_ne_true
  rw [closeSlot, handle?_setSlot]
  simp [clearSlot, setSlot, release, hothers]

theorem call_closeSlot (hhandles : host.handles = []) (slot : Nat) (handle : Handle)
    (call : Call) :
    ((host.setSlot slot handle).call slot call).1 = some ((host.refreshed handle).step call).1 ∧
      (((host.setSlot slot handle).call slot call).2.closeSlot slot).2 =
        release handle (host.absorbed ((host.refreshed handle).step call).2) := by
  rw [call_eq (handle?_setSlot _ _ _), closeSlot_setSlot]
  · refine ⟨rfl, ?_⟩
    change _ = { release handle (host.absorbed ((host.refreshed handle).step call).2) with
      handles := host.handles }
    rw [hhandles]
    rfl
  · intro entry hentry
    simp only [setSlot, clearSlot, hhandles, absorbed, List.filter_nil, List.mem_singleton]
      at hentry
    rw [hentry]

theorem Resting.openSlot {session : Session} (h : host.Resting session) {config : Config}
    (hpath : config.path = session.config.path) (hmode : config.mode ≠ .truncate) :
    ∃ slot, (host.openSlot slot config).1 = .ok () ∧
      ∃ session', (host.openSlot slot config).2.Serves slot session' ∧ session'.config = config ∧
        session'.table = session.table := by
  obtain ⟨hhandles, earlier, slot, hserves, rfl⟩ := h
  obtain ⟨hopened, session', hserves', hconfig, htable, -⟩ := hserves.reopen hpath
  have hsame : (earlier.closeSlot slot).2.openSlot slot config = earlier.openSlot slot config := by
    unfold Host.openSlot
    rw [closeSlot_of_handles hhandles]
  rw [if_neg hmode] at htable
  refine ⟨slot, ?_, session', ?_, hconfig, htable⟩
  · rw [hsame, hopened]
  · rw [hsame]
    exact hserves'

end Host

namespace CommandLine

def Command.call? : Command → Option Call
  | .get key => some (.fetch (LossyUtf8.encode key))
  | .put key value replace =>
    some (.store ⟨LossyUtf8.encode key, LossyUtf8.encode value⟩
      (if replace then .replace else .insert))
  | .del key => some (.delete (LossyUtf8.encode key))
  | _ => none

def Report.of : Except StoreError Reply → Report
  | .ok (.value (some value)) => success (line value)
  | .ok (.value none) | .ok (.found false) => miss "(not found)\n"
  | .ok (.status .exists) => miss "key exists (use --replace to overwrite)\n"
  | .ok _ => success ""
  | .error cause => failure "" cause.message

theorem reportOf_eq {call : SessionM α} {report : α → Report} {reply : α → Reply}
    (h : ∀ a, Report.of (.ok (reply a)) = report a) {request : Call} {session : Session}
    (hcall : Session.perform request = reply <$> call) :
    reportOf call report session =
      (Report.of (session.step request).1, (session.step request).2) := by
  unfold reportOf
  cases hrun : call.run session with
  | ok a session' => rw [Session.step_ok (hcall ▸ run_map_ok reply hrun), h]
  | error cause session' => rw [Session.step_error (hcall ▸ run_map_error reply hrun)]; rfl

theorem Command.perform_eq {command : Command} {call : Call} (h : command.call? = some call)
    (session : Session) : command.perform session =
      (Report.of (session.step call).1, (session.step call).2) := by
  cases command with
  | get key =>
    cases h
    exact reportOf_eq (fun value => by cases value <;> rfl) rfl
  | put key value replace =>
    cases h
    exact reportOf_eq (fun status => by cases status <;> rfl) rfl
  | del key =>
    cases h
    exact reportOf_eq (fun removed => by cases removed <;> rfl) rfl
  | keys | dump | stat => cases h

/-- Where a store can be opened, a run is its opening in a slot, one call and its closing. -/
theorem Invocation.run_eq {host : Host} (hhandles : host.handles = []) {invocation : Invocation}
    {call : Call} (hcall : invocation.command.call? = some call) {slot : Nat}
    (hopen : (host.openSlot slot invocation.config).1 = .ok ()) :
    ∃ answer, ((host.openSlot slot invocation.config).2.call slot call).1 = some answer ∧
      invocation.run host = (Report.of answer,
        (((host.openSlot slot invocation.config).2.call slot call).2.closeSlot slot).2) ∧
      (invocation.run host).2.handles = [] := by
  obtain ⟨volume, directory, pages, locks, hopens⟩ := Host.opens_of_openSlot hopen
  rw [Host.openSlot_eq hopens, Invocation.run]
  rw [Host.closeSlot_of_handles hhandles] at hopens ⊢
  rw [hopens.run]
  dsimp only
  obtain ⟨hanswer, hclosed⟩ := @Host.call_closeSlot
    { host with
      volume := Host.startVolume invocation.config volume directory pages
      locks
      nextOwner := host.nextOwner + 1 }
    hhandles slot (host.openedHandle invocation.config volume directory pages) call
  rw [invocation.command.perform_eq hcall, hclosed]
  exact ⟨_, hanswer, rfl, hhandles⟩

end CommandLine

end PageTrie
