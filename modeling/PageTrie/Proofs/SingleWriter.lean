import PageTrie.Proofs.Host.Joining
import PageTrie.Proofs.Structure

/-! Any number of handles on one store, opened, used and closed in any order. One that may write
is alone, an opening that would break this is refused and does no harm, and no handle ever
answers a lookup from memory that the files have outrun. -/
namespace PageTrie

/-- Calls that change no pair, and that ask for a next key only once a scan was started. -/
def Call.areLookups (started : Bool) : List Call → Bool
  | [] => true
  | call :: calls =>
    !call.isChange && (started || decide (call ≠ .nextKey)) &&
      areLookups (started || decide (call = .firstKey)) calls

namespace Session

def answers (session : Session) : List Call → List (Except StoreError Reply)
  | [] => []
  | call :: calls => (session.step call).1 :: (session.step call).2.answers calls

theorem Abreast.answers {session other : Session} (h : session.Abreast other) {started : Bool}
    {calls : List Call} (hcalls : Call.areLookups started calls = true)
    (hscan : started = true → session.scan = other.scan) :
    session.answers calls = other.answers calls := by
  induction calls generalizing session other started with
  | nil => rfl
  | cons call calls ih =>
    simp only [Call.areLookups, Bool.and_eq_true, Bool.or_eq_true, Bool.not_eq_true',
      decide_eq_true_eq] at hcalls
    obtain ⟨⟨hlooks, hnext⟩, hcalls⟩ := hcalls
    have hstep := h.step hlooks fun hcall => hscan (hnext.resolve_right fun hne => hne hcall)
    have hscan' : (started || decide (call = .firstKey)) = true →
        (session.step call).2.scan = (other.step call).2.scan := by
      rw [Bool.or_eq_true, decide_eq_true_eq]
      rintro (hstarted | rfl)
      · exact hstep.2.scan_eq (hscan hstarted)
      · exact h.scan_firstKey
    rw [Session.answers, Session.answers, hstep.1, ih hstep.2.abreast hcalls hscan']

end Session

namespace Volume

/-- The directory that is found under a store's name, if any, has no more bits than 64 bits can
count. -/
def Counted (volume : Volume) (path : String) : Prop :=
  ∀ inode body, volume.Leads (path ++ ".dir") inode → volume.content inode = .regular body →
    body.size * 8 < counterRange

section Counted

variable {volume volume' : Volume} {config : Config}

theorem counted_of_lacks (hlacks : volume.Lacks config.directoryPath) :
    volume.Counted config.path := by
  rintro inode body ⟨⟨path, hnames, hlookup⟩, -⟩
  cases hlookup.symm.trans (hlacks.lookup_eq_none hnames)

theorem counted_of_leads {inode : Nat} {body : SparseFile}
    (hleads : volume.Leads config.directoryPath inode)
    (hbody : volume.content inode = .regular body) (hsize : body.size * 8 < counterRange) :
    volume.Counted config.path := by
  intro inode' body' hleads' hbody'
  rw [hleads'.unique hleads, hbody] at hbody'
  cases hbody'
  exact hsize

theorem Counted.created_directory (h : volume.Counted config.path) (hproper : volume.Proper)
    {inode : Nat} (hcreated : volume.Created config.directoryPath volume' inode) :
    volume'.Counted config.path := by
  have hleads := hcreated.leads hproper (plain_directoryPath config)
  cases hcreated with
  | found => exact h
  | made =>
    have hempty : SparseFile.empty.size * 8 < counterRange := by decide
    exact counted_of_leads hleads (by simp [content, Volume.add]) hempty

theorem Counted.created_pages (h : volume.Counted config.path) (hproper : volume.Proper)
    {inode : Nat} (hcreated : volume.Created config.pagePath volume' inode) :
    volume'.Counted config.path := by
  intro inode' body hleads hbody
  have hleads' := hcreated.leads_of_other hproper
    (fun _ _ hnames hnames' => config.paths_apart hnames' hnames) hleads
  rw [hcreated.content_eq (hleads'.inode_lt hproper)] at hbody
  exact h inode' body hleads' hbody

end Counted

end Volume

namespace Host

def answers (host : Host) (slot : Nat) : List Call → List (Option (Except StoreError Reply))
  | [] => []
  | call :: calls => (host.call slot call).1 :: (host.call slot call).2.answers slot calls

/-- Hosts that a host comes to when handles on one store are opened, used and closed. -/
inductive Interleaved (path : String) (start : Host) : Host → Prop
  | begun (stores : start.volume.Stores path) (handles_eq : start.handles = [])
      (locks_eq : start.locks = []) : Interleaved path start start
  | opened {host : Host} (before : Interleaved path start host) (slot : Nat) (config : Config)
      (path_eq : config.path = path) (lock_eq : config.lock = .fail) :
      Interleaved path start (host.openSlot slot config).2
  | closed {host : Host} (before : Interleaved path start host) (slot : Nat) :
      Interleaved path start (host.closeSlot slot).2
  | called {host : Host} (before : Interleaved path start host) (slot : Nat) (call : Call) :
      Interleaved path start (host.call slot call).2

/-- A handle answers lookups as one that was just opened, from where its own scan stands. -/
structure Current (host : Host) (slot : Nat) (handle fresh : Handle) : Prop where
  answers_eq : ∀ calls, Call.areLookups false calls = true →
    host.answers slot calls = (fresh.session.answers calls).map some
  resumed_eq : ∀ calls, Call.areLookups true calls = true →
    host.answers slot calls =
      ((fresh.session.scanning handle.session.scan).answers calls).map some

section

variable {start host host' : Host} {path : String} {handle handle' : Handle} {slot : Nat}

theorem orderly_start (hstores : host.volume.Stores path) (hhandles : host.handles = [])
    (hlocks : host.locks = []) : host.Orderly path := by
  have hnone (slot : Nat) : host.handle? slot = none := by
    rw [handle?, hhandles]
    rfl
  refine ⟨hstores, ?_, ?_, ?_, ?_, ?_⟩
  · simp [hlocks]
  · simp [hnone]
  · simp [hlocks]
  · simp [hnone]
  · simp [hnone]

theorem Interleaved.orderly (h : Interleaved path start host) : host.Orderly path := by
  induction h with
  | begun stores handles_eq locks_eq => exact orderly_start stores handles_eq locks_eq
  | opened before slot config path_eq lock_eq ih =>
    subst path_eq
    exact ih.openSlot slot
  | closed before slot ih => exact ih.closeSlot slot
  | called before slot call ih => exact ih.call slot call

section Counted

variable {config : Config} {volume : Volume} {directory pages : OpenFile} {locks : LockTable}

theorem Opens.counted (h : host.Opens config volume directory pages locks)
    (hstores : host.volume.Stores config.path) (hcounted : host.volume.Counted config.path) :
    (startVolume config volume directory pages).Counted config.path := by
  obtain ⟨-, hfound, hleads⟩ := h.found hstores
  by_cases hmode : config.mode = .truncate
  · obtain ⟨body, -, hsize, -, hbody, -⟩ := hleads.startsBlank_truncated hmode
    have hstays := hleads.directory_leads.congr
      (entries_startVolume config volume directory pages) hleads.isFolder_startVolume
    exact Volume.counted_of_leads hstays hbody (by rw [hsize]; decide)
  · obtain ⟨between, hdirectory, hpages⟩ := h.files
    obtain ⟨hfirst, -, -, hbetween⟩ := opened_directory hstores hdirectory
    rw [startVolume_of_ne hmode]
    exact (hcounted.created_directory hstores.proper hfirst).created_pages hbetween.proper
      (opened_pages hbetween hpages).1

theorem Fails.counted {cause : StoreError} (h : host.Fails config cause host')
    (hstores : host.volume.Stores config.path) (hcounted : host.volume.Counted config.path) :
    host'.volume.Counted config.path := by
  cases h with
  | path | directory => exact hcounted
  | pages directory_eq pages_eq =>
    exact hcounted.created_directory hstores.proper (opened_directory hstores directory_eq).1
  | lock directory_eq pages_eq lock_eq =>
    obtain ⟨hfirst, -, -, hbetween⟩ := opened_directory hstores directory_eq
    exact (hcounted.created_directory hstores.proper hfirst).created_pages hbetween.proper
      (opened_pages hbetween pages_eq).1

theorem counted_openSlot (hstores : host.volume.Stores config.path)
    (hcounted : host.volume.Counted config.path) (slot : Nat) :
    (host.openSlot slot config).2.volume.Counted config.path := by
  rw [← (host.closeSlot_eq slot).1] at hstores hcounted
  obtain ⟨volume, directory, pages, locks, hopens⟩ | ⟨cause, host', hrun, hfails⟩ :=
    (host.closeSlot slot).2.opens_or_fails config
  · rw [openSlot_eq hopens]
    exact hopens.counted hstores hcounted
  · rw [Host.openSlot, hrun]
    exact hfails.counted hstores hcounted

theorem Orderly.counted_call (h : host.Orderly path) (hcounted : host.volume.Counted path)
    (slot : Nat) (call : Call) : (host.call slot call).2.volume.Counted path := by
  cases hhandle : host.handle? slot with
  | none =>
    rw [Host.call, hhandle]
    exact hcounted
  | some handle =>
    have hlive := h.live slot handle hhandle
    have hleft := hlive.left h.stores call
    obtain ⟨body, hbody⟩ := h.stores.directory _ hlive.directory_leads
    have hbefore : (host.refreshed handle).directory.file.length * 8 < counterRange := by
      change OpenFile.length (host.volume.refresh handle.session.directory.file) * 8 < _
      rw [OpenFile.length, Volume.refresh, hbody]
      exact hcounted _ body hlive.directory_leads hbody
    have hafter := hleft.evolves.counted hbefore
    rw [call_eq hhandle]
    intro inode body' hleads hbody'
    have hinode := ((hleft.leads_iff _ _).mp hleads).unique hlive.directory_leads
    rw [hinode] at hbody'
    rw [OpenFile.length, ← hleft.content_eq.1] at hafter
    change (host.absorbed _).volume.content _ = _ at hbody'
    rw [hbody'] at hafter
    exact hafter

end Counted

theorem Interleaved.counted (h : Interleaved path start host)
    (hstart : start.volume.Counted path) : host.volume.Counted path := by
  induction h with
  | begun => exact hstart
  | opened before slot config path_eq lock_eq ih =>
    subst path_eq
    exact counted_openSlot before.orderly.stores ih slot
  | @closed host before slot ih =>
    rw [(host.closeSlot_eq slot).1]
    exact ih
  | called before slot call ih => exact before.orderly.counted_call ih slot call

theorem Live.abreast (h : host.Live path handle) (h' : host'.Live path handle')
    (hvolume : host'.volume = host.volume)
    (hlength : (host.refreshed handle).directory.file.length * 8 < counterRange) :
    (host.refreshed handle).Abreast (host'.refreshed handle') := by
  have hleads := h'.directory_leads
  have hleads' := h'.pages_leads
  rw [hvolume] at hleads hleads'
  have hdirectory : (host'.refreshed handle').directory.file.content =
      (host.refreshed handle).directory.file.content := by
    change host'.volume.content handle'.session.directory.file.inode =
      host.volume.content handle.session.directory.file.inode
    rw [hvolume, hleads.unique h.directory_leads]
  have hpages : (host'.refreshed handle').pages.content =
      (host.refreshed handle).pages.content := by
    change host'.volume.content handle'.session.pages.inode =
      host.volume.content handle.session.pages.inode
    rw [hvolume, hleads'.unique h.pages_leads]
  have hlength' : (host'.refreshed handle').directory.file.length * 8 < counterRange := by
    rwa [OpenFile.length_congr hdirectory]
  have hsystem : host.volume.system.limit = host'.volume.system.limit := by rw [hvolume]
  refine ⟨h.faithful, h'.faithful, ?_, hdirectory.symm, hpages.symm, hsystem, hsystem⟩
  rw [(h.bounded hlength).sees_eq, (h'.bounded hlength').sees_eq, OpenFile.bit_congr hdirectory]

theorem Live.answers (h : host.Live path handle) (hstores : host.volume.Stores path)
    (hhandle : host.handle? slot = some handle) (calls : List Call) :
    host.answers slot calls = ((host.refreshed handle).answers calls).map some := by
  induction calls generalizing host handle with
  | nil => rfl
  | cons call calls ih =>
    have hleft := h.left hstores call
    have hrefreshed := hleft.refreshed_eq
    have hrest := ih ((hleft.live h).setSlot slot _) (hleft.stores h hstores)
      (handle?_setSlot _ slot _)
    rw [Host.answers, call_eq hhandle, hrest]
    change _ :: List.map some (((host.absorbed _).refreshed _).answers calls) = _
    rw [hrefreshed]
    rfl

theorem Live.current (h : host.Live path handle) (hstores : host.volume.Stores path)
    (hhandle : host.handle? slot = some handle)
    (habreast : (host.refreshed handle).Abreast handle'.session) :
    host.Current slot handle handle' := by
  constructor
  · intro calls hcalls
    rw [h.answers hstores hhandle, habreast.answers hcalls Bool.noConfusion]
  · intro calls hcalls
    have hscanning := (habreast.refl_looked.scanning handle.session.scan).abreast
    have hsame : (host.refreshed handle).scanning handle.session.scan = host.refreshed handle := rfl
    rw [h.answers hstores hhandle, ← hscanning.answers hcalls fun _ => rfl, hsame]

/-- Were it not for the locks, a handle could be opened beside any other, and would be live. -/
theorem Live.openStore_unlocked {config : Config} (h : host.Live config.path handle)
    (hstores : host.volume.Stores config.path) (hmode : config.mode ≠ .truncate) :
    ∃ fresh joined, (openStore config).run { host with locks := [] } = .ok fresh joined ∧
      joined.volume = host.volume ∧ joined.Live config.path fresh ∧
      joined.refreshed fresh = fresh.session := by
  have hopens : Opens { host with locks := [] } config host.volume
      (host.volume.file handle.session.directory.file.inode config.access)
      (host.volume.file handle.session.pages.inode config.access)
      [⟨host.nextOwner, handle.session.pages.inode, config.lockKind⟩] := by
    refine ⟨h.path_ne, ⟨host.volume, h.openFile_directory hstores _, h.openFile_pages hstores _⟩,
      Lockable.acquire_of_free rfl ?_ ?_ _⟩
    · simp
    · simp [LockTable.Free]
  obtain ⟨-, -, hfound⟩ := hopens.found hstores
  exact ⟨_, _, hopens.run, startVolume_of_ne hmode,
    hfound.live hstores h.path_ne rfl List.mem_cons_self, rfl⟩

end

/-- However handles are opened, used and closed: a handle that may write is the only one; an
opening is refused for its lock just when a live handle is in its way, and then nothing but the
count of open files has changed; and a live handle answers lookups, and goes on with a scan, as
one that was opened just now would, were there no locks. For the last, the directory that was
there at the start, if there was one, must have had its bits countable in 64 bits. -/
theorem single_writer {path : String} {start host : Host} (h : Interleaved path start host) :
    (∀ slot handle, host.handle? slot = some handle →
      handle.session.config.isReadOnly = false →
      ∀ slot' handle', host.handle? slot' = some handle' → slot' = slot) ∧
    (∀ config : Config, config.path = path → config.lock = .fail →
      (host.Conflicts config → (openStore config).run host =
        .error (.locked config.pagePath) { host with nextOwner := host.nextOwner + 1 }) ∧
      (¬ host.Conflicts config → ∀ text host', (openStore config).run host ≠
        .error (.locked text) host')) ∧
    (start.volume.Counted path → ∀ slot handle, host.handle? slot = some handle →
      ∀ config : Config, config.path = path → config.mode ≠ .truncate →
      ∃ fresh host', (openStore config).run { host with locks := [] } = .ok fresh host' ∧
        host'.volume = host.volume ∧ host.Current slot handle fresh) := by
  have horderly := h.orderly
  refine ⟨?_, ?_, ?_⟩
  · intro slot handle hhandle hwritable slot' handle' hhandle'
    by_contra hne
    have hreadOnly := horderly.shared slot slot' handle handle' hhandle hhandle' (Ne.symm hne)
    rw [hreadOnly] at hwritable
    cases hwritable
  · rintro config rfl -
    exact ⟨horderly.run_openStore_of_conflicts, horderly.run_openStore_ne_locked⟩
  · rintro hstart slot handle hhandle config rfl hmode
    have hcounted := h.counted hstart
    have hlive := horderly.live slot handle hhandle
    obtain ⟨fresh, host', hrun, hvolume, hfresh, hsession⟩ :=
      hlive.openStore_unlocked horderly.stores hmode
    refine ⟨fresh, host', hrun, hvolume, hlive.current horderly.stores hhandle ?_⟩
    rw [← hsession]
    apply hlive.abreast hfresh hvolume
    obtain ⟨body, hbody⟩ := horderly.stores.directory _ hlive.directory_leads
    change OpenFile.length (host.volume.refresh handle.session.directory.file) * 8 < _
    rw [OpenFile.length, Volume.refresh, hbody]
    exact hcounted _ body hlive.directory_leads hbody

def alone : Host := ((Host.empty .ofNumberedBlocks).openSlot 0 { path := "t", lock := .fail }).2

theorem lacks_directory_empty (system : FileSystem) (config : Config) :
    (Volume.empty system).Lacks config.directoryPath :=
  Volume.lacks_empty config.toList_directoryPath (by decide) (by decide)

theorem interleaved_alone : Interleaved "t" (Host.empty .ofNumberedBlocks) alone := by
  have hstores : (Volume.empty .ofNumberedBlocks).Stores ({ path := "t" } : Config).path :=
    Volume.stores_of_lacks (Volume.proper_empty _) (lacks_directory_empty _ _)
      (Volume.lacks_empty (Config.toList_pagePath _) (by decide) (by decide))
  have hstart : Interleaved "t" (Host.empty .ofNumberedBlocks) (Host.empty .ofNumberedBlocks) :=
    .begun hstores rfl rfl
  exact hstart.opened 0 _ rfl rfl

theorem single_writer_alone :
    (openStore { path := "t", mode := .truncate, lock := .fail }).run alone =
      .error (.locked "t.pag") { alone with nextOwner := alone.nextOwner + 1 } ∧
    ∃ handle, alone.handle? 0 = some handle ∧
      (∀ slot handle', alone.handle? slot = some handle' → slot = 0) ∧
      ∃ fresh host', (openStore { path := "t", mode := .readOnly }).run { alone with locks := [] } =
          .ok fresh host' ∧ host'.volume = alone.volume ∧ alone.Current 0 handle fresh := by
  have hhandle : alone.handle? 0 = some _ := rfl
  obtain ⟨halone, hlocked, hcurrent⟩ := single_writer interleaved_alone
  refine ⟨(hlocked { path := "t", mode := .truncate, lock := .fail } rfl rfl).1
    ⟨0, _, hhandle, .inr rfl⟩, _, hhandle, halone 0 _ hhandle rfl, ?_⟩
  have hcounted : (Volume.empty .ofNumberedBlocks).Counted ({ path := "t" } : Config).path :=
    Volume.counted_of_lacks (lacks_directory_empty _ _)
  exact hcurrent hcounted 0 _ hhandle { path := "t", mode := .readOnly } rfl (by decide)

end Host

end PageTrie
