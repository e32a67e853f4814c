import PageTrie.Proofs.Host.Serving
import PageTrie.Proofs.Session.Start
import PageTrie.Proofs.Storage.Locking

/-! Opening a store in a slot. A fresh or truncated store starts empty; one that is opened
again, by the same base name, is granted its lock and holds what it held. -/
namespace PageTrie

namespace Config

theorem toList_directoryPath (config : Config) :
    config.directoryPath.toList = (config.path.toList ++ ['.', 'd', 'i']) ++ ['r'] := by
  simp [directoryPath]

theorem toList_pagePath (config : Config) :
    config.pagePath.toList = (config.path.toList ++ ['.', 'p', 'a']) ++ ['g'] := by
  simp [pagePath]

theorem paths_apart (config : Config) {volume volume' : Volume} {path path' : Path}
    (h : volume.Names config.directoryPath path) (h' : volume'.Names config.pagePath path') :
    path ≠ path' :=
  (h.endsIn config.toList_directoryPath (by decide) (by decide)).ne
    (h'.endsIn config.toList_pagePath (by decide) (by decide)) (by decide)

theorem inodes_apart (config : Config) {volume : Volume} (hproper : volume.Proper)
    {directory pages : Nat} (h : volume.Leads config.directoryPath directory)
    (h' : volume.Leads config.pagePath pages) : directory ≠ pages := by
  obtain ⟨path, hnames, hlookup⟩ := h.resolve_eq
  obtain ⟨path', hnames', hlookup'⟩ := h'.resolve_eq
  rintro rfl
  exact config.paths_apart hnames hnames' (hproper.path_eq _ _ _ hlookup hlookup')

end Config

namespace Volume

def emptied (volume : Volume) (file : OpenFile) : Volume :=
  volume.absorb ((volume.refresh file).resize 0)

theorem inode_resize (file : OpenFile) (size : Nat) : (file.resize size).inode = file.inode := by
  unfold OpenFile.resize
  split <;> rfl

section Emptied

variable {volume : Volume} {file : OpenFile} (hinode : file.inode < volume.inodes.length)
  (hregular : volume.isFolder file.inode = false)
include hinode hregular

theorem content_emptied :
    ∃ body, body.size = 0 ∧ ∀ inode, (volume.emptied file).content inode =
      if inode = file.inode then .regular body else volume.content inode := by
  have hcontent : ∃ body, volume.content file.inode = .regular body := by
    unfold isFolder at hregular
    cases hcontent : volume.content file.inode with
    | folder =>
      rw [hcontent] at hregular
      cases hregular
    | regular body => exact ⟨body, rfl⟩
  obtain ⟨body, hbody⟩ := hcontent
  have hresize : ((volume.refresh file).resize 0).content = .regular (body.resize 0) := by
    simp only [OpenFile.resize, refresh, hbody]
  refine ⟨body.resize 0, rfl, fun inode => ?_⟩
  rw [emptied, content_absorb (by rwa [inode_resize]), inode_resize, hresize]
  rfl

theorem isFolder_emptied (inode : Nat) :
    (volume.emptied file).isFolder inode = volume.isFolder inode := by
  obtain ⟨body, -, hcontent⟩ := content_emptied hinode hregular
  by_cases heq : inode = file.inode
  · rw [heq, hregular, isFolder, hcontent, if_pos rfl]
  · rw [isFolder, hcontent, if_neg heq, isFolder]

end Emptied

theorem length_emptied (volume : Volume) (file : OpenFile) :
    (volume.emptied file).inodes.length = volume.inodes.length := length_absorb _ _

end Volume

namespace Host

theorem run_openFile_ok {host : Host} {config : Config} {path : String} {volume : Volume}
    {file : OpenFile} (h : host.volume.openFile path config.access
      (if config.mode.creates then some config.permissions else none) = .ok (volume, file)) :
    (openFile path config).run host = .ok file { host with volume } := by
  rw [EStateM.run, openFile, h]

theorem run_openFile_error {host : Host} {config : Config} {path : String} {cause : IoError}
    (h : host.volume.openFile path config.access
      (if config.mode.creates then some config.permissions else none) = .error cause) :
    (openFile path config).run host = .error (.io cause) host := by
  rw [EStateM.run, openFile, h]

def candidate (host : Host) (pages : OpenFile) : Lockable := ⟨host.nextOwner, pages.inode, false⟩

theorem run_lock_ok {host : Host} {config : Config} {pages : OpenFile} {locks : LockTable}
    (h : (host.candidate pages).acquire config.lockKind config.pagePath host.locks =
      (.ok (), locks)) :
    (lock config pages).run host =
      .ok (host.candidate pages) { host with nextOwner := host.nextOwner + 1, locks } := by
  rw [EStateM.run, lock, ← candidate, h]

theorem run_lock_error {host : Host} {config : Config} {pages : OpenFile} {cause : StoreError}
    {locks : LockTable}
    (h : (host.candidate pages).acquire config.lockKind config.pagePath host.locks =
      (.error cause, locks)) :
    (lock config pages).run host =
      .error cause { host with nextOwner := host.nextOwner + 1, locks } := by
  rw [EStateM.run, lock, ← candidate, h]

def startVolume (config : Config) (volume : Volume) (directory pages : OpenFile) : Volume :=
  if config.mode = .truncate then (volume.emptied directory).emptied pages else volume

theorem startVolume_of_ne {config : Config} {volume : Volume} {directory pages : OpenFile}
    (hmode : config.mode ≠ .truncate) : startVolume config volume directory pages = volume :=
  if_neg hmode

/-- What an opening comes to once both files are open and the lock is granted. -/
structure Opens (host : Host) (config : Config) (volume : Volume) (directory pages : OpenFile)
    (locks : LockTable) : Prop where
  path_ne : config.path.isEmpty = false
  files : ∃ between,
    host.volume.openFile config.directoryPath config.access
      (if config.mode.creates then some config.permissions else none) =
        .ok (between, directory) ∧
    between.openFile config.pagePath config.access
      (if config.mode.creates then some config.permissions else none) = .ok (volume, pages)
  locked : (host.candidate pages).acquire config.lockKind config.pagePath host.locks =
    (.ok (), locks)

def openedHandle (host : Host) (config : Config) (volume : Volume) (directory pages : OpenFile) :
    Handle :=
  ⟨.start config ((startVolume config volume directory pages).refresh directory)
      ((startVolume config volume directory pages).refresh pages), host.candidate pages⟩

theorem Opens.run {host : Host} {config : Config} {volume : Volume} {directory pages : OpenFile}
    {locks : LockTable} (h : host.Opens config volume directory pages locks) :
    (openStore config).run host =
      .ok (host.openedHandle config volume directory pages)
        { host with
          volume := startVolume config volume directory pages
          locks
          nextOwner := host.nextOwner + 1 } := by
  obtain ⟨hpath, ⟨between, hdirectory, hpages⟩, hlock⟩ := h
  have hpages' : (openFile config.pagePath config).run { host with volume := between } =
      .ok pages { host with volume } := run_openFile_ok hpages
  have hlock' : (lock config pages).run { host with volume } =
      .ok (host.candidate pages) { host with volume, nextOwner := host.nextOwner + 1, locks } :=
    run_lock_ok hlock
  unfold openStore
  rw [hpath, if_neg Bool.false_ne_true]
  dsimp only
  rw [run_bind_ok (run_openFile_ok hdirectory), run_bind_ok hpages', run_bind_ok hlock']
  unfold openedHandle startVolume
  by_cases hmode : config.mode = .truncate
  · rw [if_pos hmode, if_pos hmode]
    rfl
  · rw [if_neg hmode, if_neg hmode]
    rfl

/-- How an opening comes to fail, and the host that it leaves. -/
inductive Fails (host : Host) (config : Config) : StoreError → Host → Prop
  | path (path_eq : config.path.isEmpty = true) :
      Fails host config (.invalidArgument "empty store name") host
  | directory {cause : IoError} (directory_eq :
        host.volume.openFile config.directoryPath config.access
          (if config.mode.creates then some config.permissions else none) = .error cause) :
      Fails host config (.io cause) host
  | pages {between : Volume} {directory : OpenFile} {cause : IoError}
      (directory_eq : host.volume.openFile config.directoryPath config.access
        (if config.mode.creates then some config.permissions else none) =
          .ok (between, directory))
      (pages_eq : between.openFile config.pagePath config.access
        (if config.mode.creates then some config.permissions else none) = .error cause) :
      Fails host config (.io cause) { host with volume := between }
  | lock {between volume : Volume} {directory pages : OpenFile} {cause : StoreError}
      {locks : LockTable}
      (directory_eq : host.volume.openFile config.directoryPath config.access
        (if config.mode.creates then some config.permissions else none) =
          .ok (between, directory))
      (pages_eq : between.openFile config.pagePath config.access
        (if config.mode.creates then some config.permissions else none) = .ok (volume, pages))
      (lock_eq : (host.candidate pages).acquire config.lockKind config.pagePath host.locks =
        (.error cause, locks)) :
      Fails host config cause { host with volume, locks, nextOwner := host.nextOwner + 1 }

theorem opens_or_fails (host : Host) (config : Config) :
    (∃ volume directory pages locks, host.Opens config volume directory pages locks) ∨
      ∃ cause host', (openStore config).run host = .error cause host' ∧
        host.Fails config cause host' := by
  unfold openStore
  cases hpath : config.path.isEmpty with
  | true =>
    rw [if_pos rfl]
    exact .inr ⟨_, _, rfl, .path hpath⟩
  | false =>
    rw [if_neg Bool.false_ne_true]
    dsimp only
    cases hdirectory : host.volume.openFile config.directoryPath config.access
        (if config.mode.creates then some config.permissions else none) with
    | error cause =>
      rw [run_bind_error (run_openFile_error hdirectory)]
      exact .inr ⟨_, _, rfl, .directory hdirectory⟩
    | ok found =>
      obtain ⟨between, directory⟩ := found
      rw [run_bind_ok (run_openFile_ok hdirectory)]
      cases hpages : between.openFile config.pagePath config.access
          (if config.mode.creates then some config.permissions else none) with
      | error cause =>
        have hfail : (openFile config.pagePath config).run { host with volume := between } =
            .error (.io cause) { host with volume := between } := run_openFile_error hpages
        rw [run_bind_error hfail]
        exact .inr ⟨_, _, rfl, .pages hdirectory hpages⟩
      | ok found' =>
        obtain ⟨volume, pages⟩ := found'
        have hpages' : (openFile config.pagePath config).run { host with volume := between } =
            .ok pages { host with volume } := run_openFile_ok hpages
        rw [run_bind_ok hpages']
        cases hlock : (host.candidate pages).acquire config.lockKind config.pagePath host.locks with
        | mk answer locks =>
          cases answer with
          | ok granted =>
            exact .inl ⟨volume, directory, pages, locks, hpath, ⟨between, hdirectory, hpages⟩,
              hlock⟩
          | error cause =>
            have hfail : (lock config pages).run { host with volume } =
                .error cause { host with volume, nextOwner := host.nextOwner + 1, locks } :=
              run_lock_error hlock
            rw [run_bind_error hfail]
            exact .inr ⟨_, _, rfl, .lock hdirectory hpages hlock⟩

theorem opens_of_run {host host' : Host} {config : Config} {handle : Handle}
    (h : (openStore config).run host = .ok handle host') :
    ∃ volume directory pages locks, host.Opens config volume directory pages locks := by
  obtain hopens | ⟨cause, host'', hrun, -⟩ := host.opens_or_fails config
  · exact hopens
  · rw [hrun] at h
    cases h

theorem fails_of_run {host host' : Host} {config : Config} {cause : StoreError}
    (h : (openStore config).run host = .error cause host') : host.Fails config cause host' := by
  obtain ⟨volume, directory, pages, locks, hopens⟩ | ⟨cause', host'', hrun, hfails⟩ :=
    host.opens_or_fails config
  · rw [hopens.run] at h
    cases h
  · rw [hrun] at h
    cases h
    exact hfails

section Opens

variable {host : Host} {config : Config} {volume : Volume} {directory pages : OpenFile}
  {locks : LockTable}

/-- Both files were found under their names in a volume where that makes them two. -/
structure Found (config : Config) (volume : Volume) (directory pages : OpenFile) : Prop where
  proper : volume.Proper
  directory_leads : volume.Leads config.directoryPath directory.inode
  pages_leads : volume.Leads config.pagePath pages.inode
  directory_regular : volume.isFolder directory.inode = false
  pages_regular : volume.isFolder pages.inode = false
  access : directory.access = config.access ∧ pages.access = config.access
  stops : directory.stop = none ∧ pages.stop = none

theorem Found.apart (h : Found config volume directory pages) :
    directory.inode ≠ pages.inode := config.inodes_apart h.proper h.directory_leads h.pages_leads

theorem Found.inode_lt (h : Found config volume directory pages) :
    directory.inode < volume.inodes.length ∧ pages.inode < volume.inodes.length :=
  ⟨h.directory_leads.inode_lt h.proper, h.pages_leads.inode_lt h.proper⟩

theorem Found.writable_access (h : Found config volume directory pages)
    (hwritable : config.isReadOnly = false) :
    directory.access = .readWrite ∧ pages.access = .readWrite := by
  have haccess : config.access = .readWrite := by
    rw [Config.isReadOnly, Bool.not_eq_false'] at hwritable
    rw [Config.access, if_pos hwritable]
  rw [h.access.1, h.access.2, haccess]
  exact ⟨rfl, rfl⟩

theorem Found.ample (h : Found config volume directory pages) (host : Host) :
    (host.openedHandle config volume directory pages).session.directory.file.IsAmple ∧
      (host.openedHandle config volume directory pages).session.pages.IsAmple :=
  ⟨⟨FileSystem.storeSpan_le _, h.stops.1⟩, ⟨FileSystem.storeSpan_le _, h.stops.2⟩⟩

theorem Found.isFolder_startVolume (h : Found config volume directory pages) (inode : Nat) :
    (startVolume config volume directory pages).isFolder inode = volume.isFolder inode := by
  obtain ⟨hlt, hlt'⟩ := h.inode_lt
  have hfirst := Volume.isFolder_emptied hlt h.directory_regular
  unfold startVolume
  split
  · rw [Volume.isFolder_emptied (by rwa [Volume.length_emptied]) (by rw [hfirst, h.pages_regular]),
      hfirst]
  · rfl

theorem entries_startVolume (config : Config) (volume : Volume) (directory pages : OpenFile) :
    (startVolume config volume directory pages).entries = volume.entries := by
  unfold startVolume
  split <;> rfl

theorem length_startVolume (config : Config) (volume : Volume) (directory pages : OpenFile) :
    (startVolume config volume directory pages).inodes.length = volume.inodes.length := by
  unfold startVolume
  split
  · rw [Volume.length_emptied, Volume.length_emptied]
  · rfl

def StartsBlank (config : Config) (volume : Volume) (directory pages : OpenFile) : Prop :=
  ∃ body body' : SparseFile, body.size = 0 ∧ body'.size = 0 ∧
    (startVolume config volume directory pages).content directory.inode = .regular body ∧
    (startVolume config volume directory pages).content pages.inode = .regular body'

theorem Found.startsBlank_truncated (h : Found config volume directory pages)
    (hmode : config.mode = .truncate) : StartsBlank config volume directory pages := by
  obtain ⟨hlt, hlt'⟩ := h.inode_lt
  have hfolder := Volume.isFolder_emptied hlt h.directory_regular pages.inode
  rw [h.pages_regular] at hfolder
  have hlength : pages.inode < (volume.emptied directory).inodes.length := by
    rwa [Volume.length_emptied]
  obtain ⟨body, hsize, hcontent⟩ := Volume.content_emptied hlt h.directory_regular
  obtain ⟨body', hsize', hcontent'⟩ := Volume.content_emptied hlength hfolder
  refine ⟨body, body', hsize, hsize', ?_, ?_⟩
  · rw [startVolume, if_pos hmode, hcontent', if_neg h.apart, hcontent, if_pos rfl]
  · rw [startVolume, if_pos hmode, hcontent', if_pos rfl]

theorem Found.serves (h : Found config volume directory pages) (hpath : config.path.isEmpty = false)
    (howner : ∀ grant ∈ host.locks, grant.owner < host.nextOwner)
    (hfree : host.locks.Free pages.inode)
    (hsound : (host.openedHandle config volume directory pages).session.Sound) (slot : Nat) :
    (Host.setSlot
      { host with
        volume := startVolume config volume directory pages
        locks := ⟨host.nextOwner, pages.inode, config.lockKind⟩ :: host.locks
        nextOwner := host.nextOwner + 1 } slot
      (host.openedHandle config volume directory pages)).Serves slot
        (host.openedHandle config volume directory pages).session where
  proper := by
    refine ⟨h.proper.congr (entries_startVolume _ _ _ _) (length_startVolume _ _ _ _), ?_⟩
    intro grant hgrant
    change grant.owner < host.nextOwner + 1
    obtain rfl | hheld := List.mem_cons.mp hgrant
    · exact Nat.lt_succ_self _
    · exact (howner grant hheld).trans (Nat.lt_succ_self _)
  handle := by
    refine ⟨_, handle?_setSlot _ _ _, rfl, ?_⟩
    intro grant hgrant hinode
    obtain rfl | hheld := List.mem_cons.mp hgrant
    · rfl
    · exact absurd hinode (hfree grant hheld)
  sound := hsound
  apart := h.apart
  directory_leads := h.directory_leads.congr (entries_startVolume _ _ _ _) h.isFolder_startVolume
  pages_leads := h.pages_leads.congr (entries_startVolume _ _ _ _) h.isFolder_startVolume
  path_ne := hpath

theorem StartsBlank.length_eq (h : StartsBlank config volume directory pages) (host : Host) :
    (host.openedHandle config volume directory pages).session.directory.file.length = 0 ∧
      (host.openedHandle config volume directory pages).session.pages.length = 0 := by
  obtain ⟨body, body', hsize, hsize', hcontent, hcontent'⟩ := h
  refine ⟨?_, ?_⟩
  · change ((startVolume config volume directory pages).refresh directory).length = 0
    rw [OpenFile.length, Volume.refresh, hcontent]
    exact hsize
  · change ((startVolume config volume directory pages).refresh pages).length = 0
    rw [OpenFile.length, Volume.refresh, hcontent']
    exact hsize'

theorem StartsBlank.sound (h : StartsBlank config volume directory pages)
    (hfound : Found config volume directory pages) (host : Host) :
    (host.openedHandle config volume directory pages).session.Sound ∧
      (host.openedHandle config volume directory pages).session.table = Table.empty := by
  obtain ⟨hlength, hlength'⟩ := h.length_eq host
  obtain ⟨body, body', -, -, hcontent, hcontent'⟩ := h
  exact Session.sound_start_of_empty ⟨body, hcontent⟩ ⟨body', hcontent'⟩ hlength hlength'
    (hfound.ample host) hfound.writable_access

end Opens

theorem openSlot_eq {host : Host} {slot : Nat} {config : Config} {volume : Volume}
    {directory pages : OpenFile} {locks : LockTable}
    (h : (host.closeSlot slot).2.Opens config volume directory pages locks) :
    host.openSlot slot config = (.ok (), Host.setSlot
      { (host.closeSlot slot).2 with
        volume := startVolume config volume directory pages
        locks
        nextOwner := (host.closeSlot slot).2.nextOwner + 1 } slot
      ((host.closeSlot slot).2.openedHandle config volume directory pages)) := by
  rw [openSlot, h.run]

theorem opens_of_openSlot {host : Host} {slot : Nat} {config : Config}
    (h : (host.openSlot slot config).1 = .ok ()) :
    ∃ volume directory pages locks,
      (host.closeSlot slot).2.Opens config volume directory pages locks := by
  cases hrun : (openStore config).run (host.closeSlot slot).2 with
  | ok handle host' => exact opens_of_run hrun
  | error cause host' =>
    rw [openSlot, hrun] at h
    cases h

theorem closeSlot_eq (host : Host) (slot : Nat) :
    (host.closeSlot slot).2.volume = host.volume ∧
      (host.closeSlot slot).2.nextOwner = host.nextOwner ∧
      ∀ grant ∈ (host.closeSlot slot).2.locks, grant ∈ host.locks := by
  unfold closeSlot
  split
  · refine ⟨rfl, rfl, ?_⟩
    intro grant hgrant
    exact List.mem_of_mem_filter hgrant
  · exact ⟨rfl, rfl, fun grant hgrant => hgrant⟩

end Host

end PageTrie
