import PageTrie.Proofs.Host.Sharing

/-! Opening a store beside the handles that it has. The files are opened before the lock is
asked for and emptied only after, so a handle that is refused has touched nothing that a live
one can see. -/
namespace PageTrie

theorem Config.conflicts_lockKind_iff (config other : Config) :
    config.lockKind.conflicts other.lockKind = true ↔
      other.isReadOnly = false ∨ config.isReadOnly = false := by
  unfold lockKind isReadOnly
  cases config.mode.isWritable <;> cases other.mode.isWritable <;> simp [LockKind.conflicts]

namespace Host

/-- A live handle whose lock stands in the way of opening with a configuration. -/
def Conflicts (host : Host) (config : Config) : Prop :=
  ∃ slot handle, host.handle? slot = some handle ∧
    (handle.session.config.isReadOnly = false ∨ config.isReadOnly = false)

section

variable {host : Host} {config : Config} {volume : Volume} {directory pages : OpenFile}
  {locks : LockTable}

theorem opened_directory (hstores : host.volume.Stores config.path) {between : Volume}
    {create : Option Nat}
    (h : host.volume.openFile config.directoryPath config.access create =
      .ok (between, directory)) :
    host.volume.Created config.directoryPath between directory.inode ∧
      directory = between.file directory.inode config.access ∧
      host.volume.Extends between ∧ between.Stores config.path := by
  have hcreated := Volume.openFile_created (Volume.plain_directoryPath config)
    (fun inode hleads => by
      obtain ⟨body, hbody⟩ := hstores.directory inode hleads
      exact Volume.isFolder_of_regular hbody) h
  exact ⟨hcreated.1, hcreated.2, hcreated.1.extends hstores.proper,
    hstores.created_directory hcreated.1⟩

theorem opened_pages {between : Volume} (hstores : between.Stores config.path)
    {create : Option Nat}
    (h : between.openFile config.pagePath config.access create = .ok (volume, pages)) :
    between.Created config.pagePath volume pages.inode ∧
      pages = volume.file pages.inode config.access ∧
      between.Extends volume ∧ volume.Stores config.path := by
  have hcreated := Volume.openFile_created (Volume.plain_pagePath config)
    (fun inode hleads => by
      obtain ⟨body, hbody⟩ := hstores.pages inode hleads
      exact Volume.isFolder_of_regular hbody) h
  exact ⟨hcreated.1, hcreated.2, hcreated.1.extends hstores.proper,
    hstores.created_pages hcreated.1⟩

theorem Opens.found (h : host.Opens config volume directory pages locks)
    (hstores : host.volume.Stores config.path) :
    host.volume.Extends volume ∧ volume.Stores config.path ∧
      Found config volume directory pages := by
  obtain ⟨between, hdirectory, hpages⟩ := h.files
  obtain ⟨hfirst, hfile, hextends, hbetween⟩ := opened_directory hstores hdirectory
  obtain ⟨hsecond, hfile', hextends', hvolume⟩ := opened_pages hbetween hpages
  have hleads := hextends'.leads _ _ (hfirst.leads hstores.proper (Volume.plain_directoryPath _))
  refine ⟨hextends.trans hextends', hvolume, hvolume.proper, hleads,
    hsecond.leads hbetween.proper (Volume.plain_pagePath _), ?_, hsecond.regular, ?_, ?_⟩
  · obtain ⟨body, hbody⟩ := hvolume.directory _ hleads
    exact Volume.isFolder_of_regular hbody
  · rw [hfile, hfile']
    exact ⟨rfl, rfl⟩
  · rw [hfile, hfile']
    exact ⟨rfl, rfl⟩

theorem acquire_candidate (howner : ∀ grant ∈ host.locks, grant.owner < host.nextOwner)
    (pages : OpenFile) (config : Config) :
    (host.candidate pages).acquire config.lockKind config.pagePath host.locks =
      if host.locks.isBlocked ⟨host.nextOwner, pages.inode, config.lockKind⟩ = true then
        (.error (.locked config.pagePath), host.locks)
      else (.ok (), ⟨host.nextOwner, pages.inode, config.lockKind⟩ :: host.locks) :=
  Lockable.acquire_eq rfl (fun grant hgrant => Nat.ne_of_lt (howner grant hgrant)) _

theorem Fails.extends {host' : Host} {cause : StoreError}
    (h : host.Fails config cause host') (hstores : host.volume.Stores config.path)
    (howner : ∀ grant ∈ host.locks, grant.owner < host.nextOwner) :
    ∃ volume nextOwner, host' = { host with volume, nextOwner } ∧ host.nextOwner ≤ nextOwner ∧
      host.volume.Extends volume ∧ volume.Stores config.path := by
  cases h with
  | path | directory => exact ⟨host.volume, host.nextOwner, rfl, Nat.le_refl _, .refl _, hstores⟩
  | pages directory_eq pages_eq =>
    obtain ⟨-, -, hextends, hbetween⟩ := opened_directory hstores directory_eq
    exact ⟨_, host.nextOwner, rfl, Nat.le_refl _, hextends, hbetween⟩
  | lock directory_eq pages_eq lock_eq =>
    obtain ⟨-, -, hextends, hbetween⟩ := opened_directory hstores directory_eq
    obtain ⟨-, -, hextends', hvolume⟩ := opened_pages hbetween pages_eq
    rw [acquire_candidate howner] at lock_eq
    split at lock_eq
    · cases lock_eq
      exact ⟨_, host.nextOwner + 1, rfl, Nat.le_succ _, hextends.trans hextends', hvolume⟩
    · cases lock_eq

theorem readOnly_of_not_conflicts (h : ¬ host.Conflicts config) {slot : Nat} {handle : Handle}
    (hopen : host.handle? slot = some handle) :
    handle.session.config.isReadOnly = true ∧ config.isReadOnly = true := by
  have hboth := fun hmode => h ⟨slot, handle, hopen, hmode⟩
  simpa using hboth

theorem Orderly.isBlocked_iff (h : host.Orderly config.path)
    (hextends : host.volume.Extends volume) (hleads : volume.Leads config.pagePath pages.inode) :
    host.locks.isBlocked ⟨host.nextOwner, pages.inode, config.lockKind⟩ = true ↔
      host.Conflicts config := by
  rw [LockTable.isBlocked_eq_true_iff]
  constructor
  · rintro ⟨held, hheld, -, -, hkind⟩
    obtain ⟨slot, handle, hhandle, rfl⟩ := h.owned held hheld
    exact ⟨slot, handle, hhandle, (Config.conflicts_lockKind_iff _ _).mp hkind⟩
  · rintro ⟨slot, handle, hhandle, hmode⟩
    have hlive := h.live slot handle hhandle
    refine ⟨handle.grant, hlive.granted, ?_, ?_, (Config.conflicts_lockKind_iff _ _).mpr hmode⟩
    · exact (hextends.leads _ _ hlive.pages_leads).unique hleads
    · exact Nat.ne_of_lt (h.owner_lt _ hlive.granted)

theorem Orderly.joins (h : host.Orderly config.path)
    (hopens : host.Opens config volume directory pages locks) :
    ¬ host.Conflicts config ∧
      locks = ⟨host.nextOwner, pages.inode, config.lockKind⟩ :: host.locks := by
  obtain ⟨hextends, -, hfound⟩ := hopens.found h.stores
  have hlocked := hopens.locked
  rw [acquire_candidate h.owner_lt] at hlocked
  split at hlocked
  · cases hlocked
  · next hblocked =>
    cases hlocked
    rw [h.isBlocked_iff hextends hfound.pages_leads] at hblocked
    exact ⟨hblocked, rfl⟩

theorem startVolume_of_readOnly (hreadOnly : config.isReadOnly = true) :
    startVolume config volume directory pages = volume := by
  apply startVolume_of_ne
  intro hmode
  rw [Config.isReadOnly, hmode] at hreadOnly
  cases hreadOnly

section Found

variable (h : Found config volume directory pages) (hstores : volume.Stores config.path)
include h hstores

theorem Found.regular_startVolume :
    (∃ body, (startVolume config volume directory pages).content directory.inode =
        .regular body) ∧
      ∃ body, (startVolume config volume directory pages).content pages.inode =
        .regular body := by
  by_cases hmode : config.mode = .truncate
  · obtain ⟨body, body', -, -, hbody, hbody'⟩ := h.startsBlank_truncated hmode
    exact ⟨⟨body, hbody⟩, ⟨body', hbody'⟩⟩
  · rw [startVolume_of_ne hmode]
    exact ⟨hstores.directory _ h.directory_leads, hstores.pages _ h.pages_leads⟩

theorem Found.stores_startVolume :
    (startVolume config volume directory pages).Stores config.path := by
  obtain ⟨hdirectory, hpages⟩ := h.regular_startVolume hstores
  refine ⟨hstores.proper.congr (entries_startVolume _ _ _ _) (length_startVolume _ _ _ _), ?_, ?_⟩
  · intro inode hleads
    have hleads' := hleads.congr (entries_startVolume _ _ _ _).symm
      fun inode => (h.isFolder_startVolume inode).symm
    rwa [hleads'.unique h.directory_leads]
  · intro inode hleads
    have hleads' := hleads.congr (entries_startVolume _ _ _ _).symm
      fun inode => (h.isFolder_startVolume inode).symm
    rwa [hleads'.unique h.pages_leads]

/-- A handle that was just opened has nothing in memory but what its files show. -/
theorem Found.live (hpath : config.path.isEmpty = false) {joined : Host}
    (hvolume : joined.volume = startVolume config volume directory pages)
    (hgranted : ⟨host.nextOwner, pages.inode, config.lockKind⟩ ∈ joined.locks) :
    joined.Live config.path (host.openedHandle config volume directory pages) := by
  obtain ⟨hdirectory, hpages⟩ := h.regular_startVolume hstores
  have hrefreshed : joined.refreshed (host.openedHandle config volume directory pages) =
      (host.openedHandle config volume directory pages).session := by
    unfold refreshed
    rw [hvolume]
    rfl
  refine ⟨rfl, hpath, ?_, ?_, ?_, ?_, hgranted⟩
  · rw [hvolume]
    exact h.directory_leads.congr (entries_startVolume _ _ _ _) h.isFolder_startVolume
  · rw [hvolume]
    exact h.pages_leads.congr (entries_startVolume _ _ _ _) h.isFolder_startVolume
  · rw [hrefreshed]
    exact Session.faithful_start hdirectory hpages (h.ample host) h.writable_access
  · rw [hrefreshed]
    exact Directory.bounded_ofFile

end Found

/-- The handles that are there make room only for one that reads, and go on as they were. -/
theorem Orderly.opened (h : host.Orderly config.path)
    (hopens : host.Opens config volume directory pages locks) {slot : Nat}
    (hslot : host.handle? slot = none) :
    (Host.setSlot
      { host with
        volume := startVolume config volume directory pages
        locks
        nextOwner := host.nextOwner + 1 } slot
      (host.openedHandle config volume directory pages)).Orderly config.path := by
  obtain ⟨hextends, hstores, hfound⟩ := hopens.found h.stores
  obtain ⟨hjoins, rfl⟩ := h.joins hopens
  refine orderly_setSlot (hfound.stores_startVolume hstores) ?_
    (hfound.live hstores hopens.path_ne rfl List.mem_cons_self) ?_ ?_ h.owner_inj
  · intro grant hgrant
    change grant.owner < host.nextOwner + 1
    obtain rfl | hheld := List.mem_cons.mp hgrant
    · exact Nat.lt_succ_self _
    · exact (h.owner_lt grant hheld).trans (Nat.lt_succ_self _)
  · intro slot' other _ hopen
    obtain ⟨hreadOnly, hreads⟩ := readOnly_of_not_conflicts hjoins hopen
    have hlive := h.live slot' other hopen
    refine ⟨hlive.extend h.stores.proper ?_ (List.mem_cons_of_mem _ hlive.granted), ?_,
      hreadOnly, hreads⟩
    · change host.volume.Extends (startVolume config volume directory pages)
      rw [startVolume_of_readOnly hreads]
      exact hextends
    · exact Nat.ne_of_lt (h.owner_lt _ hlive.granted)
  · intro grant hgrant
    obtain rfl | hheld := List.mem_cons.mp hgrant
    · exact Or.inl rfl
    · obtain ⟨slot', other, hopen, rfl⟩ := h.owned grant hheld
      refine Or.inr ⟨slot', other, ?_, hopen, rfl⟩
      rintro rfl
      rw [hslot] at hopen
      cases hopen

theorem Orderly.refused (h : host.Orderly config.path) {host' : Host} {cause : StoreError}
    (hfails : host.Fails config cause host') : host'.Orderly config.path := by
  obtain ⟨volume, nextOwner, rfl, hnext, hextends, hstores⟩ := hfails.extends h.stores h.owner_lt
  refine ⟨hstores, ?_, ?_, h.owned, h.owner_inj, h.shared⟩
  · intro grant hgrant
    exact (h.owner_lt grant hgrant).trans_le hnext
  · intro slot handle hopen
    have hlive := h.live slot handle hopen
    exact hlive.extend h.stores.proper hextends hlive.granted

theorem Orderly.openSlot (h : host.Orderly config.path) (slot : Nat) :
    (host.openSlot slot config).2.Orderly config.path := by
  have hclosed := h.closeSlot slot
  have hslot : (host.closeSlot slot).2.handle? slot = none := by
    rw [handle?_closeSlot, if_pos rfl]
  obtain ⟨volume, directory, pages, locks, hopens⟩ | ⟨cause, host', hrun, hfails⟩ :=
    (host.closeSlot slot).2.opens_or_fails config
  · rw [openSlot_eq hopens]
    exact hclosed.opened hopens hslot
  · rw [Host.openSlot, hrun]
    exact hclosed.refused hfails

section Live

variable {handle : Handle} (h : host.Live config.path handle)
  (hstores : host.volume.Stores config.path)
include h hstores

theorem Live.openFile_directory (create : Option Nat) :
    host.volume.openFile config.directoryPath config.access create =
      .ok (host.volume,
        host.volume.file handle.session.directory.file.inode config.access) := by
  obtain ⟨body, hbody⟩ := hstores.directory _ h.directory_leads
  exact h.directory_leads.openFile_eq (Volume.isFolder_of_regular hbody) _ _

theorem Live.openFile_pages (create : Option Nat) :
    host.volume.openFile config.pagePath config.access create =
      .ok (host.volume, host.volume.file handle.session.pages.inode config.access) := by
  obtain ⟨body, hbody⟩ := hstores.pages _ h.pages_leads
  exact h.pages_leads.openFile_eq (Volume.isFolder_of_regular hbody) _ _

end Live

theorem Orderly.run_openStore_of_conflicts (h : host.Orderly config.path)
    (hconflicts : host.Conflicts config) :
    (openStore config).run host =
      .error (.locked config.pagePath) { host with nextOwner := host.nextOwner + 1 } := by
  obtain ⟨volume, directory, pages, locks, hopens⟩ | ⟨cause, host', hrun, hfails⟩ :=
    host.opens_or_fails config
  · exact absurd hconflicts (h.joins hopens).1
  obtain ⟨slot, handle, hhandle, hmode⟩ := hconflicts
  have hlive := h.live slot handle hhandle
  have hdirectory := hlive.openFile_directory h.stores
  have hpages := hlive.openFile_pages h.stores
  rw [hrun]
  cases hfails with
  | path path_eq =>
    rw [hlive.path_ne] at path_eq
    cases path_eq
  | directory directory_eq => cases directory_eq.symm.trans (hdirectory _)
  | pages directory_eq pages_eq =>
    cases directory_eq.symm.trans (hdirectory _)
    cases pages_eq.symm.trans (hpages _)
  | lock directory_eq pages_eq lock_eq =>
    cases directory_eq.symm.trans (hdirectory _)
    cases pages_eq.symm.trans (hpages _)
    rw [acquire_candidate h.owner_lt] at lock_eq
    split at lock_eq <;> cases lock_eq
    rfl

theorem Orderly.run_openStore_ne_locked (h : host.Orderly config.path)
    (hconflicts : ¬ host.Conflicts config) (text : String) (host' : Host) :
    (openStore config).run host ≠ .error (.locked text) host' := by
  intro hrun
  cases fails_of_run hrun with
  | lock directory_eq pages_eq lock_eq =>
    obtain ⟨-, -, hextends, hbetween⟩ := opened_directory h.stores directory_eq
    obtain ⟨hcreated, -, hextends', -⟩ := opened_pages hbetween pages_eq
    have hleads := hcreated.leads hbetween.proper (Volume.plain_pagePath config)
    rw [acquire_candidate h.owner_lt] at lock_eq
    split at lock_eq
    · next hblocked =>
      exact hconflicts ((h.isBlocked_iff (hextends.trans hextends') hleads).mp hblocked)
    · cases lock_eq

end

end Host

end PageTrie
