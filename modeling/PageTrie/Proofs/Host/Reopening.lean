import PageTrie.Proofs.Host.Opening

/-! Opening a store for the first time and opening it again. A fresh store is empty, whether
its files were missing or are emptied; one that is reopened always gets its lock back. -/
namespace PageTrie

namespace Host

/-- A store is to be opened where it has no files, or with its files emptied. -/
structure Fresh (host : Host) (config : Config) : Prop where
  proper : host.Proper
  start : config.mode = .create ∧ host.volume.Lacks config.directoryPath ∧
    host.volume.Lacks config.pagePath ∨ config.mode = .truncate

theorem fresh_empty (system : FileSystem) {config : Config} (hmode : config.mode = .create) :
    (Host.empty system).Fresh config :=
  ⟨proper_empty system, Or.inl ⟨hmode,
    Volume.lacks_empty config.toList_directoryPath (by decide) (by decide),
    Volume.lacks_empty config.toList_pagePath (by decide) (by decide)⟩⟩

section Fresh

variable {host : Host} {config : Config} {volume : Volume} {directory pages : OpenFile}
  {locks : LockTable}

theorem Fresh.creates (h : host.Fresh config) : config.mode.creates = true := by
  obtain ⟨hmode, -⟩ | hmode := h.start <;> rw [hmode] <;> rfl

theorem Opens.created (h : host.Opens config volume directory pages locks)
    (hproper : host.volume.Proper) (hcreates : config.mode.creates = true) :
    ∃ between, host.volume.Created config.directoryPath between directory.inode ∧
      between.Created config.pagePath volume pages.inode ∧
      Found config volume directory pages := by
  obtain ⟨between, hdirectory, hpages⟩ := h.files
  rw [if_pos hcreates] at hdirectory hpages
  obtain ⟨hfirst, hfile, hplain⟩ := Volume.openFile_create hdirectory
  obtain ⟨hsecond, hfile', hplain'⟩ := Volume.openFile_create hpages
  have hbetween := hfirst.proper hproper
  have hleads := hfirst.leads hproper hplain
  have hlt := hleads.inode_lt hbetween
  refine ⟨between, hfirst, hsecond, hsecond.proper hbetween, hsecond.leads_other hbetween hleads,
    hsecond.leads hbetween hplain', ?_, hsecond.regular, ?_, ?_⟩
  · rw [Volume.isFolder, hsecond.content_eq hlt]
    exact hfirst.regular
  · rw [hfile, hfile']
    exact ⟨rfl, rfl⟩
  · rw [hfile, hfile']
    exact ⟨rfl, rfl⟩

theorem Opens.locks_eq (h : host.Opens config volume directory pages locks)
    (howner : ∀ grant ∈ host.locks, grant.owner < host.nextOwner)
    (hcreates : config.mode.creates = true) :
    host.locks.Free pages.inode ∧
      locks = ⟨host.nextOwner, pages.inode, config.lockKind⟩ :: host.locks := by
  have hkind : config.lockKind = .exclusive := by
    cases hmode : config.mode <;> rw [hmode] at hcreates <;>
      first | (rw [Config.lockKind, hmode]; rfl) | cases hcreates
  have hlocked := h.locked
  rw [hkind] at hlocked ⊢
  exact Lockable.free_of_acquire_exclusive rfl
    (fun grant hgrant => Nat.ne_of_lt (howner grant hgrant)) hlocked

/-- The files of a fresh store are empty, whether they were made just now or emptied. -/
theorem Fresh.startsBlank (h : host.Fresh config)
    (hopens : host.Opens config volume directory pages locks) :
    StartsBlank config volume directory pages := by
  obtain ⟨between, hfirst, hsecond, hfound⟩ := hopens.created h.proper.volume h.creates
  obtain ⟨hmode, hlacks, hlacks'⟩ | hmode := h.start
  · have hlt : directory.inode < between.inodes.length := by
      obtain ⟨path, -, hlookup⟩ := hfirst.resolve_eq h.proper.volume
      exact (hfirst.proper h.proper.volume).inode_lt _ _ hlookup
    rw [StartsBlank, startVolume_of_ne (by rw [hmode]; decide)]
    refine ⟨SparseFile.empty, SparseFile.empty, rfl, rfl, ?_, ?_⟩
    · rw [hsecond.content_eq hlt, hfirst.content_of_lacks hlacks]
    · apply hsecond.content_of_lacks
      apply hfirst.lacks_other h.proper.volume hlacks'
      intro path path' hnames hnames'
      exact (config.paths_apart hnames hnames').symm
  · exact hfound.startsBlank_truncated hmode

end Fresh

section Slot

variable {host : Host} {slot : Nat} {config : Config} {session : Session}

theorem Proper.closeSlot (h : host.Proper) (slot : Nat) : (host.closeSlot slot).2.Proper := by
  obtain ⟨hvolume, hnext, hlocks⟩ := host.closeSlot_eq slot
  refine ⟨by rw [hvolume]; exact h.volume, ?_⟩
  intro grant hgrant
  rw [hnext]
  exact h.owner_lt grant (hlocks grant hgrant)

theorem Fresh.serves_blank (h : host.Fresh config)
    (hopen : (host.openSlot slot config).1 = .ok ()) :
    ∃ session, (host.openSlot slot config).2.Serves slot session ∧ session.config = config ∧
      session.table = Table.empty ∧ session.directory.file.length = 0 ∧
      session.pages.length = 0 := by
  obtain ⟨volume, directory, pages, locks, hopens⟩ := opens_of_openSlot hopen
  have hclosed : (host.closeSlot slot).2.Fresh config := by
    refine ⟨h.proper.closeSlot slot, ?_⟩
    rw [(host.closeSlot_eq slot).1]
    exact h.start
  obtain ⟨between, -, -, hfound⟩ := hopens.created hclosed.proper.volume hclosed.creates
  obtain ⟨hfree, rfl⟩ := hopens.locks_eq hclosed.proper.owner_lt hclosed.creates
  have hblank := hclosed.startsBlank hopens
  obtain ⟨hsound, htable⟩ := hblank.sound hfound (host.closeSlot slot).2
  rw [openSlot_eq hopens]
  exact ⟨_, hfound.serves hopens.path_ne hclosed.proper.owner_lt hfree hsound slot, rfl, htable,
    hblank.length_eq _⟩

theorem Fresh.serves (h : host.Fresh config) (hopen : (host.openSlot slot config).1 = .ok ()) :
    ∃ session, (host.openSlot slot config).2.Serves slot session ∧ session.config = config ∧
      session.table = Table.empty := by
  obtain ⟨session, hserves, hconfig, htable, -⟩ := h.serves_blank hopen
  exact ⟨session, hserves, hconfig, htable⟩

section Serves

variable (h : host.Serves slot session)
include h

theorem Serves.free_closeSlot : (host.closeSlot slot).2.locks.Free session.pages.inode := by
  obtain ⟨-, -, hlocks⟩ := host.closeSlot_eq slot
  obtain ⟨handle, hhandle, -, hgranted⟩ := h.handle
  intro grant hgrant hinode
  have howned := hgranted grant (hlocks grant hgrant) hinode
  simp only [Host.closeSlot, hhandle, clearSlot, release, Lockable.drop, LockTable.release,
    List.mem_filter, bne_iff_ne] at hgrant
  exact hgrant.2 howned

theorem Serves.found (hpath : config.path = session.config.path) :
    Found config host.volume (host.volume.file session.directory.file.inode config.access)
      (host.volume.file session.pages.inode config.access) := by
  obtain ⟨hcontent, hcontent'⟩ := h.content_eq
  have hdirectory := isFolder_of_content h.sound.grounded.coherent.regular hcontent
  have hpages := isFolder_of_content h.sound.grounded.regular hcontent'
  refine ⟨h.proper.volume, ?_, ?_, hdirectory, hpages, ⟨rfl, rfl⟩, rfl, rfl⟩
  · rw [Config.directoryPath, hpath]
    exact h.directory_leads
  · rw [Config.pagePath, hpath]
    exact h.pages_leads

theorem Serves.opens (hpath : config.path = session.config.path) :
    (host.closeSlot slot).2.Opens config host.volume
      (host.volume.file session.directory.file.inode config.access)
      (host.volume.file session.pages.inode config.access)
      (⟨(host.closeSlot slot).2.nextOwner, session.pages.inode, config.lockKind⟩ ::
        (host.closeSlot slot).2.locks) := by
  have hfound := h.found hpath
  refine ⟨by rw [hpath, h.path_ne], ⟨host.volume, ?_, ?_⟩, ?_⟩
  · rw [(host.closeSlot_eq slot).1,
      hfound.directory_leads.openFile_eq hfound.directory_regular]
    rfl
  · rw [hfound.pages_leads.openFile_eq hfound.pages_regular]
    rfl
  · apply Lockable.acquire_of_free rfl _ h.free_closeSlot
    intro grant hgrant
    exact Nat.ne_of_lt ((h.proper.closeSlot slot).owner_lt grant hgrant)

theorem Serves.sound_reopened (hpath : config.path = session.config.path) (other : Host) :
    (other.openedHandle config host.volume
        (host.volume.file session.directory.file.inode config.access)
        (host.volume.file session.pages.inode config.access)).session.Sound ∧
      (other.openedHandle config host.volume
        (host.volume.file session.directory.file.inode config.access)
        (host.volume.file session.pages.inode config.access)).session.table =
        if config.mode = .truncate then Table.empty else session.table := by
  obtain ⟨hcontent, hcontent'⟩ := h.content_eq
  have hfound := h.found hpath
  -- Only truncating touches the files before the session starts on them.
  by_cases hmode : config.mode = .truncate
  · rw [if_pos hmode]
    exact (hfound.startsBlank_truncated hmode).sound hfound other
  · rw [if_neg hmode]
    have hample := hfound.ample other
    unfold openedHandle at hample ⊢
    rw [startVolume_of_ne hmode] at hample ⊢
    exact h.sound.start hcontent.symm hcontent'.symm hample hfound.writable_access

/-- Opening a store again, under the name it has, succeeds and finds what was left. -/
theorem Serves.reopen (hpath : config.path = session.config.path) :
    (host.openSlot slot config).1 = .ok () ∧
      ∃ session', (host.openSlot slot config).2.Serves slot session' ∧ session'.config = config ∧
        session'.table = (if config.mode = .truncate then Table.empty else session.table) ∧
        (config.mode = .truncate →
          session'.directory.file.length = 0 ∧ session'.pages.length = 0) := by
  have hopens := h.opens hpath
  have hfound := h.found hpath
  obtain ⟨hsound, htable⟩ := h.sound_reopened hpath (host.closeSlot slot).2
  have hserves := hfound.serves hopens.path_ne (h.proper.closeSlot slot).owner_lt
    h.free_closeSlot hsound slot
  rw [openSlot_eq hopens]
  exact ⟨rfl, _, hserves, rfl, htable, fun hmode =>
    (hfound.startsBlank_truncated hmode).length_eq _⟩

end Serves

end Slot

end Host

end PageTrie
