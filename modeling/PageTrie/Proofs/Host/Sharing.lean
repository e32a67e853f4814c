import PageTrie.Proofs.Host.Reopening
import PageTrie.Proofs.Session.Twins
import PageTrie.Proofs.Storage.Extension

/-! Any number of handles on one store. Every lock belongs to a live handle and every live handle
has its lock, so a handle that may write is alone; and what each handle keeps in memory is what
its files show now, since the files change only under a handle that has nobody beside it. -/
namespace PageTrie

namespace Volume

structure Stores (volume : Volume) (path : String) : Prop where
  proper : volume.Proper
  directory : ∀ inode, volume.Leads (path ++ ".dir") inode →
    ∃ body, volume.content inode = .regular body
  pages : ∀ inode, volume.Leads (path ++ ".pag") inode →
    ∃ body, volume.content inode = .regular body

theorem isFolder_of_regular {volume : Volume} {inode : Nat} {body : SparseFile}
    (h : volume.content inode = .regular body) : volume.isFolder inode = false := by
  rw [isFolder, h]

section Stores

variable {volume volume' : Volume} {config : Config}

theorem plain_directoryPath (config : Config) :
    ∀ components, Path.components config.directoryPath = .ok components →
      (Path.ending components).slash = false :=
  Path.plain_of_last config.toList_directoryPath (by decide)

theorem plain_pagePath (config : Config) :
    ∀ components, Path.components config.pagePath = .ok components →
      (Path.ending components).slash = false :=
  Path.plain_of_last config.toList_pagePath (by decide)

theorem stores_of_lacks (hproper : volume.Proper) (hdirectory : volume.Lacks config.directoryPath)
    (hpages : volume.Lacks config.pagePath) : volume.Stores config.path := by
  refine ⟨hproper, ?_, ?_⟩
  · rintro inode ⟨⟨path, hnames, hlookup⟩, -⟩
    cases hlookup.symm.trans (hdirectory.lookup_eq_none hnames)
  · rintro inode ⟨⟨path, hnames, hlookup⟩, -⟩
    cases hlookup.symm.trans (hpages.lookup_eq_none hnames)

theorem Stores.created_directory (h : volume.Stores config.path) {inode : Nat}
    (hcreated : volume.Created config.directoryPath volume' inode) :
    volume'.Stores config.path where
  proper := hcreated.proper h.proper
  directory inode' hleads := by
    have hleads' := hcreated.leads h.proper (plain_directoryPath config)
    rw [hleads.unique hleads']
    cases hcreated with
    | found => exact h.directory inode hleads'
    | made => exact ⟨SparseFile.empty, by simp [content, Volume.add]⟩
  pages inode' hleads := by
    have hleads' := hcreated.leads_of_other h.proper
      (fun _ _ hnames hnames' => (config.paths_apart hnames hnames').symm) hleads
    rw [hcreated.content_eq (hleads'.inode_lt h.proper)]
    exact h.pages inode' hleads'

theorem Stores.created_pages (h : volume.Stores config.path) {inode : Nat}
    (hcreated : volume.Created config.pagePath volume' inode) :
    volume'.Stores config.path where
  proper := hcreated.proper h.proper
  directory inode' hleads := by
    have hleads' := hcreated.leads_of_other h.proper
      (fun _ _ hnames hnames' => config.paths_apart hnames' hnames) hleads
    rw [hcreated.content_eq (hleads'.inode_lt h.proper)]
    exact h.directory inode' hleads'
  pages inode' hleads := by
    have hleads' := hcreated.leads h.proper (plain_pagePath config)
    rw [hleads.unique hleads']
    cases hcreated with
    | found => exact h.pages inode hleads'
    | made => exact ⟨SparseFile.empty, by simp [content, Volume.add]⟩

end Stores

end Volume

def Handle.grant (handle : Handle) : Grant :=
  ⟨handle.lockable.owner, handle.session.pages.inode, handle.session.config.lockKind⟩

namespace Host

/-- A handle on a store that has its lock, and whose session is faithful to the files as they
are now. -/
structure Live (host : Host) (path : String) (handle : Handle) : Prop where
  path_eq : handle.session.config.path = path
  path_ne : path.isEmpty = false
  directory_leads : host.volume.Leads (path ++ ".dir") handle.session.directory.file.inode
  pages_leads : host.volume.Leads (path ++ ".pag") handle.session.pages.inode
  faithful : (host.refreshed handle).Faithful
  bounded : (host.refreshed handle).directory.file.length * 8 < counterRange →
    (host.refreshed handle).directory.Bounded
  granted : handle.grant ∈ host.locks

/-- All handles are live handles on one store, and the locks are theirs. -/
structure Orderly (host : Host) (path : String) : Prop where
  stores : host.volume.Stores path
  owner_lt : ∀ grant ∈ host.locks, grant.owner < host.nextOwner
  live : ∀ slot handle, host.handle? slot = some handle → host.Live path handle
  owned : ∀ grant ∈ host.locks, ∃ slot handle, host.handle? slot = some handle ∧
    handle.grant = grant
  owner_inj : ∀ slot slot' handle handle', host.handle? slot = some handle →
    host.handle? slot' = some handle' → handle.lockable.owner = handle'.lockable.owner →
    slot = slot'
  shared : ∀ slot slot' handle handle', host.handle? slot = some handle →
    host.handle? slot' = some handle' → slot ≠ slot' → handle.session.config.isReadOnly = true

section

variable {host host' : Host} {path : String} {handle : Handle} {slot : Nat}

theorem refreshed_congr (hsystem : host'.volume.system = host.volume.system)
    (hdirectory : host'.volume.content handle.session.directory.file.inode =
      host.volume.content handle.session.directory.file.inode)
    (hpages : host'.volume.content handle.session.pages.inode =
      host.volume.content handle.session.pages.inode) :
    host'.refreshed handle = host.refreshed handle := by
  unfold refreshed Volume.refresh
  dsimp only
  rw [hsystem, hdirectory, hpages]

theorem Live.extend (h : host.Live path handle) (hproper : host.volume.Proper)
    (hextends : host.volume.Extends host'.volume) (hgranted : handle.grant ∈ host'.locks) :
    host'.Live path handle := by
  have hrefreshed : host'.refreshed handle = host.refreshed handle :=
    refreshed_congr hextends.system_eq
      (hextends.content_eq _ (h.directory_leads.inode_lt hproper))
      (hextends.content_eq _ (h.pages_leads.inode_lt hproper))
  refine ⟨h.path_eq, h.path_ne, hextends.leads _ _ h.directory_leads,
    hextends.leads _ _ h.pages_leads, ?_, ?_, hgranted⟩
  · rw [hrefreshed]
    exact h.faithful
  · rw [hrefreshed]
    exact h.bounded

theorem lookup_filter (keep : Nat → Bool) (entries : List (Nat × Handle)) (slot : Nat) :
    (entries.filter fun entry => keep entry.1).lookup slot =
      if keep slot = true then entries.lookup slot else none := by
  induction entries with
  | nil => simp
  | cons entry rest ih =>
    obtain ⟨number, handle⟩ := entry
    rw [List.filter_cons]
    by_cases hfound : slot = number
    · rw [hfound] at ih ⊢
      cases hkeep : keep number <;> simp [hkeep, ih]
    · have hother : (slot == number) = false := beq_eq_false_iff_ne.mpr hfound
      cases keep number <;> simp [List.lookup_cons, hother, ih]

theorem handle?_clearSlot (host : Host) (slot slot' : Nat) :
    (host.clearSlot slot).handle? slot' = if slot' = slot then none else host.handle? slot' := by
  have hlookup := lookup_filter (fun number => number != slot) host.handles slot'
  by_cases hslot : slot' = slot <;> simpa [hslot, handle?, clearSlot] using hlookup

theorem handle?_setSlot_eq (host : Host) (slot : Nat) (handle : Handle) (slot' : Nat) :
    (host.setSlot slot handle).handle? slot' =
      if slot' = slot then some handle else host.handle? slot' := by
  by_cases hslot : slot' = slot
  · rw [if_pos hslot, hslot, handle?_setSlot]
  · have hcleared := handle?_clearSlot host slot slot'
    rw [if_neg hslot] at hcleared ⊢
    rw [← hcleared, handle?, setSlot, List.lookup_cons, beq_eq_false_iff_ne.mpr hslot]
    rfl

theorem Live.setSlot (h : host.Live path handle) (slot : Nat) (other : Handle) :
    (host.setSlot slot other).Live path handle :=
  ⟨h.path_eq, h.path_ne, h.directory_leads, h.pages_leads, h.faithful, h.bounded, h.granted⟩

/-- A handle can stay beside one that comes to the host: it is live, it is another's, and both
only read. -/
structure Beside (host : Host) (path : String) (handle other : Handle) : Prop where
  live : host.Live path other
  owner_ne : other.lockable.owner ≠ handle.lockable.owner
  isReadOnly : other.session.config.isReadOnly = true
  coming_isReadOnly : handle.session.config.isReadOnly = true

/-- What a host owes to a live handle that is put in a slot. -/
theorem orderly_setSlot (hstores : host.volume.Stores path)
    (howner : ∀ grant ∈ host.locks, grant.owner < host.nextOwner) (hlive : host.Live path handle)
    (hbeside : ∀ slot' other, slot' ≠ slot → host.handle? slot' = some other →
      host.Beside path handle other)
    (howned : ∀ grant ∈ host.locks, grant = handle.grant ∨ ∃ slot' other, slot' ≠ slot ∧
      host.handle? slot' = some other ∧ other.grant = grant)
    (hinj : ∀ slot₁ slot₂ handle₁ handle₂, host.handle? slot₁ = some handle₁ →
      host.handle? slot₂ = some handle₂ → handle₁.lockable.owner = handle₂.lockable.owner →
      slot₁ = slot₂) :
    (host.setSlot slot handle).Orderly path := by
  have hlookup := handle?_setSlot_eq host slot handle
  refine ⟨hstores, howner, ?_, ?_, ?_, ?_⟩
  · intro slot' handle' hopen
    rw [hlookup] at hopen
    split at hopen
    · cases hopen
      exact hlive.setSlot slot handle
    · next hslot => exact (hbeside slot' handle' hslot hopen).live.setSlot slot handle
  · intro grant hgrant
    obtain rfl | ⟨slot', other, hslot, hopen, rfl⟩ := howned grant hgrant
    · exact ⟨slot, handle, handle?_setSlot _ _ _, rfl⟩
    · refine ⟨slot', other, ?_, rfl⟩
      rw [hlookup, if_neg hslot, hopen]
  · intro slot₁ slot₂ handle₁ handle₂ hopen₁ hopen₂ hsame
    rw [hlookup] at hopen₁ hopen₂
    split at hopen₁ <;> split at hopen₂
    · next hslot₁ hslot₂ => rw [hslot₁, hslot₂]
    · next hslot₂ =>
      cases hopen₁
      exact absurd hsame.symm (hbeside slot₂ handle₂ hslot₂ hopen₂).owner_ne
    · next hslot₁ _ =>
      cases hopen₂
      exact absurd hsame (hbeside slot₁ handle₁ hslot₁ hopen₁).owner_ne
    · exact hinj slot₁ slot₂ handle₁ handle₂ hopen₁ hopen₂ hsame
  · intro slot₁ slot₂ handle₁ handle₂ hopen₁ hopen₂ hne
    rw [hlookup] at hopen₁ hopen₂
    split at hopen₁
    · next hslot₁ =>
      have hslot₂ : slot₂ ≠ slot := fun hslot₂ => hne (hslot₁.trans hslot₂.symm)
      rw [if_neg hslot₂] at hopen₂
      cases hopen₁
      exact (hbeside slot₂ handle₂ hslot₂ hopen₂).coming_isReadOnly
    · next hslot₁ => exact (hbeside slot₁ handle₁ hslot₁ hopen₁).isReadOnly

theorem handle?_closeSlot (host : Host) (slot slot' : Nat) :
    (host.closeSlot slot).2.handle? slot' = if slot' = slot then none else host.handle? slot' := by
  unfold closeSlot
  split
  · exact handle?_clearSlot _ _ _
  · next hnone =>
    by_cases hslot : slot' = slot
    · rw [if_pos hslot, hslot, hnone]
    · rw [if_neg hslot]

theorem mem_locks_closeSlot {grant : Grant} :
    grant ∈ (host.closeSlot slot).2.locks ↔ grant ∈ host.locks ∧
      ∀ handle, host.handle? slot = some handle → grant.owner ≠ handle.lockable.owner := by
  unfold closeSlot
  cases hhandle : host.handle? slot with
  | none => simp
  | some handle =>
    simp [release, clearSlot, Lockable.drop, LockTable.release, List.mem_filter]

theorem Orderly.closeSlot (h : host.Orderly path) (slot : Nat) :
    (host.closeSlot slot).2.Orderly path := by
  obtain ⟨hvolume, hnext, hlocks⟩ := host.closeSlot_eq slot
  have hhandle {slot' : Nat} {handle : Handle}
      (hopen : (host.closeSlot slot).2.handle? slot' = some handle) :
      slot' ≠ slot ∧ host.handle? slot' = some handle := by
    rw [handle?_closeSlot] at hopen
    split at hopen
    · cases hopen
    · next hslot => exact ⟨hslot, hopen⟩
  refine ⟨by rw [hvolume]; exact h.stores, ?_, ?_, ?_, ?_, ?_⟩
  · intro grant hgrant
    rw [hnext]
    exact h.owner_lt grant (hlocks grant hgrant)
  · intro slot' handle hopen
    obtain ⟨hslot, hopen'⟩ := hhandle hopen
    have hlive := h.live slot' handle hopen'
    apply hlive.extend h.stores.proper
    · rw [hvolume]
      exact .refl _
    · refine mem_locks_closeSlot.mpr ⟨hlive.granted, fun closed hclosed howner => hslot ?_⟩
      exact h.owner_inj slot' slot handle closed hopen' hclosed howner
  · intro grant hgrant
    obtain ⟨hgrant', hclosed⟩ := mem_locks_closeSlot.mp hgrant
    obtain ⟨slot', handle, hopen, rfl⟩ := h.owned grant hgrant'
    refine ⟨slot', handle, ?_, rfl⟩
    rw [handle?_closeSlot, if_neg, hopen]
    rintro rfl
    exact hclosed handle hopen rfl
  · intro slot₁ slot₂ handle handle' hopen hopen'
    exact h.owner_inj slot₁ slot₂ handle handle' (hhandle hopen).2 (hhandle hopen').2
  · intro slot₁ slot₂ handle handle' hopen hopen'
    exact h.shared slot₁ slot₂ handle handle' (hhandle hopen).2 (hhandle hopen').2

theorem Live.apart (h : host.Live path handle) (hstores : host.volume.Stores path) :
    handle.session.directory.file.inode ≠ handle.session.pages.inode := by
  obtain rfl := h.path_eq
  exact handle.session.config.inodes_apart hstores.proper h.directory_leads h.pages_leads

structure Left (host : Host) (handle : Handle) (session : Session) : Prop where
  faithful : session.Faithful
  evolves : (host.refreshed handle).Evolves session
  refreshed_eq : (host.absorbed session).refreshed { handle with session } = session
  entries_eq : (host.absorbed session).volume.entries = host.volume.entries
  length_eq : (host.absorbed session).volume.inodes.length = host.volume.inodes.length
  isFolder_eq : ∀ inode, (host.absorbed session).volume.isFolder inode =
    host.volume.isFolder inode

theorem Live.left (h : host.Live path handle) (hstores : host.volume.Stores path) (call : Call) :
    host.Left handle ((host.refreshed handle).step call).2 := by
  obtain ⟨hfaithful, hevolves⟩ := h.faithful.step call
  generalize ((host.refreshed handle).step call).2 = session at hfaithful hevolves
  obtain ⟨body, hbody⟩ := hstores.directory _ h.directory_leads
  obtain ⟨body', hbody'⟩ := hstores.pages _ h.pages_leads
  have hinode : session.directory.file.inode = handle.session.directory.file.inode :=
    hevolves.alike.directory
  have hinode' : session.pages.inode = handle.session.pages.inode := hevolves.alike.pages
  obtain rfl := h.path_eq
  have hlt : session.directory.file.inode < host.volume.inodes.length := by
    rw [hinode]
    exact h.directory_leads.inode_lt hstores.proper
  have hlt' : session.pages.inode < host.volume.inodes.length := by
    rw [hinode']
    exact h.pages_leads.inode_lt hstores.proper
  have hapart : session.directory.file.inode ≠ session.pages.inode := by
    rw [hinode, hinode']
    exact h.apart hstores
  have hlimit : session.directory.file.limit = host.volume.system.limit := hevolves.alike.limits.1
  have hlimit' : session.pages.limit = host.volume.system.limit := hevolves.alike.limits.2
  refine ⟨hfaithful, hevolves, refreshed_absorbed hlt hlt' hapart hlimit hlimit' _, rfl, ?_, ?_⟩
  · exact (Volume.length_absorb _ _).trans (Volume.length_absorb _ _)
  · apply isFolder_absorbed hfaithful.ready.coherent.regular hfaithful.ready.regular hlt hlt'
    · rw [hinode]
      exact Volume.isFolder_of_regular hbody
    · rw [hinode']
      exact Volume.isFolder_of_regular hbody'

section Left

variable {session : Session}

theorem volume_absorbed_of_peeks (hpeeks : (host.refreshed handle).Peeks session) :
    (host.absorbed session).volume = host.volume := by
  have hdirectory : session.directory.file = (host.refreshed handle).directory.file :=
    congrArg (fun session => session.directory.file) hpeeks
  have hpages : session.pages = (host.refreshed handle).pages :=
    congrArg (fun session => session.pages) hpeeks
  have hfirst : host.volume.absorb session.directory.file = host.volume := by
    rw [hdirectory]
    exact Volume.absorb_eq_self rfl
  rw [absorbed, hfirst, hpages]
  exact Volume.absorb_eq_self rfl

variable (h : host.Left handle session)
include h

theorem Left.config_eq : session.config = handle.session.config := h.evolves.alike.config

theorem Left.directory_inode_eq :
    session.directory.file.inode = handle.session.directory.file.inode :=
  h.evolves.alike.directory

theorem Left.pages_inode_eq : session.pages.inode = handle.session.pages.inode :=
  h.evolves.alike.pages

theorem Left.grant_eq : Handle.grant { handle with session } = handle.grant := by
  rw [Handle.grant, h.config_eq, h.pages_inode_eq]
  rfl

theorem Left.leads_iff (text : String) (inode : Nat) :
    (host.absorbed session).volume.Leads text inode ↔ host.volume.Leads text inode :=
  ⟨fun hleads => hleads.congr h.entries_eq.symm fun inode => (h.isFolder_eq inode).symm,
    fun hleads => hleads.congr h.entries_eq h.isFolder_eq⟩

theorem Left.content_eq :
    (host.absorbed session).volume.content handle.session.directory.file.inode =
        session.directory.file.content ∧
      (host.absorbed session).volume.content handle.session.pages.inode =
        session.pages.content := by
  have hdirectory := congrArg (fun session => session.directory.file.content) h.refreshed_eq
  have hpages := congrArg (fun session => session.pages.content) h.refreshed_eq
  rw [← h.directory_inode_eq, ← h.pages_inode_eq]
  exact ⟨hdirectory, hpages⟩

theorem Left.stores (hlive : host.Live path handle) (hstores : host.volume.Stores path) :
    (host.absorbed session).volume.Stores path where
  proper := hstores.proper.congr h.entries_eq h.length_eq
  directory inode hleads := by
    rw [((h.leads_iff _ _).mp hleads).unique hlive.directory_leads, h.content_eq.1]
    exact h.faithful.ready.coherent.regular
  pages inode hleads := by
    rw [((h.leads_iff _ _).mp hleads).unique hlive.pages_leads, h.content_eq.2]
    exact h.faithful.ready.regular

theorem Left.live (hlive : host.Live path handle) :
    (host.absorbed session).Live path { handle with session } := by
  refine ⟨by rw [h.config_eq, hlive.path_eq], hlive.path_ne, ?_, ?_, ?_, ?_, ?_⟩
  · rw [h.directory_inode_eq]
    exact (h.leads_iff _ _).mpr hlive.directory_leads
  · rw [h.pages_inode_eq]
    exact (h.leads_iff _ _).mpr hlive.pages_leads
  · rw [h.refreshed_eq]
    exact h.faithful
  · rw [h.refreshed_eq]
    intro hlength
    apply h.evolves.bounded
    apply hlive.bounded
    exact (Nat.mul_le_mul_right 8 h.evolves.length_le).trans_lt hlength
  · rw [h.grant_eq]
    exact hlive.granted

/-- If there are handles beside the one that was called, the call changed no file. -/
theorem Left.orderly (horderly : host.Orderly path) (hhandle : host.handle? slot = some handle)
    (hvolume : handle.session.config.isReadOnly = true →
      (host.absorbed session).volume = host.volume) :
    ((host.absorbed session).setSlot slot { handle with session }).Orderly path := by
  have hlive := horderly.live slot handle hhandle
  refine orderly_setSlot (h.stores hlive horderly.stores) horderly.owner_lt (h.live hlive) ?_ ?_
    horderly.owner_inj
  · intro slot' other hslot hopen
    have hreadOnly := horderly.shared slot slot' handle other hhandle hopen hslot.symm
    have hother := horderly.live slot' other hopen
    refine ⟨hother.extend horderly.stores.proper ?_ hother.granted, ?_, ?_, ?_⟩
    · rw [hvolume hreadOnly]
      exact .refl _
    · exact fun howner => hslot (horderly.owner_inj slot' slot other handle hopen hhandle howner)
    · exact horderly.shared slot' slot other handle hopen hhandle hslot
    · rw [h.config_eq]
      exact hreadOnly
  · intro grant hgrant
    obtain ⟨slot', other, hopen, rfl⟩ := horderly.owned grant hgrant
    by_cases hslot : slot' = slot
    · rw [hslot, hhandle] at hopen
      cases hopen
      exact Or.inl h.grant_eq.symm
    · exact Or.inr ⟨slot', other, hslot, hopen, rfl⟩

end Left

theorem Orderly.call (h : host.Orderly path) (slot : Nat) (call : Call) :
    (host.call slot call).2.Orderly path := by
  cases hhandle : host.handle? slot with
  | none =>
    rw [Host.call, hhandle]
    exact h
  | some handle =>
    have hlive := h.live slot handle hhandle
    rw [call_eq hhandle]
    exact (hlive.left h.stores call).orderly h hhandle fun hreadOnly =>
      volume_absorbed_of_peeks (hlive.faithful.peeks_of_readOnly hreadOnly call)

end

end Host

end PageTrie
