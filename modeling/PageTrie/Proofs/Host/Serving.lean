import PageTrie.Host
import PageTrie.Proofs.Session.Step
import PageTrie.Proofs.Storage.Opening

/-! A store that is open in a slot of a host. What its session sees is what its two files
hold, so calls through the host are calls on that session. -/
namespace PageTrie.Host

/-- The session in a slot, on the files as they are now. -/
def session? (host : Host) (slot : Nat) : Option Session :=
  (host.handle? slot).map host.refreshed

structure Proper (host : Host) : Prop where
  volume : host.volume.Proper
  owner_lt : ∀ grant ∈ host.locks, grant.owner < host.nextOwner

theorem proper_empty (system : FileSystem) : (Host.empty system).Proper := by
  refine ⟨Volume.proper_empty system, ?_⟩
  intro grant hgrant
  cases hgrant

/-- A sound session is open in a slot, on two files that its base name leads to, and nobody
else has a lock on its page file. -/
structure Serves (host : Host) (slot : Nat) (session : Session) : Prop where
  proper : host.Proper
  handle : ∃ handle, host.handle? slot = some handle ∧ host.refreshed handle = session ∧
    ∀ grant ∈ host.locks, grant.inode = session.pages.inode →
      grant.owner = handle.lockable.owner
  sound : session.Sound
  apart : session.directory.file.inode ≠ session.pages.inode
  directory_leads :
    host.volume.Leads session.config.directoryPath session.directory.file.inode
  pages_leads : host.volume.Leads session.config.pagePath session.pages.inode
  path_ne : session.config.path.isEmpty = false

section Serves

variable {host : Host} {slot : Nat} {session : Session}

theorem Serves.session?_eq (h : host.Serves slot session) :
    host.session? slot = some session := by
  obtain ⟨handle, hhandle, hsession, -⟩ := h.handle
  rw [session?, hhandle, Option.map_some, hsession]

theorem Serves.content_eq (h : host.Serves slot session) :
    session.directory.file.content = host.volume.content session.directory.file.inode ∧
      session.pages.content = host.volume.content session.pages.inode := by
  obtain ⟨handle, -, rfl, -⟩ := h.handle
  exact ⟨rfl, rfl⟩

theorem Serves.limit_eq (h : host.Serves slot session) :
    session.directory.file.limit = host.volume.system.limit ∧
      session.pages.limit = host.volume.system.limit := by
  obtain ⟨handle, -, rfl, -⟩ := h.handle
  exact ⟨rfl, rfl⟩

theorem isFolder_of_content {volume : Volume} {file : OpenFile} (hregular : file.IsRegular)
    (hcontent : file.content = volume.content file.inode) : volume.isFolder file.inode = false := by
  obtain ⟨body, hbody⟩ := hregular
  rw [Volume.isFolder, ← hcontent, hbody]

theorem refresh_eq_self {volume : Volume} {file : OpenFile}
    (hcontent : volume.content file.inode = file.content)
    (hlimit : file.limit = volume.system.limit) : volume.refresh file = file := by
  rw [Volume.refresh, hcontent, ← hlimit]

theorem refreshed_absorbed {session' : Session}
    (hdirectory : session'.directory.file.inode < host.volume.inodes.length)
    (hpages : session'.pages.inode < host.volume.inodes.length)
    (hapart : session'.directory.file.inode ≠ session'.pages.inode)
    (hlimit : session'.directory.file.limit = host.volume.system.limit)
    (hlimit' : session'.pages.limit = host.volume.system.limit) (lockable : Lockable) :
    (host.absorbed session').refreshed ⟨session', lockable⟩ = session' := by
  have hlength := Volume.length_absorb host.volume session'.directory.file
  have hcontent (inode : Nat) : (host.absorbed session').volume.content inode =
      if inode = session'.pages.inode then session'.pages.content
      else if inode = session'.directory.file.inode then session'.directory.file.content
      else host.volume.content inode := by
    rw [absorbed, Volume.content_absorb (by rw [hlength]; exact hpages),
      Volume.content_absorb hdirectory]
  unfold refreshed
  dsimp only
  have hsystem : (host.absorbed session').volume.system = host.volume.system := rfl
  rw [refresh_eq_self (by rw [hcontent, if_neg hapart, if_pos rfl]) (hsystem ▸ hlimit),
    refresh_eq_self (by rw [hcontent, if_pos rfl]) (hsystem ▸ hlimit')]

theorem handle?_setSlot (host : Host) (slot : Nat) (handle : Handle) :
    (host.setSlot slot handle).handle? slot = some handle := by
  rw [handle?, setSlot, List.lookup_cons_self]

theorem isFolder_absorbed {session' : Session} (hregular : session'.directory.file.IsRegular)
    (hregular' : session'.pages.IsRegular)
    (hlt : session'.directory.file.inode < host.volume.inodes.length)
    (hlt' : session'.pages.inode < host.volume.inodes.length)
    (hfolder : host.volume.isFolder session'.directory.file.inode = false)
    (hfolder' : host.volume.isFolder session'.pages.inode = false) (inode : Nat) :
    (host.absorbed session').volume.isFolder inode = host.volume.isFolder inode := by
  have hlength := Volume.length_absorb host.volume session'.directory.file
  have hfirst := Volume.isFolder_absorb hlt hregular hfolder
  have hsecond := Volume.isFolder_absorb (by rw [hlength]; exact hlt') hregular'
    (by rw [hfirst, hfolder'])
  exact (hsecond inode).trans (hfirst inode)

theorem call_eq {handle : Handle} (hhandle : host.handle? slot = some handle) (call : Call) :
    host.call slot call = (some ((host.refreshed handle).step call).1,
      (host.absorbed ((host.refreshed handle).step call).2).setSlot slot
        { handle with session := ((host.refreshed handle).step call).2 }) := by
  unfold Host.call runOn Session.step
  rw [hhandle]
  dsimp only
  cases (Session.perform call).run (host.refreshed handle) <;> rfl

/-- A call through the host is a step of the session, and leaves the step's session. -/
theorem Serves.call (h : host.Serves slot session) (call : Call) :
    (host.call slot call).1 = some (session.step call).1 ∧
      (host.call slot call).2.Serves slot (session.step call).2 := by
  obtain ⟨handle, hhandle, hsession, hlocks⟩ := h.handle
  have heffect := h.sound.effect call
  have hcall := call_eq hhandle call
  rw [hsession] at hcall
  generalize session.step call = answer at heffect hcall ⊢
  obtain ⟨result, session'⟩ := answer
  dsimp only at hcall ⊢
  obtain ⟨hconfig, hdirectory, hpages, hlimits⟩ := heffect.alike
  dsimp only at hconfig hdirectory hpages hlimits
  have hlimit := hlimits.1.trans h.limit_eq.1
  have hlimit' := hlimits.2.trans h.limit_eq.2
  obtain ⟨hcontent, hcontent'⟩ := h.content_eq
  have hlt := h.directory_leads.inode_lt h.proper.volume
  have hlt' := h.pages_leads.inode_lt h.proper.volume
  have hregular := isFolder_of_content h.sound.grounded.coherent.regular hcontent
  have hregular' := isFolder_of_content h.sound.grounded.regular hcontent'
  rw [← hdirectory] at hlt hregular
  rw [← hpages] at hlt' hregular'
  have hapart : session'.directory.file.inode ≠ session'.pages.inode := by
    rw [hdirectory, hpages]
    exact h.apart
  have hfolder := isFolder_absorbed heffect.sound.grounded.coherent.regular
    heffect.sound.grounded.regular hlt hlt' hregular hregular'
  rw [hcall]
  refine ⟨rfl, ⟨⟨h.proper.volume.congr rfl ?_, h.proper.owner_lt⟩, ?_, heffect.sound, hapart, ?_,
    ?_, ?_⟩⟩
  · exact (Volume.length_absorb _ _).trans (Volume.length_absorb _ _)
  · refine ⟨_, handle?_setSlot _ _ _, refreshed_absorbed hlt hlt' hapart hlimit hlimit'
      handle.lockable, ?_⟩
    rw [hpages]
    exact hlocks
  · rw [hconfig, hdirectory]
    exact h.directory_leads.congr rfl hfolder
  · rw [hconfig, hpages]
    exact h.pages_leads.congr rfl hfolder
  · rw [hconfig]
    exact h.path_ne

theorem Serves.call_keys (h : host.Serves slot session) (limit : Nat) :
    (host.call slot (.keys limit)).1 =
      some (.ok (.keys ((session.keyList.take limit).map .ok)
        (decide (session.keyList.length < limit)))) := by
  obtain ⟨session', hrun, -⟩ := Session.run_keys h.sound limit
  rw [(h.call _).1, Session.step_ok (run_map_ok _ hrun)]

end Serves

end PageTrie.Host
