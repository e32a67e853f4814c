import PageTrie.Proofs.CommandLine.Listing
import PageTrie.Proofs.CommandLineMap
import PageTrie.Proofs.Traversal

/-! Listing the keys, dumping the pairs and counting them agree on files of any contents. Where
all blocks can be read they speak of the same keys in the same order; where one cannot, all
three fail, and only the listing has printed something by then. -/
namespace PageTrie

theorem Volume.openFile_of_regular? {volume : Volume} {text : String} {body : SparseFile}
    (h : volume.regular? text = some body) (access : Access) :
    ∃ target inode, volume.resolve text = .ok target ∧ target.inode = some inode ∧
      volume.content inode = .regular body ∧
      volume.openFile text access none =
        .ok (volume, volume.system.file inode access (.regular body)) := by
  unfold regular? at h
  split at h
  · next path inode hresolve =>
    split at h
    · next file hcontent =>
      cases h
      refine ⟨_, inode, hresolve, rfl, hcontent, ?_⟩
      unfold openFile
      rw [Option.isSome_none, if_neg Bool.false_ne_true, hresolve]
      dsimp only [bind, Except.bind]
      rw [isFolder, Volume.file, hcontent]
      rfl
    · cases h
  · cases h

def SparseFile.pageCount (pages : SparseFile) : Nat := (pages.size + (pageSize - 1)) / pageSize

namespace Host

/-- The two files of a store exist, with the contents given, and nobody has the store open. -/
structure Idle (host : Host) (db : String) (directory pages : SparseFile) : Prop where
  path_ne : db ≠ ""
  files : host.Files db directory pages
  free : ∀ target inode, host.volume.resolve (db ++ ".pag") = .ok target →
    target.inode = some inode → host.locks.Free inode
  owner_lt : ∀ grant ∈ host.locks, grant.owner < host.nextOwner

def Offers (host : Host) (config : Config) (session : Session) : Prop :=
  ∃ handle host', (openStore config).run host = .ok handle host' ∧
    host'.refreshed handle = session

section Idle

variable {host : Host} {db : String} {directory pages : SparseFile}

theorem Opens.offers {config : Config} {volume : Volume} {directory pages : OpenFile}
    {locks : LockTable} (h : host.Opens config volume directory pages locks) :
    host.Offers config (host.openedHandle config volume directory pages).session :=
  ⟨_, _, h.run, rfl⟩

theorem Idle.offers (h : host.Idle db directory pages) {config : Config} (hpath : config.path = db)
    (hmode : config.mode.creates = false) :
    ∃ inode inode', host.Offers config
      (.onFiles host.volume.system config inode inode' directory pages) := by
  subst hpath
  obtain ⟨-, inode, -, -, hcontent, hopen⟩ :=
    Volume.openFile_of_regular? h.files.directory_eq config.access
  obtain ⟨target, inode', hresolve, htarget, hcontent', hopen'⟩ :=
    Volume.openFile_of_regular? h.files.pages_eq config.access
  have hne : config.path.isEmpty = false := String.isEmpty_eq_false_iff.mpr h.path_ne
  have hnone : (if config.mode.creates = true then some config.permissions else none) = none := by
    rw [hmode, if_neg Bool.false_ne_true]
  have hopens : host.Opens config host.volume
      (host.volume.system.file inode config.access (.regular directory))
      (host.volume.system.file inode' config.access (.regular pages))
      (⟨host.nextOwner, inode', config.lockKind⟩ :: host.locks) := by
    refine ⟨hne, ⟨host.volume, ?_, ?_⟩, ?_⟩
    · rw [hnone]
      exact hopen
    · rw [hnone]
      exact hopen'
    · apply Lockable.acquire_of_free rfl _ (h.free target inode' hresolve htarget)
      intro grant hgrant
      exact Nat.ne_of_lt (h.owner_lt grant hgrant)
  have htruncate : config.mode ≠ .truncate := by
    rintro hmode'
    rw [hmode'] at hmode
    cases hmode
  have hsession := hopens.offers
  unfold openedHandle at hsession
  rw [startVolume_of_ne htruncate, refresh_eq_self hcontent rfl,
    refresh_eq_self hcontent' rfl] at hsession
  exact ⟨inode, inode', hsession⟩

end Idle

end Host

namespace CommandLine

open Session

theorem report_of_offers {host : Host} {session : Session} {invocation : Invocation}
    (h : host.Offers invocation.config session) :
    (invocation.run host).1 = (invocation.command.perform session).1 := by
  obtain ⟨handle, host', hrun, hsession⟩ := h
  rw [Invocation.run, hrun]
  dsimp only
  rw [hsession]

theorem config_of_not_isCreating {db : String} {noWait : Bool} {command command' : Command}
    (h : command.isCreating = false) (h' : command'.isCreating = false) :
    Invocation.config ⟨db, noWait, command⟩ = Invocation.config ⟨db, noWait, command'⟩ := by
  rw [← Bool.not_eq_true] at h h'
  have hmode := Invocation.mode_eq ⟨db, noWait, command⟩
  have hmode' := Invocation.mode_eq ⟨db, noWait, command'⟩
  rw [if_neg h] at hmode
  rw [if_neg h'] at hmode'
  unfold Invocation.config at hmode hmode' ⊢
  dsimp only at hmode hmode' ⊢
  rw [hmode, hmode']

section Sound

variable {session : Session} (h : session.Sound)
include h

theorem pairLines_entries :
    pairLines session.find? session.keyList =
      String.join (session.entries.map fun pair => pairLine pair.key pair.value) := by
  rw [pairLines, ← map_key_entries, List.filterMap_map]
  congr 1
  rw [← List.filterMap_eq_map]
  apply List.filterMap_congr
  intro pair hpair
  have hvalue := (h.mem_entries pair).mp hpair
  rw [Function.comp_apply, h.find?_eq_lookup, hvalue]
  rfl

theorem dump_sound (hcached : session.cached = none) :
    (dump session).1 =
      .success (String.join (session.entries.map fun pair => pairLine pair.key pair.value)) := by
  rw [dump_eq (h.grounded.ready.faithful hcached) h.sweeps, closingPass, keysBetween_all, dumped,
    h.any_isEmpty_keyList, if_neg Bool.false_ne_true, pairLines_entries h]

end Sound

def report (host : Host) (db : String) (noWait : Bool) (command : Command) : Report :=
  (Invocation.run ⟨db, noWait, command⟩ host).1

theorem dump_serves {host : Host} {slot : Nat} {session : Session} (h : host.Serves slot session)
    (noWait : Bool) :
    ∃ session' : Session, session'.Sound ∧ session'.table = session.table ∧
      report (host.closeSlot slot).2 session.config.path noWait .dump =
        .success (String.join (session'.entries.map fun pair => pairLine pair.key pair.value)) := by
  let invocation : Invocation := ⟨session.config.path, noWait, .dump⟩
  have hpath : invocation.config.path = session.config.path := rfl
  obtain ⟨hsound, htable⟩ := h.sound_reopened hpath (host.closeSlot slot).2
  refine ⟨_, hsound, htable, ?_⟩
  rw [← dump_sound hsound rfl]
  exact report_of_offers (h.opens hpath).offers

/-- The commands that only look are given one and the same session, and what those that go
through all keys report is said by how far a sweep through the file gets. -/
theorem reports_of_idle {host : Host} {db : String} {directory pages : SparseFile}
    (h : host.Idle db directory pages) (noWait : Bool) :
    ∃ session : Session, session.Faithful ∧ session.diskPage = pages.page ∧
      session.pagesInFile = pages.pageCount ∧
      (∀ command : Command, command.isCreating = false →
        host.Offers (Invocation.config ⟨db, noWait, command⟩) session) ∧
      ∀ {count : Nat} {ending : Option StoreError},
        Sweeps session.diskPage session.pagesInFile count ending →
        report host db noWait .keys =
          .closing (String.join ((keysBetween session.diskPage 0 count).map line)) ending ∧
        report host db noWait .stat = closingPass ending
          (tallied session (keysBetween session.diskPage 0 count).length session.census) ∧
        report host db noWait .dump = closingPass ending
          (dumped session.find? (keysBetween session.diskPage 0 count)) := by
  let config := Invocation.config ⟨db, noWait, .keys⟩
  obtain ⟨inode, inode', hkeys⟩ := h.offers (show config.path = db from rfl) rfl
  let session := onFiles host.volume.system config inode inode' directory pages
  have hfaithful : session.Faithful :=
    faithful_onFiles host.volume.system config inode inode' directory pages
  have hoffers (command : Command) (hlook : command.isCreating = false) :
      host.Offers (Invocation.config ⟨db, noWait, command⟩) session := by
    rw [config_of_not_isCreating hlook (show Command.keys.isCreating = false from rfl)]
    exact hkeys
  have hreport (command : Command) (hlook : command.isCreating = false) :
      report host db noWait command = (command.perform session).1 :=
    report_of_offers (hoffers command hlook)
  have hpage : session.diskPage = pages.page := by
    funext number
    exact (page_eq_diskPage rfl number).symm
  refine ⟨session, hfaithful, hpage, rfl, hoffers, fun hsweeps => ⟨?_, ?_, ?_⟩⟩
  · rw [hreport .keys rfl]
    exact keys_eq hfaithful hsweeps
  · rw [hreport .stat rfl]
    exact stat_eq hfaithful hsweeps
  · rw [hreport .dump rfl]
    exact dump_eq hfaithful hsweeps

/-- Take the two files of a store that nobody has open, whatever they hold. Where all blocks of
the page file can be read, listing the keys prints each key of its pages in order, the statistics
count the same keys, and a dump prints a line for each of them that a fetch finds a value for; it
ends at an empty key, since no fetch takes one. Where a block cannot be read, all three fail, and
only the keys of the blocks before it are printed, by the listing. So for a store that calls
lead to, a dump prints one line for each pair of it. -/
theorem listings_agree (db : String) (noWait : Bool) :
    (∀ (host : Host) (directory pages : SparseFile), host.Idle db directory pages →
      ∃ session, (∀ command : Command, command.isCreating = false →
          host.Offers (Invocation.config ⟨db, noWait, command⟩) session) ∧
        ((∀ number < pages.pageCount, Readable pages.page number) →
          ∃ keys, keys = keysBetween pages.page 0 pages.pageCount ∧
            report host db noWait .keys = .success (String.join (keys.map line)) ∧
            report host db noWait .stat = tallied session keys.length session.census ∧
            ∃ value? : Bytes → Option Bytes,
              (∀ key ≠ [], (session.step (.fetch key)).1 = .ok (.value (value? key))) ∧
              report host db noWait .dump = dumped value? keys) ∧
        ∀ number < pages.pageCount, (∀ earlier < number, Readable pages.page earlier) →
          ¬ Readable pages.page number →
          ∃ cause, Sweeps pages.page pages.pageCount number (some cause) ∧
            report host db noWait .keys =
              .failure (String.join ((keysBetween pages.page 0 number).map line)) cause.message ∧
            report host db noWait .stat = .failure "" cause.message ∧
            report host db noWait .dump = .failure "" cause.message) ∧
    ∀ (host : Host) (slot : Nat), Host.Reached slot db host →
      ∃ entries : List Pair, (entries.map (·.key)).Nodup ∧
        (∀ key value, ⟨key, value⟩ ∈ entries ↔
          (host.call slot (.fetch key)).1 = some (.ok (.value (some value)))) ∧
        report (host.closeSlot slot).2 db noWait .dump =
          .success (String.join (entries.map fun pair => pairLine pair.key pair.value)) := by
  refine ⟨fun host directory pages hidle => ?_, fun host slot hreached => ?_⟩
  · obtain ⟨session, hfaithful, hpage, hcount, hoffers, hreports⟩ := reports_of_idle hidle noWait
    rw [← hpage, ← hcount]
    refine ⟨session, hoffers, fun hall => ?_, fun number hnumber hbefore hbad => ?_⟩
    · obtain ⟨hkeys, hstat, hdump⟩ := hreports (.through hall)
      rw [closingPass] at hstat hdump
      refine ⟨_, rfl, hkeys, hstat, session.find?, fun key hkey => ?_, hdump⟩
      obtain ⟨session', hrun, -⟩ := hfaithful.fetch hall hkey
      rw [step_ok (run_map_ok _ hrun)]
    · obtain ⟨cause, hsweeps⟩ := exists_sweeps_of_not_readable hnumber hbefore hbad
      exact ⟨cause, hsweeps, hreports hsweeps⟩
  · obtain ⟨session, hserves, rfl⟩ := hreached.serves
    obtain ⟨session', hsound, htable, hdump⟩ := dump_serves hserves noWait
    refine ⟨session'.entries, ?_, fun key value => ?_, hdump⟩
    · rw [map_key_entries]
      exact hsound.nodup_keyList
    · rw [hsound.mem_entries, htable, hserves.fetch_iff]

def namelessPages : SparseFile := .ofBytes [2, 0, 0, 4, 0, 4]

def nameless : Host where
  volume := ⟨[⟨.folder, 0o755⟩, ⟨.regular .empty, 0o644⟩, ⟨.regular namelessPages, 0o644⟩],
    [([], 0), (["t.dir"], 1), (["t.pag"], 2)], .ofNumberedBlocks⟩
  locks := []
  handles := []
  nextOwner := 0

theorem idle_nameless : nameless.Idle "t" .empty namelessPages where
  path_ne := by decide
  files := ⟨rfl, rfl⟩
  free := by
    intro target inode _ _ grant hgrant
    cases hgrant
  owner_lt := by
    intro grant hgrant
    cases hgrant

theorem readable_nameless :
    ∀ number < namelessPages.pageCount, Readable namelessPages.page number := by
  intro number hnumber
  have hcount : namelessPages.pageCount = 1 := by decide +kernel
  rw [hcount, Nat.lt_one_iff] at hnumber
  have hformed : (namelessPages.page 0).isWellFormed = true := by decide +kernel
  rw [hnumber]
  exact ⟨by decide, hformed⟩

/-- All blocks being readable is not enough for a dump to succeed. -/
theorem dump_refuses_empty_key :
    ¬ ∀ (host : Host) (db : String) (noWait : Bool) (directory pages : SparseFile),
      host.Idle db directory pages →
      (∀ number < pages.pageCount, Readable pages.page number) →
      (report host db noWait .dump).status = 0 := by
  intro hsucceeds
  have hstatus := hsucceeds nameless "t" false .empty namelessPages idle_nameless readable_nameless
  obtain ⟨session, -, hpage, hcount, -, hreports⟩ := reports_of_idle idle_nameless false
  have hall := readable_nameless
  have hnil : (keysBetween namelessPages.page 0 namelessPages.pageCount).any (·.isEmpty) = true := by
    decide +kernel
  rw [← hpage, ← hcount] at hall hnil
  obtain ⟨-, -, hdump⟩ := hreports (.through hall)
  rw [hdump, closingPass, dumped, if_pos hnil] at hstatus
  cases hstatus

theorem listings_agree_sample :
    nameless.Idle "t" .empty namelessPages ∧
      (∀ number < namelessPages.pageCount, Readable namelessPages.page number) ∧
      Host.Reached 0 "t" Host.sample ∧
      report nameless "t" false .keys = .success "\n" ∧
      ∃ entries : List Pair,
        report (Host.sample.closeSlot 0).2 "t" false .dump =
          .success (String.join (entries.map fun pair => pairLine pair.key pair.value)) := by
  obtain ⟨hidle, hreached⟩ := listings_agree "t" false
  obtain ⟨session, -, hclean, -⟩ := hidle nameless .empty namelessPages idle_nameless
  obtain ⟨keys, hlist, hkeys, -⟩ := hclean readable_nameless
  obtain ⟨entries, -, -, hdump⟩ := hreached Host.sample 0 Host.reached_sample
  have htext : String.join ((keysBetween namelessPages.page 0 namelessPages.pageCount).map line) =
      "\n" := by decide +kernel
  rw [hlist, htext] at hkeys
  exact ⟨idle_nameless, readable_nameless, Host.reached_sample, hkeys, entries, hdump⟩

end CommandLine

end PageTrie
