import PageTrie.Proofs.Session.Update

/-! Sessions on files of any contents, damaged ones included. Such a session is faithful while
the page in memory is what a read of its number would give; finding a page then comes to the
same whether the page was in memory or not. -/
namespace PageTrie.Session

/-- The files can be read, and what is in memory is what a read gives. -/
structure Faithful (session : Session) : Prop where
  ready : session.Ready
  cached_eq : ∀ number page, session.cached = some (number, page) →
    session.pageOnDisk number = .ok page

def forgetting (session : Session) : Session := session.recalling none none

/-- What a read of a page gives is a matter of what the page file holds and of where it may end. -/
theorem pageOnDisk_congr {session other : Session}
    (hpages : session.pages.content = other.pages.content)
    (hlimit : session.pages.limit = other.pages.limit) :
    session.pageOnDisk = other.pageOnDisk := by
  funext number
  unfold pageOnDisk
  rw [OpenFile.block_congr hpages hlimit]

section

variable {session : Session}

theorem diskPage_of_pageOnDisk (h : session.pages.IsRegular) {number : Nat} {page : Page}
    (hread : session.pageOnDisk number = .ok page) :
    page.InOrder ∧ page = session.diskPage number := by
  by_cases hpos : session.pages.Reaches (number * pageSize) pageSize
  · rw [pageOnDisk_eq_ite h hpos] at hread
    split at hread
    · next hformed =>
      have hpage := Except.ok.inj hread
      rw [← hpage]
      exact ⟨(Page.isWellFormed_iff _).mp hformed, rfl⟩
    · cases hread
  · rw [pageOnDisk_of_not_reaches hpos] at hread
    cases hread

theorem Ready.forgetting (h : session.Ready) : session.forgetting.Ready := by
  apply h.recalling
  refine ⟨h.coherent.regular, ?_⟩
  intro number block hkept
  cases hkept

theorem Ready.faithful (h : session.Ready) (hcached : session.cached = none) :
    session.Faithful := by
  refine ⟨h, ?_⟩
  intro number page hkept
  rw [hcached] at hkept
  cases hkept

theorem Ready.faithful_of_read (h : session.Ready) {number : Nat} {page : Page}
    (hcached : session.cached = some (number, page))
    (hread : session.pageOnDisk number = .ok page) : session.Faithful := by
  refine ⟨h, ?_⟩
  intro number' page' hkept
  rw [hcached] at hkept
  cases hkept
  exact hread

theorem Faithful.congr {other : Session} (h : session.Faithful) (hready : other.Ready)
    (hpages : other.pages.content = session.pages.content)
    (hlimit : other.pages.limit = session.pages.limit) (hcached : other.cached = session.cached) :
    other.Faithful := by
  refine ⟨hready, ?_⟩
  rw [pageOnDisk_congr hpages hlimit, hcached]
  exact h.cached_eq

theorem Faithful.setting (h : session.Faithful) (failed : Bool) (scan : ScanPoint) :
    ({ session with failed, scan } : Session).Faithful :=
  h.congr ⟨h.ready.coherent, h.ready.regular, h.ready.ample, h.ready.access⟩ rfl rfl rfl

theorem Faithful.flagged (h : session.Faithful) : session.flagged.Faithful :=
  h.setting true session.scan

theorem faithful_start {config : Config} {directory pages : OpenFile}
    (hdirectory : directory.IsRegular) (hpages : pages.IsRegular)
    (hample : directory.IsAmple ∧ pages.IsAmple) (haccess : config.isReadOnly = false →
      directory.access = .readWrite ∧ pages.access = .readWrite) :
    (start config directory pages).Faithful :=
  Ready.faithful ⟨Directory.coherent_ofFile hdirectory, hpages, hample, haccess⟩ rfl

/-- Asking for a page gives what the file has, and leaves that page in memory. -/
theorem Faithful.pageAt (h : session.Faithful) (number : Nat) :
    (pageAt number).run session =
      match session.pageOnDisk number with
      | .ok page => .ok page (session.keeping (some (number, page)))
      | .error cause => .error cause (session.keeping none) := by
  rw [EStateM.run, Session.pageAt]
  cases hcase : session.cached? number with
  | none => cases session.pageOnDisk number <;> rfl
  | some page =>
    have hcached := cached?_eq_some_iff.mp hcase
    rw [h.cached_eq number page hcached]
    dsimp only
    rw [← hcached]
    rfl

theorem Faithful.loaded (h : session.Faithful) {block : Option (Nat × Buffer bitBlockSize)}
    (hblock : (session.directory.remembering block).Coherent) {number : Nat} {page : Page}
    (hread : session.pageOnDisk number = .ok page) :
    (session.recalling block (some (number, page))).Faithful := by
  apply (h.ready.recalling hblock _).faithful_of_read rfl
  have hdisk : (session.recalling block (some (number, page))).pageOnDisk = session.pageOnDisk :=
    pageOnDisk_congr rfl rfl
  rw [hdisk, hread]

theorem Faithful.unloaded (h : session.Faithful) {block : Option (Nat × Buffer bitBlockSize)}
    (hblock : (session.directory.remembering block).Coherent) :
    (session.recalling block none).Faithful := (h.ready.recalling hblock none).faithful rfl

def leafOf (session : Session) (hash : UInt32) : TrieNode :=
  TrieNode.leaf session.directory.sees hash

theorem leafOf_eq_onPath (session : Session) (hash : UInt32) :
    ∃ depth ≤ hashWidth, session.leafOf hash = TrieNode.onPath hash depth :=
  ⟨_, (TrieNode.isLeaf_depth session.directory.sees hash).depth_le, TrieNode.leaf_eq_onPath _ _⟩

theorem page_leafOf_lt (session : Session) (hash : UInt32) :
    (session.leafOf hash).page hash < pageCountLimit := by
  obtain ⟨depth, hdepth, hpath⟩ := session.leafOf_eq_onPath hash
  rw [hpath]
  exact TrieNode.page_onPath_lt hash hash hdepth

theorem Faithful.leafFor (h : session.Faithful) (hash : UInt32) :
    ∃ block, (session.directory.remembering block).Coherent ∧
      (leafFor hash).run session =
        match session.pageOnDisk ((session.leafOf hash).page hash) with
        | .ok page => .ok (session.leafOf hash, page)
            (session.recalling block (some ((session.leafOf hash).page hash, page)))
        | .error cause => .error cause (session.recalling block none) := by
  obtain ⟨block, hwalk, hblock⟩ := run_descend_root h.ready.coherent
    h.ready.ample.1.storeSpan_le_extent hash
  have hdisk : (session.recalling block session.cached).pageOnDisk = session.pageOnDisk :=
    pageOnDisk_congr rfl rfl
  have hfaithful : (session.recalling block session.cached).Faithful :=
    h.congr (h.ready.recalling hblock _) rfl rfl rfl
  have hread := hfaithful.pageAt ((session.leafOf hash).page hash)
  refine ⟨block, hblock, ?_⟩
  rw [hdisk] at hread
  unfold Session.leafFor
  rw [run_bind_ok hwalk]
  cases hcase : session.pageOnDisk ((session.leafOf hash).page hash) with
  | ok page =>
    rw [hcase] at hread
    exact run_bind_ok hread
  | error cause =>
    rw [hcase] at hread
    exact run_bind_error hread

end

end PageTrie.Session
