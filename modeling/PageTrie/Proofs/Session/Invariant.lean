import PageTrie.Session.Basic
import PageTrie.Proofs.Directory
import PageTrie.Proofs.Page.Layout
import PageTrie.Proofs.Table.Splitting

/-! What holds of a session between calls: both files are laid out well, what is in memory
agrees with them, and together they hold a sound table. Looking for a page changes only what
is in memory. -/
namespace PageTrie.Session

abbrev pageCountLimit : Nat := 0x100000000

abbrev directoryLimit : Nat := 0x20000000

def diskPage (session : Session) (number : Nat) : Page :=
  ⟨session.pages.window (number * pageSize) pageSize⟩

/-- The table that the two files hold. -/
def table (session : Session) : Table where
  isSplit := session.directory.file.bit
  pairs number := (session.diskPage number).toList

/-- The files can be read, and written to unless the session is there to look only. -/
structure Ready (session : Session) : Prop where
  coherent : session.directory.Coherent
  regular : session.pages.IsRegular
  ample : session.directory.file.IsAmple ∧ session.pages.IsAmple
  access : session.config.isReadOnly = false →
    session.directory.file.access = .readWrite ∧ session.pages.access = .readWrite

/-- The files are laid out well, whatever pairs they hold. -/
structure Grounded (session : Session) : Prop where
  coherent : session.directory.Coherent
  bounded : session.directory.Bounded
  directory_mod : session.directory.file.length % bitBlockSize = 0
  directory_le : session.directory.file.length ≤ directoryLimit
  regular : session.pages.IsRegular
  pages_mod : session.pages.length % pageSize = 0
  pages_le : session.pages.length ≤ pageCountLimit * pageSize
  inOrder : ∀ number, (session.diskPage number).InOrder
  ample : session.directory.file.IsAmple ∧ session.pages.IsAmple
  access : session.config.isReadOnly = false →
    session.directory.file.access = .readWrite ∧ session.pages.access = .readWrite

structure Sound (session : Session) : Prop where
  grounded : session.Grounded
  cached_eq : ∀ number page, session.cached = some (number, page) →
    page = session.diskPage number
  table : session.table.Sound

theorem Grounded.ready {session : Session} (h : session.Grounded) : session.Ready :=
  ⟨h.coherent, h.regular, h.ample, h.access⟩

def keeping (session : Session) (page : Option (Nat × Page)) : Session :=
  { session with cached := page }

def recalling (session : Session) (block : Option (Nat × Buffer bitBlockSize))
    (page : Option (Nat × Page)) : Session :=
  { session with directory := session.directory.remembering block, cached := page }

theorem keeping_recalling (session : Session) (block : Option (Nat × Buffer bitBlockSize))
    (page page' : Option (Nat × Page)) :
    (session.recalling block page).keeping page' = session.recalling block page' := rfl

def Recalls (session session' : Session) : Prop :=
  ∃ block page, session' = session.recalling block page

theorem Recalls.refl (session : Session) : session.Recalls session :=
  ⟨session.directory.cached, session.cached, rfl⟩

theorem Recalls.trans {first second third : Session} (h : first.Recalls second)
    (h' : second.Recalls third) : first.Recalls third := by
  obtain ⟨block, page, rfl⟩ := h
  obtain ⟨block', page', rfl⟩ := h'
  exact ⟨block', page', rfl⟩

theorem Recalls.table_eq {session session' : Session} (h : session.Recalls session') :
    session'.table = session.table := by
  obtain ⟨block, page, rfl⟩ := h
  rfl

theorem Ready.recalling {session : Session} (h : session.Ready)
    {block : Option (Nat × Buffer bitBlockSize)}
    (hblock : (session.directory.remembering block).Coherent) (page : Option (Nat × Page)) :
    (session.recalling block page).Ready where
  coherent := hblock
  regular := h.regular
  ample := h.ample
  access := h.access

theorem Ready.keeping {session : Session} (h : session.Ready) (page : Option (Nat × Page)) :
    (session.keeping page).Ready := h.recalling h.coherent page

theorem pagesInFile_eq {session : Session} (h : session.Grounded) :
    session.pagesInFile = session.pages.length / pageSize := by
  have hmod := h.pages_mod
  unfold pagesInFile
  simp only [pageSize] at hmod ⊢
  omega

theorem pairs_of_pagesInFile_le {session : Session} (h : session.Grounded) {number : Nat}
    (hnumber : session.pagesInFile ≤ number) : session.table.pairs number = [] := by
  have hlength : session.pages.length ≤ number * pageSize := by
    have hmod := h.pages_mod
    rw [pagesInFile_eq h] at hnumber
    simp only [pageSize] at hmod hnumber ⊢
    omega
  have hempty : session.diskPage number = Page.empty := by
    rw [diskPage, OpenFile.window_of_length_le hlength, Page.empty]
  change (session.diskPage number).toList = []
  rw [hempty, Page.toList_empty]

theorem Grounded.recalling {session : Session} (h : session.Grounded)
    {block : Option (Nat × Buffer bitBlockSize)}
    (hblock : (session.directory.remembering block).Coherent) (page : Option (Nat × Page)) :
    (session.recalling block page).Grounded where
  __ := h
  coherent := hblock

theorem Grounded.setting {session : Session} (h : session.Grounded) (failed : Bool)
    (cached : Option (Nat × Page)) (scan : ScanPoint) :
    ({ session with failed, cached, scan } : Session).Grounded where
  coherent := h.coherent
  bounded := h.bounded
  directory_mod := h.directory_mod
  directory_le := h.directory_le
  regular := h.regular
  pages_mod := h.pages_mod
  pages_le := h.pages_le
  inOrder := h.inOrder
  ample := h.ample
  access := h.access

theorem Grounded.keeping {session : Session} (h : session.Grounded)
    (page : Option (Nat × Page)) : (session.keeping page).Grounded :=
  h.setting session.failed page session.scan

theorem Sound.setting {session : Session} (h : session.Sound) (failed : Bool) (scan : ScanPoint) :
    ({ session with failed, scan } : Session).Sound where
  grounded := h.grounded.setting failed session.cached scan
  cached_eq := h.cached_eq
  table := h.table

theorem run_onDirectory {session : Session} {call : DirectoryM α} {a : α} {directory : Directory}
    (h : call.run session.directory = .ok a directory) :
    (onDirectory call).run session = .ok a { session with directory } := by
  rw [EStateM.run, onDirectory, h]

theorem run_get_bind {session : Session} {f : Session → SessionM α} :
    (get >>= f).run session = (f session).run session := rfl

theorem cached?_eq_some_iff {session : Session} {number : Nat} {page : Page} :
    session.cached? number = some page ↔ session.cached = some (number, page) := by
  unfold cached?
  cases session.cached with
  | none => simp
  | some kept => simp [Prod.ext_iff]

theorem page_end_le {number : Nat} (hnumber : number < pageCountLimit) :
    number * pageSize + pageSize ≤ storeSpan := by
  change number * 1024 + 1024 ≤ 0x40000000000
  change number < 0x100000000 at hnumber
  omega

theorem reachesPage {session : Session} (h : storeSpan ≤ session.pages.extent) {number : Nat}
    (hnumber : number < pageCountLimit) : session.pages.Reaches (number * pageSize) pageSize :=
  OpenFile.reaches_of_le h (page_end_le hnumber)

theorem pageOnDisk_eq_ite {session : Session} (h : session.pages.IsRegular) {number : Nat}
    (hreach : session.pages.Reaches (number * pageSize) pageSize) :
    session.pageOnDisk number = if (session.diskPage number).isWellFormed then
      .ok (session.diskPage number) else .error (.corruptPage number) := by
  unfold pageOnDisk
  rw [OpenFile.block_eq_window h hreach]
  rfl

theorem pageOnDisk_of_not_reaches {session : Session} {number : Nat}
    (h : ¬ session.pages.Reaches (number * pageSize) pageSize) :
    session.pageOnDisk number = .error (.io .invalidOffset) := by
  unfold pageOnDisk
  rw [OpenFile.block_of_not_reaches h]

theorem pageOnDisk_eq {session : Session} (h : session.pages.IsRegular)
    (hspan : storeSpan ≤ session.pages.extent) {number : Nat} (hnumber : number < pageCountLimit)
    (horder : (session.diskPage number).InOrder) :
    session.pageOnDisk number = .ok (session.diskPage number) := by
  rw [pageOnDisk_eq_ite h (reachesPage hspan hnumber)]
  exact if_pos ((Page.isWellFormed_iff _).mpr horder)

theorem Sound.pageAt {session : Session} (h : session.Sound) {number : Nat}
    (hnumber : number < pageCountLimit) :
    (pageAt number).run session = .ok (session.diskPage number)
      (session.keeping (some (number, session.diskPage number))) := by
  cases hcase : session.cached? number with
  | some page =>
    have hcached := cached?_eq_some_iff.mp hcase
    rw [EStateM.run, Session.pageAt, hcase, ← h.cached_eq _ _ hcached, ← hcached]
    rfl
  | none =>
    have hread := pageOnDisk_eq h.grounded.regular h.grounded.ample.2.storeSpan_le_extent hnumber
      (h.grounded.inOrder number)
    rw [EStateM.run, Session.pageAt, hcase, hread]
    rfl

/-- The walk through the directory is a walk over the bits that it lets be seen. -/
theorem run_descend {session : Session} (h : session.directory.Coherent)
    (hspan : storeSpan ≤ session.directory.file.extent) (hash : UInt32) (depth remaining : Nat)
    (hdepth : depth + remaining ≤ hashWidth) :
    ∃ block, (descend hash (TrieNode.onPath hash depth) remaining).run session =
        .ok (TrieNode.walk session.directory.sees hash (TrieNode.onPath hash depth) remaining)
          (session.recalling block session.cached) ∧
      (session.directory.remembering block).Coherent := by
  induction remaining generalizing session depth with
  | zero => exact ⟨session.directory.cached, rfl, h⟩
  | succ remaining ih =>
    have hnumber := TrieNode.number_onPath_lt hash (show depth < hashWidth by omega)
    have hreach := OpenFile.reachesBit_of_lt hspan
      (show (TrieNode.onPath hash depth).number < 0x100000000 by omega)
    obtain ⟨block, htest, hcoherent⟩ := h.test hreach
    unfold Session.descend TrieNode.walk
    rw [run_get_bind]
    by_cases hbound : (TrieNode.onPath hash depth).number < session.directory.bound
    · rw [if_pos hbound, run_bind_ok (run_onDirectory htest), Directory.sees,
        decide_eq_true hbound, Bool.true_and]
      cases session.directory.file.bit (TrieNode.onPath hash depth).number with
      | true =>
        exact @ih (session.recalling block session.cached) hcoherent hspan (depth + 1) (by omega)
      | false => exact ⟨block, rfl, hcoherent⟩
    · rw [if_neg hbound, Directory.sees, decide_eq_false hbound, Bool.false_and]
      exact ⟨session.directory.cached, rfl, h⟩

theorem run_descend_root {session : Session} (h : session.directory.Coherent)
    (hspan : storeSpan ≤ session.directory.file.extent) (hash : UInt32) :
    ∃ block, (descend hash .root hashWidth).run session =
        .ok (TrieNode.leaf session.directory.sees hash)
          (session.recalling block session.cached) ∧
      (session.directory.remembering block).Coherent :=
  run_descend h hspan hash 0 hashWidth (Nat.le_refl _)

end PageTrie.Session
