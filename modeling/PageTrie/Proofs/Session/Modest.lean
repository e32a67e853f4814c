import PageTrie.Proofs.Session.Ending

/-! Sessions on files of any contents that are short enough to be reached to their ends. Such a
session stays one, and its calls fail only in ways that the files or the arguments call for. -/
namespace PageTrie

/-- What a call can fail with as long as the files can be read and written. -/
def StoreError.isExpected : StoreError → Bool
  | .invalidArgument _ | .readOnly | .pairTooLarge _ _ | .corruptPage _ | .cannotMakeRoom _ => true
  | .io _ | .pageFull _ _ | .locked _ => false

namespace Session

abbrev lengthLimit : Nat := 0x1000000000000000

abbrev scanLimit : Nat := lengthLimit / pageSize

/-- The scan is not far past the end of the file, nor past the pairs that a page can have. -/
structure Near (scan : ScanPoint) : Prop where
  block_le : scan.block ≤ scanLimit
  next_le : scan.next ≤ 256

/-- Both files are short, and the scan is where it can be. -/
structure Modest (session : Session) : Prop where
  ready : session.Ready
  directory_lt : session.directory.file.length < lengthLimit
  pages_lt : session.pages.length < lengthLimit
  near : Near session.scan

structure Calm (session : Session) : Prop where
  faithful : session.Faithful
  modest : session.Modest

/-- A modest session in the middle of a change. -/
structure Busy (session : Session) : Prop where
  modest : session.Modest
  writable : session.config.isReadOnly = false

section Modest

variable {session : Session} (h : session.Modest)
include h

theorem Modest.recalling {block : Option (Nat × Buffer bitBlockSize)}
    (hblock : (session.directory.remembering block).Coherent) (page : Option (Nat × Page)) :
    (session.recalling block page).Modest :=
  ⟨h.ready.recalling hblock page, h.directory_lt, h.pages_lt, h.near⟩

theorem Modest.keeping (page : Option (Nat × Page)) : (session.keeping page).Modest :=
  h.recalling h.ready.coherent page

theorem Modest.setting (failed : Bool) {scan : ScanPoint} (hscan : Near scan) :
    ({ session with failed, scan } : Session).Modest :=
  ⟨⟨h.ready.coherent, h.ready.regular, h.ready.ample, h.ready.access⟩, h.directory_lt, h.pages_lt,
    hscan⟩

theorem Modest.wrote {number : Nat} (hnumber : number < pageCountLimit) (page : Page) :
    (session.wrote number page).Modest := by
  refine ⟨h.ready.wrote number page, h.directory_lt, ?_, h.near⟩
  have hend : (number + 1) * pageSize < lengthLimit := by
    change (number + 1) * 1024 < 0x1000000000000000
    change number < 0x100000000 at hnumber
    omega
  rw [h.ready.length_wrote]
  exact Nat.max_lt.mpr ⟨h.pages_lt, hend⟩

theorem Modest.marked {number : Nat} (hnumber : number < 0xffffffff) :
    (session.marked number).Modest := by
  refine ⟨h.ready.marked number, ?_, h.pages_lt, h.near⟩
  have hend : ((BitPlace.ofBit number).block + 1) * bitBlockSize < lengthLimit := by
    change (number / 8 / 4096 + 1) * 4096 < 0x1000000000000000
    omega
  change (session.directory.marked number).file.length < lengthLimit
  rw [h.ready.coherent.length_marked]
  exact Nat.max_lt.mpr ⟨h.directory_lt, hend⟩

end Modest

section

variable {session : Session}

theorem Calm.setting (h : session.Calm) (failed : Bool) {scan : ScanPoint}
    (hscan : Near scan) : ({ session with failed, scan } : Session).Calm :=
  ⟨h.faithful.setting failed scan, h.modest.setting failed hscan⟩

theorem Calm.flagged (h : session.Calm) : session.flagged.Calm := h.setting true h.modest.near

theorem Calm.of_busy_forgetting (h : session.Busy) : (session.keeping none).Calm :=
  ⟨(h.modest.ready.keeping none).faithful rfl, h.modest.keeping none⟩

theorem Busy.keeping (h : session.Busy) (page : Option (Nat × Page)) :
    (session.keeping page).Busy := ⟨h.modest.keeping page, h.writable⟩

theorem Busy.wrote (h : session.Busy) {number : Nat} (hnumber : number < pageCountLimit)
    (page : Page) : (session.wrote number page).Busy := ⟨h.modest.wrote hnumber page, h.writable⟩

theorem Busy.marked (h : session.Busy) {number : Nat} (hnumber : number < 0xffffffff) :
    (session.marked number).Busy := ⟨h.modest.marked hnumber, h.writable⟩

theorem Busy.calm_wrote (h : session.Busy) {number : Nat} (hnumber : number < pageCountLimit)
    {page : Page} (horder : page.InOrder) :
    ((session.keeping (some (number, page))).wrote number page).Calm :=
  ⟨h.modest.ready.faithful_wrote hnumber horder, (h.modest.keeping _).wrote hnumber page⟩

end

theorem eq_corruptPage_of_pageOnDisk {session : Session} (h : session.pages.IsRegular)
    {number : Nat} (hreach : session.pages.Reaches (number * pageSize) pageSize) {cause : StoreError}
    (hread : session.pageOnDisk number = .error cause) : cause = .corruptPage number := by
  rw [pageOnDisk_eq_ite h hreach] at hread
  split at hread
  · cases hread
  · exact (Except.error.inj hread).symm

theorem isExpected_of_pageOnDisk {session : Session} (h : session.pages.IsRegular) {number : Nat}
    (hreach : session.pages.Reaches (number * pageSize) pageSize) {cause : StoreError}
    (hread : session.pageOnDisk number = .error cause) : cause.isExpected = true := by
  rw [eq_corruptPage_of_pageOnDisk h hreach hread]
  rfl

theorem Calm.ends_pageAt {session : Session} (h : session.Calm) {number : Nat}
    (hreach : session.pages.Reaches (number * pageSize) pageSize) :
    Ends (fun page session' => page.InOrder ∧ session'.Calm ∧
        session' = session.keeping (some (number, page)))
      (fun cause session' => cause.isExpected = true ∧ session'.Calm)
      ((pageAt number).run session) := by
  have hcoherent := h.faithful.ready.coherent
  rw [h.faithful.pageAt]
  cases hread : session.pageOnDisk number with
  | ok page =>
    exact .ok ⟨(diskPage_of_pageOnDisk h.faithful.ready.regular hread).1,
      ⟨h.faithful.loaded hcoherent hread, h.modest.keeping _⟩, rfl⟩
  | error cause =>
    exact .error ⟨isExpected_of_pageOnDisk h.faithful.ready.regular hreach hread,
      h.faithful.unloaded hcoherent, h.modest.keeping none⟩

theorem Calm.ends_leafFor {session : Session} (h : session.Calm) (hash : UInt32) :
    Ends (fun found session' => session'.Calm ∧ session'.config = session.config ∧
        found.2.InOrder ∧ ∃ depth ≤ hashWidth, found.1 = TrieNode.onPath hash depth)
      (fun cause session' => cause.isExpected = true ∧ session'.Calm)
      ((leafFor hash).run session) := by
  have hcalm {session' : Session} (hrecalls : session.Recalls session')
      (hfaithful : session'.Faithful) : session'.Calm := by
    refine ⟨hfaithful, ?_⟩
    obtain ⟨block, page, rfl⟩ := hrecalls
    exact h.modest.recalling hfaithful.ready.coherent page
  apply (h.faithful.ends_leafFor hash).mono
  · rintro ⟨leaf, page⟩ session' ⟨hrecalls, hfaithful, hleaf, horder, -⟩
    refine ⟨hcalm hrecalls hfaithful, hrecalls.alike.config, horder, ?_⟩
    obtain ⟨depth, hdepth, hpath⟩ := session.leafOf_eq_onPath hash
    exact ⟨depth, hdepth, hleaf.trans hpath⟩
  · rintro cause session' ⟨hrecalls, hfaithful, hread⟩
    exact ⟨isExpected_of_pageOnDisk h.faithful.ready.regular
      (reachesPage h.faithful.ready.ample.2.storeSpan_le_extent (session.page_leafOf_lt hash))
      hread, hcalm hrecalls hfaithful⟩

end Session

end PageTrie
