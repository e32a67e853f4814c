import PageTrie.Proofs.Session.Twins
import PageTrie.Proofs.Structure

/-! What is in memory always mirrors the files, whatever these hold and however a call ended.
So a store may as well forget it all before each call, and before each key of a pass: the
answers and the files come out the same. -/
namespace PageTrie

def SparseFile.bitBlock (file : SparseFile) (number : Nat) : Buffer bitBlockSize :=
  Buffer.ofBytes bitBlockSize (file.read (number * bitBlockSize) bitBlockSize)

namespace Session

def KeyStream.takeForgetting (stream : KeyStream) (session : Session) :
    (limit : Nat) → List (Except StoreError Bytes) × KeyStream × Session
  | 0 => ([], stream, session)
  | limit + 1 =>
    match stream.next session.forgetting with
    | (none, stream', session') => ([], stream', session')
    | (some item, stream', session') =>
      let (items, stream'', session'') := stream'.takeForgetting session' limit
      (item :: items, stream'', session'')

/-- A call on a store that keeps nothing in memory. -/
def stepForgetting (session : Session) : Call → Except StoreError Reply × Session
  | .keys limit =>
    let (items, _, session') := KeyStream.fresh.takeForgetting session limit
    (.ok (.keys items (decide (items.length < limit))), session')
  | call => session.forgetting.step call

def runForgetting (session : Session) (calls : List Call) : Session :=
  calls.foldl (fun session call => (session.stepForgetting call).2) session

def onFiles (system : FileSystem) (config : Config) (inode inode' : Nat)
    (directory pages : SparseFile) : Session :=
  start config (system.file inode config.access (.regular directory))
    (system.file inode' config.access (.regular pages))

/-- What is in memory is what the two files show, and the page is well formed. -/
structure Mirrors (session : Session) (directory pages : SparseFile) : Prop where
  directory_eq : session.directory.file.content = .regular directory
  pages_eq : session.pages.content = .regular pages
  block_eq : ∀ number block, session.directory.cached = some (number, block) →
    block = directory.bitBlock number
  page_eq : ∀ number page, session.cached = some (number, page) →
    page.isWellFormed = true ∧ page = pages.page number

section

variable {session other : Session}

theorem Faithful.mirrors (h : session.Faithful) :
    ∃ directory pages, session.Mirrors directory pages := by
  obtain ⟨directory, hdirectory⟩ := h.ready.coherent.regular
  obtain ⟨pages, hpages⟩ := h.ready.regular
  refine ⟨directory, pages, hdirectory, hpages, ?_, ?_⟩
  · intro number block hkept
    rw [h.ready.coherent.cached_eq number block hkept, SparseFile.bitBlock,
      SparseFile.ofBytes_read, OpenFile.window]
    simp only [OpenFile.byte, hdirectory]
  · intro number page hkept
    have hpage := diskPage_of_pageOnDisk h.ready.regular (h.cached_eq number page hkept)
    rw [page_eq_diskPage hpages]
    exact ⟨(Page.isWellFormed_iff page).mpr hpage.1, hpage.2⟩

theorem faithful_onFiles (system : FileSystem) (config : Config) (inode inode' : Nat)
    (directory pages : SparseFile) :
    (onFiles system config inode inode' directory pages).Faithful := by
  apply faithful_start ⟨directory, rfl⟩ ⟨pages, rfl⟩
    ⟨OpenFile.isAmple_file system _ _ _, OpenFile.isAmple_file system _ _ _⟩
  intro hwritable
  have haccess : config.access = .readWrite := by
    simpa [Config.isReadOnly, Config.access] using hwritable
  exact ⟨haccess, haccess⟩

theorem Twins.forgetful (h : session.Twins other) : session.Twins other.forgetting where
  left := h.left
  right := h.right.ready.forgetting.faithful rfl
  forgetting_eq := h.forgetting_eq

theorem Twins.takeForgetting (h : session.Twins other) (stream : KeyStream) (limit : Nat) :
    (stream.take session limit).1 = (stream.takeForgetting other limit).1 ∧
      (stream.take session limit).2.2.Twins (stream.takeForgetting other limit).2.2 := by
  induction limit generalizing stream session other with
  | zero => exact ⟨rfl, h⟩
  | succ limit ih =>
    have hnext := h.forgetful.abreast.next stream fun _ => h.forgetful.scan_eq
    unfold KeyStream.take KeyStream.takeForgetting
    generalize stream.next session = result at hnext
    generalize stream.next other.forgetting = result' at hnext
    obtain ⟨item, stream', session'⟩ := result
    obtain ⟨item', stream'', other'⟩ := result'
    obtain ⟨rfl, rfl, hlooked, -⟩ := hnext
    have htwins : session'.Twins other' := h.forgetful.looked hlooked
    cases item with
    | none => exact ⟨rfl, htwins⟩
    | some item =>
      have hrest := ih htwins stream'
      exact ⟨congrArg (item :: ·) hrest.1, hrest.2⟩

theorem Twins.stepForgetting (h : session.Twins other) (call : Call) :
    (session.step call).1 = (other.stepForgetting call).1 ∧
      (session.step call).2.Twins (other.stepForgetting call).2 := by
  cases call with
  | keys limit =>
    have htake := h.takeForgetting .fresh limit
    have hstep : session.step (.keys limit) =
        (.ok (.keys (KeyStream.fresh.take session limit).1
          (decide ((KeyStream.fresh.take session limit).1.length < limit))),
          (KeyStream.fresh.take session limit).2.2) := rfl
    rw [hstep, htake.1]
    exact ⟨rfl, htake.2⟩
  | _ => exact (h.forgetful.step _).imp_right Settled.twins

theorem Twins.runForgetting (h : session.Twins other) (calls : List Call) :
    (session.run calls).Twins (other.runForgetting calls) := by
  induction calls generalizing session other with
  | nil => exact h
  | cons call calls ih => exact ih (h.stepForgetting call).2

end

/-- On files of any contents and after any calls, what is in memory mirrors the files, and the
next call answers what it would answer had nothing ever been kept in memory. -/
theorem caches_transparent (system : FileSystem) (config : Config) (inode inode' : Nat)
    (directory pages : SparseFile) (calls : List Call) :
    ∃ directory' pages',
      ((onFiles system config inode inode' directory pages).run calls).Mirrors directory' pages' ∧
      ((onFiles system config inode inode' directory pages).runForgetting calls).Mirrors
        directory' pages' ∧
      ((onFiles system config inode inode' directory pages).run calls).failed =
        ((onFiles system config inode inode' directory pages).runForgetting calls).failed ∧
      ∀ call, (((onFiles system config inode inode' directory pages).run calls).step call).1 =
        (((onFiles system config inode inode' directory pages).runForgetting calls).stepForgetting
          call).1 := by
  have hstart := (faithful_onFiles system config inode inode' directory pages).twins
  have htwins := hstart.runForgetting calls
  obtain ⟨directory', pages', hmirrors⟩ := htwins.left.mirrors
  obtain ⟨directory'', pages'', hmirrors'⟩ := htwins.right.mirrors
  have hdirectory := htwins.abreast.directory_eq
  have hpages := htwins.abreast.pages_eq
  rw [hmirrors.directory_eq, hmirrors'.directory_eq, Content.regular.injEq] at hdirectory
  rw [hmirrors.pages_eq, hmirrors'.pages_eq, Content.regular.injEq] at hpages
  rw [← hdirectory, ← hpages] at hmirrors'
  exact ⟨directory', pages', hmirrors, hmirrors', htwins.failed_eq,
    fun call => (htwins.stepForgetting call).1⟩

end Session

end PageTrie
