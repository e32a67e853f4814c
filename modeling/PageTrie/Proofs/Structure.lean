import PageTrie.Proofs.Host.Runs

/-! How the two files are laid out in every host that a store's runs reach: the bits form a
trie, every block is a page, and each key stands once, on the page that the trie gives it. -/
namespace PageTrie

namespace SparseFile

def page (file : SparseFile) (number : Nat) : Page :=
  ⟨Buffer.ofBytes pageSize (file.read (number * pageSize) pageSize)⟩

theorem ofBytes_read (file : SparseFile) (pos n : Nat) :
    Buffer.ofBytes n (file.read pos n) = Vector.ofFn fun k : Fin n => file.byte (pos + k) := by
  apply Buffer.ext_byte
  intro i hi
  have hright : Buffer.byte (Vector.ofFn fun k : Fin n => file.byte (pos + k)) i =
      file.byte (pos + i) := by
    simp [Buffer.byte, hi]
  rw [hright, Buffer.ofBytes, Buffer.byte_patch, Buffer.byte_zeros, length_read, getD_read]
  simp only [Nat.zero_le, true_and, Nat.zero_add, Nat.sub_zero, hi, and_true]
  by_cases hin : i < min n (file.size - pos)
  · rw [if_pos hin, if_pos hin]
  · rw [if_neg hin, file.byte_eq_zero (by omega)]

end SparseFile

/-- A directory file and a page file that make up a store. -/
structure Laid (directory pages : SparseFile) : Prop where
  closed : ∀ i, directory.bit (2 * i + 1) = true ∨ directory.bit (2 * i + 2) = true →
    directory.bit i = true
  small : ∀ i, directory.bit i = true → i < 2 ^ 32 - 1
  valid : ∀ number, (pages.page number).isWellFormed = true
  /-- The walk of a key's hash ends at the page that the key is on. -/
  placed : ∀ number p key, (pages.page number).key? p = some key →
    key ≠ [] ∧ (TrieNode.leaf directory.bit (keyHash key)).page (keyHash key) = number
  distinct : ∀ number number' p p' key, (pages.page number).key? p = some key →
    (pages.page number').key? p' = some key → number = number' ∧ p = p'
  pages_mod : pages.size % 1024 = 0
  pages_le : pages.size ≤ 2 ^ 42
  directory_mod : directory.size % 4096 = 0

namespace Session

variable {session : Session} {directory pages : SparseFile}

theorem page_eq_diskPage (hpages : session.pages.content = .regular pages) (number : Nat) :
    pages.page number = session.diskPage number := by
  rw [SparseFile.page, SparseFile.ofBytes_read, diskPage, OpenFile.window]
  simp only [OpenFile.byte, hpages]

theorem bit_eq_isSplit (hdirectory : session.directory.file.content = .regular directory) :
    directory.bit = session.table.isSplit := by
  funext i
  change directory.bit i = session.directory.file.bit i
  rw [OpenFile.bit, OpenFile.byte, hdirectory]
  rfl

theorem Sound.laid (h : session.Sound)
    (hdirectory : session.directory.file.content = .regular directory)
    (hpages : session.pages.content = .regular pages) : Laid directory pages := by
  have hbit := bit_eq_isSplit hdirectory
  have hpage := page_eq_diskPage hpages
  have hlength : session.directory.file.length = directory.size := by
    rw [OpenFile.length, hdirectory]
  have hlength' : session.pages.length = pages.size := by
    rw [OpenFile.length, hpages]
  have hplaced (number p : Nat) (key : Bytes) (hkey : (pages.page number).key? p = some key) :
      key ≠ [] ∧ session.table.pageOf key = number ∧ (session.keysOn number)[p]? = some key := by
    rw [hpage, (h.grounded.inOrder number).key?_eq_getElem?_keys] at hkey
    obtain ⟨pair, hpair, rfl⟩ := List.mem_map.mp (List.mem_of_getElem? hkey)
    obtain ⟨hne, hpageOf⟩ := h.table.placed number pair hpair
    exact ⟨hne, hpageOf, hkey⟩
  refine ⟨?_, ?_, ?_, ?_, ?_, ?_, ?_, ?_⟩
  · rw [hbit]
    exact h.table.closed
  · rw [hbit]
    exact h.table.small
  · intro number
    rw [hpage, Page.isWellFormed_iff]
    exact h.grounded.inOrder number
  · intro number p key hkey
    obtain ⟨hne, hpageOf, -⟩ := hplaced number p key hkey
    rw [hbit]
    exact ⟨hne, hpageOf⟩
  · intro number number' p p' key hkey hkey'
    obtain ⟨-, hpageOf, hget⟩ := hplaced number p key hkey
    obtain ⟨-, hpageOf', hget'⟩ := hplaced number' p' key hkey'
    rw [hpageOf] at hpageOf'
    subst hpageOf'
    obtain ⟨hlt, -⟩ := List.getElem?_eq_some_iff.mp hget
    exact ⟨rfl, (List.getElem?_inj hlt (h.table.distinct number)).mp (hget.trans hget'.symm)⟩
  · rw [← hlength']
    exact h.grounded.pages_mod
  · rw [← hlength']
    exact h.grounded.pages_le
  · rw [← hlength]
    exact h.grounded.directory_mod

end Session

namespace Host

structure Files (host : Host) (path : String) (directory pages : SparseFile) : Prop where
  directory_eq : host.volume.regular? (path ++ ".dir") = some directory
  pages_eq : host.volume.regular? (path ++ ".pag") = some pages

/-- How a move may change the files: bits are only added, and by stores alone, unless the move
empties both files. -/
structure Extends (move : Move) (directory directory' pages' : SparseFile) : Prop where
  emptied : move.truncates = true →
    (∀ i, directory'.bit i = false) ∧ directory'.size = 0 ∧ pages'.size = 0
  grows : move.truncates = false → ∀ i, directory.bit i = true → directory'.bit i = true
  unsplit : move.truncates = false → move.isStore = false →
    ∀ i, directory'.bit i = directory.bit i

theorem Files.unique {host : Host} {path : String} {directory directory' pages pages' : SparseFile}
    (h : host.Files path directory pages) (h' : host.Files path directory' pages') :
    directory = directory' ∧ pages = pages' := by
  have hdirectory := h.directory_eq.symm.trans h'.directory_eq
  have hpages := h.pages_eq.symm.trans h'.pages_eq
  exact ⟨Option.some.inj hdirectory, Option.some.inj hpages⟩

section Serves

variable {host : Host} {slot : Nat} {session : Session}

theorem regular?_of_leads {volume : Volume} {text : String} {inode : Nat} {body : SparseFile}
    (h : volume.Leads text inode) (hbody : volume.content inode = .regular body) :
    volume.regular? text = some body := by
  obtain ⟨path, hnames, hlookup⟩ := h.resolve_eq
  rw [Volume.regular?, Volume.resolve_of_names hnames, Volume.place, hlookup]
  dsimp only
  rw [hbody]

theorem Serves.files (h : host.Serves slot session) :
    ∃ directory pages, host.Files session.config.path directory pages ∧
      session.directory.file.content = .regular directory ∧
      session.pages.content = .regular pages := by
  obtain ⟨directory, hdirectory⟩ := h.sound.grounded.coherent.regular
  obtain ⟨pages, hpages⟩ := h.sound.grounded.regular
  obtain ⟨hcontent, hcontent'⟩ := h.content_eq
  rw [hdirectory] at hcontent
  rw [hpages] at hcontent'
  exact ⟨directory, pages, ⟨regular?_of_leads h.directory_leads hcontent.symm,
    regular?_of_leads h.pages_leads hcontent'.symm⟩, hdirectory, hpages⟩

end Serves

/-- Whatever is done to a store, its files are laid out as a store, and its trie only grows. -/
theorem laid_of_reached {host : Host} {slot : Nat} {path : String} (h : Reached slot path host) :
    ∃ directory pages, host.Files path directory pages ∧ Laid directory pages ∧
      ∀ move : Move, move.Keeps path →
        ∃ directory' pages', (host.after slot move).Files path directory' pages' ∧
          Extends move directory directory' pages' := by
  obtain ⟨session, hserves, rfl⟩ := h.serves
  obtain ⟨directory, pages, hfiles, hdirectory, hpages⟩ := hserves.files
  refine ⟨directory, pages, hfiles, hserves.sound.laid hdirectory hpages, ?_⟩
  intro move hkeeps
  obtain ⟨session', hmoved⟩ := hserves.after move hkeeps
  obtain ⟨directory', pages', hfiles', hdirectory', hpages'⟩ := hmoved.serves.files
  rw [hmoved.path_eq] at hfiles'
  refine ⟨directory', pages', hfiles', ?_, ?_, ?_⟩
  · intro htruncates
    obtain ⟨htable, hlength, hlength'⟩ := hmoved.truncated htruncates
    rw [OpenFile.length, hdirectory'] at hlength
    rw [OpenFile.length, hpages'] at hlength'
    rw [Session.bit_eq_isSplit hdirectory', htable]
    exact ⟨fun i => rfl, hlength, hlength'⟩
  · rw [Session.bit_eq_isSplit hdirectory, Session.bit_eq_isSplit hdirectory']
    exact hmoved.grows
  · intro htruncates hstore i
    rw [Session.bit_eq_isSplit hdirectory, Session.bit_eq_isSplit hdirectory',
      hmoved.unsplit htruncates hstore]

theorem bit_branched {directory pages : SparseFile} (hfiles : branched.Files "t" directory pages) :
    directory.bit 0 = true := by
  obtain ⟨session, hserves, hconfig, htable⟩ := bears_branched
  obtain ⟨directory', pages', hfiles', hdirectory, -⟩ := hserves.files
  rw [hconfig] at hfiles'
  rw [(hfiles.unique hfiles').1, Session.bit_eq_isSplit hdirectory, htable]
  decide +kernel

theorem laid_of_reached_branched :
    ∃ directory pages, branched.Files "t" directory pages ∧ Laid directory pages ∧
      directory.bit 0 = true ∧ ∃ directory' pages',
        (branched.after 0 (.call (.store (longPair [99]) .insert))).Files "t" directory' pages' ∧
          directory'.bit 0 = true := by
  obtain ⟨directory, pages, hfiles, hlaid, hmoves⟩ := laid_of_reached reached_branched
  have hbit := bit_branched hfiles
  obtain ⟨directory', pages', hfiles', hextends⟩ :=
    hmoves (.call (.store (longPair [99]) .insert)) trivial
  exact ⟨directory, pages, hfiles, hlaid, hbit, directory', pages', hfiles',
    hextends.grows rfl 0 hbit⟩

end Host

end PageTrie
