import PageTrie.Proofs.Session.Invariant

/-! Writing one page or one directory bit. Each keeps the files laid out well and changes the
table at that place only. -/
namespace PageTrie.Session

def wrote (session : Session) (number : Nat) (page : Page) : Session :=
  { session with
    pages := session.pages.overwritten (number * pageSize) page.bytes.toList }

def marked (session : Session) (number : Nat) : Session :=
  { session with directory := session.directory.marked number }

/-- Two sessions have the same files open, in the same way. -/
structure Alike (session session' : Session) : Prop where
  config : session'.config = session.config
  directory : session'.directory.file.inode = session.directory.file.inode
  pages : session'.pages.inode = session.pages.inode
  limits : session'.directory.file.limit = session.directory.file.limit ∧
    session'.pages.limit = session.pages.limit

theorem Alike.refl (session : Session) : session.Alike session := ⟨rfl, rfl, rfl, rfl, rfl⟩

theorem Alike.trans {first second third : Session} (h : first.Alike second)
    (h' : second.Alike third) : first.Alike third :=
  ⟨h'.config.trans h.config, h'.directory.trans h.directory, h'.pages.trans h.pages,
    h'.limits.1.trans h.limits.1, h'.limits.2.trans h.limits.2⟩

theorem Recalls.alike {session session' : Session} (h : session.Recalls session') :
    session.Alike session' := by
  obtain ⟨block, page, rfl⟩ := h
  exact ⟨rfl, rfl, rfl, rfl, rfl⟩

theorem max_mul_mod {length n : Nat} (h : length % n = 0) (k : Nat) :
    max length (k * n) % n = 0 := by
  obtain hmax | hmax := max_choice length (k * n)
  · rw [hmax, h]
  · rw [hmax, Nat.mul_mod_left]

section Ready

variable {session : Session} (h : session.Ready)
include h

theorem Ready.run_putPage (hwritable : session.config.isReadOnly = false) {number : Nat}
    (hnumber : number < pageCountLimit) (page : Page) :
    (putPage number page).run session = .ok () (session.wrote number page) := by
  have hrefusal : session.pages.refusal (number * pageSize) page.bytes.toList.length = none := by
    rw [Vector.length_toList]
    exact h.ample.2.refusal_eq_none h.regular (h.access hwritable).2 (page_end_le hnumber)
  rw [EStateM.run, putPage, OpenFile.run_writeAt_ok hrefusal]
  rfl

theorem Ready.diskPage_wrote (number : Nat) (page : Page) (other : Nat) :
    (session.wrote number page).diskPage other =
      if other = number then page else session.diskPage other := by
  have hwindow := OpenFile.window_overwritten h.regular page.bytes number other
  unfold diskPage wrote
  rw [hwindow]
  split <;> rfl

theorem Ready.length_wrote (number : Nat) (page : Page) :
    (session.wrote number page).pages.length =
      max session.pages.length ((number + 1) * pageSize) :=
  OpenFile.length_overwritten_block h.regular (by decide) page.bytes number

theorem Ready.length_le_wrote (number : Nat) (page : Page) :
    session.pages.length ≤ (session.wrote number page).pages.length := by
  rw [h.length_wrote]
  exact Nat.le_max_left _ _

theorem Ready.wrote (number : Nat) (page : Page) : (session.wrote number page).Ready where
  coherent := h.coherent
  regular := h.regular.overwritten _ _
  ample := ⟨h.ample.1, h.ample.2.overwritten _ _⟩
  access hwritable := by
    obtain ⟨hdirectory, hpages⟩ := h.access hwritable
    exact ⟨hdirectory, by rw [Session.wrote, OpenFile.access_overwritten, hpages]⟩

theorem Ready.run_set (hwritable : session.config.isReadOnly = false) {number : Nat}
    (hnumber : number < 0xffffffff) :
    (onDirectory (Directory.set number)).run session = .ok () (session.marked number) :=
  run_onDirectory (h.coherent.set h.ample.1 (h.access hwritable).1
    (hnumber.trans (show 0xffffffff < 0x100000000 by decide)))

theorem Ready.marked (number : Nat) : (session.marked number).Ready where
  coherent := h.coherent.marked number
  regular := h.regular
  ample := ⟨h.ample.1.overwritten _ _, h.ample.2⟩
  access hwritable := by
    obtain ⟨hdirectory, hpages⟩ := h.access hwritable
    refine ⟨?_, hpages⟩
    rw [Session.marked, Directory.marked, OpenFile.access_overwritten, hdirectory]

end Ready

section Grounded

variable {session : Session} (h : session.Grounded)
include h

theorem Grounded.wrote {number : Nat} (hnumber : number < pageCountLimit) {page : Page}
    (horder : page.InOrder) : (session.wrote number page).Grounded := by
  have hlength := h.ready.length_wrote number page
  refine ⟨h.coherent, h.bounded, h.directory_mod, h.directory_le, h.regular.overwritten _ _,
    ?_, ?_, ?_, (h.ready.wrote number page).ample, (h.ready.wrote number page).access⟩
  · rw [hlength]
    exact max_mul_mod h.pages_mod _
  · rw [hlength]
    exact Nat.max_le.mpr ⟨h.pages_le, Nat.mul_le_mul_right _ hnumber⟩
  · intro other
    rw [h.ready.diskPage_wrote]
    split
    · exact horder
    · exact h.inOrder other

theorem Grounded.table_wrote (number : Nat) (page : Page) :
    (session.wrote number page).table = session.table.putPage number page.toList := by
  have hpairs (other : Nat) : (session.wrote number page).table.pairs other =
      (session.table.putPage number page.toList).pairs other := by
    change ((session.wrote number page).diskPage other).toList =
      Function.update session.table.pairs number page.toList other
    rw [h.ready.diskPage_wrote]
    by_cases hother : other = number
    · rw [if_pos hother, hother, Function.update_self]
    · rw [if_neg hother, Function.update_of_ne hother]
      rfl
  exact congrArg (Table.mk _) (funext hpairs)

theorem Grounded.marked {number : Nat} (hnumber : number < 0xffffffff) :
    (session.marked number).Grounded := by
  have hlength := h.coherent.length_marked number
  have hend : ((BitPlace.ofBit number).block + 1) * bitBlockSize ≤ directoryLimit := by
    change (number / 8 / 4096 + 1) * 4096 ≤ 0x20000000
    omega
  refine ⟨h.coherent.marked number, h.bounded.marked h.coherent ?_, ?_, ?_, h.regular,
    h.pages_mod, h.pages_le, h.inOrder, (h.ready.marked number).ample,
    (h.ready.marked number).access⟩
  · change number + 32768 < 0x10000000000000000
    omega
  · change (session.directory.marked number).file.length % bitBlockSize = 0
    rw [hlength]
    exact max_mul_mod h.directory_mod _
  · change (session.directory.marked number).file.length ≤ directoryLimit
    rw [hlength]
    exact Nat.max_le.mpr ⟨h.directory_le, hend⟩

theorem Grounded.table_marked (number : Nat) :
    (session.marked number).table =
      { session.table with isSplit := TrieNode.mark session.table.isSplit number } :=
  congrArg (Table.mk · _) (funext (h.coherent.bit_marked number))

end Grounded

theorem alike_keeping (session : Session) (page : Option (Nat × Page)) :
    session.Alike (session.keeping page) := ⟨rfl, rfl, rfl, rfl, rfl⟩

theorem alike_wrote (session : Session) (number : Nat) (page : Page) :
    session.Alike (session.wrote number page) :=
  ⟨rfl, rfl, OpenFile.inode_overwritten _ _ _, rfl, OpenFile.limit_overwritten _ _ _⟩

theorem alike_marked (session : Session) (number : Nat) : session.Alike (session.marked number) :=
  ⟨rfl, OpenFile.inode_overwritten _ _ _, rfl, OpenFile.limit_overwritten _ _ _, rfl⟩

end PageTrie.Session
