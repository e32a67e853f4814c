import PageTrie.Proofs.Session.Invariant

/-! Sessions that were just started. What a session knows of its files is in the files, so one
that starts on what another left holds the same table; on empty files it holds the empty one. -/
namespace PageTrie

namespace OpenFile

variable {file file' : OpenFile}

theorem byte_congr (h : file'.content = file.content) (i : Nat) : file'.byte i = file.byte i := by
  rw [byte, h, byte]

theorem bit_congr (h : file'.content = file.content) : file'.bit = file.bit := by
  funext i
  rw [bit, byte_congr h, bit]

theorem window_congr (h : file'.content = file.content) (pos n : Nat) :
    file'.window pos n = file.window pos n := by
  simp only [window, byte_congr h]

theorem length_congr (h : file'.content = file.content) : file'.length = file.length := by
  rw [length, h, length]

theorem IsRegular.congr (h : file.IsRegular) (hcontent : file'.content = file.content) :
    file'.IsRegular := by
  obtain ⟨body, hbody⟩ := h
  exact ⟨body, hcontent.trans hbody⟩

end OpenFile

def Table.empty : Table := ⟨fun _ => false, fun _ => []⟩

theorem Table.sound_empty : Table.empty.Sound := by
  refine ⟨?_, ?_, ?_, ?_⟩
  · rintro i (hset | hset) <;> cases hset
  · intro i hset
    cases hset
  · intro page pair hpair
    cases hpair
  · intro page
    exact List.nodup_nil

theorem Table.lookup_empty (key : Bytes) : Table.empty.lookup key = none := rfl

namespace Session

theorem Grounded.start {session : Session} (h : session.Grounded) {config : Config}
    {directory pages : OpenFile} (hdirectory : directory.content = session.directory.file.content)
    (hpages : pages.content = session.pages.content)
    (hample : directory.IsAmple ∧ pages.IsAmple) (haccess : config.isReadOnly = false →
      directory.access = .readWrite ∧ pages.access = .readWrite) :
    (start config directory pages).Grounded := by
  have hlength := OpenFile.length_congr hdirectory
  have hlength' := OpenFile.length_congr hpages
  have hsmall : directory.length * 8 < counterRange := by
    have hle := h.directory_le
    rw [← hlength] at hle
    change directory.length ≤ 0x20000000 at hle
    change directory.length * 8 < 0x10000000000000000
    omega
  refine ⟨Directory.coherent_ofFile (h.coherent.regular.congr hdirectory),
    Directory.bounded_ofFile hsmall, ?_, ?_, h.regular.congr hpages, ?_, ?_, ?_, hample,
    haccess⟩
  · exact (congrArg (· % bitBlockSize) hlength).trans h.directory_mod
  · exact hlength.trans_le h.directory_le
  · exact (congrArg (· % pageSize) hlength').trans h.pages_mod
  · exact hlength'.trans_le h.pages_le
  · intro number
    have hpage : (Session.start config directory pages).diskPage number =
        session.diskPage number :=
      congrArg Page.mk (OpenFile.window_congr hpages (number * pageSize) pageSize)
    rw [hpage]
    exact h.inOrder number

theorem Sound.start {session : Session} (h : session.Sound) {config : Config}
    {directory pages : OpenFile} (hdirectory : directory.content = session.directory.file.content)
    (hpages : pages.content = session.pages.content)
    (hample : directory.IsAmple ∧ pages.IsAmple) (haccess : config.isReadOnly = false →
      directory.access = .readWrite ∧ pages.access = .readWrite) :
    (start config directory pages).Sound ∧ (start config directory pages).table = session.table := by
  have htable : (Session.start config directory pages).table = session.table := by
    have hpairs (number : Nat) : (Session.start config directory pages).table.pairs number =
        session.table.pairs number :=
      congrArg (fun bytes => (Page.mk bytes).toList)
        (OpenFile.window_congr hpages (number * pageSize) pageSize)
    exact congrArg₂ Table.mk (OpenFile.bit_congr hdirectory) (funext hpairs)
  refine ⟨⟨h.grounded.start hdirectory hpages hample haccess, ?_, ?_⟩, htable⟩
  · intro number page hcached
    cases hcached
  · rw [htable]
    exact h.table

theorem sound_start_of_empty {config : Config} {directory pages : OpenFile}
    (hdirectory : directory.IsRegular) (hpages : pages.IsRegular)
    (hlength : directory.length = 0) (hlength' : pages.length = 0)
    (hample : directory.IsAmple ∧ pages.IsAmple) (haccess : config.isReadOnly = false →
      directory.access = .readWrite ∧ pages.access = .readWrite) :
    (start config directory pages).Sound ∧ (start config directory pages).table = Table.empty := by
  have hpage (number : Nat) : (start config directory pages).diskPage number = Page.empty := by
    refine congrArg Page.mk (OpenFile.window_of_length_le ?_)
    change pages.length ≤ _
    omega
  have htable : (start config directory pages).table = Table.empty := by
    have hbits : directory.bit = fun _ => false := by
      funext i
      exact OpenFile.bit_of_length_le (by omega)
    have hpairs : (fun number => ((start config directory pages).diskPage number).toList) =
        fun _ => [] := by
      funext number
      rw [hpage, Page.toList_empty]
    exact congrArg₂ Table.mk hbits hpairs
  refine ⟨⟨⟨Directory.coherent_ofFile hdirectory, Directory.bounded_ofFile ?_, ?_, ?_, hpages, ?_,
    ?_, ?_, hample, haccess⟩, ?_, ?_⟩, htable⟩
  · rw [hlength]
    decide
  · exact congrArg (· % bitBlockSize) hlength
  · exact hlength.trans_le (Nat.zero_le _)
  · exact congrArg (· % pageSize) hlength'
  · exact hlength'.trans_le (Nat.zero_le _)
  · intro number
    rw [hpage]
    exact Page.inOrder_empty
  · intro number page hcached
    cases hcached
  · rw [htable]
    exact Table.sound_empty

end Session

end PageTrie
