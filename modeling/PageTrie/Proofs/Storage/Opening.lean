import PageTrie.Proofs.Storage.Naming
import PageTrie.Proofs.Storage.Window

/-! Opening files by name. A name that leads to a file goes on doing so while files are
created or written, and a file that opening creates is empty and found under its name. -/
namespace PageTrie

namespace Path

def EndsIn (path : Path) (last : Char) : Prop :=
  ∃ component : List Char, path.getLast? = some (String.ofList (component ++ [last]))

theorem EndsIn.ne {path path' : Path} {last last' : Char} (h : path.EndsIn last)
    (h' : path'.EndsIn last') (hne : last ≠ last') : path ≠ path' := by
  rintro rfl
  obtain ⟨component, hcomponent⟩ := h
  obtain ⟨component', hcomponent'⟩ := h'
  rw [hcomponent, Option.some.injEq, String.ofList_inj] at hcomponent'
  have hlast := congrArg List.getLast? hcomponent'
  rw [List.getLast?_concat, List.getLast?_concat, Option.some.injEq] at hlast
  exact hne hlast

end Path

namespace Volume

def Names (volume : Volume) (text : String) (path : Path) : Prop :=
  ∃ components, Path.components text = .ok components ∧ volume.Reaches [] components path

/-- A file is found under a text, whether or not it may be created. -/
structure Leads (volume : Volume) (text : String) (inode : Nat) : Prop where
  resolve_eq : ∃ path, volume.Names text path ∧ volume.lookup path = some inode
  plain : ∀ components, Path.components text = .ok components →
    (Path.ending components).slash = false

theorem Leads.inode_lt {volume : Volume} {text : String} {inode : Nat} (h : volume.Leads text inode)
    (hproper : volume.Proper) : inode < volume.inodes.length := by
  obtain ⟨path, -, hlookup⟩ := h.resolve_eq
  exact hproper.inode_lt path inode hlookup

def Lacks (volume : Volume) (text : String) : Prop :=
  ∀ target, volume.resolve text = .ok target → target.inode = none

theorem resolve_of_names {volume : Volume} {text : String} {path : Path}
    (h : volume.Names text path) : volume.resolve text = .ok (volume.place path) := by
  obtain ⟨components, hcomponents, hreaches⟩ := h
  rw [resolve, hcomponents]
  exact hreaches

theorem names_of_resolve {volume : Volume} {text : String} {target : Target}
    (h : volume.resolve text = .ok target) :
    volume.Names text target.path ∧ target.inode = volume.lookup target.path := by
  unfold resolve at h
  cases hcomponents : Path.components text with
  | error cause =>
    rw [hcomponents] at h
    cases h
  | ok components =>
    rw [hcomponents] at h
    obtain ⟨hreaches, hinode⟩ := @reaches_of_follow volume [] components target h
    exact ⟨⟨components, hcomponents, hreaches⟩, hinode⟩

theorem Lacks.lookup_eq_none {volume : Volume} {text : String} (h : volume.Lacks text)
    {path : Path} (hnames : volume.Names text path) : volume.lookup path = none :=
  h _ (resolve_of_names hnames)

theorem resolve_of_components {volume : Volume} {text : String} {components : List String}
    (hcomponents : Path.components text = .ok components) :
    volume.resolve text = volume.follow volume.top components := by
  rw [resolve, hcomponents]
  rfl

theorem resolveNew_of_components {volume : Volume} {text : String} {components : List String}
    (hcomponents : Path.components text = .ok components) :
    volume.resolveNew text =
      if (Path.ending components).slash then do
        let _ ← volume.followAbove (Path.ending components)
        .error .isFolder
      else volume.follow volume.top components := by
  rw [resolveNew, hcomponents]
  rfl

/-- Creating goes by the plain way, unless slashes behind the name ask for a folder. -/
theorem resolveNew_eq {volume : Volume} {text : String} {target : Target}
    (h : volume.resolveNew text = .ok target) :
    volume.resolve text = .ok target ∧ ∀ components, Path.components text = .ok components →
      (Path.ending components).slash = false := by
  cases hcomponents : Path.components text with
  | error cause =>
    rw [resolveNew, hcomponents] at h
    cases h
  | ok components =>
    rw [resolveNew_of_components hcomponents] at h
    cases hslash : (Path.ending components).slash with
    | true =>
      rw [hslash, if_pos rfl] at h
      cases hfollow : volume.followAbove (Path.ending components) with
      | error cause =>
        rw [hfollow] at h
        cases h
      | ok above =>
        rw [hfollow] at h
        cases h
    | false =>
      rw [hslash, if_neg Bool.false_ne_true] at h
      refine ⟨by rw [resolve_of_components hcomponents, h], ?_⟩
      intro components' heq
      cases heq
      exact hslash

theorem resolveNew_of_plain {volume : Volume} {text : String}
    (hplain : ∀ components, Path.components text = .ok components →
      (Path.ending components).slash = false) : volume.resolveNew text = volume.resolve text := by
  cases hcomponents : Path.components text with
  | error cause => rw [resolveNew, resolve, hcomponents]; rfl
  | ok components =>
    rw [resolveNew_of_components hcomponents, resolve_of_components hcomponents,
      hplain components hcomponents, if_neg Bool.false_ne_true]

theorem Names.endsIn {volume : Volume} {text : String} {path : Path} (h : volume.Names text path)
    {front : List Char} {last : Char} (htext : text.toList = front ++ [last])
    (hslash : last ≠ '/') (hdot : last ≠ '.') : path.EndsIn last := by
  obtain ⟨components, hcomponents, hreaches⟩ := h
  obtain ⟨init, component, rfl⟩ := Path.components_append_singleton htext hslash hcomponents
  exact ⟨component, getLast?_of_reaches (Path.isName_of_last hdot) hreaches⟩

theorem lacks_empty {system : FileSystem} {text : String} {front : List Char} {last : Char}
    (htext : text.toList = front ++ [last]) (hslash : last ≠ '/') (hdot : last ≠ '.') :
    (empty system).Lacks text := by
  intro target htarget
  obtain ⟨hnames, hinode⟩ := names_of_resolve htarget
  obtain ⟨component, hcomponent⟩ := hnames.endsIn htext hslash hdot
  rw [hinode]
  cases hpath : target.path with
  | nil =>
    rw [hpath] at hcomponent
    cases hcomponent
  | cons => rfl

theorem Leads.openFile_eq {volume : Volume} {text : String} {inode : Nat}
    (h : volume.Leads text inode) (hregular : volume.isFolder inode = false) (access : Access)
    (create : Option Nat) : volume.openFile text access create =
      .ok (volume, volume.file inode access) := by
  obtain ⟨path, hnames, hlookup⟩ := h.resolve_eq
  have hresolve : volume.resolve text = .ok ⟨path, some inode⟩ := by
    rw [resolve_of_names hnames, place, hlookup]
  have hnew : volume.resolveNew text = .ok ⟨path, some inode⟩ := by
    rw [resolveNew_of_plain h.plain, hresolve]
  have hfolder (refused : Bool) : ¬ (volume.isFolder inode && refused) = true := by
    rw [hregular, Bool.false_and]
    exact Bool.false_ne_true
  unfold openFile
  cases create with
  | none =>
    dsimp only
    rw [hresolve]
    exact if_neg (hfolder _)
  | some requested =>
    dsimp only
    rw [hnew]
    exact if_neg (hfolder _)

/-- What opening with creation can come to: the file was there, or it is made. -/
inductive Created (volume : Volume) (text : String) : Volume → Nat → Prop
  | found {path : Path} {inode : Nat} (names : volume.Names text path)
      (lookup_eq : volume.lookup path = some inode) (regular : volume.isFolder inode = false) :
      Created volume text volume inode
  | made {path : Path} (requested : Nat) (names : volume.Names text path)
      (lookup_eq : volume.lookup path = none) :
      Created volume text
        (volume.add path ⟨.regular SparseFile.empty, maskedPermissions requested⟩).1
        volume.inodes.length

theorem openFile_create {volume volume' : Volume} {text : String} {requested : Nat}
    {access : Access} {file : OpenFile}
    (h : volume.openFile text access (some requested) = .ok (volume', file)) :
    volume.Created text volume' file.inode ∧
      file = volume'.file file.inode access ∧
      ∀ components, Path.components text = .ok components →
        (Path.ending components).slash = false := by
  unfold openFile at h
  change ((if true = true then volume.resolveNew text else volume.resolve text) >>= _) = _ at h
  rw [if_pos rfl] at h
  cases hnew : volume.resolveNew text with
  | error cause =>
    rw [hnew] at h
    cases h
  | ok target =>
    rw [hnew] at h
    obtain ⟨hresolve, hplain⟩ := resolveNew_eq hnew
    obtain ⟨hnames, hinode⟩ := names_of_resolve hresolve
    obtain ⟨path, inode⟩ := target
    cases inode with
    | some inode =>
      change (if (volume.isFolder inode && (access == .readWrite || true)) = true then _ else _) =
        _ at h
      rw [Bool.or_true, Bool.and_true] at h
      cases hfolder : volume.isFolder inode with
      | true =>
        rw [hfolder, if_pos rfl] at h
        cases h
      | false =>
        rw [hfolder, if_neg Bool.false_ne_true] at h
        cases h
        exact ⟨.found hnames hinode.symm hfolder, rfl, hplain⟩
    | none =>
      cases h
      exact ⟨.made requested hnames hinode.symm, rfl, hplain⟩

section Created

variable {volume volume' : Volume} {text : String} {inode : Nat}
  (h : volume.Created text volume' inode)
include h

theorem Created.lookup_mono {path : Path} {other : Nat} (hlookup : volume.lookup path = some other) :
    volume'.lookup path = some other := by
  cases h with
  | found => exact hlookup
  | made requested names lookup_eq =>
    rw [lookup_add, if_neg, hlookup]
    rintro rfl
    rw [lookup_eq] at hlookup
    cases hlookup

theorem Created.content_eq {other : Nat} (hother : other < volume.inodes.length) :
    volume'.content other = volume.content other := by
  cases h with
  | found => rfl
  | made => simp only [content, Volume.add, List.getElem?_append_left hother]

theorem Created.regular : volume'.isFolder inode = false := by
  cases h with
  | found names lookup_eq regular => exact regular
  | made => simp [isFolder, content, Volume.add]

theorem Created.content_of_lacks (hlacks : volume.Lacks text) :
    volume'.content inode = .regular SparseFile.empty := by
  cases h with
  | found names lookup_eq regular =>
    rw [hlacks.lookup_eq_none names] at lookup_eq
    cases lookup_eq
  | made => simp [content, Volume.add]

variable (hproper : volume.Proper)
include hproper

theorem Created.proper : volume'.Proper := by
  cases h with
  | found => exact hproper
  | made => exact hproper.add _

theorem Created.names_iff (other : String) (path : Path) :
    volume'.Names other path ↔ volume.Names other path := by
  cases h with
  | found => rfl
  | made requested names lookup_eq =>
    unfold Names
    simp only [reaches_add hproper lookup_eq]

theorem Created.resolve_eq : ∃ path, volume'.Names text path ∧ volume'.lookup path = some inode := by
  have hnames := h.names_iff hproper text
  cases h with
  | found names lookup_eq regular => exact ⟨_, names, lookup_eq⟩
  | @made path requested names lookup_eq =>
    refine ⟨path, (hnames path).mpr names, ?_⟩
    rw [lookup_add, if_pos rfl]

theorem Created.leads (hplain : ∀ components, Path.components text = .ok components →
    (Path.ending components).slash = false) : volume'.Leads text inode :=
  ⟨h.resolve_eq hproper, hplain⟩

theorem Created.leads_other {other : String} {inode' : Nat} (hleads : volume.Leads other inode') :
    volume'.Leads other inode' := by
  obtain ⟨⟨path, hnames, hlookup⟩, hplain⟩ := hleads
  exact ⟨⟨path, (h.names_iff hproper _ _).mpr hnames, h.lookup_mono hlookup⟩, hplain⟩

theorem Created.lacks_other {other : String} (hlacks : volume.Lacks other)
    (hapart : ∀ path path', volume.Names text path → volume.Names other path' → path' ≠ path) :
    volume'.Lacks other := by
  intro target htarget
  obtain ⟨hnames, hinode⟩ := names_of_resolve htarget
  rw [h.names_iff hproper] at hnames
  rw [hinode]
  cases h with
  | found => exact hlacks.lookup_eq_none hnames
  | made requested names lookup_eq =>
    rw [lookup_add, if_neg (hapart _ _ names hnames)]
    exact hlacks.lookup_eq_none hnames

end Created

theorem length_absorb (volume : Volume) (file : OpenFile) :
    (volume.absorb file).inodes.length = volume.inodes.length := by
  simp [absorb, setContent]

theorem content_absorb {volume : Volume} {file : OpenFile}
    (hinode : file.inode < volume.inodes.length) (other : Nat) :
    (volume.absorb file).content other =
      if other = file.inode then file.content else volume.content other :=
  volume.content_setContent _ _ _ hinode

theorem isFolder_absorb {volume : Volume} {file : OpenFile}
    (hinode : file.inode < volume.inodes.length) (hregular : file.IsRegular)
    (hfile : volume.isFolder file.inode = false) (other : Nat) :
    (volume.absorb file).isFolder other = volume.isFolder other := by
  obtain ⟨body, hbody⟩ := hregular
  by_cases heq : other = file.inode
  · rw [heq, hfile, isFolder, content_absorb hinode, if_pos rfl, hbody]
  · rw [isFolder, content_absorb hinode, if_neg heq, isFolder]

theorem Leads.congr {volume volume' : Volume} {text : String} {inode : Nat}
    (h : volume.Leads text inode) (hentries : volume'.entries = volume.entries)
    (hfolder : ∀ inode, volume'.isFolder inode = volume.isFolder inode) :
    volume'.Leads text inode := by
  obtain ⟨⟨path, ⟨components, hcomponents, hreaches⟩, hlookup⟩, hplain⟩ := h
  have hplace (path : Path) : volume'.place path = volume.place path := by
    rw [place, place, lookup, lookup, hentries]
  refine ⟨⟨path, ⟨components, hcomponents, ?_⟩, ?_⟩, hplain⟩
  · rw [Reaches, follow_congr hentries hfolder, hplace, hplace]
    exact hreaches
  · rw [lookup, hentries]
    exact hlookup

theorem Proper.congr {volume volume' : Volume} (h : volume.Proper)
    (hentries : volume'.entries = volume.entries)
    (hlength : volume'.inodes.length = volume.inodes.length) : volume'.Proper := by
  have hlookup (path : Path) : volume'.lookup path = volume.lookup path := by
    rw [lookup, lookup, hentries]
  refine ⟨?_, ?_⟩
  · intro path inode hpath
    rw [hlookup] at hpath
    rw [hlength]
    exact h.inode_lt path inode hpath
  · intro path path' inode hpath hpath'
    rw [hlookup] at hpath hpath'
    exact h.path_eq path path' inode hpath hpath'

end Volume

end PageTrie
