import Mathlib
import PageTrie.Storage.Volume

/-! Where path texts lead. Writing into files moves no name, and a created file is found
under its own name and takes no other name's place. -/
namespace PageTrie

namespace Path

theorem splitOn_append_singleton (text : List Char) {last : Char} (hlast : last ≠ '/') :
    ∃ init component, (text ++ [last]).splitOn '/' = init ++ [component ++ [last]] := by
  induction text with
  | nil => exact ⟨[], [], List.splitOn_eq_singleton (by simpa using hlast.symm)⟩
  | cons c text ih =>
    obtain ⟨init, component, hsplit⟩ := ih
    rw [List.cons_append, List.splitOn_cons_eq_if_modifyHead, hsplit]
    split
    · exact ⟨[] :: init, component, rfl⟩
    · cases init with
      | nil => exact ⟨[], c :: component, rfl⟩
      | cons first init => exact ⟨(c :: first) :: init, component, rfl⟩

theorem components_append_singleton {text : String} {front : List Char} {last : Char}
    (htext : text.toList = front ++ [last]) (hlast : last ≠ '/') {components : List String}
    (hcomponents : Path.components text = .ok components) :
    ∃ init component, components = init ++ [String.ofList (component ++ [last])] := by
  unfold Path.components at hcomponents
  split at hcomponents
  · cases hcomponents
  · split at hcomponents
    · cases hcomponents
    · split at hcomponents
      · cases hcomponents
      · obtain ⟨init, component, hsplit⟩ := splitOn_append_singleton front hlast
        rw [htext, hsplit, List.map_append] at hcomponents
        cases hcomponents
        exact ⟨init.map String.ofList, component, rfl⟩

theorem isName_of_last {component : List Char} {last : Char} (hlast : last ≠ '.') :
    isName (String.ofList (component ++ [last])) = true := by
  have hne (text : String) (htext : text.toList.getLast? ≠ some last) :
      (String.ofList (component ++ [last]) == text) = false := by
    rw [beq_eq_false_iff_ne]
    rintro rfl
    rw [String.toList_ofList, List.getLast?_concat] at htext
    exact htext rfl
  have hdot : some '.' ≠ some last := by simpa using hlast.symm
  simp only [isName, isStay, bne, hne "" (by simp), hne "." hdot, hne ".." hdot, Bool.or_self,
    Bool.not_false, Bool.and_self]

end Path

namespace Volume

def place (volume : Volume) (path : Path) : Target := ⟨path, volume.lookup path⟩

/-- The plain names that one component leads to, from a place that has to be a folder. -/
def onward (volume : Volume) (path : Path) (component : String) : Except IoError Path :=
  match volume.lookup path with
  | none => .error .notFound
  | some inode =>
    if !volume.isFolder inode then .error .notFolder
    else if Path.isStay component then .ok path
    else if component == ".." then .ok path.dropLast
    else if Path.nameLimit < component.utf8ByteSize then .error .nameTooLong
    else .ok (path ++ [component])

theorem follow_place_cons (volume : Volume) (path : Path) (component : String)
    (rest : List String) : volume.follow (volume.place path) (component :: rest) =
      match volume.onward path component with
      | .error cause => .error cause
      | .ok next => volume.follow (volume.place next) rest := by
  unfold onward
  conv_lhs => rw [follow]
  cases hlookup : volume.lookup path with
  | none => simp only [place, hlookup]
  | some inode =>
    simp only [place, hlookup]
    split
    · rfl
    · split
      · simp only [hlookup]
      · split
        · rfl
        · split <;> rfl

def Reaches (volume : Volume) (path : Path) (components : List String) (last : Path) : Prop :=
  volume.follow (volume.place path) components = .ok (volume.place last)

theorem reaches_nil (volume : Volume) (path last : Path) :
    volume.Reaches path [] last ↔ path = last := by
  unfold Reaches follow place
  constructor
  · intro h
    cases h
    rfl
  · rintro rfl
    rfl

theorem reaches_cons (volume : Volume) (path : Path) (component : String) (rest : List String)
    (last : Path) : volume.Reaches path (component :: rest) last ↔
      ∃ next, volume.onward path component = .ok next ∧ volume.Reaches next rest last := by
  rw [Reaches, follow_place_cons]
  cases volume.onward path component with
  | error cause => simp
  | ok next => simp [Reaches]

theorem reaches_of_follow {volume : Volume} {path : Path} {components : List String}
    {target : Target} (h : volume.follow (volume.place path) components = .ok target) :
    volume.Reaches path components target.path ∧ target.inode = volume.lookup target.path := by
  induction components generalizing path with
  | nil =>
    cases h
    exact ⟨rfl, rfl⟩
  | cons component rest ih =>
    rw [follow_place_cons] at h
    cases hnext : volume.onward path component with
    | error cause =>
      rw [hnext] at h
      cases h
    | ok next =>
      rw [hnext] at h
      obtain ⟨hreaches, hinode⟩ := ih h
      exact ⟨(volume.reaches_cons _ _ _ _).mpr ⟨next, hnext, hreaches⟩, hinode⟩

theorem getLast?_of_reaches {volume : Volume} {path last : Path} {init : List String}
    {component : String} (hname : Path.isName component = true)
    (h : volume.Reaches path (init ++ [component]) last) : last.getLast? = some component := by
  simp only [Path.isName, Bool.and_eq_true, Bool.not_eq_true', bne_iff_ne] at hname
  induction init generalizing path with
  | nil =>
    obtain ⟨next, hnext, hlast⟩ := (volume.reaches_cons _ _ _ _).mp h
    rw [reaches_nil] at hlast
    subst hlast
    unfold onward at hnext
    split at hnext
    · cases hnext
    · rw [hname.1, if_neg Bool.false_ne_true, beq_eq_false_iff_ne.mpr hname.2,
        if_neg Bool.false_ne_true] at hnext
      split at hnext
      · cases hnext
      · split at hnext
        · cases hnext
        · cases hnext
          exact List.getLast?_concat
  | cons first init ih =>
    obtain ⟨next, -, hrest⟩ := (volume.reaches_cons _ _ _ _).mp h
    exact ih hrest

theorem follow_congr {volume volume' : Volume} (hentries : volume'.entries = volume.entries)
    (hfolder : ∀ inode, volume'.isFolder inode = volume.isFolder inode) (target : Target)
    (components : List String) : volume'.follow target components =
      volume.follow target components := by
  have hlookup (path : Path) : volume'.lookup path = volume.lookup path := by
    rw [lookup, hentries, lookup]
  induction components generalizing target with
  | nil => rfl
  | cons component rest ih =>
    unfold follow
    simp only [hlookup, hfolder, ih]

/-- Every name belongs to a file that is there, and no file has two names. -/
structure Proper (volume : Volume) : Prop where
  inode_lt : ∀ path inode, volume.lookup path = some inode → inode < volume.inodes.length
  path_eq : ∀ path path' inode, volume.lookup path = some inode →
    volume.lookup path' = some inode → path = path'

theorem proper_empty (system : FileSystem) : (Volume.empty system).Proper := by
  have hroot (path : Path) (inode : Nat) (h : (Volume.empty system).lookup path = some inode) :
      path = [] ∧ inode = 0 := by
    simp only [lookup, Volume.empty, List.lookup_cons, List.lookup_nil] at h
    split at h
    · next hpath => exact ⟨beq_iff_eq.mp hpath, (Option.some.inj h).symm⟩
    · cases h
  refine ⟨?_, ?_⟩
  · intro path inode h
    rw [(hroot path inode h).2]
    exact Nat.zero_lt_one
  · intro path path' inode h h'
    rw [(hroot path inode h).1, (hroot path' inode h').1]

theorem lookup_add (volume : Volume) (path : Path) (inode : Inode) (other : Path) :
    (volume.add path inode).1.lookup other =
      if other = path then some volume.inodes.length else volume.lookup other := by
  simp only [lookup, add, List.lookup_cons]
  by_cases heq : other = path
  · rw [if_pos heq, heq, beq_self_eq_true]
  · rw [if_neg heq, beq_eq_false_iff_ne.mpr heq]

theorem Proper.add {volume : Volume} (h : volume.Proper) {path : Path} (inode : Inode) :
    (volume.add path inode).1.Proper := by
  have hlength : (volume.add path inode).1.inodes.length = volume.inodes.length + 1 := by
    simp [Volume.add]
  refine ⟨?_, ?_⟩
  · intro other number hlookup
    rw [lookup_add] at hlookup
    split at hlookup
    · cases hlookup
      omega
    · have := h.inode_lt other number hlookup
      omega
  · intro first second number hfirst hsecond
    rw [lookup_add] at hfirst hsecond
    split at hfirst <;> split at hsecond
    · next heq heq' => rw [heq, heq']
    · cases hfirst
      have := h.inode_lt _ _ hsecond
      omega
    · cases hsecond
      have := h.inode_lt _ _ hfirst
      omega
    · exact h.path_eq _ _ _ hfirst hsecond

/-- A file added under a name that was not in use is on the way to no other place. -/
theorem reaches_add {volume : Volume} (h : volume.Proper) {path : Path}
    (hnew : volume.lookup path = none) (body : SparseFile) (permissions : Nat) (first : Path)
    (components : List String) (last : Path) :
    (volume.add path ⟨.regular body, permissions⟩).1.Reaches first components last ↔
      volume.Reaches first components last := by
  have honward (first : Path) (component : String) (next : Path) :
      (volume.add path ⟨.regular body, permissions⟩).1.onward first component = .ok next ↔
        volume.onward first component = .ok next := by
    unfold onward
    rw [lookup_add]
    by_cases heq : first = path
    · have hregular : (volume.add path ⟨.regular body, permissions⟩).1.isFolder
          volume.inodes.length = false := by
        simp [isFolder, content, Volume.add]
      rw [if_pos heq, heq, hnew]
      simp [hregular]
    · rw [if_neg heq]
      cases hlookup : volume.lookup first with
      | none => rfl
      | some inode =>
        have hlt := h.inode_lt first inode hlookup
        have hfolder : (volume.add path ⟨.regular body, permissions⟩).1.isFolder inode =
            volume.isFolder inode := by
          simp only [isFolder, content, Volume.add, List.getElem?_append_left hlt]
        simp only [hfolder]
  induction components generalizing first with
  | nil => rw [reaches_nil, reaches_nil]
  | cons component rest ih => simp only [reaches_cons, honward, ih]

end Volume

end PageTrie
