import PageTrie.Proofs.Storage.Opening

/-! What opening does to a volume. It may add files, but every name goes on leading where it
led, and every file goes on holding what it held. -/
namespace PageTrie

theorem Path.plain_of_last {text : String} {front : List Char} {last : Char}
    (htext : text.toList = front ++ [last]) (hlast : last ≠ '/') (components : List String)
    (hcomponents : Path.components text = .ok components) :
    (Path.ending components).slash = false := by
  obtain ⟨init, component, rfl⟩ := components_append_singleton htext hlast hcomponents
  simp [ending]

namespace Volume

theorem Leads.unique {volume : Volume} {text : String} {inode inode' : Nat}
    (h : volume.Leads text inode) (h' : volume.Leads text inode') : inode = inode' := by
  obtain ⟨path, hnames, hlookup⟩ := h.resolve_eq
  obtain ⟨path', hnames', hlookup'⟩ := h'.resolve_eq
  have hplace := (resolve_of_names hnames).symm.trans (resolve_of_names hnames')
  have hpath : path = path' := congrArg Target.path (Except.ok.inj hplace)
  rw [hpath, hlookup', Option.some.injEq] at hlookup
  exact hlookup.symm

/-- One volume has all that another has. -/
structure Extends (volume volume' : Volume) : Prop where
  leads : ∀ text inode, volume.Leads text inode → volume'.Leads text inode
  content_eq : ∀ inode < volume.inodes.length, volume'.content inode = volume.content inode
  length_le : volume.inodes.length ≤ volume'.inodes.length
  system_eq : volume'.system = volume.system

theorem Extends.refl (volume : Volume) : volume.Extends volume :=
  ⟨fun _ _ => id, fun _ _ => rfl, Nat.le_refl _, rfl⟩

theorem Extends.trans {first second third : Volume} (h : first.Extends second)
    (h' : second.Extends third) : first.Extends third where
  leads text inode hleads := h'.leads text inode (h.leads text inode hleads)
  content_eq inode hinode :=
    (h'.content_eq inode (hinode.trans_le h.length_le)).trans (h.content_eq inode hinode)
  length_le := h.length_le.trans h'.length_le
  system_eq := h'.system_eq.trans h.system_eq

section Created

variable {volume volume' : Volume} {text : String} {inode : Nat}
  (h : volume.Created text volume' inode) (hproper : volume.Proper)
include h hproper

theorem Created.extends : volume.Extends volume' where
  leads _ _ := h.leads_other hproper
  content_eq _ := h.content_eq
  length_le := by
    cases h with
    | found => exact Nat.le_refl _
    | made => simp [Volume.add]
  system_eq := by cases h <;> rfl

/-- A file made under one name is not found under another. -/
theorem Created.leads_of_other {other : String} {inode' : Nat}
    (hapart : ∀ path path', volume.Names text path → volume.Names other path' → path' ≠ path)
    (hleads : volume'.Leads other inode') : volume.Leads other inode' := by
  obtain ⟨⟨path, hnames, hlookup⟩, hplain⟩ := hleads
  have hnames' := (h.names_iff hproper other path).mp hnames
  refine ⟨⟨path, hnames', ?_⟩, hplain⟩
  cases h with
  | found => exact hlookup
  | made requested names lookup_eq =>
    rwa [lookup_add, if_neg (hapart _ _ names hnames')] at hlookup

end Created

theorem openFile_created {volume volume' : Volume} {text : String} {create : Option Nat}
    {access : Access} {file : OpenFile}
    (hplain : ∀ components, Path.components text = .ok components →
      (Path.ending components).slash = false)
    (hregular : ∀ inode, volume.Leads text inode → volume.isFolder inode = false)
    (h : volume.openFile text access create = .ok (volume', file)) :
    volume.Created text volume' file.inode ∧
      file = volume'.file file.inode access := by
  cases create with
  | some requested =>
    have hcreated := openFile_create h
    exact ⟨hcreated.1, hcreated.2.1⟩
  | none =>
    unfold openFile at h
    change (volume.resolve text >>= _) = _ at h
    cases hresolve : volume.resolve text with
    | error cause =>
      rw [hresolve] at h
      cases h
    | ok target =>
      obtain ⟨path, inode⟩ := target
      have hnames := names_of_resolve hresolve
      rw [hresolve] at h
      cases inode with
      | none => cases h
      | some inode =>
        have hfile := hregular inode ⟨⟨path, hnames.1, hnames.2.symm⟩, hplain⟩
        change (if (volume.isFolder inode && _) = true then _ else _) = _ at h
        rw [hfile, Bool.false_and, if_neg Bool.false_ne_true] at h
        cases h
        exact ⟨.found hnames.1 hnames.2.symm hfile, rfl⟩

theorem absorb_eq_self {volume : Volume} {file : OpenFile}
    (hcontent : file.content = volume.content file.inode) : volume.absorb file = volume := by
  have hinodes : (volume.inodes.modify file.inode fun node =>
      { node with content := file.content }) = volume.inodes := by
    ext i node
    rw [List.getElem?_modify]
    by_cases hi : file.inode = i
    · cases hnode : volume.inodes[i]? with
      | none => simp
      | some node' => simp [hi, hcontent, content, hnode]
    · simp [hi]
  rw [absorb, setContent, hinodes]

end Volume

end PageTrie
