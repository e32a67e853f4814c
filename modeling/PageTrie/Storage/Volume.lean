import PageTrie.Storage.OpenFile
import PageTrie.Storage.Path

/-! A tree of folders and sparse files. Entries give names to numbered inodes, so a file
that loses its name lives on for those who have it open. -/
namespace PageTrie

structure Inode where
  content : Content
  permissions : Nat

structure Volume where
  inodes : List Inode
  entries : List (Path × Nat)
  system : FileSystem

abbrev VolumeM := EStateM IoError Volume

namespace Volume

/-- Bits that a created file never gets. -/
abbrev creationMask : Nat := 0o022

def maskedPermissions (requested : Nat) : Nat :=
  (requested &&& 0o777) - (requested &&& creationMask)

def empty (system : FileSystem) : Volume := ⟨[⟨.folder, 0o755⟩], [([], 0)], system⟩

instance : Inhabited Volume := ⟨empty default⟩

def content (volume : Volume) (inode : Nat) : Content :=
  match volume.inodes[inode]? with
  | some node => node.content
  | none => .folder

def setContent (volume : Volume) (inode : Nat) (content : Content) : Volume :=
  { volume with inodes := volume.inodes.modify inode fun node => { node with content } }

def lookup (volume : Volume) (path : Path) : Option Nat := volume.entries.lookup path

def isFolder (volume : Volume) (inode : Nat) : Bool :=
  match volume.content inode with
  | .folder => true
  | .regular _ => false

structure Target where
  path : Path
  inode : Option Nat

/-- Follows components from an existing place. Only the last one may be missing. -/
def follow (volume : Volume) (target : Target) : List String → Except IoError Target
  | [] => .ok target
  | component :: rest =>
    match target.inode with
    | none => .error .notFound
    | some inode =>
      if !volume.isFolder inode then .error .notFolder
      else if Path.isStay component then volume.follow target rest
      else if component == ".." then
        let path := target.path.dropLast
        volume.follow ⟨path, volume.lookup path⟩ rest
      else if Path.nameLimit < component.utf8ByteSize then .error .nameTooLong
      else
        let path := target.path ++ [component]
        volume.follow ⟨path, volume.lookup path⟩ rest

def top (volume : Volume) : Target := ⟨[], volume.lookup []⟩

def resolve (volume : Volume) (text : String) : Except IoError Target := do
  volume.follow volume.top (← Path.components text)

def followAbove (volume : Volume) (ending : Path.Ending) : Except IoError Target :=
  volume.follow volume.top (ending.above ++ [""])

/-- Where a path leads that a file may be created at. Slashes behind a name ask for a folder,
whatever is there. -/
def resolveNew (volume : Volume) (text : String) : Except IoError Target := do
  let components ← Path.components text
  let ending := Path.ending components
  if ending.slash then
    let _ ← volume.followAbove ending
    .error .isFolder
  else volume.follow volume.top components

def add (volume : Volume) (path : Path) (inode : Inode) : Volume × Nat :=
  ({ volume with
      inodes := volume.inodes ++ [inode]
      entries := (path, volume.inodes.length) :: volume.entries },
    volume.inodes.length)

def file (volume : Volume) (inode : Nat) (access : Access) : OpenFile :=
  volume.system.file inode access (volume.content inode)

/-- Opens the file at a path text. A missing file is created if `create` gives the
permission bits that it asks for. A folder can be opened for reading only. -/
def openFile (volume : Volume) (text : String) (access : Access) (create : Option Nat) :
    Except IoError (Volume × OpenFile) := do
  let target ← if create.isSome then volume.resolveNew text else volume.resolve text
  match target.inode, create with
  | some inode, _ =>
    if volume.isFolder inode && (access == .readWrite || create.isSome) then .error .isFolder
    else .ok (volume, volume.file inode access)
  | none, some requested =>
    let (volume', inode) :=
      volume.add target.path ⟨.regular SparseFile.empty, maskedPermissions requested⟩
    .ok (volume', volume'.file inode access)
  | none, none => .error .notFound

def makeFolder (volume : Volume) (components : List String) : Except IoError Volume := do
  let ending := Path.ending components
  let above ← volume.followAbove ending
  if !Path.isName ending.last then throw .alreadyExists
  let target ← volume.follow above [ending.last]
  if target.inode.isSome then throw .alreadyExists
  return (volume.add target.path ⟨.folder, 0o755⟩).1

def leadsToFolder (volume : Volume) (components : List String) : Bool :=
  match volume.follow volume.top components with
  | .ok ⟨_, some inode⟩ => volume.isFolder inode
  | _ => false

def ensureFolder (components : List String) : VolumeM Unit := fun volume =>
  match volume.makeFolder components with
  | .ok volume' => .ok () volume'
  | .error cause =>
    if volume.leadsToFolder components then .ok () volume else .error cause volume

def ensureFolders (components : List String) : (above : List String) → VolumeM Unit
  | [] => ensureFolder components
  | last :: above => fun volume =>
    match ensureFolder components volume with
    | .error .notFound volume =>
      (do ensureFolders (last :: above).reverse above; ensureFolder components : VolumeM Unit).run
        volume
    | answer => answer

/-- Makes a folder and the folders above it, where they are missing. Those that were made
stay even if a later one cannot be made. -/
def makeFolders (text : String) : VolumeM Unit := fun volume =>
  if text.isEmpty then .ok () volume
  else
    match Path.components text with
    | .error cause => .error cause volume
    | .ok components => ensureFolders components (Path.movesBack components).tail volume

def unlink (volume : Volume) (text : String) : Except IoError Volume := do
  let target ← volume.resolve text
  match target.inode with
  | none => .error .notFound
  | some inode =>
    if volume.isFolder inode then .error .isFolder
    else .ok { volume with entries := volume.entries.filter fun entry => entry.1 != target.path }

def regular? (volume : Volume) (text : String) : Option SparseFile :=
  match volume.resolve text with
  | .ok ⟨_, some inode⟩ =>
    match volume.content inode with
    | .regular file => some file
    | .folder => none
  | _ => none

def permissions (volume : Volume) (text : String) : Except IoError Nat := do
  let target ← volume.resolve text
  match target.inode.bind (volume.inodes[·]?) with
  | some node => return node.permissions
  | none => throw .notFound

def refresh (volume : Volume) (file : OpenFile) : OpenFile :=
  { file with content := volume.content file.inode, limit := volume.system.limit }

def absorb (volume : Volume) (file : OpenFile) : Volume :=
  volume.setContent file.inode file.content

theorem content_setContent (volume : Volume) (i j : Nat) (content : Content)
    (h : i < volume.inodes.length) :
    (volume.setContent i content).content j = if j = i then content else volume.content j := by
  simp only [Volume.content, setContent, List.getElem?_modify]
  by_cases hj : i = j
  · subst hj
    simp [h]
  · simp [hj, Ne.symm hj]

end Volume

end PageTrie
