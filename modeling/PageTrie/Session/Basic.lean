import PageTrie.Config
import PageTrie.Directory
import PageTrie.Page.Halves
import PageTrie.Trie

/-! An open store: its two files, the page in memory, the directory, and the position of
the scan. `leafFor` finds the page of a hash by walking the trie that the directory holds. -/
namespace PageTrie

structure ScanPoint where
  block : Nat
  next : Nat
  deriving DecidableEq, Repr

structure Session where
  config : Config
  directory : Directory
  pages : OpenFile
  /-- Whether a call failed on the files since the flag was last cleared. -/
  failed : Bool
  cached : Option (Nat × Page)
  scan : ScanPoint

abbrev SessionM := EStateM StoreError Session

namespace Session

def start (config : Config) (directory pages : OpenFile) : Session where
  config := config
  directory := Directory.ofFile directory
  pages := pages
  failed := false
  cached := none
  scan := ⟨0, 0⟩

def pagesInFile (session : Session) : Nat :=
  (session.pages.length + (pageSize - 1)) / pageSize

def flagging (call : SessionM α) : SessionM α := fun session =>
  match call.run session with
  | .ok a session' => .ok a session'
  | .error cause session' =>
    .error cause (if cause.isIo then { session' with failed := true } else session')

def onDirectory (call : DirectoryM α) : SessionM α := fun session =>
  match call.run session.directory with
  | .ok a directory => .ok a { session with directory }
  | .error cause directory => .error cause { session with directory }

def ofResult : Except StoreError α → SessionM α
  | .ok a => pure a
  | .error cause => throw cause

def cached? (session : Session) (number : Nat) : Option Page :=
  match session.cached with
  | some (n, page) => if n = number then some page else none
  | none => none

def pageOnDisk (session : Session) (number : Nat) : Except StoreError Page :=
  match session.pages.block (number * pageSize) pageSize with
  | .error cause => .error (.io cause)
  | .ok bytes =>
    if (Page.mk bytes).isWellFormed then .ok ⟨bytes⟩ else .error (.corruptPage number)

/-- The page with a number, read unless it is in memory. A page that cannot be read or is
not well formed leaves no page in memory. -/
def pageAt (number : Nat) : SessionM Page := fun session =>
  match session.cached? number with
  | some page => .ok page session
  | none =>
    match session.pageOnDisk number with
    | .ok page => .ok page { session with cached := some (number, page) }
    | .error cause => .error cause { session with cached := none }

def keep (number : Nat) (page : Page) : SessionM Unit :=
  modify fun session => { session with cached := some (number, page) }

def putPage (number : Nat) (page : Page) : SessionM Unit := fun session =>
  match (OpenFile.writeAt (number * pageSize) page.bytes.toList).run session.pages with
  | .ok () pages => .ok () { session with pages }
  | .error cause pages => .error (.io cause) { session with pages }

/-- Walks down from a node while the directory has its bit set; a number at or above the
directory's bound is a leaf without looking. -/
def descend (h : UInt32) (node : TrieNode) : (remaining : Nat) → SessionM TrieNode
  | 0 => pure node
  | remaining + 1 => do
    if node.number < (← get).directory.bound then
      if ← onDirectory (Directory.test node.number) then descend h (node.child h) remaining
      else pure node
    else pure node

def leafFor (h : UInt32) : SessionM (TrieNode × Page) := do
  let leaf ← descend h .root hashWidth
  let page ← pageAt (leaf.page h)
  pure (leaf, page)

end Session

end PageTrie
