import PageTrie.Storage.OpenFile
import PageTrie.Storage.Lock

/-! How a store is opened. -/
namespace PageTrie

inductive OpenMode where
  /-- Existing files, for lookups only. -/
  | readOnly
  /-- Existing files, for lookups and changes. -/
  | readWrite
  /-- As `readWrite`, but missing files are created. -/
  | create
  /-- As `create`, but files that exist are emptied. -/
  | truncate
  deriving DecidableEq, Repr

namespace OpenMode

def isWritable : OpenMode → Bool
  | readOnly => false
  | _ => true

def creates : OpenMode → Bool
  | create | truncate => true
  | _ => false

def name : OpenMode → String
  | readOnly => "ReadOnly"
  | readWrite => "ReadWrite"
  | create => "Create"
  | truncate => "Truncate"

end OpenMode

inductive LockWait where
  | block
  | fail
  deriving DecidableEq, Repr

def LockWait.name : LockWait → String
  | block => "Block"
  | fail => "Fail"

structure Config where
  path : String := "./hashdbm"
  mode : OpenMode := .create
  permissions : Nat := 0o644
  lock : LockWait := .block
  deriving DecidableEq, Repr

namespace Config

def directoryPath (config : Config) : String := config.path ++ ".dir"

def pagePath (config : Config) : String := config.path ++ ".pag"

def isReadOnly (config : Config) : Bool := !config.mode.isWritable

def access (config : Config) : Access := if config.mode.isWritable then .readWrite else .readOnly

/-- Read-only sessions share the page file, the others have it to themselves. -/
def lockKind (config : Config) : LockKind := if config.mode.isWritable then .exclusive else .shared

end Config

end PageTrie
