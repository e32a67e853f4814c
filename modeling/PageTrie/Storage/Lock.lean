import PageTrie.Error

/-! Advisory whole-file locks. An open file holds at most one lock, shared or exclusive, on
its inode; asking for the other kind gives the held one up before the request is looked at,
so a refused conversion ends with no lock. -/
namespace PageTrie

inductive LockKind where
  | shared
  | exclusive
  deriving DecidableEq, Repr

namespace LockKind

def conflicts : LockKind → LockKind → Bool
  | shared, shared => false
  | _, _ => true

end LockKind

/-- A lock that the open file numbered `owner` holds on an inode. -/
structure Grant where
  owner : Nat
  inode : Nat
  kind : LockKind
  deriving DecidableEq, Repr

abbrev LockTable := List Grant

namespace LockTable

def release (table : LockTable) (owner : Nat) : LockTable :=
  table.filter fun grant => grant.owner != owner

def isBlocked (table : LockTable) (request : Grant) : Bool :=
  table.any fun grant =>
    grant.inode == request.inode && grant.owner != request.owner &&
      request.kind.conflicts grant.kind

def request (table : LockTable) (grant : Grant) : Bool × LockTable :=
  if table.contains grant then (true, table)
  else
    let others := release table grant.owner
    if isBlocked others grant then (false, others) else (true, grant :: others)

end LockTable

/-- An open file as the locks see it. One that is open on its path alone cannot be locked. -/
structure Lockable where
  owner : Nat
  inode : Nat
  pathOnly : Bool
  deriving DecidableEq, Repr

namespace Lockable

def acquire (file : Lockable) (kind : LockKind) (path : String) (table : LockTable) :
    Except StoreError Unit × LockTable :=
  if file.pathOnly then (.error (.io .badDescriptor), table)
  else
    match LockTable.request table ⟨file.owner, file.inode, kind⟩ with
    | (true, table') => (.ok (), table')
    | (false, table') => (.error (.locked path), table')

def release (file : Lockable) (table : LockTable) : Except StoreError Unit × LockTable :=
  if file.pathOnly then (.error (.io .badDescriptor), table)
  else (.ok (), LockTable.release table file.owner)

def drop (file : Lockable) (table : LockTable) : LockTable := LockTable.release table file.owner

end Lockable

end PageTrie
