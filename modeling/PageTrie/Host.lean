import PageTrie.Session.Call
import PageTrie.Storage.Volume

/-! Stores opened side by side on one volume. Sessions that share a file see each other's
writes, and the locks decide which of them may be open together. -/
namespace PageTrie

structure Handle where
  session : Session
  lockable : Lockable

structure Host where
  volume : Volume
  locks : LockTable
  handles : List (Nat × Handle)
  nextOwner : Nat

abbrev HostM := EStateM StoreError Host

namespace Host

def empty (system : FileSystem) : Host := ⟨Volume.empty system, [], [], 0⟩

instance : Inhabited Host := ⟨empty default⟩

def openFile (path : String) (config : Config) : HostM OpenFile := fun host =>
  let create := if config.mode.creates then some config.permissions else none
  match host.volume.openFile path config.access create with
  | .ok (volume, file) => .ok file { host with volume }
  | .error cause => .error (.io cause) host

/-- Takes the lock that the configuration asks for on an open page file. Nothing happens
while a request waits, so one that would wait is refused like the others. -/
def lock (config : Config) (pages : OpenFile) : HostM Lockable := fun host =>
  let file : Lockable := ⟨host.nextOwner, pages.inode, false⟩
  let host := { host with nextOwner := host.nextOwner + 1 }
  match file.acquire config.lockKind config.pagePath host.locks with
  | (.ok (), locks) => .ok file { host with locks }
  | (.error cause, locks) => .error cause { host with locks }

def emptyFile (file : OpenFile) : HostM Unit :=
  modify fun host => { host with volume := host.volume.absorb ((host.volume.refresh file).resize 0) }

/-- Opens a store: both files first, then the lock, and only then are files emptied. -/
def openStore (config : Config) : HostM Handle := do
  if config.path.isEmpty then throw (.invalidArgument "empty store name")
  let directory ← openFile config.directoryPath config
  let pages ← openFile config.pagePath config
  let lockable ← lock config pages
  if config.mode = .truncate then
    emptyFile directory
    emptyFile pages
  let volume := (← get).volume
  pure ⟨.start config (volume.refresh directory) (volume.refresh pages), lockable⟩

def release (handle : Handle) (host : Host) : Host :=
  { host with locks := handle.lockable.drop host.locks }

def refreshed (host : Host) (handle : Handle) : Session :=
  let session := handle.session
  { session with
    directory := { session.directory with file := host.volume.refresh session.directory.file }
    pages := host.volume.refresh session.pages }

def absorbed (host : Host) (session : Session) : Host :=
  { host with volume := (host.volume.absorb session.directory.file).absorb session.pages }

def runOn (handle : Handle) (call : SessionM α) (host : Host) :
    Except StoreError α × Handle × Host :=
  match call.run (host.refreshed handle) with
  | .ok a session => (.ok a, { handle with session }, host.absorbed session)
  | .error cause session => (.error cause, { handle with session }, host.absorbed session)

def handle? (host : Host) (slot : Nat) : Option Handle := host.handles.lookup slot

def clearSlot (host : Host) (slot : Nat) : Host :=
  { host with handles := host.handles.filter fun entry => entry.1 != slot }

def setSlot (host : Host) (slot : Nat) (handle : Handle) : Host :=
  { host with handles := (slot, handle) :: (host.clearSlot slot).handles }

def closeSlot (host : Host) (slot : Nat) : Bool × Host :=
  match host.handle? slot with
  | some handle => (true, (release handle host).clearSlot slot)
  | none => (false, host)

/-- Opens a store in a slot, closing the one that was there even if the new one cannot be
opened. -/
def openSlot (host : Host) (slot : Nat) (config : Config) : Except StoreError Unit × Host :=
  let host := (host.closeSlot slot).2
  match (openStore config).run host with
  | .ok handle host => (.ok (), host.setSlot slot handle)
  | .error cause host => (.error cause, host)

def call (host : Host) (slot : Nat) (call : Call) : Option (Except StoreError Reply) × Host :=
  match host.handle? slot with
  | none => (none, host)
  | some handle =>
    let (result, handle, host) := runOn handle (Session.perform call) host
    (some result, host.setSlot slot handle)

end Host

end PageTrie
