import PageTrie.CommandLine.Arguments
import PageTrie.Host
import PageTrie.Text.LossyUtf8
import PageTrie.Text.Visible

/-! What each command prints and how it ends. A run opens the store, carries out one
command and closes the store again. -/
namespace PageTrie.CommandLine

def version : String := "0.1.0"

/-- What a run leaves behind: its exit status, both outputs, and its log records. -/
structure Report where
  status : Nat
  out : String
  err : String
  log : List String
  deriving DecidableEq, Repr

namespace Report

def success (out : String) : Report := ⟨0, out, "", []⟩

def miss (err : String) : Report := ⟨2, "", err, []⟩

def failure (out message : String) : Report := ⟨1, out, "", ["ERROR " ++ Visible.text message]⟩

end Report

def Invocation.config (invocation : Invocation) : Config where
  path := invocation.db
  mode := match invocation.command with
    | .put .. | .del _ => .create
    | _ => .readOnly
  lock := if invocation.noWait then .fail else .block

def line (text : Bytes) : String := LossyUtf8.decode text ++ "\n"

def reportOf (call : SessionM α) (report : α → Report) (session : Session) : Report × Session :=
  match call.run session with
  | .ok a session' => (report a, session')
  | .error cause session' => (.failure "" cause.message, session')

def get (key : String) : Session → Report × Session :=
  reportOf (Session.fetch (LossyUtf8.encode key)) fun
    | some value => .success (line value)
    | none => .miss "(not found)\n"

def put (key value : String) (replace : Bool) : Session → Report × Session :=
  let pair : Pair := ⟨LossyUtf8.encode key, LossyUtf8.encode value⟩
  reportOf (Session.store pair (if replace then .replace else .insert)) fun
    | .stored => .success ""
    | .exists => .miss "key exists (use --replace to overwrite)\n"

def del (key : String) : Session → Report × Session :=
  reportOf (Session.delete (LossyUtf8.encode key)) fun removed =>
    if removed then .success "" else .miss "(not found)\n"

def printKeys (out : String) : List (Except StoreError Bytes) → Report
  | [] => .success out
  | .ok key :: rest => printKeys (out ++ line key) rest
  | .error cause :: _ => .failure out cause.message

def keys (session : Session) : Report × Session :=
  let (items, session') := session.allKeys
  (printKeys "" items, session')

def printPairs (out : String) (session : Session) : List Bytes → Report × Session
  | [] => (.success out, session)
  | key :: rest =>
    match (Session.fetch key).run session with
    | .ok (some value) session' =>
      printPairs (out ++ LossyUtf8.decode key ++ "\t" ++ line value) session' rest
    | .ok none session' => printPairs out session' rest
    | .error cause session' => (.failure out cause.message, session')

def dump (session : Session) : Report × Session :=
  let (items, session') := session.allKeys
  match items.mapM id with
  | .ok keys => printPairs "" session' keys
  | .error cause => (.failure "" cause.message, session')

def statistics (session : Session) (pairs bits : Nat) : String :=
  s!"pairs:          {pairs}\n" ++
  s!"pages:          {session.pagesInFile}\n" ++
  s!"directory bits: {bits}\n" ++
  s!"open mode:      {session.config.mode.name}\n" ++
  s!"lock:           {session.config.lock.name}\n" ++
  s!"version:        {version}\n"

def stat (session : Session) : Report × Session :=
  let (items, scanned) := session.allKeys
  match items.mapM id with
  | .error cause => (.failure "" cause.message, scanned)
  | .ok keys =>
    match Session.countBits.run scanned with
    | .ok bits counted => (.success (statistics counted keys.length bits), counted)
    | .error cause counted =>
      let printed := s!"pairs:          {keys.length}\n" ++ s!"pages:          {counted.pagesInFile}\n"
      (.failure printed cause.message, counted)

def Command.perform : Command → Session → Report × Session
  | .get key => CommandLine.get key
  | .put key value replace => CommandLine.put key value replace
  | .del key => CommandLine.del key
  | .keys => CommandLine.keys
  | .dump => CommandLine.dump
  | .stat => CommandLine.stat

def Invocation.run (invocation : Invocation) (host : Host) : Report × Host :=
  match (Host.openStore invocation.config).run host with
  | .error cause host =>
    (.failure "" (s!"Failed to open store {invocation.db}: " ++ cause.message), host)
  | .ok handle host =>
    let (report, session) := invocation.command.perform (host.refreshed handle)
    (report, Host.release handle (host.absorbed session))

def versionLine : String := "hashdbm-cli " ++ version ++ "\n"

def usage : String :=
  "Usage: hashdbm-cli [--db DB] [--no-wait] COMMAND\n" ++
  "Commands: get KEY, put KEY VALUE [--replace], del KEY, keys, dump, stat\n"

end PageTrie.CommandLine
