import PageTrie.Session.Pairs
import PageTrie.Session.Scan

/-! The calls that a session answers, as data, and runs of calls. -/
namespace PageTrie

inductive Call where
  | store (pair : Pair) (mode : PutMode)
  | fetch (key : Bytes)
  | contains (key : Bytes)
  | delete (key : Bytes)
  | firstKey
  | nextKey
  | keys (limit : Nat)
  | countBits
  /-- The system may fail to bring either file to the disk. -/
  | sync (directory pages : Option IoError)
  | clearError
  deriving DecidableEq, Repr

inductive Reply where
  | status (status : PutResult)
  | value (value : Option Bytes)
  | found (found : Bool)
  | key (key : Option Bytes)
  | keys (items : List (Except StoreError Bytes)) (ended : Bool)
  | count (count : Nat)
  | done

namespace Session

def countBits : SessionM Nat := flagging (onDirectory Directory.count)

/-- Brings both files to the disk, the directory first. Every change is written already. -/
def sync (directory pages : Option IoError) : SessionM Unit :=
  flagging do
    onDirectory (Directory.sync directory)
    ofResult ((OpenFile.synced pages).mapError .io)

def clearError : SessionM Unit := modify fun session => { session with failed := false }

/-- Up to `limit` items of a fresh pass over the keys, and whether it ended before. -/
def keys (limit : Nat) : SessionM (List (Except StoreError Bytes) × Bool) := fun session =>
  let (items, _, session') := KeyStream.fresh.take session limit
  .ok (items, decide (items.length < limit)) session'

def perform : Call → SessionM Reply
  | .store pair mode => Reply.status <$> store pair mode
  | .fetch key => Reply.value <$> fetch key
  | .contains key => Reply.found <$> contains key
  | .delete key => Reply.found <$> delete key
  | .firstKey => Reply.key <$> firstKey
  | .nextKey => Reply.key <$> nextKey
  | .keys limit => (fun (items, ended) => Reply.keys items ended) <$> keys limit
  | .countBits => Reply.count <$> countBits
  | .sync directory pages => (fun _ => Reply.done) <$> sync directory pages
  | .clearError => (fun _ => Reply.done) <$> clearError

def step (session : Session) (call : Call) : Except StoreError Reply × Session :=
  match (perform call).run session with
  | .ok reply session' => (.ok reply, session')
  | .error cause session' => (.error cause, session')

def run (session : Session) (calls : List Call) : Session :=
  calls.foldl (fun session call => (session.step call).2) session

@[simp] theorem run_nil (session : Session) : session.run [] = session := rfl

@[simp] theorem run_cons (session : Session) (call : Call) (calls : List Call) :
    session.run (call :: calls) = (session.step call).2.run calls := rfl

end Session

end PageTrie
