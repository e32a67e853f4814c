import PageTrie.Session.Basic

/-! The scan goes through the page file block by block, without the trie, and ends at the
end of the file. Holes read as empty pages and are passed over; a block that is not well
formed stops the scan. -/
namespace PageTrie.Session

def nextWithin : (remaining : Nat) → SessionM (Option Bytes)
  | 0 => pure none
  | remaining + 1 => do
    let point := (← get).scan
    let page ← pageAt point.block
    if point.next < page.size then
      modify fun session => { session with scan := { point with next := point.next + 1 } }
      pure (page.key? point.next)
    else
      modify fun session => { session with scan := ⟨point.block + 1, 0⟩ }
      nextWithin remaining

def nextKey : SessionM (Option Bytes) :=
  flagging do
    let session ← get
    nextWithin (session.pagesInFile - session.scan.block)

def firstKey : SessionM (Option Bytes) := do
  modify fun session => { session with scan := ⟨0, 0⟩ }
  nextKey

/-- A pass over all keys: it starts the scan over once, and ends for good at the end of the
scan or at a failure. -/
structure KeyStream where
  started : Bool
  done : Bool
  deriving DecidableEq, Repr

namespace KeyStream

def fresh : KeyStream := ⟨false, false⟩

def next (stream : KeyStream) (session : Session) :
    Option (Except StoreError Bytes) × KeyStream × Session :=
  if stream.done then (none, stream, session)
  else
    match (if stream.started then nextKey else firstKey).run session with
    | .ok (some key) session' => (some (.ok key), ⟨true, false⟩, session')
    | .ok none session' => (none, ⟨true, true⟩, session')
    | .error cause session' => (some (.error cause), ⟨true, true⟩, session')

def take (stream : KeyStream) (session : Session) :
    (limit : Nat) → List (Except StoreError Bytes) × KeyStream × Session
  | 0 => ([], stream, session)
  | limit + 1 =>
    match stream.next session with
    | (none, stream', session') => ([], stream', session')
    | (some item, stream', session') =>
      let (items, stream'', session'') := stream'.take session' limit
      (item :: items, stream'', session'')

end KeyStream

/-- More items than a pass can have: no page holds 256 pairs. -/
def keyBound (session : Session) : Nat := session.pagesInFile * 256 + 1

def allKeys (session : Session) : List (Except StoreError Bytes) × Session :=
  let (items, _, session') := KeyStream.fresh.take session session.keyBound
  (items, session')

end PageTrie.Session
