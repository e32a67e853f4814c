import PageTrie.Session.Growth

/-! Storing, looking up and deleting pairs. Every change is written before the call
returns. -/
namespace PageTrie

inductive PutMode where
  | insert
  | replace
  deriving DecidableEq, Repr

inductive PutResult where
  | stored
  | exists
  deriving DecidableEq, Repr

namespace Session

def requireKey (key : Bytes) : SessionM Unit :=
  if key.isEmpty then throw (.invalidArgument "empty key") else pure ()

def requireWritable : SessionM Unit := do
  if (← get).config.isReadOnly then throw .readOnly

def place (h : UInt32) (pair : Pair) (leaf : TrieNode) (page : Page) : SessionM Unit := do
  let (leaf, page) ←
    if page.hasRoom pair.size then pure (leaf, page) else grow h pair.size leaf page
  let page ← ofResult (page.insert pair)
  keep (leaf.page h) page
  putPage (leaf.page h) page

/-- Stores a pair. Replacing erases the old pair in memory before room is looked for. -/
def put (pair : Pair) (mode : PutMode) : SessionM PutResult := do
  let h := keyHash pair.key
  let (leaf, page) ← leafFor h
  match mode with
  | .insert =>
    if page.contains pair.key then pure .exists
    else
      place h pair leaf page
      pure .stored
  | .replace =>
    let page := (page.erase? pair.key).getD page
    keep (leaf.page h) page
    place h pair leaf page
    pure .stored

def store (pair : Pair) (mode : PutMode) : SessionM PutResult := do
  requireKey pair.key
  requireWritable
  if pairLimit < pair.size then throw (.pairTooLarge pair.size pairLimit)
  flagging (put pair mode)

def fetch (key : Bytes) : SessionM (Option Bytes) := do
  requireKey key
  let (_, page) ← flagging (leafFor (keyHash key))
  pure (page.get? key)

def contains (key : Bytes) : SessionM Bool := do
  pure (← fetch key).isSome

def erase (key : Bytes) : SessionM Bool := do
  let h := keyHash key
  let (leaf, page) ← leafFor h
  match page.erase? key with
  | none => pure false
  | some page =>
    keep (leaf.page h) page
    putPage (leaf.page h) page
    pure true

def delete (key : Bytes) : SessionM Bool := do
  requireKey key
  requireWritable
  flagging (erase key)

end Session

end PageTrie
