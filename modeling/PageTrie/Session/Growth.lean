import PageTrie.Session.Basic

/-! Growing the trie at the leaf of a hash: the leaf is split with the next hash bit, the
half that the hash does not go to is written out, and the other half is split again until
it has room for the pending pair. -/
namespace PageTrie.Session

abbrev splitBudget : Nat := 10

def splitLeaf (h : UInt32) (leaf : TrieNode) (page : Page) : SessionM Page := do
  let halves ← ofResult (page.divide leaf.splitBit)
  let (kept, away) :=
    if h.toNat.testBit leaf.depth then (halves.moved, halves.stay)
    else (halves.stay, halves.moved)
  putPage (leaf.siblingPage h) away
  keep ((leaf.child h).page h) kept
  onDirectory (Directory.set leaf.number)
  pure kept

/-- Splits until there is room for `need` bytes, within a budget and as long as hash bits
are left. A half that is still too full is written before it is split in turn. -/
def growWithin (h : UInt32) (need : Nat) (leaf : TrieNode) (page : Page) :
    (budget : Nat) → SessionM (TrieNode × Page)
  | 0 => throw (.cannotMakeRoom splitBudget)
  | budget + 1 => do
    if leaf.depth = hashWidth then throw (.cannotMakeRoom splitBudget)
    let kept ← splitLeaf h leaf page
    let below := leaf.child h
    if kept.hasRoom need then pure (below, kept)
    else
      putPage (below.page h) kept
      growWithin h need below kept budget

/-- A leaf for the hash whose page has room for `need` bytes. A failure leaves no page in
memory, so that the next call reads from the file. -/
def grow (h : UInt32) (need : Nat) (leaf : TrieNode) (page : Page) :
    SessionM (TrieNode × Page) := fun session =>
  match (growWithin h need leaf page splitBudget).run session with
  | .ok found session' => .ok found session'
  | .error cause session' => .error cause { session' with cached := none }

end PageTrie.Session
