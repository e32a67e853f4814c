import PageTrie.Hash

/-! The binary trie over hash bits, lowest bit first. Nodes are numbered breadth first, so
the children of node `i` are `2i + 1` and `2i + 2`. A node that is split has children; a
node that is not is a leaf, and the page of a leaf is the hash masked to its depth. -/
namespace PageTrie

/-- A place in the trie on the way of some hash. -/
structure TrieNode where
  number : Nat
  depth : Nat
  deriving DecidableEq, Repr

namespace TrieNode

def root : TrieNode := ⟨0, 0⟩

def child (node : TrieNode) (h : UInt32) : TrieNode where
  number := 2 * node.number + if h.toNat.testBit node.depth then 2 else 1
  depth := node.depth + 1

def page (node : TrieNode) (h : UInt32) : Nat := (h &&& lowMask node.depth).toNat

def splitBit (node : TrieNode) : UInt32 := UInt32.ofNat (1 <<< node.depth)

def siblingPage (node : TrieNode) (h : UInt32) : Nat :=
  if h.toNat.testBit node.depth then node.page h else node.page h + 1 <<< node.depth

def onPath (h : UInt32) : (depth : Nat) → TrieNode
  | 0 => root
  | depth + 1 => (onPath h depth).child h

/-- Walks down while the node met is split, at most `remaining` levels. -/
def walk (isSplit : Nat → Bool) (h : UInt32) (node : TrieNode) : (remaining : Nat) → TrieNode
  | 0 => node
  | remaining + 1 =>
    if isSplit node.number then walk isSplit h (node.child h) remaining else node

def leaf (isSplit : Nat → Bool) (h : UInt32) : TrieNode := walk isSplit h root hashWidth

@[simp] theorem depth_onPath (h : UInt32) (depth : Nat) : (onPath h depth).depth = depth := by
  induction depth with
  | zero => rfl
  | succ depth ih => simp [onPath, child, ih]

theorem page_eq_mod (node : TrieNode) (h : UInt32) (hd : node.depth ≤ hashWidth) :
    node.page h = h.toNat % 1 <<< node.depth := toNat_and_lowMask h node.depth hd

end TrieNode

end PageTrie
