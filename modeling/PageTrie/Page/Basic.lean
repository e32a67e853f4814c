import PageTrie.Bytes

/-! A page is a block of 1024 bytes that holds key/value pairs. Word 0 counts the
index slots in use, two for each pair: slot `2p + 1` is the offset of pair `p`'s key and
slot `2p + 2` the offset of its value. Pair bytes grow downward from the end of the page,
so a key ends where the previous value begins and a value ends where its key begins. -/
namespace PageTrie

abbrev pageSize : Nat := 1024

/-- Bytes of key and value together that a store accepts for one pair. -/
abbrev pairLimit : Nat := 1008

structure Pair where
  key : Bytes
  value : Bytes
  deriving DecidableEq, Repr

namespace Pair

def size (pair : Pair) : Nat := pair.key.length + pair.value.length

def footprint (pair : Pair) : Nat := pair.size + 4

end Pair

structure Page where
  bytes : Buffer pageSize
  deriving DecidableEq

/-- Where a pair lies: its value from `valueStart` to `keyStart`, its key on to `keyEnd`. -/
structure Extent where
  valueStart : Nat
  keyStart : Nat
  keyEnd : Nat
  deriving DecidableEq, Repr

namespace Page

def empty : Page := ⟨Buffer.zeros pageSize⟩

instance : Inhabited Page := ⟨empty⟩

def slot (page : Page) (i : Nat) : Nat := page.bytes.word i

def setSlot (page : Page) (i value : Nat) : Page := ⟨page.bytes.setWord i value⟩

def slotsUsed (page : Page) : Nat := page.slot 0

def size (page : Page) : Nat := page.slotsUsed / 2

def isEmpty (page : Page) : Bool := page.slotsUsed == 0

def indexEnd (page : Page) : Nat := (page.slotsUsed + 1) * 2

/-- Offset of the lowest pair byte; 0, which leaves no room, if the count or the last
offset is bogus. -/
def dataFloor (page : Page) : Nat :=
  if page.slotsUsed = 0 then pageSize
  else if pageSize < page.indexEnd then 0
  else if pageSize < page.slot page.slotsUsed then 0
  else page.slot page.slotsUsed

def room (page : Page) : Nat := page.dataFloor - page.indexEnd

/-- Whether a pair of `need` bytes and its two slots fit; the sum is taken in 64 bits. -/
def hasRoom (page : Page) (need : Nat) : Bool := (need + 4) % counterRange ≤ page.room

def extent? (page : Page) (p : Nat) : Option Extent :=
  if page.size ≤ p ∨ pageSize < (2 * p + 3) * 2 then none
  else
    let keyEnd := if p = 0 then pageSize else page.slot (2 * p)
    let keyStart := page.slot (2 * p + 1)
    let valueStart := page.slot (2 * p + 2)
    if valueStart ≤ keyStart ∧ keyStart ≤ keyEnd ∧ keyEnd ≤ pageSize then
      some ⟨valueStart, keyStart, keyEnd⟩
    else none

def cut (page : Page) (extent : Extent) : Pair where
  key := page.bytes.slice extent.keyStart extent.keyEnd
  value := page.bytes.slice extent.valueStart extent.keyStart

def pair? (page : Page) (p : Nat) : Option Pair := (page.extent? p).map page.cut

def key? (page : Page) (p : Nat) : Option Bytes := (page.pair? p).map (·.key)

def indexOf? (page : Page) (key : Bytes) : Option Nat :=
  (List.range page.size).find? fun p => page.key? p == some key

def get? (page : Page) (key : Bytes) : Option Bytes := do
  let p ← page.indexOf? key
  let pair ← page.pair? p
  pure pair.value

def contains (page : Page) (key : Bytes) : Bool := (page.indexOf? key).isSome

def listFrom (page : Page) (p : Nat) : (count : Nat) → List Pair
  | 0 => []
  | count + 1 =>
    match page.pair? p with
    | none => []
    | some pair => pair :: page.listFrom (p + 1) count

/-- The pairs in order of insertion, up to the first that is out of order. -/
def toList (page : Page) : List Pair := page.listFrom 0 page.size

def remaining (page : Page) (p : Nat) : Nat := page.size - p

def offsets (page : Page) : List (Nat × Nat) :=
  (List.range page.size).map fun p => (page.slot (2 * p + 1), page.slot (2 * p + 2))

def lowest? (top : Nat) : List (Nat × Nat) → Option Nat
  | [] => some top
  | (keyStart, valueStart) :: rest =>
    if keyStart ≤ top ∧ valueStart ≤ keyStart then lowest? valueStart rest else none

/-- The count is even and leaves space for the index, and the offsets go down from the end
of the page without reaching into the index. -/
def isWellFormed (page : Page) : Bool :=
  page.slotsUsed % 2 == 0 && decide (page.indexEnd ≤ pageSize) &&
    match lowest? pageSize page.offsets with
    | some low => page.indexEnd ≤ low
    | none => false

def summary (page : Page) : String :=
  s!"Page \x7b pairs: {page.size}, free: {page.room} \x7d"

@[simp] theorem slotsUsed_empty : empty.slotsUsed = 0 := by
  simp [slotsUsed, slot, empty, Buffer.word]

@[simp] theorem room_empty : empty.room = 1022 := by
  simp [room, dataFloor, indexEnd, pageSize]

@[simp] theorem isWellFormed_empty : empty.isWellFormed = true := by
  simp [isWellFormed, offsets, size, indexEnd, lowest?, pageSize]

theorem slot_lt (page : Page) (i : Nat) : page.slot i < 65536 := Buffer.word_lt _ _

theorem slot_setSlot (page : Page) (i value j : Nat) (h : 2 * i + 1 < pageSize) :
    (page.setSlot i value).slot j = if j = i then value % 65536 else page.slot j :=
  Buffer.word_setWord _ _ _ _ h

end Page

end PageTrie
