import PageTrie.Bytes

/-! Reading bytes as UTF-8 text where they may not be. Every longest run that begins a
character but does not finish it becomes one replacement character, and so does every byte
that begins none. -/
namespace PageTrie.LossyUtf8

def isContinuation (b : UInt8) : Bool := 0x80 ≤ b && b ≤ 0xBF

def secondRange (first : UInt8) : UInt8 × UInt8 :=
  if first = 0xE0 then (0xA0, 0xBF)
  else if first = 0xED then (0x80, 0x9F)
  else if first = 0xF0 then (0x90, 0xBF)
  else if first = 0xF4 then (0x80, 0x8F)
  else (0x80, 0xBF)

def expectedLength (first : UInt8) : Nat :=
  if 0xC2 ≤ first && first ≤ 0xDF then 2
  else if 0xE0 ≤ first && first ≤ 0xEF then 3
  else if 0xF0 ≤ first && first ≤ 0xF4 then 4
  else 1

/-- How many bytes at the front of an undecodable text one replacement character stands
for. -/
def brokenLength : Bytes → Nat
  | [] => 0
  | first :: rest =>
    match rest with
    | [] => 1
    | second :: rest =>
      let (lo, hi) := secondRange first
      if expectedLength first ≤ 1 || !(lo ≤ second && second ≤ hi) then 1
      else 2 + ((rest.take (expectedLength first - 3)).takeWhile isContinuation).length

def first (bs : Bytes) : Char × Nat :=
  match (bs.take 4).toByteArray.utf8DecodeChar? 0 with
  | some c => (c, c.utf8Size)
  | none => ('\uFFFD', brokenLength bs)

def decodeUpTo (bs : Bytes) : (count : Nat) → List Char
  | 0 => []
  | count + 1 =>
    if bs.isEmpty then []
    else
      let (c, n) := first bs
      c :: decodeUpTo (bs.drop n) count

/-- The text of a byte string; it has no more characters than bytes. -/
def decode (bs : Bytes) : String := String.ofList (decodeUpTo bs bs.length)

def encode (text : String) : Bytes := text.toUTF8.toList

end PageTrie.LossyUtf8
