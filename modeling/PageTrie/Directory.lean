import PageTrie.Storage.OpenFile

/-! The directory is a file of bits, one for each trie node, set where the node is split.
It grows in blocks of 4096 bytes. One block is kept in memory; setting a bit writes its
block straight back. -/
namespace PageTrie

abbrev bitBlockSize : Nat := 4096

abbrev bitsInBlock : Nat := bitBlockSize * 8

structure Directory where
  file : OpenFile
  cached : Option (Nat × Buffer bitBlockSize)
  /-- Bits below this bound lie within the file. -/
  bound : Nat

abbrev DirectoryM := EStateM StoreError Directory

structure BitPlace where
  block : Nat
  byte : Nat
  bit : Nat
  deriving DecidableEq, Repr

namespace BitPlace

def ofBit (bit : Nat) : BitPlace where
  block := bit / 8 / bitBlockSize
  byte := bit / 8 % bitBlockSize
  bit := bit % 8

def isSetIn (place : BitPlace) (block : Buffer bitBlockSize) : Bool :=
  (Buffer.byte block place.byte).toNat.testBit place.bit

def setIn (place : BitPlace) (block : Buffer bitBlockSize) : Buffer bitBlockSize :=
  block.setIfInBounds place.byte
    (Buffer.byte block place.byte ||| UInt8.ofNat (1 <<< place.bit))

end BitPlace

namespace Directory

/-- An empty file is all zeros, so its block 0 is known without reading. -/
def ofFile (file : OpenFile) : Directory where
  file := file
  cached := if file.length = 0 then some (0, Buffer.zeros bitBlockSize) else none
  bound := file.length * 8 % counterRange

def cached? (directory : Directory) (number : Nat) : Option (Buffer bitBlockSize) :=
  match directory.cached with
  | some (n, block) => if n = number then some block else none
  | none => none

def blockOnDisk (directory : Directory) (number : Nat) :
    Except StoreError (Buffer bitBlockSize) :=
  (directory.file.block (number * bitBlockSize) bitBlockSize).mapError .io

/-- The block with a number, read unless it is in memory. A failed read leaves no block in
memory. -/
def blockAt (number : Nat) : DirectoryM (Buffer bitBlockSize) := fun directory =>
  match directory.cached? number with
  | some block => .ok block directory
  | none =>
    match directory.blockOnDisk number with
    | .ok block => .ok block { directory with cached := some (number, block) }
    | .error cause => .error cause { directory with cached := none }

def test (bit : Nat) : DirectoryM Bool := do
  let place := BitPlace.ofBit bit
  pure (place.isSetIn (← blockAt place.block))

/-- The bound once a bit is set: the end of the bit's block, in 64-bit arithmetic, if the
bit lies past the bound so far. -/
def raisedBound (bound bit : Nat) : Nat :=
  if bound ≤ bit then ((BitPlace.ofBit bit).block + 1) * bitsInBlock % counterRange else bound

def putBlock (number : Nat) (block : Buffer bitBlockSize) : DirectoryM Unit := fun directory =>
  let changed := { directory with cached := some (number, block) }
  match (OpenFile.writeAt (number * bitBlockSize) block.toList).run directory.file with
  | .ok () file => .ok () { changed with file }
  | .error cause file => .error (.io cause) { changed with file }

def set (bit : Nat) : DirectoryM Unit := do
  let place := BitPlace.ofBit bit
  let block ← blockAt place.block
  modify fun directory => { directory with bound := raisedBound directory.bound bit }
  putBlock place.block (place.setIn block)

def sync (failure : Option IoError) : DirectoryM Unit :=
  match OpenFile.synced failure with
  | .ok () => pure ()
  | .error cause => throw (.io cause)

def onesIn (b : UInt8) : Nat := (List.range 8).countP b.toNat.testBit

def onesOf (block : Buffer bitBlockSize) : Nat :=
  block.toList.foldl (fun total b => total + onesIn b) 0

/-- A hole is known to have none without reading. -/
def onesInBlock (directory : Directory) (number : Nat) : Except StoreError Nat :=
  let pos := number * bitBlockSize
  if directory.file.isHole pos bitBlockSize && directory.file.Reaches pos bitBlockSize then .ok 0
  else (directory.blockOnDisk number).map onesOf

def onesFrom (directory : Directory) (number total : Nat) :
    (count : Nat) → Except StoreError Nat
  | 0 => .ok total
  | count + 1 =>
    match directory.onesInBlock number with
    | .ok ones => directory.onesFrom (number + 1) (total + ones) count
    | .error cause => .error cause

def blocksInFile (directory : Directory) : Nat :=
  (directory.file.length + (bitBlockSize - 1)) / bitBlockSize

def count : DirectoryM Nat := fun directory =>
  match directory.onesFrom 0 0 directory.blocksInFile with
  | .ok total => .ok total directory
  | .error cause => .error cause directory

end Directory

end PageTrie
