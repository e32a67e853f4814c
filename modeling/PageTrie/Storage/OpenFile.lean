import PageTrie.Error
import PageTrie.Storage.SparseFile

/-! Positioned block reads and writes on an open file. A read fills a buffer in as many
transfers as the system cares to make, whatever their sizes, and zeros what lies past the
end of the file. A write that comes to the limit of the file system, or to the end of a full
disk, leaves what it has put in the file. -/
namespace PageTrie

inductive Content where
  | folder
  | regular (file : SparseFile)

inductive Access where
  | readOnly
  | readWrite
  deriving DecidableEq, Repr

/-- Where a write comes to a stop: after how many bytes, and with what failure. -/
structure WriteStop where
  count : Nat
  cause : IoError
  deriving DecidableEq, Repr

/-- Where a write stops at the latest that has so much room up to the limit of the file system,
and that something else may stop before. -/
def WriteStop.within (room : Nat) (stop : Option WriteStop) : WriteStop :=
  match stop with
  | some stop => if stop.count < room then stop else ⟨room, .fileTooLarge⟩
  | none => ⟨room, .fileTooLarge⟩

structure OpenFile where
  inode : Nat
  access : Access
  content : Content
  /-- The last position that the file system has for a file. -/
  limit : Nat
  /-- Where writes stop that the file system could take, as on a full disk. -/
  stop : Option WriteStop

inductive Transfer where
  | bytes (count : Nat)
  | interrupted
  deriving DecidableEq, Repr

abbrev positionRange : Nat := 0x8000000000000000

abbrev storeSpan : Nat := 0x40000000000

/-- A file system that has room for the longest files of a store. -/
structure FileSystem where
  limit : Nat
  storeSpan_le : storeSpan ≤ limit

namespace FileSystem

/-- Blocks of 4096 bytes with numbers of 32 bits. -/
def ofNumberedBlocks : FileSystem := ⟨0xffffffff * 4096, by decide⟩

instance : Inhabited FileSystem := ⟨ofNumberedBlocks⟩

def file (system : FileSystem) (inode : Nat) (access : Access) (content : Content) : OpenFile :=
  ⟨inode, access, content, system.limit, none⟩

end FileSystem

abbrev folderLength : Nat := 4096

/-- Fills a buffer behind its first `filled` bytes, at `pos + filled` in the file. Each
transfer moves at least one byte if one is left; when the schedule is used up the rest
moves at once. Answers how many bytes are filled. -/
def SparseFile.fill (file : SparseFile) (pos : Nat) (buffer : Buffer n) (filled : Nat) :
    List Transfer → Nat × Buffer n
  | [] =>
    let got := file.read (pos + filled) (n - filled)
    (filled + got.length, buffer.patch filled got)
  | .interrupted :: rest => file.fill pos buffer filled rest
  | .bytes count :: rest =>
    let got := file.read (pos + filled) (min (max 1 count) (n - filled))
    if got.isEmpty then (filled, buffer)
    else file.fill pos (buffer.patch filled got) (filled + got.length) rest

namespace OpenFile

def length (file : OpenFile) : Nat :=
  match file.content with
  | .folder => folderLength
  | .regular body => body.size

/-- The last position that can be sought. A file that is there can be sought to its end. -/
def extent (file : OpenFile) : Nat := max file.limit file.length

/-- The position can be sought, and `n` bytes from there end at a position too. -/
def Reaches (file : OpenFile) (pos n : Nat) : Prop := pos ≤ file.extent ∧ pos + n < positionRange

instance (file : OpenFile) (pos n : Nat) : Decidable (file.Reaches pos n) := instDecidableAnd

def readAt (file : OpenFile) (pos : Nat) (buffer : Buffer n) (schedule : List Transfer) :
    Except IoError (Nat × Buffer n) :=
  if file.Reaches pos n then
    match file.content with
    | .folder => if n = 0 then .ok (0, buffer) else .error .isFolder
    | .regular body =>
      let (filled, buffer') := body.fill pos buffer 0 schedule
      .ok (filled, buffer'.patch filled (List.replicate (n - filled) 0))
  else .error .invalidOffset

def isHole (file : OpenFile) (pos n : Nat) : Bool :=
  match file.content with
  | .folder => false
  | .regular body => body.isHole pos n

def block (file : OpenFile) (pos n : Nat) : Except IoError (Buffer n) :=
  if file.Reaches pos n && file.isHole pos n then .ok (Buffer.zeros n)
  else (file.readAt pos (Buffer.zeros n) []).map (·.2)

def overwritten (file : OpenFile) (pos : Nat) (bs : Bytes) : OpenFile :=
  match file.content with
  | .folder => file
  | .regular body => { file with content := .regular (body.write pos bs) }

def lastStop (file : OpenFile) (pos : Nat) : WriteStop := .within (file.extent - pos) file.stop

/-- What stops a write of `n` bytes at `pos`, if anything does. A write that may not be made at
all stops before its first byte. -/
def refusal (file : OpenFile) (pos n : Nat) : Option WriteStop :=
  if ¬ file.Reaches pos 0 then some ⟨0, .invalidOffset⟩
  else if n = 0 then none
  else
    match file.access, file.content with
    | .readWrite, .regular _ =>
      if ¬ file.Reaches pos n then some ⟨0, .invalidOffset⟩
      else if (file.lastStop pos).count < n then some (file.lastStop pos)
      else none
    | _, _ => some ⟨0, .badDescriptor⟩

/-- Writes a block. A write that fails has put the bytes before its stop in the file. -/
def writeAt (pos : Nat) (bs : Bytes) : EStateM IoError OpenFile Unit := fun file =>
  match file.refusal pos bs.length with
  | none => .ok () (file.overwritten pos bs)
  | some stop => .error stop.cause (file.overwritten pos (bs.take stop.count))

def bytesAt (file : OpenFile) (pos n : Nat) : Except IoError Bytes :=
  if file.Reaches pos (min n 1) then
    match file.content with
    | .folder => if n = 0 then .ok [] else .error .isFolder
    | .regular body => .ok (body.read pos n)
  else .error .invalidOffset

def resize (file : OpenFile) (size : Nat) : OpenFile :=
  match file.content with
  | .folder => file
  | .regular body => { file with content := .regular (body.resize size) }

def setLength (file : OpenFile) (size : Nat) : Except IoError OpenFile :=
  if positionRange ≤ size then .error .lengthOutOfRange
  else if file.extent < size then .error .fileTooLarge
  else .ok (file.resize size)

def synced (failure : Option IoError) : Except IoError Unit :=
  match failure with
  | none => .ok ()
  | some cause => .error cause

theorem block_eq_readAt (file : OpenFile) (pos n : Nat) :
    file.block pos n = (file.readAt pos (Buffer.zeros n) []).map (·.2) := by
  unfold block
  split
  · next h =>
    simp only [Bool.and_eq_true, decide_eq_true_eq] at h
    obtain ⟨hpos, hhole⟩ := h
    unfold isHole at hhole
    unfold readAt
    rw [if_pos hpos]
    cases hc : file.content with
    | folder => simp [hc] at hhole
    | regular body =>
      simp only [hc] at hhole
      simp only [SparseFile.fill, Except.map]
      congr 1
      apply Buffer.ext_byte
      intro i hi
      simp only [Buffer.byte_patch, Buffer.byte_zeros, Nat.add_zero, Nat.zero_add, Nat.sub_zero]
      split
      · simp only [List.getD_eq_getElem?_getD, List.getElem?_replicate]
        split <;> rfl
      · split
        · next hin =>
          rw [SparseFile.getD_read]
          split
          · exact (SparseFile.byte_of_isHole body hhole (by omega) (by omega)).symm
          · rfl
        · rfl
  · rfl

end OpenFile

end PageTrie
