import PageTrie.Proofs.Storage.Window

/-! Blocks written in any order and read back, on a file system with any limit and a disk that may
be full at any write. A position shows what came to the file there last, else what the file held at
first, else zero, and it does not matter how a read is cut up. -/
namespace PageTrie

/-- A write of a block, and what stops it on the disk, if anything does. -/
structure BlockWrite where
  pos : Nat
  bytes : Bytes
  stop : Option WriteStop
  deriving DecidableEq, Repr

namespace BlockWrite

def byte? (write : BlockWrite) (i : Nat) : Option UInt8 :=
  if write.pos ≤ i then write.bytes[i - write.pos]? else none

/-- A file with this extent can be sought to the start of the write, and the write ends at a
position too. -/
def IsReachable (extent : Nat) (write : BlockWrite) : Prop :=
  write.pos ≤ extent ∧ write.pos + write.bytes.length < positionRange

instance (extent : Nat) : DecidablePred (IsReachable extent) := fun _ => instDecidableAnd

def lastStop (extent : Nat) (write : BlockWrite) : WriteStop :=
  .within (extent - write.pos) write.stop

/-- The part of a write that comes to a file with this extent. -/
def carried (extent : Nat) (write : BlockWrite) : BlockWrite :=
  { write with
    bytes := if write.IsReachable extent then write.bytes.take (write.lastStop extent).count
      else [] }

def last? (writes : List BlockWrite) (i : Nat) : Option UInt8 :=
  writes.reverse.findSome? (·.byte? i)

def lengthAfter (writes : List BlockWrite) (length : Nat) : Nat :=
  writes.foldl (fun length write =>
    if write.bytes = [] then length else max length (write.pos + write.bytes.length)) length

theorem last?_cons (write : BlockWrite) (writes : List BlockWrite) (i : Nat) :
    last? (write :: writes) i = (last? writes i).or (write.byte? i) := by
  simp [last?, List.findSome?_append]

theorem getD_byte? (write : BlockWrite) (i : Nat) (kept : UInt8) :
    (write.byte? i).getD kept =
      if write.pos ≤ i ∧ i < write.pos + write.bytes.length then write.bytes.getD (i - write.pos) 0
      else kept := by
  unfold byte?
  by_cases hlo : write.pos ≤ i
  · by_cases hhi : i < write.pos + write.bytes.length
    · have hin : i - write.pos < write.bytes.length := by omega
      simp [hlo, hhi, hin]
    · have hout : write.bytes.length ≤ i - write.pos := by omega
      simp [hhi, hout]
  · simp [hlo]

end BlockWrite

namespace OpenFile

def stopping (file : OpenFile) (stop : Option WriteStop) : OpenFile := { file with stop }

def afterWrite (file : OpenFile) (write : BlockWrite) : OpenFile :=
  match (writeAt write.pos write.bytes).run (file.stopping write.stop) with
  | .ok () file' => file'
  | .error _ file' => file'

def afterWrites (file : OpenFile) (writes : List BlockWrite) : OpenFile :=
  writes.foldl afterWrite file

theorem afterWrites_concat (file : OpenFile) (before : List BlockWrite) (write : BlockWrite) :
    file.afterWrites (before ++ [write]) = (file.afterWrites before).afterWrite write :=
  List.foldl_append

structure IsWritable (extent : Nat) (file : OpenFile) : Prop where
  regular : file.IsRegular
  access_eq : file.access = .readWrite
  extent_eq : file.extent = extent

section

variable {extent : Nat} {file : OpenFile} (h : file.IsWritable extent)
include h

theorem IsWritable.refusal_eq (write : BlockWrite) :
    (file.stopping write.stop).refusal write.pos write.bytes.length =
      if write.IsReachable extent then
        if write.bytes.length ≤ (write.lastStop extent).count then none
        else some (write.lastStop extent)
      else some ⟨0, .invalidOffset⟩ := by
  have hregular : (file.stopping write.stop).IsRegular := h.regular
  have haccess : (file.stopping write.stop).access = .readWrite := h.access_eq
  obtain ⟨-, -, rfl⟩ := h
  change _ = if (file.stopping write.stop).Reaches write.pos write.bytes.length then _ else _
  by_cases hreach : (file.stopping write.stop).Reaches write.pos write.bytes.length
  · rw [if_pos hreach]
    by_cases hroom : write.bytes.length ≤ (write.lastStop file.extent).count
    · rw [if_pos hroom]
      exact refusal_eq_none hregular haccess hreach hroom
    · have hlt := Nat.lt_of_not_le hroom
      rw [if_neg hroom]
      exact (refusal_eq_of_reaches hregular haccess (Nat.ne_zero_of_lt hlt) hreach).trans
        (if_pos hlt)
  · rw [if_neg hreach]
    exact refusal_of_not_reaches hregular haccess hreach

theorem IsWritable.run_writeAt (write : BlockWrite) :
    (writeAt write.pos write.bytes).run (file.stopping write.stop) =
      if write.IsReachable extent then
        if write.bytes.length ≤ (write.lastStop extent).count then
          .ok () (file.afterWrite write)
        else .error (write.lastStop extent).cause (file.afterWrite write)
      else .error .invalidOffset (file.afterWrite write) := by
  have hrefusal := h.refusal_eq write
  unfold afterWrite
  by_cases hreach : write.IsReachable extent
  · by_cases hroom : write.bytes.length ≤ (write.lastStop extent).count
    · rw [if_pos hreach, if_pos hroom] at hrefusal ⊢
      rw [run_writeAt_ok hrefusal]
    · rw [if_pos hreach, if_neg hroom] at hrefusal ⊢
      rw [run_writeAt_error hrefusal]
  · rw [if_neg hreach] at hrefusal ⊢
    rw [run_writeAt_error hrefusal]

theorem IsWritable.afterWrite_eq (write : BlockWrite) : file.afterWrite write =
    (file.stopping write.stop).overwritten write.pos (write.carried extent).bytes := by
  have hrefusal := h.refusal_eq write
  unfold afterWrite BlockWrite.carried
  dsimp only
  by_cases hreach : write.IsReachable extent
  · rw [if_pos hreach]
    by_cases hroom : write.bytes.length ≤ (write.lastStop extent).count
    · rw [if_pos hreach, if_pos hroom] at hrefusal
      rw [run_writeAt_ok hrefusal, List.take_of_length_le hroom]
    · rw [if_pos hreach, if_neg hroom] at hrefusal
      rw [run_writeAt_error hrefusal]
  · rw [if_neg hreach] at hrefusal ⊢
    rw [run_writeAt_error hrefusal, List.take_zero]

theorem IsWritable.afterWrite (write : BlockWrite) :
    (file.afterWrite write).IsWritable extent := by
  have hregular : (file.stopping write.stop).IsRegular := h.regular
  rw [h.afterWrite_eq]
  refine ⟨hregular.overwritten _ _, (access_overwritten _ _ _).trans h.access_eq, ?_⟩
  refine (extent_overwritten hregular fun hne => ?_).trans h.extent_eq
  change write.pos + (write.carried extent).bytes.length ≤ file.extent
  rw [h.extent_eq]
  unfold BlockWrite.carried at hne ⊢
  dsimp only at hne ⊢
  split at hne
  · next hreach =>
    have hstop := (file.stopping write.stop).lastStop_count_le write.pos
    change (WriteStop.within (file.extent - write.pos) write.stop).count ≤ file.extent - _ at hstop
    rw [h.extent_eq] at hstop
    have hpos := hreach.1
    rw [if_pos hreach, List.length_take, BlockWrite.lastStop]
    omega
  · exact absurd rfl hne

theorem IsWritable.afterWrites (writes : List BlockWrite) :
    (file.afterWrites writes).IsWritable extent := by
  induction writes generalizing file with
  | nil => exact h
  | cons write writes ih => exact ih (h.afterWrite write)

theorem IsWritable.byte_afterWrite (write : BlockWrite) (i : Nat) :
    (file.afterWrite write).byte i = ((write.carried extent).byte? i).getD (file.byte i) := by
  have hregular : (file.stopping write.stop).IsRegular := h.regular
  rw [h.afterWrite_eq, BlockWrite.getD_byte?]
  exact byte_overwritten hregular _ _ i

theorem byte_afterWrites (writes : List BlockWrite) (i : Nat) :
    (file.afterWrites writes).byte i =
      (BlockWrite.last? (writes.map (·.carried extent)) i).getD (file.byte i) := by
  induction writes generalizing file with
  | nil => rfl
  | cons write writes ih =>
    rw [afterWrites, List.foldl_cons]
    refine (ih (h.afterWrite write)).trans ?_
    rw [h.byte_afterWrite, List.map_cons, BlockWrite.last?_cons]
    cases BlockWrite.last? (writes.map (·.carried extent)) i <;> rfl

theorem length_afterWrites (writes : List BlockWrite) :
    (file.afterWrites writes).length =
      BlockWrite.lengthAfter (writes.map (·.carried extent)) file.length := by
  induction writes generalizing file with
  | nil => rfl
  | cons write writes ih =>
    have hregular : (file.stopping write.stop).IsRegular := h.regular
    rw [afterWrites, List.foldl_cons]
    refine (ih (h.afterWrite write)).trans ?_
    rw [List.map_cons, BlockWrite.lengthAfter, BlockWrite.lengthAfter, List.foldl_cons]
    congr 1
    rw [h.afterWrite_eq]
    by_cases hempty : (write.carried extent).bytes = []
    · rw [if_pos hempty, hempty, overwritten_nil]
      rfl
    · rw [if_neg hempty, length_overwritten hregular hempty]
      rfl

end

/-- However the transfers are cut up, a read of a block that can be reached ends and shows each byte
as it came to the file last, or as the file had it at first, or as zero. Any other block is refused.
A write comes to the file whole, or as far as the limit of the file system or the disk lets it. -/
theorem blocks_read_back (inode limit : Nat) (body : SparseFile) (writes : List BlockWrite)
    (access : Access) {n : Nat} (pos : Nat) (buffer : Buffer n) (schedule : List Transfer) :
    let file : OpenFile := ⟨inode, .readWrite, .regular body, limit, none⟩
    let opened : OpenFile := { file.afterWrites writes with access }
    let extent := max limit body.size
    let carried := writes.map (·.carried extent)
    let answer := (min n (BlockWrite.lengthAfter carried body.size - pos),
      Vector.ofFn fun k : Fin n =>
        (BlockWrite.last? carried (pos + k)).getD (body.toBytes.getD (pos + k) 0))
    opened.readAt pos buffer schedule =
        (if pos ≤ extent ∧ pos + n < positionRange then .ok answer else .error .invalidOffset) ∧
      (∃ after, opened.content = .regular after ∧
        (∃ made, made.length ≤ schedule.length + 2 ∧
          after.Fills pos 0 buffer made (after.fill pos buffer 0 schedule)) ∧
        ∀ made result, after.Fills pos 0 buffer made result →
          (result.1, result.2.patch result.1 (List.replicate (n - result.1) 0)) = answer) ∧
      ∀ before write later, writes = before ++ write :: later →
        (writeAt write.pos write.bytes).run ((file.afterWrites before).stopping write.stop) =
          if write.IsReachable extent then
            if write.bytes.length ≤ (write.lastStop extent).count then
              .ok () (file.afterWrites (before ++ [write]))
            else .error (write.lastStop extent).cause (file.afterWrites (before ++ [write]))
          else .error .invalidOffset (file.afterWrites (before ++ [write])) := by
  intro file opened extent carried answer
  have hfile : file.IsWritable extent := ⟨⟨body, rfl⟩, rfl, rfl⟩
  have hafter := hfile.afterWrites writes
  have hopened : opened.IsRegular := hafter.regular
  have hanswer : (min n (opened.length - pos), opened.window pos n) = answer := by
    refine Prod.ext ?_ (congrArg Vector.ofFn (funext fun k => ?_))
    · exact congrArg (fun length => min n (length - pos)) (length_afterWrites hfile writes)
    · rw [body.getD_toBytes]
      exact byte_afterWrites hfile writes (pos + k)
  have hreaches : opened.Reaches pos n ↔ pos ≤ extent ∧ pos + n < positionRange := by
    have hextent : opened.extent = extent := hafter.extent_eq
    rw [Reaches, hextent]
  refine ⟨?_, ?_, fun before write later _ => ?_⟩
  · split
    · next hpos => rw [readAt_eq_window hopened (hreaches.mpr hpos), hanswer]
    · next hpos => rw [readAt, if_neg (hreaches.not.mpr hpos)]
  · obtain ⟨after, hafter⟩ := hopened
    refine ⟨after, hafter, SparseFile.exists_fills buffer schedule, fun made result hrun => ?_⟩
    rw [hrun.padded, ← hanswer, length, window, hafter]
    simp only [byte, hafter]
  · rw [afterWrites_concat]
    exact (hfile.afterWrites before).run_writeAt write

/-- A block that begins past the limit is refused, though it is no different from one that begins
past the end of the file, and of a write that comes to the limit only the first bytes are there. -/
theorem far_block_refused :
    let file := FileSystem.ofNumberedBlocks.file 0 .readWrite (.regular (.ofBytes [97, 98, 99]))
    let write : BlockWrite := ⟨FileSystem.ofNumberedBlocks.limit - 1, [100, 101], none⟩
    file.readAt 0x8000000000000000 (Buffer.zeros 2) [] = .error .invalidOffset ∧
      file.readAt 0x8000000000000000 (Buffer.zeros 2) [] ≠
        .ok (min 2 (file.length - 0x8000000000000000), Buffer.zeros 2) ∧
      (file.afterWrites [write]).byte FileSystem.ofNumberedBlocks.limit = 0 := by
  intro file write
  have hread : file.readAt 0x8000000000000000 (Buffer.zeros 2) [] = .error .invalidOffset := by
    rw [readAt, if_neg (by decide)]
  have hfile : file.IsWritable file.extent := ⟨⟨_, rfl⟩, rfl, rfl⟩
  refine ⟨hread, fun hanswer => ?_, ?_⟩
  · rw [hread] at hanswer
    cases hanswer
  · rw [byte_afterWrites hfile]
    decide +kernel

end OpenFile

end PageTrie
