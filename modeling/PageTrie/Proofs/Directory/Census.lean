import PageTrie.Proofs.Directory

/-! The census of a directory. It goes through the file block by block, passing over holes, and
comes to the number of positions that are set. -/
namespace PageTrie

theorem count_congr {p q : Nat → Prop} [DecidablePred p] [DecidablePred q] {n : Nat}
    (h : ∀ k < n, (p k ↔ q k)) : Nat.count p n = Nat.count q n :=
  Nat.le_antisymm (Nat.count_mono_left fun k hk => (h k hk).mp)
    (Nat.count_mono_left fun k hk => (h k hk).mpr)

def OpenFile.ones (file : OpenFile) (pos n : Nat) : Nat :=
  Nat.count (fun i => file.bit (pos * 8 + i) = true) (n * 8)

theorem OpenFile.ones_add (file : OpenFile) (pos n m : Nat) :
    file.ones pos (n + m) = file.ones pos n + file.ones (pos + n) m := by
  simp only [ones, Nat.add_mul, Nat.count_add, Nat.add_assoc]

def OpenFile.marks (file : OpenFile) : Finset Nat :=
  (Finset.range (file.length * 8)).filter fun i => file.bit i = true

theorem OpenFile.lt_of_bit {file : OpenFile} {i : Nat} (h : file.bit i = true) :
    i < file.length * 8 := by
  by_contra hout
  rw [bit_of_length_le (Nat.le_of_not_lt hout)] at h
  cases h

@[simp] theorem OpenFile.mem_marks {file : OpenFile} {i : Nat} :
    i ∈ file.marks ↔ file.bit i = true := by
  rw [marks, Finset.mem_filter, Finset.mem_range, and_iff_right_iff_imp]
  exact lt_of_bit

theorem OpenFile.ones_zero {file : OpenFile} {n : Nat} (h : file.length ≤ n) :
    file.ones 0 n = file.marks.card := by
  simp only [ones, Nat.zero_mul, Nat.zero_add, Nat.count_eq_card_filter_range]
  congr 1
  ext i
  rw [Finset.mem_filter, Finset.mem_range, mem_marks, and_iff_right_iff_imp]
  intro hbit
  exact (lt_of_bit hbit).trans_le (Nat.mul_le_mul_right 8 h)

namespace Directory

theorem onesIn_eq_count (b : UInt8) :
    onesIn b = Nat.count (fun i => b.toNat.testBit i = true) 8 := by
  simp only [onesIn, Nat.count, Bool.decide_eq_true]

/-- The bits of a list of bytes, lowest bit of the first byte first. -/
theorem foldl_onesIn_eq_count (bs : Bytes) (total : Nat) :
    bs.foldl (fun total b => total + onesIn b) total =
      total + Nat.count (fun i => (bs.getD (i / 8) 0).toNat.testBit (i % 8) = true)
        (bs.length * 8) := by
  induction bs generalizing total with
  | nil => rfl
  | cons b rest ih =>
    have hlength : (b :: rest).length * 8 = 8 + rest.length * 8 := by
      rw [List.length_cons]
      omega
    have hfirst : Nat.count
        (fun i => ((b :: rest).getD (i / 8) 0).toNat.testBit (i % 8) = true) 8 = onesIn b := by
      rw [onesIn_eq_count]
      apply count_congr
      intro i hi
      rw [Nat.div_eq_of_lt hi, Nat.mod_eq_of_lt hi, List.getD_cons_zero]
    rw [List.foldl_cons, ih, hlength, Nat.count_add, hfirst, Nat.add_assoc]
    congr 2
    apply count_congr
    intro i _
    rw [Nat.add_div_left i (by decide), Nat.add_mod_left, List.getD_cons_succ]

theorem foldl_onesIn_window (file : OpenFile) (pos n : Nat) :
    (file.window pos n).toList.foldl (fun total b => total + onesIn b) 0 = file.ones pos n := by
  rw [foldl_onesIn_eq_count, Nat.zero_add, Vector.length_toList, OpenFile.ones]
  apply count_congr
  intro i hi
  have hin : i / 8 < n := Nat.div_lt_of_lt_mul (by rwa [Nat.mul_comm])
  have hbyte : (file.window pos n).toList.getD (i / 8) 0 = file.byte (pos + i / 8) := by
    have hwindow := file.byte_window pos n (i / 8)
    rw [if_pos hin] at hwindow
    rw [← hwindow]
    simp [Buffer.byte, List.getD_eq_getElem?_getD, hin]
  have hdiv : (pos * 8 + i) / 8 = pos + i / 8 := by omega
  have hmod : (pos * 8 + i) % 8 = i % 8 := by omega
  rw [hbyte, OpenFile.bit, hdiv, hmod]

theorem onesOf_zeros : onesOf (Buffer.zeros bitBlockSize) = 0 := by
  have hzeros (count : Nat) :
      (List.replicate count (0 : UInt8)).foldl (fun total b => total + onesIn b) 0 = 0 := by
    induction count with
    | zero => rfl
    | succ count ih => exact ih
  rw [onesOf, Buffer.zeros, Vector.toList_replicate, hzeros]

theorem onesInBlock_eq (directory : Directory) (number : Nat) :
    directory.onesInBlock number = (directory.blockOnDisk number).map onesOf := by
  unfold onesInBlock
  dsimp only
  split
  · next hhole =>
    rw [Bool.and_comm] at hhole
    rw [blockOnDisk, OpenFile.block, if_pos hhole]
    exact congrArg Except.ok onesOf_zeros.symm
  · rfl

theorem blocksInFile_congr {directory other : Directory}
    (h : directory.file.content = other.file.content) :
    directory.blocksInFile = other.blocksInFile := by
  unfold blocksInFile OpenFile.length
  rw [h]

theorem onesFrom_congr {directory other : Directory}
    (hcontent : directory.file.content = other.file.content)
    (hlimit : directory.file.limit = other.file.limit) (number total count : Nat) :
    directory.onesFrom number total count = other.onesFrom number total count := by
  have hones (number : Nat) : directory.onesInBlock number = other.onesInBlock number := by
    rw [onesInBlock_eq, onesInBlock_eq, blockOnDisk, blockOnDisk,
      OpenFile.block_congr hcontent hlimit]
  induction count generalizing number total with
  | zero => rfl
  | succ count ih => simp only [onesFrom, hones, ih]

section Coherent

variable {directory : Directory} (h : directory.Coherent)
include h

theorem Coherent.onesInBlock {number : Nat}
    (hreach : directory.file.Reaches (number * bitBlockSize) bitBlockSize) :
    directory.onesInBlock number =
      .ok (directory.file.ones (number * bitBlockSize) bitBlockSize) := by
  rw [onesInBlock_eq, blockOnDisk, OpenFile.block_eq_window h.regular hreach,
    ← foldl_onesIn_window]
  rfl

omit h in
theorem start_lt_length {number : Nat} (hin : number < directory.blocksInFile) :
    number * bitBlockSize < directory.file.length := by
  change number < (directory.file.length + 4095) / 4096 at hin
  change number * 4096 < directory.file.length
  omega

omit h in
theorem reaches_of_lt_blocksInFile {number : Nat} (hin : number < directory.blocksInFile)
    (hend : (number + 1) * bitBlockSize < positionRange) :
    directory.file.Reaches (number * bitBlockSize) bitBlockSize := by
  apply OpenFile.reaches_of_lt_length (start_lt_length hin)
  rw [← Nat.add_one_mul]
  exact hend

theorem Coherent.onesFrom (number count total : Nat) (hin : number + count ≤ directory.blocksInFile)
    (hend : (number + count) * bitBlockSize < positionRange) :
    directory.onesFrom number total count =
      .ok (total + directory.file.ones (number * bitBlockSize) (count * bitBlockSize)) := by
  induction count generalizing number total with
  | zero =>
    rw [Nat.zero_mul]
    rfl
  | succ count ih =>
    have hfirst : (number + 1) * bitBlockSize < positionRange :=
      (Nat.mul_le_mul_right _ (by omega)).trans_lt hend
    have hnext : number + 1 + count = number + (count + 1) := by omega
    have hrest := (congrArg (· * bitBlockSize) hnext).trans_lt hend
    have hbytes : (count + 1) * bitBlockSize = bitBlockSize + count * bitBlockSize := by
      rw [Nat.add_one_mul, Nat.add_comm]
    rw [Directory.onesFrom, h.onesInBlock (reaches_of_lt_blocksInFile (by omega) hfirst)]
    dsimp only
    rw [ih _ _ (hnext.trans_le hin) hrest, hbytes, OpenFile.ones_add, Nat.add_assoc,
      Nat.add_one_mul]

/-- Where the last block of the file can be read, the census gives the number of set bits. -/
theorem Coherent.count (hlength : directory.file.length + bitBlockSize ≤ positionRange) :
    Directory.count.run directory = .ok directory.file.marks.card directory := by
  have hblocks : directory.file.length ≤ directory.blocksInFile * bitBlockSize := by
    change _ ≤ (directory.file.length + 4095) / 4096 * 4096
    omega
  have hend : (0 + directory.blocksInFile) * bitBlockSize < positionRange := by
    change (0 + (directory.file.length + 4095) / 4096) * 4096 < 0x8000000000000000
    change directory.file.length + 4096 ≤ 0x8000000000000000 at hlength
    omega
  have hcount := h.onesFrom 0 _ 0 (Nat.zero_add _).le hend
  rw [Nat.zero_mul, Nat.zero_add, OpenFile.ones_zero hblocks] at hcount
  rw [EStateM.run, Directory.count, hcount]

/-- A census that comes to a block whose end is past all positions fails there. -/
theorem Coherent.onesFrom_beyond (number count total : Nat)
    (hin : number + count ≤ directory.blocksInFile)
    (hstart : number * bitBlockSize < positionRange)
    (hend : positionRange ≤ (number + count) * bitBlockSize) :
    directory.onesFrom number total count = .error (.io .invalidOffset) := by
  induction count generalizing number total with
  | zero => exact absurd hend (Nat.not_le_of_lt hstart)
  | succ count ih =>
    by_cases hnumber : (number + 1) * bitBlockSize < positionRange
    · have hnext : number + (count + 1) = number + 1 + count := by omega
      rw [Directory.onesFrom, h.onesInBlock (reaches_of_lt_blocksInFile (by omega) hnumber)]
      exact ih _ _ (hnext ▸ hin) hnumber (hend.trans_eq (congrArg (· * bitBlockSize) hnext))
    · have hout : ¬ directory.file.Reaches (number * bitBlockSize) bitBlockSize := by
        rintro ⟨-, hlt⟩
        rw [← Nat.add_one_mul] at hlt
        exact hnumber hlt
      rw [Directory.onesFrom, onesInBlock_eq, blockOnDisk, OpenFile.block_of_not_reaches hout]
      rfl

theorem Coherent.count_beyond (hlength : positionRange < directory.file.length + bitBlockSize) :
    Directory.count.run directory = .error (.io .invalidOffset) directory := by
  have hstart : 0 * bitBlockSize < positionRange := by decide
  have hend : positionRange ≤ (0 + directory.blocksInFile) * bitBlockSize := by
    change 0x8000000000000000 ≤ (0 + (directory.file.length + 4095) / 4096) * 4096
    change 0x8000000000000000 < directory.file.length + 4096 at hlength
    omega
  rw [EStateM.run, Directory.count,
    h.onesFrom_beyond 0 _ 0 (Nat.zero_add _).le hstart hend]

end Coherent

end Directory

end PageTrie
