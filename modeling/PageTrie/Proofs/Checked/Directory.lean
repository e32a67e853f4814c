import PageTrie.Proofs.Checked.Edit
import PageTrie.Proofs.Directory.Census

/-! Calls with every step checked, and those on the directory. A checked call ends like the call
itself, as long as no check fails. -/
namespace PageTrie.Checked

/-- Why a checked call gives no answer: it failed as a call may fail, or a check did. -/
inductive Halt where
  | failed (cause : StoreError)
  | fault (fault : Fault)

abbrev CheckedM (σ : Type) := EStateM Halt σ

def check (x : Checked α) : CheckedM σ α :=
  match x with
  | .ok a => pure a
  | .error fault => throw (.fault fault)

def ofFile (x : Except IoError α) : CheckedM σ α :=
  match x with
  | .ok a => pure a
  | .error cause => throw (.failed (.io cause))

def ofResult (x : Except StoreError α) : CheckedM σ α :=
  match x with
  | .ok a => pure a
  | .error cause => throw (.failed cause)

def lift (x : EStateM StoreError σ α) : CheckedM σ α := fun state =>
  match x.run state with
  | .ok a state' => .ok a state'
  | .error cause state' => .error (.failed cause) state'

@[simp] theorem check_ok (a : α) : (check (.ok a) : CheckedM σ α) = pure a := rfl

@[simp] theorem ofFile_ok (a : α) : (ofFile (.ok a) : CheckedM σ α) = pure a := rfl

@[simp] theorem ofResult_ok (a : α) : (ofResult (.ok a) : CheckedM σ α) = pure a := rfl

@[simp] theorem lift_pure (a : α) : lift (pure a : EStateM StoreError σ α) = pure a := rfl

@[simp] theorem lift_get : lift (get : EStateM StoreError σ σ) = get := rfl

@[simp] theorem lift_modify (f : σ → σ) :
    lift (modify f : EStateM StoreError σ PUnit) = modify f := rfl

@[simp] theorem lift_bind (x : EStateM StoreError σ α) (f : α → EStateM StoreError σ β) :
    lift (x >>= f) = lift x >>= fun a => lift (f a) := by
  funext state
  change (match EStateM.bind x f state with
    | .ok a state' => EStateM.Result.ok a state'
    | .error cause state' => .error (.failed cause) state') =
      EStateM.bind (lift x) (fun a => lift (f a)) state
  unfold EStateM.bind lift EStateM.run
  cases x state <;> rfl

def address (number : Nat) : Checked (Nat × Nat × UInt8) := do
  let mask ← bit 8 (number % 8)
  return (number / 8 / bitBlockSize, number / 8 % bitBlockSize, UInt8.ofNat mask)

def load (number : Nat) : CheckedM Directory (Buffer bitBlockSize) := do
  let directory ← get
  match directory.cached? number with
  | some block => return block
  | none =>
    set { directory with cached := none }
    let pos ← check (mul number bitBlockSize)
    let block ← ofFile (directory.file.block pos bitBlockSize)
    modify fun directory => { directory with cached := some (number, block) }
    return block

def testBit (number : Nat) : CheckedM Directory Bool := do
  let (number, within, mask) ← check (address number)
  let block ← load number
  let found ← check (byte block within)
  return found &&& mask != 0

/-- A write that stops short has changed the file. -/
def writeAt (pos : Nat) (bs : Bytes) : CheckedM Directory Unit := fun directory =>
  match (OpenFile.writeAt pos bs).run directory.file with
  | .ok () file => .ok () { directory with file }
  | .error cause file => .error (.failed (.io cause)) { directory with file }

def writeBlock (number : Nat) (block : Buffer bitBlockSize) : CheckedM Directory Unit := do
  let pos ← check (mul number bitBlockSize)
  writeAt pos block.toList

def raisedBound (bound bit number : Nat) : Checked Nat :=
  if bound ≤ bit then do
    let next ← add number 1
    mul next bitsInBlock
  else return bound

def setBit (bit : Nat) : CheckedM Directory Unit := do
  let (number, within, mask) ← check (address bit)
  let block ← load number
  let old ← check (byte block within)
  let block := block.setIfInBounds within (old ||| mask)
  modify fun directory => { directory with cached := some (number, block) }
  let directory ← get
  let bound ← check (raisedBound directory.bound bit number)
  set { directory with bound }
  writeBlock number block

theorem address_eq (number : Nat) : address number =
    .ok ((BitPlace.ofBit number).block, (BitPlace.ofBit number).byte,
      UInt8.ofNat (1 <<< (BitPlace.ofBit number).bit)) := by
  unfold address
  rw [bit_eq (Nat.mod_lt _ (by decide))]
  rfl

theorem run_lift (x : EStateM StoreError σ α) (state : σ) :
    (lift x).run state = match x.run state with
      | .ok a state' => .ok a state'
      | .error cause state' => .error (.failed cause) state' := rfl

theorem run_lift_ok {x : EStateM StoreError σ α} {a : α} {state state' : σ}
    (h : x.run state = .ok a state') : (lift x).run state = .ok a state' := by
  rw [run_lift, h]

theorem load_eq {number : Nat} (h : number * 4096 < 0x10000000000000000) :
    load number = lift (Directory.blockAt number) := by
  funext directory
  change (load number).run directory = (lift (Directory.blockAt number)).run directory
  have hpos : mul number bitBlockSize = .ok (number * bitBlockSize) := mul_eq h
  unfold load
  rw [run_lift, EStateM.run_bind, EStateM.run_get]
  dsimp only
  rw [EStateM.run, EStateM.run, Directory.blockAt]
  cases directory.cached? number with
  | some block => rfl
  | none =>
    simp only [Directory.blockOnDisk, hpos, check_ok, pure_bind]
    cases directory.file.block (number * bitBlockSize) bitBlockSize <;> rfl

theorem testBit_iff (b : UInt8) {i : Nat} (h : i < 8) :
    (b &&& UInt8.ofNat (1 <<< i) != 0) = b.toNat.testBit i := by
  rw [Bool.eq_iff_iff, bne_iff_ne, ne_eq, ← UInt8.toNat_inj, UInt8.toNat_and,
    BitPlace.toNat_mask h, Nat.and_two_pow]
  have hpos := Nat.two_pow_pos i
  cases b.toNat.testBit i <;> simp

theorem testBit_eq {number : Nat} (h : number < 0xffffffff) :
    testBit number = lift (Directory.test number) := by
  have hblock : (BitPlace.ofBit number).block * 4096 < 0x10000000000000000 := by
    change number / 8 / 4096 * 4096 < _
    omega
  unfold testBit Directory.test
  simp only [address_eq, check_ok, pure_bind, lift_bind, lift_pure, load_eq hblock,
    byte_eq _ (BitPlace.byte_lt number), BitPlace.isSetIn, testBit_iff _ (BitPlace.bit_lt number)]

theorem raisedBound_eq {bound bit : Nat} (h : bit < 0xffffffff) :
    raisedBound bound bit (BitPlace.ofBit bit).block = .ok (Directory.raisedBound bound bit) := by
  have hend : (bit / 8 / 4096 + 1) * 32768 < 0x10000000000000000 := by omega
  unfold raisedBound Directory.raisedBound
  split
  · change (do let next ← add (bit / 8 / 4096) 1; mul next 32768) =
      .ok ((bit / 8 / 4096 + 1) * 32768 % 0x10000000000000000)
    rw [add_eq (by omega), ok_bind, mul_eq hend, Nat.mod_eq_of_lt hend]
  · rfl

theorem setBit_eq {bit : Nat} (h : bit < 0xffffffff) :
    setBit bit = lift (Directory.set bit) := by
  have hblock : (BitPlace.ofBit bit).block * 4096 < 0x10000000000000000 := by
    change bit / 8 / 4096 * 4096 < _
    omega
  have hpos : mul (BitPlace.ofBit bit).block bitBlockSize =
      .ok ((BitPlace.ofBit bit).block * bitBlockSize) := mul_eq hblock
  unfold setBit writeBlock Directory.set
  simp only [address_eq, check_ok, pure_bind, lift_bind, lift_modify, load_eq hblock,
    byte_eq _ (BitPlace.byte_lt bit), raisedBound_eq h, hpos]
  congr 1
  funext block directory
  change EStateM.run _ directory = (lift (Directory.putBlock (BitPlace.ofBit bit).block
    ((BitPlace.ofBit bit).setIn block))).run _
  rw [run_lift, EStateM.run.eq_def (Directory.putBlock _ _), Directory.putBlock, BitPlace.setIn]
  simp only [EStateM.run_bind, EStateM.run_get, EStateM.run_modify, EStateM.run_set]
  rw [EStateM.run.eq_def (writeAt _ _), writeAt]
  cases (OpenFile.writeAt _ _).run directory.file <;> rfl

def sumOnes (total : Nat) : Bytes → Checked Nat
  | [] => return total
  | b :: rest => do
    let next ← add total (Directory.onesIn b)
    sumOnes next rest

def blockCount (length : Nat) : Checked Nat :=
  if 0 < length % bitBlockSize then add (length / bitBlockSize) 1 else return length / bitBlockSize

def countFrom (number total : Nat) : (count : Nat) → CheckedM Directory Nat
  | 0 => return total
  | count + 1 => do
    let pos ← check (mul number bitBlockSize)
    let directory ← get
    let block ← ofFile (directory.file.block pos bitBlockSize)
    let ones ← check (sumOnes 0 block.toList)
    let total ← check (add total ones)
    countFrom (number + 1) total count

def countBits : CheckedM Directory Nat := do
  let directory ← get
  let count ← check (blockCount directory.file.length)
  countFrom 0 0 count

theorem onesIn_le (b : UInt8) : Directory.onesIn b ≤ 8 :=
  (List.countP_le_length).trans (Nat.le_of_eq List.length_range)

theorem sumOnes_eq (total : Nat) (bs : Bytes) (h : total + 8 * bs.length < 0x10000000000000000) :
    sumOnes total bs = .ok (bs.foldl (fun total b => total + Directory.onesIn b) total) := by
  induction bs generalizing total with
  | nil => rfl
  | cons b rest ih =>
    have hones := onesIn_le b
    rw [List.length_cons] at h
    rw [sumOnes, add_eq (by omega), ok_bind, ih _ (by omega), List.foldl_cons]

theorem foldl_onesIn_le (total : Nat) (bs : Bytes) :
    bs.foldl (fun total b => total + Directory.onesIn b) total ≤ total + 8 * bs.length := by
  induction bs generalizing total with
  | nil => exact Nat.le_refl _
  | cons b rest ih =>
    have hones := onesIn_le b
    have hrest := ih (total + Directory.onesIn b)
    rw [List.foldl_cons, List.length_cons]
    omega

theorem onesOf_le (block : Buffer bitBlockSize) : Directory.onesOf block ≤ 32768 := by
  have hsum := foldl_onesIn_le 0 block.toList
  rw [Vector.length_toList, Nat.zero_add] at hsum
  exact hsum

theorem blockCount_eq {length : Nat} (h : length < 0x1000000000000000) :
    blockCount length = .ok ((length + (bitBlockSize - 1)) / bitBlockSize) := by
  change (if 0 < length % 4096 then add (length / 4096) 1 else .ok (length / 4096)) =
    .ok ((length + 4095) / 4096)
  split
  · rw [add_eq (by omega), Except.ok.injEq]
    omega
  · rw [Except.ok.injEq]
    omega

theorem countFrom_eq (directory : Directory) (number total count : Nat)
    (hcount : number + count ≤ 0x1000000000000) (htotal : total ≤ number * 32768) :
    (countFrom number total count).run directory =
      match directory.onesFrom number total count with
      | .ok total => .ok total directory
      | .error cause => .error (.failed cause) directory := by
  induction count generalizing number total with
  | zero => rfl
  | succ count ih =>
    have hpos : mul number bitBlockSize = .ok (number * bitBlockSize) :=
      mul_eq (show number * 4096 < _ by omega)
    rw [countFrom, Directory.onesFrom, Directory.onesInBlock_eq, Directory.blockOnDisk]
    simp only [hpos, check_ok, pure_bind, EStateM.run_bind, EStateM.run_get]
    cases directory.file.block (number * bitBlockSize) bitBlockSize with
    | error cause => rfl
    | ok block =>
      have hones := onesOf_le block
      have hlength : 0 + 8 * block.toList.length < 0x10000000000000000 := by
        rw [Vector.length_toList]
        norm_num
      have hsum : sumOnes 0 block.toList = .ok (Directory.onesOf block) := sumOnes_eq _ _ hlength
      simp only [ofFile_ok, EStateM.run_pure, hsum, check_ok, Except.mapError, Except.map,
        add_eq (show total + Directory.onesOf block < 0x10000000000000000 by omega)]
      exact ih _ _ (by omega) (by omega)

theorem run_countBits {directory : Directory} (h : directory.file.length < 0x1000000000000000) :
    countBits.run directory = (lift Directory.count).run directory := by
  have hcount : 0 + directory.blocksInFile ≤ 0x1000000000000 := by
    change 0 + (directory.file.length + 4095) / 4096 ≤ _
    omega
  have hblocks : blockCount directory.file.length = .ok directory.blocksInFile := blockCount_eq h
  have hfrom := countFrom_eq directory 0 0 _ hcount (Nat.zero_le _)
  unfold countBits
  simp only [EStateM.run_bind, EStateM.run_get, hblocks, check_ok, EStateM.run_pure]
  rw [hfrom, run_lift, EStateM.run, Directory.count]
  cases directory.onesFrom 0 0 directory.blocksInFile <;> rfl

end PageTrie.Checked
