/-
  ConcurrentFs.Superblock

  Where every region of the disk goes (src/superblock.cpp): `planLayout` works it
  out from the size of the disk and the number of inodes, and
  `validateSuperblock` accepts a superblock only if planning again from its own
  numbers gives the same regions.
-/
import ConcurrentFs.Layout

namespace ConcurrentFs

/-- `Bitmap::blocks_for`: how many disk blocks a bitmap of `nbits` takes up. -/
def blocksFor (nbits : Nat) : Nat := (nbits + 32768 - 1) / 32768

/-- `plan_layout`.  The error is the text of the `std::invalid_argument`. -/
def planLayout (totalBlocks inodeCount : UInt32) : Except String Superblock :=
  let inodes := if inodeCount ≠ 0 then inodeCount.toNat else totalBlocks.toNat / blocksPerInode
  let inodes := (inodes + 32 - 1) / 32 * 32
  let inodes := if inodes < 32 then 32 else inodes
  if inodes > 4294967295 then .error ("too many inodes: " ++ toString inodes) else
  let inodeBitmapBlocks := blocksFor inodes
  let dataBitmapBlocks := blocksFor totalBlocks.toNat
  let inodeTableBlocks := inodes / 32
  let inodeBitmapStart := 1
  let dataBitmapStart := inodeBitmapStart + inodeBitmapBlocks
  let inodeTableStart := dataBitmapStart + dataBitmapBlocks
  let dataStart := inodeTableStart + inodeTableBlocks
  -- at least one data block, for the root directory
  if dataStart ≥ totalBlocks.toNat then
    .error (toString totalBlocks.toNat ++ " blocks is too small for " ++ toString inodes
      ++ " inodes: the metadata needs " ++ toString dataStart
      ++ " blocks, and the root directory one more")
  else .ok
    { magic := magicNumber, blockSize := 4096, totalBlocks := totalBlocks,
      inodeCount := UInt32.ofNat inodes, inodeBitmapStart := UInt32.ofNat inodeBitmapStart,
      dataBitmapStart := UInt32.ofNat dataBitmapStart,
      inodeTableStart := UInt32.ofNat inodeTableStart, dataStart := UInt32.ofNat dataStart,
      rootInode := UInt32.ofNat rootInode, cleanUnmount := 1, lastCheckpointLsn := 0 }

/-- `corrupt`. -/
def corrupt (what : String) : Except String Unit := .error ("bad superblock: " ++ what)

/-- `expect_field`. -/
def expectField (name : String) (got want : UInt32) : Except String Unit :=
  if got ≠ want then
    corrupt (name ++ " is " ++ toString got.toNat ++ ", expected " ++ toString want.toNat)
  else .ok ()

/-- `%08x`. -/
def hex8 (n : UInt32) : String :=
  let digits := Nat.toDigits 16 n.toNat
  String.ofList (List.replicate (8 - digits.length) '0' ++ digits)

/-- `validate_superblock`.  The error is the text of the `std::runtime_error`. -/
def validateSuperblock (sb : Superblock) (deviceBlocks : UInt32) : Except String Unit := do
  if sb.magic ≠ magicNumber then
    corrupt ("magic is 0x" ++ hex8 sb.magic ++ " - this is not a ConcurrentFS image")
  expectField "block_size" sb.blockSize 4096
  if sb.totalBlocks ≠ deviceBlocks then
    corrupt ("it says the disk has " ++ toString sb.totalBlocks.toNat
      ++ " blocks, but the image holds " ++ toString deviceBlocks.toNat)
  expectField "root_inode" sb.rootInode (UInt32.ofNat rootInode)
  match planLayout sb.totalBlocks sb.inodeCount with
  | .error e => corrupt e
  | .ok want =>
    expectField "inode_count" sb.inodeCount want.inodeCount
    expectField "inode_bitmap_start" sb.inodeBitmapStart want.inodeBitmapStart
    expectField "data_bitmap_start" sb.dataBitmapStart want.dataBitmapStart
    expectField "inode_table_start" sb.inodeTableStart want.inodeTableStart
    expectField "data_start" sb.dataStart want.dataStart

/-- `read_superblock`, from the contents of block 0. -/
def readSuperblock (block0 : Block) (deviceBlocks : UInt32) : Except String Superblock := do
  let sb := superblockIn block0
  validateSuperblock sb deviceBlocks
  return sb

/-! ## What passes -/

theorem expectField_eq_ok {name : String} {got want : UInt32} :
    expectField name got want = .ok () ↔ got = want := by
  by_cases h : got = want <;> simp [expectField, corrupt, h]

theorem bind_eq_ok_unit {α : Type} {x : Except String Unit} {f : Unit → Except String α} {a : α} :
    (x >>= f) = .ok a ↔ x = .ok () ∧ f () = .ok a := by
  cases x <;> simp [bind, Except.bind]

/-- What follows `if (p) corrupt(what);`. -/
theorem unless_corrupt_eq_ok {p : Prop} [Decidable p] {what : String}
    {f : Unit → Except String Unit}
    {rest : Except String Unit} :
    (if p then corrupt what >>= f else rest) = .ok () ↔ ¬ p ∧ rest = .ok () := by
  by_cases h : p <;> simp [h, corrupt, bind, Except.bind]

/-- A superblock passes when its numbers, planned again, give the regions it names. -/
theorem validateSuperblock_eq_ok {sb : Superblock} {n : UInt32} :
    validateSuperblock sb n = .ok () ↔
      sb.magic = magicNumber ∧ sb.blockSize = 4096 ∧ sb.totalBlocks = n ∧
      sb.rootInode = UInt32.ofNat rootInode ∧
      ∃ want, planLayout sb.totalBlocks sb.inodeCount = .ok want ∧
        sb.inodeCount = want.inodeCount ∧ sb.inodeBitmapStart = want.inodeBitmapStart ∧
        sb.dataBitmapStart = want.dataBitmapStart ∧ sb.inodeTableStart = want.inodeTableStart ∧
        sb.dataStart = want.dataStart := by
  rw [validateSuperblock]
  cases hplan : planLayout sb.totalBlocks sb.inodeCount with
  | error e =>
    simp only [unless_corrupt_eq_ok, bind_eq_ok_unit, expectField_eq_ok, ne_eq, not_not]
    simp [corrupt]
  | ok want =>
    simp only [unless_corrupt_eq_ok, bind_eq_ok_unit, expectField_eq_ok, ne_eq, not_not]
    simp

theorem readSuperblock_eq_ok {block0 : Block} {n : UInt32} {sb : Superblock} :
    readSuperblock block0 n = .ok sb ↔
      sb = superblockIn block0 ∧ validateSuperblock (superblockIn block0) n = .ok () := by
  rw [readSuperblock, bind_eq_ok_unit, and_comm]
  refine and_congr_left fun _ => ?_
  show Except.ok (superblockIn block0) = Except.ok sb ↔ _
  rw [Except.ok.injEq, eq_comm]

/-- The superblock of a disk of 64 blocks. -/
def smallLayout : Superblock where
  magic := magicNumber
  blockSize := 4096
  totalBlocks := 64
  inodeCount := 32
  inodeBitmapStart := 1
  dataBitmapStart := 2
  inodeTableStart := 3
  dataStart := 4
  rootInode := 1
  cleanUnmount := 1
  lastCheckpointLsn := 0

theorem smallLayout_valid : validateSuperblock smallLayout 64 = .ok () := by decide

end ConcurrentFs
