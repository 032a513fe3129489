/-
  ConcurrentFs.FileSystem

  The state of a mounted file system and the code right above the journal: the
  error codes (include/vfs/errors.h), reading and writing blocks, the allocator
  (src/alloc.cpp) and the inode table (src/inode_table.cpp).

  Blocks are seen through the journal, so `disk` is what `Journal::read` returns:
  the contents of the image with every change made so far, committed or not.
  `clock` holds the readings `now()` will give, one after the other, `calls` what
  has been asked of the journal, and `opens` the changes made to the counts of open
  descriptors; the code reads neither of the last two.  The superblock does not change while the
  file system is mounted and is a parameter everywhere.
-/
import ConcurrentFs.Bitmap
import ConcurrentFs.Lib.Prog
import Mathlib.Data.List.Sort

namespace ConcurrentFs

open Lib

/-- The codes of errors.h. -/
inductive Errno where
  | enoent | eio | ebadf | ebusy | eexist | enotdir | eisdir | einval | emfile | efbig | enospc
  | enametoolong | enotempty
  deriving DecidableEq

/-- The numbers of the codes. -/
def Errno.code : Errno → Nat
  | enoent => 2
  | eio => 5
  | ebadf => 9
  | ebusy => 16
  | eexist => 17
  | enotdir => 20
  | eisdir => 21
  | einval => 22
  | emfile => 24
  | efbig => 27
  | enospc => 28
  | enametoolong => 36
  | enotempty => 39

/-- What is thrown inside the file system. -/
inductive Exn where
  | fsError (e : Errno)
  /-- Any other `std::exception`. -/
  | other
  /-- Not an exception: a use of a lock entry that is gone, or a loop that its bound cuts short. -/
  | fault
  deriving DecidableEq

/-- Where a `LockManager::Entry` lies: the inode it was made for, and which of the entries ever
    made it is. -/
structure EntryPtr where
  id : Nat
  addr : Nat
  deriving DecidableEq

/-- `LockManager::Entry`. -/
structure Entry where
  addr : Nat
  /-- Who holds `lock` shared, and whether somebody holds it exclusive. -/
  readers : Nat
  writer : Bool
  /-- Open file descriptors on this inode. -/
  openCount : Nat
  refs : Nat
  /-- A file's inode, kept by `vfs_write`. -/
  inode : Inode
  inodeValid : Bool

/-- `OpenFile`. -/
structure OpenFile where
  /-- Whether somebody holds `op`. -/
  op : Bool
  offset : Nat
  /-- 0 unless open. -/
  inode : Nat
  flags : UInt32
  lock : Option EntryPtr
  /-- Whether the slot is taken. -/
  inUse : Bool

/-- What the journal has been asked for. -/
inductive JournalCall where
  | beginOp
  | write (block : Nat) (data : Block)
  | endOp
  | commit
  | checkpoint

/-- An open that has registered, or a close that has given it back. -/
inductive OpenEvent where
  | registered (id : Nat)
  | givenBack (id : Nat)
  deriving DecidableEq

structure FileSystem where
  disk : Nat → Block
  /-- The allocator's bitmaps. -/
  inodes : Bitmap
  blocks : Bitmap
  /-- `LockManager::entries_`. -/
  entries : Nat → Option Entry
  /-- How many lock entries have been made. -/
  made : Nat
  files : Nat → OpenFile
  clock : Nat → UInt64
  calls : List JournalCall
  opens : List OpenEvent

/-- The code of the file system. -/
abbrev Fs := Prog FileSystem Exn

/-- `throw FsError(e)`. -/
def throwErrno {α : Type} (e : Errno) : Fs α := throw (Exn.fsError e)

/-- A value, or the `std::out_of_range` where there is none. -/
def orOutOfRange {α : Type} : Option α → Fs α
  | some a => pure a
  | none => throw Exn.other

/-- `now`. -/
def now : Fs UInt64 :=
  .act (fun _ => true) (fun s => { s with clock := fun k => s.clock (k + 1) })
    fun s => pure (s.clock 0)

/-! ## The journal -/

/-- `check_block`: block 0 is the journal's own. -/
def touchable (sb : Superblock) (b : Nat) : Bool := b != 0 && b < sb.totalBlocks.toNat

/-- `Journal::read`. -/
def readBlock (sb : Superblock) (b : Nat) : Fs Block :=
  if touchable sb b then Prog.view fun s => s.disk b else throw Exn.other

/-- The state after block `b` was given the contents `data`. -/
def FileSystem.putBlock (s : FileSystem) (b : Nat) (data : Block) : FileSystem :=
  { s with disk := Function.update s.disk b data, calls := s.calls ++ [.write b data] }

/-- `Journal::write`. -/
def writeBlock (sb : Superblock) (b : Nat) (fresh : Bool) (fn : Block → Block) : Fs Unit :=
  if touchable sb b then
    Prog.change fun s => s.putBlock b (fn (if fresh then Bytes.zero 4096 else s.disk b))
  else throw Exn.other

/-- `OpScope` around `body`. -/
def withOp {α : Type} (body : Fs α) : Fs α := do
  Prog.change fun s => { s with calls := s.calls ++ [.beginOp] }
  body.ensure (Prog.change fun s => { s with calls := s.calls ++ [.endOp] })

/-! ## The allocator -/

/-- `set_bit`. -/
def setBit (sb : Superblock) (regionStart bit : Nat) (value : Bool) : Fs Unit :=
  writeBlock sb (regionStart + bit / 32768) false fun b => flip b bit value

/-- `Allocator::alloc_block`. -/
def allocBlock (sb : Superblock) : Fs Nat := do
  match ← Prog.view fun s => s.blocks.findFirstFree with
  | none => throwErrno .enospc
  | some b =>
    -- mkfs marks every metadata block used, so this means a damaged bitmap
    if b < sb.dataStart.toNat then throwErrno .eio
    let bm ← orOutOfRange (← Prog.view fun s => s.blocks.set b)
    Prog.change fun s => { s with blocks := bm }
    setBit sb sb.dataBitmapStart.toNat b true
    return b

/-- `Allocator::alloc_inode`. -/
def allocInode (sb : Superblock) : Fs Nat := do
  match ← Prog.view fun s => s.inodes.findFirstFree with
  | none => throwErrno .enospc
  | some id =>
    -- inode 0 is reserved and always marked
    if id = 0 then throwErrno .eio
    let bm ← orOutOfRange (← Prog.view fun s => s.inodes.set id)
    Prog.change fun s => { s with inodes := bm }
    setBit sb sb.inodeBitmapStart.toNat id true
    return id

/-- The check `free_blocks` makes of a sorted list before it frees anything. -/
def freeable (sb : Superblock) (bm : Bitmap) : List Nat → Bool
  | [] => true
  | b :: rest =>
    !(rest.head? == some b || b < sb.dataStart.toNat || b ≥ sb.totalBlocks.toNat
      || bm.isSet b != some true) && freeable sb bm rest

/-- `blocks_.clear(b)`. -/
def clearBlockBit (b : Nat) : Fs Unit := do
  let bm ← orOutOfRange (← Prog.view fun s => s.blocks.clear b)
  Prog.change fun s => { s with blocks := bm }

/-- Clears the bits of the blocks of `run`, which share a bitmap block. -/
def freeRun (sb : Superblock) (run : List Nat) : Fs Unit := do
  writeBlock sb (sb.dataBitmapStart.toNat + run.headD 0 / 32768) false
    fun b => run.foldl (fun b k => flip b k false) b
  run.forM clearBlockBit

/-- `Allocator::free_blocks`.  One journal write per bitmap block, however many bits it loses. -/
def freeBlocks (sb : Superblock) (blocks : List Nat) : Fs Unit := do
  let sorted := blocks.insertionSort (· ≤ ·)
  if !(← Prog.view fun s => freeable sb s.blocks sorted) then throwErrno .eio
  (sorted.splitBy fun a b => a / 32768 == b / 32768).forM (freeRun sb)

/-- `Allocator::free_inode`. -/
def freeInode (sb : Superblock) (id : Nat) : Fs Unit := do
  if id = 0 ∨ id ≥ sb.inodeCount.toNat ∨
      (← Prog.view fun s => s.inodes.isSet id) ≠ some true then throwErrno .eio
  let bm ← orOutOfRange (← Prog.view fun s => s.inodes.clear id)
  Prog.change fun s => { s with inodes := bm }
  setBit sb sb.inodeBitmapStart.toNat id false

/-! ## The inode table -/

/-- `inode_block`: where inode `id` lives. -/
def inodeBlock (sb : Superblock) (id : Nat) : Nat := sb.inodeTableStart.toNat + id / 32

/-- `check_id`. -/
def checkId (sb : Superblock) (id : Nat) : Fs Unit :=
  if id = 0 ∨ id ≥ sb.inodeCount.toNat then throwErrno .eio else pure ()

/-- `read_inode`. -/
def readInode (sb : Superblock) (id : Nat) : Fs Inode := do
  checkId sb id
  let b ← readBlock sb (inodeBlock sb id)
  return inodeIn b (id % 32)

/-- `write_inode`. -/
def writeInode (sb : Superblock) (ino : Inode) : Fs Unit := do
  checkId sb ino.id.toNat
  writeBlock sb (inodeBlock sb ino.id.toNat) false fun b => setInodeIn b (ino.id.toNat % 32) ino

/-- `clear_inode`. -/
def clearInode (sb : Superblock) (id : Nat) : Fs Unit := do
  checkId sb id
  writeBlock sb (inodeBlock sb id) false fun b => setInodeIn b (id % 32) .zero

/-- `is_dir`. -/
def isDir (ino : Inode) : Bool := ino.mode &&& modeTypeMask == modeDir

end ConcurrentFs
