/-
  ConcurrentFs.Layout

  The bytes on the disk (include/vfs/layout.h): block size, the superblock, the
  inode and the directory entry, each with its encoding.  The structs are copied
  to and from blocks with `memcpy`; on a little-endian machine, with no padding
  anywhere, that is the encoding given here field by field.

  Numbers of the format used throughout the development:
    4096   BLOCK_SIZE             128   INODE_SIZE         58   MAX_NAME_LEN
    32768  BITS_PER_BLOCK          32   INODES_PER_BLOCK   12   DIRECT_PTRS
    1024   PTRS_PER_BLOCK          64   DIRENT_SIZE, DIRENTS_PER_BLOCK
-/
import ConcurrentFs.Lib.Bytes

namespace ConcurrentFs

open Lib Codec

/-- One block's worth of bytes. -/
abbrev Block := Bytes 4096

/-- `MAGIC`: the first four bytes of an image read "CFS1". -/
def magicNumber : UInt32 := 0x31534643

/-- `BLOCKS_PER_INODE`: one inode for every this many blocks unless told otherwise. -/
def blocksPerInode : Nat := 16

/-- `ROOT_INODE`. Inode 0 is never handed out: a directory entry holding 0 is a free slot. -/
def rootInode : Nat := 1

/-- `MODE_TYPE_MASK`. -/
def modeTypeMask : UInt16 := 0xF000
/-- `MODE_FILE`. -/
def modeFile : UInt16 := 0x8000
/-- `MODE_DIR`. -/
def modeDir : UInt16 := 0x4000
/-- `FILE_PERM`, 0644. -/
def filePerm : UInt16 := 0x1A4
/-- `DIR_PERM`, 0755. -/
def dirPerm : UInt16 := 0x1ED

/-- `FT_FILE`, the type of a directory entry naming a file. -/
def ftFile : UInt8 := 1
/-- `FT_DIR`, the type of a directory entry naming a directory. -/
def ftDir : UInt8 := 2

/-- `MAX_FILE_BLOCKS`: 12 direct, 1024 single-indirect and 1024 * 1024 double-indirect. -/
def maxFileBlocks : Nat := 12 + 1024 + 1024 * 1024

/-- Block 0. Everything else on the disk is found from here. -/
structure Superblock where
  magic : UInt32
  blockSize : UInt32
  totalBlocks : UInt32
  inodeCount : UInt32
  inodeBitmapStart : UInt32
  dataBitmapStart : UInt32
  inodeTableStart : UInt32
  dataStart : UInt32
  rootInode : UInt32
  /-- 0 means the image was not unmounted: run recovery. -/
  cleanUnmount : UInt32
  lastCheckpointLsn : UInt64
  deriving DecidableEq

structure Inode where
  id : UInt32
  /-- `modeFile` or `modeDir`, plus permission bits. -/
  mode : UInt16
  linkCount : UInt16
  size : UInt64
  mtime : UInt64
  blockCount : UInt32
  /-- 0 means no block: block 0 is the superblock. -/
  direct : Fin 12 → UInt32
  singleIndirect : UInt32
  doubleIndirect : UInt32
  pad : Fin 11 → UInt32
  deriving DecidableEq

/-- The direct pointers have a first one. -/
instance neZero_direct : NeZero 12 := ⟨by decide⟩

structure DirEntry where
  /-- 0 means this slot is free. -/
  inodeId : UInt32
  nameLen : UInt8
  type : UInt8
  /-- Not NUL-terminated: `nameLen` says how long. -/
  name : Fin 58 → UInt8
  deriving DecidableEq

/-- `Inode{}`. -/
def Inode.zero : Inode :=
  ⟨0, 0, 0, 0, 0, 0, fun _ => 0, 0, 0, fun _ => 0⟩

/-- `DirEntry{}`. -/
def DirEntry.zero : DirEntry := ⟨0, 0, 0, fun _ => 0⟩

namespace Superblock

/-- The 48 bytes at the start of block 0. -/
def codec : Codec Superblock 48 :=
  Equiv.trans
    { toFun := fun s => (s.magic, s.blockSize, s.totalBlocks, s.inodeCount, s.inodeBitmapStart,
        s.dataBitmapStart, s.inodeTableStart, s.dataStart, s.rootInode, s.cleanUnmount,
        s.lastCheckpointLsn)
      invFun := fun (a, b, c, d, e, f, g, h, i, j, k) => ⟨a, b, c, d, e, f, g, h, i, j, k⟩
      left_inv := fun _ => rfl
      right_inv := fun _ => rfl }
    (pair u32 <| pair u32 <| pair u32 <| pair u32 <| pair u32 <| pair u32 <|
      pair u32 <| pair u32 <| pair u32 <| pair u32 u64)

end Superblock

namespace Inode

/-- The 128 bytes of an inode in the inode table. -/
def codec : Codec Inode 128 :=
  Equiv.trans
    { toFun := fun x => (x.id, x.mode, x.linkCount, x.size, x.mtime, x.blockCount, x.direct,
        x.singleIndirect, x.doubleIndirect, x.pad)
      invFun := fun (a, b, c, d, e, f, g, h, i, j) => ⟨a, b, c, d, e, f, g, h, i, j⟩
      left_inv := fun _ => rfl
      right_inv := fun _ => rfl }
    (pair u32 <| pair u16 <| pair u16 <| pair u64 <| pair u64 <| pair u32 <|
      pair (array 12 u32) <| pair u32 <| pair u32 <| array 11 u32)

end Inode

namespace DirEntry

/-- The 64 bytes of a directory slot. -/
def codec : Codec DirEntry 64 :=
  Equiv.trans
    { toFun := fun x => (x.inodeId, x.nameLen, x.type, x.name)
      invFun := fun (a, b, c, d) => ⟨a, b, c, d⟩
      left_inv := fun _ => rfl
      right_inv := fun _ => rfl }
    (pair u32 <| pair u8 <| pair u8 <| array 58 u8)

end DirEntry

/-! ## Reading and writing structs in a block -/

/-- Pointer `i` of an indirect block. -/
def ptrAt (b : Block) (i : Nat) : UInt32 := Codec.u32.symm (b.slice (4 * i) 4)

/-- An indirect block with pointer `i` overwritten. -/
def setPtrAt (b : Block) (i : Nat) (v : UInt32) : Block := b.patch (4 * i) (Codec.u32 v)

/-- Slot `i` of a directory block. -/
def slotAt (b : Block) (i : Nat) : DirEntry := DirEntry.codec.symm (b.slice (64 * i) 64)

/-- A directory block with slot `i` overwritten. -/
def setSlotAt (b : Block) (i : Nat) (e : DirEntry) : Block := b.patch (64 * i) (DirEntry.codec e)

/-- Inode `i` of the 32 in an inode table block. -/
def inodeIn (b : Block) (i : Nat) : Inode := Inode.codec.symm (b.slice (128 * i) 128)

/-- An inode table block with inode `i` overwritten. -/
def setInodeIn (b : Block) (i : Nat) (x : Inode) : Block := b.patch (128 * i) (Inode.codec x)

/-- The superblock held in block 0. -/
def superblockIn (b : Block) : Superblock := Superblock.codec.symm (b.slice 0 48)

/-- A block of zeros but for the superblock at its start. -/
def superblockBlock (sb : Superblock) : Block := (Bytes.zero 4096).patch 0 (Superblock.codec sb)

@[simp] theorem ptrAt_setPtrAt_self (b : Block) {i : Nat} (v : UInt32) (h : i < 1024) :
    ptrAt (setPtrAt b i v) i = v := by
  unfold ptrAt setPtrAt
  rw [Bytes.slice_patch_self _ _ (by omega), Equiv.symm_apply_apply]

theorem ptrAt_setPtrAt_ne (b : Block) {i j : Nat} (v : UInt32) (h : i ≠ j) :
    ptrAt (setPtrAt b i v) j = ptrAt b j := by
  unfold ptrAt setPtrAt
  rw [Bytes.slice_patch_disjoint _ _ (by omega)]

@[simp] theorem slotAt_setSlotAt_self (b : Block) {i : Nat} (e : DirEntry) (h : i < 64) :
    slotAt (setSlotAt b i e) i = e := by
  unfold slotAt setSlotAt
  rw [Bytes.slice_patch_self _ _ (by omega), Equiv.symm_apply_apply]

theorem slotAt_setSlotAt_ne (b : Block) {i j : Nat} (e : DirEntry) (h : i ≠ j) :
    slotAt (setSlotAt b i e) j = slotAt b j := by
  unfold slotAt setSlotAt
  rw [Bytes.slice_patch_disjoint _ _ (by omega)]

@[simp] theorem inodeIn_setInodeIn_self (b : Block) {i : Nat} (x : Inode) (h : i < 32) :
    inodeIn (setInodeIn b i x) i = x := by
  unfold inodeIn setInodeIn
  rw [Bytes.slice_patch_self _ _ (by omega), Equiv.symm_apply_apply]

theorem inodeIn_setInodeIn_ne (b : Block) {i j : Nat} (x : Inode) (h : i ≠ j) :
    inodeIn (setInodeIn b i x) j = inodeIn b j := by
  unfold inodeIn setInodeIn
  rw [Bytes.slice_patch_disjoint _ _ (by omega)]

@[simp] theorem superblockIn_superblockBlock (sb : Superblock) :
    superblockIn (superblockBlock sb) = sb := by
  unfold superblockIn superblockBlock
  rw [Bytes.slice_patch_self _ _ (by omega), Equiv.symm_apply_apply]

end ConcurrentFs
