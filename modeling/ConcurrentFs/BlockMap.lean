/-
  ConcurrentFs.BlockMap

  Which disk block holds which block of a file (src/block_map.cpp): 12 direct
  pointers in the inode, 1024 in the single-indirect block, and 1024 times 1024
  below the double-indirect block.  A pointer of 0 is a hole.

  The code that only looks is given a second time as a plain function of the
  blocks, `bmap`, which is what the rest of the development speaks of.
-/
import ConcurrentFs.FileSystem

namespace ConcurrentFs

open Lib

variable (sb : Superblock)

/-- `get_ptr`. -/
def getPtr (block i : Nat) : Fs Nat := do
  let b ← readBlock sb block
  return (ptrAt b i).toNat

/-- `set_ptr`.  `fresh`: the indirect block is brand new, so it starts from zeros. -/
def setPtr (block : Nat) (fresh : Bool) (i value : Nat) : Fs Unit :=
  writeBlock sb block fresh fun b => setPtrAt b i (UInt32.ofNat value)

/-- The loop of `alloc_all`: `n` more blocks, those in `got` given back if the disk runs out. -/
def allocAllFrom (got : List Nat) : Nat → Fs (List Nat)
  | 0 => pure got
  | n + 1 => do
    let b ← (allocBlock sb).onError (freeBlocks sb got)
    allocAllFrom (got ++ [b]) n

/-- `alloc_all`: `n` blocks or none. -/
def allocAll (n : Nat) : Fs (List Nat) := allocAllFrom sb [] n

/-- The pointers of an indirect block that are not holes, in order. -/
def pointersIn (b : Block) : List Nat :=
  ((List.range 1024).map fun k => (ptrAt b k).toNat).filter (· ≠ 0)

/-- `collect`. -/
def collect (block : Nat) : Fs (List Nat) := do
  let b ← readBlock sb block
  return pointersIn b

/-- `ino.direct[i] = v`. -/
def Inode.setDirect (ino : Inode) (i : Fin 12) (v : Nat) : Inode :=
  { ino with direct := Function.update ino.direct i (UInt32.ofNat v) }

/-- `ino.block_count += n`. -/
def Inode.addBlocks (ino : Inode) (n : Nat) : Inode :=
  { ino with blockCount := ino.blockCount + UInt32.ofNat n }

/-- `bmap_read`. -/
def bmapRead (ino : Inode) (index : Nat) : Fs Nat :=
  if h : index < 12 then pure (ino.direct ⟨index, h⟩).toNat
  else if index - 12 < 1024 then
    if ino.singleIndirect ≠ 0 then getPtr sb ino.singleIndirect.toNat (index - 12) else pure 0
  else if index - 12 - 1024 ≥ 1024 * 1024 then throwErrno .efbig
  else if ino.doubleIndirect = 0 then pure 0
  else do
    let second ← getPtr sb ino.doubleIndirect.toNat ((index - 12 - 1024) / 1024)
    if second ≠ 0 then getPtr sb second ((index - 12 - 1024) % 1024) else pure 0

/-- What `bmap_alloc` gives back: the inode as it left it, the data block, and whether that block
    is new. -/
structure Mapped where
  ino : Inode
  block : Nat
  fresh : Bool

/-- `bmap_alloc` below 12: the pointer is in the inode. -/
def bmapAllocDirect (ino : Inode) (i : Fin 12) : Fs Mapped := do
  if ino.direct i ≠ 0 then return ⟨ino, (ino.direct i).toNat, false⟩
  let data ← allocBlock sb
  return ⟨(ino.setDirect i data).addBlocks 1, data, true⟩

/-- `bmap_alloc` for entry `i` of the single-indirect block. -/
def bmapAllocSingle (ino : Inode) (i : Nat) : Fs Mapped := do
  if ino.singleIndirect ≠ 0 then
    let data ← getPtr sb ino.singleIndirect.toNat i
    if data ≠ 0 then return ⟨ino, data, false⟩
    let data ← allocBlock sb
    setPtr sb ino.singleIndirect.toNat false i data
    return ⟨ino.addBlocks 1, data, true⟩
  let got ← allocAll sb 2
  let single := got.getD 0 0
  let data := got.getD 1 0
  setPtr sb single true i data
  return ⟨{ ino with singleIndirect := UInt32.ofNat single }.addBlocks 2, data, true⟩

/-- `bmap_alloc` for entry `i2` of second-level block `i1`. -/
def bmapAllocDouble (ino : Inode) (i1 i2 : Nat) : Fs Mapped := do
  let top := ino.doubleIndirect.toNat
  let second ← if top ≠ 0 then getPtr sb top i1 else pure 0
  let data ← if second ≠ 0 then getPtr sb second i2 else pure 0
  if data ≠ 0 then return ⟨ino, data, false⟩
  -- up to three new blocks, taken together
  let need := 1 + (if second ≠ 0 then 0 else 1) + (if top ≠ 0 then 0 else 1)
  let got ← allocAll sb need
  let newTop := top == 0
  let newSecond := second == 0
  let (top, got) := if newTop then (got.headD 0, got.tail) else (top, got)
  let (second, got) := if newSecond then (got.headD 0, got.tail) else (second, got)
  let data := got.headD 0
  setPtr sb second newSecond i2 data
  if newSecond then setPtr sb top newTop i1 second
  return ⟨{ ino with doubleIndirect := UInt32.ofNat top }.addBlocks need, data, true⟩

/-- `bmap_alloc`. -/
def bmapAlloc (ino : Inode) (index : Nat) : Fs Mapped :=
  if h : index < 12 then bmapAllocDirect sb ino ⟨index, h⟩
  else if index - 12 < 1024 then bmapAllocSingle sb ino (index - 12)
  else if index - 12 - 1024 ≥ 1024 * 1024 then throwErrno .efbig
  else bmapAllocDouble sb ino ((index - 12 - 1024) / 1024) ((index - 12 - 1024) % 1024)

/-- The second-level blocks with everything below them. -/
def collectSeconds : List Nat → Fs (List Nat)
  | [] => pure []
  | second :: rest => do
    let below ← collect sb second
    let others ← collectSeconds rest
    return below ++ [second] ++ others

/-- The single-indirect block with everything below it. -/
def collectSingle (ino : Inode) : Fs (List Nat) :=
  if ino.singleIndirect ≠ 0 then do
    let below ← collect sb ino.singleIndirect.toNat
    return below ++ [ino.singleIndirect.toNat]
  else pure []

/-- The double-indirect block with everything below it. -/
def collectDouble (ino : Inode) : Fs (List Nat) :=
  if ino.doubleIndirect ≠ 0 then do
    let seconds ← collect sb ino.doubleIndirect.toNat
    let below ← collectSeconds sb seconds
    return below ++ [ino.doubleIndirect.toNat]
  else pure []

/-- `free_all_blocks`. -/
def freeAllBlocks (ino : Inode) : Fs Inode := do
  let direct := ((List.finRange 12).map fun i => (ino.direct i).toNat).filter (· ≠ 0)
  let single ← collectSingle sb ino
  let double ← collectDouble sb ino
  freeBlocks sb (direct ++ single ++ double)
  return { ino with
    direct := fun _ => 0, singleIndirect := 0, doubleIndirect := 0, blockCount := 0 }

/-! ## The map as a function of the blocks -/

/-- The block of file block `index`, 0 for a hole and past the last one there can be. -/
def bmap (blk : Nat → Block) (ino : Inode) (index : Nat) : Nat :=
  if h : index < 12 then (ino.direct ⟨index, h⟩).toNat
  else if index - 12 < 1024 then
    if ino.singleIndirect = 0 then 0
    else (ptrAt (blk ino.singleIndirect.toNat) (index - 12)).toNat
  else if index - 12 - 1024 < 1024 * 1024 then
    if ino.doubleIndirect = 0 then 0
    else
      let second := (ptrAt (blk ino.doubleIndirect.toNat) ((index - 12 - 1024) / 1024)).toNat
      if second = 0 then 0 else (ptrAt (blk second) ((index - 12 - 1024) % 1024)).toNat
  else 0

end ConcurrentFs
