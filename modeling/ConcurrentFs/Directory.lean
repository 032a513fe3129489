/-
  ConcurrentFs.Directory

  Directories and paths (src/directory.cpp, src/path.cpp).  A directory is a file
  of 64-byte slots; its blocks are read one after the other, and in each the 64
  slots in order.  A path is split into names with "." and ".." resolved by name.
-/
import ConcurrentFs.BlockMap

namespace ConcurrentFs

open Lib

/-- A name: the bytes of one path component. -/
abbrev Name := List UInt8

variable (sb : Superblock)

/-- `is_named`. -/
def isNamed (name : Name) (e : DirEntry) : Bool :=
  e.inodeId != 0 && e.nameLen.toNat == name.length
    && (List.ofFn e.name).take name.length == name

/-- `make_entry`. -/
def makeEntry (name : Name) (inodeId : Nat) (type : UInt8) : DirEntry where
  inodeId := UInt32.ofNat inodeId
  nameLen := UInt8.ofNat name.length
  type := type
  name := fun i => name.getD i.val 0

/-- `read_dir_block`: block `k` of a directory, and where it lies.  A directory has no holes. -/
def readDirBlock (dir : Inode) (k : Nat) : Fs (Nat × Block) := do
  let block ← bmapRead sb dir k
  if block = 0 then throwErrno .eio
  let b ← readBlock sb block
  return (block, b)

/-- `block_count_of`. -/
def blockCountOf (dir : Inode) : Nat := dir.size.toNat / 4096

/-- A slot found in a directory: the block it lies in, its place there, and what it holds. -/
structure Slot where
  block : Nat
  place : Nat
  entry : DirEntry

/-- The first of the 64 slots of directory block `k` that `p` accepts. -/
def findInBlock (p : Nat → DirEntry → Bool) (k : Nat) (b : Block) : Option Nat :=
  (List.range 64).find? fun s => p (64 * k + s) (slotAt b s)

/-- The loop that `dir_lookup`, `dir_add`, `dir_remove` and `dir_is_empty` share: from block `k`
    on, with `n` blocks to go, the first slot that `p` accepts. -/
def findSlotFrom (dir : Inode) (p : Nat → DirEntry → Bool) (k : Nat) : Nat → Fs (Option Slot)
  | 0 => pure none
  | n + 1 => do
    let (block, b) ← readDirBlock sb dir k
    match findInBlock p k b with
    | some s => return some ⟨block, s, slotAt b s⟩
    | none => findSlotFrom dir p (k + 1) n

/-- The first slot of a directory that `p`, given its number and its entry, accepts. -/
def findSlot (dir : Inode) (p : Nat → DirEntry → Bool) : Fs (Option Slot) :=
  findSlotFrom sb dir p 0 (blockCountOf dir)

/-- `dir_lookup`: the inode a name points at and the type of its entry, or 0. -/
def dirLookup (dir : Inode) (name : Name) : Fs (Nat × UInt8) := do
  match ← findSlot sb dir fun _ e => isNamed name e with
  | some slot => return (slot.entry.inodeId.toNat, slot.entry.type)
  | none => return (0, 0)

/-- `dir_add`, with the directory's inode as it leaves it. -/
def dirAdd (dir : Inode) (name : Name) (inodeId : Nat) (type : UInt8) : Fs Inode := do
  let e := makeEntry name inodeId type
  match ← findSlot sb dir fun _ e => e.inodeId == 0 with
  | some slot =>
    writeBlock sb slot.block false fun w => setSlotAt w slot.place e
    return dir
  | none =>
    -- every slot is taken: grow by one block, with this entry first
    let m ← bmapAlloc sb dir (blockCountOf dir)
    writeBlock sb m.block true fun w => setSlotAt w 0 e
    return { m.ino with size := m.ino.size + 4096 }

/-- `dir_remove`. -/
def dirRemove (dir : Inode) (name : Name) : Fs Bool := do
  match ← findSlot sb dir fun _ e => isNamed name e with
  | some slot =>
    writeBlock sb slot.block false fun w => setSlotAt w slot.place .zero
    return true
  | none => return false

/-- `DirItem`. -/
structure DirItem where
  name : Name
  inode : Nat
  type : UInt8
  deriving DecidableEq

/-- The items of one directory block. -/
def itemsIn (b : Block) : List DirItem :=
  (((List.range 64).map (slotAt b)).filter fun e => e.inodeId ≠ 0).map fun e =>
    ⟨(List.ofFn e.name).take (min e.nameLen.toNat 58), e.inodeId.toNat, e.type⟩

/-- The loop of `dir_list`. -/
def dirListFrom (dir : Inode) (k : Nat) : Nat → Fs (List DirItem)
  | 0 => pure []
  | n + 1 => do
    let (_, b) ← readDirBlock sb dir k
    let rest ← dirListFrom dir (k + 1) n
    return itemsIn b ++ rest

/-- `dir_list`. -/
def dirList (dir : Inode) : Fs (List DirItem) := dirListFrom sb dir 0 (blockCountOf dir)

/-- `dir_is_empty`.  Slots 0 and 1 are always "." and "..". -/
def dirIsEmpty (dir : Inode) : Fs Bool := do
  let found ← findSlot sb dir fun slot e => 2 ≤ slot && e.inodeId != 0
  return found.isNone

/-- The names "." and "..". -/
def dot : Name := [46]
@[inherit_doc dot] def dotdot : Name := [46, 46]

/-- What `dir_init` writes: "." then "..", the rest free. -/
def dirBlock (self parent : Nat) (w : Block) : Block :=
  setSlotAt (setSlotAt w 0 (makeEntry dot self ftDir)) 1 (makeEntry dotdot parent ftDir)

/-- `dir_init`. -/
def dirInit (block self parent : Nat) : Fs Unit := writeBlock sb block true (dirBlock self parent)

/-! ## Paths -/

/-- One component of a path, added to the names before it. -/
def pushComponent (names : List Name) (c : Name) : Except Errno (List Name) :=
  if c.length = 0 then .ok names  -- a trailing slash
  else if c.length > 58 then .error .enametoolong
  else if c = dot then .ok names
  else if c = dotdot then .ok names.dropLast
  else .ok (names ++ [c])

/-- The loop of `split_path`.  Every round takes at least one byte, so as many rounds as bytes
    are enough. -/
def splitFrom (names : List Name) (p : List UInt8) : Nat → Except Errno (List Name)
  | 0 => .ok names
  | n + 1 =>
    if p = [] then .ok names
    else
      let start := p.dropWhile (· == 47)
      match pushComponent names (start.takeWhile (· != 47)) with
      | .error e => .error e
      | .ok names => splitFrom names (start.dropWhile (· != 47)) n

/-- `split_path`.  `none` is the null pointer, a path the bytes before its NUL. -/
def splitPath (path : Option (List UInt8)) : Except Errno (List Name) :=
  match path with
  | none => .error .einval
  | some p => if p.head? = some 47 then splitFrom [] p p.length else .error .einval

end ConcurrentFs
