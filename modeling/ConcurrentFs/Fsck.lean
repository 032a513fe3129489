/-
  ConcurrentFs.Fsck

  The checker (src/fsck.cpp).  It reads the image straight from the device and
  decodes it with no code of the file system's: superblock and bitmaps, the inode
  table, the blocks each inode points to, the tree of directories, the link
  counts, and the data bitmap.

  Its tables are vectors, and taking an element past the end of one is the
  exception `outOfBounds` here, as is a block read past the end of the device
  (`pastEnd`).  `reads` and `visits` are no part of the program: they record the
  blocks read, for what, and what the owner table said of them then, and the
  directories checked.
-/
import ConcurrentFs.Bitmap
import ConcurrentFs.Directory
import ConcurrentFs.Lib.Prog

namespace ConcurrentFs.Fsck

open Lib

/-- A device and what is on it. -/
structure Device where
  count : UInt32
  blocks : Nat → Block

/-- `Kind`. -/
inductive Kind where
  | none | file | dir | bad
  deriving DecidableEq

/-- `Ptr`: which pointer of an inode a block number came from, for messages. -/
inductive Ptr where
  | data | single | dbl | dbl2

/-- A `std::vector`. -/
structure Table (α : Type) where
  size : Nat
  get : Nat → α

/-- `assign`. -/
def Table.assign {α : Type} (size : Nat) (a : α) : Table α := ⟨size, fun _ => a⟩

/-- A vector with one element changed. -/
def Table.set {α : Type} (t : Table α) (i : Nat) (a : α) : Table α :=
  { t with get := Function.update t.get i a }

/-- What a block is read for. -/
inductive Use where
  | superblock
  | bitmap
  | inodeTable
  | indirect (id : Nat)
  | directory (id : Nat)

/-- A block read, and the inode that was recorded as its owner then, or 0. -/
structure Read where
  block : Nat
  use : Use
  owner : Nat

/-- What ends a check before its time: a block past the end of the device, an element past the end
    of a vector, a bit past the end of a bitmap; and rounds of the walk that have run out. -/
inductive Stop where
  | pastEnd | outOfBounds | outOfRange | outOfRounds

/-- `Checker`, with the report it fills in. -/
structure Checker where
  problems : List String
  files : UInt32
  directories : UInt32
  inodesUsed : UInt32
  blocksUsed : UInt32
  suppressed : Nat
  inodeBm : Bitmap
  blockBm : Bitmap
  inodes : Table Inode
  kind : Table Kind
  /-- Per block: the inode that owns it, or 0. -/
  owner : Table Nat
  /-- Per directory: its data blocks, 0 for a hole. -/
  dirBlocks : Table (List Nat)
  /-- Entries naming the inode, "." and ".." included. -/
  refs : Table UInt32
  /-- Entries naming it, "." and ".." not included. -/
  names : Table UInt32
  reachable : Table Bool
  reads : List Read
  visits : List Nat

/-- The checker before it has started. -/
def Checker.start : Checker where
  problems := []
  files := 0
  directories := 0
  inodesUsed := 0
  blocksUsed := 0
  suppressed := 0
  inodeBm := .ofSize 0
  blockBm := .ofSize 0
  inodes := .assign 0 .zero
  kind := .assign 0 .none
  owner := .assign 0 0
  dirBlocks := .assign 0 []
  refs := .assign 0 0
  names := .assign 0 0
  reachable := .assign 0 false
  reads := []
  visits := []

abbrev Check := Prog Checker Stop

/-- `str`. -/
def str (n : Nat) : String := toString n

/-- Bytes as text. -/
def text (bytes : List UInt8) : String := String.ofList (bytes.map fun c => Char.ofNat c.toNat)

/-- `problem`.  Past 200 problems they are counted rather than listed. -/
def problem (what : String) : Check Unit :=
  Prog.change fun c =>
    if c.problems.length < 200 then { c with problems := c.problems ++ [what] }
    else { c with suppressed := c.suppressed + 1 }

/-- Element `i` of a vector of the checker. -/
def elem {α : Type} (t : Checker → Table α) (i : Nat) : Check α := do
  let t ← Prog.view t
  if i < t.size then pure (t.get i) else throw .outOfBounds

/-- `is_set`. -/
def isSet (bm : Checker → Bitmap) (i : Nat) : Check Bool := do
  match (← Prog.view bm).isSet i with
  | some v => pure v
  | none => throw .outOfRange

def setKind (id : Nat) (k : Kind) : Check Unit := do
  let _ ← elem Checker.kind id
  Prog.change fun c => { c with kind := c.kind.set id k }

def setOwner (b id : Nat) : Check Unit := do
  let _ ← elem Checker.owner b
  Prog.change fun c => { c with owner := c.owner.set b id }

def setDirBlocks (id : Nat) (blocks : List Nat) : Check Unit := do
  let _ ← elem Checker.dirBlocks id
  Prog.change fun c => { c with dirBlocks := c.dirBlocks.set id blocks }

def setReachable (id : Nat) : Check Unit := do
  let _ ← elem Checker.reachable id
  Prog.change fun c => { c with reachable := c.reachable.set id true }

/-- `refs_[id]++`. -/
def countRef (id : Nat) : Check Unit := do
  let n ← elem Checker.refs id
  Prog.change fun c => { c with refs := c.refs.set id (n + 1) }

/-- `names_[id]++`, and what it is then. -/
def countName (id : Nat) : Check UInt32 := do
  let n ← elem Checker.names id
  Prog.change fun c => { c with names := c.names.set id (n + 1) }
  return n + 1

variable (dev : Device)

/-- `read`. -/
def read (block : Nat) (use : Use) : Check Block := do
  if block < dev.count.toNat then
    Prog.change fun c => { c with reads := c.reads ++ [⟨block, use, c.owner.get block⟩] }
    return dev.blocks block
  else throw .pastEnd

/-- `Bitmap::load` through the device. -/
def loadBitmap (nbits firstBlock : Nat) : Check Bitmap := do
  (List.range (blocksFor nbits)).forM fun k => do
    let _ ← read dev (firstBlock + k) .bitmap
  return .load dev.blocks firstBlock nbits

/-! ## Superblock -/

/-- `check_superblock`; the superblock if it can be used. -/
def checkSuperblock : Check (Option Superblock) := do
  let b ← read dev 0 .superblock
  let sb := superblockIn b
  match validateSuperblock sb dev.count with
  | .error e =>
    problem ("superblock: " ++ e)
    return none
  | .ok () =>
    match (List.range' 48 (4096 - 48)).find? fun i => b.get i != 0 with
    | some i => problem ("superblock: block 0 has data after the superblock, at byte " ++ str i)
    | none => pure ()
    return some sb

variable (sb : Superblock)

/-- `load_inodes`. -/
def loadInodes : Check Unit := do
  (List.range (sb.inodeCount.toNat / 32)).forM fun t => do
    let _ ← read dev (sb.inodeTableStart.toNat + t) .inodeTable
  Prog.change fun c =>
    { c with
      inodes := ⟨sb.inodeCount.toNat,
        fun id => inodeIn (dev.blocks (sb.inodeTableStart.toNat + id / 32)) (id % 32)⟩
      kind := .assign sb.inodeCount.toNat .none
      owner := .assign sb.totalBlocks.toNat 0
      dirBlocks := .assign sb.inodeCount.toNat []
      refs := .assign sb.inodeCount.toNat 0
      names := .assign sb.inodeCount.toNat 0
      reachable := .assign sb.inodeCount.toNat false }

/-! ## Inodes -/

/-- `describe`. -/
def describe (p : Ptr) (index : Nat) : String :=
  match p with
  | .data => "file block " ++ str index
  | .single => "its single-indirect block"
  | .dbl => "its double-indirect block"
  | .dbl2 => "entry " ++ str index ++ " of its double-indirect block"

/-- `claim`: records that inode `id` owns block `b`, unless `b` is out of range or owned already,
    in which case it must not be read as this inode's. -/
def claim (id b : Nat) (p : Ptr) (index : Nat) : Check Bool := do
  if b < sb.dataStart.toNat ∨ b ≥ sb.totalBlocks.toNat then
    problem ("inode " ++ str id ++ ": " ++ describe p index ++ " points to block " ++ str b
      ++ ", outside the data region " ++ str sb.dataStart.toNat ++ "-"
      ++ str (sb.totalBlocks.toNat - 1))
    return false
  let owner ← elem Checker.owner b
  if owner = id then
    problem ("inode " ++ str id ++ " points to block " ++ str b ++ " twice (" ++ describe p index
      ++ ")")
    return false
  if owner ≠ 0 then
    problem ("block " ++ str b ++ " is owned twice: by inode " ++ str owner ++ " and by inode "
      ++ str id ++ " (" ++ describe p index ++ ")")
    return false
  setOwner b id
  return true

/-- What `check_blocks` keeps while it goes through the pointers of an inode: how many there were
    that are no hole, one past the last file block, and the calls of its `data` callback. -/
structure Walked where
  owned : Nat
  «end» : Nat
  data : List (Nat × Nat)

/-- `dir_map[index] = b`, growing it as needed. -/
def mapped (dirMap : List Nat) (index b : Nat) : List Nat :=
  (dirMap ++ List.replicate (index + 1 - dirMap.length) 0).set index b

/-- The callback `data`. -/
def onData (id : Nat) (isDir : Bool) (w : Walked) (index b : Nat) : Check Walked := do
  let mine ← claim sb id b .data index
  if isDir ∧ mine ∧ index < 2 ^ 20 then
    let dirMap ← elem Checker.dirBlocks id
    setDirBlocks id (mapped dirMap index b)
  return ⟨w.owned + 1, max w.end (index + 1), w.data ++ [(index, b)]⟩

/-- The loop over a block of pointers, whose first stands for file block `first`. -/
@[irreducible] def onPointers (id : Nat) (isDir : Bool) (first : Nat) (p : Block) (w : Walked) :
    Check Walked :=
  (List.range 1024).foldlM (fun w j =>
    if (ptrAt p j).toNat ≠ 0 then onData sb id isDir w (first + j) (ptrAt p j).toNat else pure w) w

/-- The direct pointers. -/
def onDirect (id : Nat) (ino : Inode) (isDir : Bool) (w : Walked) : Check Walked :=
  (List.finRange 12).foldlM (fun w i =>
    if (ino.direct i).toNat ≠ 0 then onData sb id isDir w i.val (ino.direct i).toNat else pure w) w

/-- The single-indirect block. -/
def onSingle (id : Nat) (ino : Inode) (isDir : Bool) (w : Walked) : Check Walked := do
  let single := ino.singleIndirect.toNat
  if single = 0 then return w
  let w := { w with owned := w.owned + 1 }
  if ← claim sb id single .single 0 then
    let p ← read dev single (.indirect id)
    onPointers sb id isDir 12 p w
  else return w

/-- Entry `j` of the double-indirect block `top`. -/
def onSecond (id : Nat) (isDir : Bool) (top : Block) (w : Walked) (j : Nat) : Check Walked := do
  let second := (ptrAt top j).toNat
  if second = 0 then return w
  let w := { w with owned := w.owned + 1 }
  if ← claim sb id second .dbl2 j then
    let p ← read dev second (.indirect id)
    onPointers sb id isDir (12 + 1024 + j * 1024) p w
  else return w

/-- The loop over the double-indirect block `top`. -/
@[irreducible] def onSeconds (id : Nat) (isDir : Bool) (top : Block) (w : Walked) : Check Walked :=
  (List.range 1024).foldlM (onSecond dev sb id isDir top) w

/-- The double-indirect block. -/
def onDouble (id : Nat) (ino : Inode) (isDir : Bool) (w : Walked) : Check Walked := do
  let double := ino.doubleIndirect.toNat
  if double = 0 then return w
  let w := { w with owned := w.owned + 1 }
  if ← claim sb id double .dbl 0 then
    let top ← read dev double (.indirect id)
    onSeconds dev sb id isDir top w
  else return w

/-- The first half of `check_blocks`: every pointer of the inode. -/
def checkPointers (id : Nat) (ino : Inode) (isDir : Bool) : Check Walked := do
  let w ← onDirect sb id ino isDir ⟨0, 0, []⟩
  let w ← onSingle dev sb id ino isDir w
  onDouble dev sb id ino isDir w

/-- The second half for anything but a directory. -/
def checkEnd (id : Nat) (ino : Inode) (w : Walked) : Check Unit := do
  let sizeBlocks := ((ino.size + 4096 - 1) / 4096).toNat
  if w.end > sizeBlocks then
    problem ("inode " ++ str id ++ " owns file block " ++ str (w.end - 1)
      ++ ", past the end of its " ++ str ino.size.toNat ++ "-byte size")

/-- The second half for a directory. -/
def checkDirEnd (id : Nat) (ino : Inode) (w : Walked) : Check Unit := do
  let who := "directory inode " ++ str id
  if ino.size.toNat % 4096 ≠ 0 then
    problem (who ++ ": size " ++ str ino.size.toNat ++ " is not a whole number of blocks")
  let nblocks := ino.size.toNat / 4096
  if nblocks = 0 then
    problem (who ++ " has no blocks: it needs one for \".\" and \"..\"")
  if w.end > nblocks then
    problem (who ++ " owns file block " ++ str (w.end - 1) ++ ", past the end of its "
      ++ str ino.size.toNat ++ "-byte size")
  let dirMap ← elem Checker.dirBlocks id
  -- the first hole, looked for no further than where the map ends
  match (List.range (min nblocks (dirMap.length + 1))).find? fun i => dirMap.getD i 0 = 0 with
  | some i => problem (who ++ " has a hole at file block " ++ str i)
  | none => pure ()
  if dirMap.length > nblocks then setDirBlocks id (dirMap.take nblocks)

/-- `check_blocks`. -/
def checkBlocks (id : Nat) : Check Unit := do
  let ino ← elem Checker.inodes id
  let isDir := (← elem Checker.kind id) = .dir
  let w ← checkPointers dev sb id ino isDir
  if w.owned ≠ ino.blockCount.toNat then
    problem ("inode " ++ str id ++ ": block_count is " ++ str ino.blockCount.toNat
      ++ ", but it owns " ++ str w.owned ++ " blocks")
  if ino.size.toNat > maxFileBlocks * 4096 then
    problem ("inode " ++ str id ++ ": size " ++ str ino.size.toNat
      ++ " is larger than any file can be")
  if isDir then checkDirEnd id ino w else checkEnd id ino w

/-- `%o`. -/
def octal (n : Nat) : String := String.ofList (Nat.toDigits 8 n)

/-- The body of the loop of `check_inodes`. -/
def checkInode (id : Nat) : Check Unit := do
  let ino ← elem Checker.inodes id
  let marked ← isSet Checker.inodeBm id
  if id = 0 then
    if ¬ marked then problem "inode 0 is reserved but not marked in the inode bitmap"
    if ino ≠ .zero then problem "inode 0 is reserved and should be all zeros"
    return
  if ¬ marked then
    if ino ≠ .zero then problem ("inode " ++ str id ++ " is free but not zeroed")
    return
  Prog.change fun c => { c with inodesUsed := c.inodesUsed + 1 }
  if ino.id.toNat ≠ id then
    problem ("inode " ++ str id ++ ": its id field says " ++ str ino.id.toNat)
  if ino.mode = modeFile ||| filePerm then setKind id .file
  else if ino.mode = modeDir ||| dirPerm then setKind id .dir
  else
    problem ("inode " ++ str id ++ ": mode 0" ++ octal ino.mode.toNat
      ++ " is neither a file (0100644) nor a directory (040755)")
    setKind id .bad
  if ino.linkCount = 0 then problem ("inode " ++ str id ++ " is in use but has link_count 0")
  checkBlocks dev sb id

/-- `check_inodes`. -/
def checkInodes : Check Unit := do
  (List.range sb.inodeCount.toNat).forM (checkInode dev sb)
  let noRoot := "the root, inode " ++ str rootInode ++ ", is not a directory in use"
  if sb.inodeCount.toNat ≤ rootInode then problem noRoot
  else if (← elem Checker.kind rootInode) ≠ .dir then problem noRoot

/-! ## Tree -/

/-- A directory still to be checked, and its parent. -/
abbrev Pending := Nat × Nat

/-- `check_dot`. -/
def checkDot (who : String) (e : DirEntry) (slot : Nat) (wantName : Name) (wantId : Nat) :
    Check Unit := do
  let nameOk := e.nameLen.toNat = wantName.length ∧
    (List.ofFn e.name).take wantName.length = wantName
  let quoted := "\"" ++ text wantName ++ "\""
  if ¬ nameOk ∨ e.type ≠ ftDir then
    problem (who ++ ": slot " ++ str slot ++ " should be " ++ quoted ++ ", a directory entry")
  else if e.inodeId.toNat ≠ wantId then
    problem (who ++ ": " ++ quoted ++ " points to inode " ++ str e.inodeId.toNat
      ++ ", but should point to inode " ++ str wantId)

/-- What `check_directory` carries from slot to slot: the names seen, and the stack. -/
structure Scan where
  seen : List Name
  stack : List Pending

/-- What is said of the name of an entry: its length, its bytes, and that it is new. -/
def checkName (who : String) (slot : Nat) (e : DirEntry) (name : Name) (seen : List Name) :
    Check Unit := do
  if e.nameLen.toNat = 0 ∨ e.nameLen.toNat > 58 then
    problem (who ++ ": slot " ++ str slot ++ " has a name " ++ str e.nameLen.toNat
      ++ " bytes long")
  else if 47 ∈ name ∨ 0 ∈ name then
    problem ("entry \"" ++ text name ++ "\" in " ++ who ++ " has a '/' or NUL in its name")
  else if name = dot ∨ name = dotdot then
    problem (who ++ ": an extra \"" ++ text name ++ "\" entry in slot " ++ str slot)
  if name ∈ seen then problem (who ++ " has two entries named \"" ++ text name ++ "\"")

/-- An entry that names inode `x`, which exists: the inode is counted, and walked if it is a
    directory not named before. -/
def checkTarget (dir : Nat) (entry : String) (e : DirEntry) (stack : List Pending) :
    Check (List Pending) := do
  let x := e.inodeId.toNat
  countRef x
  let kind ← elem Checker.kind x
  if kind = .none then
    problem (entry ++ " points to inode " ++ str x ++ ", which is not in use")
    return stack
  if kind = .bad then
    let _ ← countName x
    setReachable x
    return stack
  let isDir := kind = .dir
  if e.type ≠ (if isDir then ftDir else ftFile) then
    problem (entry ++ " has type " ++ str e.type.toNat ++ ", but inode " ++ str x ++ " is a "
      ++ (if isDir then "directory" else "file"))
  let n ← countName x
  if n > 1 ∨ x = rootInode then return stack
  setReachable x
  if isDir then return (x, dir) :: stack
  Prog.change fun c => { c with files := c.files + 1 }
  return stack

/-- One slot of a directory. -/
def checkSlot (dir parent slot : Nat) (e : DirEntry) (a : Scan) : Check Scan := do
  let who := "directory inode " ++ str dir
  if slot < 2 then
    checkDot who e slot (if slot = 0 then dot else dotdot) (if slot = 0 then dir else parent)
    if e.inodeId ≠ 0 ∧ e.inodeId < sb.inodeCount then countRef e.inodeId.toNat
    return a
  if e.inodeId = 0 then
    if e ≠ .zero then problem (who ++ ": free slot " ++ str slot ++ " is not zeroed")
    return a
  let name := (List.ofFn e.name).take (min e.nameLen.toNat 58)
  let entry := "entry \"" ++ text name ++ "\" in " ++ who
  checkName who slot e name a.seen
  let seen := name :: a.seen
  if e.inodeId ≥ sb.inodeCount then
    problem (entry ++ " points to inode " ++ str e.inodeId.toNat ++ ", which does not exist")
    return { a with seen := seen }
  let stack ← checkTarget dir entry e a.stack
  return ⟨seen, stack⟩

/-- Block `fb` of a directory, if it is no hole. -/
def checkDirBlock (dir parent : Nat) (a : Scan) (fb block : Nat) : Check Scan := do
  if block = 0 then return a
  let b ← read dev block (.directory dir)
  (List.range 64).foldlM (fun a s => checkSlot sb dir parent (fb * 64 + s) (slotAt b s) a) a

/-- `check_directory`; the stack as it leaves it. -/
def checkDirectory (dir parent : Nat) (stack : List Pending) : Check (List Pending) := do
  Prog.change fun c => { c with visits := c.visits ++ [dir] }
  let blocks ← elem Checker.dirBlocks dir
  let a ← (List.range blocks.length).foldlM (fun a fb =>
    checkDirBlock dev sb dir parent a fb (blocks.getD fb 0)) ⟨[], stack⟩
  return a.stack

/-- The loop of `walk_tree`, for at most so many rounds. -/
def walkFrom (stack : List Pending) : Nat → Check Unit
  | 0 => throw .outOfRounds
  | n + 1 =>
    match stack with
    | [] => pure ()
    | (dir, parent) :: rest => do
      Prog.change fun c => { c with directories := c.directories + 1 }
      let stack ← checkDirectory dev sb dir parent rest
      walkFrom stack n

/-- `walk_tree`. -/
def walkTree (rounds : Nat) : Check Unit := do
  if (← Prog.view Checker.kind).size ≤ rootInode then return
  if (← elem Checker.kind rootInode) ≠ .dir then return
  setReachable rootInode
  walkFrom dev sb [(rootInode, rootInode)] rounds

/-! ## Links -/

/-- The body of the loop of `check_links`. -/
def checkLink (id : Nat) : Check Unit := do
  let k ← elem Checker.kind id
  if k = .none then return
  let what := if k = .dir then "directory" else if k = .file then "file" else "bad"
  let who := what ++ " inode " ++ str id
  let names ← elem Checker.names id
  if id = rootInode then
    if names > 0 then
      problem ("the root directory is named by " ++ str names.toNat
        ++ " entries; only its own \".\" and \"..\" may name it")
  else if ¬ (← elem Checker.reachable id) then
    problem (who ++ " is in use but not reachable from the root")
    return
  else if names > 1 then
    problem (who ++ " is named by " ++ str names.toNat ++ " entries; it must have exactly one name")
  let ino ← elem Checker.inodes id
  let refs ← elem Checker.refs id
  if k ≠ .bad ∧ ino.linkCount.toNat ≠ refs.toNat then
    problem (who ++ " has link_count " ++ str ino.linkCount.toNat ++ ", but " ++ str refs.toNat
      ++ (if refs = 1 then " directory entry names it" else " directory entries name it"))

/-- `check_links`. -/
def checkLinks : Check Unit :=
  (List.range' 1 (sb.inodeCount.toNat - 1)).forM checkLink

/-! ## Data bitmap -/

/-- The body of the loop of `check_data_bitmap`. -/
def checkBit (b : Nat) : Check Unit := do
  let bit ← isSet Checker.blockBm b
  if b < sb.dataStart.toNat then
    if ¬ bit then
      problem ("metadata block " ++ str b ++ " is not marked in use in the data bitmap")
  else
    let owner ← elem Checker.owner b
    if owner ≠ 0 ∧ ¬ bit then
      problem ("block " ++ str b ++ " is owned by inode " ++ str owner
        ++ " but not marked in use in the data bitmap")
    else if owner = 0 ∧ bit then
      problem ("block " ++ str b ++ " is marked in use, but no inode owns it (leaked)")

/-- `check_data_bitmap`. -/
def checkDataBitmap : Check Unit := (List.range sb.totalBlocks.toNat).forM (checkBit sb)

/-! ## The whole check -/

/-- `Checker::run` from the superblock to the walk: it fills in the tables. -/
def tables : Check Unit := do
  let inodeBm ← loadBitmap dev sb.inodeCount.toNat sb.inodeBitmapStart.toNat
  Prog.change fun c => { c with inodeBm := inodeBm }
  let blockBm ← loadBitmap dev sb.totalBlocks.toNat sb.dataBitmapStart.toNat
  Prog.change fun c => { c with blockBm := blockBm }
  loadInodes dev sb
  checkInodes dev sb

/-- `Checker::run` after the superblock. -/
def runBody (rounds : Nat) : Check Unit := do
  tables dev sb
  walkTree dev sb rounds
  checkLinks sb
  checkDataBitmap sb
  Prog.change fun c => { c with blocksUsed := c.blockBm.countSet }
  Prog.change fun c =>
    if c.suppressed > 0 then
      { c with problems := c.problems ++ ["... and " ++ str c.suppressed ++ " more problems"] }
    else c

/-- `Checker::run`, which is `fsck`, with so many rounds of the walk. -/
def fsck (rounds : Nat) : Check Unit := do
  match ← checkSuperblock dev with
  | none => return
  | some sb => runBody dev sb rounds

end ConcurrentFs.Fsck
