/-
  ConcurrentFs.Vfs

  The public API (src/vfs.cpp) over the lock manager (src/lock_manager.cpp): path
  lookup, the open file table, and every call as a program of atomic steps.  One
  step is: taking or giving back a reference to a lock entry, an inode lock or a
  descriptor, reading an inode or a directory, or a stretch of code that changes
  blocks under an exclusive lock (marked `atomic`).  What a destructor does at the
  end of a scope is `ensure`.
-/
import ConcurrentFs.Directory

namespace ConcurrentFs

open Lib

/-! ## The lock manager -/

/-- `Entry{}`. -/
def Entry.new (addr : Nat) : Entry where
  addr := addr
  readers := 0
  writer := false
  openCount := 0
  refs := 0
  inode := .zero
  inodeValid := false

namespace FileSystem

variable (s : FileSystem)

/-- The entry at `p`, if it is still there. -/
def entryAt (p : EntryPtr) : Option Entry := (s.entries p.id).filter fun e => e.addr == p.addr

/-- Changes the entry of inode `id`. -/
def setEntry (id : Nat) (e : Option Entry) : FileSystem :=
  { s with entries := Function.update s.entries id e }

/-- Changes the entry at `p`. -/
def mapEntry (p : EntryPtr) (f : Entry → Entry) : FileSystem :=
  match s.entryAt p with
  | some e => s.setEntry p.id (some (f e))
  | none => s

/-- The entry `LockManager::acquire` finds or makes. -/
def entryOrNew (id : Nat) : Entry := (s.entries id).getD (.new s.made)

/-- `LockManager::acquire`. -/
def acquired (id : Nat) : FileSystem :=
  { s.setEntry id (some { s.entryOrNew id with refs := (s.entryOrNew id).refs + 1 }) with
    made := if (s.entries id).isSome then s.made else s.made + 1 }

/-- `LockManager::release`. -/
def released (id : Nat) : FileSystem :=
  match s.entries id with
  | some e => s.setEntry id (if e.refs - 1 = 0 then none else some { e with refs := e.refs - 1 })
  | none => s

end FileSystem

/-- `LockManager::acquire`. -/
def acquire (id : Nat) : Fs EntryPtr :=
  .act (fun _ => true) (·.acquired id) fun s => pure ⟨id, (s.entryOrNew id).addr⟩

/-- `LockManager::release`. -/
def release (id : Nat) : Fs Unit := Prog.change (·.released id)

/-- Reads the entry at `p`. -/
def readEntry {α : Type} (p : EntryPtr) (f : Entry → α) : Fs α :=
  .act (fun _ => true) id fun s =>
    match s.entryAt p with
    | some e => pure (f e)
    | none => throw Exn.fault

/-- Changes the entry at `p`. -/
def changeEntry (p : EntryPtr) (f : Entry → Entry) : Fs Unit :=
  .act (fun _ => true) (·.mapEntry p f) fun s =>
    if (s.entryAt p).isSome then pure () else throw Exn.fault

/-- Whether the lock of an entry can be taken now. -/
def Entry.free (e : Entry) (exclusive : Bool) : Bool :=
  !e.writer && (!exclusive || e.readers == 0)

/-- Takes the lock of the entry at `p`, waiting until it is free. -/
def lockEntry (p : EntryPtr) (exclusive : Bool) : Fs Unit :=
  .act (fun s => (s.entryAt p).all (·.free exclusive))
    (·.mapEntry p fun e =>
      if exclusive then { e with writer := true } else { e with readers := e.readers + 1 })
    fun s => if (s.entryAt p).isSome then pure () else throw Exn.fault

/-- Lets go of the lock of the entry at `p`. -/
def unlockEntry (p : EntryPtr) (exclusive : Bool) : Fs Unit :=
  changeEntry p fun e =>
    if exclusive then { e with writer := false } else { e with readers := e.readers - 1 }

/-- `InodeLock`. -/
structure InodeLock where
  entry : EntryPtr
  exclusive : Bool
  deriving DecidableEq

/-- The inode a lock is on. -/
def InodeLock.id (l : InodeLock) : Nat := l.entry.id

/-- The constructor of `InodeLock`: the reference first, the lock second. -/
def lockInode (id : Nat) (exclusive : Bool) : Fs InodeLock := do
  let entry ← acquire id
  lockEntry entry exclusive
  return ⟨entry, exclusive⟩

/-- `InodeLock::drop`. -/
def dropLock (l : InodeLock) : Fs Unit := do
  unlockEntry l.entry l.exclusive
  release l.id

/-! ## Path lookup -/

variable (sb : Superblock)

/-- The loop of `walk`, holding `cur`. -/
def walkFrom (exclusive : Bool) (cur : InodeLock) : List Name → Fs InodeLock
  | [] => pure cur
  | name :: rest => do
    let next ← (do
      let dir ← (readInode sb cur.id).atomic
      if !isDir dir then throwErrno .enotdir
      let (child, _) ← (dirLookup sb dir name).atomic
      if child = 0 then throwErrno .enoent
      lockInode child (rest.isEmpty && exclusive)).onError (dropLock cur)
    dropLock cur
    walkFrom exclusive next rest

/-- `walk`: down from the root, hand over hand; the inode reached is returned locked. -/
def walk (names : List Name) (exclusive : Bool) : Fs InodeLock := do
  let cur ← lockInode rootInode (names.isEmpty && exclusive)
  walkFrom sb exclusive cur names

/-! ## The open file table -/

/-- `VFS_O_RDONLY`. -/
def oRdonly : UInt32 := 0
/-- `VFS_O_WRONLY`. -/
def oWronly : UInt32 := 1
/-- `VFS_O_ACCMODE`. -/
def oAccmode : UInt32 := 3
/-- `VFS_O_CREAT`. -/
def oCreat : UInt32 := 0x100
/-- `VFS_O_EXCL`. -/
def oExcl : UInt32 := 0x200
/-- `VFS_O_TRUNC`. -/
def oTrunc : UInt32 := 0x400
/-- `VFS_O_APPEND`. -/
def oAppend : UInt32 := 0x800

/-- Changes descriptor slot `fd`. -/
def FileSystem.mapFile (s : FileSystem) (fd : Nat) (f : OpenFile → OpenFile) : FileSystem :=
  { s with files := Function.update s.files fd (f (s.files fd)) }

/-- `reserve_fd`. -/
def reserveFd : Fs Nat :=
  let pick (s : FileSystem) := (List.range 1024).find? fun fd => !(s.files fd).inUse
  .act (fun _ => true)
    (fun s => match pick s with
      | some fd => s.mapFile fd fun f => { f with inUse := true }
      | none => s)
    fun s => match pick s with
      | some fd => pure fd
      | none => throwErrno .emfile

/-- `release_fd`. -/
def releaseFd (fd : Nat) : Fs Unit :=
  Prog.change (·.mapFile fd fun f => { f with inUse := false })

/-- Holds the mutex `op` of slot `fd` around `body`. -/
def withFd {α : Type} (fd : Nat) (body : Fs α) : Fs α := do
  Prog.await (fun s => !(s.files fd).op) (·.mapFile fd fun f => { f with op := true })
  body.ensure (Prog.change (·.mapFile fd fun f => { f with op := false }))

/-- `file_at`. -/
def fileAt (fd : Int) : Fs Nat :=
  if fd < 0 ∨ fd ≥ 1024 then throwErrno .ebadf else pure fd.toNat

structure Snapshot where
  inode : Nat
  flags : UInt32
  lock : EntryPtr

/-- `snapshot`, with `op` held. -/
def snapshot (fd : Nat) : Fs Snapshot :=
  .act (fun _ => true) id fun s =>
    let f := s.files fd
    if f.inode = 0 then throwErrno .ebadf
    else match f.lock with
      | some p => pure ⟨f.inode, f.flags, p⟩
      | none => throw Exn.fault

/-- A change of the open count of the entry at `p`, put on record. -/
def changeOpens (p : EntryPtr) (event : OpenEvent) (f : Nat → Nat) : Fs Unit :=
  .act (fun _ => true)
    (fun s => { s.mapEntry p fun e => { e with openCount := f e.openCount } with
      opens := s.opens ++ [event] })
    fun s => if (s.entryAt p).isSome then pure () else throw Exn.fault

/-- `register_open`, with the file's lock held. -/
def registerOpen (file : InodeLock) : Fs EntryPtr := do
  let entry ← acquire file.id
  changeOpens entry (.registered file.id) (· + 1)
  return entry

/-! ## Creating -/

/-- `new_inode`. -/
def newInode (id : Nat) (mode : UInt16) : Fs Inode := do
  let t ← now
  return { Inode.zero with id := UInt32.ofNat id, mode := mode, linkCount := 1, mtime := t }

/-- `create_file`: adds a file called `name` to `dir`, which the caller holds exclusive. -/
def createFile (dir : Inode) (name : Name) : Fs Nat := do
  let id ← allocInode sb
  let dir ← (dirAdd sb dir name id ftFile).onError (freeInode sb id)
  writeInode sb (← newInode id (modeFile ||| filePerm))
  let t ← now
  writeInode sb { dir with mtime := t }
  return id

/-- What `O_TRUNC` does to an existing file, with its lock held exclusive. -/
def truncateFile (file : InodeLock) (id : Nat) : Fs Unit := do
  changeEntry file.entry fun e => { e with inodeValid := false }
  let ino ← readInode sb id
  if ino.size ≠ 0 ∨ ino.blockCount ≠ 0 then
    let ino ← freeAllBlocks sb ino
    let t ← now
    writeInode sb { ino with size := 0, mtime := t }

/-- `open_changing`: `O_CREAT` and/or `O_TRUNC`.  Returns the file's inode, with a reference to
    its lock entry and its open count already taken. -/
def openChanging (dirs : List Name) (name : Name) (flags : UInt32) : Fs (Nat × EntryPtr) :=
  withOp do
    let create := flags &&& oCreat != 0
    let parent ← walk sb dirs create
    (do
      let dir ← (readInode sb parent.id).atomic
      if !isDir dir then throwErrno .enotdir
      let (id, type) ← (dirLookup sb dir name).atomic
      if id = 0 then
        if !create then throwErrno .enoent
        let id ← (createFile sb dir name).atomic
        let file ← lockInode id true
        let entry ← (registerOpen file).ensure (dropLock file)
        return (id, entry)
      if create && flags &&& oExcl != 0 then throwErrno .eexist
      if type = ftDir then throwErrno .eisdir
      let trunc := flags &&& oTrunc != 0
      let file ← lockInode id trunc
      (do
        if trunc then (truncateFile sb file id).atomic
        let entry ← registerOpen file
        return (id, entry)).ensure (dropLock file)).ensure (dropLock parent)

/-- `open_existing`: no transaction, just a lookup. -/
def openExisting (names : List Name) : Fs (Nat × EntryPtr) := do
  let file ← walk sb names false
  (do
    let ino ← (readInode sb file.id).atomic
    if isDir ino then throwErrno .eisdir
    let entry ← registerOpen file
    return (file.id, entry)).ensure (dropLock file)

/-! ## Reading and writing -/

/-- `MAX_FILE_BYTES`. -/
def maxFileBytes : Nat := maxFileBlocks * 4096

/-- `SSIZE_MAX`. -/
def ssizeMax : Nat := 2 ^ 63 - 1

/-- `file_inode`. -/
def fileInode (p : EntryPtr) (id : Nat) : Fs Inode := do
  match ← readEntry p fun e => if e.inodeValid then some e.inode else none with
  | some ino => return ino
  | none => readInode sb id

/-- The loop of `read_range`, with `left` bytes to go from byte `pos` on, in as many rounds as there
    were bytes. -/
def readRangeFrom (ino : Inode) (pos left : Nat) : Nat → Fs (List UInt8)
  | 0 => if left = 0 then pure [] else throw .fault
  | n + 1 =>
    if left = 0 then pure []
    else do
      let off := pos % 4096
      let len := min (4096 - off) left
      let block ← bmapRead sb ino (pos / 4096)
      let bytes ←
        if block = 0 then pure (List.replicate len 0)  -- a hole
        else do
          let b ← readBlock sb block
          pure ((List.range len).map fun i => b.get (off + i))
      let rest ← readRangeFrom ino (pos + len) (left - len) n
      return bytes ++ rest

/-- `read_range`. -/
def readRange (ino : Inode) (pos n : Nat) : Fs (List UInt8) :=
  if pos ≥ ino.size.toNat then pure []
  else
    let total := min (ino.size.toNat - pos) n
    readRangeFrom sb ino pos total total

/-- How the block loop of one chunk ended: the inode, where it stopped, whether anything in the
    inode changed, and whether the disk was full. -/
structure ChunkEnd where
  ino : Inode
  at_ : Nat
  changed : Bool
  diskFull : Bool

/-- The block loop of one chunk of `vfs_write`, from `at_` up to `chunkEnd`; `src i` is the byte
    that goes to position `i`, in as many rounds as there were bytes. -/
def writeBlocks (src : Nat → UInt8) (chunkEnd : Nat) (ino : Inode) (at_ : Nat) (changed : Bool) :
    Nat → Fs ChunkEnd
  | 0 => if at_ ≥ chunkEnd then pure ⟨ino, at_, changed, false⟩ else throw .fault
  | n + 1 =>
    if at_ ≥ chunkEnd then pure ⟨ino, at_, changed, false⟩
    else do
      let off := at_ % 4096
      let len := min (4096 - off) (chunkEnd - at_)
      let mapped ← (do
          let m ← bmapAlloc sb ino (at_ / 4096)
          return some m).catch_ fun e =>
        if e = Exn.fsError .enospc then pure none else throw e
      match mapped with
      | none => return ⟨ino, at_, changed, true⟩  -- keep what is written so far
      | some m =>
        -- a block written whole does not need its old contents read
        let whole := off == 0 && len == 4096
        writeBlock sb m.block (m.fresh || whole) fun b =>
          b.patch off fun i : Fin len => src (at_ + i)
        writeBlocks src chunkEnd m.ino (at_ + len) (changed || m.fresh) n

/-- How one chunk ended. -/
inductive ChunkResult where
  /-- The position is past the largest file. -/
  | past (pos : Nat)
  | wrote (pos at_ : Nat) (diskFull : Bool)

/-- One chunk of `vfs_write`, with the file's lock held exclusive: up to 16 blocks of the bytes
    `src done, src (done + 1), ...`. -/
def writeChunk (f : Snapshot) (src : Nat → UInt8) (n pos done : Nat) : Fs ChunkResult := do
  let ino ← fileInode sb f.lock f.inode
  -- not to be trusted until the inode is whole again
  changeEntry f.lock fun e => { e with inodeValid := false }
  let pos := if f.flags &&& oAppend != 0 then ino.size.toNat else pos
  if pos ≥ maxFileBytes then
    if done = 0 then throwErrno .efbig
    return .past pos
  let chunkEnd := min (min (pos + (n - done)) ((pos / 4096 + 16) * 4096)) maxFileBytes
  let c ← writeBlocks sb (fun i => src (done + (i - pos))) chunkEnd ino pos false (chunkEnd - pos)
  -- written back only if something in it changed
  let (ino, changed) ←
    if c.at_ > pos then do
      let grown := decide (c.at_ > c.ino.size.toNat)
      let ino := if grown then { c.ino with size := UInt64.ofNat c.at_ } else c.ino
      let t ← now
      pure ({ ino with mtime := t }, c.changed || grown || ino.mtime != t)
    else pure (c.ino, c.changed)
  if changed then writeInode sb ino
  changeEntry f.lock fun e => { e with inode := ino, inodeValid := true }
  return .wrote pos c.at_ c.diskFull

/-- The chunk loop of `vfs_write`: the position and the count at its end, and whether the disk was
    full, in as many rounds as there are bytes. -/
def writeChunks (f : Snapshot) (src : Nat → UInt8) (n pos done : Nat) :
    Nat → Fs (Nat × Nat × Bool)
  | 0 => if done ≥ n then pure (pos, done, false) else throw .fault
  | fuel + 1 =>
    if done ≥ n then pure (pos, done, false)
    else do
      let r ← withOp do
        lockEntry f.lock true
        (writeChunk sb f src n pos done).atomic.ensure (unlockEntry f.lock true)
      match r with
      | .past pos => return (pos, done, false)
      | .wrote pos at_ true => return (at_, done + (at_ - pos), true)
      | .wrote pos at_ false => writeChunks f src n at_ (done + (at_ - pos)) fuel

/-! ## The API -/

/-- `with_fs`: what the body throws becomes a negative code. -/
def withFs {α : Type} (code : Int → α) (body : Fs α) : Fs α :=
  body.catch_ fun e =>
    match e with
    | .fsError e => pure (code (-e.code))
    | .other => pure (code (-Errno.eio.code))
    | .fault => throw .fault

/-- The names of a path. -/
def namesOf (path : Option (List UInt8)) : Fs (List Name) :=
  match splitPath path with
  | .ok names => pure names
  | .error e => throwErrno e

/-- `vfs_open`. -/
def vfsOpen (path : Option (List UInt8)) (flags : UInt32) : Fs Int :=
  withFs id do
    let access := flags &&& oAccmode
    if access = oAccmode then throwErrno .einval
    if flags &&& oTrunc ≠ 0 ∧ access = oRdonly then throwErrno .einval
    let names ← namesOf path
    match names.getLast? with
    | none => throwErrno .eisdir
    | some name =>
      -- taken first, so a full table fails before anything is created
      let fd ← reserveFd
      (do
        let (id, entry) ←
          if flags &&& (oCreat ||| oTrunc) ≠ 0 then openChanging sb names.dropLast name flags
          else openExisting sb names
        withFd fd (Prog.change (·.mapFile fd fun f =>
          { f with inode := id, flags := flags, lock := some entry, offset := 0 }))).onError
        (releaseFd fd)
      return fd

/-- `vfs_close`. -/
def vfsClose (fd : Int) : Fs Int :=
  withFs id do
    let fd ← fileAt fd
    withFd fd do
      let f ← snapshot fd
      changeOpens f.lock (.givenBack f.inode) (· - 1)
      release f.inode
      Prog.change (·.mapFile fd fun f => { f with inode := 0, lock := none })
      releaseFd fd
      return 0

/-- `vfs_read`, with the bytes it leaves in the buffer.  `hasBuf` is whether that is there. -/
def vfsRead (fd : Int) (hasBuf : Bool) (n : Nat) : Fs (Int × List UInt8) :=
  withFs (·, []) do
    let fd ← fileAt fd
    withFd fd do
      let f ← snapshot fd
      if f.flags &&& oAccmode = oWronly then throwErrno .ebadf
      if n = 0 then return (0, [])
      if !hasBuf then throwErrno .einval
      let n := min n ssizeMax
      lockEntry f.lock false
      let got ← (do
        let ino ← fileInode sb f.lock f.inode
        let pos ← Prog.view fun s => (s.files fd).offset
        readRange sb ino pos n).atomic.ensure (unlockEntry f.lock false)
      Prog.change (·.mapFile fd fun f => { f with offset := f.offset + got.length })
      return (got.length, got)

/-- `vfs_write` of the bytes `buf 0, buf 1, ...`; `none` is the null pointer. -/
def vfsWrite (fd : Int) (buf : Option (Nat → UInt8)) (n : Nat) : Fs Int :=
  withFs id do
    let fd ← fileAt fd
    withFd fd do
      let f ← snapshot fd
      if f.flags &&& oAccmode = oRdonly then throwErrno .ebadf
      if n = 0 then return 0
      match buf with
      | none => throwErrno .einval
      | some src =>
        let n := min n ssizeMax
        let pos ← Prog.view fun s => (s.files fd).offset
        let (pos, done, diskFull) ← writeChunks sb f src n pos 0 n
        Prog.change (·.mapFile fd fun f => { f with offset := pos })
        if done = 0 ∧ diskFull = true then throwErrno .enospc
        return done

/-- `static_cast<off_t>`. -/
def toOffT (n : Nat) : Int := Int.bmod n (2 ^ 64)

/-- `vfs_lseek`. -/
def vfsLseek (fd : Int) (off : Int) (whence : Int) : Fs Int :=
  withFs id do
    let fd ← fileAt fd
    withFd fd do
      let f ← snapshot fd
      let base ←
        if whence = 0 then pure 0
        else if whence = 1 then do
          let pos ← Prog.view fun s => (s.files fd).offset
          pure (toOffT pos)
        else if whence = 2 then do
          lockEntry f.lock false
          let ino ← (fileInode sb f.lock f.inode).atomic.ensure (unlockEntry f.lock false)
          pure (toOffT ino.size.toNat)
        else throwErrno .einval
      let result := base + off
      -- __builtin_add_overflow
      if result ≥ 2 ^ 63 ∨ result < -2 ^ 63 ∨ result < 0 then throwErrno .einval
      Prog.change (·.mapFile fd fun f => { f with offset := result.toNat })
      return result

/-- `vfs_fsync`. -/
def vfsFsync (fd : Int) : Fs Int :=
  withFs id do
    let fd ← fileAt fd
    let _ ← withFd fd (snapshot fd)
    Prog.change fun s => { s with calls := s.calls ++ [.commit] }
    return 0

/-- `vfs_sync`. -/
def vfsSync : Fs Int :=
  withFs id do
    Prog.change fun s => { s with calls := s.calls ++ [.checkpoint] }
    return 0

/-- The writes of `vfs_mkdir`, with the parent held exclusive.  Everything that can run out is
    taken first, and handed back if a later step fails. -/
def makeDir (parent : Nat) (dir : Inode) (name : Name) : Fs Unit := do
  let id ← allocInode sb
  let block ← (allocBlock sb).onError (freeInode sb id)
  let dir ← (dirAdd sb dir name id ftDir).onError (do freeBlocks sb [block]; freeInode sb id)
  dirInit sb block id parent
  let ino ← newInode id (modeDir ||| dirPerm)
  writeInode sb { ino.setDirect 0 block with linkCount := 2, size := 4096, blockCount := 1 }
  let t ← now
  writeInode sb { dir with linkCount := dir.linkCount + 1, mtime := t }

/-- `vfs_mkdir`. -/
def vfsMkdir (path : Option (List UInt8)) : Fs Int :=
  withFs id do
    let names ← namesOf path
    match names.getLast? with
    | none => throwErrno .eexist  -- "/"
    | some name =>
      withOp do
        let parent ← walk sb names.dropLast true
        (do
          let dir ← (readInode sb parent.id).atomic
          if !isDir dir then throwErrno .enotdir
          let (id, _) ← (dirLookup sb dir name).atomic
          if id ≠ 0 then throwErrno .eexist
          -- no room to count another ".."
          if dir.linkCount = 65535 then throwErrno .enospc
          (makeDir sb parent.id dir name).atomic
          return 0).ensure (dropLock parent)

/-- The writes of `vfs_unlink` and `vfs_rmdir`: the entry, the blocks and the inode of what is
    removed, and the parent's inode with `links` fewer names. -/
def removeEntry (dir : Inode) (name : Name) (id : Nat) (ino : Inode) (links : UInt16) :
    Fs Unit := do
  let _ ← dirRemove sb dir name
  let _ ← freeAllBlocks sb ino
  clearInode sb id
  freeInode sb id
  let t ← now
  writeInode sb { dir with linkCount := dir.linkCount - links, mtime := t }

/-- `vfs_unlink`. -/
def vfsUnlink (path : Option (List UInt8)) : Fs Int :=
  withFs id do
    let names ← namesOf path
    match names.getLast? with
    | none => throwErrno .eisdir
    | some name =>
      withOp do
        let parent ← walk sb names.dropLast true
        (do
          let dir ← (readInode sb parent.id).atomic
          if !isDir dir then throwErrno .enotdir
          let (id, type) ← (dirLookup sb dir name).atomic
          if id = 0 then throwErrno .enoent
          if type = ftDir then throwErrno .eisdir
          let file ← lockInode id true
          (do
            if (← readEntry file.entry (·.openCount)) > 0 then throwErrno .ebusy
            (do
              changeEntry file.entry fun e => { e with inodeValid := false }
              let ino ← readInode sb id
              removeEntry sb dir name id ino 0).atomic
            return 0).ensure (dropLock file)).ensure (dropLock parent)

/-- `vfs_rmdir`. -/
def vfsRmdir (path : Option (List UInt8)) : Fs Int :=
  withFs id do
    let names ← namesOf path
    match names.getLast? with
    | none => throwErrno .ebusy  -- never the root
    | some name =>
      withOp do
        let parent ← walk sb names.dropLast true
        (do
          let dir ← (readInode sb parent.id).atomic
          if !isDir dir then throwErrno .enotdir
          let (id, type) ← (dirLookup sb dir name).atomic
          if id = 0 then throwErrno .enoent
          if type ≠ ftDir then throwErrno .enotdir
          let child ← lockInode id true
          (do
            changeEntry child.entry fun e => { e with inodeValid := false }
            let ino ← (readInode sb id).atomic
            if !(← (dirIsEmpty sb ino).atomic) then throwErrno .enotempty
            (removeEntry sb dir name id ino 1).atomic
            return 0).ensure (dropLock child)).ensure (dropLock parent)

/-- `VfsStat`. -/
structure VfsStat where
  inode : UInt32
  mode : UInt16
  linkCount : UInt16
  size : UInt64
  blocks : UInt32
  mtime : UInt64

/-- `vfs_stat`.  `hasOut` is whether there is a place for the answer. -/
def vfsStat (path : Option (List UInt8)) (hasOut : Bool) : Fs (Int × Option VfsStat) :=
  withFs (·, none) do
    if !hasOut then throwErrno .einval
    let names ← namesOf path
    let node ← walk sb names false
    Prog.ensure (do
      let ino ← (readInode sb node.id).atomic
      return (0, some ⟨ino.id, ino.mode, ino.linkCount, ino.size, ino.blockCount, ino.mtime⟩))
      (dropLock node)

/-- `vfs_readdir`, with the entries it leaves in the `max` places of `out`. -/
def vfsReaddir (path : Option (List UInt8)) (hasOut : Bool) (max : Nat) :
    Fs (Int × List DirItem) :=
  withFs (·, []) do
    if !hasOut && max > 0 then throwErrno .einval
    let names ← namesOf path
    let node ← walk sb names false
    Prog.ensure (do
      let dir ← (readInode sb node.id).atomic
      if !isDir dir then throwErrno .enotdir
      let items ← (dirList sb dir).atomic
      return (((min items.length (2 ^ 31 - 1) : Nat) : Int), items.take max)) (dropLock node)

/-! ## Mounting -/

/-- A slot of the open file table that is not taken. -/
def OpenFile.closed : OpenFile := ⟨false, 0, 0, 0, none, false⟩

/-- The file system right after `vfs_mount` of an image: both bitmaps loaded through the journal,
    no lock entries, every descriptor closed. -/
def FileSystem.mounted (disk : Nat → Block) (clock : Nat → UInt64) : FileSystem where
  disk := disk
  inodes := .load disk sb.inodeBitmapStart.toNat sb.inodeCount.toNat
  blocks := .load disk sb.dataBitmapStart.toNat sb.totalBlocks.toNat
  entries := fun _ => none
  made := 0
  files := fun _ => .closed
  clock := clock
  calls := []
  opens := []

end ConcurrentFs
