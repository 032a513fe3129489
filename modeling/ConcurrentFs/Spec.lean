/-
  ConcurrentFs.Spec

  What the API is for, over an abstract state: a function from paths to what is
  there, and the descriptors that are open with the paths they were opened at.
  `Decides` says what a call may answer and do, in terms of that state, and `Legal`
  what a thread may do to the world on the way.
-/
import ConcurrentFs.Holders

namespace ConcurrentFs

open Lib

/-! ## Calls and answers -/

/-- The bytes of a C string before its NUL. -/
abbrev CString := { l : List UInt8 // 0 ∉ l }

/-- The calls of the API.  A pointer that may be null is an `Option` or a flag. -/
inductive Call where
  | open_ (path : Option CString) (flags : UInt32)
  | close (fd : Int)
  | read (fd : Int) (hasBuf : Bool) (n : Nat)
  | write (fd : Int) (buf : Option (Nat → UInt8)) (n : Nat)
  | lseek (fd off whence : Int)
  | fsync (fd : Int)
  | sync
  | mkdir (path : Option CString)
  | unlink (path : Option CString)
  | rmdir (path : Option CString)
  | stat (path : Option CString) (hasOut : Bool)
  | readdir (path : Option CString) (hasOut : Bool) (max : Nat)

/-- What a call returns, with what it leaves in the caller's memory. -/
structure Reply where
  code : Int
  bytes : List UInt8
  stat : Option VfsStat
  items : List DirItem

/-- Just a code. -/
def Reply.of (code : Int) : Reply := ⟨code, [], none, []⟩

/-- The code of an error. -/
def Reply.fail (e : Errno) : Reply := .of (-e.code)

/-- The names of a path. -/
def split (path : Option CString) : Except Errno (List Name) := splitPath (path.map Subtype.val)

/-- The program of a call. -/
def Call.run (sb : Superblock) : Call → Fs Reply
  | open_ path flags => do return .of (← vfsOpen sb (path.map Subtype.val) flags)
  | close fd => do return .of (← vfsClose fd)
  | read fd hasBuf n => do
    let (r, bytes) ← vfsRead sb fd hasBuf n
    return ⟨r, bytes, none, []⟩
  | write fd buf n => do return .of (← vfsWrite sb fd buf n)
  | lseek fd off whence => do return .of (← vfsLseek sb fd off whence)
  | fsync fd => do return .of (← vfsFsync fd)
  | sync => do return .of (← vfsSync)
  | mkdir path => do return .of (← vfsMkdir sb (path.map Subtype.val))
  | unlink path => do return .of (← vfsUnlink sb (path.map Subtype.val))
  | rmdir path => do return .of (← vfsRmdir sb (path.map Subtype.val))
  | stat path hasOut => do
    let (r, st) ← vfsStat sb (path.map Subtype.val) hasOut
    return ⟨r, [], st, []⟩
  | readdir path hasOut max => do
    let (r, items) ← vfsReaddir sb (path.map Subtype.val) hasOut max
    return ⟨r, [], none, items⟩

/-! ## The abstract state -/

/-- What is at each path, and where each open descriptor was opened. -/
structure Abs where
  node : List Name → Option Kind
  fds : Nat → Option (List Name)

namespace Abs

variable (A : Abs)

/-- Walks down from `at_`: the first name that is missing, or the first file on the way, is the
    error. -/
def findFrom (at_ : List Name) : List Name → Except Errno Kind
  | [] => (A.node at_).elim (.error .enoent) .ok
  | name :: rest =>
    match A.node at_ with
    | none => .error .enoent
    | some .file => .error .enotdir
    | some .dir =>
      if A.node (at_ ++ [name]) = none then .error .enoent else findFrom (at_ ++ [name]) rest

/-- What a path leads to. -/
def find (names : List Name) : Except Errno Kind := A.findFrom [] names

/-- What is called `names`, in the directory above it. -/
def child (names : List Name) : Except Errno (Option Kind) :=
  match A.find names.dropLast with
  | .error e => .error e
  | .ok .file => .error .enotdir
  | .ok .dir => .ok (A.node names)

/-- The tree with `names` being `kind`. -/
def put (names : List Name) (kind : Option Kind) : List Name → Option Kind :=
  Function.update A.node names kind

/-- The tree after `mkdir`. -/
def mkdir (names : List Name) : Except Errno (List Name → Option Kind) :=
  if names = [] then .error .eexist
  else match A.child names with
    | .error e => .error e
    | .ok (some _) => .error .eexist
    | .ok none => .ok (A.put names (some .dir))

/-- The tree after `unlink`. -/
noncomputable def unlink (names : List Name) : Except Errno (List Name → Option Kind) :=
  open Classical in
  if names = [] then .error .eisdir
  else match A.child names with
    | .error e => .error e
    | .ok none => .error .enoent
    | .ok (some .dir) => .error .eisdir
    | .ok (some .file) =>
      if ∃ fd, A.fds fd = some names then .error .ebusy else .ok (A.put names none)

/-- The tree after `rmdir`. -/
noncomputable def rmdir (names : List Name) : Except Errno (List Name → Option Kind) :=
  open Classical in
  if names = [] then .error .ebusy
  else match A.child names with
    | .error e => .error e
    | .ok none => .error .enoent
    | .ok (some .file) => .error .enotdir
    | .ok (some .dir) =>
      if ∃ name, A.node (names ++ [name]) ≠ none then .error .enotempty else .ok (A.put names none)

/-- The tree after `open`. -/
def open_ (names : List Name) (flags : UInt32) : Except Errno (List Name → Option Kind) :=
  if flags &&& (oCreat ||| oTrunc) ≠ 0 then
    match A.child names with
    | .error e => .error e
    | .ok none => if flags &&& oCreat = 0 then .error .enoent else .ok (A.put names (some .file))
    | .ok (some kind) =>
      if flags &&& oCreat ≠ 0 ∧ flags &&& oExcl ≠ 0 then .error .eexist
      else if kind = .dir then .error .eisdir
      else .ok A.node
  else
    match A.find names with
    | .error e => .error e
    | .ok .dir => .error .eisdir
    | .ok .file => .ok A.node

end Abs

/-- What a world stands for. -/
noncomputable def World.abs (W : World) : Abs where
  node := W.image.tree.kindAt
  fds fd := (W.slot fd).inode.map W.image.tree.pathOf

/-! ## What a call may answer -/

/-- The items of directory `d`: its entries, in the order of their slots. -/
def Image.itemsOf (I : Image) (d : Nat) : List DirItem :=
  (((List.range (64 * blockCountOf (I.inode d))).map (I.tree.entry d)).filter
    fun e => e.inodeId ≠ 0).map fun e => ⟨e.named, e.inodeId.toNat, e.type⟩

/-- What `stat` says of an inode. -/
def statOf (ino : Inode) : VfsStat :=
  ⟨ino.id, ino.mode, ino.linkCount, ino.size, ino.blockCount, ino.mtime⟩

/-- There is no room for another entry in the directory at `dir`: no inode or no block is left, or
    the directory has its largest size. -/
def NoRoom (sb : Superblock) (I : Image) (dir : List Name) : Errno → Prop
  | .enospc => (∀ i < sb.inodeCount.toNat, I.ibit i = true) ∨ freeCount sb I < 4
  | .efbig => ∃ d, I.tree.At dir d ∧ maxFileBlocks ≤ blockCountOf (I.inode d)
  | _ => False

/-- The directory at `dir` has as many subdirectories as it can count. -/
def NoLinks (I : Image) (dir : List Name) (e : Errno) : Prop :=
  e = .enospc ∧ ∃ d, I.tree.At dir d ∧ (I.inode d).linkCount = 65535

/-- The answer is an error and nothing has changed. -/
def Fails (W W' : World) (a : Reply) (e : Errno) : Prop := W' = W ∧ a = .fail e

/-- The names of the path, or the error in it. -/
def OnPath (path : Option CString) (W W' : World) (a : Reply) (P : List Name → Prop) : Prop :=
  match split path with
  | .error e => Fails W W' a e
  | .ok names => P names

/-- The answer is the error `r`, or what `P` says. -/
def Gives {α : Type} (r : Except Errno α) (W W' : World) (a : Reply) (P : α → Prop) : Prop :=
  match r with
  | .error e => Fails W W' a e
  | .ok x => P x

/-- What call `c` may answer, and what the world is then.  The calls that are not about names may
    answer anything here, and change nothing. -/
def Decides (sb : Superblock) (c : Call) (a : Reply) (W W' : World) : Prop :=
  match c with
  | .open_ path flags =>
    if flags &&& oAccmode = oAccmode ∨ flags &&& oTrunc ≠ 0 ∧ flags &&& oAccmode = oRdonly then
      Fails W W' a .einval
    else OnPath path W W' a fun names =>
      if names = [] then Fails W W' a .eisdir
      else ((∀ fd < maxOpen, W.slot fd ≠ .free) ∧ Fails W W' a .emfile) ∨
        Gives (W.abs.open_ names flags) W W' a fun node =>
          (∃ fd, fd < maxOpen ∧ W.abs.fds fd = none ∧ a = .of fd ∧
            W'.abs = ⟨node, Function.update W.abs.fds fd (some names)⟩) ∨
          W.abs.node names = none ∧ ∃ e, NoRoom sb W.image names.dropLast e ∧ Fails W W' a e
  | .close fd =>
    if fd < 0 ∨ maxOpen ≤ fd then Fails W W' a .ebadf
    else (∃ names, W.abs.fds fd.toNat = some names ∧ a = .of 0 ∧
        W'.abs = ⟨W.abs.node, Function.update W.abs.fds fd.toNat none⟩) ∨
      (∀ x flags off, W.slot fd.toNat ≠ .live x flags off) ∧ Fails W W' a .ebadf
  | .mkdir path => OnPath path W W' a fun names => Gives (W.abs.mkdir names) W W' a fun node =>
      (a = .of 0 ∧ W'.abs = ⟨node, W.abs.fds⟩) ∨
      ∃ e, (NoRoom sb W.image names.dropLast e ∨ NoLinks W.image names.dropLast e) ∧ Fails W W' a e
  | .unlink path => OnPath path W W' a fun names => Gives (W.abs.unlink names) W W' a fun node =>
      a = .of 0 ∧ W'.abs = ⟨node, W.abs.fds⟩
  | .rmdir path => OnPath path W W' a fun names => Gives (W.abs.rmdir names) W W' a fun node =>
      a = .of 0 ∧ W'.abs = ⟨node, W.abs.fds⟩
  | .stat path hasOut =>
    if hasOut = false then Fails W W' a .einval
    else OnPath path W W' a fun names => Gives (W.abs.find names) W W' a fun kind =>
      W' = W ∧ ∃ x, W.image.tree.At names x ∧ W.image.tree.kind x = some kind ∧
        a = ⟨0, [], some (statOf (W.image.inode x)), []⟩
  | .readdir path hasOut max =>
    if hasOut = false ∧ max > 0 then Fails W W' a .einval
    else OnPath path W W' a fun names => Gives (W.abs.find names) W W' a fun kind =>
      match kind with
      | .file => Fails W W' a .enotdir
      | .dir => W' = W ∧ ∃ x, W.image.tree.At names x ∧
        a = ⟨((min (W.image.itemsOf x).length (2 ^ 31 - 1) : Nat) : Int), [], none,
          (W.image.itemsOf x).take max⟩
  | .read .. | .write .. | .lseek .. | .fsync .. | .sync => W'.abs = W.abs

/-! ## What a thread may do -/

/-- The world with descriptor `fd` being `f`. -/
def World.put (W : World) (fd : Nat) (f : FdState) : World :=
  { W with slot := Function.update W.slot fd f }

/-- The kinds of deeds. -/
inductive Act where
  /-- Looking at the world. -/
  | look
  | reserve (fd : Nat)
  | release (fd : Nat)
  | fill (fd : Nat)
  | move (fd off : Nat)
  | mkdir (d x : Nat) (name : Name)
  | create (fd : Nat) (flags : UInt32) (d x : Nat) (name : Name)
  | open_ (fd : Nat) (flags : UInt32) (x : Nat)
  | close (fd : Nat)
  | remove (d k x : Nat)
  | truncate (x : Nat)
  /-- One chunk of a write that has `done` bytes behind it; `full` if the disk cut it short. -/
  | write (fd x start done : Nat) (data : List UInt8) (full : Bool)
  | read (fd x pos n : Nat) (data : List UInt8)

/-- What a deed does to the world. -/
def Act.Does (sb : Superblock) (W W' : World) : Act → Prop
  | look => W' = W
  | reserve fd => fd < maxOpen ∧ W.slot fd = .free ∧ W' = W.put fd (.reserved none)
  | release fd => W.slot fd = .reserved none ∧ W' = W.put fd .free
  | fill fd => ∃ x flags, W.slot fd = .reserved (some (x, flags)) ∧ W' = W.put fd (.live x flags 0)
  | move fd off => ∃ x flags off', W.slot fd = .live x flags off' ∧
      W' = W.put fd (.live x flags off)
  | mkdir d x name => Created sb W.image d name x .dir W'.image ∧ W'.slot = W.slot
  | create fd flags d x name => Created sb W.image d name x .file W'.image ∧
      W.slot fd = .reserved none ∧ W'.slot = Function.update W.slot fd (.reserved (some (x, flags)))
  | open_ fd flags x => W.image.tree.kind x = some .file ∧ W.slot fd = .reserved none ∧
      W' = W.put fd (.reserved (some (x, flags)))
  | close fd => ∃ x flags off, W.slot fd = .live x flags off ∧ W' = W.put fd (.reserved none)
  | remove d k x => W.image.tree.CanRemove d k x ∧ Removed W.image d k x W'.image ∧
      W'.slot = W.slot ∧ ∀ fd, (W.slot fd).inode ≠ some x
  | truncate x => Truncated W.image x W'.image ∧ W'.slot = W.slot
  | write fd x start done data full => Written W.image x start data W'.image ∧
      (data = [] → W'.image = W.image) ∧ W'.slot = W.slot ∧
      (full = true → bmap W'.image.blk (W'.image.inode x) ((start + data.length) / 4096) = 0 ∧
        freeCount sb W'.image < holes W'.image.blk (W'.image.inode x)
          ((start + data.length) / 4096)) ∧
      ∃ flags off, W.slot fd = .live x flags off ∧
        start = if flags &&& oAppend != 0 then W.image.sizeOf x else off + done
  | read fd x pos n data => W' = W ∧ (∃ flags, W.slot fd = .live x flags pos) ∧
      data = W.image.bytesOf x pos (readable (W.image.sizeOf x) pos n)

/-- A deed of call `c` in world `W`: it does what it says, and either settles the answer or changes
    nothing of the abstract state. -/
def Legal (sb : Superblock) (W : World) (c : Call) (d : Deed Act Reply World) : Prop :=
  d.act.Does sb W d.post ∧
  match d.answer with
  | none => d.post.abs = W.abs
  | some a => Decides sb c a W d.post

/-! ## What a call does -/

/-- Deeds that leave the image as it is. -/
def Act.Quiet : Act → Prop
  | look | reserve _ | release _ | move _ _ | read .. => True
  | write _ _ _ _ data _ => data = []
  | _ => False

/-- The chunks of a write of the `n` bytes `src`, from the `done`-th on, and where they leave the
    position and the count: every chunk goes as far as it may, unless the disk is full. -/
inductive Chunked (fd x n : Nat) (src : Nat → UInt8) : Nat → Nat → List Act → Nat → Nat → Prop where
  | done {pos done : Nat} (h : n ≤ done) : Chunked fd x n src pos done [] pos done
  /-- The position is past the largest file. -/
  | past {pos done : Nat} (start : Nat) (hn : done < n) (h : maxFileBytes ≤ start) (hd : 0 < done) :
    Chunked fd x n src pos done [.write fd x start done [] false] start done
  | full {pos done : Nat} (start len : Nat) (hn : done < n)
    (h : start + len < chunkEnd start (n - done)) :
    Chunked fd x n src pos done
      [.write fd x start done ((List.range len).map fun i => src (done + i)) true]
      (start + len) (done + len)
  | more {pos done pos' done' : Nat} {acts : List Act} (start len : Nat) (hn : done < n)
    (h : start + len = chunkEnd start (n - done)) (hlen : 0 < len)
    (hrest : Chunked fd x n src (start + len) (done + len) acts pos' done') :
    Chunked fd x n src pos done
      (.write fd x start done ((List.range len).map fun i => src (done + i)) false ::
      acts) pos' done'

/-- The deeds of a call that returned `a`: an error leaves everything as it is, with no descriptor
    free the call does nothing at all, and a success is what the call is for. -/
def Did (c : Call) (a : Reply) (acts : List Act) : Prop :=
  (a.code < 0 → (∀ act ∈ acts, act.Quiet) ∧ (a = .fail .emfile → acts = [.look])) ∧
  (0 ≤ a.code → match c with
    | .open_ _ flags => ∃ fd, a.code = (fd : Nat) ∧
        ((∃ d x name, acts = [.reserve fd, .create fd flags d x name, .fill fd]) ∨
          ∃ x, acts = if flags &&& oTrunc ≠ 0 then
            [.reserve fd, .truncate x, .open_ fd flags x, .fill fd]
            else [.reserve fd, .open_ fd flags x, .fill fd])
    | .close fd => acts = [.close fd.toNat, .release fd.toNat]
    | .mkdir _ => ∃ d x name, acts = [.mkdir d x name]
    | .unlink _ | .rmdir _ => ∃ d k x, acts = [.remove d k x]
    | .read fd _ n => if n = 0 then acts = [.look] else ∃ x pos, a.code = a.bytes.length ∧
        acts = [.read fd.toNat x pos (min n ssizeMax) a.bytes,
        .move fd.toNat (pos + a.bytes.length)]
    | .write fd buf n => if n = 0 then acts = [.look] else ∃ src x pos pos' ws done,
        buf = some src ∧
        Chunked fd.toNat x (min n ssizeMax) src pos 0 ws pos' done ∧ 0 < done ∧
        a.code = (done : Nat) ∧
        acts = ws ++ [.move fd.toNat pos']
    | .lseek fd _ _ => ∃ off : Nat, a.code = off ∧ acts = [.move fd.toNat off]
    | .fsync _ | .sync | .stat .. | .readdir .. => acts = [.look])

end ConcurrentFs
