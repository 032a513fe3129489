/-
  ConcurrentFs.Linearizable

  The calls are linearizable.  `Abs.Answers` is the sequential meaning of the API,
  over paths and what is at them: what a call may answer, and how the tree and the
  open descriptors are then.  What a call may lack besides, `World.Lacks`, is said of
  the moment at which it is answered.  For any number of threads and any
  interleaving, `reached_linearizable` tells what happened, deed by deed, and puts
  the calls in a row, each between its call and its return, in which they answer like
  that, and which ends in what is on the disk.

  One thing is not as if the calls were made in a row: a descriptor cannot be closed
  before the `open` it comes from has returned, though by then others can see that the
  file is open (`early_not_linearizable`).
-/
import ConcurrentFs.Interleavings

namespace ConcurrentFs

open Lib

/-! ## What a call may answer -/

namespace Abs

variable (A A' : Abs) (a : Reply)

/-- The answer is the error `e`, and nothing has changed. -/
def Fails (e : Errno) : Prop := A' = A ∧ a = .fail e

/-- The answer is the error `r`, or what `P` says. -/
def Outcome {α : Type} (r : Except Errno α) (P : α → Prop) : Prop :=
  match r with
  | .error e => A.Fails A' a e
  | .ok x => P x

/-- Nothing can be made at `names`. -/
def Short (besides : List Name → Errno → Prop) (names : List Name) : Prop :=
  ∃ e, (e = .enospc ∨ e = .efbig) ∧ besides names e ∧ A.Fails A' a e

/-- What `items` show is what the directory at `names` holds: itself, the directory above it, and
    each thing in it once. -/
structure Lists (names : List Name) (items : List DirItem) : Prop where
  nodup : (items.map DirItem.name).Nodup
  exact : ∃ rest, items.map (fun it => (it.name, it.type)) = (dot, ftDir) ::
    (dotdot, ftDir) :: rest ∧
    ∀ name type, (name, type) ∈ rest ↔ ∃ kd, A.node (names ++ [name]) = some kd ∧ kd.ft = type

/-- The mode of what is of kind `kd`. -/
def modeOf : Kind → UInt16
  | .file => modeFile ||| filePerm
  | .dir => modeDir ||| dirPerm

/-- The names of a path that is to be opened. -/
def openNames (path : Option CString) (flags : UInt32) : Except Errno (List Name) := do
  if flags &&& oAccmode = oAccmode ∨ flags &&& oTrunc ≠ 0 ∧ flags &&& oAccmode = oRdonly then
    throw .einval
  let names ← split path
  if names = [] then throw .eisdir
  return names

/-- What call `c` may answer, and what there is then.  `besides` says which errors there may be for
    reasons that are not in `A`: that there is no room for something new, no descriptor left, or
    that the `open` of a descriptor has not returned yet.  What the other calls are about is not in
    `A` either. -/
def Answers (besides : List Name → Errno → Prop) (c : Call) : Prop :=
  match c with
  | .open_ path flags => A.Outcome A' a (openNames path flags) fun names =>
      besides [] .emfile ∧ A.Fails A' a .emfile ∨
      A.Outcome A' a (A.open_ names flags) fun node =>
        (∃ fd, fd < maxOpen ∧ A.fds fd = none ∧ a = .of fd ∧
          A' = ⟨node, Function.update A.fds fd (some names)⟩) ∨
        A.node names = none ∧ A.Short A' a besides names
  | .close fd => (fd < 0 ∨ maxOpen ≤ fd) ∧ A.Fails A' a .ebadf ∨
      (0 ≤ fd ∧ fd < maxOpen) ∧
        ((A.fds fd.toNat = none ∨ besides [] .ebadf) ∧ A.Fails A' a .ebadf ∨
        ∃ names, A.fds fd.toNat = some names ∧ a = .of 0 ∧
          A' = ⟨A.node, Function.update A.fds fd.toNat none⟩)
  | .mkdir path => A.Outcome A' a (split path) fun names =>
      A.Outcome A' a (A.mkdir names) fun node =>
        a = .of 0 ∧ A' = ⟨node, A.fds⟩ ∨ A.Short A' a besides names
  | .unlink path => A.Outcome A' a (split path >>= A.unlink) fun node =>
      a = .of 0 ∧ A' = ⟨node, A.fds⟩
  | .rmdir path => A.Outcome A' a (split path >>= A.rmdir) fun node =>
      a = .of 0 ∧ A' = ⟨node, A.fds⟩
  | .stat path hasOut =>
    if hasOut = false then A.Fails A' a .einval
    else A.Outcome A' a (split path >>= A.find) fun kd => A' = A ∧
      ∃ st : VfsStat, st.mode = modeOf kd ∧ a = ⟨0, [], some st, []⟩
  | .readdir path hasOut max =>
    if hasOut = false ∧ max > 0 then A.Fails A' a .einval
    else A.Outcome A' a (split path) fun names => A.Outcome A' a (A.find names) fun kd =>
      match kd with
      | .file => A.Fails A' a .enotdir
      | .dir => A' = A ∧ ∃ items, A.Lists names items ∧
        a = ⟨((min items.length (2 ^ 31 - 1) : Nat) : Int), [], none, items.take max⟩
  | .read .. | .write .. | .lseek .. | .fsync .. | .sync => A' = A

end Abs

/-! ## Directories -/

section Listing

variable {sb : Superblock} {W : World} {x : Nat} {names : List Name}

/-- The slots of a directory. -/
theorem entry_slot {I : Image} {k : Nat} (h : (I.tree.entry x k).inodeId ≠ 0) :
    k < 64 * blockCountOf (I.inode x) := by
  by_contra hk
  refine h ?_
  show (dirEntry I.blk (I.inode x) k).inodeId = 0
  rw [dirEntry, if_neg fun hc => hk hc.2]
  rfl

/-- The slots of directory `x` that are taken. -/
def Image.taken (I : Image) (x : Nat) : List Nat :=
  (List.range (64 * blockCountOf (I.inode x))).filter fun k => (I.tree.entry x k).inodeId ≠ 0

theorem mem_taken {I : Image} {k : Nat} : k ∈ I.taken x ↔ (I.tree.entry x k).inodeId ≠ 0 := by
  unfold Image.taken
  rw [List.mem_filter, List.mem_range, decide_eq_true_iff]
  exact ⟨fun h => h.2, fun h => ⟨entry_slot h, h⟩⟩

theorem nodup_taken {I : Image} : (I.taken x).Nodup := List.nodup_range.filter _

theorem itemsOf_taken (I : Image) (x : Nat) : I.itemsOf x = (I.taken x).map fun k =>
    ⟨(I.tree.entry x k).named, (I.tree.entry x k).inodeId.toNat, (I.tree.entry x k).type⟩ := by
  unfold Image.itemsOf Image.taken
  rw [List.filter_map, List.map_map]
  rfl

/-- A directory starts with its two dots. -/
theorem taken_dots {I : Image} (hr : I.tree.Rules) (hd : I.tree.kind x = some .dir) :
    ∃ ks, I.taken x = 0 :: 1 :: ks ∧ ∀ k, k ∈ ks ↔ 2 ≤ k ∧ (I.tree.entry x k).inodeId ≠ 0 := by
  obtain ⟨-, hdot⟩ := hr.dot x hd
  obtain ⟨-, p, hdotdot, -, -⟩ := hr.dotdot x hd
  have h2 := entry_slot hdotdot.id_ne
  obtain ⟨n, hn⟩ : ∃ n, 64 * blockCountOf (I.inode x) = n + 2 := ⟨_, (Nat.sub_add_cancel h2).symm⟩
  have htaken : I.taken x
      = 0 :: 1 :: (List.range' 2 n).filter fun k => (I.tree.entry x k).inodeId ≠ 0 := by
    unfold Image.taken
    rw [hn, List.range_eq_range', List.range'_succ, List.range'_succ,
      List.filter_cons_of_pos (by simpa using hdot.id_ne),
      List.filter_cons_of_pos (by simpa using hdotdot.id_ne)]
  refine ⟨_, htaken, fun k => ?_⟩
  have hmem := mem_taken (I := I) (x := x) (k := k)
  rw [htaken, List.mem_cons, List.mem_cons] at hmem
  constructor
  · intro hk
    have hge := (List.mem_range'_1.mp (List.mem_of_mem_filter hk)).1
    exact ⟨hge, hmem.mp (.inr (.inr hk))⟩
  · rintro ⟨hk, h0⟩
    rcases hmem.mpr h0 with h | h | h
    · omega
    · omega
    · exact h

/-- What `dir_list` makes of a directory is what it holds. -/
theorem lists_itemsOf (hr : W.image.tree.Rules) (hx : W.image.tree.At names x)
    (hd : W.image.tree.kind x = some .dir) : W.abs.Lists names (W.image.itemsOf x) := by
  obtain ⟨hdot, hdot'⟩ := hr.dot x hd
  obtain ⟨hdd, p, hdd', hroot, hchild⟩ := hr.dotdot x hd
  have hp : W.image.tree.kind p = some .dir := by
    by_cases h : x = rootInode
    · rw [hroot h]
      exact hr.root
    · obtain ⟨k, -, hn⟩ := hchild h
      exact hr.kind_of_names hn
  have htype : ∀ {k y : Nat} {kd : Kind}, W.image.tree.Names x k y → W.image.tree.kind y = some kd →
      (W.image.tree.entry x k).type = kd.ft := by
    intro k y kd hn hk
    obtain ⟨kd', hk', ht⟩ := hr.typed x k y hn
    rw [ht, Option.some.inj (hk'.symm.trans hk)]
  obtain ⟨ks, hks, hmem⟩ := taken_dots hr hd
  refine ⟨?_, ks.map fun k => ((W.image.tree.entry x k).named, (W.image.tree.entry x k).type), ?_,
    fun name type => ?_⟩
  · rw [itemsOf_taken, List.map_map]
    refine nodup_taken.map_on fun k hk k' hk' heq => ?_
    exact hr.unique x k k' (mem_taken.mp hk) (mem_taken.mp hk') heq
  · rw [itemsOf_taken, List.map_map, hks, List.map_cons, List.map_cons]
    show ((W.image.tree.entry x 0).named, (W.image.tree.entry x 0).type) ::
      ((W.image.tree.entry x 1).named, (W.image.tree.entry x 1).type) :: ks.map _ = _
    rw [hdot, hdd, htype hdot' hd, htype hdd' hp]
    rfl
  · rw [List.mem_map]
    constructor
    · rintro ⟨k, hk, heq⟩
      obtain ⟨rfl, rfl⟩ := Prod.mk.inj heq
      obtain ⟨h2, h0⟩ := (hmem k).mp hk
      have hn : W.image.tree.Names x k (W.image.tree.entry x k).inodeId.toNat :=
        ⟨rfl, fun h => h0 (UInt32.toNat_inj.mp h)⟩
      obtain ⟨kd, hk, ht⟩ := hr.typed x k _ hn
      exact ⟨kd, (node_of_at hr (.child hx h2 hn rfl)).trans hk, ht.symm⟩
    · rintro ⟨kd, hnode, rfl⟩
      obtain ⟨y, hy, hk⟩ := (Tree.kindAt_eq_some hr).mp hnode
      obtain ⟨d, k, hd', h2, hn, hname⟩ := Tree.at_snoc.mp hy
      obtain rfl := hr.at_unique hd' hx
      exact ⟨k, (hmem k).mpr ⟨h2, hn.id_ne⟩, by rw [hname, htype hn hk]⟩

end Listing

/-! ## From worlds to the tree -/

section Answers

variable {sb : Superblock} {W W' : World} {c : Call} {a : Reply} {path : Option CString}
  {α β : Type}

theorem Fails.abs {e : Errno} (h : ConcurrentFs.Fails W W' a e) : W.abs.Fails W'.abs a e :=
  ⟨congrArg World.abs h.1, h.2⟩

theorem Gives.outcome {r : Except Errno α} {P P' : α → Prop} (h : Gives r W W' a P)
    (hP : ∀ x, r = .ok x → P x → P' x) : W.abs.Outcome W'.abs a r P' := by
  cases r with
  | error e => exact Fails.abs h
  | ok x => exact hP x rfl h

theorem OnPath.outcome {P P' : List Name → Prop} (h : OnPath path W W' a P)
    (hP : ∀ names, split path = .ok names → P names → P' names) :
    W.abs.Outcome W'.abs a (split path) P' := by
  unfold OnPath at h
  cases hs : split path with
  | error e =>
    rw [hs] at h
    exact Fails.abs h
  | ok names =>
    rw [hs] at h
    exact hP names hs h

/-- First the path, then the tree. -/
theorem OnPath.bind {f : List Name → Except Errno β} {P : List Name → Prop} {P' : β → Prop}
    (h : OnPath path W W' a P)
    (hP : ∀ names, P names → W.abs.Outcome W'.abs a (f names) P') :
    W.abs.Outcome W'.abs a (split path >>= f) P' := by
  have h' : W.abs.Outcome W'.abs a (split path) fun names => W.abs.Outcome W'.abs a (f names) P' :=
    h.outcome fun names _ => hP names
  cases hs : split path with
  | error e =>
    rw [hs] at h'
    exact h'
  | ok names =>
    rw [hs] at h'
    exact h'

theorem NoRoom.short {besides : List Name → Errno → Prop} {names : List Name} {e : Errno}
    (h : NoRoom sb W.image names.dropLast e) (hb : besides names e)
    (hf : ConcurrentFs.Fails W W' a e) : W.abs.Short W'.abs a besides names := by
  refine ⟨e, ?_, hb, Fails.abs hf⟩
  cases e with
  | enospc => exact .inl rfl
  | efbig => exact .inr rfl
  | _ => exact h.elim

theorem modeOf_kind {ino : Inode} {kd : Kind} (h : kindOf ino = some kd) :
    ino.mode = Abs.modeOf kd := by
  unfold kindOf at h
  split at h
  · obtain rfl := Option.some.inj h
    assumption
  · split at h
    · obtain rfl := Option.some.inj h
      assumption
    · contradiction

/-- What a call may answer in a world, it may answer in what the world stands for. -/
theorem Decides.answers {besides : List Name → Errno → Prop} (hr : W.image.tree.Rules)
    (h : Decides sb c a W W')
    (hfull : a = .fail .emfile → (∀ fd < maxOpen, W.slot fd ≠ .free) → besides [] .emfile)
    (hclose : ∀ fd names, c = .close fd → (∀ x flags off, W.slot fd.toNat ≠ .live x flags off) →
      a = .fail .ebadf → W.abs.fds fd.toNat = some names → besides [] .ebadf)
    (hroom : ∀ names e, a = .fail e → NoRoom sb W.image names.dropLast e → besides names e)
    (hlinks : ∀ path names e, c = .mkdir path → a = .fail e → NoLinks W.image names.dropLast e →
      besides names e) :
    W.abs.Answers W'.abs a besides c := by
  cases c with
  | open_ path flags =>
    unfold Decides at h
    unfold Abs.Answers Abs.openNames
    dsimp only at h ⊢
    split at h
    · rename_i hbad
      rw [if_pos hbad]
      exact Fails.abs h
    · rename_i hgood
      rw [if_neg hgood]
      refine OnPath.bind h fun names hn => ?_
      by_cases hnil : names = []
      · rw [if_pos hnil] at hn
        subst hnil
        exact Fails.abs hn
      · rw [if_neg hnil] at hn
        rw [if_neg hnil]
        rcases hn with ⟨hno, hn⟩ | hn
        · exact .inl ⟨hfull hn.2 hno, Fails.abs hn⟩
        · refine .inr (hn.outcome fun node _ hd => ?_)
          rcases hd with hd | ⟨hnew, e, hno, hf⟩
          · exact .inl hd
          · exact .inr ⟨hnew, hno.short (hroom names e hf.2 hno) hf⟩
  | close fd =>
    unfold Decides at h
    dsimp only at h
    split at h
    · rename_i hbad
      exact .inl ⟨hbad, Fails.abs h⟩
    · rename_i hok
      rw [not_or, not_lt, not_le] at hok
      refine .inr ⟨hok, ?_⟩
      rcases h with h | ⟨hdead, h⟩
      · exact .inr h
      · refine .inl ⟨?_, Fails.abs h⟩
        cases hfd : W.abs.fds fd.toNat with
        | none => exact .inl rfl
        | some names => exact .inr (hclose fd names rfl hdead h.2 hfd)
  | mkdir path =>
    refine OnPath.outcome h fun names _ hn => Gives.outcome hn fun node _ hd => ?_
    rcases hd with hd | ⟨e, hno | hno, hf⟩
    · exact .inl hd
    · exact .inr (hno.short (hroom names e hf.2 hno) hf)
    · exact .inr ⟨e, .inl hno.1, hlinks path names e rfl hf.2 hno, Fails.abs hf⟩
  | unlink path =>
    exact OnPath.bind (f := W.abs.unlink) h fun names hn => Gives.outcome hn fun node _ hd => hd
  | rmdir path =>
    exact OnPath.bind (f := W.abs.rmdir) h fun names hn => Gives.outcome hn fun node _ hd => hd
  | stat path hasOut =>
    unfold Decides at h
    unfold Abs.Answers
    dsimp only at h ⊢
    split at h
    · rename_i hno
      rw [if_pos hno]
      exact Fails.abs h
    · rename_i hyes
      rw [if_neg hyes]
      refine OnPath.bind (f := W.abs.find) h fun names hn => Gives.outcome hn fun kd _ hd => ?_
      obtain ⟨hW, x, -, hk, ha⟩ := hd
      exact ⟨congrArg World.abs hW, _, modeOf_kind hk, ha⟩
  | readdir path hasOut max =>
    unfold Decides at h
    unfold Abs.Answers
    dsimp only at h ⊢
    split at h
    · rename_i hno
      rw [if_pos hno]
      exact Fails.abs h
    · rename_i hyes
      rw [if_neg hyes]
      refine OnPath.outcome h fun names _ hn => Gives.outcome hn fun kd hfind hd => ?_
      cases kd with
      | file => exact Fails.abs hd
      | dir =>
        obtain ⟨hW, x, hx, ha⟩ := hd
        refine ⟨congrArg World.abs hW, _, lists_itemsOf hr hx ?_, ha⟩
        obtain ⟨kd, hk⟩ := Option.ne_none_iff_exists'.mp (hr.used_of_at hx)
        rw [hk]
        exact congrArg some (Except.ok.inj ((find_of_at hr hx hk).symm.trans hfind))
  | read fd hasBuf n => exact h
  | write fd buf n => exact h
  | lseek fd off whence => exact h
  | fsync fd => exact h
  | sync => exact h

end Answers

/-! ## The calls in a row -/

section Row

variable {sb : Superblock} {disk : Nat → Block} {clock : Nat → UInt64} {n : Nat} {P : Users}

/-- The tree and the descriptors that are open in a history whose calls have all returned. -/
theorem idle_fds {W : World} {s : FileSystem} (hb : Body sb s W (Multiset.replicate n .empty))
    (fd : Nat) : W.abs.fds fd = if (s.files fd).inode = 0 then none
      else some ((Image.of sb s.disk).tree.pathOf (s.files fd).inode) := by
  show (W.slot fd).inode.map _ = _
  rw [hb.idle_slot fd, hb.shows.image]
  split
  · rfl
  · rfl

/-- What call `c` may lack in the world `V`, on its way to `names`: every descriptor is taken, by an
    open file or a call that is running; the one to be closed is that of an `open` that has not
    returned; or there is no room for something new. -/
def World.Lacks (sb : Superblock) (V : World) (c : Call) (names : List Name) : Errno → Prop
  | .emfile => ∀ fd < maxOpen, V.slot fd ≠ .free
  | .ebadf => ∃ fd file, c = .close fd ∧ V.slot fd.toNat = .reserved (some file)
  | e => NoRoom sb V.image names.dropLast e ∨
    (∃ path, c = .mkdir path) ∧ NoLinks V.image names.dropLast e

/-- `V'` is what a deed makes of `V`. -/
def Moves (sb : Superblock) (V V' : World) : Prop := ∃ act : Act, act.Does sb V V'

/-- Call `c` may answer `a` in the world `V`, which it makes `V'`. -/
def MayAnswer (sb : Superblock) (V : World) (c : Call) (a : Reply) (V' : World) : Prop :=
  Moves sb V V' ∧ V.abs.Answers V'.abs a (V.Lacks sb c) c

/-- Something is done that neither the tree nor the open descriptors show. -/
def Unseen (sb : Superblock) (V V' : World) : Prop := Moves sb V V' ∧ V'.abs = V.abs

/-- A deed by which call `c` may go on in the world `V`: it settles an answer that is right then, or
    is not seen. -/
def GoesOn (sb : Superblock) (V : World) (c : Call) (d : Deed Act Reply World) : Prop :=
  d.act.Does sb V d.post ∧
  match d.answer with
  | some a => V.abs.Answers d.post.abs a (V.Lacks sb c) c
  | none => d.post.abs = V.abs

/-- What happened in a run of which `tr` was seen: the calls, each followed by its deeds, one of
    which settles the answer, and by its return with that answer.  The deeds of a call that has
    returned are those of such a call, and all of them lead from the world `V` to `W`. -/
structure Happened (sb : Superblock) (V : World) (tr : List (Event Call Reply)) (W : World)
    (log : List Line) : Prop where
  seen : log.filterMap Mark.event = tr
  deeds : ∀ i, ∃ ph own, Follows (fun c a own => Did c a (own.map Deed.act)) i log ph own
  leads : Linked (GoesOn sb) V log W

theorem not_noRoom {I : Image} {names : List Name} {e : Errno} (h : NoRoom sb I names e) :
    e = .enospc ∨ e = .efbig := by
  cases e with
  | enospc => exact .inl rfl
  | efbig => exact .inr rfl
  | _ => exact h.elim

/-- What settles an answer settles one that is right. -/
theorem Legal.goesOn {V : World} {c : Call} {d : Deed Act Reply World} (hr : V.image.tree.Rules)
    (h : Legal sb V c d) : GoesOn sb V c d := by
  obtain ⟨hdoes, hans⟩ := h
  refine ⟨hdoes, ?_⟩
  cases hd : d.answer with
  | none =>
    rw [hd] at hans
    exact hans
  | some a =>
    rw [hd] at hans
    apply Decides.answers hr hans
    · exact fun _ hfull => hfull
    · -- it has a name and is not open
      intro fd names hc hdead _ hfd
      refine ⟨fd, ?_⟩
      cases hs : V.slot fd.toNat with
      | live x flags off => exact absurd hs (hdead x flags off)
      | free =>
        have hnone : V.abs.fds fd.toNat = none := by
          show (V.slot fd.toNat).inode.map _ = none
          rw [hs]
          rfl
        rw [hnone] at hfd
        contradiction
      | reserved file =>
        cases file with
        | some file => exact ⟨file, hc, rfl⟩
        | none =>
          have hnone : V.abs.fds fd.toNat = none := by
            show (V.slot fd.toNat).inode.map _ = none
            rw [hs]
            rfl
          rw [hnone] at hfd
          contradiction
    · intro names e _ hno
      rcases not_noRoom hno with rfl | rfl
      · exact .inl hno
      · exact .inl hno
    · intro path names e hc _ hno
      obtain rfl := hno.1
      exact .inr ⟨⟨path, hc⟩, hno⟩

/-- The calls of any number of threads, in any interleaving, are linearizable, and end in the tree
    that is on the disk. -/
theorem reached_linearizable (g : Regions sb) (hc : Consistent sb (Image.of sb disk))
    (h : Reached sb disk clock n P) : ∃ W log,
    Happened sb (.fresh (Image.of sb disk)) P.trace W log ∧
    Linearization (MayAnswer sb) (Unseen sb) (.fresh (Image.of sb disk)) P.trace W
      (log.filterMap Mark.point) ∧
    W.image = Image.of sb P.state.disk ∧
    (P.Idle → ∀ fd, W.slot fd = if (P.state.files fd).inode = 0 then .free
      else .live (P.state.files fd).inode (P.state.files fd).flags (P.state.files fd).offset) := by
  obtain ⟨W, log, hist⟩ := h.history g hc
  obtain ⟨hs, hb, hidle⟩ := hist.now
  have hleads : Linked (GoesOn sb) (.fresh (Image.of sb disk)) log W :=
    hist.linked.mono fun V c d hreal => by
      obtain ⟨hlegal, ⟨s, gs, hV⟩, -⟩ := hreal
      exact hlegal.goesOn hV.cons.tree
  have hlin : Linearization (MayAnswer sb) (Unseen sb) (.fresh (Image.of sb disk))
      (log.filterMap Mark.event) W (log.filterMap Mark.point) := by
    apply linearization hleads hist.follows
    · -- a deed that settles an answer is where the call takes effect
      rintro V c d a ⟨hdoes, hans⟩ hd
      rw [hd] at hans
      exact ⟨⟨d.act, hdoes⟩, hans⟩
    · rintro V c d ⟨hdoes, hans⟩ hd
      rw [hd] at hans
      exact ⟨⟨d.act, hdoes⟩, hans⟩
  rw [hist.seen] at hlin
  refine ⟨W, log, ⟨hist.seen, hist.follows, hleads⟩, hlin, hb.shows.image.symm, fun hP => ?_⟩
  obtain ⟨k, rfl⟩ := hidle hP
  exact hb.idle_slot

/-- Two threads make the same directory: the first to call is the second to find its parent free. -/
def raced : Users := newRun [.call 0 newCall, .work 0, .call 1 newCall, .rest 1, .rest 0]

theorem raced_reached : Reached smallLayout newDisk (fun _ => 0) 2 raced := newRun_reached _

theorem reached_linearizable_new : raced.codes = [(1, 0), (0, -17)] ∧ ∃ W log,
    Happened smallLayout (.fresh (Image.of smallLayout newDisk)) raced.trace W log ∧
    Serial (MayAnswer smallLayout) (Unseen smallLayout) (.fresh (Image.of smallLayout newDisk))
      (log.filterMap Mark.point) W ∧
    (∀ i, returnsOf i raced.trace <+: opsOf i (log.filterMap Mark.point)) ∧
    W.image = Image.of smallLayout raced.state.disk := by
  obtain ⟨W, log, hhap, hlin, himage, -⟩ := reached_linearizable
    (regions_of_validate smallLayout_valid) newDisk_consistent raced_reached
  refine ⟨by decide +kernel, W, log, hhap, hlin.serial, fun i => ?_, himage⟩
  obtain ⟨ops1, ops2, hops, h⟩ := hlin.between raced.trace [] (List.append_nil _).symm
  rw [hops]
  refine (h i).1.trans ?_
  rw [opsOf_append]
  exact List.prefix_append _ _

end Row

/-! ## A close that comes early -/

namespace Abs

variable {A A' : Abs} {a : Reply} {names : List Name} {e : Errno}

/-- The answer has the code that the sequential meaning gives where nothing is short, the numbers of
    descriptors that are opened aside. -/
def Yields (A : Abs) (c : Call) (a : Reply) (A' : Abs) : Prop :=
  ∃ a' : Reply, A.Answers A' a' (fun _ _ => False) c ∧
    (a.code = a'.code ∨ (∃ path flags, c = .open_ path flags) ∧ 0 ≤ a.code ∧ 0 ≤ a'.code)

theorem findFrom_error {at_ rest : List Name} (h : A.findFrom at_ rest = .error e) :
    e = .enoent ∨ e = .enotdir := by
  induction rest generalizing at_ with
  | nil =>
    unfold findFrom at h
    cases hn : A.node at_ with
    | none =>
      rw [hn] at h
      exact .inl (Except.error.inj h).symm
    | some kd =>
      rw [hn] at h
      contradiction
  | cons name rest ih =>
    unfold findFrom at h
    split at h
    · exact .inl (Except.error.inj h).symm
    · exact .inr (Except.error.inj h).symm
    · split at h
      · exact .inl (Except.error.inj h).symm
      · exact ih h

/-- What cannot be removed because it is open is open. -/
theorem open_of_busy (h : A.unlink names = .error .ebusy) : ∃ fd, A.fds fd = some names := by
  unfold unlink at h
  split at h
  · cases h
  split at h
  · rename_i e hchild
    obtain rfl := Except.error.inj h
    unfold child at hchild
    split at hchild
    · rename_i hfind
      obtain rfl := Except.error.inj hchild
      rcases findFrom_error hfind with h | h
      · cases h
      · cases h
    · cases hchild
    · cases hchild
  · cases h
  · cases h
  · split at h
    · assumption
    · cases h

theorem fail_code {e e' : Errno} (h : (Reply.fail e).code = (Reply.fail e').code) : e = e' := by
  have hcode : -(e.code : Int) = -e'.code := h
  cases e <;> cases e' <;> first | rfl | (revert hcode; decide)

/-- A file that is busy is open. -/
theorem Yields.busy {path : Option CString} (h : A.Yields (.unlink path) a A')
    (hs : split path = .ok names) (ha : a.code = (Reply.fail .ebusy).code) :
    A.fds ≠ (fun _ => none) ∧ A'.fds = A.fds := by
  obtain ⟨a', hans, hcode⟩ := h
  have hcode : (Reply.fail .ebusy).code = a'.code := by
    rcases hcode with hcode | ⟨⟨_, _, hc⟩, -⟩
    · exact ha.symm.trans hcode
    · contradiction
  unfold Answers at hans
  dsimp only at hans
  rw [hs] at hans
  have hans : A.Outcome A' a' (A.unlink names) fun node =>
    a' = .of 0 ∧ A' = ⟨node, A.fds⟩ := hans
  cases hr : A.unlink names with
  | error e =>
    rw [hr] at hans
    obtain ⟨rfl, rfl⟩ := hans
    obtain rfl := fail_code hcode
    obtain ⟨fd, hfd⟩ := open_of_busy hr
    refine ⟨fun hnone => ?_, rfl⟩
    rw [hnone] at hfd
    contradiction
  | ok node =>
    rw [hr] at hans
    obtain ⟨rfl, -⟩ := hans
    contradiction

/-- An open that succeeds opens one descriptor. -/
theorem Yields.opens {path : Option CString} {flags : UInt32}
    (h : A.Yields (.open_ path flags) a A') (ha : 0 ≤ a.code) :
    ∃ fd names, A'.fds = Function.update A.fds fd (some names) := by
  obtain ⟨a', hans, hcode⟩ := h
  have hcode : 0 ≤ a'.code := by
    rcases hcode with hcode | ⟨-, -, hcode⟩
    · exact hcode ▸ ha
    · exact hcode
  have hno : ∀ {e : Errno}, ¬A.Fails A' a' e := by
    intro e hf
    rw [hf.2] at hcode
    have := e.code_pos
    have hneg : (0 : Int) ≤ -e.code := hcode
    omega
  unfold Answers at hans
  dsimp only at hans
  cases hn : openNames path flags with
  | error e =>
    rw [hn] at hans
    exact absurd hans hno
  | ok names =>
    rw [hn] at hans
    rcases hans with ⟨h, -⟩ | hans
    · exact h.elim
    cases ho : A.open_ names flags with
    | error e =>
      rw [ho] at hans
      exact absurd hans hno
    | ok node =>
      rw [ho] at hans
      rcases hans with ⟨fd, -, -, -, hA⟩ | ⟨-, e, -, h, -⟩
      · exact ⟨fd, names, by rw [hA]⟩
      · exact h.elim

/-- What `close(0)` answers. -/
theorem Yields.closes (h : A.Yields (.close 0) a A') :
    (a.code = (Reply.fail .ebadf).code → A.fds 0 = none ∧ A'.fds = A.fds) ∧
    (a.code = 0 → A.fds 0 ≠ none) := by
  obtain ⟨a', hans, hcode⟩ := h
  have hcode : a.code = a'.code := by
    rcases hcode with hcode | ⟨⟨_, _, hc⟩, -⟩
    · exact hcode
    · contradiction
  rw [hcode]
  unfold Answers at hans
  dsimp only at hans
  rcases hans with ⟨hbad, -⟩ | ⟨-, ⟨hno | h, hA, rfl⟩ | ⟨names, hsome, rfl, -⟩⟩
  · unfold maxOpen at hbad
    omega
  · exact ⟨fun _ => ⟨hno, by rw [hA]⟩, fun h => absurd h (by decide)⟩
  · exact h.elim
  · refine ⟨fun h => absurd h (by decide), fun _ hnone => ?_⟩
    rw [show A.fds 0 = A.fds (0 : Int).toNat from rfl, hsome] at hnone
    contradiction

end Abs


section Early

/-- Which call it is, as far as it matters here. -/
def Call.tag : Call → Nat × Int
  | .open_ .. => (0, 0)
  | .close fd => (1, fd)
  | .unlink path => (2, if path = some slashA then 0 else 1)
  | _ => (3, 0)

theorem Call.open_of_tag {c : Call} (h : c.tag = (0, 0)) : ∃ path flags, c = .open_ path flags := by
  cases c with
  | open_ path flags => exact ⟨path, flags, rfl⟩
  | _ => cases h

theorem Call.close_of_tag {c : Call} (h : c.tag = (1, 0)) : c = .close 0 := by
  cases c with
  | close fd =>
    obtain ⟨-, rfl⟩ := Prod.mk.inj h
    rfl
  | _ => cases h

theorem Call.unlink_of_tag {c : Call} (h : c.tag = (2, 0)) : c = .unlink (some slashA) := by
  cases c with
  | unlink path =>
    have hpath : (if path = some slashA then (0 : Int) else 1) = 0 := (Prod.mk.inj h).2
    by_cases hp : path = some slashA
    · rw [hp]
    · rw [if_neg hp] at hpath
      contradiction
  | _ => cases h

/-- The tag and the code of an operation. -/
def outcome (o : Call × Reply) : (Nat × Int) × Int := (o.1.tag, o.2.code)

/-- One thread's `open` is under way when another one finds the file busy and cannot close the
    descriptor; then the `open` returns, and the descriptor is closed. -/
def early : Users :=
  newRun (.call 0 (create slashA) :: List.replicate 14 (.work 0) ++
    whole 1 (.unlink (some slashA)) ++ whole 1 (.close 0) ++ [.rest 0] ++ whole 0 (.close 0))

theorem early_reached : Reached smallLayout newDisk (fun _ => 0) 2 early := newRun_reached _

/-- What is seen of it, up to the close that fails and as a whole. -/
theorem early_seen :
    ((callsOf 0 (early.trace.take 5)).length = 1 ∧
    (callsOf 1 (early.trace.take 5)).length = 2 ∧
    (returnsOf 1 (early.trace.take 5)).map outcome = [((2, 0), -16), ((1, 0), -9)]) ∧
    ((callsOf 0 early.trace).length = 2 ∧ (callsOf 1 early.trace).length = 2 ∧
    (returnsOf 0 early.trace).map outcome = [((0, 0), 0), ((1, 0), 0)]) ∧
    ∀ i ∈ early.trace.map Event.thread, i < 2 := by
  decide +kernel

/-- With nothing that is not seen, the first operation comes first. -/
theorem serial_cons {A A' : Abs} {o : Op Call Reply} {ops : List (Op Call Reply)}
    (h : Serial Abs.Yields (fun _ _ => False) A (o :: ops) A') :
    ∃ B, A.Yields o.call o.answer B ∧ Serial Abs.Yields (fun _ _ => False) B ops A' := by
  cases h with
  | quiet hq => exact hq.elim
  | op ho hs => exact ⟨_, ho, hs⟩

theorem serial_nil {A A' : Abs} (h : Serial Abs.Yields (fun _ _ => False) A [] A') : A' = A := by
  cases h with
  | nil => rfl
  | quiet hq => exact hq.elim

/-- In a row, the `open` comes first, and it opens another descriptor than the one that cannot be
    closed. -/
theorem early_row {ops : List (Op Call Reply)} {A A' : Abs} (hA : A.fds = fun _ => none)
    (hs : Serial Abs.Yields (fun _ _ => False) A ops A')
    (h0 : (opsOf 0 ops).map outcome <+: [((0, 0), 0)])
    (h1 : (opsOf 1 ops).map outcome = [((2, 0), -16), ((1, 0), -9)])
    (hi : ∀ i, 2 ≤ i → opsOf i ops = []) :
    (opsOf 0 ops).map outcome = [((0, 0), 0)] ∧ A'.fds 0 = none := by
  cases ops with
  | nil => cases h1
  | cons o ops =>
    obtain ⟨i, c, a⟩ := o
    obtain ⟨B, hyields, htail⟩ := serial_cons hs
    have hself := opsOf_cons_self ⟨i, c, a⟩ ops
    have hother : ∀ j, i ≠ j → opsOf j (⟨i, c, a⟩ :: ops) = opsOf j ops := fun j hj =>
      opsOf_cons_ne hj ops
    dsimp only at hself hyields
    match i with
    | 0 =>
      rw [hself, List.map_cons, List.cons_prefix_cons, List.prefix_nil, List.map_eq_nil_iff] at h0
      obtain ⟨hopen, hnil⟩ := h0
      obtain ⟨htag, hcode⟩ := Prod.mk.inj hopen
      obtain ⟨path, flags, rfl⟩ := Call.open_of_tag htag
      obtain ⟨fd, names, hB⟩ := hyields.opens (le_of_eq hcode.symm)
      rw [hother 1 (by decide)] at h1
      -- the others are those of the other thread
      have hrest : ops = (opsOf 1 ops).map fun x => ⟨1, x.1, x.2⟩ := by
        apply ops_of_single
        intro j hj
        match j with
        | 0 => exact hnil
        | 1 => exact absurd rfl hj
        | j + 2 => exact (hother _ (by omega)).symm.trans (hi _ (by omega))
      obtain ⟨⟨cu, au⟩, l, hl, hu, h1⟩ := List.map_eq_cons_iff.mp h1
      obtain ⟨⟨cc, ac⟩, l', rfl, hc, h1⟩ := List.map_eq_cons_iff.mp h1
      obtain rfl := List.map_eq_nil_iff.mp h1
      rw [hl, List.map_cons, List.map_cons, List.map_nil] at hrest
      subst hrest
      obtain ⟨B1, hbusy, htail⟩ := serial_cons htail
      obtain ⟨B2, hclose, htail⟩ := serial_cons htail
      obtain rfl := serial_nil htail
      obtain ⟨htagu, hcodeu⟩ := Prod.mk.inj hu
      obtain ⟨htagc, hcodec⟩ := Prod.mk.inj hc
      dsimp only at htagu htagc hcodeu hcodec hbusy hclose
      obtain rfl := Call.unlink_of_tag htagu
      obtain rfl := Call.close_of_tag htagc
      obtain ⟨hnone, hsame⟩ := hclose.closes.1 hcodec
      rw [hsame, hself, hnil]
      exact ⟨congrArg (fun x => [x]) hopen, hnone⟩
    | 1 =>
      -- nothing is open yet
      rw [hself, List.map_cons] at h1
      obtain ⟨hu, -⟩ := List.cons.inj h1
      obtain ⟨htag, hcode⟩ := Prod.mk.inj hu
      obtain rfl := Call.unlink_of_tag htag
      have hsplit : split (some slashA) = .ok [[97]] := rfl
      exact absurd hA (hyields.busy hsplit hcode).1
    | i + 2 =>
      rw [hi (i + 2) (by omega)] at hself
      contradiction

/-- The calls of the two threads, taken as they are, cannot be put in a row: there is a descriptor
    that cannot be closed while the file is open, and that is closed later on. -/
theorem early_not_linearizable :
    Reached smallLayout newDisk (fun _ => 0) 2 early ∧ ¬∃ ops A,
      Linearization Abs.Yields (fun _ _ => False)
        (World.fresh (Image.of smallLayout newDisk)).abs early.trace A ops := by
  refine ⟨newRun_reached _, ?_⟩
  rintro ⟨ops, A, hserial, hbetween⟩
  obtain ⟨⟨hcalls0, hcalls1, hrets1⟩, ⟨hcalls0', hcalls1', hrets0⟩, hthreads⟩ := early_seen
  have hlen : ∀ {l : List (Call × Reply)} {t : List ((Nat × Int) × Int)}, l.map outcome = t →
      l.length = t.length := fun h => h ▸ List.length_map _ |>.symm
  -- what was done when the close had failed, and what was done in the end
  obtain ⟨ops1, ops2, hops, hcut⟩ := hbetween _ _ (List.take_append_drop 5 early.trace).symm
  obtain ⟨ops3, ops4, hops', hcut'⟩ := hbetween early.trace [] (List.append_nil _).symm
  have h1 : opsOf 1 ops1 = returnsOf 1 (early.trace.take 5) :=
    opsOf_eq_returnsOf (hcut 1) (hcalls1.trans (hlen hrets1).symm).le
  have h3 : opsOf 0 ops3 = returnsOf 0 early.trace :=
    opsOf_eq_returnsOf (hcut' 0) (hcalls0'.trans (hlen hrets0).symm).le
  rw [← h1] at hrets1
  rw [← h3] at hrets0
  have hothers : ∀ {ops : List (Op Call Reply)} {tr : List (Event Call Reply)},
      tr ⊆ early.trace → (∀ i, (opsOf i ops).map Prod.fst <+: callsOf i tr) →
      ∀ i, 2 ≤ i → opsOf i ops = [] := by
    intro ops tr htr h i hi
    have hnone : callsOf i tr = [] := by
      apply callsOf_none
      intro e he hei
      have := hthreads _ (List.mem_map_of_mem (htr he))
      omega
    have hnil := h i
    rw [hnone, List.prefix_nil, List.map_eq_nil_iff] at hnil
    exact hnil
  -- of the first thread, no more than the `open` was done when the close had failed
  have h0 : (opsOf 0 ops1).map outcome <+: [((0, 0), 0)] := by
    have hpre : (opsOf 0 ops1).map outcome <+: (opsOf 0 ops).map outcome := by
      rw [hops, opsOf_append]
      exact (List.prefix_append _ _).map outcome
    have hpre' : [((0, 0), 0)] <+: (opsOf 0 ops).map outcome := by
      rw [hops', opsOf_append, List.map_append, hrets0]
      exact List.prefix_append [((0, 0), 0)] _
    refine List.prefix_of_prefix_length_le hpre hpre' ?_
    have hle := (hcut 0).2.length_le
    rw [List.length_map] at hle ⊢
    exact hle.trans_eq hcalls0
  obtain ⟨B, hs1, hs2⟩ := Serial.split (hops ▸ hserial)
  obtain ⟨hopen, hnone⟩ := early_row (A := (World.fresh (Image.of smallLayout newDisk)).abs)
    rfl hs1 h0 hrets1 (hothers (List.take_subset 5 _) fun i => (hcut i).2)
  rcases List.append_eq_append_iff.mp (hops.symm.trans hops') with ⟨rest, rfl, rfl⟩ | ⟨more, rfl, -⟩
  · -- what is left for the end is the close that succeeds
    have hrest : rest = (opsOf 0 rest).map fun x => ⟨0, x.1, x.2⟩ := by
      apply ops_of_single
      intro i hi
      match i with
      | 0 => exact absurd rfl hi
      | 1 =>
        have hle := (hcut' 1).2.length_le
        rw [List.length_map, opsOf_append, List.length_append, hcalls1'] at hle
        have htwo : (opsOf 1 ops1).length = 2 := hlen hrets1
        exact List.length_eq_zero_iff.mp (by omega)
      | i + 2 =>
        have hnil := hothers (List.Subset.refl _) (fun i => (hcut' i).2) (i + 2) (by omega)
        rw [opsOf_append] at hnil
        exact (List.append_eq_nil_iff.mp hnil).2
    rw [opsOf_append, List.map_append, hopen] at hrets0
    obtain ⟨⟨c, a⟩, l, hl, hclose, -⟩ := List.map_eq_cons_iff.mp (List.cons.inj hrets0).2
    obtain ⟨htag, hcode⟩ := Prod.mk.inj hclose
    obtain rfl := Call.close_of_tag htag
    rw [hl, List.map_cons] at hrest
    rw [hrest] at hs2
    obtain ⟨B', hyields, -⟩ := serial_cons hs2
    exact hyields.closes.2 hcode hnone
  · have hle := h0.length_le
    rw [opsOf_append, List.map_append, hrets0] at hle
    simp at hle

end Early

end ConcurrentFs
