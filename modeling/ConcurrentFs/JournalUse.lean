/-
  ConcurrentFs.JournalUse

  What the code of the file system does to the rest of the state by the block writes it
  asks of the journal, whatever state it starts in.  Looking things up asks for none;
  what changes the image asks for a number that can be read off the code, except where
  it frees the blocks of a file or writes a chunk of one.  An effect that counts block
  writes and ignores locks (`CountsWrites`) is bounded by these numbers.
-/
import ConcurrentFs.Vfs
import ConcurrentFs.Lib.Durable
import ConcurrentFs.Lib.Effect
import Mathlib

namespace ConcurrentFs

open Lib

/-! ## Effects on a file system -/

/-- Nothing counts that is done to the lock entries. -/
structure IgnoresLocks (F : Effect FileSystem ℕ∞) : Prop where
  entries : ∀ s e n, F.rel 0 s { s with entries := e, made := n }

/-- A block write counts one; the clock and the bitmaps in memory count nothing either. -/
structure CountsWrites (F : Effect FileSystem ℕ∞) : Prop extends IgnoresLocks F where
  clock : ∀ s c, F.rel 0 s { s with clock := c }
  inodes : ∀ s bm, F.rel 0 s { s with inodes := bm }
  blocks : ∀ s bm, F.rel 0 s { s with blocks := bm }
  put : ∀ s b data, F.rel 1 s (s.putBlock b data)

/-- The record of opens stays as it is. -/
def opensKept : Effect FileSystem ℕ∞ where
  rel _ s s' := s'.opens = s.opens
  refl _ := rfl
  trans h h' := h'.trans h
  mono _ h := h

theorem opensKept_countsWrites : CountsWrites opensKept where
  entries _ _ _ := rfl
  clock _ _ := rfl
  inodes _ _ := rfl
  blocks _ _ := rfl
  put _ _ _ := rfl

section Read

variable (sb : Superblock) {F : Effect FileSystem ℕ∞}

/-! ## Reading and locking -/

theorem readBlock_has (b : Nat) : (readBlock sb b).Has F 0 := by
  unfold readBlock
  exact (Prog.has_view _).ite (Prog.has_throw _)

theorem checkId_has (id : Nat) : (checkId sb id).Has F 0 := by
  unfold checkId
  exact (Prog.has_throw _).ite (Prog.has_pure _)

theorem readInode_has (id : Nat) : (readInode sb id).Has F 0 :=
  (checkId_has sb id).then fun _ => (readBlock_has sb _).then fun _ => Prog.has_pure _

theorem getPtr_has (block i : Nat) : (getPtr sb block i).Has F 0 :=
  (readBlock_has sb block).then fun _ => Prog.has_pure _

theorem bmapRead_has (ino : Inode) (index : Nat) : (bmapRead sb ino index).Has F 0 := by
  unfold bmapRead
  split
  · exact Prog.has_pure _
  apply Prog.Has.ite
  · exact (getPtr_has sb _ _).ite (Prog.has_pure _)
  rcases Nat.lt_or_ge (index - 12 - 1024) (1024 * 1024) with hlt | hge
  · rw [if_neg (Nat.not_le.mpr hlt)]
    apply Prog.Has.ite (Prog.has_pure _)
    exact (getPtr_has sb _ _).then fun _ => (getPtr_has sb _ _).ite (Prog.has_pure _)
  · rw [if_pos hge]
    exact Prog.has_throw _

theorem readDirBlock_has (dir : Inode) (k : Nat) : (readDirBlock sb dir k).Has F 0 := by
  unfold readDirBlock
  refine (bmapRead_has sb dir k).then fun block => ?_
  dsimp only
  split
  · exact (Prog.has_throw _).then fun _ => (readBlock_has sb _).then fun _ => Prog.has_pure _
  · exact (readBlock_has sb _).then fun _ => Prog.has_pure _

theorem findSlotFrom_has (dir : Inode) (p : Nat → DirEntry → Bool) (n : Nat) :
    ∀ k, (findSlotFrom sb dir p k n).Has F 0 := by
  induction n with
  | zero => exact fun _ => Prog.has_pure _
  | succ n ih =>
    intro k
    unfold findSlotFrom
    refine (readDirBlock_has sb dir k).then fun b => ?_
    dsimp only
    split
    · exact Prog.has_pure _
    · exact ih (k + 1)

theorem findSlot_has (dir : Inode) (p : Nat → DirEntry → Bool) : (findSlot sb dir p).Has F 0 :=
  findSlotFrom_has sb dir p _ 0

variable (hF : IgnoresLocks F)
include hF

theorem mapEntry_rel (s : FileSystem) (p : EntryPtr) (f : Entry → Entry) :
    F.rel 0 s (s.mapEntry p f) := by
  unfold FileSystem.mapEntry
  split
  · exact hF.entries s _ s.made
  · exact F.refl s

theorem changeEntry_has (p : EntryPtr) (f : Entry → Entry) : (changeEntry p f).Has F 0 := by
  intro s _
  dsimp only
  split
  · exact mapEntry_rel hF s p f
  · exact mapEntry_rel hF s p f

theorem lockEntry_has (p : EntryPtr) (exclusive : Bool) : (lockEntry p exclusive).Has F 0 := by
  intro s _
  dsimp only
  split
  · exact mapEntry_rel hF s p _
  · exact mapEntry_rel hF s p _

theorem unlockEntry_has (p : EntryPtr) (exclusive : Bool) : (unlockEntry p exclusive).Has F 0 :=
  changeEntry_has hF p _

omit hF in
theorem readEntry_has {α : Type} (p : EntryPtr) (f : Entry → α) : (readEntry p f).Has F 0 := by
  intro s _
  dsimp only
  split
  · exact F.refl s
  · exact F.refl s

end Read

/-! ## Changing the image -/

section Change

variable (sb : Superblock) {F : Effect FileSystem ℕ∞} (hF : CountsWrites F)

/-- One stretch after another, where it does not matter how much each does. -/
theorem has_any_bind {α β : Type} {p : Fs α} {f : α → Fs β} (h : p.Has F ⊤)
    (hf : ∀ a, (f a).Has F ⊤) : (p >>= f).Has F ⊤ := by
  have := h.bind hf
  rwa [top_add] at this

include hF

theorem now_has : now.Has F 0 := fun s _ => hF.clock s _

theorem writeBlock_has (b : Nat) (fresh : Bool) (fn : Block → Block) :
    (writeBlock sb b fresh fn).Has F 1 := by
  unfold writeBlock
  exact (Prog.has_change fun s => hF.put s b _).ite ((Prog.has_throw _).mono zero_le)

theorem setBit_has (start bit : Nat) (value : Bool) : (setBit sb start bit value).Has F 1 :=
  writeBlock_has sb hF _ _ _

omit hF in
theorem orOutOfRange_has {α : Type} (o : Option α) : (orOutOfRange o).Has F 0 := by
  cases o with
  | some a => exact Prog.has_pure _
  | none => exact Prog.has_throw _

theorem allocBlock_has : (allocBlock sb).Has F 1 := by
  have htake : ∀ b, (do
      let bm ← orOutOfRange (← Prog.view fun s => s.blocks.set b)
      Prog.change fun s => { s with blocks := bm }
      setBit sb sb.dataBitmapStart.toNat b true
      return b : Fs Nat).Has F 1 := by
    intro b
    refine (Prog.has_view _).then fun o => (orOutOfRange_has o).then fun bm => ?_
    refine (Prog.has_change fun s => hF.blocks s bm).then fun _ => ?_
    exact ((setBit_has sb hF _ _ _).bind fun _ => Prog.has_pure b).mono (by rw [add_zero])
  unfold allocBlock
  refine (Prog.has_view _).then fun o => ?_
  cases o with
  | none => exact (Prog.has_throw _).mono zero_le
  | some b => exact ((Prog.has_throw _).then fun _ => htake b).ite (htake b)

theorem allocInode_has : (allocInode sb).Has F 1 := by
  have htake : ∀ id, (do
      let bm ← orOutOfRange (← Prog.view fun s => s.inodes.set id)
      Prog.change fun s => { s with inodes := bm }
      setBit sb sb.inodeBitmapStart.toNat id true
      return id : Fs Nat).Has F 1 := by
    intro id
    refine (Prog.has_view _).then fun o => (orOutOfRange_has o).then fun bm => ?_
    refine (Prog.has_change fun s => hF.inodes s bm).then fun _ => ?_
    exact ((setBit_has sb hF _ _ _).bind fun _ => Prog.has_pure id).mono (by rw [add_zero])
  unfold allocInode
  refine (Prog.has_view _).then fun o => ?_
  cases o with
  | none => exact (Prog.has_throw _).mono zero_le
  | some id => exact ((Prog.has_throw _).then fun _ => htake id).ite (htake id)

theorem clearBlockBit_has (b : Nat) : (clearBlockBit b).Has F 0 :=
  (Prog.has_view _).then fun o => (orOutOfRange_has o).then fun bm =>
    Prog.has_change fun s => hF.blocks s bm

theorem freeRun_has (run : List Nat) : (freeRun sb run).Has F 1 := by
  refine ((writeBlock_has sb hF _ _ _).bind fun _ =>
    Prog.has_forM run fun b _ => clearBlockBit_has hF b).mono ?_
  rw [nsmul_zero, add_zero]

omit hF in
/-- There are no more runs than there are members. -/
theorem length_splitBy_le {α : Type} (r : α → α → Bool) (l : List α) :
    (l.splitBy r).length ≤ l.length := by
  have key : ∀ L : List (List α), (∀ m ∈ L, m ≠ []) → L.length ≤ L.flatten.length := by
    intro L hL
    induction L with
    | nil => exact le_refl _
    | cons m L ih =>
      have h1 := ih fun m' hm' => hL m' (List.mem_cons_of_mem _ hm')
      have h2 := List.length_pos_iff.mpr (hL m List.mem_cons_self)
      rw [List.length_cons, List.flatten_cons, List.length_append]
      omega
  have := key (l.splitBy r) fun m hm => List.ne_nil_of_mem_splitBy hm
  rwa [List.flatten_splitBy] at this

/-- No more writes than blocks are freed. -/
theorem freeBlocks_has (blocks : List Nat) : (freeBlocks sb blocks).Has F blocks.length := by
  have hfree : ((blocks.insertionSort (· ≤ ·)).splitBy fun a b => a / 32768 == b / 32768).forM
      (freeRun sb) |>.Has F blocks.length := by
    refine (Prog.has_forM _ fun run _ => freeRun_has sb hF run).mono ?_
    rw [nsmul_one, Nat.cast_le, ← List.length_insertionSort (· ≤ ·) blocks]
    exact length_splitBy_le _ _
  unfold freeBlocks
  refine (Prog.has_view _).then fun good => ?_
  exact ((Prog.has_throw _).then fun _ => hfree).ite hfree

theorem freeInode_has (id : Nat) : (freeInode sb id).Has F 1 := by
  have hfree : (do
      let bm ← orOutOfRange (← Prog.view fun s => s.inodes.clear id)
      Prog.change fun s => { s with inodes := bm }
      setBit sb sb.inodeBitmapStart.toNat id false : Fs Unit).Has F 1 :=
    (Prog.has_view _).then fun o => (orOutOfRange_has o).then fun bm =>
      (Prog.has_change fun s => hF.inodes s bm).then fun _ => setBit_has sb hF _ _ _
  unfold freeInode
  refine (Prog.has_view _).then fun b => ?_
  exact ((Prog.has_throw _).then fun _ => hfree).ite hfree

theorem writeInode_has (ino : Inode) : (writeInode sb ino).Has F 1 :=
  (checkId_has sb _).then fun _ => writeBlock_has sb hF _ _ _

theorem clearInode_has (id : Nat) : (clearInode sb id).Has F 1 :=
  (checkId_has sb _).then fun _ => writeBlock_has sb hF _ _ _

theorem setPtr_has (block : Nat) (fresh : Bool) (i value : Nat) :
    (setPtr sb block fresh i value).Has F 1 := writeBlock_has sb hF _ _ _

/-! ## Growing a file -/

/-- Every block is taken by one write, and given back by one if a later one is not there. -/
theorem allocAllFrom_has (n : Nat) :
    ∀ got : List Nat, (allocAllFrom sb got n).Has F (n * (got.length + n) : Nat) := by
  induction n with
  | zero => exact fun got => (Prog.has_pure got).mono zero_le
  | succ n ih =>
    intro got
    have htake := (allocBlock_has sb hF).onError (freeBlocks_has sb hF got)
    have hrest : ∀ b, (allocAllFrom sb (got ++ [b]) n).Has F (n * (got.length + 1 + n) : Nat) := by
      intro b
      have := ih (got ++ [b])
      rwa [List.length_append, List.length_singleton] at this
    refine (htake.bind hrest).mono ?_
    norm_cast
    nlinarith

theorem allocAll_has (n : Nat) : (allocAll sb n).Has F (n * n : Nat) :=
  (allocAllFrom_has sb hF n []).mono (by rw [List.length_nil, Nat.zero_add])

theorem bmapAllocDirect_has (ino : Inode) (i : Fin 12) : (bmapAllocDirect sb ino i).Has F 1 := by
  have htake : (do
      let data ← allocBlock sb
      return ⟨(ino.setDirect i data).addBlocks 1, data, true⟩ : Fs Mapped).Has F 1 :=
    ((allocBlock_has sb hF).bind fun _ => Prog.has_pure _).mono (by rw [add_zero])
  unfold bmapAllocDirect
  exact ((Prog.has_pure _).mono zero_le).ite htake

theorem bmapAllocSingle_has (ino : Inode) (i : Nat) : (bmapAllocSingle sb ino i).Has F 5 := by
  have hnew : (do
      let got ← allocAll sb 2
      setPtr sb (got.getD 0 0) true i (got.getD 1 0)
      return ⟨{ ino with singleIndirect := UInt32.ofNat (got.getD 0 0) }.addBlocks 2,
        got.getD 1 0, true⟩ : Fs Mapped).Has F (4 + (1 + 0)) :=
    (allocAll_has sb hF 2).bind fun got =>
      (setPtr_has sb hF _ _ _ _).bind fun _ => Prog.has_pure _
  have hleaf : (do
      let data ← allocBlock sb
      setPtr sb ino.singleIndirect.toNat false i data
      return ⟨ino.addBlocks 1, data, true⟩ : Fs Mapped).Has F (1 + (1 + 0)) :=
    (allocBlock_has sb hF).bind fun data =>
      (setPtr_has sb hF _ _ _ _).bind fun _ => Prog.has_pure _
  unfold bmapAllocSingle
  refine Prog.Has.ite ((getPtr_has sb _ _).then fun data => ?_) (hnew.mono (by norm_num))
  exact ((Prog.has_pure _).mono zero_le).ite (hleaf.mono (by norm_num))

/-- What `bmap_alloc` does for a hole below the double-indirect block, with the second-level block
    it found. -/
def fillDouble (ino : Inode) (i1 i2 second : Nat) : Fs Mapped := do
  let top := ino.doubleIndirect.toNat
  let need := 1 + (if second ≠ 0 then 0 else 1) + (if top ≠ 0 then 0 else 1)
  let got ← allocAll sb need
  let (top', got) := if top == 0 then (got.headD 0, got.tail) else (top, got)
  let (second', got) := if second == 0 then (got.headD 0, got.tail) else (second, got)
  setPtr sb second' (second == 0) i2 (got.headD 0)
  if second == 0 then setPtr sb top' (top == 0) i1 second'
  return ⟨{ ino with doubleIndirect := UInt32.ofNat top' }.addBlocks need, got.headD 0, true⟩

omit hF in
theorem bmapAllocDouble_eq (ino : Inode) (i1 i2 : Nat) : bmapAllocDouble sb ino i1 i2 =
    (do
      let second ← (if ino.doubleIndirect.toNat ≠ 0 then
        getPtr sb ino.doubleIndirect.toNat i1 else pure 0 : Fs Nat)
      let data ← (if second ≠ 0 then getPtr sb second i2 else pure 0 : Fs Nat)
      if data ≠ 0 then return ⟨ino, data, false⟩
      fillDouble sb ino i1 i2 second) := by
  have hite : ∀ {α β : Type} {c : Prop} [Decidable c] (p q : Fs α) (f : α → Fs β),
      ((if c then p else q) >>= f) = if c then p >>= f else q >>= f := by
    intro α β c _ p q f
    split
    · rfl
    · rfl
  simp only [hite]
  rfl

theorem fillDouble_has (ino : Inode) (i1 i2 second : Nat) :
    (fillDouble sb ino i1 i2 second).Has F 11 := by
  unfold fillDouble
  dsimp only
  generalize hneed : 1 + (if second ≠ 0 then 0 else 1)
    + (if ino.doubleIndirect.toNat ≠ 0 then 0 else 1) = need
  have hle : need ≤ 3 := by
    rw [← hneed]
    split <;> split <;> omega
  have hall : (allocAll sb need).Has F 9 :=
    (allocAll_has sb hF need).mono (by exact_mod_cast Nat.mul_le_mul hle hle)
  refine Prog.Has.mono (m := 9 + (1 + 1)) (hall.bind fun got => ?_) (by norm_num)
  refine (setPtr_has sb hF _ _ _ _).bind fun _ => Prog.Has.ite ?_ ((Prog.has_pure _).mono zero_le)
  exact ((setPtr_has sb hF _ _ _ _).bind fun _ => Prog.has_pure _).mono (by norm_num)

theorem bmapAllocDouble_has (ino : Inode) (i1 i2 : Nat) :
    (bmapAllocDouble sb ino i1 i2).Has F 11 := by
  rw [bmapAllocDouble_eq]
  refine ((getPtr_has sb _ _).ite (Prog.has_pure _)).then fun second => ?_
  refine ((getPtr_has sb _ _).ite (Prog.has_pure _)).then fun data => ?_
  exact ((Prog.has_pure _).mono zero_le).ite (fillDouble_has sb hF ino i1 i2 second)

/-- Filling a hole takes at most three blocks, two of them indirect. -/
theorem bmapAlloc_has (ino : Inode) (index : Nat) : (bmapAlloc sb ino index).Has F 11 := by
  unfold bmapAlloc
  split
  · exact (bmapAllocDirect_has sb hF ino _).mono (by norm_num)
  apply Prog.Has.ite ((bmapAllocSingle_has sb hF ino _).mono (by norm_num))
  rcases Nat.lt_or_ge (index - 12 - 1024) (1024 * 1024) with hlt | hge
  · rw [if_neg (Nat.not_le.mpr hlt)]
    exact bmapAllocDouble_has sb hF ino _ _
  · rw [if_pos hge]
    exact (Prog.has_throw _).mono zero_le

theorem writeBlocks_has (src : Nat → UInt8) (chunkEnd : Nat) (n : Nat) :
    ∀ ino at_ changed, (writeBlocks sb src chunkEnd ino at_ changed n).Has F ⊤ := by
  induction n with
  | zero =>
    intro ino at_ changed
    unfold writeBlocks
    exact ((Prog.has_pure _).ite (Prog.has_throw _)).mono le_top
  | succ n ih =>
    intro ino at_ changed
    have hmap : (do
        let m ← bmapAlloc sb ino (at_ / 4096)
        return some m : Fs (Option Mapped)).Has F ⊤ :=
      has_any_bind ((bmapAlloc_has sb hF ino _).mono le_top) fun m => (Prog.has_pure _).mono le_top
    unfold writeBlocks
    refine Prog.Has.ite ((Prog.has_pure _).mono le_top) (has_any_bind ?_ fun mapped => ?_)
    · refine (Prog.Has.catch_ (n := 0) hmap fun e => ?_).mono le_top
      exact (Prog.has_pure _).ite (Prog.has_throw e)
    · cases mapped with
      | none => exact (Prog.has_pure _).mono le_top
      | some m =>
        exact has_any_bind ((writeBlock_has sb hF _ _ _).mono le_top) fun _ => ih m.ino _ _

omit hF in
theorem fileInode_has (p : EntryPtr) (id : Nat) : (fileInode sb p id).Has F 0 := by
  unfold fileInode
  refine (readEntry_has p _).then fun o => ?_
  cases o with
  | some ino => exact Prog.has_pure _
  | none => exact readInode_has sb id

/-! ## Changing the namespace -/

omit hF in
theorem collect_has (block : Nat) : (collect sb block).Has F 0 :=
  (readBlock_has sb block).then fun _ => Prog.has_pure _

omit hF in
theorem collectSeconds_has (seconds : List Nat) : (collectSeconds sb seconds).Has F 0 := by
  induction seconds with
  | nil => exact Prog.has_pure _
  | cons second rest ih =>
    unfold collectSeconds
    exact (collect_has sb second).then fun _ => ih.then fun _ => Prog.has_pure _

theorem freeAllBlocks_has (ino : Inode) : (freeAllBlocks sb ino).Has F ⊤ := by
  unfold freeAllBlocks collectSingle collectDouble
  refine Prog.Has.then (Prog.Has.ite ?_ (Prog.has_pure _)) fun single => ?_
  · exact (collect_has sb _).then fun _ => Prog.has_pure _
  refine Prog.Has.then (Prog.Has.ite ?_ (Prog.has_pure _)) fun double => ?_
  · exact (collect_has sb _).then fun _ => (collectSeconds_has sb _).then fun _ => Prog.has_pure _
  exact has_any_bind ((freeBlocks_has sb hF _).mono le_top) fun _ => (Prog.has_pure _).mono le_top

theorem dirAdd_has (dir : Inode) (name : Name) (id : Nat) (type : UInt8) :
    (dirAdd sb dir name id type).Has F 12 := by
  unfold dirAdd
  refine Prog.Has.then (findSlot_has sb dir _) fun o => ?_
  cases o with
  | some slot =>
    exact ((writeBlock_has sb hF _ _ _).bind fun _ => Prog.has_pure _).mono (by norm_num)
  | none =>
    refine Prog.Has.mono (m := 11 + 1) ((bmapAlloc_has sb hF dir _).bind fun m => ?_) (by norm_num)
    exact ((writeBlock_has sb hF _ _ _).bind fun _ => Prog.has_pure _).mono (by norm_num)

theorem dirRemove_has (dir : Inode) (name : Name) : (dirRemove sb dir name).Has F 1 := by
  unfold dirRemove
  refine Prog.Has.then (findSlot_has sb dir _) fun o => ?_
  cases o with
  | some slot =>
    exact ((writeBlock_has sb hF _ _ _).bind fun _ => Prog.has_pure _).mono (by norm_num)
  | none => exact (Prog.has_pure _).mono zero_le

theorem newInode_has (id : Nat) (mode : UInt16) : (newInode id mode).Has F 0 :=
  (now_has hF).then fun _ => Prog.has_pure _

/-- Making a file: its inode and its place in the directory, and back if there is no place. -/
theorem createFile_has (dir : Inode) (name : Name) : (createFile sb dir name).Has F 16 := by
  unfold createFile
  refine Prog.Has.mono (m := 1 + (13 + 2)) ((allocInode_has sb hF).bind fun id => ?_) (by norm_num)
  refine (((dirAdd_has sb hF dir name id ftFile).onError (freeInode_has sb hF id)).mono
    (n := 13) (by norm_num)).bind fun dir' => ?_
  refine (newInode_has hF id _).then fun ino => ?_
  refine Prog.Has.mono (m := 1 + 1) ((writeInode_has sb hF ino).bind fun _ => ?_) (by norm_num)
  refine (now_has hF).then fun t => ?_
  exact ((writeInode_has sb hF _).bind fun _ => Prog.has_pure _).mono (by norm_num)

/-- Making a directory: a block of its own besides. -/
theorem makeDir_has (parent : Nat) (dir : Inode) (name : Name) :
    (makeDir sb parent dir name).Has F 20 := by
  unfold makeDir
  refine Prog.Has.mono (m := 1 + (2 + (14 + (1 + 2)))) ((allocInode_has sb hF).bind fun id => ?_)
    (by norm_num)
  refine (((allocBlock_has sb hF).onError (freeInode_has sb hF id)).mono (n := 2)
    (by norm_num)).bind fun block => ?_
  have hundo : (do freeBlocks sb [block]; freeInode sb id : Fs Unit).Has F (1 + 1) :=
    ((freeBlocks_has sb hF [block]).mono (by norm_num)).bind fun _ => freeInode_has sb hF id
  refine (((dirAdd_has sb hF dir name id ftDir).onError hundo).mono (n := 14) (by norm_num)).bind
    fun dir' => ?_
  refine (writeBlock_has sb hF block true _).bind fun _ => ?_
  refine (newInode_has hF id _).then fun ino => ?_
  refine Prog.Has.mono (m := 1 + 1) ((writeInode_has sb hF _).bind fun _ => ?_) (by norm_num)
  exact (now_has hF).then fun t => writeInode_has sb hF _

theorem removeEntry_has (dir : Inode) (name : Name) (id : Nat) (ino : Inode) (links : UInt16) :
    (removeEntry sb dir name id ino links).Has F ⊤ := by
  unfold removeEntry
  refine has_any_bind ((dirRemove_has sb hF dir name).mono le_top) fun _ => ?_
  refine has_any_bind (freeAllBlocks_has sb hF ino) fun _ => ?_
  refine has_any_bind ((clearInode_has sb hF id).mono le_top) fun _ => ?_
  refine has_any_bind ((freeInode_has sb hF id).mono le_top) fun _ => ?_
  refine has_any_bind ((now_has hF).mono le_top) fun t => ?_
  exact (writeInode_has sb hF _).mono le_top

theorem truncateFile_has (file : InodeLock) (id : Nat) : (truncateFile sb file id).Has F ⊤ := by
  unfold truncateFile
  refine has_any_bind ((changeEntry_has hF.toIgnoresLocks _ _).mono le_top) fun _ => ?_
  refine has_any_bind ((readInode_has sb id).mono le_top) fun ino => ?_
  refine Prog.Has.ite ?_ ((Prog.has_pure _).mono le_top)
  refine has_any_bind (freeAllBlocks_has sb hF ino) fun ino' => ?_
  refine has_any_bind ((now_has hF).mono le_top) fun t => ?_
  exact (writeInode_has sb hF _).mono le_top

end Change

end ConcurrentFs
