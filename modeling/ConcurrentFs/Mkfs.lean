/-
  ConcurrentFs.Mkfs

  Making a file system (src/mkfs.cpp), and what an interruption leaves.

  `mkfs` is the list of what it asks of the device: block writes and syncs.  Cut
  off after any of them, what is on the disk is what a crash makes of the file
  they were issued on (`Lib.BlockFile`): everything up to the last sync, and of
  each later write any of its sectors.  Block 0 is wiped first and written last,
  each behind a sync, so an image that has a superblock is the old one untouched
  or the new one whole.
-/
import ConcurrentFs.Lib.Durable
import ConcurrentFs.Allocator
import ConcurrentFs.Namespace

namespace ConcurrentFs.Mkfs

open Lib

/-- What is asked of a block device. -/
inductive DevOp where
  | write (block : Nat) (data : Block)
  | sync

/-- Code that only writes to the device; its state is what it asked for so far. -/
abbrev Format := Prog (List DevOp) String

/-- `BlockDevice::write_block`. -/
def devWrite (block : Nat) (data : Block) : Format Unit := Prog.change (· ++ [.write block data])

/-- `BlockDevice::sync`. -/
def devSync : Format Unit := Prog.change (· ++ [.sync])

/-- `Bitmap::set`, with the text of its `std::out_of_range`. -/
def setBit (bm : Bitmap) (i : Nat) : Format Bitmap :=
  match bm.set i with
  | some bm => pure bm
  | none => throw ("bit " ++ toString i ++ " is past the end of a " ++ toString bm.nbits
      ++ "-bit bitmap")

/-- `Bitmap::store`. -/
def store (bm : Bitmap) (firstBlock : Nat) : Format Unit :=
  (List.range (blocksFor bm.nbits)).forM fun k => devWrite (firstBlock + k) (bm.stored k)

/-- The root directory's block: it is its own parent, so both entries point back at it. -/
def rootDir : Block :=
  let dot := makeEntry dot rootInode ftDir
  let dotdot := makeEntry dotdot rootInode ftDir
  setSlotAt (setSlotAt (Bytes.zero 4096) 0 dot) 1 dotdot

/-- The root's inode.  `mtime` is what `std::time` returned. -/
def root (rootBlock : UInt32) (mtime : UInt64) : Inode :=
  { Inode.zero with
    id := UInt32.ofNat rootInode
    mode := modeDir ||| dirPerm
    linkCount := 2  -- its own "." and ".."
    size := 4096
    mtime := mtime
    blockCount := 1
    direct := Function.update (fun _ => 0) 0 rootBlock }

/-- `mkfs`, on a device of `totalBlocks` blocks. -/
def mkfs (totalBlocks inodeCount : UInt32) (mtime : UInt64) : Format Superblock := do
  let sb ← Prog.ofExcept (planLayout totalBlocks inodeCount)
  let rootBlock := sb.dataStart
  let zero := Bytes.zero 4096
  -- wipe any old superblock first
  devWrite 0 zero
  devSync
  (List.range (sb.dataStart.toNat - sb.inodeTableStart.toNat)).forM fun k =>
    devWrite (sb.inodeTableStart.toNat + k) zero
  let inodes ← setBit (.ofSize sb.inodeCount.toNat) 0
  let inodes ← setBit inodes rootInode
  store inodes sb.inodeBitmapStart.toNat
  -- the metadata is marked used, so no allocation can ever hand it out
  let blocks ← (List.range sb.dataStart.toNat).foldlM setBit (.ofSize sb.totalBlocks.toNat)
  let blocks ← setBit blocks rootBlock.toNat
  store blocks sb.dataBitmapStart.toNat
  devWrite rootBlock.toNat rootDir
  devWrite (inodeBlock sb rootInode) (setInodeIn zero (rootInode % 32) (root rootBlock mtime))
  -- the superblock goes last
  devSync
  devWrite 0 (superblockBlock sb)
  devSync
  return sb

/-- What an operation does to the file behind the device. -/
def DevOp.apply (f : BlockFile 4096) : DevOp → BlockFile 4096
  | .write b data => f.write b data
  | .sync => f.sync

/-- The file after these operations. -/
def perform (f : BlockFile 4096) (ops : List DevOp) : BlockFile 4096 := ops.foldl DevOp.apply f

/-! ## What mkfs asks for -/

section Ends

variable {ops : List DevOp} {E : String → List DevOp → Prop}

theorem devWrite_ends {b : Nat} {data : Block} {Q : Unit → List DevOp → Prop}
    (hQ : Q () (ops ++ [.write b data])) : (devWrite b data).Ends ops Q E :=
  (Prog.ends_change _).mpr hQ

theorem devSync_ends {Q : Unit → List DevOp → Prop} (hQ : Q () (ops ++ [.sync])) :
    devSync.Ends ops Q E := (Prog.ends_change _).mpr hQ

/-- A loop that writes one block in each round. -/
theorem forM_write_ends {b : Nat → Nat} {data : Nat → Block} (ks : List Nat)
    {Q : Unit → List DevOp → Prop}
    (hQ : Q () (ops ++ ks.map fun k => .write (b k) (data k))) :
    (ks.forM fun k => devWrite (b k) (data k)).Ends ops Q E := by
  induction ks generalizing ops with
  | nil => simpa [List.forM] using hQ
  | cons k ks ih =>
    show (devWrite (b k) (data k) >>= fun _ => ks.forM fun k =>
      devWrite (b k) (data k)).Ends ops Q E
    rw [Prog.ends_bind]
    refine devWrite_ends (ih ?_)
    rwa [List.append_assoc, List.singleton_append]

theorem setBit_ends {bm : Bitmap} {i : Nat} (hi : i < bm.nbits) {Q : Bitmap → List DevOp → Prop}
    (hQ : Q (bm.put i true) ops) : (setBit bm i).Ends ops Q E := by
  unfold setBit
  rw [Bitmap.set_of_lt hi]
  exact hQ

/-- The loop that sets the bits of a list. -/
theorem foldlM_setBit_ends (is : List Nat) {bm : Bitmap} (hi : ∀ i ∈ is, i < bm.nbits)
    {Q : Bitmap → List DevOp → Prop}
    (hQ : ∀ bm' : Bitmap, bm'.nbits = bm.nbits →
      (∀ j, bm'.bit j = (decide (j ∈ is) || bm.bit j)) → Q bm' ops) :
    (is.foldlM setBit bm).Ends ops Q E := by
  induction is generalizing bm with
  | nil => exact hQ bm rfl fun j => by simp
  | cons i is ih =>
    rw [List.foldlM_cons, Prog.ends_bind]
    have hlt := hi i (List.mem_cons_self ..)
    refine setBit_ends hlt (ih (fun j hj => ?_) fun bm' hn hb => ?_)
    · rw [Bitmap.put_nbits]
      exact hi j (List.mem_cons_of_mem _ hj)
    · rw [Bitmap.put_nbits] at hn
      refine hQ bm' hn fun j => ?_
      rw [hb, Bitmap.put_bit hlt]
      by_cases hj : j = i
      · simp [hj]
      · simp [hj]

end Ends

/-- The bitmaps a new file system starts with: inode 0 and the root, and all blocks up to the
    root's. -/
structure Fresh (sb : Superblock) (inodes blocks : Bitmap) : Prop where
  inodes_nbits : inodes.nbits = sb.inodeCount.toNat
  inodes_bit : ∀ i, inodes.bit i = decide (i ≤ rootInode)
  blocks_nbits : blocks.nbits = sb.totalBlocks.toNat
  blocks_bit : ∀ b, blocks.bit b = decide (b ≤ sb.dataStart.toNat)

/-- The blocks written between the first sync and the second. -/
def body (sb : Superblock) (inodes blocks : Bitmap) (mtime : UInt64) : List (Nat × Block) :=
  ((List.range (sb.dataStart.toNat - sb.inodeTableStart.toNat)).map fun k =>
      (sb.inodeTableStart.toNat + k, Bytes.zero 4096))
    ++ ((List.range (blocksFor sb.inodeCount.toNat)).map fun k =>
      (sb.inodeBitmapStart.toNat + k, inodes.stored k))
    ++ ((List.range (blocksFor sb.totalBlocks.toNat)).map fun k =>
      (sb.dataBitmapStart.toNat + k, blocks.stored k))
    ++ [(sb.dataStart.toNat, rootDir)]
    ++ [(inodeBlock sb rootInode,
      setInodeIn (Bytes.zero 4096) (rootInode % 32) (root sb.dataStart mtime))]

/-- Writes, as operations. -/
def writes (ws : List (Nat × Block)) : List DevOp := ws.map fun w => .write w.1 w.2

/-- The operations of mkfs. -/
def script (sb : Superblock) (inodes blocks : Bitmap) (mtime : UInt64) : List DevOp :=
  [.write 0 (Bytes.zero 4096), .sync] ++ writes (body sb inodes blocks mtime)
    ++ [.sync, .write 0 (superblockBlock sb), .sync]

/-- A size that cannot be planned stops mkfs before it has asked for anything. -/
theorem mkfs_refuses {total count : UInt32} {mtime : UInt64} {e : String}
    (h : planLayout total count = .error e) :
    (mkfs total count mtime).run [] = some (.error e, []) := by
  unfold mkfs
  rw [h]
  rfl

/-- Any other makes it ask for the whole of `script`. -/
theorem mkfs_script {total count : UInt32} (mtime : UInt64) {sb : Superblock}
    (h : planLayout total count = .ok sb) :
    ∃ inodes blocks, Fresh sb inodes blocks ∧
      (mkfs total count mtime).run [] = some (.ok sb, script sb inodes blocks mtime) := by
  have g := (regions_of_planLayout h).order
  suffices hs : (mkfs total count mtime).Ends []
      (fun sb' ops => sb' = sb ∧ ∃ inodes blocks, Fresh sb inodes blocks ∧
        ops = script sb inodes blocks mtime) fun _ _ => False by
    obtain ⟨⟨out, ops⟩, hrun, hout⟩ := Prog.ends_iff_run.mp hs
    cases out with
    | error e => exact hout.elim
    | ok sb' =>
      obtain ⟨rfl, inodes, blocks, hf, rfl⟩ := hout
      exact ⟨inodes, blocks, hf, hrun⟩
  unfold mkfs
  rw [h]
  simp only [Prog.ends_bind]
  refine devWrite_ends (devSync_ends (forM_write_ends _ ?_))
  refine setBit_ends (by rw [Bitmap.ofSize_nbits]; omega) ?_
  refine setBit_ends (by rw [Bitmap.put_nbits, Bitmap.ofSize_nbits]; unfold rootInode; omega) ?_
  refine forM_write_ends _ ?_
  refine foldlM_setBit_ends _ (fun i hi => ?_) fun blocks hn hb => ?_
  · rw [Bitmap.ofSize_nbits]
    have := List.mem_range.mp hi
    omega
  rw [Bitmap.ofSize_nbits] at hn
  refine setBit_ends (by rw [hn]; omega) (forM_write_ends _ ?_)
  refine devWrite_ends (devWrite_ends (devSync_ends (devWrite_ends (devSync_ends ?_))))
  refine ⟨rfl, ((Bitmap.ofSize sb.inodeCount.toNat).put 0 true).put rootInode true,
    blocks.put sb.dataStart.toNat true, ⟨?_, fun i => ?_, ?_, fun b => ?_⟩, ?_⟩
  · rw [Bitmap.put_nbits, Bitmap.put_nbits, Bitmap.ofSize_nbits]
  · rw [Bitmap.put_bit (by rw [Bitmap.put_nbits, Bitmap.ofSize_nbits]; unfold rootInode; omega),
      Bitmap.put_bit (by rw [Bitmap.ofSize_nbits]; omega), Bitmap.ofSize_bit]
    unfold rootInode
    grind
  · rw [Bitmap.put_nbits, hn]
  · rw [Bitmap.put_bit (by rw [hn]; omega), hb, Bitmap.ofSize_bit]
    simp only [List.mem_range]
    grind
  · simp [script, body, writes, Function.comp_def, hn]

/-! ## What is on the disk at the end -/

/-- The blocks of a new file system; data blocks keep their old bytes. -/
def formatted (sb : Superblock) (inodes blocks : Bitmap) (mtime : UInt64) (d : Nat → Block) :
    Nat → Block :=
  Function.update (applyWrites d (body sb inodes blocks mtime)) 0 (superblockBlock sb)

/-- The image it is. -/
def made (sb : Superblock) (mtime : UInt64) (d : Nat → Block) : Image where
  super := superblockBlock sb
  ibit i := decide (i ≤ rootInode)
  dbit b := decide (b ≤ sb.dataStart.toNat)
  inode := Function.update (fun _ => .zero) rootInode (root sb.dataStart mtime)
  blk b := if b = sb.dataStart.toNat then rootDir
    else if sb.dataStart.toNat ≤ b then d b else Bytes.zero 4096

section Blocks

variable {sb : Superblock} {inodes blocks : Bitmap} {mtime : UInt64}

theorem inodeIn_zero (j : Nat) : inodeIn (Bytes.zero 4096) j = .zero := by
  unfold inodeIn
  rw [Bytes.slice_zero]
  rfl

/-- The body of mkfs, block by block. -/
theorem body_at (g : Regions sb) (d : Nat → Block) (b : Nat) :
    applyWrites d (body sb inodes blocks mtime) b
      = if b = sb.inodeTableStart.toNat then
          setInodeIn (Bytes.zero 4096) (rootInode % 32) (root sb.dataStart mtime)
        else if b = sb.dataStart.toNat then rootDir
        else if sb.dataBitmapStart.toNat ≤ b ∧ b < sb.inodeTableStart.toNat then
          blocks.stored (b - sb.dataBitmapStart.toNat)
        else if 1 ≤ b ∧ b < sb.dataBitmapStart.toNat then inodes.stored (b - 1)
        else if sb.inodeTableStart.toNat ≤ b ∧ b < sb.dataStart.toNat then Bytes.zero 4096
        else d b := by
  have ho := g.order
  have h1 := g.dataBitmap
  have h2 := g.inodeTable
  unfold body inodeBlock
  rw [show rootInode / 32 = 0 from rfl, Nat.add_zero, applyWrites_concat, applyWrites_concat,
    applyWrites_append, applyWrites_append]
  by_cases hb1 : b = sb.inodeTableStart.toNat
  · rw [hb1, Function.update_self, if_pos rfl]
  rw [Function.update_of_ne hb1, if_neg hb1]
  by_cases hb2 : b = sb.dataStart.toNat
  · rw [hb2, Function.update_self, if_pos rfl]
  rw [Function.update_of_ne hb2, if_neg hb2, applyWrites_region, applyWrites_region,
    applyWrites_region, g.inodeBitmap]
  refine if_congr (by omega) rfl (if_congr (by omega) rfl (if_congr (by omega) rfl rfl))

theorem image_formatted (g : Regions sb) (hf : Fresh sb inodes blocks) (d : Nat → Block) :
    Image.of sb (formatted sb inodes blocks mtime d) = made sb mtime d := by
  have ho := g.order
  have hat : ∀ b, b ≠ 0 → formatted sb inodes blocks mtime d b
      = applyWrites d (body sb inodes blocks mtime) b := fun b hb => Function.update_of_ne hb _ _
  ext1
  · show formatted sb inodes blocks mtime d 0 = superblockBlock sb
    unfold formatted
    rw [Function.update_self]
  · funext i
    simp only [Image.of, made]
    by_cases hi : i < 32768 * (sb.dataBitmapStart.toNat - 1)
    · rw [decide_eq_true hi, Bool.true_and, hat _ (by omega), body_at g, if_neg (by omega),
        if_neg (by omega), if_neg (by omega), if_pos (by omega),
        Bitmap.bitAt_stored _ _ (Nat.mod_lt _ (by omega)), hf.inodes_bit]
      exact decide_eq_decide.mpr (by omega)
    · rw [decide_eq_false hi, Bool.false_and]
      exact (decide_eq_false (by unfold rootInode; omega)).symm
  · funext B
    simp only [Image.of, made]
    by_cases hB : B < 32768 * (sb.inodeTableStart.toNat - sb.dataBitmapStart.toNat)
    · rw [decide_eq_true hB, Bool.true_and, hat _ (by omega), body_at g, if_neg (by omega),
        if_neg (by omega), if_pos (by omega), Bitmap.bitAt_stored _ _ (Nat.mod_lt _ (by omega)),
        hf.blocks_bit]
      exact decide_eq_decide.mpr (by omega)
    · rw [decide_eq_false hB, Bool.false_and]
      exact (decide_eq_false (by omega)).symm
  · funext x
    simp only [Image.of, made]
    by_cases hx : x < sb.inodeCount.toNat
    · rw [if_pos hx]
      unfold inodeBlock
      by_cases hx0 : x / 32 = 0
      · rw [hx0, Nat.add_zero, hat _ (by omega), body_at g, if_pos rfl]
        by_cases hx1 : x = rootInode
        · rw [hx1, Function.update_self, inodeIn_setInodeIn_self _ _ (by decide)]
        · rw [Function.update_of_ne hx1, inodeIn_setInodeIn_ne _ _
            (by unfold rootInode at hx1 ⊢; omega), inodeIn_zero]
      · rw [hat _ (by omega), body_at g, if_neg (by omega), if_neg (by omega), if_neg (by omega),
          if_neg (by omega), if_pos (by omega), inodeIn_zero,
          Function.update_of_ne (by unfold rootInode; omega)]
    · rw [if_neg hx, Function.update_of_ne (by unfold rootInode; omega)]
  · funext b
    simp only [Image.of, made]
    by_cases hb : sb.dataStart.toNat ≤ b
    · rw [if_pos hb, if_pos hb, hat _ (by omega), body_at g, if_neg (by omega)]
      refine if_congr Iff.rfl rfl ?_
      rw [if_neg (by omega), if_neg (by omega), if_neg (by omega)]
    · rw [if_neg hb, if_neg hb, if_neg (by omega)]

end Blocks

section Made

variable {sb : Superblock} (g : Regions sb) (mtime : UInt64) (d : Nat → Block)

theorem root_eq : root sb.dataStart mtime = newDirInode rootInode sb.dataStart.toNat mtime := by
  unfold root newDirInode Inode.setDirect
  rw [UInt32.ofNat_toNat]
  rfl

theorem made_inode (x : Nat) : (made sb mtime d).inode x
    = if x = rootInode then newDirInode rootInode sb.dataStart.toNat mtime else .zero := by
  rw [← root_eq]
  show Function.update (fun _ => Inode.zero) rootInode (root sb.dataStart mtime) x = _
  rw [Function.update_apply]

theorem made_ptr (x : Nat) (p : Pos) : ptr (made sb mtime d).blk ((made sb mtime d).inode x) p
    = if x = rootInode ∧ p = .data 0 then sb.dataStart.toNat else 0 := by
  rw [made_inode]
  by_cases hx : x = rootInode
  · rw [if_pos hx, newDirInode_ptr sb.dataStart.toNat_lt]
    by_cases hp : p = .data 0
    · rw [if_pos ⟨hx, hp⟩, hp, Function.update_self]
    · rw [if_neg fun h => hp h.2, Function.update_of_ne hp, ptr_zero]
  · rw [if_neg hx, if_neg fun h => hx h.1, ptr_zero]

theorem made_kind (x : Nat) : kindOf ((made sb mtime d).inode x)
    = if x = rootInode then some .dir else none := by
  rw [made_inode]
  split
  · exact newDirInode_kind
  · exact kindOf_zero

include g

theorem made_own : Own sb (made sb mtime d) (made sb mtime d).inode ∅ := by
  have ho := g.order
  constructor
  · intro x p h0
    rw [made_ptr] at h0 ⊢
    by_cases h : x = rootInode ∧ p = .data 0
    · rw [if_pos h]
      omega
    · exact absurd (if_neg h) h0
  · intro x p y q h0 heq
    rw [made_ptr] at h0
    rw [made_ptr, made_ptr] at heq
    by_cases h : x = rootInode ∧ p = .data 0
    · by_cases h' : y = rootInode ∧ q = .data 0
      · rw [h.1, h.2, h'.1, h'.2]
        exact ⟨rfl, rfl⟩
      · rw [if_pos h, if_neg h'] at heq
        omega
    · exact absurd (if_neg h) h0
  · intro x
    have hset : {p | ptr (made sb mtime d).blk ((made sb mtime d).inode x) p ≠ 0}
        = if x = rootInode then {Pos.data 0} else ∅ := by
      ext p
      rw [Set.mem_ofPred_eq, made_ptr]
      by_cases hx : x = rootInode
      · by_cases hp : p = .data 0
        · simp only [hx, hp, and_self, if_true, Set.mem_singleton_iff, iff_true]
          omega
        · simp [hx, hp]
      · simp [hx]
    rw [hset, made_inode]
    split
    · rw [Set.ncard_singleton]
      rfl
    · rw [Set.ncard_empty]
      rfl
  · exact fun b hb => hb.elim
  · exact fun b hb => hb.elim
  · intro B hB
    show decide (B ≤ sb.dataStart.toNat) = true ↔ _
    rw [decide_eq_true_iff]
    constructor
    · intro h
      rcases Nat.lt_or_eq_of_le h with h | h
      · exact .inl h
      · exact .inr (.inl ⟨rootInode, .data 0, by rw [made_ptr, if_pos ⟨rfl, rfl⟩, h]⟩)
    · rintro (h | ⟨x, p, h⟩ | h)
      · omega
      · rw [made_ptr] at h
        split at h <;> omega
      · exact h.elim

/-- The root holds "." and "..", and nothing else holds anything. -/
theorem made_entry (x k : Nat) : dirEntry (made sb mtime d).blk ((made sb mtime d).inode x) k
    = if x = rootInode then
        if k = 0 then makeEntry dot rootInode ftDir
        else if k = 1 then makeEntry dotdot rootInode ftDir else .zero
      else .zero := by
  have ho := g.order
  rw [made_inode]
  by_cases hx : x = rootInode
  · rw [if_pos hx, if_pos hx]
    exact newDirInode_entry sb.dataStart.toNat_lt (by omega) (if_pos rfl) k
  · rw [if_neg hx, if_neg hx]
    exact dirEntry_notDir (by rw [kindOf_zero]; exact nofun) k

theorem made_names (x k y : Nat) : (treeOf (made sb mtime d).blk
    (made sb mtime d).inode).Names x k y ↔
    x = rootInode ∧ k < 2 ∧ y = rootInode := by
  show (dirEntry (made sb mtime d).blk ((made sb mtime d).inode x) k).inodeId.toNat = y ∧ y ≠ 0 ↔ _
  rw [made_entry g]
  by_cases hx : x = rootInode
  · rw [if_pos hx]
    by_cases hk : k = 0
    · rw [if_pos hk, makeEntry_id (by decide)]
      unfold rootInode at hx ⊢
      omega
    · rw [if_neg hk]
      by_cases hk1 : k = 1
      · rw [if_pos hk1, makeEntry_id (by decide)]
        unfold rootInode at hx ⊢
        omega
      · rw [if_neg hk1]
        show 0 = y ∧ y ≠ 0 ↔ _
        omega
  · rw [if_neg hx]
    show 0 = y ∧ y ≠ 0 ↔ _
    omega

theorem made_rules : (treeOf (made sb mtime d).blk (made sb mtime d).inode).Rules := by
  have hn := made_names g mtime d
  have hkind : ∀ x, (treeOf (made sb mtime d).blk (made sb mtime d).inode).kind x
      = if x = rootInode then some .dir else none := made_kind mtime d
  have hent : ∀ x k, (treeOf (made sb mtime d).blk (made sb mtime d).inode).entry x k = _ :=
    made_entry g mtime d
  have hroot : (treeOf (made sb mtime d).blk (made sb mtime d).inode).kind rootInode
      = some .dir := by
    rw [hkind, if_pos rfl]
  have hdir : ∀ x, (treeOf (made sb mtime d).blk (made sb mtime d).inode).kind x ≠ none →
      x = rootInode := by
    intro x hx
    by_contra h
    exact hx (by rw [hkind, if_neg h])
  have hused : ∀ x k, (treeOf (made sb mtime d).blk (made sb mtime d).inode).entry x k ≠ .zero →
      x = rootInode ∧ k < 2 := by
    intro x k h
    rw [hent] at h
    by_cases hx : x = rootInode
    · rw [if_pos hx] at h
      refine ⟨hx, ?_⟩
      by_contra hk
      rw [if_neg (by omega), if_neg (by omega)] at h
      exact h rfl
    · rw [if_neg hx] at h
      exact absurd rfl h
  have hlinks : (treeOf (made sb mtime d).blk (made sb mtime d).inode).links rootInode = 2 := by
    show ((made sb mtime d).inode rootInode).linkCount.toNat = 2
    rw [made_inode, if_pos rfl]
    rfl
  generalize treeOf (made sb mtime d).blk (made sb mtime d).inode = t at *
  have e0 : t.entry rootInode 0 = makeEntry dot rootInode ftDir := hent rootInode 0
  have e1 : t.entry rootInode 1 = makeEntry dotdot rootInode ftDir := hent rootInode 1
  have hid : ∀ x k, (t.entry x k).inodeId ≠ 0 → x = rootInode ∧ (k = 0 ∨ k = 1) := by
    intro x k h
    obtain ⟨h1, h2⟩ := hused x k fun h0 => h (by rw [h0]; rfl)
    exact ⟨h1, by omega⟩
  constructor
  · rw [hkind]
    exact if_neg (by decide)
  · exact hroot
  · intro x k h
    rw [(hused x k h).1, hroot]
  · intro x k h
    by_contra h0
    obtain ⟨rfl, hk⟩ := hused x k h0
    have := (hn rootInode k rootInode).mpr ⟨rfl, hk, rfl⟩
    exact this.id_ne h
  · intro x hx
    rw [hdir x (by rw [hx]; exact nofun)]
    exact ⟨by rw [e0, makeEntry_named (by decide)], (hn _ _ _).mpr ⟨rfl, by omega, rfl⟩⟩
  · intro x hx
    rw [hdir x (by rw [hx]; exact nofun)]
    refine ⟨by rw [e1, makeEntry_named (by decide)], rootInode, (hn _ _ _).mpr ⟨rfl, by omega, rfl⟩,
      fun _ => rfl, fun h => absurd rfl h⟩
  · intro x k h
    obtain ⟨rfl, rfl | rfl⟩ := hid x k h
    · rw [e0]
      exact makeEntry_legal (by decide) (by decide) dot_chars
    · rw [e1]
      exact makeEntry_legal (by decide) (by decide) dotdot_chars
  · intro x k y h
    obtain ⟨rfl, hk, rfl⟩ := (hn x k y).mp h
    refine ⟨.dir, hroot, ?_⟩
    rcases (show k = 0 ∨ k = 1 by omega) with rfl | rfl
    · rw [e0]
      rfl
    · rw [e1]
      rfl
  · intro x k k' h h' heq
    obtain ⟨rfl, rfl | rfl⟩ := hid x k h <;> obtain ⟨-, rfl | rfl⟩ := hid _ k' h'
    · rfl
    · rw [e0, e1, makeEntry_named (by decide), makeEntry_named (by decide)] at heq
      exact absurd heq (by decide)
    · rw [e0, e1, makeEntry_named (by decide), makeEntry_named (by decide)] at heq
      exact absurd heq (by decide)
    · rfl
  · intro x hx
    rw [hdir x hx]
    have hset : {p : Nat × Nat | t.Names p.1 p.2 rootInode} = {(rootInode, 0), (rootInode, 1)} := by
      ext ⟨a, b⟩
      simp only [Set.mem_ofPred_eq, hn, Set.mem_insert_iff, Set.mem_singleton_iff, Prod.mk.injEq]
      grind
    rw [hset, Set.encard_pair (by simp), hlinks]
    rfl
  · intro x k x' k' y h2 _ h
    exact absurd (hn x k y |>.mp h).2.1 (by omega)
  · rintro x ⟨k, h2, h⟩
    exact absurd (hn x k _ |>.mp h).2.1 (by omega)
  · intro x hx
    rw [hdir x hx]

/-- A new file system satisfies the rules of layout.h. -/
theorem made_consistent : Consistent sb (made sb mtime d) where
  reserved := ⟨rfl, (made_inode mtime d 0).trans (if_neg (by decide))⟩
  unused x _ hx := by
    have hx : decide (x ≤ rootInode) = false := hx
    rw [made_inode, if_neg (by simp only [decide_eq_false_iff_not] at hx; omega)]
  used x h1 _ hx := by
    have hx : decide (x ≤ rootInode) = true := hx
    have hroot : x = rootInode := by
      have := of_decide_eq_true hx
      unfold rootInode at this ⊢
      omega
    rw [made_inode, if_pos hroot, hroot]
    exact ⟨rfl, by rw [newDirInode_kind]; exact nofun, by show (2 : UInt16) ≠ 0; decide⟩
  past x hx := by
    have ho := g.order
    rw [made_inode, if_neg (by unfold rootInode; omega)]
  own := made_own g mtime d
  shaped x := by
    have ho := g.order
    rw [made_inode]
    split
    · exact newDirInode_shaped sb.dataStart.toNat_lt (by omega)
    · exact shaped_zero _
  tree := made_rules g mtime d

end Made

/-! ## What mkfs leaves, whole or cut off -/

/-- Planning again from the superblock planned gives the same one. -/
theorem planLayout_again {total count : UInt32} {sb : Superblock}
    (h : planLayout total count = .ok sb) : planLayout sb.totalBlocks sb.inodeCount = .ok sb := by
  obtain ⟨inodes, hmod, hle, hmax, hroom, rfl⟩ := planLayout_eq_ok h
  have hi : (UInt32.ofNat inodes).toNat = inodes :=
    UInt32.toNat_ofNat_of_lt' (by simp only [UInt32.size]; omega)
  have hne : UInt32.ofNat inodes ≠ 0 := by
    intro h0
    have := congrArg UInt32.toNat h0
    rw [hi] at this
    have : inodes = 0 := this
    omega
  have hround : (inodes + 32 - 1) / 32 * 32 = inodes := by omega
  unfold planLayout
  simp only [if_pos hne, hi, hround]
  rw [if_neg (show ¬ inodes < 32 by omega), if_neg (by omega), if_neg (by omega)]

theorem planLayout_valid {total count : UInt32} {sb : Superblock}
    (h : planLayout total count = .ok sb) : validateSuperblock sb total = .ok () := by
  have hagain := planLayout_again h
  obtain ⟨inodes, -, -, -, -, rfl⟩ := planLayout_eq_ok h
  exact validateSuperblock_eq_ok.mpr ⟨rfl, rfl, rfl, rfl, _, hagain, rfl, rfl, rfl, rfl, rfl⟩

/-- A block 0 that starts with zeros is no superblock. -/
theorem readSuperblock_zero {b : Block} (h : b.slice 0 48 = Bytes.zero 48) (total : UInt32) :
    ∃ e, readSuperblock b total = .error e := by
  cases hr : readSuperblock b total with
  | error e => exact ⟨e, rfl⟩
  | ok sb =>
    have hv := (validateSuperblock_eq_ok.mp (readSuperblock_eq_ok.mp hr).2).1
    unfold superblockIn at hv
    rw [h] at hv
    exact absurd hv (by decide)

/-- Sector 0 of a block decides what superblock it holds. -/
theorem slice_sector {b b' : Block} (h : ∀ i : Fin 4096, i.val / 512 = 0 → b i = b' i) :
    b.slice 0 48 = b'.slice 0 48 := by
  refine Bytes.ext_get fun i hi => ?_
  rw [Bytes.get_slice _ _ hi, Bytes.get_slice _ _ hi, Bytes.get_of_lt _ (by omega),
    Bytes.get_of_lt _ (by omega)]
  exact h ⟨0 + i, by omega⟩ (by show (0 + i) / 512 = 0; omega)

/-- What is on the disk when mkfs was cut off: nothing happened, there is no superblock, or
    everything is there. -/
inductive Outcome (total : UInt32) (old new d : Nat → Block) : Prop where
  | untouched (others : ∀ b, b ≠ 0 → d b = old b) 
      (superblock : (d 0).slice 0 48 = (old 0).slice 0 48)
  | rejected (error : ∃ e, readSuperblock (d 0) total = .error e)
  | complete (all : d = new)

section Crash

variable {f : BlockFile 4096} {old new d : Nat → Block} {total : UInt32}

/-- Before the first sync only block 0 can have changed. -/
theorem crash_wiping (h1 : f.synced = old) (h2 : ∀ w ∈ f.pending, w = (0, Bytes.zero 4096))
    (hc : f.CrashTo d) : Outcome total old new d := by
  rcases hc.sector 0 0 with h | ⟨v, hv, h⟩
  · refine .untouched (fun b hb => ?_) (slice_sector fun i hi => by rw [h i hi, h1])
    rw [hc.eq_synced fun hm => ?_, h1]
    obtain ⟨w, hw, rfl⟩ := List.mem_map.mp hm
    exact hb (by rw [h2 w hw])
  · refine .rejected (readSuperblock_zero ?_ total)
    rw [slice_sector h, (Prod.mk.inj (h2 _ hv)).2, Bytes.slice_zero]

/-- While the rest is written block 0 is zero. -/
theorem crash_writing (h1 : f.synced 0 = Bytes.zero 4096) (h2 : ∀ w ∈ f.pending, w.1 ≠ 0)
    (hc : f.CrashTo d) : Outcome total old new d := by
  refine .rejected (readSuperblock_zero ?_ total)
  rw [hc.eq_synced fun hm => ?_, h1, Bytes.slice_zero]
  obtain ⟨w, hw, h0⟩ := List.mem_map.mp hm
  exact h2 w hw h0

/-- Once the rest is there, the first sector of block 0 decides. -/
theorem crash_sealing {sb : Superblock} (h1 : f.synced 0 = Bytes.zero 4096)
    (h2 : ∀ w ∈ f.pending, w = (0, superblockBlock sb))
    (hnew : new = Function.update f.synced 0 (superblockBlock sb)) (hc : f.CrashTo d) :
    Outcome total old new d := by
  rcases hc.sector 0 0 with h | ⟨v, hv, h⟩
  · refine .rejected (readSuperblock_zero ?_ total)
    rw [slice_sector h, h1, Bytes.slice_zero]
  · have hv := (Prod.mk.inj (h2 _ hv)).2
    refine .complete ?_
    rw [hnew]
    funext b
    by_cases hb : b = 0
    · rw [hb, Function.update_self]
      funext i
      by_cases hi : i.val / 512 = 0
      · rw [h i hi, hv]
      · -- the other sectors are zero in both
        have hz : superblockBlock sb i = 0 := by
          unfold superblockBlock Bytes.patch
          rw [dif_neg (by omega)]
          rfl
        rcases hc.sector 0 (i.val / 512) with h' | ⟨v', hv', h'⟩
        · rw [h' i rfl, h1, hz]
          rfl
        · rw [h' i rfl, (Prod.mk.inj (h2 _ hv')).2]
    · rw [Function.update_of_ne hb]
      refine hc.eq_synced fun hm => ?_
      obtain ⟨w, hw, rfl⟩ := List.mem_map.mp hm
      exact hb (by rw [h2 w hw])

end Crash

/-- A list that starts an append starts its first part, or takes it whole. -/
theorem prefix_append_cases {α : Type} {l a b : List α} (h : l <+: a ++ b) :
    l <+: a ∨ ∃ t, l = a ++ t ∧ t <+: b := by
  induction a generalizing l with
  | nil => exact .inr ⟨l, rfl, h⟩
  | cons x a ih =>
    rw [List.cons_append] at h
    rcases List.prefix_cons_iff.mp h with rfl | ⟨t, rfl, ht⟩
    · exact .inl (List.nil_prefix)
    · rcases ih ht with h1 | ⟨u, rfl, hu⟩
      · exact .inl (List.prefix_cons_iff.mpr (.inr ⟨t, rfl, h1⟩))
      · exact .inr ⟨u, rfl, hu⟩

theorem perform_append (f : BlockFile 4096) (ops ops' : List DevOp) :
    perform f (ops ++ ops') = perform (perform f ops) ops' := List.foldl_append

theorem perform_writes (f : BlockFile 4096) (ws : List (Nat × Block)) :
    perform f (writes ws) = f.writeAll ws := by
  induction ws generalizing f with
  | nil => simp [perform, writes, BlockFile.writeAll]
  | cons w ws ih =>
    show perform (f.write w.1 w.2) (writes ws) = _
    rw [ih]
    simp [BlockFile.writeAll, BlockFile.write]

section Script

variable {sb : Superblock} (g : Regions sb) {inodes blocks : Bitmap} {mtime : UInt64}
include g

theorem body_range : ∀ w ∈ body sb inodes blocks mtime, 0 < w.1 ∧ w.1 < sb.totalBlocks.toNat := by
  have ho := g.order
  have h1 := g.dataBitmap
  have h2 := g.inodeTable
  have h3 := g.inodeBitmap
  intro w hw
  simp only [body, inodeBlock, show rootInode / 32 = 0 from rfl, List.mem_append, List.mem_map,
    List.mem_range, List.mem_singleton] at hw
  rcases hw with (((⟨k, hk, rfl⟩ | ⟨k, hk, rfl⟩) | ⟨k, hk, rfl⟩) | rfl) | rfl
  · exact ⟨by show 0 < _ + k; omega, by show _ + k < _; omega⟩
  · exact ⟨by show 0 < _ + k; omega, by show _ + k < _; omega⟩
  · exact ⟨by show 0 < _ + k; omega, by show _ + k < _; omega⟩
  · exact ⟨by show 0 < sb.dataStart.toNat; omega, by show sb.dataStart.toNat < _; omega⟩
  · exact ⟨by show 0 < sb.inodeTableStart.toNat + 0; omega,
      by show sb.inodeTableStart.toNat + 0 < _; omega⟩

/-- No operation reaches past the end of the device. -/
theorem script_range {b : Nat} {v : Block}
    (h : .write b v ∈ script sb inodes blocks mtime) : b < sb.totalBlocks.toNat := by
  have ho := g.order
  simp only [script, writes, List.mem_append, List.mem_cons, List.mem_map, DevOp.write.injEq,
    reduceCtorEq, List.not_mem_nil, or_false, false_or] at h
  rcases h with (⟨rfl, -⟩ | ⟨w, hw, rfl, rfl⟩) | ⟨rfl, -⟩
  · omega
  · exact (body_range g w hw).2
  · omega

variable (old : Nat → Block)

/-- The file after the first sync and these of the writes that follow. -/
theorem crash_body {ws : List (Nat × Block)} (hws : ∀ w ∈ ws, w ∈ body sb inodes blocks mtime) :
    let f := (((BlockFile.ofContents old).write 0 (Bytes.zero 4096)).sync).writeAll ws
    f.synced = Function.update old 0 (Bytes.zero 4096) ∧ (∀ w ∈ f.pending, w.1 ≠ 0) ∧
      f.contents 0 = Bytes.zero 4096 := by
  have hne : ∀ w ∈ ws, w.1 ≠ 0 := fun w hw => by
    have := (body_range g w (hws w hw)).1
    omega
  refine ⟨by simp, fun w hw => hne w (by simpa using hw), ?_⟩
  rw [BlockFile.contents_writeAll, applyWrites_of_not_mem]
  · simp
  · intro hm
    obtain ⟨w, hw, h0⟩ := List.mem_map.mp hm
    exact hne w hw h0

omit g in
theorem contents_script : (perform (.ofContents old) (script sb inodes blocks mtime)).contents
    = formatted sb inodes blocks mtime old := by
  unfold script
  rw [perform_append, perform_append, perform_writes]
  show Function.update (applyWrites (Function.update old 0 _) _) 0 _ = _
  unfold formatted
  funext b
  by_cases hb : b = 0
  · rw [hb, Function.update_self, Function.update_self]
  · rw [Function.update_of_ne hb, Function.update_of_ne hb]
    exact applyWrites_congr _ _ _ (Function.update_of_ne hb _ _)

/-- Wherever the operations are cut off. -/
theorem script_crash {total : UInt32} {done : List DevOp} {d : Nat → Block}
    (hp : done <+: script sb inodes blocks mtime)
    (hc : (perform (.ofContents old) done).CrashTo d) :
    Outcome total old (formatted sb inodes blocks mtime old) d := by
  unfold script at hp
  rw [List.append_assoc, List.cons_append, List.cons_append, List.nil_append] at hp
  -- cut off before the first sync
  rcases List.prefix_cons_iff.mp hp with rfl | ⟨done, rfl, hp1⟩
  · exact crash_wiping rfl (by simp [perform, BlockFile.ofContents]) hc
  rcases List.prefix_cons_iff.mp hp1 with rfl | ⟨done, rfl, hp2⟩
  · exact crash_wiping rfl
      (by simp [perform, DevOp.apply, BlockFile.write, BlockFile.ofContents]) hc
  rw [← List.singleton_append, ← List.singleton_append (l := done), ← List.append_assoc,
    perform_append] at hc
  rw [show perform (.ofContents old) ([.write 0 (Bytes.zero 4096)] ++ [.sync])
    = ((BlockFile.ofContents old).write 0 (Bytes.zero 4096)).sync from rfl] at hc
  rcases prefix_append_cases hp2 with hp3 | ⟨done, rfl, hp3⟩
  · -- among the writes of the body
    obtain ⟨ws, rfl, hws⟩ : ∃ ws, done = writes ws ∧ ∀ w ∈ ws, w ∈ body sb inodes blocks mtime := by
      refine ⟨(body sb inodes blocks mtime).take done.length, ?_, fun w hw =>
        List.mem_of_mem_take hw⟩
      rw [writes, List.map_take]
      exact List.prefix_iff_eq_take.mp hp3
    rw [perform_writes] at hc
    obtain ⟨h1, h2, -⟩ := crash_body g old hws
    exact crash_writing (by rw [h1, Function.update_self]) h2 hc
  rw [perform_append, perform_writes] at hc
  obtain ⟨h1, h2, h3⟩ := crash_body g old fun w (hw : w ∈ body sb inodes blocks mtime) => hw
  have hnew : (perform (.ofContents old) (script sb inodes blocks mtime)).contents
      = formatted sb inodes blocks mtime old := contents_script old
  unfold script at hnew
  rw [perform_append, perform_append, perform_writes] at hnew
  rw [show perform (.ofContents old) [.write 0 (Bytes.zero 4096), .sync]
    = ((BlockFile.ofContents old).write 0 (Bytes.zero 4096)).sync from rfl] at hnew
  generalize (((BlockFile.ofContents old).write 0 (Bytes.zero 4096)).sync).writeAll
    (body sb inodes blocks mtime) = f at hc h1 h2 h3 hnew
  -- around the second sync and the third
  have hnew : formatted sb inodes blocks mtime old
      = Function.update f.sync.synced 0 (superblockBlock sb) := hnew.symm
  rcases List.prefix_cons_iff.mp hp3 with rfl | ⟨done, rfl, hp4⟩
  · exact crash_writing (by rw [h1, Function.update_self]) h2 hc
  rcases List.prefix_cons_iff.mp hp4 with rfl | ⟨done, rfl, hp5⟩
  · exact crash_sealing (f := f.sync) h3 (by simp) hnew hc
  rcases List.prefix_cons_iff.mp hp5 with rfl | ⟨done, rfl, hp6⟩
  · exact crash_sealing (f := f.sync.write 0 (superblockBlock sb)) h3 (by simp) hnew hc
  · rw [List.prefix_nil.mp hp6] at hc
    refine .complete (funext fun b => ?_)
    rw [hc.eq_synced (by simp [perform, DevOp.apply]), hnew]
    rfl

end Script

/-- An image that is a file system with an empty root and nothing else. -/
structure Formatted (sb : Superblock) (total : UInt32) (d : Nat → Block) : Prop where
  reads : readSuperblock (d 0) total = .ok sb
  consistent : Consistent sb (Image.of sb d)
  onlyRoot : ∀ x, kindOf ((Image.of sb d).inode x) ≠ none → x = rootInode
  empty : ∀ k, 2 ≤ k → dirEntry (Image.of sb d).blk ((Image.of sb d).inode rootInode) k = .zero

theorem formatted_spec {total count : UInt32} {sb : Superblock}
    (h : planLayout total count = .ok sb)
    {inodes blocks : Bitmap} (hf : Fresh sb inodes blocks) (mtime : UInt64) (old : Nat → Block) :
    Formatted sb total (formatted sb inodes blocks mtime old) := by
  have g := regions_of_planLayout h
  constructor
  · rw [readSuperblock_eq_ok]
    unfold formatted
    rw [Function.update_self, superblockIn_superblockBlock]
    exact ⟨rfl, planLayout_valid h⟩
  · rw [image_formatted g hf]
    exact made_consistent g mtime old
  · intro x hx
    rw [image_formatted g hf, made_kind] at hx
    by_contra hne
    exact hx (if_neg hne)
  · intro k hk
    rw [image_formatted g hf, made_entry g, if_pos rfl, if_neg (by omega), if_neg (by omega)]

/-- **mkfs is all or nothing.** Sizes that cannot be planned stop it before it has touched
    anything. Otherwise it makes, out of whatever was there, a consistent file system with an empty
    root, and all of it is synced when mkfs returns; cut off after any of its operations, it leaves
    the old superblock and no other block changed, or no superblock, or the whole file system. -/
theorem mkfs_all_or_nothing (total count : UInt32) (mtime : UInt64) (old : Nat → Block) :
    match planLayout total count with
    | .error e => (mkfs total count mtime).run [] = some (.error e, [])
    | .ok sb => ∃ ops, (mkfs total count mtime).run [] = some (.ok sb, ops) ∧
        (∀ b v, .write b v ∈ ops → b < total.toNat) ∧
        (perform (.ofContents old) ops).pending = [] ∧
        Formatted sb total (perform (.ofContents old) ops).contents ∧
        ∀ done d, done <+: ops → (perform (.ofContents old) done).CrashTo d →
          Outcome total old (perform (.ofContents old) ops).contents d := by
  cases h : planLayout total count with
  | error e => exact mkfs_refuses h
  | ok sb =>
    have g := regions_of_planLayout h
    have htotal : sb.totalBlocks = total := by
      obtain ⟨_, -, -, -, -, rfl⟩ := planLayout_eq_ok h
      rfl
    obtain ⟨inodes, blocks, hf, hrun⟩ := mkfs_script mtime h
    refine ⟨script sb inodes blocks mtime, hrun, fun b v hw => ?_, ?_, ?_, fun done d hp hc => ?_⟩
    · rw [← htotal]
      exact script_range g hw
    · unfold script
      rw [perform_append]
      rfl
    · rw [contents_script]
      exact formatted_spec h hf mtime old
    · rw [contents_script]
      exact script_crash g old hp hc

/-- The disk mkfs leaves. -/
def mkfsDisk (total count : UInt32) (mtime : UInt64) (old : Nat → Block) : Nat → Block :=
  match (mkfs total count mtime).run [] with
  | some (_, ops) => (perform (.ofContents old) ops).contents
  | none => old

theorem image_mkfsDisk {total count : UInt32} {sb : Superblock} (mtime : UInt64) (old : Nat → Block)
    (h : planLayout total count = .ok sb) :
    Image.of sb (mkfsDisk total count mtime old) = made sb mtime old := by
  obtain ⟨inodes, blocks, hf, hrun⟩ := mkfs_script mtime h
  unfold mkfsDisk
  rw [hrun]
  dsimp only
  rw [contents_script, image_formatted (regions_of_planLayout h) hf]

theorem mkfsDisk_consistent {total count : UInt32} {sb : Superblock} (mtime : UInt64)
    (old : Nat → Block) (h : planLayout total count = .ok sb) :
    Consistent sb (Image.of sb (mkfsDisk total count mtime old)) := by
  rw [image_mkfsDisk mtime old h]
  exact made_consistent (regions_of_planLayout h) mtime old

/-- A new file system, mounted. -/
def mountedNew (sb : Superblock) (total count : UInt32) (mtime : UInt64) (old : Nat → Block)
    (clock : Nat → UInt64) : FileSystem :=
  .mounted sb (mkfsDisk total count mtime old) clock

/-- It shows what mkfs made, with nothing open. -/
theorem mountedNew_shows {total count : UInt32} {sb : Superblock} (mtime : UInt64)
    (old : Nat → Block) (clock : Nat → UInt64) (h : planLayout total count = .ok sb) :
    Shows sb (mountedNew sb total count mtime old clock) (made sb mtime old)
      ⟨fun _ => none, 0, fun _ => .closed⟩ := by
  have hs := (Allocator.synced_iff (regions_of_planLayout h)).mp
    (Allocator.synced_mounted sb (mkfsDisk total count mtime old) clock)
  exact hs.congr (image_mkfsDisk mtime old h)

/-- A device of 6 blocks: the root has one of them, and there is one more. -/
def tinyLayout : Superblock := { smallLayout with totalBlocks := 6 }

theorem tinyLayout_planned : planLayout 6 0 = .ok tinyLayout := by decide

def tinyDisk : Nat → Block := mkfsDisk 6 0 0 fun _ => Bytes.zero 4096

theorem smallLayout_planned : planLayout 64 0 = .ok smallLayout := by decide

/-- A file system of 64 blocks, new and mounted. -/
def smallFs : FileSystem := mountedNew smallLayout 64 0 0 (fun _ => Bytes.zero 4096) fun _ => 0

/-- Its image. -/
def smallImage : Image := made smallLayout 0 fun _ => Bytes.zero 4096

theorem smallFs_shows :
    Shows smallLayout smallFs smallImage ⟨fun _ => none, 0, fun _ => .closed⟩ :=
  mountedNew_shows 0 _ _ smallLayout_planned

theorem smallImage_consistent : Consistent smallLayout smallImage :=
  made_consistent (regions_of_validate smallLayout_valid) 0 _

/-! ### The allocator of a new file system -/

section Allocator

open Allocator

/-- Between the two times block 5 is handed out. -/
def meanwhile : List (Allocator.Call × Except Exn (Option Nat)) :=
  [(.allocBlock, .ok (some 6)), (.freeBlocks [6, 5], .ok none),
    (.freeBlocks [5], .error (.fsError .eio))]

/-- Block 5 is handed out again once it was given back, and it is not given back twice. -/
theorem allocator_faithful_small : ∃ s', Runs smallLayout smallFs
      ((.allocBlock, .ok (some 5)) :: meanwhile ++ (.allocBlock, .ok (some 5)) ::
        [(.allocInode, .ok (some 2)), (.freeInode 2, .ok none)]) s' ∧
    Synced smallLayout s' ∧
    ∃ L, (Allocator.Call.freeBlocks L, Except.ok none) ∈ meanwhile ∧ 5 ∈ L := by
  have hout : (outcomes smallLayout smallFs [.allocBlock, .allocBlock, .freeBlocks [6, 5],
      .freeBlocks [5], .allocBlock, .allocInode, .freeInode 2]).map Prod.fst
      = some [.ok (some 5), .ok (some 6), .ok none, .error (.fsError .eio), .ok (some 5),
        .ok (some 2), .ok none] := by decide +kernel
  obtain ⟨⟨outs, s'⟩, h, rfl⟩ := Option.map_eq_some_iff.mp hout
  have hruns := runs_outcomes h
  obtain ⟨hsync, -, honce, -⟩ := allocator_faithful smallLayout_valid _ _ hruns
  exact ⟨s', hruns, hsync, honce [] meanwhile _ 5 rfl⟩

end Allocator

end ConcurrentFs.Mkfs
