/-
  ConcurrentFs.Image

  An image as what its blocks stand for: the two bitmaps bit by bit, the inode
  table inode by inode, and the data blocks.  The regions cover the whole disk, so
  an image and its blocks determine each other, and every write the file system
  makes is an update of one thing in the image.

  `Shows sb s I r` says that a state shows the image `I`, in memory and on the
  disk, with lock entries and descriptors `r`; the rules below say what each
  function right above the journal does to it.
-/
import ConcurrentFs.Vfs
import Mathlib.Data.List.SplitBy

namespace ConcurrentFs

open Lib

/-! ## The regions of the disk -/

/-- What `validate_superblock` promises about the regions. -/
structure Regions (sb : Superblock) : Prop where
  inodeBitmap : sb.inodeBitmapStart.toNat = 1
  dataBitmap : sb.dataBitmapStart.toNat = 1 + blocksFor sb.inodeCount.toNat
  inodeTable : sb.inodeTableStart.toNat = sb.dataBitmapStart.toNat + blocksFor sb.totalBlocks.toNat
  data : sb.dataStart.toNat = sb.inodeTableStart.toNat + sb.inodeCount.toNat / 32
  room : sb.dataStart.toNat < sb.totalBlocks.toNat
  whole : sb.inodeCount.toNat % 32 = 0
  some : 32 ≤ sb.inodeCount.toNat

/-- The number of inodes `plan_layout` settles on: whole table blocks, at least one. -/
def roundedInodes (inodes : Nat) : Nat :=
  if (inodes + 32 - 1) / 32 * 32 < 32 then 32 else (inodes + 32 - 1) / 32 * 32

theorem roundedInodes_spec (inodes : Nat) :
    roundedInodes inodes % 32 = 0 ∧ 32 ≤ roundedInodes inodes := by
  unfold roundedInodes
  split <;> omega

/-- What `plan_layout` returns when it does not throw. -/
theorem planLayout_eq_ok {total count : UInt32} {sb : Superblock}
    (h : planLayout total count = .ok sb) :
    ∃ inodes, inodes % 32 = 0 ∧ 32 ≤ inodes ∧ inodes ≤ 4294967295 ∧
      1 + blocksFor inodes + blocksFor total.toNat + inodes / 32 < total.toNat ∧
      sb = { magic := magicNumber, blockSize := 4096, totalBlocks := total,
             inodeCount := UInt32.ofNat inodes, inodeBitmapStart := UInt32.ofNat 1,
             dataBitmapStart := UInt32.ofNat (1 + blocksFor inodes),
             inodeTableStart := UInt32.ofNat (1 + blocksFor inodes + blocksFor total.toNat),
             dataStart := UInt32.ofNat
               (1 + blocksFor inodes + blocksFor total.toNat + inodes / 32),
             rootInode := UInt32.ofNat rootInode, cleanUnmount := 1, lastCheckpointLsn := 0 } := by
  obtain ⟨hmod, hle⟩ :=
    roundedInodes_spec (if count ≠ 0 then count.toNat else total.toNat / blocksPerInode)
  refine ⟨roundedInodes (if count ≠ 0 then count.toNat else total.toNat / blocksPerInode),
    hmod, hle, ?_⟩
  unfold planLayout at h
  simp only at h
  rw [← roundedInodes] at h
  generalize roundedInodes (if count ≠ 0 then count.toNat else total.toNat / blocksPerInode)
    = inodes at h hmod hle ⊢
  split at h
  · cases h
  · rename_i hmax
    split at h
    · cases h
    · rename_i hroom
      exact ⟨by omega, by omega, (Except.ok.inj h).symm⟩

theorem regions_of_planLayout {total count : UInt32} {sb : Superblock}
    (h : planLayout total count = .ok sb) : Regions sb := by
  obtain ⟨inodes, hmod, hle, hmax, hroom, rfl⟩ := planLayout_eq_ok h
  have ht := total.toNat_lt
  have hi : (UInt32.ofNat inodes).toNat = inodes :=
    UInt32.toNat_ofNat_of_lt' (by simp only [UInt32.size]; omega)
  constructor <;> simp only [hi]
  · rfl
  · rw [UInt32.toNat_ofNat_of_lt' (by simp only [UInt32.size]; omega)]
  · rw [UInt32.toNat_ofNat_of_lt' (by simp only [UInt32.size]; omega),
      UInt32.toNat_ofNat_of_lt' (by simp only [UInt32.size]; omega)]
  · rw [UInt32.toNat_ofNat_of_lt' (by simp only [UInt32.size]; omega),
      UInt32.toNat_ofNat_of_lt' (by simp only [UInt32.size]; omega)]
  · rw [UInt32.toNat_ofNat_of_lt' (by simp only [UInt32.size]; omega)]
    exact hroom
  · exact hmod
  · exact hle

/-- A superblock that passes has its regions where `plan_layout` puts them. -/
theorem regions_of_validate {sb : Superblock} {n : UInt32}
    (h : validateSuperblock sb n = .ok ()) : Regions sb := by
  obtain ⟨-, -, -, -, want, hplan, h1, h2, h3, h4, h5⟩ := validateSuperblock_eq_ok.mp h
  have hr := regions_of_planLayout hplan
  have ht : want.totalBlocks = sb.totalBlocks := by
    obtain ⟨_, -, -, -, -, rfl⟩ := planLayout_eq_ok hplan
    rfl
  constructor
  · rw [h2]; exact hr.inodeBitmap
  · rw [h3, h1]; exact hr.dataBitmap
  · rw [h4, h3, ← ht]; exact hr.inodeTable
  · rw [h5, h4, h1]; exact hr.data
  · rw [h5, ← ht]; exact hr.room
  · rw [h1]; exact hr.whole
  · rw [h1]; exact hr.some

namespace Regions

variable {sb : Superblock} (g : Regions sb)
include g

/-- The order and the sizes of the regions, as inequalities. -/
theorem order :
    sb.inodeBitmapStart.toNat = 1 ∧ 1 < sb.dataBitmapStart.toNat ∧
    sb.dataBitmapStart.toNat < sb.inodeTableStart.toNat ∧
    sb.inodeTableStart.toNat < sb.dataStart.toNat ∧ sb.dataStart.toNat < sb.totalBlocks.toNat ∧
    sb.inodeCount.toNat = 32 * (sb.dataStart.toNat - sb.inodeTableStart.toNat) ∧
    sb.inodeCount.toNat ≤ 32768 * (sb.dataBitmapStart.toNat - 1) ∧
    sb.totalBlocks.toNat ≤ 32768 * (sb.inodeTableStart.toNat - sb.dataBitmapStart.toNat) ∧
    sb.totalBlocks.toNat < 2 ^ 32 ∧ sb.inodeCount.toNat < 2 ^ 32 := by
  have h1 := g.inodeBitmap
  have h2 := g.dataBitmap
  have h3 := g.inodeTable
  have h4 := g.data
  have h5 := g.room
  have h6 := g.whole
  have h7 := g.some
  have h8 := sb.totalBlocks.toNat_lt
  have h9 := sb.inodeCount.toNat_lt
  unfold blocksFor at h2 h3
  refine ⟨by omega, by omega, by omega, by omega, by omega, by omega, by omega, by omega, by omega,
    by omega⟩

end Regions

/-! ## What the blocks of an image stand for -/

/-- An inode table block is its 32 inodes. -/
theorem block_ext_inodeIn {a b : Block} (h : ∀ j < 32, inodeIn a j = inodeIn b j) : a = b := by
  refine Bytes.ext_get fun i hi => ?_
  have hs := Inode.codec.symm.injective (h (i / 128) (by omega))
  have hg := congrArg (fun f => Bytes.get f (i % 128)) hs
  simp only [Bytes.get_slice _ _ (show i % 128 < 128 by omega),
    show 128 * (i / 128) + i % 128 = i by omega] at hg
  exact hg

@[ext] structure Image where
  /-- Block 0. -/
  super : Block
  /-- The inode bitmap. -/
  ibit : Nat → Bool
  /-- The data bitmap. -/
  dbit : Nat → Bool
  inode : Nat → Inode
  /-- The blocks of the data region. -/
  blk : Nat → Block

namespace Image

/-- The image with these blocks.  Numbers past the end of a region stand for nothing. -/
def of (sb : Superblock) (d : Nat → Block) : Image where
  super := d 0
  ibit i := decide (i < 32768 * (sb.dataBitmapStart.toNat - 1)) &&
    bitAt (d (1 + i / 32768)) (i % 32768)
  dbit i := decide (i < 32768 * (sb.inodeTableStart.toNat - sb.dataBitmapStart.toNat))
    && bitAt (d (sb.dataBitmapStart.toNat + i / 32768)) (i % 32768)
  inode id := if id < sb.inodeCount.toNat then inodeIn (d (inodeBlock sb id)) (id % 32) else .zero
  blk b := if sb.dataStart.toNat ≤ b then d b else Bytes.zero 4096

/-- The image with one thing changed. -/
def putIBit (I : Image) (i : Nat) (v : Bool) : Image :=
  { I with ibit := Function.update I.ibit i v }
@[inherit_doc putIBit] def putDBit (I : Image) (i : Nat) (v : Bool) : Image :=
  { I with dbit := Function.update I.dbit i v }
@[inherit_doc putIBit] def putInode (I : Image) (id : Nat) (x : Inode) : Image :=
  { I with inode := Function.update I.inode id x }
@[inherit_doc putIBit] def putBlk (I : Image) (b : Nat) (data : Block) : Image :=
  { I with blk := Function.update I.blk b data }

/-- The image with the bits of the blocks of `L` cleared. -/
def clearDBits (I : Image) (L : List Nat) : Image :=
  { I with dbit := fun B => I.dbit B && decide (B ∉ L) }

section Update

variable {sb : Superblock} (g : Regions sb) (d : Nat → Block)
include g

theorem of_putIBit {i : Nat} (hi : i < sb.inodeCount.toNat) (v : Bool) :
    of sb (Function.update d (1 + i / 32768) (flip (d (1 + i / 32768)) i v))
      = (of sb d).putIBit i v := by
  have ho := g.order
  ext1
  · exact Function.update_of_ne (by omega) _ _
  · funext j
    by_cases hj : j < 32768 * (sb.dataBitmapStart.toNat - 1)
    · simp only [of, putIBit, decide_eq_true hj, Bool.true_and]
      by_cases hb : j / 32768 = i / 32768
      · rw [hb, Function.update_self, bitAt_flip _ _ _ (Nat.mod_lt _ (by omega))]
        by_cases hji : j = i
        · rw [hji, if_pos rfl, Function.update_self]
        · rw [if_neg (by omega), Function.update_of_ne hji, decide_eq_true hj, hb, Bool.true_and]
      · rw [Function.update_of_ne (by omega), Function.update_of_ne (by rintro rfl; exact hb rfl),
          decide_eq_true hj, Bool.true_and]
    · simp only [of, putIBit, decide_eq_false hj, Bool.false_and]
      rw [Function.update_of_ne (by omega), decide_eq_false hj, Bool.false_and]
  · funext j
    simp only [of, putIBit]
    rw [Function.update_of_ne (by omega)]
  · funext id
    simp only [of, putIBit, inodeBlock]
    rw [Function.update_of_ne (by omega)]
  · funext b
    simp only [of, putIBit]
    by_cases hb : sb.dataStart.toNat ≤ b
    · rw [if_pos hb, if_pos hb, Function.update_of_ne (by omega)]
    · rw [if_neg hb, if_neg hb]

theorem of_putDBit {i : Nat} (hi : i < sb.totalBlocks.toNat) (v : Bool) :
    of sb (Function.update d (sb.dataBitmapStart.toNat + i / 32768)
      (flip (d (sb.dataBitmapStart.toNat + i / 32768)) i v)) = (of sb d).putDBit i v := by
  have ho := g.order
  ext1
  · exact Function.update_of_ne (by omega) _ _
  · funext j
    by_cases hj : j < 32768 * (sb.dataBitmapStart.toNat - 1)
    · simp only [of, putDBit, decide_eq_true hj, Bool.true_and]
      rw [Function.update_of_ne (by omega)]
    · simp only [of, putDBit, decide_eq_false hj, Bool.false_and]
  · funext j
    by_cases hj : j < 32768 * (sb.inodeTableStart.toNat - sb.dataBitmapStart.toNat)
    · simp only [of, putDBit, decide_eq_true hj, Bool.true_and]
      by_cases hb : j / 32768 = i / 32768
      · rw [hb, Function.update_self, bitAt_flip _ _ _ (Nat.mod_lt _ (by omega))]
        by_cases hji : j = i
        · rw [hji, if_pos rfl, Function.update_self]
        · rw [if_neg (by omega), Function.update_of_ne hji, decide_eq_true hj, hb, Bool.true_and]
      · rw [Function.update_of_ne (by omega), Function.update_of_ne (by rintro rfl; exact hb rfl),
          decide_eq_true hj, Bool.true_and]
    · simp only [of, putDBit, decide_eq_false hj, Bool.false_and]
      rw [Function.update_of_ne (by omega), decide_eq_false hj, Bool.false_and]
  · funext id
    simp only [of, putDBit, inodeBlock]
    rw [Function.update_of_ne (by omega)]
  · funext b
    simp only [of, putDBit]
    by_cases hb : sb.dataStart.toNat ≤ b
    · rw [if_pos hb, if_pos hb, Function.update_of_ne (by omega)]
    · rw [if_neg hb, if_neg hb]

theorem of_putInode {id : Nat} (hi : id < sb.inodeCount.toNat) (x : Inode) :
    of sb (Function.update d (inodeBlock sb id) (setInodeIn (d (inodeBlock sb id)) (id % 32) x))
      = (of sb d).putInode id x := by
  have ho := g.order
  ext1
  · exact Function.update_of_ne (by unfold inodeBlock; omega) _ _
  · funext j
    by_cases hj : j < 32768 * (sb.dataBitmapStart.toNat - 1)
    · simp only [of, putInode, decide_eq_true hj, Bool.true_and, inodeBlock]
      rw [Function.update_of_ne (by omega)]
    · simp only [of, putInode, decide_eq_false hj, Bool.false_and]
  · funext j
    by_cases hj : j < 32768 * (sb.inodeTableStart.toNat - sb.dataBitmapStart.toNat)
    · simp only [of, putInode, decide_eq_true hj, Bool.true_and, inodeBlock]
      rw [Function.update_of_ne (by omega)]
    · simp only [of, putInode, decide_eq_false hj, Bool.false_and]
  · funext j
    by_cases hj : j < sb.inodeCount.toNat
    · simp only [of, putInode, if_pos hj]
      by_cases hb : j / 32 = id / 32
      · simp only [inodeBlock, hb, Function.update_self]
        by_cases hji : j = id
        · rw [hji, Function.update_self, inodeIn_setInodeIn_self _ _ (Nat.mod_lt _ (by omega))]
        · rw [Function.update_of_ne hji, inodeIn_setInodeIn_ne _ _ (by omega), if_pos hj, hb]
      · rw [Function.update_of_ne (by unfold inodeBlock; omega),
          Function.update_of_ne (by rintro rfl; exact hb rfl), if_pos hj]
    · simp only [of, putInode, if_neg hj]
      rw [Function.update_of_ne (by omega), if_neg hj]
  · funext b
    simp only [of, putInode, inodeBlock]
    by_cases hb : sb.dataStart.toNat ≤ b
    · rw [if_pos hb, if_pos hb, Function.update_of_ne (by omega)]
    · rw [if_neg hb, if_neg hb]

theorem of_putBlk {b : Nat} (hb : sb.dataStart.toNat ≤ b) (data : Block) :
    of sb (Function.update d b data) = (of sb d).putBlk b data := by
  have ho := g.order
  ext1
  · exact Function.update_of_ne (by omega) _ _
  · funext j
    by_cases hj : j < 32768 * (sb.dataBitmapStart.toNat - 1)
    · simp only [of, putBlk, decide_eq_true hj, Bool.true_and]
      rw [Function.update_of_ne (by omega)]
    · simp only [of, putBlk, decide_eq_false hj, Bool.false_and]
  · funext j
    by_cases hj : j < 32768 * (sb.inodeTableStart.toNat - sb.dataBitmapStart.toNat)
    · simp only [of, putBlk, decide_eq_true hj, Bool.true_and]
      rw [Function.update_of_ne (by omega)]
    · simp only [of, putBlk, decide_eq_false hj, Bool.false_and]
  · funext j
    by_cases hj : j < sb.inodeCount.toNat
    · simp only [of, putBlk, if_pos hj, inodeBlock]
      rw [Function.update_of_ne (by omega)]
    · simp only [of, putBlk, if_neg hj]
  · funext c
    simp only [of, putBlk]
    by_cases hc : c = b
    · rw [hc, if_pos hb, Function.update_self, Function.update_self]
    · rw [Function.update_of_ne hc, Function.update_of_ne hc]

/-- The regions cover the disk: an image has only one set of blocks. -/
theorem of_injective : Function.Injective (of sb) := by
  intro d d' h
  have ho := g.order
  funext b
  have hsuper : d 0 = d' 0 := congrArg super h
  by_cases h0 : b = 0
  · rw [h0, hsuper]
  by_cases h1 : b < sb.dataBitmapStart.toNat
  · refine block_ext_bitAt fun j hj => ?_
    have hb := congrFun (congrArg ibit h) (32768 * (b - 1) + j)
    simp only [of, show 32768 * (b - 1) + j < 32768 * (sb.dataBitmapStart.toNat - 1) by omega,
      decide_true, Bool.true_and] at hb
    rwa [show 1 + (32768 * (b - 1) + j) / 32768 = b by omega,
      show (32768 * (b - 1) + j) % 32768 = j by omega] at hb
  by_cases h2 : b < sb.inodeTableStart.toNat
  · refine block_ext_bitAt fun j hj => ?_
    have hb := congrFun (congrArg dbit h) (32768 * (b - sb.dataBitmapStart.toNat) + j)
    simp only [of, show 32768 * (b - sb.dataBitmapStart.toNat) + j
      < 32768 * (sb.inodeTableStart.toNat - sb.dataBitmapStart.toNat) by omega,
      decide_true, Bool.true_and] at hb
    rwa [show sb.dataBitmapStart.toNat + (32768 * (b - sb.dataBitmapStart.toNat) + j) / 32768 = b
      by omega, show (32768 * (b - sb.dataBitmapStart.toNat) + j) % 32768 = j by omega] at hb
  by_cases h3 : b < sb.dataStart.toNat
  · refine block_ext_inodeIn fun j hj => ?_
    have hb := congrFun (congrArg inode h) (32 * (b - sb.inodeTableStart.toNat) + j)
    simp only [of, inodeBlock, show 32 * (b - sb.inodeTableStart.toNat) + j < sb.inodeCount.toNat
      by omega, if_true] at hb
    rwa [show sb.inodeTableStart.toNat + (32 * (b - sb.inodeTableStart.toNat) + j) / 32 = b
      by omega, show (32 * (b - sb.inodeTableStart.toNat) + j) % 32 = j by omega] at hb
  · have hb := congrFun (congrArg blk h) b
    simp only [of, if_pos (show sb.dataStart.toNat ≤ b by omega)] at hb
    exact hb

end Update

end Image

/-! ## States that show an image -/

/-- What a file system keeps in memory besides its bitmaps. -/
structure Side where
  entries : Nat → Option Entry
  made : Nat
  files : Nat → OpenFile

def FileSystem.side (s : FileSystem) : Side := ⟨s.entries, s.made, s.files⟩

/-- `s` shows the image `I`, on the disk and in the allocator's bitmaps, beside `r`. -/
structure Shows (sb : Superblock) (s : FileSystem) (I : Image) (r : Side) : Prop where
  image : Image.of sb s.disk = I
  inodeCount : s.inodes.nbits = sb.inodeCount.toNat
  blockCount : s.blocks.nbits = sb.totalBlocks.toNat
  inodeBit : ∀ i < sb.inodeCount.toNat, s.inodes.bit i = I.ibit i
  blockBit : ∀ i < sb.totalBlocks.toNat, s.blocks.bit i = I.dbit i
  side : s.side = r

namespace Shows

variable {sb : Superblock} {s s' : FileSystem} {I : Image} {r : Side}

/-- A state that shows an image is determined by it, but for the clock and the journal's record. -/
theorem unique {r' : Side} (g : Regions sb) (h : Shows sb s I r) (h' : Shows sb s' I r') :
    s'.disk = s.disk ∧ s'.inodes = s.inodes ∧ s'.blocks = s.blocks := by
  refine ⟨Image.of_injective g (h'.image.trans h.image.symm), ?_, ?_⟩
  · refine Bitmap.ext_bit (h'.inodeCount.trans h.inodeCount.symm) fun i => ?_
    by_cases hi : i < sb.inodeCount.toNat
    · rw [h'.inodeBit i hi, h.inodeBit i hi]
    · rw [Bitmap.bit_past (by rw [h'.inodeCount]; omega),
        Bitmap.bit_past (by rw [h.inodeCount]; omega)]
  · refine Bitmap.ext_bit (h'.blockCount.trans h.blockCount.symm) fun i => ?_
    by_cases hi : i < sb.totalBlocks.toNat
    · rw [h'.blockBit i hi, h.blockBit i hi]
    · rw [Bitmap.bit_past (by rw [h'.blockCount]; omega),
        Bitmap.bit_past (by rw [h.blockCount]; omega)]

theorem congr {I' : Image} (h : Shows sb s I r) (hI : I = I') : Shows sb s I' r := hI ▸ h

theorem disk_blk (h : Shows sb s I r) {b : Nat} (hb : sb.dataStart.toNat ≤ b) :
    s.disk b = I.blk b := by
  rw [← h.image]
  exact (if_pos hb).symm

end Shows

/-! ## What is written -/

/-- Getting from `s` to `s'`, the blocks of `S` were written and nothing else was asked of the
    journal. -/
structure Writes (s s' : FileSystem) (S : Set Nat) : Prop where
  calls : ∃ W : List (Nat × Block), s'.calls = s.calls ++ W.map (fun w => .write w.1 w.2) ∧
    ∀ b, b ∈ S ↔ b ∈ W.map Prod.fst
  disk : ∀ b, b ∉ S → s'.disk b = s.disk b

namespace Writes

variable {s s' s'' : FileSystem} {S T : Set Nat}

/-- Nothing was written. -/
theorem of_same (hc : s'.calls = s.calls) (hd : s'.disk = s.disk) : Writes s s' ∅ where
  calls := ⟨[], by rw [hc]; simp, fun b => by simp⟩
  disk b _ := by rw [hd]

theorem refl (s : FileSystem) : Writes s s ∅ := of_same rfl rfl

/-- One block was written. -/
theorem of_put {b : Nat} {data : Block} (hc : s'.calls = s.calls ++ [.write b data])
    (hd : s'.disk = Function.update s.disk b data) : Writes s s' {b} where
  calls := ⟨[(b, data)], by rw [hc]; rfl, fun c => by simp⟩
  disk c hc := by
    rw [hd]
    exact Function.update_of_ne hc _ _

theorem trans (h : Writes s s' S) (h' : Writes s' s'' T) : Writes s s'' (S ∪ T) where
  calls := by
    obtain ⟨W, hW, hS⟩ := h.calls
    obtain ⟨W', hW', hT⟩ := h'.calls
    refine ⟨W ++ W', by rw [hW', hW, List.map_append, List.append_assoc], fun b => ?_⟩
    rw [Set.mem_union, hS, hT, List.map_append, List.mem_append]
  disk b hb := by
    rw [Set.mem_union, not_or] at hb
    rw [h'.disk b hb.2, h.disk b hb.1]

theorem congr (h : Writes s s' S) (hS : S = T) : Writes s s' T := hS ▸ h

end Writes

/-- The blocks of the data bitmap that hold the bits of the blocks of `L`. -/
def bitmapBlocks (sb : Superblock) (L : List Nat) : Set Nat :=
  {B | ∃ b ∈ L, sb.dataBitmapStart.toNat + b / 32768 = B}

theorem bitmapBlocks_nil (sb : Superblock) : bitmapBlocks sb [] = ∅ := by
  ext B
  simp [bitmapBlocks]

theorem bitmapBlocks_append (sb : Superblock) (L L' : List Nat) :
    bitmapBlocks sb (L ++ L') = bitmapBlocks sb L ∪ bitmapBlocks sb L' := by
  ext B
  simp [bitmapBlocks, or_and_right, exists_or]

theorem bitmapBlocks_singleton (sb : Superblock) (b : Nat) :
    bitmapBlocks sb [b] = {sb.dataBitmapStart.toNat + b / 32768} := by
  ext B
  simp [bitmapBlocks, eq_comm]

theorem touchable_of {sb : Superblock} {b : Nat} (h1 : 1 ≤ b) (h2 : b < sb.totalBlocks.toNat) :
    touchable sb b = true := by
  simp [touchable, h2]
  omega

section Rules

variable {sb : Superblock} {s : FileSystem} {I : Image} {r : Side}
  {α : Type} {P : α → FileSystem → Prop} {U : Unit → FileSystem → Prop}
  {N : Nat → FileSystem → Prop} {E : Exn → FileSystem → Prop}

@[simp] theorem throwErrno_ends (e : Errno) :
    (throwErrno e : Fs α).Ends s P E ↔ E (.fsError e) s := Iff.rfl

theorem now_writes (h : Shows sb s I r) {T : UInt64 → FileSystem → Prop}
    (hT : ∀ t s', Shows sb s' I r → Writes s s' ∅ → T t s') : now.Ends s T E :=
  ⟨rfl, hT _ _ ⟨h.image, h.inodeCount, h.blockCount, h.inodeBit, h.blockBit, h.side⟩
    (.of_same rfl rfl)⟩

theorem now_ends (h : Shows sb s I r) {T : UInt64 → FileSystem → Prop}
    (hT : ∀ t s', Shows sb s' I r → T t s') : now.Ends s T E :=
  now_writes h fun t s' hs' _ => hT t s' hs'

theorem readBlock_ends (g : Regions sb) (h : Shows sb s I r) {b : Nat}
    (h1 : sb.dataStart.toNat ≤ b) (h2 : b < sb.totalBlocks.toNat) {B : Block → FileSystem → Prop}
    (hB : B (I.blk b) s) : (readBlock sb b).Ends s B E := by
  have ho := g.order
  unfold readBlock
  rw [if_pos (touchable_of (by omega) h2), Prog.ends_view, h.disk_blk h1]
  exact hB

/-- A write to the data region. -/
theorem writeBlock_writes (g : Regions sb) (h : Shows sb s I r) {b : Nat}
    (h1 : sb.dataStart.toNat ≤ b) (h2 : b < sb.totalBlocks.toNat) (fresh : Bool)
    (fn : Block → Block)
    (hU : ∀ s', Shows sb s' (I.putBlk b (fn (if fresh then Bytes.zero 4096 else I.blk b))) r →
      Writes s s' {b} → U () s') :
    (writeBlock sb b fresh fn).Ends s U E := by
  have ho := g.order
  unfold writeBlock
  rw [if_pos (touchable_of (by omega) h2), Prog.ends_change, h.disk_blk h1]
  refine hU _ ⟨?_, h.inodeCount, h.blockCount, h.inodeBit, h.blockBit, h.side⟩ (.of_put rfl rfl)
  rw [← h.image]
  exact Image.of_putBlk g _ h1 _

theorem writeBlock_ends (g : Regions sb) (h : Shows sb s I r) {b : Nat}
    (h1 : sb.dataStart.toNat ≤ b) (h2 : b < sb.totalBlocks.toNat) (fresh : Bool)
    (fn : Block → Block)
    (hU : ∀ s', Shows sb s' (I.putBlk b (fn (if fresh then Bytes.zero 4096 else I.blk b))) r →
      U () s') :
    (writeBlock sb b fresh fn).Ends s U E :=
  writeBlock_writes g h h1 h2 fresh fn fun s' hs' _ => hU s' hs'

theorem setBit_ends {start bit : Nat} {v : Bool} (h1 : 1 ≤ start + bit / 32768)
    (h2 : start + bit / 32768 < sb.totalBlocks.toNat)
    (hU : U () (s.putBlock (start + bit / 32768) (flip (s.disk (start + bit / 32768)) bit v))) :
    (setBit sb start bit v).Ends s U E := by
  unfold setBit writeBlock
  rw [if_pos (touchable_of h1 h2), Prog.ends_change]
  exact hU

/-- A state in which the data bitmap, in memory and on the disk, has one bit changed. -/
theorem Shows.putDBit (g : Regions sb) (h : Shows sb s I r) {b : Nat}
    (hb : b < sb.totalBlocks.toNat) (v : Bool) :
    Shows sb ({ s with blocks := s.blocks.put b v }.putBlock
      (sb.dataBitmapStart.toNat + b / 32768)
      (flip (s.disk (sb.dataBitmapStart.toNat + b / 32768)) b v)) (I.putDBit b v) r where
  image := by
    rw [← h.image]
    exact Image.of_putDBit g _ hb v
  inodeCount := h.inodeCount
  blockCount := by
    show (s.blocks.put b v).nbits = _
    rw [Bitmap.put_nbits, h.blockCount]
  inodeBit := h.inodeBit
  blockBit i hi := by
    show (s.blocks.put b v).bit i = Function.update I.dbit b v i
    rw [Bitmap.put_bit (by rw [h.blockCount]; exact hb), Function.update_apply, h.blockBit i hi]
  side := h.side

@[inherit_doc Shows.putDBit]
theorem Shows.putIBit (g : Regions sb) (h : Shows sb s I r) {id : Nat}
    (hi : id < sb.inodeCount.toNat) (v : Bool) :
    Shows sb ({ s with inodes := s.inodes.put id v }.putBlock
      (sb.inodeBitmapStart.toNat + id / 32768)
      (flip (s.disk (sb.inodeBitmapStart.toNat + id / 32768)) id v)) (I.putIBit id v) r where
  image := by
    rw [← h.image, g.inodeBitmap]
    exact Image.of_putIBit g _ hi v
  inodeCount := by
    show (s.inodes.put id v).nbits = _
    rw [Bitmap.put_nbits, h.inodeCount]
  blockCount := h.blockCount
  inodeBit i hi' := by
    show (s.inodes.put id v).bit i = Function.update I.ibit id v i
    rw [Bitmap.put_bit (by rw [h.inodeCount]; exact hi), Function.update_apply, h.inodeBit i hi']
  blockBit := h.blockBit
  side := h.side

/-- `alloc_block` marks the lowest free block.  The disk is full when there is none, and damaged
    when it is one that `mkfs` marks. -/
theorem allocBlock_any (g : Regions sb) (h : Shows sb s I r)
    (hok : ∀ b s', sb.dataStart.toNat ≤ b → b < sb.totalBlocks.toNat → I.dbit b = false →
      (∀ j < b, I.dbit j = true) → Shows sb s' (I.putDBit b true) r →
      Writes s s' (bitmapBlocks sb [b]) → N b s')
    (hlow : ∀ b < sb.dataStart.toNat, I.dbit b = false → (∀ j < b, I.dbit j = true) →
      E (.fsError .eio) s)
    (hfull : (∀ B < sb.totalBlocks.toNat, I.dbit B = true) → E (.fsError .enospc) s) :
    (allocBlock sb).Ends s N E := by
  have ho := g.order
  unfold allocBlock
  rw [Prog.ends_bind, Prog.ends_view]
  cases hf : s.blocks.findFirstFree with
  | none =>
    have hall := Bitmap.findFirstFree_none hf
    refine hfull fun B hB => ?_
    rw [← h.blockBit B hB]
    exact hall B (by rw [h.blockCount]; exact hB)
  | some b =>
    obtain ⟨hlt, hclear, hfirst⟩ := Bitmap.findFirstFree_some hf
    rw [h.blockCount] at hlt
    rw [h.blockBit b hlt] at hclear
    have hbelow : ∀ j < b, I.dbit j = true := fun j hj => by
      rw [← h.blockBit j (by omega)]
      exact hfirst j hj
    by_cases hge : b < sb.dataStart.toNat
    · simp only [if_pos hge, Prog.ends_bind, throwErrno_ends]
      exact hlow b hge hclear hbelow
    · simp only [if_neg hge, Prog.ends_bind, Prog.ends_view,
        Bitmap.set_of_lt (show b < s.blocks.nbits by rw [h.blockCount]; exact hlt), orOutOfRange,
        Prog.ends_pure, Prog.ends_change]
      refine setBit_ends (by omega) (by omega) ?_
      refine hok b _ (by omega) hlt hclear hbelow (h.putDBit g hlt true) ?_
      rw [bitmapBlocks_singleton]
      exact .of_put rfl rfl

/-- `alloc_block` on an image whose metadata blocks are marked. -/
theorem allocBlock_ends (g : Regions sb) (h : Shows sb s I r)
    (hmeta : ∀ B < sb.dataStart.toNat, I.dbit B = true)
    (hok : ∀ b s', sb.dataStart.toNat ≤ b → b < sb.totalBlocks.toNat → I.dbit b = false →
      Shows sb s' (I.putDBit b true) r → N b s')
    (hfull : (∀ B < sb.totalBlocks.toNat, I.dbit B = true) → E (.fsError .enospc) s) :
    (allocBlock sb).Ends s N E := by
  refine allocBlock_any g h (fun b s' h1 h2 h3 _ hs' _ => hok b s' h1 h2 h3 hs')
    (fun b hb h0 _ => ?_) hfull
  rw [hmeta b hb] at h0
  exact Bool.noConfusion h0

/-- `alloc_inode` marks the lowest free inode.  Inode 0 is never free unless the bitmap is
    damaged. -/
theorem allocInode_any (g : Regions sb) (h : Shows sb s I r)
    (hok : ∀ id s', 1 ≤ id → id < sb.inodeCount.toNat → I.ibit id = false →
      (∀ j < id, I.ibit j = true) → Shows sb s' (I.putIBit id true) r →
      Writes s s' {sb.inodeBitmapStart.toNat + id / 32768} → N id s')
    (hlow : I.ibit 0 = false → E (.fsError .eio) s)
    (hfull : (∀ i < sb.inodeCount.toNat, I.ibit i = true) → E (.fsError .enospc) s) :
    (allocInode sb).Ends s N E := by
  have ho := g.order
  unfold allocInode
  rw [Prog.ends_bind, Prog.ends_view]
  cases hf : s.inodes.findFirstFree with
  | none =>
    have hall := Bitmap.findFirstFree_none hf
    refine hfull fun B hB => ?_
    rw [← h.inodeBit B hB]
    exact hall B (by rw [h.inodeCount]; exact hB)
  | some id =>
    obtain ⟨hlt, hclear, hfirst⟩ := Bitmap.findFirstFree_some hf
    rw [h.inodeCount] at hlt
    rw [h.inodeBit id hlt] at hclear
    by_cases h0 : id = 0
    · simp only [if_pos h0, Prog.ends_bind, throwErrno_ends]
      exact hlow (h0 ▸ hclear)
    · simp only [if_neg h0, Prog.ends_bind, Prog.ends_view,
        Bitmap.set_of_lt (show id < s.inodes.nbits by rw [h.inodeCount]; exact hlt), orOutOfRange,
        Prog.ends_pure, Prog.ends_change]
      refine setBit_ends (by rw [g.inodeBitmap]; omega) (by rw [g.inodeBitmap]; omega) ?_
      refine hok id _ (by omega) hlt hclear (fun j hj => ?_) (h.putIBit g hlt true)
        (.of_put rfl rfl)
      rw [← h.inodeBit j (by omega)]
      exact hfirst j hj

/-- `alloc_inode` on an image whose inode 0 is marked. -/
theorem allocInode_ends (g : Regions sb) (h : Shows sb s I r) (h0 : I.ibit 0 = true)
    (hok : ∀ id s', 1 ≤ id → id < sb.inodeCount.toNat → I.ibit id = false →
      Shows sb s' (I.putIBit id true) r → N id s')
    (hfull : (∀ i < sb.inodeCount.toNat, I.ibit i = true) → E (.fsError .enospc) s) :
    (allocInode sb).Ends s N E := by
  refine allocInode_any g h (fun id s' h1 h2 h3 _ hs' _ => hok id s' h1 h2 h3 hs') (fun hc => ?_)
    hfull
  rw [h0] at hc
  exact Bool.noConfusion hc

/-- `free_inode` clears the bit of an inode that is marked, and refuses every other number. -/
theorem freeInode_any (g : Regions sb) (h : Shows sb s I r) {id : Nat}
    (hok : 1 ≤ id → id < sb.inodeCount.toNat → I.ibit id = true →
      ∀ s', Shows sb s' (I.putIBit id false) r →
        Writes s s' {sb.inodeBitmapStart.toNat + id / 32768} → U () s')
    (hbad : ¬ (1 ≤ id ∧ id < sb.inodeCount.toNat ∧ I.ibit id = true) → E (.fsError .eio) s) :
    (freeInode sb id).Ends s U E := by
  have ho := g.order
  by_cases hm : 1 ≤ id ∧ id < sb.inodeCount.toNat ∧ I.ibit id = true
  · obtain ⟨h1, h2, h3⟩ := hm
    have hcond : ¬ (id = 0 ∨ id ≥ sb.inodeCount.toNat ∨ s.inodes.isSet id ≠ some true) := by
      rw [Bitmap.isSet_of_lt (by rw [h.inodeCount]; exact h2), h.inodeBit id h2, h3]
      rintro (h0 | h0 | h0)
      · omega
      · omega
      · exact h0 rfl
    unfold freeInode
    simp only [Prog.ends_bind, Prog.ends_view, if_neg hcond,
      Bitmap.clear_of_lt (show id < s.inodes.nbits by rw [h.inodeCount]; exact h2), orOutOfRange,
      Prog.ends_pure, Prog.ends_change]
    refine setBit_ends (by rw [g.inodeBitmap]; omega) (by rw [g.inodeBitmap]; omega) ?_
    exact hok h1 h2 h3 _ (h.putIBit g h2 false) (.of_put rfl rfl)
  · have hcond : id = 0 ∨ id ≥ sb.inodeCount.toNat ∨ s.inodes.isSet id ≠ some true := by
      by_contra hn
      rw [not_or, not_or, not_not] at hn
      obtain ⟨h1, h2, h3⟩ := hn
      rw [Bitmap.isSet_of_lt (by rw [h.inodeCount]; omega), h.inodeBit id (by omega)] at h3
      exact hm ⟨by omega, by omega, Option.some.inj h3⟩
    unfold freeInode
    simp only [Prog.ends_bind, Prog.ends_view, if_pos hcond, throwErrno_ends]
    exact hbad hm

/-- `free_inode` of a marked inode. -/
theorem freeInode_ends (g : Regions sb) (h : Shows sb s I r) {id : Nat} (h1 : 1 ≤ id)
    (h2 : id < sb.inodeCount.toNat) (hset : I.ibit id = true)
    (hU : ∀ s', Shows sb s' (I.putIBit id false) r → U () s') :
    (freeInode sb id).Ends s U E :=
  freeInode_any g h (fun _ _ _ s' hs' _ => hU s' hs') fun hn => absurd ⟨h1, h2, hset⟩ hn

theorem checkId_ends {id : Nat} (h1 : 1 ≤ id) (h2 : id < sb.inodeCount.toNat) (hU : U () s) :
    (checkId sb id).Ends s U E := by
  unfold checkId
  rw [if_neg (by omega)]
  exact hU

theorem readInode_ends (g : Regions sb) (h : Shows sb s I r) {id : Nat} (h1 : 1 ≤ id)
    (h2 : id < sb.inodeCount.toNat) {T : Inode → FileSystem → Prop} (hT : T (I.inode id) s) :
    (readInode sb id).Ends s T E := by
  have ho := g.order
  unfold readInode
  rw [Prog.ends_bind]
  refine checkId_ends h1 h2 ?_
  rw [Prog.ends_bind, readBlock, if_pos (touchable_of (by unfold inodeBlock; omega)
    (by unfold inodeBlock; omega)), Prog.ends_view, Prog.ends_pure]
  rw [← h.image] at hT
  simpa only [Image.of, if_pos h2] using hT

theorem putInode_writes (g : Regions sb) (h : Shows sb s I r) {id : Nat} (h1 : 1 ≤ id)
    (h2 : id < sb.inodeCount.toNat) (x : Inode)
    (hU : ∀ s', Shows sb s' (I.putInode id x) r → Writes s s' {inodeBlock sb id} → U () s') :
    (writeBlock sb (inodeBlock sb id) false fun b => setInodeIn b (id % 32) x).Ends s U E := by
  have ho := g.order
  unfold writeBlock
  rw [if_pos (touchable_of (by unfold inodeBlock; omega) (by unfold inodeBlock; omega)),
    Prog.ends_change]
  refine hU _ ⟨?_, h.inodeCount, h.blockCount, h.inodeBit, h.blockBit, h.side⟩ (.of_put rfl rfl)
  rw [← h.image]
  exact Image.of_putInode g _ h2 _

theorem writeInode_writes (g : Regions sb) (h : Shows sb s I r) {x : Inode} {id : Nat}
    (hid : x.id.toNat = id) (h1 : 1 ≤ id) (h2 : id < sb.inodeCount.toNat)
    (hU : ∀ s', Shows sb s' (I.putInode id x) r → Writes s s' {inodeBlock sb id} → U () s') :
    (writeInode sb x).Ends s U E := by
  unfold writeInode
  rw [hid, Prog.ends_bind]
  exact checkId_ends h1 h2 (putInode_writes g h h1 h2 x hU)

theorem writeInode_ends (g : Regions sb) (h : Shows sb s I r) {x : Inode} {id : Nat}
    (hid : x.id.toNat = id) (h1 : 1 ≤ id) (h2 : id < sb.inodeCount.toNat)
    (hU : ∀ s', Shows sb s' (I.putInode id x) r → U () s') :
    (writeInode sb x).Ends s U E :=
  writeInode_writes g h hid h1 h2 fun s' hs' _ => hU s' hs'

theorem clearInode_writes (g : Regions sb) (h : Shows sb s I r) {id : Nat} (h1 : 1 ≤ id)
    (h2 : id < sb.inodeCount.toNat)
    (hU : ∀ s', Shows sb s' (I.putInode id .zero) r → Writes s s' {inodeBlock sb id} → U () s') :
    (clearInode sb id).Ends s U E := by
  unfold clearInode
  rw [Prog.ends_bind]
  exact checkId_ends h1 h2 (putInode_writes g h h1 h2 .zero hU)

theorem clearInode_ends (g : Regions sb) (h : Shows sb s I r) {id : Nat} (h1 : 1 ≤ id)
    (h2 : id < sb.inodeCount.toNat) (hU : ∀ s', Shows sb s' (I.putInode id .zero) r → U () s') :
    (clearInode sb id).Ends s U E :=
  clearInode_writes g h h1 h2 fun s' hs' _ => hU s' hs'

/-! ### Freeing blocks -/

/-- Clearing the bits of one bitmap block on the disk. -/
theorem Image.of_clearRun (g : Regions sb) {m : Nat} (run : List Nat) (d : Nat → Block)
    (hrun : ∀ k ∈ run, k / 32768 = m ∧ k < sb.totalBlocks.toNat) :
    Image.of sb (Function.update d (sb.dataBitmapStart.toNat + m)
      (run.foldl (fun b k => flip b k false) (d (sb.dataBitmapStart.toNat + m))))
      = (Image.of sb d).clearDBits run := by
  induction run generalizing d with
  | nil =>
    rw [List.foldl_nil, Function.update_eq_self]
    simp [Image.clearDBits]
  | cons k rest ih =>
    obtain ⟨hk, hlt⟩ := hrun k List.mem_cons_self
    have hset := Image.of_putDBit g d hlt false
    rw [hk] at hset
    have hrest := ih (Function.update d (sb.dataBitmapStart.toNat + m)
      (flip (d (sb.dataBitmapStart.toNat + m)) k false))
      fun j hj => hrun j (List.mem_cons_of_mem _ hj)
    rw [Function.update_self, Function.update_idem, hset] at hrest
    rw [List.foldl_cons, hrest]
    simp only [Image.clearDBits, Image.putDBit, Image.mk.injEq, true_and, and_true]
    funext B
    by_cases hB : B = k
    · simp [hB]
    · simp [hB]

/-- Clearing the bits in memory. -/
theorem clearBlockBits_ends (L : List Nat) (hL : ∀ k ∈ L, k < s.blocks.nbits)
    (hU : ∀ bm : Bitmap, bm.nbits = s.blocks.nbits →
      (∀ i, bm.bit i = (s.blocks.bit i && decide (i ∉ L))) → U () { s with blocks := bm }) :
    (L.forM clearBlockBit).Ends s U E := by
  induction L generalizing s with
  | nil =>
    refine hU s.blocks rfl fun i => ?_
    simp
  | cons k rest ih =>
    have hk := hL k List.mem_cons_self
    rw [List.forM, Prog.ends_bind]
    simp only [clearBlockBit, Prog.ends_bind, Prog.ends_view, Bitmap.clear_of_lt hk, orOutOfRange,
      Prog.ends_pure, Prog.ends_change]
    refine ih (fun j hj => ?_) fun bm hn hbit => ?_
    · simpa using hL j (List.mem_cons_of_mem _ hj)
    · refine hU bm (by simpa using hn) fun i => ?_
      rw [hbit i]
      show ((s.blocks.put k false).bit i && decide (i ∉ rest)) = _
      rw [Bitmap.put_bit hk]
      by_cases hi : i = k
      · simp [hi]
      · simp [hi]

theorem freeRun_ends (g : Regions sb) (h : Shows sb s I r) {run : List Nat} (hne : run ≠ [])
    (hsame : ∀ k ∈ run, k / 32768 = run.headD 0 / 32768)
    (hlt : ∀ k ∈ run, k < sb.totalBlocks.toNat)
    (hU : ∀ s', Shows sb s' (I.clearDBits run) r → Writes s s' (bitmapBlocks sb run) → U () s') :
    (freeRun sb run).Ends s U E := by
  have ho := g.order
  have hhead : run.headD 0 < sb.totalBlocks.toNat := by
    cases run with
    | nil => exact absurd rfl hne
    | cons a rest => exact hlt a List.mem_cons_self
  unfold freeRun
  rw [Prog.ends_bind, writeBlock, if_pos (touchable_of (by omega) (by omega)), Prog.ends_change]
  refine clearBlockBits_ends run (fun k hk => ?_) fun bm hn hbit => hU _ ?_ ?_
  · show k < s.blocks.nbits
    rw [h.blockCount]
    exact hlt k hk
  · refine ⟨?_, h.inodeCount, hn.trans h.blockCount, h.inodeBit, fun i hi => ?_, h.side⟩
    · rw [← h.image]
      exact Image.of_clearRun g run s.disk fun k hk => ⟨hsame k hk, hlt k hk⟩
    · show bm.bit i = (I.dbit i && decide (i ∉ run))
      rw [hbit i, ← h.blockBit i hi]
      rfl
  · have hS : bitmapBlocks sb run = {sb.dataBitmapStart.toNat + run.headD 0 / 32768} := by
      ext B
      simp only [bitmapBlocks, Set.mem_ofPred_eq, Set.mem_singleton_iff]
      constructor
      · rintro ⟨k, hk, rfl⟩
        rw [hsame k hk]
      · rintro rfl
        cases run with
        | nil => exact absurd rfl hne
        | cons a rest => exact ⟨a, List.mem_cons_self, rfl⟩
    rw [hS]
    exact .of_put rfl rfl

theorem freeRuns_ends (g : Regions sb) (h : Shows sb s I r) (runs : List (List Nat))
    (hruns : ∀ run ∈ runs, run ≠ [] ∧ (∀ k ∈ run, k / 32768 = run.headD 0 / 32768) ∧
      ∀ k ∈ run, k < sb.totalBlocks.toNat)
    (hU : ∀ s', Shows sb s' (I.clearDBits runs.flatten) r →
      Writes s s' (bitmapBlocks sb runs.flatten) → U () s') :
    (runs.forM (freeRun sb)).Ends s U E := by
  induction runs generalizing s I with
  | nil =>
    refine hU s (h.congr ?_) ?_
    · simp [Image.clearDBits]
    · rw [List.flatten_nil, bitmapBlocks_nil]
      exact .refl s
  | cons run rest ih =>
    obtain ⟨hne, hsame, hlt⟩ := hruns run List.mem_cons_self
    rw [List.forM, Prog.ends_bind]
    refine freeRun_ends g h hne hsame hlt fun s' hs' hw => ?_
    refine ih hs' (fun run' h' => hruns run' (List.mem_cons_of_mem _ h')) fun s'' hs'' hw' => ?_
    refine hU s'' (hs''.congr ?_) ((hw.trans hw').congr (bitmapBlocks_append sb _ _).symm)
    simp only [Image.clearDBits, Image.mk.injEq, true_and, and_true]
    funext B
    by_cases hB : B ∈ run <;> simp [hB]

/-- What the check of `free_blocks` lets through: a sorted list of distinct marked data blocks. -/
theorem freeable_iff (sb : Superblock) (bm : Bitmap) {L : List Nat} (hs : L.Pairwise (· ≤ ·)) :
    freeable sb bm L = true ↔ L.Nodup ∧
      ∀ b ∈ L, sb.dataStart.toNat ≤ b ∧ b < sb.totalBlocks.toNat ∧ bm.isSet b = some true := by
  induction L with
  | nil => simp [freeable]
  | cons b rest ih =>
    obtain ⟨hle, hrest⟩ := List.pairwise_cons.mp hs
    -- in a sorted list it is enough to compare neighbours
    have hhead : rest.head? = some b ↔ b ∈ rest := by
      constructor
      · exact List.mem_of_head?
      · intro hb
        cases rest with
        | nil => exact absurd hb (List.not_mem_nil)
        | cons c tail =>
          have h1 := hle c List.mem_cons_self
          rcases List.mem_cons.mp hb with rfl | hb
          · rfl
          · have h2 := (List.pairwise_cons.mp hrest).1 b hb
            rw [List.head?_cons, show c = b by omega]
    have hns : (bm.isSet b != some true) = true ↔ ¬ bm.isSet b = some true := bne_iff_ne
    rw [freeable, Bool.and_eq_true, ih hrest, List.nodup_cons, List.forall_mem_cons,
      Bool.not_eq_true',
      ← Bool.not_eq_true, Bool.or_eq_true, Bool.or_eq_true, Bool.or_eq_true, beq_iff_eq, hhead, hns,
      decide_eq_true_eq, decide_eq_true_eq]
    constructor
    · rintro ⟨hn, hnd, hall⟩
      refine ⟨⟨fun hm => hn (.inl (.inl (.inl hm))), hnd⟩, ⟨?_, ?_, ?_⟩, hall⟩
      · by_contra hc
        exact hn (.inl (.inl (.inr (by omega))))
      · by_contra hc
        exact hn (.inl (.inr (by omega)))
      · by_contra hc
        exact hn (.inr hc)
    · rintro ⟨⟨hm, hnd⟩, ⟨h1, h2, h3⟩, hall⟩
      refine ⟨?_, hnd, hall⟩
      rintro (((hc | hc) | hc) | hc)
      · exact hm hc
      · omega
      · omega
      · exact hc h3

theorem eq_head_of_isChain {f : Nat → Nat} {a : Nat} {l : List Nat}
    (h : (a :: l).IsChain fun x y => (f x == f y) = true) : ∀ k ∈ a :: l, f k = f a := by
  induction l generalizing a with
  | nil =>
    intro k hk
    rw [List.mem_singleton.mp hk]
  | cons b rest ih =>
    rw [List.isChain_cons_cons] at h
    intro k hk
    rcases List.mem_cons.mp hk with rfl | hk
    · rfl
    · rw [ih h.2 k hk, ← beq_iff_eq.mp h.1]

/-- `free_blocks` clears the bits of a list of distinct marked blocks, and refuses every other
    list. -/
theorem freeBlocks_any (g : Regions sb) (h : Shows sb s I r) {L : List Nat}
    (hok : L.Nodup → (∀ b ∈ L, sb.dataStart.toNat ≤ b ∧ b < sb.totalBlocks.toNat ∧
    I.dbit b = true) →
      ∀ s', Shows sb s' (I.clearDBits L) r → Writes s s' (bitmapBlocks sb L) → U () s')
    (hbad : ¬ (L.Nodup ∧
      ∀ b ∈ L, sb.dataStart.toNat ≤ b ∧ b < sb.totalBlocks.toNat ∧ I.dbit b = true) →
      E (.fsError .eio) s) :
    (freeBlocks sb L).Ends s U E := by
  have hperm := List.perm_insertionSort (· ≤ ·) L
  have hbits : (∀ b ∈ L.insertionSort (· ≤ ·), sb.dataStart.toNat ≤ b ∧ b < sb.totalBlocks.toNat ∧
      s.blocks.isSet b = some true) ↔
      ∀ b ∈ L, sb.dataStart.toNat ≤ b ∧ b < sb.totalBlocks.toNat ∧ I.dbit b = true := by
    constructor
    · intro hall b hb
      obtain ⟨h1, h2, h3⟩ := hall b (hperm.mem_iff.mpr hb)
      rw [Bitmap.isSet_of_lt (by rw [h.blockCount]; exact h2), h.blockBit b h2] at h3
      exact ⟨h1, h2, Option.some.inj h3⟩
    · intro hall b hb
      obtain ⟨h1, h2, h3⟩ := hall b (hperm.mem_iff.mp hb)
      rw [Bitmap.isSet_of_lt (by rw [h.blockCount]; exact h2), h.blockBit b h2, h3]
      exact ⟨h1, h2, rfl⟩
  have hiff := freeable_iff sb s.blocks (List.pairwise_insertionSort (· ≤ ·) L)
  rw [hperm.nodup_iff, hbits] at hiff
  unfold freeBlocks
  simp only [Prog.ends_bind, Prog.ends_view]
  by_cases hfree : freeable sb s.blocks (L.insertionSort (· ≤ ·)) = true
  · obtain ⟨hnd, hrange⟩ := hiff.mp hfree
    simp only [hfree, Bool.not_true, Bool.false_eq_true, if_false]
    have hflat := List.flatten_splitBy (fun a b : Nat => a / 32768 == b / 32768)
      (L.insertionSort (· ≤ ·))
    refine freeRuns_ends g h _ (fun run hrun => ⟨List.ne_nil_of_mem_splitBy hrun, ?_, ?_⟩)
      fun s' hs' hw => hok hnd hrange s' (hs'.congr ?_) (hw.congr ?_)
    · have hchain := List.isChain_of_mem_splitBy hrun
      cases run with
      | nil => intros; contradiction
      | cons a rest => exact eq_head_of_isChain (f := (· / 32768)) hchain
    · intro k hk
      have hmem : k ∈ L.insertionSort (· ≤ ·) := by
        rw [← hflat]
        exact List.mem_flatten.mpr ⟨run, hrun, hk⟩
      exact (hrange k (hperm.mem_iff.mp hmem)).2.1
    · rw [hflat]
      simp only [Image.clearDBits, hperm.mem_iff]
    · rw [hflat]
      simp only [bitmapBlocks, hperm.mem_iff]
  · have hf : freeable sb s.blocks (L.insertionSort (· ≤ ·)) = false := by
      rw [← Bool.not_eq_true]
      exact hfree
    simp only [hf, Bool.not_false, if_true, Prog.ends_bind, throwErrno_ends]
    exact hbad fun hm => hfree (hiff.mpr hm)

/-- `free_blocks` of distinct marked blocks clears their bits. -/
theorem freeBlocks_ends (g : Regions sb) (h : Shows sb s I r) {L : List Nat} (hnd : L.Nodup)
    (hrange : ∀ b ∈ L, sb.dataStart.toNat ≤ b ∧ b < sb.totalBlocks.toNat ∧ I.dbit b = true)
    (hU : ∀ s', Shows sb s' (I.clearDBits L) r → U () s') :
    (freeBlocks sb L).Ends s U E :=
  freeBlocks_any g h (fun _ _ s' hs' _ => hU s' hs') fun hn => absurd ⟨hnd, hrange⟩ hn

end Rules

end ConcurrentFs
