/-
  ConcurrentFs.Contents

  What the blocks of a file hold.  `cont` is the contents of one file block, zeros
  where there is a hole, and this module says how the operations of the block map
  change it: growing a file changes the contents of nothing, and writing the block
  that `bmap_alloc` found changes that file block and no other, of any file.
-/
import ConcurrentFs.BlockMapSpec

namespace ConcurrentFs

open Lib

/-- The contents of file block `i`; a hole reads as zeros. -/
def cont (blk : Nat → Block) (ino : Inode) (i : Nat) : Block :=
  if bmap blk ino i = 0 then Bytes.zero 4096 else blk (bmap blk ino i)

section Cont

variable {blk blk' : Nat → Block} {ino ino' : Inode} {i : Nat}

theorem cont_hole (h : bmap blk ino i = 0) : cont blk ino i = Bytes.zero 4096 := if_pos h

theorem cont_block (h : bmap blk ino i ≠ 0) : cont blk ino i = blk (bmap blk ino i) := if_neg h

/-- Contents depend on where the block lies and on what is there. -/
theorem cont_congr (hb : bmap blk' ino' i = bmap blk ino i)
    (hc : bmap blk ino i ≠ 0 → blk' (bmap blk ino i) = blk (bmap blk ino i)) :
    cont blk' ino' i = cont blk ino i := by
  unfold cont
  rw [hb]
  split
  · rfl
  · exact hc ‹_›

/-- Contents depend on the pointers of the inode only. -/
theorem cont_of_ptr (h : ptr blk ino' = ptr blk ino) : cont blk ino' = cont blk ino := by
  funext i
  exact cont_congr (congrFun h (.data i)) fun _ => rfl

end Cont

section Write

variable {sb : Superblock} {I I' : Image} {V : Nat → Inode} {X : Set Nat}

/-- Writing a block that is spare changes the contents of no file. -/
theorem Own.cont_putBlk_spare (ho : Own sb I V X) {b : Nat} (hb : b ∈ X) (data : Block)
    (y i : Nat) : cont (I.putBlk b data).blk (V y) i = cont I.blk (V y) i := by
  have hptr := Own.ptr_putBlk I V b data (fun z q _ => ho.spare b hb z q) y (.data i)
  exact cont_congr hptr fun _ => Function.update_of_ne (ho.spare b hb y (.data i)) _ _

/-- Writing a data block changes the contents of one file block. -/
theorem Own.cont_putBlk (ho : Own sb I V X) {x i : Nat} (h0 : bmap I.blk (V x) i ≠ 0)
    (data : Block) (y j : Nat) :
    cont (I.putBlk (bmap I.blk (V x) i) data).blk (V y) j
      = if y = x ∧ j = i then data else cont I.blk (V y) j := by
  have hptr := Own.ptr_putBlk I V (bmap I.blk (V x) i) data
    (fun z q => ho.data_ne h0 z q) y (.data j)
  have hb : bmap (I.putBlk (bmap I.blk (V x) i) data).blk (V y) j = bmap I.blk (V y) j := hptr
  by_cases hyj : y = x ∧ j = i
  · rw [if_pos hyj]
    rw [hyj.1, hyj.2] at hb ⊢
    rw [cont_block (by rw [hb]; exact h0), hb]
    exact Function.update_self _ _ _
  · rw [if_neg hyj]
    refine cont_congr hb fun hne => Function.update_of_ne (fun heq => hyj ?_) _ _
    have := ho.once y (.data j) x (.data i) hne heq
    exact ⟨this.1, Pos.data.inj this.2⟩

namespace Grew

variable {x index : Nat} {m : Mapped}

/-- `bmap_alloc` changes no data block of another inode. -/
theorem cont_other (hg : Grew I V x index I' m) (ho' : Own sb I' (Function.update V x m.ino) X)
    {y : Nat} (hy : y ≠ x) (i : Nat) : cont I'.blk (V y) i = cont I.blk (V y) i := by
  refine cont_congr (hg.frame y hy (.data i)) fun h0 => ?_
  by_contra hne
  obtain ⟨q, hq, hqB⟩ := hg.touched _ hne
  have hyi : ptr I'.blk (Function.update V x m.ino y) (.data i) = bmap I.blk (V y) i := by
    rw [Function.update_of_ne hy]
    exact hg.frame y hy (.data i)
  have hxq : ptr I'.blk (Function.update V x m.ino x) q = bmap I.blk (V y) i := by
    rw [Function.update_self]
    exact hqB
  exact hy (ho'.once y (.data i) x q (by rw [hyi]; exact h0) (hyi.trans hxq.symm)).1

/-- Nor one of the inode's own other blocks. -/
theorem cont_same (hg : Grew I V x index I' m) (ho' : Own sb I' (Function.update V x m.ino) X)
    {i : Nat} (hi : i ≠ index) : cont I'.blk m.ino i = cont I.blk (V x) i := by
  refine cont_congr (hg.others i hi) fun h0 => ?_
  by_contra hne
  obtain ⟨q, hq, hqB⟩ := hg.touched _ hne
  have hxi : ptr I'.blk (Function.update V x m.ino x) (.data i) = bmap I.blk (V x) i := by
    rw [Function.update_self]
    exact hg.others i hi
  have hxq : ptr I'.blk (Function.update V x m.ino x) q = bmap I.blk (V x) i := by
    rw [Function.update_self]
    exact hqB
  have := (ho'.once x (.data i) x q (by rw [hxi]; exact h0) (hxi.trans hxq.symm)).2
  subst this
  cases hq

end Grew

/-- What `bmap_alloc` of file block `index` of inode `x` and a write of that block do together:
    the inode is now `ino'`, the block holds `data`, and everything else is as it was. -/
structure Wrote (I : Image) (V : Nat → Inode) (x index : Nat) (I' : Image) (ino' : Inode)
    (data : Block) : Prop where
  super : I'.super = I.super
  ibit : I'.ibit = I.ibit
  inode : I'.inode = I.inode
  same : SameMeta (V x) ino'
  block : bmap I'.blk ino' index ≠ 0
  here : cont I'.blk ino' index = data
  holes : ∀ i, i ≠ index → bmap I'.blk ino' i = bmap I.blk (V x) i
  rest : ∀ i, i ≠ index → cont I'.blk ino' i = cont I.blk (V x) i
  frame : ∀ y, y ≠ x → ∀ p, ptr I'.blk (V y) p = ptr I.blk (V y) p
  others : ∀ y, y ≠ x → ∀ i, cont I'.blk (V y) i = cont I.blk (V y) i

variable {x index : Nat} {m : Mapped}

/-- The write that follows `bmap_alloc` changes no pointer. -/
theorem Grew.ptr_wrote (hg : Grew I V x index I' m) (ho' : Own sb I' (Function.update V x m.ino) X)
    (data : Block) (y : Nat) (p : Pos) :
    ptr (I'.putBlk m.block data).blk (Function.update V x m.ino y) p
      = ptr I'.blk (Function.update V x m.ino y) p := by
  have hb : bmap I'.blk (Function.update V x m.ino x) index = m.block := by
    rw [Function.update_self]
    exact hg.block
  have h0 : bmap I'.blk (Function.update V x m.ino x) index ≠ 0 := by
    rw [hb]
    exact hg.nonzero
  exact Own.ptr_putBlk I' _ m.block data (fun z q hq => hb ▸ ho'.data_ne h0 z q hq) y p

/-- The write that follows `bmap_alloc`. -/
theorem Grew.wrote (hg : Grew I V x index I' m) (ho' : Own sb I' (Function.update V x m.ino) X)
    (data : Block) :
    Own sb (I'.putBlk m.block data) (Function.update V x m.ino) X ∧
      Wrote I V x index (I'.putBlk m.block data) m.ino data := by
  -- the block is where the new inode has file block `index`
  have hb : bmap I'.blk (Function.update V x m.ino x) index = m.block := by
    rw [Function.update_self]
    exact hg.block
  have h0 : bmap I'.blk (Function.update V x m.ino x) index ≠ 0 := by
    rw [hb]
    exact hg.nonzero
  have hptr := hg.ptr_wrote ho' data
  have hptrx : ∀ p, ptr (I'.putBlk m.block data).blk m.ino p = ptr I'.blk m.ino p := by
    intro p
    have := hptr x p
    rwa [Function.update_self] at this
  have hcont := ho'.cont_putBlk h0 data
  rw [hb] at hcont
  have hcontx : ∀ j, cont (I'.putBlk m.block data).blk m.ino j
      = if j = index then data else cont I'.blk m.ino j := by
    intro j
    have := hcont x j
    rw [Function.update_self] at this
    rw [this]
    simp
  refine ⟨ho'.putBlk _ data fun z q hq => hb ▸ ho'.data_ne h0 z q hq, ?_⟩
  refine ⟨hg.super, hg.ibit, hg.inode, hg.same, ?_, ?_, fun i hi => ?_, fun i hi => ?_,
    fun y hy p => ?_, fun y hy i => ?_⟩
  · have : bmap (I'.putBlk m.block data).blk m.ino index = m.block :=
      (hptrx (.data index)).trans hg.block
    rw [this]
    exact hg.nonzero
  · rw [hcontx, if_pos rfl]
  · exact (hptrx (.data i)).trans (hg.others i hi)
  · rw [hcontx, if_neg hi, hg.cont_same ho' hi]
  · have := hptr y p
    rw [Function.update_of_ne hy] at this
    rw [this, hg.frame y hy]
  · have := hcont y i
    rw [Function.update_of_ne hy, if_neg fun hc => hy hc.1] at this
    rw [this, hg.cont_other ho' hy]

/-- The old contents of the block to be written, as the write sees them: a new block starts from
    zeros, which is what the hole it fills read as. -/
theorem Grew.old (hg : Grew I V x index I' m) :
    (if m.fresh then Bytes.zero 4096 else I'.blk m.block) = cont I.blk (V x) index := by
  cases hf : m.fresh with
  | true => rw [cont_hole (hg.fresh hf)]; rfl
  | false =>
    obtain ⟨hI, hino⟩ := hg.stale hf
    have hb := hg.block
    rw [hI, hino] at hb
    rw [cont_block (by rw [hb]; exact hg.nonzero), hb, hI]
    rfl

end Write

end ConcurrentFs
