/-
  ConcurrentFs.LayOut

  Images laid out on a disk: the blocks of each region put together out of what
  they stand for.  Every image that fits the regions is the image of a disk
  (`image_layOut`), so that an image can be described by its bits, inodes and
  data blocks alone.
-/
import ConcurrentFs.Ownership

namespace ConcurrentFs

open Lib

/-- A block of pointers. -/
def ptrBlock (f : Nat → UInt32) : Block := Codec.array 1024 Codec.u32 fun i => f i.val

/-- A block of directory slots. -/
def slotBlock (f : Nat → DirEntry) : Block := Codec.array 64 DirEntry.codec fun i => f i.val

/-- A block of the inode table. -/
def tableBlock (f : Nat → Inode) : Block := Codec.array 32 Inode.codec fun i => f i.val

/-- A block of a bitmap. -/
def bitBlock (f : Nat → Bool) : Block := fun i =>
  UInt8.ofNat (Nat.ofBits fun k : Fin 8 => f (8 * i.val + k.val))

@[simp] theorem ptrAt_ptrBlock (f : Nat → UInt32) {i : Nat} (hi : i < 1024) :
    ptrAt (ptrBlock f) i = f i := by
  unfold ptrAt ptrBlock
  rw [Codec.array_slice Codec.u32 _ hi, Equiv.symm_apply_apply]

@[simp] theorem slotAt_slotBlock (f : Nat → DirEntry) {i : Nat} (hi : i < 64) :
    slotAt (slotBlock f) i = f i := by
  unfold slotAt slotBlock
  rw [Codec.array_slice DirEntry.codec _ hi, Equiv.symm_apply_apply]

@[simp] theorem inodeIn_tableBlock (f : Nat → Inode) {i : Nat} (hi : i < 32) :
    inodeIn (tableBlock f) i = f i := by
  unfold inodeIn tableBlock
  rw [Codec.array_slice Inode.codec _ hi, Equiv.symm_apply_apply]

@[simp] theorem bitAt_bitBlock (f : Nat → Bool) {i : Nat} (hi : i < 32768) :
    bitAt (bitBlock f) i = f i := by
  have hlt : Nat.ofBits (fun k : Fin 8 => f (8 * (i / 8) + k.val)) < 2 ^ 8 :=
    Nat.ofBits_lt_two_pow _
  unfold bitAt bitBlock
  rw [Bytes.get_of_lt _ (by omega), UInt8.toNat_ofNat_of_lt' hlt,
    Nat.testBit_ofBits_lt _ _ (Nat.mod_lt _ (by omega))]
  exact congrArg f (by dsimp only; omega)

/-- Nothing stands past the end of its region. -/
structure Image.Fits (sb : Superblock) (I : Image) : Prop where
  ibit : ∀ i, 32768 * (sb.dataBitmapStart.toNat - 1) ≤ i → I.ibit i = false
  dbit : ∀ i, 32768 * (sb.inodeTableStart.toNat - sb.dataBitmapStart.toNat) ≤ i → I.dbit i = false
  inode : ∀ x, sb.inodeCount.toNat ≤ x → I.inode x = .zero
  blk : ∀ b, b < sb.dataStart.toNat → I.blk b = Bytes.zero 4096

/-- The disk that holds an image. -/
def layOut (sb : Superblock) (I : Image) (b : Nat) : Block :=
  if b = 0 then I.super
  else if b < sb.dataBitmapStart.toNat then bitBlock fun i => I.ibit (32768 * (b - 1) + i)
  else if b < sb.inodeTableStart.toNat then
    bitBlock fun i => I.dbit (32768 * (b - sb.dataBitmapStart.toNat) + i)
  else if b < sb.dataStart.toNat then
    tableBlock fun i => I.inode (32 * (b - sb.inodeTableStart.toNat) + i)
  else I.blk b

section

variable {sb : Superblock} (g : Regions sb)
include g

theorem layOut_data (I : Image) {b : Nat} (hb : sb.dataStart.toNat ≤ b) :
    layOut sb I b = I.blk b := by
  have ho := g.order
  unfold layOut
  rw [if_neg (by omega), if_neg (by omega), if_neg (by omega), if_neg (by omega)]

theorem layOut_ibit (I : Image) {i : Nat} (hi : i < 32768 * (sb.dataBitmapStart.toNat - 1)) :
    bitAt (layOut sb I (1 + i / 32768)) (i % 32768) = I.ibit i := by
  have ho := g.order
  unfold layOut
  rw [if_neg (by omega), if_pos (by omega), bitAt_bitBlock _ (Nat.mod_lt _ (by omega))]
  exact congrArg I.ibit (by omega)

theorem layOut_dbit (I : Image) {i : Nat}
    (hi : i < 32768 * (sb.inodeTableStart.toNat - sb.dataBitmapStart.toNat)) :
    bitAt (layOut sb I (sb.dataBitmapStart.toNat + i / 32768)) (i % 32768) = I.dbit i := by
  have ho := g.order
  unfold layOut
  rw [if_neg (by omega), if_neg (by omega), if_pos (by omega),
    bitAt_bitBlock _ (Nat.mod_lt _ (by omega))]
  exact congrArg I.dbit (by omega)

theorem layOut_inode (I : Image) {x : Nat} (hx : x < sb.inodeCount.toNat) :
    inodeIn (layOut sb I (inodeBlock sb x)) (x % 32) = I.inode x := by
  have ho := g.order
  unfold layOut inodeBlock
  rw [if_neg (by omega), if_neg (by omega), if_neg (by omega), if_pos (by omega),
    inodeIn_tableBlock _ (Nat.mod_lt _ (by omega))]
  exact congrArg I.inode (by omega)

/-- It holds that image. -/
theorem image_layOut {I : Image} (h : I.Fits sb) : Image.of sb (layOut sb I) = I := by
  have ho := g.order
  ext1
  · rfl
  · funext i
    show (decide (i < 32768 * (sb.dataBitmapStart.toNat - 1)) && _) = _
    by_cases hi : i < 32768 * (sb.dataBitmapStart.toNat - 1)
    · rw [decide_eq_true hi, Bool.true_and, layOut_ibit g I hi]
    · rw [decide_eq_false hi, Bool.false_and, h.ibit i (by omega)]
  · funext i
    show (decide (i < 32768 * (sb.inodeTableStart.toNat - sb.dataBitmapStart.toNat)) && _) = _
    by_cases hi : i < 32768 * (sb.inodeTableStart.toNat - sb.dataBitmapStart.toNat)
    · rw [decide_eq_true hi, Bool.true_and, layOut_dbit g I hi]
    · rw [decide_eq_false hi, Bool.false_and, h.dbit i (by omega)]
  · funext x
    show (if x < sb.inodeCount.toNat then _ else _) = _
    by_cases hx : x < sb.inodeCount.toNat
    · rw [if_pos hx, layOut_inode g I hx]
    · rw [if_neg hx, h.inode x (by omega)]
  · funext b
    show (if sb.dataStart.toNat ≤ b then _ else _) = _
    by_cases hb : sb.dataStart.toNat ≤ b
    · rw [if_pos hb, layOut_data g I hb]
    · rw [if_neg hb, h.blk b (by omega)]

end

/-- The pointers of an inode whose blocks have been put where `place` says. -/
theorem ptr_placed {blk : Nat → Block} {ino : Inode} {place : Pos → Nat}
    (hroot : ∀ p, p.parent = none → ptr blk ino p = place p)
    (hchild : ∀ p q k, p.parent = some (q, k) →
      if place q = 0 then place p = 0 else (ptrAt (blk (place q)) k).toNat = place p) (p : Pos) :
    ptr blk ino p = place p := by
  refine forall_pos (Q := fun p => ptr blk ino p = place p) hroot (fun p q k hp hq => ?_) p
  have h := hchild p q k hp
  rw [ptr_of_parent hp, hq]
  by_cases h0 : place q = 0
  · rw [if_pos h0] at h ⊢
    exact h.symm
  · rw [if_neg h0] at h ⊢
    exact h

end ConcurrentFs
