/-
  ConcurrentFs.LayoutPlan

  `planLayout` and `validateSuperblock` agree for every disk.  Whatever numbers the
  planner is given, it throws or lays the regions out end to end, with room in each
  for all it has to hold; planning again from the inode count it settled on gives
  the same superblock; and the validator accepts exactly what the planner makes.
-/
import ConcurrentFs.Image

namespace ConcurrentFs

open Lib

/-! ## What is planned -/

/-- The number of inodes `plan_layout` works with. -/
def plannedInodes (totalBlocks inodeCount : UInt32) : Nat :=
  roundedInodes (if inodeCount ≠ 0 then inodeCount.toNat else totalBlocks.toNat / blocksPerInode)

/-- `data_start`, before the cast: how many blocks the metadata takes. -/
def metadataBlocks (totalBlocks : UInt32) (inodes : Nat) : Nat :=
  1 + blocksFor inodes + blocksFor totalBlocks.toNat + inodes / 32

/-- The superblock for so many blocks and inodes. -/
def layoutOf (totalBlocks : UInt32) (inodes : Nat) : Superblock where
  magic := magicNumber
  blockSize := 4096
  totalBlocks := totalBlocks
  inodeCount := UInt32.ofNat inodes
  inodeBitmapStart := 1
  dataBitmapStart := UInt32.ofNat (1 + blocksFor inodes)
  inodeTableStart := UInt32.ofNat (1 + blocksFor inodes + blocksFor totalBlocks.toNat)
  dataStart := UInt32.ofNat (metadataBlocks totalBlocks inodes)
  rootInode := UInt32.ofNat rootInode
  cleanUnmount := 1
  lastCheckpointLsn := 0

theorem le_roundedInodes (n : Nat) : n ≤ roundedInodes n := by
  unfold roundedInodes
  split <;> omega

theorem roundedInodes_le (n : Nat) : roundedInodes n ≤ n + 32 := by
  unfold roundedInodes
  split <;> omega

/-- Whole blocks of inodes stay as they are. -/
theorem roundedInodes_of_whole {n : Nat} (h : n % 32 = 0) (h0 : 32 ≤ n) : roundedInodes n = n := by
  unfold roundedInodes
  split <;> omega

theorem plannedInodes_spec (total count : UInt32) :
    plannedInodes total count % 32 = 0 ∧ 32 ≤ plannedInodes total count :=
  roundedInodes_spec _

theorem le_plannedInodes (total count : UInt32) : count.toNat ≤ plannedInodes total count := by
  have h := le_roundedInodes (if count ≠ 0 then count.toNat else total.toNat / blocksPerInode)
  by_cases hc : count = 0
  · rw [hc]
    exact Nat.zero_le _
  · rw [if_pos hc] at h
    rw [plannedInodes, if_pos hc]
    exact h

theorem plannedInodes_lt (total count : UInt32) : plannedInodes total count < 2 ^ 33 := by
  have h := roundedInodes_le (if count ≠ 0 then count.toNat else total.toNat / blocksPerInode)
  have hc := count.toNat_lt
  have ht := total.toNat_lt
  have hd := Nat.div_le_self total.toNat blocksPerInode
  have hasked : (if count ≠ 0 then count.toNat else total.toNat / blocksPerInode) < 2 ^ 32 := by
    split <;> omega
  unfold plannedInodes
  omega

/-- When the planner does not throw, and what it returns then. -/
theorem planLayout_eq_ok_iff {total count : UInt32} {sb : Superblock} :
    planLayout total count = .ok sb ↔
      plannedInodes total count ≤ 4294967295 ∧
      metadataBlocks total (plannedInodes total count) < total.toNat ∧
      sb = layoutOf total (plannedInodes total count) := by
  unfold planLayout
  simp only
  rw [← roundedInodes, ← plannedInodes]
  generalize plannedInodes total count = inodes
  by_cases hmax : inodes > 4294967295
  · rw [if_pos hmax]
    constructor
    · intro h
      cases h
    · rintro ⟨h, -⟩
      omega
  · rw [if_neg hmax]
    by_cases hroom : 1 + blocksFor inodes + blocksFor total.toNat + inodes / 32 ≥ total.toNat
    · rw [if_pos hroom]
      constructor
      · intro h
        cases h
      · rintro ⟨-, h, -⟩
        unfold metadataBlocks at h
        omega
    · rw [if_neg hroom, Except.ok.injEq]
      constructor
      · intro h
        exact ⟨by omega, by unfold metadataBlocks; omega, h.symm⟩
      · rintro ⟨-, -, rfl⟩
        rfl

/-! ## Where things live -/

/-- `inode_offset`. -/
def inodeOffset (id : Nat) : Nat := id % 32 * 128

/-- The first byte on the disk of inode `id`. -/
def inodeByte (sb : Superblock) (id : Nat) : Nat := 4096 * inodeBlock sb id + inodeOffset id

/-- A superblock in which every region has the place and the room it needs. -/
structure LaidOut (sb : Superblock) (inodeCount : UInt32) : Prop where
  /-- The regions follow each other and none is empty. -/
  regions : sb.inodeBitmapStart.toNat = 1 ∧
    sb.inodeBitmapStart.toNat < sb.dataBitmapStart.toNat ∧
    sb.dataBitmapStart.toNat < sb.inodeTableStart.toNat ∧
    sb.inodeTableStart.toNat < sb.dataStart.toNat ∧ sb.dataStart.toNat < sb.totalBlocks.toNat
  /-- Whole blocks of inodes, at least as many as asked for. -/
  inodes : 0 < sb.inodeCount.toNat ∧ 32 ∣ sb.inodeCount.toNat ∧
    inodeCount.toNat ≤ sb.inodeCount.toNat
  /-- The bytes of an inode are in the inode table. -/
  inTable : ∀ id < sb.inodeCount.toNat, 4096 * sb.inodeTableStart.toNat ≤ inodeByte sb id ∧
    inodeByte sb id + 128 ≤ 4096 * sb.dataStart.toNat
  /-- No two inodes share a byte. -/
  apart : ∀ id id' : Nat, id ≠ id' →
    inodeByte sb id + 128 ≤ inodeByte sb id' ∨ inodeByte sb id' + 128 ≤ inodeByte sb id
  /-- Every inode has its bit in the inode bitmap. -/
  inodeBits : ∀ id < sb.inodeCount.toNat,
    sb.inodeBitmapStart.toNat + id / 32768 < sb.dataBitmapStart.toNat
  /-- Every block of the disk has its bit in the data bitmap. -/
  dataBits : ∀ b < sb.totalBlocks.toNat,
    sb.dataBitmapStart.toNat + b / 32768 < sb.inodeTableStart.toNat
  /-- None of these addresses wraps in 32 bits. -/
  inodeAddress : ∀ id : UInt32, id < sb.inodeCount →
    (sb.inodeTableStart + id / 32).toNat = inodeBlock sb id.toNat ∧
    (id % 32 * 128).toNat = inodeOffset id.toNat ∧
    (sb.inodeBitmapStart + id / 32768).toNat = sb.inodeBitmapStart.toNat + id.toNat / 32768
  dataAddress : ∀ b : UInt32, b < sb.totalBlocks →
    (sb.dataBitmapStart + b / 32768).toNat = sb.dataBitmapStart.toNat + b.toNat / 32768

/-- A sum of words that stays inside the disk is the sum of the numbers. -/
theorem toNat_add_of_lt {a b c : UInt32} (h : a.toNat + b.toNat < c.toNat) :
    (a + b).toNat = a.toNat + b.toNat := by
  have := c.toNat_lt
  rw [UInt32.toNat_add, Nat.mod_eq_of_lt (by omega)]

theorem laidOut_of_regions {sb : Superblock} (g : Regions sb) {inodeCount : UInt32}
    (hc : inodeCount.toNat ≤ sb.inodeCount.toNat) : LaidOut sb inodeCount := by
  obtain ⟨h1, h2, h3, h4, h5, h6, h7, h8, -, -⟩ := g.order
  have hsome := g.some
  have hwhole := g.whole
  have hbits : ∀ id < sb.inodeCount.toNat,
      sb.inodeBitmapStart.toNat + id / 32768 < sb.dataBitmapStart.toNat := by
    intro id hid
    omega
  have hdata : ∀ b < sb.totalBlocks.toNat,
      sb.dataBitmapStart.toNat + b / 32768 < sb.inodeTableStart.toNat := by
    intro b hb
    omega
  have hblock : ∀ id < sb.inodeCount.toNat, inodeBlock sb id < sb.dataStart.toNat := by
    intro id hid
    unfold inodeBlock
    omega
  refine ⟨⟨h1, by omega, h3, h4, h5⟩, ⟨by omega, by omega, hc⟩, ?_, ?_, hbits, hdata, ?_, ?_⟩
  · intro id hid
    have := hblock id hid
    unfold inodeByte inodeOffset inodeBlock at *
    omega
  · intro id id' hne
    -- either they are in different blocks of the table, or in different places of one
    unfold inodeByte inodeOffset inodeBlock
    omega
  · intro id hid
    have hid' := UInt32.lt_iff_toNat_lt.mp hid
    have h32 : (id / 32).toNat = id.toNat / 32 := UInt32.toNat_div id 32
    have h32768 : (id / 32768).toNat = id.toNat / 32768 := UInt32.toNat_div id 32768
    refine ⟨?_, ?_, ?_⟩
    · have := hblock id.toNat hid'
      unfold inodeBlock at this ⊢
      rw [toNat_add_of_lt (c := sb.dataStart) (by omega), h32]
    · have hm : (id % 32).toNat = id.toNat % 32 := UInt32.toNat_mod id 32
      rw [UInt32.toNat_mul, hm, show (128 : UInt32).toNat = 128 from rfl, inodeOffset]
      omega
    · have := hbits id.toNat hid'
      rw [toNat_add_of_lt (c := sb.dataBitmapStart) (by omega), h32768]
  · intro b hb
    have hb' := UInt32.lt_iff_toNat_lt.mp hb
    have h32768 : (b / 32768).toNat = b.toNat / 32768 := UInt32.toNat_div b 32768
    have := hdata b.toNat hb'
    rw [toNat_add_of_lt (c := sb.inodeTableStart) (by omega), h32768]

/-! ## Planner and validator -/

theorem toNat_inodeCount_of_plan {total count : UInt32} {sb : Superblock}
    (h : planLayout total count = .ok sb) : sb.inodeCount.toNat = plannedInodes total count := by
  obtain ⟨hmax, -, rfl⟩ := planLayout_eq_ok_iff.mp h
  exact UInt32.toNat_ofNat_of_lt' (by simp only [UInt32.size]; omega)

/-- Planning again from the inode count settled on gives the same superblock. -/
theorem planLayout_again {total count : UInt32} {sb : Superblock}
    (h : planLayout total count = .ok sb) : planLayout total sb.inodeCount = .ok sb := by
  have hn := toNat_inodeCount_of_plan h
  obtain ⟨hmod, hle⟩ := plannedInodes_spec total count
  have h0 : sb.inodeCount ≠ 0 := by
    intro h0
    rw [h0] at hn
    exact absurd (hn.trans_ge hle) (by decide)
  have hagain : plannedInodes total sb.inodeCount = plannedInodes total count := by
    rw [plannedInodes, if_pos h0, hn, roundedInodes_of_whole hmod hle]
  rw [planLayout_eq_ok_iff] at h ⊢
  rw [hagain]
  exact h

/-- The format and region fields of two superblocks agree: all but the unmount flag and the
    checkpoint. -/
def SameLayout (sb want : Superblock) : Prop :=
  sb = { want with
    cleanUnmount := sb.cleanUnmount
    lastCheckpointLsn := sb.lastCheckpointLsn }

theorem validateSuperblock_iff {sb : Superblock} {n : UInt32} :
    validateSuperblock sb n = .ok () ↔
      sb.totalBlocks = n ∧ ∃ i want, planLayout n i = .ok want ∧ SameLayout sb want := by
  rw [validateSuperblock_eq_ok]
  constructor
  · rintro ⟨hm, hs, ht, hr, want, hplan, h1, h2, h3, h4, h5⟩
    refine ⟨ht, sb.inodeCount, want, ht ▸ hplan, ?_⟩
    obtain ⟨-, -, hw⟩ := planLayout_eq_ok_iff.mp hplan
    have hwm : want.magic = magicNumber := by rw [hw]; rfl
    have hws : want.blockSize = 4096 := by rw [hw]; rfl
    have hwt : want.totalBlocks = sb.totalBlocks := by rw [hw]; rfl
    have hwr : want.rootInode = UInt32.ofNat rootInode := by rw [hw]; rfl
    cases sb
    cases want
    simp_all [SameLayout]
  · rintro ⟨ht, i, want, hplan, hsame⟩
    have hagain := planLayout_again hplan
    obtain ⟨-, -, hw⟩ := planLayout_eq_ok_iff.mp hplan
    rw [SameLayout] at hsame
    have hc : sb.inodeCount = want.inodeCount := by rw [hsame]
    refine ⟨?_, ?_, ht, ?_, want, ?_, hc, ?_, ?_, ?_, ?_⟩
    · rw [hsame, hw]
      rfl
    · rw [hsame, hw]
      rfl
    · rw [hsame, hw]
      rfl
    · rw [ht, hc]
      exact hagain
    all_goals rw [hsame]

/-- For any 32-bit numbers the planner throws, without an overflow in its 64-bit arithmetic, or
    lays the disk out with no cast losing anything; and planner and validator agree. -/
theorem planLayout_validate_agree :
    (∀ total count : UInt32, plannedInodes total count + 32 < 2 ^ 64 ∧
      metadataBlocks total (plannedInodes total count) < 2 ^ 64 ∧
      (∀ nbits : UInt32, blocksFor nbits.toNat < 2 ^ 32) ∧
      ∀ sb, planLayout total count = .ok sb →
        LaidOut sb count ∧ sb.totalBlocks = total ∧
        sb.inodeCount.toNat = plannedInodes total count ∧
        sb.dataStart.toNat = metadataBlocks total (plannedInodes total count) ∧
        planLayout total sb.inodeCount = .ok sb) ∧
    ∀ (sb : Superblock) (n : UInt32), validateSuperblock sb n = .ok () ↔
      sb.totalBlocks = n ∧ ∃ i want, planLayout n i = .ok want ∧ SameLayout sb want := by
  refine ⟨?_, fun sb n => validateSuperblock_iff⟩
  intro total count
  have hlt := plannedInodes_lt total count
  have ht := total.toNat_lt
  refine ⟨by omega, ?_, ?_, ?_⟩
  · unfold metadataBlocks blocksFor
    omega
  · intro nbits
    have := nbits.toNat_lt
    unfold blocksFor
    omega
  · intro sb h
    have hn := toNat_inodeCount_of_plan h
    refine ⟨laidOut_of_regions (regions_of_planLayout h) ?_, ?_, hn, ?_, planLayout_again h⟩
    · rw [hn]
      exact le_plannedInodes total count
    · obtain ⟨-, -, rfl⟩ := planLayout_eq_ok_iff.mp h
      rfl
    · obtain ⟨-, hroom, rfl⟩ := planLayout_eq_ok_iff.mp h
      exact UInt32.toNat_ofNat_of_lt' (by simp only [UInt32.size]; omega)

/-- The planner on a disk of 64 blocks, inode count left to it. -/
theorem planLayout_validate_agree_small : LaidOut smallLayout 0 ∧
    planLayout 64 smallLayout.inodeCount = .ok smallLayout :=
  have h := (planLayout_validate_agree.1 64 0).2.2.2 smallLayout (by decide)
  ⟨h.1, h.2.2.2.2⟩

end ConcurrentFs
