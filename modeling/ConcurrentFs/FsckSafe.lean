/-
  ConcurrentFs.FsckSafe

  Whether fsck is safe on any bytes.  It ends, it stays inside the device and its
  tables, and it reads a block as an inode's only while that inode is its recorded
  owner, whatever is on the device.  "Never walk anything twice", though, rests on
  32-bit counters: `manyNames` is a device with directories full of entries that
  all name the same directory, 2^32 of them and more.
-/
import ConcurrentFs.FsckRun
import ConcurrentFs.LayOut
import Mathlib.Order.Interval.Finset.Nat

namespace ConcurrentFs.Fsck

open Lib Traversal

/-! ## Safety -/

/-- The check comes to its end, with no access out of range; it has read blocks of the device only,
    an indirect or directory block only while it was recorded as the inode's, and no directory
    twice. -/
def Safe (dev : Device) (rounds : Nat) : Prop :=
  ∃ c, (fsck dev rounds).run Checker.start = some (.ok (), c) ∧
    (∀ r ∈ c.reads, r.block < dev.count.toNat) ∧
    (∀ r ∈ c.reads, ∀ id, r.use = .indirect id ∨ r.use = .directory id → id ≠ 0 ∧ r.owner = id) ∧
    c.visits.Nodup

/-- As the tables have it when the walk begins, no directory but the root is named by 2^32 entries
    or more ("." and ".." left out) of the directories that entries lead to from the root. -/
def FewNames (dev : Device) : Prop :=
  ∀ sb c, (beforeWalk dev).run Checker.start = some (.ok (some sb), c) →
    c.kind.get rootInode = .dir → ∀ x, (graph dev sb c).inner x →
    (graph dev sb c).total (Finset.range sb.inodeCount.toNat) x < 2 ^ 32

/-- All of it but that no directory is checked twice, of any device; and when that is so. -/
theorem fsck_confined (dev : Device) (hdev : dev.count ≠ 0) {rounds : Nat} (hr : 2 ^ 34 ≤ rounds) :
    ∃ c, (fsck dev rounds).run Checker.start = some (.ok (), c) ∧
      (∀ r ∈ c.reads, r.block < dev.count.toNat) ∧
      (∀ r ∈ c.reads, ∀ id, r.use = .indirect id ∨ r.use = .directory id → id ≠ 0 ∧ r.owner = id) ∧
      (c.visits.Nodup ↔ FewNames dev) := by
  obtain ⟨⟨out, c⟩, hrun, hout⟩ := Prog.ends_iff_run.mp (fsck_ends (E := fun _ _ => False) hdev hr)
  cases out with
  | error e => exact hout.elim
  | ok u =>
    refine ⟨c, hrun, ?_⟩
    dsimp only [Prog.Meets] at hout
    rcases hout with ⟨-, -, he, hbefore⟩ | ⟨sb, ps₁, n₁, c₀, c₁, -, -, -, hbefore, ht, hf, hok⟩
    · refine ⟨fun r hr => (he.reads r hr).1, fun r hr id hid => ((he.reads r hr).2 id hid).elim,
        fun _ sb c' hrun' => ?_, fun _ => ?_⟩
      · rw [hbefore] at hrun'
        cases hrun'
      · rw [he.fields]
        exact List.nodup_nil
    · have hreads : c.reads = c₁.reads := by rw [hf.fields]
      have hvisits : c.visits = c₁.visits := by rw [hf.fields]
      refine ⟨fun r hr => (hok.reads r (hreads ▸ hr)).1, fun r hr =>
        (hok.reads r (hreads ▸ hr)).2, ?_⟩
      have hv₀ : c₀.visits = [] := by
        rw [ht.fields]
        rfl
      have hfew : FewNames dev ↔ (c₀.kind.get rootInode = .dir → ∀ x, (graph dev sb c₀).inner x →
          (graph dev sb c₀).total (Finset.range sb.inodeCount.toNat) x < wrap) := by
        refine ⟨fun h => h sb c₀ hbefore, fun h sb' c' hrun' => ?_⟩
        rw [hbefore] at hrun'
        cases hrun'
        exact h
      rw [hvisits, hfew]
      rcases hf.toured with hno | ⟨hroot, hs, hw⟩
      · rw [hv₀]
        exact ⟨fun _ hc => absurd hc hno, fun _ => List.nodup_nil⟩
      · rw [hw.visits, hv₀, List.nil_append, imp_iff_right hroot]
        exact nodup_iff (by decide) hw.reached hs fun x hx => Finset.mem_range.mpr hx.1

/-- A device without a block cannot be checked. -/
theorem fsck_noBlocks {dev : Device} (hdev : dev.count = 0) (rounds : Nat) : ¬ Safe dev rounds := by
  rintro ⟨c, hrun, -⟩
  have hno := Prog.run_eq_ok.mp hrun
  unfold fsck checkSuperblock read at hno
  rw [if_neg (by rw [hdev]; decide)] at hno
  exact hno

/-- The check is safe exactly if the device has a block and no directory is named so often that its
    counter comes back to 0. -/
theorem fsck_safe_iff (dev : Device) :
    (∀ rounds, 2 ^ 34 ≤ rounds → Safe dev rounds) ↔ dev.count ≠ 0 ∧ FewNames dev := by
  constructor
  · intro h
    have hdev : dev.count ≠ 0 := fun h0 => fsck_noBlocks h0 (2 ^ 34) (h _ (le_refl _))
    obtain ⟨c, hrun, -, -, hfew⟩ := fsck_confined dev hdev (le_refl (2 ^ 34))
    obtain ⟨c', hrun', -, -, hnodup⟩ := h (2 ^ 34) (le_refl _)
    rw [hrun] at hrun'
    cases hrun'
    exact ⟨hdev, hfew.mp hnodup⟩
  · rintro ⟨hdev, hfew⟩ rounds hr
    obtain ⟨c, hrun, h1, h2, h3⟩ := fsck_confined dev hdev hr
    exact ⟨c, hrun, h1, h2, h3.mpr hfew⟩

/-! ## A directory named more often than can be counted -/

/-- The superblock of a disk of 2^28 blocks. -/
def wideLayout : Superblock where
  magic := magicNumber
  blockSize := 4096
  totalBlocks := 268435456
  inodeCount := 128
  inodeBitmapStart := 1
  dataBitmapStart := 2
  inodeTableStart := 8194
  dataStart := 8198
  rootInode := 1
  cleanUnmount := 1
  lastCheckpointLsn := 0

theorem wideLayout_valid : validateSuperblock wideLayout 268435456 = .ok () := by decide

/-- Where the blocks of inode `x` are: the 2^21 from `x * 2^21` on are its own. The root has two
    blocks; each other has the whole tree below its double-indirect block. -/
def widePlace (x : Nat) : Pos → Nat
  | .data i =>
    if x = rootInode then if i < 2 then 2097152 + i else 0
    else if 1036 ≤ i ∧ i < maxFileBlocks then x * 2097152 + 2048 + (i - 1036) else 0
  | .single => 0
  | .double => if x = rootInode then 0 else x * 2097152
  | .second j => if x ≠ rootInode ∧ j < 1024 then x * 2097152 + 1 + j else 0

theorem widePlace_root {i : Nat} (hi : i < 2) : widePlace 1 (.data i) = 2097152 + i := by
  have hr : rootInode = 1 := rfl
  simp only [widePlace, hr, if_true, if_pos hi]

theorem widePlace_data {x i : Nat} (hx : x ≠ 1) (h1 : 1036 ≤ i) (h2 : i < maxFileBlocks) :
    widePlace x (.data i) = x * 2097152 + 2048 + (i - 1036) := by
  have hr : rootInode = 1 := rfl
  simp only [widePlace, hr, if_neg hx, if_pos (And.intro h1 h2)]

/-- Its blocks. The root names inode `i` in slot `i`, and every slot of every other directory names
    inode 2. -/
def wideBlock (b : Nat) : Block :=
  let x := b / 2097152
  let r := b % 2097152
  if x = rootInode then
    slotBlock fun j => { DirEntry.zero with inodeId := UInt32.ofNat (64 * r + j) }
  else if r = 0 then ptrBlock fun j => UInt32.ofNat (b + 1 + j)
  else if r ≤ 1024 then ptrBlock fun k => UInt32.ofNat (x * 2097152 + 2048 + 1024 * (r - 1) + k)
  else slotBlock fun _ => { DirEntry.zero with inodeId := 2 }

/-- Inodes 1 to 127 are directories. -/
def wideInode (x : Nat) : Inode :=
  { Inode.zero with
    id := UInt32.ofNat x
    mode := modeDir ||| dirPerm
    linkCount := 2
    size := if x = rootInode then 8192 else 4294967296
    direct := fun i => UInt32.ofNat (widePlace x (.data i.val))
    doubleIndirect := UInt32.ofNat (widePlace x .double) }

/-- A device of 2^28 blocks with these directories. -/
def manyNames : Device where
  count := 268435456
  blocks := layOut wideLayout
    { super := superblockBlock wideLayout, ibit := fun _ => true, dbit := fun _ => false
      inode := wideInode, blk := wideBlock }

theorem manyNames_inode {x : Nat} (hx : x < 128) : inodeOn manyNames wideLayout x = wideInode x :=
  layOut_inode (regions_of_validate wideLayout_valid) _ hx

theorem manyNames_marked {x : Nat} (hx : x < 128) : marked manyNames wideLayout x = true := by
  unfold marked
  rw [Bitmap.load_bit, decide_eq_true (show x < wideLayout.inodeCount.toNat from hx), Bool.true_and]
  exact layOut_ibit (regions_of_validate wideLayout_valid) _ (show x < 32768 by omega)

theorem manyNames_blocks {b : Nat} (hb : 8198 ≤ b) : manyNames.blocks b = wideBlock b :=
  layOut_data (regions_of_validate wideLayout_valid) _ hb

theorem manyNames_kind {x : Nat} (h1 : 1 ≤ x) (hx : x < 128) :
    kindAt manyNames wideLayout x = .dir := by
  have hu : InUse manyNames wideLayout x := ⟨by omega, manyNames_marked hx⟩
  have hne : ¬ (modeDir ||| dirPerm : UInt16) = modeFile ||| filePerm := by decide
  unfold kindAt
  rw [if_pos hu, manyNames_inode hx]
  show (if (modeDir ||| dirPerm : UInt16) = modeFile ||| filePerm then _ else _) = _
  rw [if_neg hne]
  exact if_pos rfl

/-- The blocks of inode `x` lie in its own part of the device, each in a place of its own. -/
theorem widePlace_spec {x : Nat} {p : Pos} (hx : 1 ≤ x) (h0 : widePlace x p ≠ 0) :
    widePlace x p / 2097152 = x ∧ ∀ q, widePlace x q = widePlace x p → q = p := by
  have hr : rootInode = 1 := rfl
  have hb : ∀ q, widePlace x q ≠ 0 →
      (∃ i, q = .data i ∧ x = 1 ∧ i < 2 ∧ widePlace x q = 2097152 + i) ∨
      (∃ i, q = .data i ∧ x ≠ 1 ∧ 1036 ≤ i ∧ i < 1049612 ∧
        widePlace x q = x * 2097152 + 2048 + (i - 1036)) ∨
      (q = .double ∧ x ≠ 1 ∧ widePlace x q = x * 2097152) ∨
      ∃ j, q = .second j ∧ x ≠ 1 ∧ j < 1024 ∧ widePlace x q = x * 2097152 + 1 + j := by
    intro q hq
    cases q with
    | data i =>
      simp only [widePlace, hr] at hq ⊢
      by_cases h1 : x = 1
      · by_cases h2 : i < 2
        · exact .inl ⟨i, rfl, h1, h2, by rw [if_pos h1, if_pos h2]⟩
        · rw [if_pos h1, if_neg h2] at hq
          exact absurd rfl hq
      · by_cases h2 : 1036 ≤ i ∧ i < maxFileBlocks
        · exact .inr (.inl ⟨i, rfl, h1, h2.1, h2.2, by rw [if_neg h1, if_pos h2]⟩)
        · rw [if_neg h1, if_neg h2] at hq
          exact absurd rfl hq
    | single => exact absurd rfl hq
    | double =>
      simp only [widePlace, hr] at hq ⊢
      by_cases h1 : x = 1
      · rw [if_pos h1] at hq
        exact absurd rfl hq
      · exact .inr (.inr (.inl ⟨trivial, h1, if_neg h1⟩))
    | second j =>
      simp only [widePlace, hr] at hq ⊢
      by_cases h1 : x ≠ 1 ∧ j < 1024
      · exact .inr (.inr (.inr ⟨j, rfl, h1.1, h1.2, if_pos h1⟩))
      · rw [if_neg h1] at hq
        exact absurd rfl hq
  have hp := hb p h0
  refine ⟨?_, fun q heq => ?_⟩
  · rcases hp with ⟨i, -, h1, h2, h3⟩ | ⟨i, -, h1, h2, h3, h4⟩ | ⟨-, h1, h2⟩ |
      ⟨j, -, h1, h2, h3⟩ <;> omega
  · have hq := hb q (by rw [heq]; exact h0)
    rw [heq] at hq
    rcases hp with ⟨i, rfl, h1, h2, h3⟩ | ⟨i, rfl, h1, h2, h3, h4⟩ | ⟨rfl, h1, h2⟩ |
      ⟨j, rfl, h1, h2, h3⟩ <;>
    rcases hq with ⟨i', rfl, k1, k2, k3⟩ | ⟨i', rfl, k1, k2, k3, k4⟩ | ⟨rfl, k1, k2⟩ |
      ⟨j', rfl, k1, k2, k3⟩ <;>
    first
    | rfl
    | exact congrArg _ (by omega)
    | omega

/-- They are where they should be. -/
theorem manyNames_ptr {x : Nat} (h1 : 1 ≤ x) (hx : x < 128) (p : Pos) :
    ptr manyNames.blocks (wideInode x) p = widePlace x p := by
  have hr : rootInode = 1 := rfl
  have hsize : ∀ n, n < 268435456 → (UInt32.ofNat n).toNat = n := fun n hn =>
    UInt32.toNat_ofNat_of_lt' (by show n < 4294967296; omega)
  have hlt : ∀ q, widePlace x q < 268435456 := fun q => by
    by_cases h0 : widePlace x q = 0
    · omega
    · have := (widePlace_spec h1 h0).1
      omega
  refine ptr_placed (fun p hp => ?_) (fun p q k hpq => ?_) p
  · rcases Pos.parent_eq_none hp with ⟨i, rfl, hi | hi⟩ | rfl | rfl | ⟨j, rfl, hj⟩
    · show bmap manyNames.blocks (wideInode x) i = _
      unfold bmap
      rw [dif_pos hi]
      exact hsize _ (hlt _)
    · rw [show ptr manyNames.blocks (wideInode x) (.data i) = 0 from bmap_past hi]
      simp only [widePlace, hr]
      unfold maxFileBlocks at hi ⊢
      split
      · rw [if_neg (by omega)]
      · rw [if_neg (by omega)]
    · rfl
    · exact hsize _ (hlt _)
    · exact (if_neg fun hc => by omega).trans (if_neg fun hc => by omega).symm
  · rcases Pos.parent_eq_some hpq with ⟨i, rfl, h2, h3, rfl, hk⟩ | ⟨i, rfl, h2, h3, rfl, hk⟩ |
      ⟨rfl, h2, rfl⟩
    · rw [if_pos (show widePlace x .single = 0 from rfl)]
      simp only [widePlace, hr]
      split
      · rw [if_neg (by omega)]
      · rw [if_neg (by omega)]
    · unfold maxFileBlocks at h3
      have hj : (i - 1036) / 1024 < 1024 := by omega
      by_cases hroot : x = 1
      · have hs : widePlace x (.second ((i - 1036) / 1024)) = 0 := if_neg fun hc => hc.1 hroot
        rw [if_pos hs]
        exact (if_pos hroot).trans (if_neg (by omega))
      · have hs : widePlace x (.second ((i - 1036) / 1024)) = x * 2097152 + 1 + (i - 1036) / 1024 :=
          if_pos ⟨hroot, hj⟩
        have hd : widePlace x (.data i) = x * 2097152 + 2048 + (i - 1036) :=
          (if_neg hroot).trans (if_pos ⟨h2, by unfold maxFileBlocks; omega⟩)
        rw [hs, hd, if_neg (by omega), manyNames_blocks (by omega)]
        unfold wideBlock
        rw [if_neg (by rw [hr]; omega), if_neg (by omega), if_pos (by omega),
          ptrAt_ptrBlock _ (by omega), hsize _ (by omega)]
        omega
    · by_cases hroot : x = 1
      · have hd : widePlace x .double = 0 := if_pos hroot
        rw [if_pos hd]
        exact if_neg fun hc => hc.1 hroot
      · have hd : widePlace x .double = x * 2097152 := if_neg hroot
        have hs : widePlace x (.second k) = x * 2097152 + 1 + k := if_pos ⟨hroot, h2⟩
        rw [hs, hd, if_neg (by omega), manyNames_blocks (by omega)]
        unfold wideBlock
        rw [if_neg (by rw [hr]; omega), if_pos (by omega), ptrAt_ptrBlock _ h2, hsize _ (by omega)]

/-- So all of them can be claimed. -/
theorem manyNames_claims : Claims manyNames wideLayout 128 := by
  constructor
  · intro x hx hu p h0
    have h1 : 1 ≤ x := Nat.one_le_iff_ne_zero.mpr hu.1
    rw [manyNames_inode hx, manyNames_ptr h1 hx] at h0 ⊢
    have := (widePlace_spec h1 h0).1
    show 8198 ≤ _ ∧ _ < 268435456
    omega
  · intro x hx y hy hux huy p q h0 heq
    have h1 : 1 ≤ x := Nat.one_le_iff_ne_zero.mpr hux.1
    have h2 : 1 ≤ y := Nat.one_le_iff_ne_zero.mpr huy.1
    rw [manyNames_inode hx, manyNames_ptr h1 hx] at h0 heq
    rw [manyNames_inode hy, manyNames_ptr h2 hy] at heq
    have hxy : x = y := by
      rw [← (widePlace_spec h1 h0).1, heq, (widePlace_spec h2 (heq ▸ h0)).1]
    subst hxy
    exact ⟨rfl, ((widePlace_spec h1 h0).2 q heq.symm).symm⟩

section Names

variable {c : Checker} {ps₁ : List String} {n₁ : Nat} (h : Tabled manyNames wideLayout ps₁ n₁ c)
include h

theorem manyNames_dir {x : Nat} (h1 : 1 ≤ x) (hx : x < 128) : c.kind.get x = .dir := by
  rw [h.kind, if_pos (show x < wideLayout.inodeCount.toNat from hx), manyNames_kind h1 hx]

/-- The blocks recorded for a directory. -/
theorem manyNames_map {x : Nat} (h1 : 1 ≤ x) (hx : x < 128) {i : Nat}
    (hi : i < if x = rootInode then 2 else 1048576) :
    (c.dirBlocks.get x).getD i 0 = widePlace x (.data i) := by
  have hu : InUse manyNames wideLayout x := ⟨by omega, manyNames_marked hx⟩
  rw [h.dirs manyNames_claims x hx hu, manyNames_inode hx, manyNames_ptr h1 hx, if_pos]
  refine ⟨manyNames_kind h1 hx, by split at hi <;> omega, ?_⟩
  show i < (if x = rootInode then (8192 : UInt64) else 4294967296).toNat / 4096
  by_cases hr : x = rootInode
  · rw [if_pos hr] at hi ⊢
    exact hi
  · rw [if_neg hr] at hi ⊢
    exact hi

/-- The root leads to every other directory. -/
theorem manyNames_reach {d : Nat} (h2 : 2 ≤ d) (hd : d < 128) :
    (graph manyNames wideLayout c).Reach d := by
  have hr : rootInode = 1 := rfl
  have hinner : (graph manyNames wideLayout c).inner d :=
    ⟨hd, manyNames_dir h (by omega) hd, by rw [hr]; omega⟩
  refine .kid .root ?_ hinner
  show d ∈ (slotsOf manyNames (c.dirBlocks.get rootInode)).filterMap _
  have hmap := manyNames_map h (le_refl 1) (by omega) (i := d / 64) (by rw [if_pos hr.symm]; omega)
  rw [widePlace_root (by omega)] at hmap
  refine List.mem_filterMap.mpr ⟨(d / 64 * 64 + d % 64,
    { DirEntry.zero with inodeId := UInt32.ofNat d }),
    List.mem_flatMap.mpr ⟨d / 64, List.mem_range.mpr ?_, ?_⟩, ?_⟩
  · by_contra hge
    rw [List.getD_eq_default _ _ (by rw [hr] at hge; omega)] at hmap
    omega
  · rw [if_neg (by rw [hr, hmap]; omega)]
    refine List.mem_map.mpr ⟨d % 64, List.mem_range.mpr (by omega), ?_⟩
    rw [hr, hmap, manyNames_blocks (by omega)]
    unfold wideBlock
    rw [if_pos (by rw [hr]; omega), slotAt_slotBlock _ (by omega)]
    rw [show 64 * ((2097152 + d / 64) % 2097152) + d % 64 = d by omega]
  · have hid : (UInt32.ofNat d).toNat = d := UInt32.toNat_ofNat_of_lt'
      (by show d < 4294967296; omega)
    unfold namesNode
    dsimp only
    rw [hid, if_pos]
    refine ⟨by omega, fun h0 => ?_, ?_, ?_⟩
    · rw [h0] at hid
      have : (0 : UInt32).toNat = 0 := rfl
      omega
    · rw [UInt32.lt_iff_toNat_lt, hid]
      exact hd
    · rw [manyNames_dir h (by omega) hd]
      exact nofun

/-- Every other directory names inode 2 in all of its slots. -/
theorem manyNames_count {d : Nat} (h2 : 2 ≤ d) (hd : d < 128) :
    67042560 ≤ ((graph manyNames wideLayout c).kids d).count 2 := by
  have hr : rootInode = 1 := rfl
  have hlen : 1048576 ≤ (c.dirBlocks.get d).length := by
    by_contra hlt
    have hmap := manyNames_map h (by omega) hd (i := 1048575) (by rw [if_neg (by omega)]; omega)
    rw [List.getD_eq_default _ _ (by omega)] at hmap
    rw [widePlace_data (by omega) (by omega) (by unfold maxFileBlocks; omega)] at hmap
    omega
  have hblock : ∀ fb ∈ Finset.Ico 1036 1048576, 64 ≤ blockCount manyNames wideLayout c d 2 fb := by
    intro fb hfb
    obtain ⟨h3, h4⟩ := Finset.mem_Ico.mp hfb
    have hmap := manyNames_map h (by omega) hd (i := fb) (by rw [if_neg (by omega)]; omega)
    rw [widePlace_data (by omega) h3 (by unfold maxFileBlocks; omega)] at hmap
    unfold blockCount
    rw [hmap, if_neg (by omega), manyNames_blocks (by omega)]
    have hall : ((List.range 64).map fun s =>
        (fb * 64 + s, slotAt (wideBlock (d * 2097152 + 2048 + (fb - 1036))) s)).filterMap
          (namesNode wideLayout c.kind.get) = (List.range 64).map fun _ => 2 := by
      rw [List.filterMap_map]
      refine (List.filterMap_congr fun s hs => ?_).trans (congrFun List.filterMap_eq_map _)
      have hs := List.mem_range.mp hs
      have hslot : slotAt (wideBlock (d * 2097152 + 2048 + (fb - 1036))) s
          = { DirEntry.zero with inodeId := 2 } := by
        unfold wideBlock
        rw [if_neg (by rw [hr]; omega), if_neg (by omega), if_neg (by omega), slotAt_slotBlock _ hs]
      show namesNode _ _
        (fb * 64 + s, slotAt (wideBlock (d * 2097152 + 2048 + (fb - 1036))) s) = some 2
      rw [hslot]
      refine if_pos ⟨by show 2 ≤ fb * 64 + s; omega, show (2 : UInt32) ≠ 0 by decide,
        show (2 : UInt32) < 128 by decide, ?_⟩
      show c.kind.get 2 ≠ .none
      rw [manyNames_dir h (by omega) (by omega)]
      exact nofun
    rw [hall]
    simp
  rw [kids_count]
  calc 67042560 = ∑ fb ∈ Finset.Ico 1036 1048576, 64 := by
        rw [Finset.sum_const, Nat.card_Ico, nsmul_eq_mul, Nat.cast_id]
        omega
    _ ≤ ∑ fb ∈ Finset.Ico 1036 1048576, blockCount manyNames wideLayout c d 2 fb :=
        Finset.sum_le_sum hblock
    _ ≤ _ := Finset.sum_le_sum_of_subset fun fb hfb => by
        have := Finset.mem_Ico.mp hfb
        exact Finset.mem_range.mpr (by omega)

end Names

theorem manyNames_not_few : ¬ FewNames manyNames := by
  intro hfew
  have hsup : superblockIn (manyNames.blocks 0) = wideLayout := superblockIn_superblockBlock _
  obtain ⟨⟨out, c'⟩, -, hout⟩ := Prog.ends_iff_run.mp
    (fsck_ends (E := fun _ _ => False) (show manyNames.count ≠ 0 by decide) (le_refl (2 ^ 34)))
  cases out with
  | error e => exact hout.elim
  | ok u =>
    rcases hout with ⟨hno, -⟩ | ⟨sb, ps₁, n₁, c, -, hsb, -, -, hbefore, ht, -⟩
    · rw [hsup] at hno
      exact hno wideLayout_valid
    · rw [hsup] at hsb
      subst hsb
      have hinner : (graph manyNames wideLayout c).inner 2 :=
        ⟨by decide, manyNames_dir ht (by omega) (by omega), by decide⟩
      have hlt := hfew wideLayout c hbefore (manyNames_dir ht (le_refl 1) (by decide)) 2 hinner
      -- the 126 other directories name it 67042560 times each
      have hge : ∑ d ∈ Finset.Ico 2 128, 67042560
          ≤ (graph manyNames wideLayout c).total (Finset.range wideLayout.inodeCount.toNat) 2 := by
        classical
        unfold Traversal.total
        refine (Finset.sum_le_sum (g := fun d => ((graph manyNames wideLayout c).kids d).count 2)
          fun d hd => ?_).trans (Finset.sum_le_sum_of_subset fun d hd => ?_)
        · obtain ⟨h2, h3⟩ := Finset.mem_Ico.mp hd
          exact manyNames_count ht h2 h3
        · obtain ⟨h2, h3⟩ := Finset.mem_Ico.mp hd
          rw [Finset.mem_filter]
          exact ⟨Finset.mem_insert_of_mem (Finset.mem_range.mpr h3), manyNames_reach ht h2 h3⟩
      rw [Finset.sum_const, Nat.card_Ico, nsmul_eq_mul, Nat.cast_id] at hge
      omega

/-- On that device a directory is checked twice. -/
theorem manyNames_unsafe : manyNames.count ≠ 0 ∧
    ¬ ∀ rounds, 2 ^ 34 ≤ rounds → Safe manyNames rounds := by
  refine ⟨by decide, fun h => ?_⟩
  obtain ⟨c, hrun, -, -, hfew⟩ := fsck_confined manyNames (by decide) (le_refl (2 ^ 34))
  obtain ⟨c', hrun', -, -, hnodup⟩ := h (2 ^ 34) (le_refl _)
  rw [hrun] at hrun'
  cases hrun'
  exact manyNames_not_few (hfew.mp hnodup)

end ConcurrentFs.Fsck
