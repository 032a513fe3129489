/-
  ConcurrentFs.Consistent

  The consistency rules of layout.h, over the image as its regions show it, and
  the searches through a directory that satisfies them.  `Consistent` has one
  field for each group of rules: the inode bitmap and the inodes, the blocks
  (`Own`), what a size says about the blocks of an inode (`Shaped`), and the tree
  (`Tree.Rules`).
-/
import ConcurrentFs.Contents
import ConcurrentFs.Tree

namespace ConcurrentFs

open Lib

/-- What an inode is, by its mode. -/
def kindOf (ino : Inode) : Option Kind :=
  if ino.mode = modeFile ||| filePerm then some .file
  else if ino.mode = modeDir ||| dirPerm then some .dir
  else none

/-- Slot `k` of the blocks of a directory. -/
def slotOf (blk : Nat → Block) (ino : Inode) (k : Nat) : DirEntry :=
  slotAt (cont blk ino (k / 64)) (k % 64)

/-- The entry in slot `k` of an inode, all zeros if there is no such slot. -/
def dirEntry (blk : Nat → Block) (ino : Inode) (k : Nat) : DirEntry :=
  if kindOf ino = some .dir ∧ k < 64 * blockCountOf ino then slotOf blk ino k else .zero

/-- The tree that inodes `V` with these blocks hold. -/
def treeOf (blk : Nat → Block) (V : Nat → Inode) : Tree where
  kind x := kindOf (V x)
  entry x := dirEntry blk (V x)
  links x := (V x).linkCount.toNat

/-- What the size of an inode says about its blocks: none past the end, and in a directory, whose
    size is a whole number of blocks, no hole before it. -/
structure Shaped (blk : Nat → Block) (ino : Inode) : Prop where
  ends : ∀ i, ino.size.toNat ≤ 4096 * i → bmap blk ino i = 0
  whole : kindOf ino = some .dir → ino.size.toNat % 4096 = 0
  noHole : kindOf ino = some .dir → ∀ i < blockCountOf ino, bmap blk ino i ≠ 0

/-- The rules of layout.h. -/
structure Consistent (sb : Superblock) (I : Image) : Prop where
  /-- Inode 0 is always marked and never used. -/
  reserved : I.ibit 0 = true ∧ I.inode 0 = .zero
  /-- An inode not in use is all zeros. -/
  unused : ∀ x < sb.inodeCount.toNat, I.ibit x = false → I.inode x = .zero
  used : ∀ x, 1 ≤ x → x < sb.inodeCount.toNat → I.ibit x = true →
    (I.inode x).id.toNat = x ∧ kindOf (I.inode x) ≠ none ∧ (I.inode x).linkCount ≠ 0
  /-- An inode there is no room for is none. -/
  past : ∀ x, sb.inodeCount.toNat ≤ x → I.inode x = .zero
  own : Own sb I I.inode ∅
  shaped : ∀ x, Shaped I.blk (I.inode x)
  tree : (treeOf I.blk I.inode).Rules

/-! ## Inodes -/

theorem kindOf_zero : kindOf .zero = none := by decide

theorem kindOf_of_mode {ino ino' : Inode} (h : ino'.mode = ino.mode) :
    kindOf ino' = kindOf ino := by
  unfold kindOf
  rw [h]

theorem isDir_iff {ino : Inode} (h : kindOf ino ≠ none) :
    isDir ino = true ↔ kindOf ino = some .dir := by
  have key : ∀ m : UInt16, m = modeFile ||| filePerm ∨ m = modeDir ||| dirPerm →
      ((m &&& modeTypeMask == modeDir) = true ↔ m = modeDir ||| dirPerm) := by
    rintro m (rfl | rfl) <;> decide
  unfold kindOf at h ⊢
  unfold isDir
  have hne : ¬ (modeDir ||| dirPerm : UInt16) = modeFile ||| filePerm := by decide
  by_cases h1 : ino.mode = modeFile ||| filePerm
  · rw [if_pos h1, key _ (.inl h1), h1]
    exact ⟨fun h2 => absurd h2.symm hne, nofun⟩
  · rw [if_neg h1] at h ⊢
    by_cases h2 : ino.mode = modeDir ||| dirPerm
    · rw [if_pos h2, key _ (.inr h2)]
      exact ⟨fun _ => rfl, fun _ => h2⟩
    · rw [if_neg h2] at h
      exact absurd rfl h

theorem isDir_true {ino : Inode} (h : kindOf ino = some .dir) : isDir ino = true :=
  (isDir_iff (by rw [h]; exact nofun)).mpr h

theorem shaped_zero (blk : Nat → Block) : Shaped blk .zero where
  ends i _ := ptr_zero blk (.data i)
  whole h := absurd h (by rw [kindOf_zero]; exact nofun)
  noHole h := absurd h (by rw [kindOf_zero]; exact nofun)

/-- The shape depends on the pointers, the size and the mode. -/
theorem Shaped.congr {blk blk' : Nat → Block} {ino ino' : Inode} (h : Shaped blk ino)
    (hb : ∀ i, bmap blk' ino' i = bmap blk ino i) (hs : ino'.size = ino.size)
    (hm : ino'.mode = ino.mode) : Shaped blk' ino' where
  ends i hi := by
    rw [hb]
    exact h.ends i (hs ▸ hi)
  whole hd := by
    rw [hs]
    exact h.whole (kindOf_of_mode hm ▸ hd)
  noHole hd i hi := by
    rw [hb]
    unfold blockCountOf at hi
    rw [hs] at hi
    exact h.noHole (kindOf_of_mode hm ▸ hd) i hi

theorem slotOf_congr {blk blk' : Nat → Block} {ino ino' : Inode}
    (hc : ∀ i, cont blk' ino' i = cont blk ino i) : slotOf blk' ino' = slotOf blk ino := by
  funext k
  unfold slotOf
  rw [hc]

/-- So do the entries, with the contents. -/
theorem dirEntry_congr {blk blk' : Nat → Block} {ino ino' : Inode}
    (hc : ∀ i, cont blk' ino' i = cont blk ino i) (hs : ino'.size = ino.size)
    (hm : ino'.mode = ino.mode) : dirEntry blk' ino' = dirEntry blk ino := by
  funext k
  unfold dirEntry blockCountOf
  rw [kindOf_of_mode hm, hs, slotOf_congr hc]

theorem dirEntry_notDir {blk : Nat → Block} {ino : Inode} (h : kindOf ino ≠ some .dir) (k : Nat) :
    dirEntry blk ino k = .zero := if_neg fun hc => h hc.1

theorem dirEntry_slot {blk : Nat → Block} {ino : Inode} {k : Nat} (h : kindOf ino = some .dir)
    (hk : k < 64 * blockCountOf ino) : dirEntry blk ino k = slotOf blk ino k := if_pos ⟨h, hk⟩

namespace Consistent

variable {sb : Superblock} {I : Image} (c : Consistent sb I)
include c

/-- An inode is in use iff it is something. -/
theorem ibit_of_kind {x : Nat} (h : kindOf (I.inode x) ≠ none) :
    1 ≤ x ∧ x < sb.inodeCount.toNat ∧ I.ibit x = true := by
  have h0 : x ≠ 0 := by
    rintro rfl
    rw [c.reserved.2] at h
    exact h kindOf_zero
  have h1 : x < sb.inodeCount.toNat := by
    by_contra hge
    rw [c.past x (by omega)] at h
    exact h kindOf_zero
  refine ⟨by omega, h1, ?_⟩
  by_contra hb
  rw [Bool.not_eq_true] at hb
  rw [c.unused x h1 hb] at h
  exact h kindOf_zero

theorem id_eq {x : Nat} (h : kindOf (I.inode x) ≠ none) : (I.inode x).id.toNat = x := by
  obtain ⟨h1, h2, h3⟩ := c.ibit_of_kind h
  exact (c.used x h1 h2 h3).1

theorem root_dir : kindOf (I.inode rootInode) = some .dir := c.tree.root

theorem kind_none_of_ibit {x : Nat} (h2 : x < sb.inodeCount.toNat) (h3 : I.ibit x = false) :
    kindOf (I.inode x) = none := by
  rw [c.unused x h2 h3]
  exact kindOf_zero

end Consistent

/-! ## Searching a directory -/

section Search

variable {sb : Superblock} {s : FileSystem} {I : Image} {r : Side} {ino : Inode}
  {E : Exn → FileSystem → Prop}

/-- Block `k` of a directory. -/
theorem readDirBlock_ends (g : Regions sb) (h : Shows sb s I r)
    (hin : InRange sb I.blk ino) {k : Nat}
    (h0 : bmap I.blk ino k ≠ 0) {Q : Nat × Block → FileSystem → Prop}
    (hQ : Q (bmap I.blk ino k, cont I.blk ino k) s) : (readDirBlock sb ino k).Ends s Q E := by
  have hk : k < maxFileBlocks := by
    by_contra hge
    exact h0 (bmap_past (by omega))
  have hr := hin (.data k) h0
  unfold readDirBlock
  rw [Prog.ends_bind]
  refine bmapRead_any g h hin hk ?_
  rw [if_neg h0, Prog.ends_bind]
  refine readBlock_ends g h hr.1 hr.2 ?_
  rw [cont_block h0] at hQ
  exact hQ

/-- The first slot of one block that `p` accepts. -/
theorem findInBlock_some {p : Nat → DirEntry → Bool} {k j : Nat} {b : Block}
    (h : findInBlock p k b = some j) :
    j < 64 ∧ p (64 * k + j) (slotAt b j) = true ∧
      ∀ i < j, p (64 * k + i) (slotAt b i) = false := by
  unfold findInBlock at h
  rw [List.find?_range_eq_some] at h
  obtain ⟨h1, h2, h3⟩ := h
  refine ⟨List.mem_range.mp h2, h1, fun i hi => ?_⟩
  have := h3 i hi
  simpa using this

theorem findInBlock_none {p : Nat → DirEntry → Bool} {k : Nat} {b : Block}
    (h : findInBlock p k b = none) : ∀ i < 64, p (64 * k + i) (slotAt b i) = false := by
  intro i hi
  have := List.find?_eq_none.mp h i (List.mem_range.mpr hi)
  simpa using this

/-- The loop over the blocks of a directory, those before `k` being behind it. -/
theorem findSlotFrom_ends (g : Regions sb) (h : Shows sb s I r) (hin : InRange sb I.blk ino)
    {p : Nat → DirEntry → Bool} {Q : Option Slot → FileSystem → Prop} (n : Nat) :
    ∀ k, (∀ i, k ≤ i → i < k + n → bmap I.blk ino i ≠ 0) →
      (∀ j < 64 * k, p j (slotOf I.blk ino j) = false) →
      (∀ j < 64 * (k + n), p j (slotOf I.blk ino j) = true →
        (∀ i < j, p i (slotOf I.blk ino i) = false) →
        Q (some ⟨bmap I.blk ino (j / 64), j % 64, slotOf I.blk ino j⟩) s) →
      ((∀ j < 64 * (k + n), p j (slotOf I.blk ino j) = false) → Q none s) →
      (findSlotFrom sb ino p k n).Ends s Q E := by
  induction n with
  | zero =>
    intro k _ hpast _ hnone
    exact hnone hpast
  | succ n ih =>
    intro k hblk hpast hsome hnone
    have hslot : ∀ i < 64, slotOf I.blk ino (64 * k + i) = slotAt (cont I.blk ino k) i := by
      intro i hi
      unfold slotOf
      rw [show (64 * k + i) / 64 = k by omega, show (64 * k + i) % 64 = i by omega]
    unfold findSlotFrom
    rw [Prog.ends_bind]
    refine readDirBlock_ends g h hin (hblk k (le_refl k) (by omega)) ?_
    dsimp only
    cases hf : findInBlock p k (cont I.blk ino k) with
    | some j =>
      obtain ⟨hj, hp, hfirst⟩ := findInBlock_some hf
      have hQ := hsome (64 * k + j) (by omega) (by rw [hslot j hj]; exact hp) fun i hi => ?_
      · rw [show (64 * k + j) / 64 = k by omega, show (64 * k + j) % 64 = j by omega,
          hslot j hj] at hQ
        exact hQ
      · by_cases hik : i < 64 * k
        · exact hpast i hik
        · have := hfirst (i - 64 * k) (by omega)
          rw [← hslot _ (by omega), show 64 * k + (i - 64 * k) = i by omega] at this
          exact this
    | none =>
      have hnf := findInBlock_none hf
      refine ih (k + 1) (fun i h1 h2 => hblk i (by omega) (by omega)) (fun j hj => ?_)
        (fun j hj => hsome j (by omega)) fun hall => hnone fun j hj => hall j (by omega)
      by_cases hjk : j < 64 * k
      · exact hpast j hjk
      · have := hnf (j - 64 * k) (by omega)
        rw [← hslot _ (by omega), show 64 * k + (j - 64 * k) = j by omega] at this
        exact this

/-- The first slot of a directory that `p` accepts. -/
theorem findSlot_ends (g : Regions sb) (h : Shows sb s I r) (hin : InRange sb I.blk ino)
    (hsh : Shaped I.blk ino) (hd : kindOf ino = some .dir) {p : Nat → DirEntry → Bool}
    {Q : Option Slot → FileSystem → Prop}
    (hsome : ∀ j < 64 * blockCountOf ino, p j (dirEntry I.blk ino j) = true →
      (∀ i < j, p i (dirEntry I.blk ino i) = false) →
      Q (some ⟨bmap I.blk ino (j / 64), j % 64, dirEntry I.blk ino j⟩) s)
    (hnone : (∀ j < 64 * blockCountOf ino, p j (dirEntry I.blk ino j) = false) → Q none s) :
    (findSlot sb ino p).Ends s Q E := by
  refine findSlotFrom_ends g h hin (blockCountOf ino) 0
    (fun i _ hi => hsh.noHole hd i (by omega)) (fun j hj => absurd hj (by omega))
    (fun j hj hp hfirst => ?_) fun hall => hnone fun j hj => ?_
  · have hjb : j < 64 * blockCountOf ino := by omega
    rw [← dirEntry_slot hd hjb] at hp ⊢
    refine hsome j hjb hp fun i hi => ?_
    rw [dirEntry_slot hd (by omega)]
    exact hfirst i hi
  · rw [dirEntry_slot hd hj]
    exact hall j (by omega)

end Search

end ConcurrentFs
