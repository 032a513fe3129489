/-
  ConcurrentFs.DirectorySpec

  What the functions of directory.cpp do to a consistent image, in terms of the
  entries of the directory: a lookup finds the one slot with the name, adding
  fills a slot that was free or makes the directory one block longer, removing
  empties a slot.  Nothing else changes.
-/
import ConcurrentFs.Consistent

namespace ConcurrentFs

open Lib

section Look

variable {sb : Superblock} {s : FileSystem} {I : Image} {r : Side} {E : Exn → FileSystem → Prop}
  {x : Nat}

/-- The tree of an image. -/
def Image.tree (I : Image) : Tree := treeOf I.blk I.inode

/-- `dir_lookup`. -/
theorem dirLookup_ends (g : Regions sb) (h : Shows sb s I r) (c : Consistent sb I)
    (hd : I.tree.kind x = some .dir) (name : Name) {Q : Nat × UInt8 → FileSystem → Prop}
    (hfound : ∀ k y, I.tree.Names x k y → (I.tree.entry x k).named = name →
      Q (y, (I.tree.entry x k).type) s)
    (hnone : (∀ k, (I.tree.entry x k).inodeId ≠ 0 → (I.tree.entry x k).named ≠ name) → Q (0, 0) s) :
    (dirLookup sb (I.inode x) name).Ends s Q E := by
  have hiff : ∀ k, isNamed name (dirEntry I.blk (I.inode x) k) = true ↔
      (I.tree.entry x k).inodeId ≠ 0 ∧ (I.tree.entry x k).named = name := fun k =>
    isNamed_iff (c.tree.legal x k)
  unfold dirLookup
  rw [Prog.ends_bind]
  refine findSlot_ends g h (c.own.range x) (c.shaped x) hd (fun j _ hp _ => ?_) fun hall => ?_
  · obtain ⟨h0, hname⟩ := (hiff j).mp hp
    exact hfound j _ ⟨rfl, fun hz => h0 (toNat_eq_zero.mp hz)⟩ hname
  · refine hnone fun k h0 hname => ?_
    have hk : k < 64 * blockCountOf (I.inode x) := by
      by_contra hge
      have hz : I.tree.entry x k = .zero := if_neg fun hc => hge hc.2
      rw [hz] at h0
      exact h0 rfl
    have := hall k hk
    rw [(hiff k).mpr ⟨h0, hname⟩] at this
    exact Bool.noConfusion this

/-- `dir_is_empty`. -/
theorem dirIsEmpty_ends (g : Regions sb) (h : Shows sb s I r) (c : Consistent sb I)
    (hd : I.tree.kind x = some .dir) {Q : Bool → FileSystem → Prop}
    (hempty : (∀ k, 2 ≤ k → I.tree.entry x k = .zero) → Q true s)
    (hfull : ∀ y, I.tree.Child x y → Q false s) : (dirIsEmpty sb (I.inode x)).Ends s Q E := by
  unfold dirIsEmpty
  rw [Prog.ends_bind]
  refine findSlot_ends g h (c.own.range x) (c.shaped x) hd (fun j _ hp _ => ?_) fun hall => ?_
  · simp only [Bool.and_eq_true, decide_eq_true_eq, bne_iff_ne, ne_eq] at hp
    exact hfull _ ⟨j, hp.1, rfl, fun hz => hp.2 (toNat_eq_zero.mp hz)⟩
  · refine hempty fun k hk => ?_
    by_cases hkb : k < 64 * blockCountOf (I.inode x)
    · have h0 : (dirEntry I.blk (I.inode x) k).inodeId = 0 := by
        have := hall k hkb
        simpa [hk] using this
      exact c.tree.free x k h0
    · exact if_neg fun hc => hkb hc.2

end Look

/-! ## Changing a slot -/

theorem slotAt_zero (j : Nat) : slotAt (Bytes.zero 4096) j = .zero := by
  unfold slotAt
  rw [Bytes.slice_zero]
  rfl

/-- `b` is `a` but for its pointers, the count of them and the size. -/
structure SameButSize (a b : Inode) : Prop where
  id : b.id = a.id
  mode : b.mode = a.mode
  linkCount : b.linkCount = a.linkCount
  mtime : b.mtime = a.mtime
  pad : b.pad = a.pad

/-- What it takes for slot `k` of directory `x` to hold `e` afterwards, and nothing else to be
    different: the image is now `I'` and the directory's inode `ino'`. -/
structure Entered (I : Image) (V : Nat → Inode) (x k : Nat) (e : DirEntry) (I' : Image)
    (ino' : Inode) : Prop where
  super : I'.super = I.super
  ibit : I'.ibit = I.ibit
  inode : I'.inode = I.inode
  same : SameButSize (V x) ino'
  entry : dirEntry I'.blk ino' = Function.update (dirEntry I.blk (V x)) k e
  shaped : Shaped I'.blk ino'
  frame : ∀ y, y ≠ x → ∀ p, ptr I'.blk (V y) p = ptr I.blk (V y) p
  others : ∀ y, y ≠ x → ∀ i, cont I'.blk (V y) i = cont I.blk (V y) i

section Change

variable {sb : Superblock} {s : FileSystem} {I : Image} {r : Side} {V : Nat → Inode} {X : Set Nat}
  {E : Exn → FileSystem → Prop} {x k : Nat} {e : DirEntry}

/-- A slot of a directory overwritten where it lies. -/
theorem Own.entered (ho : Own sb I V X) (hsh : Shaped I.blk (V x)) (hd : kindOf (V x) = some .dir)
    (hk : k < 64 * blockCountOf (V x)) {I' : Image}
    (hI' : I' = I.putBlk (bmap I.blk (V x) (k / 64))
      (setSlotAt (cont I.blk (V x) (k / 64)) (k % 64) e)) :
    Own sb I' V X ∧ Entered I V x k e I' (V x) := by
  have h0 : bmap I.blk (V x) (k / 64) ≠ 0 := hsh.noHole hd (k / 64) (by omega)
  have hptr : ∀ y p, ptr I'.blk (V y) p = ptr I.blk (V y) p := by
    rw [hI']
    exact Own.ptr_putBlk I V _ _ fun z q hq => ho.data_ne h0 z q hq
  have hcont : ∀ y j, cont I'.blk (V y) j = if y = x ∧ j = k / 64
      then setSlotAt (cont I.blk (V x) (k / 64)) (k % 64) e else cont I.blk (V y) j := by
    rw [hI']
    exact ho.cont_putBlk h0 _
  have hentry : dirEntry I'.blk (V x) = Function.update (dirEntry I.blk (V x)) k e := by
    funext j
    by_cases hj : j < 64 * blockCountOf (V x)
    · rw [dirEntry_slot hd hj]
      unfold slotOf
      rw [hcont]
      by_cases hjk : j = k
      · rw [hjk, Function.update_self, if_pos ⟨rfl, rfl⟩, slotAt_setSlotAt_self _ _ (by omega)]
      · rw [Function.update_of_ne hjk, dirEntry_slot hd hj]
        by_cases hb : j / 64 = k / 64
        · rw [if_pos ⟨rfl, hb⟩, slotAt_setSlotAt_ne _ _ (by omega), ← hb]
          rfl
        · rw [if_neg fun hc => hb hc.2]
          rfl
    · rw [Function.update_of_ne (by omega)]
      unfold dirEntry
      rw [if_neg fun hc => hj hc.2, if_neg fun hc => hj hc.2]
  refine ⟨?_, ?_⟩
  · rw [hI']
    exact ho.putBlk _ _ fun z q hq => ho.data_ne h0 z q hq
  · refine ⟨by rw [hI']; rfl, by rw [hI']; rfl, by rw [hI']; rfl, ⟨rfl, rfl, rfl, rfl, rfl⟩, hentry,
      hsh.congr (fun i => hptr x (.data i)) rfl rfl, fun y _ => hptr y, fun y hy i => ?_⟩
    rw [hcont, if_neg fun hc => hy hc.1]

/-- A directory one block longer, with `e` first in the new block. -/
theorem Wrote.entered {I' : Image} {ino' : Inode} (hsh : Shaped I.blk (V x))
    (hd : kindOf (V x) = some .dir) (hfit : blockCountOf (V x) < maxFileBlocks)
    (hw : Wrote I V x (blockCountOf (V x)) I' ino' (setSlotAt (Bytes.zero 4096) 0 e)) :
    Entered I V x (64 * blockCountOf (V x)) e I'
      ({ ino' with size := ino'.size + 4096 } : Inode) := by
  generalize hn : blockCountOf (V x) = n at hw hfit ⊢
  have hsize : (V x).size.toNat = 4096 * n := by
    have := hsh.whole hd
    unfold blockCountOf at hn
    omega
  have hsize' : (ino'.size + 4096).toNat = 4096 * (n + 1) := by
    have h2 : ((4096 : UInt64)).toNat = 4096 := rfl
    unfold maxFileBlocks at hfit
    rw [hw.same.size, UInt64.toNat_add, hsize, h2]
    omega
  generalize hino : ({ ino' with size := ino'.size + 4096 } : Inode) = ino
  have hptr : ptr I'.blk ino = ptr I'.blk ino' := by
    rw [← hino]
    exact ptr_fields _ _ rfl rfl rfl
  have hcont : cont I'.blk ino = cont I'.blk ino' := cont_of_ptr hptr
  have hmode : ino.mode = (V x).mode := by
    rw [← hino]
    exact hw.same.mode
  have hcount : blockCountOf ino = n + 1 := by
    unfold blockCountOf
    rw [← hino]
    show (ino'.size + 4096).toNat / 4096 = n + 1
    rw [hsize']
    omega
  have hkind : kindOf ino = some .dir := (kindOf_of_mode hmode).trans hd
  have hbmap : ∀ i, bmap I'.blk ino i = bmap I'.blk ino' i := fun i => congrFun hptr (.data i)
  refine ⟨hw.super, hw.ibit, hw.inode, ?_, ?_, ?_, hw.frame, hw.others⟩
  · rw [← hino]
    exact ⟨hw.same.id, hw.same.mode, hw.same.linkCount, hw.same.mtime, hw.same.pad⟩
  · -- the old slots are where they were; in the new block all but the first are empty
    funext j
    by_cases hj : j < 64 * n
    · rw [Function.update_of_ne (by omega), dirEntry_slot hkind (by omega),
        dirEntry_slot hd (by omega)]
      unfold slotOf
      rw [hcont, hw.rest _ (by omega)]
    by_cases hj2 : j < 64 * (n + 1)
    · rw [dirEntry_slot hkind (by omega)]
      unfold slotOf
      rw [hcont, show j / 64 = n by omega, hw.here]
      by_cases hj0 : j = 64 * n
      · rw [hj0, Function.update_self, show 64 * n % 64 = 0 by omega,
          slotAt_setSlotAt_self _ _ (by omega)]
      · rw [Function.update_of_ne hj0, slotAt_setSlotAt_ne _ _ (by omega), slotAt_zero]
        exact (if_neg fun hc => by omega).symm
    · rw [Function.update_of_ne (by omega)]
      unfold dirEntry
      rw [if_neg fun hc => by omega, if_neg fun hc => by omega]
  · refine ⟨fun i hi => ?_, fun _ => ?_, fun _ i hi => ?_⟩
    · have hi' : 4096 * (n + 1) ≤ 4096 * i := by
        rw [← hsize']
        rw [← hino] at hi
        exact hi
      rw [hbmap, hw.holes i (by omega)]
      exact hsh.ends i (by omega)
    · rw [← hino]
      show (ino'.size + 4096).toNat % 4096 = 0
      rw [hsize']
      omega
    · rw [hbmap]
      by_cases hin : i = n
      · rw [hin]
        exact hw.block
      · rw [hw.holes i hin]
        exact hsh.noHole hd i (by omega)

/-- `dir_add`.  It fails, with nothing changed, only in a directory with no free slot: when it is as
    long as can be, or when the disk is full. -/
theorem dirAdd_ends (g : Regions sb) (h : Shows sb s I r) (ho : Own sb I V X)
    (hsh : Shaped I.blk (V x)) (hd : kindOf (V x) = some .dir)
    (hfree : ∀ k, (dirEntry I.blk (V x) k).inodeId = 0 → dirEntry I.blk (V x) k = .zero)
    {name : Name} {id : Nat} {type : UInt8} {T : Inode → FileSystem → Prop}
    (hok : ∀ k ino' s' I', Shows sb s' I' r → Own sb I' (Function.update V x ino') X →
      dirEntry I.blk (V x) k = .zero →
      Entered I V x k (makeEntry name id type) I' ino' → T ino' s')
    (hfull : ∀ s', Shows sb s' I r → freeCount sb I < 3 →
      (∀ k < 64 * blockCountOf (V x), (dirEntry I.blk (V x) k).inodeId ≠ 0) →
      E (.fsError .enospc) s')
    (hbig : maxFileBlocks ≤ blockCountOf (V x) →
      (∀ k < 64 * blockCountOf (V x), (dirEntry I.blk (V x) k).inodeId ≠ 0) →
      E (.fsError .efbig) s) :
    (dirAdd sb (V x) name id type).Ends s T E := by
  unfold dirAdd
  dsimp only
  rw [Prog.ends_bind]
  refine findSlot_ends g h (ho.range x) hsh hd (fun j hj hp _ => ?_) fun hall => ?_
  · -- a free slot
    have h0 : (dirEntry I.blk (V x) j).inodeId = 0 := by simpa using hp
    have hb : bmap I.blk (V x) (j / 64) ≠ 0 := hsh.noHole hd (j / 64) (by omega)
    have hr := ho.range x (.data (j / 64)) hb
    dsimp only
    rw [Prog.ends_bind]
    refine writeBlock_ends g h hr.1 hr.2 false _ fun s' hs' => ?_
    have hent := ho.entered (e := makeEntry name id type) hsh hd hj rfl
    refine hok j (V x) s' _ (hs'.congr ?_) ?_ (hfree j h0) hent.2
    · rw [cont_block hb]
      rfl
    · rw [update_same]
      exact hent.1
  · -- every slot is taken
    have htaken : ∀ k < 64 * blockCountOf (V x), (dirEntry I.blk (V x) k).inodeId ≠ 0 := by
      intro k hk
      have := hall k hk
      simpa using this
    dsimp only
    rw [Prog.ends_bind]
    by_cases hfit : blockCountOf (V x) < maxFileBlocks
    · refine bmapAlloc_ends g h ho x hfit (fun m s' I' hs' ho' hg => ?_)
        fun s' hs' _ hlt => hfull s' hs' (hlt.trans_le (holes_le _ _ _)) htaken
      have hr := ho'.range x (.data (blockCountOf (V x)))
      rw [Function.update_self, show ptr I'.blk m.ino (.data (blockCountOf (V x))) = m.block
        from hg.block] at hr
      obtain ⟨h1, h2⟩ := hr hg.nonzero
      rw [Prog.ends_bind]
      refine writeBlock_ends g hs' h1 h2 true _ fun s'' hs'' => ?_
      obtain ⟨ho'', hw⟩ := hg.wrote ho' (setSlotAt (Bytes.zero 4096) 0 (makeEntry name id type))
      refine hok (64 * blockCountOf (V x)) _ s'' _ hs'' ?_ ?_ (hw.entered hsh hd hfit)
      · -- the size is no pointer
        refine ho''.congr_inode fun y => ?_
        by_cases hy : y = x
        · subst hy
          rw [Function.update_self, Function.update_self]
          exact ⟨ptr_fields _ _ rfl rfl rfl, rfl⟩
        · rw [Function.update_of_ne hy, Function.update_of_ne hy]
          exact ⟨rfl, rfl⟩
      · exact if_neg fun hc => by omega
    · exact bmapAlloc_efbig (by omega) (hbig (by omega) htaken)

/-- `dir_remove` of a name that is there. -/
theorem dirRemove_ends (g : Regions sb) (h : Shows sb s I r) (c : Consistent sb I) {y : Nat}
    {name : Name} (hn : I.tree.Names x k y) (hname : (I.tree.entry x k).named = name)
    {Q : Bool → FileSystem → Prop}
    (hQ : ∀ s' I', Shows sb s' I' r → Own sb I' I.inode ∅ →
      Entered I I.inode x k .zero I' (I.inode x) → Q true s') :
    (dirRemove sb (I.inode x) name).Ends s Q E := by
  have hd : kindOf (I.inode x) = some .dir := c.tree.kind_of_names hn
  have hiff : ∀ j, isNamed name (dirEntry I.blk (I.inode x) j) = true ↔
      (I.tree.entry x j).inodeId ≠ 0 ∧ (I.tree.entry x j).named = name := fun j =>
    isNamed_iff (c.tree.legal x j)
  have hkb : k < 64 * blockCountOf (I.inode x) := by
    by_contra hge
    exact Tree.not_names_zero (if_neg fun hc => hge hc.2) hn
  unfold dirRemove
  rw [Prog.ends_bind]
  refine findSlot_ends g h (c.own.range x) (c.shaped x) hd (fun j hj hp _ => ?_) fun hall => ?_
  · -- only one slot has the name
    obtain ⟨h0, hname'⟩ := (hiff j).mp hp
    have hjk : j = k := c.tree.unique x j k h0 hn.id_ne (hname'.trans hname.symm)
    rw [hjk]
    have hb : bmap I.blk (I.inode x) (k / 64) ≠ 0 := (c.shaped x).noHole hd (k / 64) (by omega)
    have hr := c.own.range x (.data (k / 64)) hb
    dsimp only
    rw [Prog.ends_bind]
    refine writeBlock_ends g h hr.1 hr.2 false _ fun s' hs' => ?_
    have hent := c.own.entered (e := .zero) (c.shaped x) hd hkb rfl
    refine hQ s' _ (hs'.congr ?_) hent.1 hent.2
    rw [cont_block hb]
    rfl
  · have := hall k hkb
    rw [(hiff k).mpr ⟨hn.id_ne, hname⟩] at this
    exact Bool.noConfusion this

end Change

end ConcurrentFs
