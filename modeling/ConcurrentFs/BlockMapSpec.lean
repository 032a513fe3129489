/-
  ConcurrentFs.BlockMapSpec

  What the block map does to who owns what: `bmap_read` reads the map, `bmap_alloc`
  fills one hole and moves nothing else, whichever of its blocks it has to
  allocate on the way, and `free_all_blocks` gives back exactly what an inode owns.
-/
import ConcurrentFs.Ownership

namespace ConcurrentFs

open Lib

theorem bmap_past {blk : Nat → Block} {ino : Inode} {i : Nat} (hi : maxFileBlocks ≤ i) :
    bmap blk ino i = 0 := by
  unfold maxFileBlocks at hi
  unfold bmap
  rw [dif_neg (by omega), if_neg (by omega), if_neg (by omega)]

/-- Every pointer of an inode leads to the data region. -/
def InRange (sb : Superblock) (blk : Nat → Block) (ino : Inode) : Prop :=
  ∀ p, ptr blk ino p ≠ 0 →
    sb.dataStart.toNat ≤ ptr blk ino p ∧ ptr blk ino p < sb.totalBlocks.toNat

section Read

variable {sb : Superblock} {s : FileSystem} {I : Image} {r : Side} {V : Nat → Inode} {X : Set Nat}
  {ino : Inode} {E : Exn → FileSystem → Prop} {N : Nat → FileSystem → Prop}

theorem getPtr_ends (g : Regions sb) (h : Shows sb s I r) {b i : Nat}
    (h1 : sb.dataStart.toNat ≤ b) (h2 : b < sb.totalBlocks.toNat)
    (hN : N (ptrAt (I.blk b) i).toNat s) : (getPtr sb b i).Ends s N E := by
  unfold getPtr
  rw [Prog.ends_bind]
  exact readBlock_ends g h h1 h2 hN

/-- `get_ptr` of an indirect block of an inode. -/
theorem getPtr_at_ends (g : Regions sb) (h : Shows sb s I r) (hr : InRange sb I.blk ino) {k : Nat}
    {p q : Pos} (hp : p.parent = some (q, k)) (hq0 : ptr I.blk ino q ≠ 0)
    (hN : N (ptr I.blk ino p) s) : (getPtr sb (ptr I.blk ino q) k).Ends s N E := by
  obtain ⟨h1, h2⟩ := hr q hq0
  refine getPtr_ends g h h1 h2 ?_
  rwa [ptr_of_parent hp, if_neg hq0] at hN

theorem parent_single {i : Nat} (h1 : 12 ≤ i) (h2 : i < 1036) :
    (Pos.data i).parent = some (.single, i - 12) := by
  simp only [Pos.parent]
  rw [if_neg (by omega), if_pos h2]

theorem parent_double {i : Nat} (h1 : 1036 ≤ i) (h2 : i < maxFileBlocks) :
    (Pos.data i).parent = some (.second ((i - 1036) / 1024), (i - 1036) % 1024) := by
  simp only [Pos.parent]
  rw [if_neg (by omega), if_neg (by omega), if_pos h2]

theorem parent_second {j : Nat} (h : j < 1024) : (Pos.second j).parent = some (.double, j) :=
  if_pos h

/-- `bmap_read` below `MAX_FILE_BLOCKS`. -/
theorem bmapRead_any (g : Regions sb) (h : Shows sb s I r) (hr : InRange sb I.blk ino)
    {index : Nat} (hi : index < maxFileBlocks) (hN : N (bmap I.blk ino index) s) :
    (bmapRead sb ino index).Ends s N E := by
  unfold bmapRead
  by_cases h12 : index < 12
  · rw [dif_pos h12, Prog.ends_pure]
    simpa only [bmap, dif_pos h12] using hN
  rw [dif_neg h12]
  by_cases h1036 : index - 12 < 1024
  · rw [if_pos h1036]
    by_cases hs : ino.singleIndirect = 0
    · rw [if_neg (by simpa using hs), Prog.ends_pure]
      rwa [bmap_single (by omega) (by omega), if_pos (toNat_eq_zero.mpr hs)] at hN
    · rw [if_pos hs]
      exact getPtr_at_ends g h hr (parent_single (by omega) (by omega))
        (fun h0 => hs (toNat_eq_zero.mp h0)) hN
  rw [if_neg h1036]
  have hmax : ¬ index - 12 - 1024 ≥ 1024 * 1024 := by unfold maxFileBlocks at hi; omega
  rw [if_neg hmax, show index - 12 - 1024 = index - 1036 by omega]
  have hj : (index - 1036) / 1024 < 1024 := by omega
  by_cases hd : ino.doubleIndirect = 0
  · rw [if_pos hd, Prog.ends_pure]
    have hsec : ptr I.blk ino (.second ((index - 1036) / 1024)) = 0 := by
      rw [ptr_of_parent (parent_second hj)]
      exact if_pos (toNat_eq_zero.mpr hd)
    rwa [bmap_double (by omega) hi, if_pos hsec] at hN
  · rw [if_neg hd, Prog.ends_bind]
    refine getPtr_at_ends g h hr (parent_second hj)
      (fun h0 => hd (toNat_eq_zero.mp h0)) ?_
    by_cases hsec : ptr I.blk ino (.second ((index - 1036) / 1024)) = 0
    · rw [if_neg (by simpa using hsec), Prog.ends_pure]
      rwa [bmap_double (by omega) hi, if_pos hsec] at hN
    · rw [if_pos hsec]
      exact getPtr_at_ends g h hr (parent_double (by omega) hi) hsec hN

theorem bmapRead_ends (g : Regions sb) (h : Shows sb s I r) (ho : Own sb I V X) {x index : Nat}
    (hi : index < maxFileBlocks) (hN : N (bmap I.blk (V x) index) s) :
    (bmapRead sb (V x) index).Ends s N E :=
  bmapRead_any g h (ho.range x) hi hN

/-- `bmap_read` past `MAX_FILE_BLOCKS`. -/
theorem bmapRead_efbig {ino : Inode} {index : Nat} (hi : maxFileBlocks ≤ index)
    (hE : E (.fsError .efbig) s) : (bmapRead sb ino index).Ends s N E := by
  unfold maxFileBlocks at hi
  unfold bmapRead
  rw [dif_neg (by omega), if_neg (by omega), if_pos (by omega)]
  exact hE

end Read

/-! ## Filling a hole -/

/-- `b` is `a` but for its pointers and the count of them. -/
structure SameMeta (a b : Inode) : Prop where
  id : b.id = a.id
  mode : b.mode = a.mode
  linkCount : b.linkCount = a.linkCount
  size : b.size = a.size
  mtime : b.mtime = a.mtime
  pad : b.pad = a.pad

/-- What `bmap_alloc` of file block `index` of inode `x` does to the image. -/
structure Grew (I : Image) (V : Nat → Inode) (x index : Nat) (I' : Image) (m : Mapped) : Prop where
  super : I'.super = I.super
  ibit : I'.ibit = I.ibit
  inode : I'.inode = I.inode
  same : SameMeta (V x) m.ino
  block : bmap I'.blk m.ino index = m.block
  nonzero : m.block ≠ 0
  others : ∀ i, i ≠ index → bmap I'.blk m.ino i = bmap I.blk (V x) i
  fresh : m.fresh = true → bmap I.blk (V x) index = 0
  stale : m.fresh = false → I' = I ∧ m.ino = V x
  /-- Only indirect blocks of `x` have changed. -/
  touched : ∀ B, I'.blk B ≠ I.blk B → ∃ q, q.indirect = true ∧ ptr I'.blk m.ino q = B
  frame : ∀ y, y ≠ x → ∀ p, ptr I'.blk (V y) p = ptr I.blk (V y) p

/-- The positions on the way down to file block `i`. -/
def path (i : Nat) : List Pos :=
  if i < 12 then [.data i]
  else if i < 1036 then [.single, .data i]
  else [.double, .second ((i - 1036) / 1024), .data i]

/-- What is missing on the way to file block `index`. -/
def holes (blk : Nat → Block) (ino : Inode) (index : Nat) : Nat :=
  (path index).countP fun p => ptr blk ino p == 0

theorem holes_le (blk : Nat → Block) (ino : Inode) (i : Nat) : holes blk ino i ≤ 3 := by
  refine List.countP_le_length.trans ?_
  unfold path
  split
  · exact Nat.le_add_left 1 2
  · split
    · exact Nat.le_succ 2
    · exact le_refl 3

/-- What `bmap_alloc` of file block `index` took from the allocator: the blocks of `N`, each for
    one position on the way to `index` that had none. -/
structure Took (sb : Superblock) (s : FileSystem) (I : Image) (ino : Inode) (index : Nat)
    (s' : FileSystem) (I' : Image) (m : Mapped) (N : List (Pos × Nat)) : Prop where
  new : ∀ n ∈ N, n.1 ∈ path index ∧ ptr I.blk ino n.1 = 0 ∧ ptr I'.blk m.ino n.1 = n.2
  old : ∀ p, p ∉ N.map Prod.fst → ptr I'.blk m.ino p = ptr I.blk ino p
  nodup : (N.map Prod.snd).Nodup
  few : N.length ≤ 3
  free : ∀ b ∈ N.map Prod.snd, sb.dataStart.toNat ≤ b ∧ b < sb.totalBlocks.toNat ∧ I.dbit b = false
  dbit : I'.dbit = (I.setDBits (N.map Prod.snd)).dbit
  count : m.ino.blockCount = ino.blockCount + UInt32.ofNat N.length
  fresh : m.fresh = true ↔ N ≠ []
  /-- Written are the bitmap blocks of the new blocks, and what their pointers lie in. -/
  writes : Writes s s' (bitmapBlocks sb (N.map Prod.snd) ∪
    {B | ∃ n ∈ N, ∃ q k, n.1.parent = some (q, k) ∧ ptr I'.blk m.ino q = B})

section Grow

variable {sb : Superblock} {s : FileSystem} {I : Image} {r : Side} {V : Nat → Inode} {X : Set Nat}
  {E : Exn → FileSystem → Prop} {M : Mapped → FileSystem → Prop}

/-- Nothing to do: the block is there. -/
theorem Grew.refl {x index b : Nat} (hb : bmap I.blk (V x) index = b) (h0 : b ≠ 0) :
    Grew I V x index I ⟨V x, b, false⟩ where
  super := rfl
  ibit := rfl
  inode := rfl
  same := ⟨rfl, rfl, rfl, rfl, rfl, rfl⟩
  block := hb
  nonzero := h0
  others _ _ := rfl
  fresh := nofun
  stale _ := ⟨rfl, rfl⟩
  touched _ h := absurd rfl h
  frame _ _ _ := rfl

/-- A new block at file block `index`, with new indirect blocks above it at the positions where
    `f` differs from the old pointers. -/
theorem Grew.of_ptr {x index b : Nat} {I' : Image} {ino' : Inode} {f : Pos → Nat}
    (hrest : I'.super = I.super ∧ I'.ibit = I.ibit ∧ I'.inode = I.inode)
    (hsame : SameMeta (V x) ino') (hb0 : b ≠ 0) (h0 : bmap I.blk (V x) index = 0)
    (hptr : ptr I'.blk ino' = Function.update f (.data index) b)
    (hf : ∀ i, f (.data i) = bmap I.blk (V x) i)
    (htouched : ∀ B, I'.blk B ≠ I.blk B → ∃ q, q.indirect = true ∧ f q = B)
    (hframe : ∀ y, y ≠ x → ∀ p, ptr I'.blk (V y) p = ptr I.blk (V y) p) :
    Grew I V x index I' ⟨ino', b, true⟩ where
  super := hrest.1
  ibit := hrest.2.1
  inode := hrest.2.2
  same := hsame
  block := by
    show ptr I'.blk ino' (.data index) = b
    rw [hptr, Function.update_self]
  nonzero := hb0
  others i hi := by
    show ptr I'.blk ino' (.data i) = _
    rw [hptr, Function.update_of_ne (by simpa using hi), hf]
  fresh _ := h0
  stale := nofun
  touched B hB := by
    obtain ⟨q, hq, hfq⟩ := htouched B hB
    refine ⟨q, hq, ?_⟩
    have hne : q ≠ .data index := by
      rintro rfl
      cases hq
    show ptr I'.blk ino' q = B
    rw [hptr, Function.update_of_ne hne, hfq]
  frame := hframe

/-- Every block is spare until it is linked. -/
theorem spare_diff (ho : Own sb I V X) {L : List Nat} (hL : ∀ b ∈ L, I.dbit b = false) :
    (X ∪ {b | b ∈ L}) \ {b | b ∈ L} = X := by
  ext b
  constructor
  · rintro ⟨h1 | h1, h2⟩
    · exact h1
    · exact absurd h1 h2
  · intro hb
    refine ⟨.inl hb, fun h => ?_⟩
    have := ho.dbit_of_spare hb
    rw [hL b h] at this
    exact Bool.noConfusion this

theorem setDBits_singleton (b : Nat) : I.putDBit b true = I.setDBits [b] := by
  simp only [Image.putDBit, Image.setDBits, Image.mk.injEq, true_and, and_true]
  funext B
  by_cases hB : B = b
  · simp [hB]
  · simp [hB]

/-- One new block, in the inode itself. -/
theorem grow_direct (g : Regions sb) (ho : Own sb I V X) {x b : Nat} (i : Fin 12)
    (h0 : bmap I.blk (V x) i = 0) (h1 : sb.dataStart.toNat ≤ b) (h2 : b < sb.totalBlocks.toNat)
    (h3 : I.dbit b = false) :
    Own sb (I.setDBits [b]) (Function.update V x (((V x).setDirect i b).addBlocks 1)) X ∧
      Grew I V x i (I.setDBits [b]) ⟨((V x).setDirect i b).addBlocks 1, b, true⟩ ∧
      ptr I.blk (((V x).setDirect i b).addBlocks 1)
        = Function.update (ptr I.blk (V x)) (.data i) b := by
  have hor := g.order
  have hL : ∀ c ∈ [b], sb.dataStart.toNat ≤ c ∧ c < sb.totalBlocks.toNat ∧ I.dbit c = false := by
    intro c hc
    rw [List.mem_singleton.mp hc]
    exact ⟨h1, h2, h3⟩
  have hptr : ptr I.blk (((V x).setDirect i b).addBlocks 1)
      = Function.update (ptr I.blk (V x)) (.data i) b :=
    (ptr_fields ((V x).setDirect i b) _ rfl rfl rfl).trans
      (ptr_setDirect (V x) i (by omega))
  have hown := (ho.mark hL).link x b (.data i) (((V x).setDirect i b).addBlocks 1) I.blk
    (.inr (List.mem_singleton.mpr rfl)) h0 g hptr (fun _ _ _ => rfl) rfl
  have hX : (X ∪ {c | c ∈ [b]}) \ {b} = X := by
    have := spare_diff ho (L := [b]) fun c hc => (hL c hc).2.2
    rw [← this]
    ext c
    simp
  rw [hX] at hown
  exact ⟨hown, Grew.of_ptr ⟨rfl, rfl, rfl⟩ ⟨rfl, rfl, rfl, rfl, rfl, rfl⟩ (by omega) h0 hptr
    (fun _ => rfl) (fun B hB => absurd rfl hB) fun _ _ _ => rfl, hptr⟩

/-- One new block, in an indirect block that is there. -/
theorem grow_leaf (g : Regions sb) (ho : Own sb I V X) {x b k index : Nat} {q : Pos}
    (hp : (Pos.data index).parent = some (q, k)) (hq0 : ptr I.blk (V x) q ≠ 0)
    (h0 : bmap I.blk (V x) index = 0) (h1 : sb.dataStart.toNat ≤ b)
    (h2 : b < sb.totalBlocks.toNat) (h3 : I.dbit b = false) {I' : Image}
    (hI' : I' = (I.setDBits [b]).putBlk (ptr I.blk (V x) q)
      (setPtrAt (I.blk (ptr I.blk (V x) q)) k (UInt32.ofNat b))) :
    Own sb I' (Function.update V x ((V x).addBlocks 1)) X ∧
      Grew I V x index I' ⟨(V x).addBlocks 1, b, true⟩ ∧
      ptr I'.blk ((V x).addBlocks 1) = Function.update (ptr I.blk (V x)) (.data index) b := by
  have hor := g.order
  have hL : ∀ c ∈ [b], sb.dataStart.toNat ≤ c ∧ c < sb.totalBlocks.toNat ∧ I.dbit c = false := by
    intro c hc
    rw [List.mem_singleton.mp hc]
    exact ⟨h1, h2, h3⟩
  obtain ⟨hown, hptr, hframe⟩ := (ho.mark hL).linkPtr g x b hp hq0 h0
    (.inr (List.mem_singleton.mpr rfl)) nofun hI'
  have hX : (X ∪ {c | c ∈ [b]}) \ {b} = X := by
    have := spare_diff ho (L := [b]) fun c hc => (hL c hc).2.2
    rw [← this]
    ext c
    simp
  rw [hX] at hown
  refine ⟨hown, Grew.of_ptr (by rw [hI']; exact ⟨rfl, rfl, rfl⟩) ⟨rfl, rfl, rfl, rfl, rfl, rfl⟩
    (by omega) h0 hptr (fun _ => rfl) (fun B hB => ⟨q, (Pos.parent_spec hp).1, ?_⟩) hframe, hptr⟩
  by_contra hne
  rw [hI'] at hB
  exact hB (Function.update_of_ne (fun h => hne h.symm) _ _)

/-- Two new blocks: a single-indirect block and the first block below it. -/
theorem grow_single (g : Regions sb) (ho : Own sb I V X) {x a b index : Nat} (hi1 : 12 ≤ index)
    (hi2 : index < 1036) (hs : (V x).singleIndirect = 0)
    (hL : ∀ c ∈ [a, b], sb.dataStart.toNat ≤ c ∧ c < sb.totalBlocks.toNat ∧ I.dbit c = false)
    (hne : a ≠ b) {I' : Image} {ino' : Inode}
    (hI' : I' = (I.setDBits [a, b]).putBlk a
      (setPtrAt (Bytes.zero 4096) (index - 12) (UInt32.ofNat b)))
    (hino : ino' = ({ V x with singleIndirect := UInt32.ofNat a } : Inode).addBlocks 2) :
    Own sb I' (Function.update V x ino') X ∧ Grew I V x index I' ⟨ino', b, true⟩ ∧
      ptr I'.blk ino'
        = Function.update (Function.update (ptr I.blk (V x)) .single a) (.data index) b := by
  have hor := g.order
  have ha := hL a (by simp)
  have hb := hL b (by simp)
  have hspare : ∀ c ∈ [a, b], c ∈ X ∪ {c | c ∈ [a, b]} := fun c hc => .inr hc
  have hfree : ∀ c ∈ [a, b], ∀ y p, ptr I.blk (V y) p ≠ c :=
    fun c hc => (ho.mark hL).spare c (hspare c hc)
  have hp0 : ptr I.blk (V x) .single = 0 := toNat_eq_zero.mpr hs
  have hd0 : bmap I.blk (V x) index = 0 := by
    rw [bmap_single hi1 hi2, if_pos (toNat_eq_zero.mpr hs)]
  -- the new indirect block starts from zeros, and is linked first
  have hown1 := (ho.mark hL).putBlk a (Bytes.zero 4096) fun y q _ => hfree a (by simp) y q
  have hptr0 : ptr ((I.setDBits [a, b]).putBlk a (Bytes.zero 4096)).blk (V x)
      = ptr I.blk (V x) := by
    funext p
    exact Own.ptr_putBlk (I.setDBits [a, b]) V a _ (fun y q _ => hfree a (by simp) y q) x p
  generalize hI1 : (I.setDBits [a, b]).putBlk a (Bytes.zero 4096) = I1 at hown1 hptr0
  have hblk1 : ∀ B, B ≠ a → I1.blk B = I.blk B := by
    intro B hB
    rw [← hI1]
    exact Function.update_of_ne hB _ _
  have hblka : I1.blk a = Bytes.zero 4096 := by
    rw [← hI1]
    exact Function.update_self _ _ _
  have hano : (UInt32.ofNat a).toNat = a :=
    UInt32.toNat_ofNat_of_lt' (by simp only [UInt32.size]; omega)
  obtain ⟨hown2, hptr2⟩ := hown1.linkRoot g x a .single
    (({ V x with singleIndirect := UInt32.ofNat a } : Inode).addBlocks 1) rfl rfl
    (by rw [hptr0]; exact hp0) (hspare a (by simp)) hano
    (by
      intro q hq hqs
      rcases Pos.parent_eq_none hq with ⟨i, rfl, hi | hi⟩ | rfl | rfl | ⟨j, rfl, hj⟩
      · simp only [ptr, bmap, dif_pos hi]
        rfl
      · unfold maxFileBlocks at hi
        simp only [ptr, bmap]
        rw [dif_neg (by omega), if_neg (by omega), if_neg (by omega), dif_neg (by omega),
          if_neg (by omega), if_neg (by omega)]
      · exact absurd rfl hqs
      · rfl
      · rfl)
    (by rw [hblka]; exact noPtrs_zero) rfl
  rw [hptr0] at hptr2
  generalize hino1 : ({ V x with singleIndirect := UInt32.ofNat a } : Inode).addBlocks 1 = ino1
    at hown2 hptr2
  have hsingle : ptr I1.blk ino1 .single = a := by rw [hptr2, Function.update_self]
  -- then the data block below it
  obtain ⟨hown3, hptr3, hframe3⟩ := hown2.linkPtr g x b
    (parent_single hi1 hi2)
    (by rw [Function.update_self, hsingle]; omega)
    (by
      rw [Function.update_self, hptr2,
        Function.update_of_ne (show Pos.data index ≠ .single from (by intro h; contradiction))]
      exact hd0)
    ⟨hspare b (by simp), fun h => hne h.symm⟩ (by intros; contradiction)
    (show I' = _ by
      rw [Function.update_self, hsingle, hblka, hI', ← hI1]
      simp only [Image.putBlk, Function.update_idem])
  rw [Function.update_self] at hown3 hptr3
  have hino2 : ino1.addBlocks 1 = ino' := by
    rw [← hino1, hino]
    simp only [Inode.addBlocks, Inode.mk.injEq, true_and, and_true, UInt32.add_assoc]
    rfl
  rw [hino2, Function.update_idem] at hown3
  rw [hino2, hptr2] at hptr3
  have hX : ((X ∪ {c | c ∈ [a, b]}) \ {a}) \ {b} = X := by
    rw [← spare_diff ho (L := [a, b]) fun c hc => (hL c hc).2.2]
    ext c
    simp
    tauto
  rw [hX] at hown3
  refine ⟨hown3, Grew.of_ptr (by rw [hI']; exact ⟨rfl, rfl, rfl⟩)
    (by rw [hino]; exact ⟨rfl, rfl, rfl, rfl, rfl, rfl⟩) (by omega) hd0 hptr3
    (fun i => Function.update_of_ne (show Pos.data i ≠ .single from
    (by intro h; contradiction)) _ _)
    (fun B hB => ⟨.single, rfl, ?_⟩) fun y hy p => ?_, hptr3⟩
  · rw [Function.update_self]
    by_contra hBa
    rw [hI'] at hB
    exact hB (Function.update_of_ne (fun h => hBa h.symm) _ _)
  · have h3 := hframe3 y hy p
    rw [Function.update_of_ne hy] at h3
    rw [h3, ← hI1]
    exact Own.ptr_putBlk (I.setDBits [a, b]) V a _ (fun y q _ => hfree a (by simp) y q) y p

/-- Two new blocks: a second-level block and the first block below it. -/
theorem grow_second (g : Regions sb) (ho : Own sb I V X) {x a b index : Nat} (hi1 : 1036 ≤ index)
    (hi2 : index < maxFileBlocks) (ht0 : ptr I.blk (V x) .double ≠ 0)
    (hs0 : ptr I.blk (V x) (.second ((index - 1036) / 1024)) = 0)
    (hL : ∀ c ∈ [a, b], sb.dataStart.toNat ≤ c ∧ c < sb.totalBlocks.toNat ∧ I.dbit c = false)
    (hne : a ≠ b) {I' : Image}
    (hI' : I' = ((I.setDBits [a, b]).putBlk a
        (setPtrAt (Bytes.zero 4096) ((index - 1036) % 1024) (UInt32.ofNat b))).putBlk
      (ptr I.blk (V x) .double) (setPtrAt (I.blk (ptr I.blk (V x) .double))
        ((index - 1036) / 1024) (UInt32.ofNat a))) :
    Own sb I' (Function.update V x ((V x).addBlocks 2)) X ∧
      Grew I V x index I' ⟨(V x).addBlocks 2, b, true⟩ ∧
      ptr I'.blk ((V x).addBlocks 2) = Function.update (Function.update (ptr I.blk (V x))
        (.second ((index - 1036) / 1024)) a) (.data index) b := by
  have hor := g.order
  have hj : (index - 1036) / 1024 < 1024 := by unfold maxFileBlocks at hi2; omega
  have ha := hL a (by simp)
  have hb := hL b (by simp)
  have hspare : ∀ c ∈ [a, b], c ∈ X ∪ {c | c ∈ [a, b]} := fun c hc => .inr hc
  have hfree : ∀ c ∈ [a, b], ∀ y p, ptr I.blk (V y) p ≠ c :=
    fun c hc => (ho.mark hL).spare c (hspare c hc)
  have hta : ptr I.blk (V x) .double ≠ a := hfree a (by simp) x .double
  have hd0 : bmap I.blk (V x) index = 0 := by
    rw [bmap_double hi1 hi2, if_pos hs0]
  have hown1 := (ho.mark hL).putBlk a (Bytes.zero 4096) fun y q _ => hfree a (by simp) y q
  have hptr1 : ∀ y, ptr ((I.setDBits [a, b]).putBlk a (Bytes.zero 4096)).blk (V y)
      = ptr I.blk (V y) := by
    intro y
    funext p
    exact Own.ptr_putBlk (I.setDBits [a, b]) V a _ (fun y q _ => hfree a (by simp) y q) y p
  generalize hI1 : (I.setDBits [a, b]).putBlk a (Bytes.zero 4096) = I1 at hown1 hptr1
  have hblka : I1.blk a = Bytes.zero 4096 := by
    rw [← hI1]
    exact Function.update_self _ _ _
  have hblkt : I1.blk (ptr I.blk (V x) .double) = I.blk (ptr I.blk (V x) .double) := by
    rw [← hI1]
    exact Function.update_of_ne hta _ _
  -- the second-level block first, then the data block below it
  obtain ⟨hown2, hptr2, hframe2⟩ := hown1.linkPtr g x a (parent_second hj)
    (by rw [hptr1]; exact ht0) (by rw [hptr1]; exact hs0) (hspare a (by simp))
    (fun _ => by rw [hblka]; exact noPtrs_zero) rfl
  simp only [hptr1, hblkt] at hown2 hptr2 hframe2
  generalize hI2 : I1.putBlk (ptr I.blk (V x) .double) (setPtrAt (I.blk (ptr I.blk (V x) .double))
    ((index - 1036) / 1024) (UInt32.ofNat a)) = I2 at hown2 hptr2 hframe2
  have hblka2 : I2.blk a = Bytes.zero 4096 := by
    rw [← hI2, ← hblka]
    exact Function.update_of_ne hta.symm _ _
  have hsec : ptr I2.blk ((V x).addBlocks 1) (.second ((index - 1036) / 1024)) = a := by
    rw [hptr2, Function.update_self]
  obtain ⟨hown3, hptr3, hframe3⟩ := hown2.linkPtr g x b (parent_double hi1 hi2)
    (by rw [Function.update_self, hsec]; omega)
    (by
      rw [Function.update_self, hptr2,
        Function.update_of_ne (show Pos.data index ≠ .second ((index - 1036) / 1024) from
        (by intro h; contradiction))]
      exact hd0)
    ⟨hspare b (by simp), fun h => hne h.symm⟩ (by intros; contradiction)
    (show I' = _ by
      rw [Function.update_self, hsec, hblka2, hI', ← hI2, ← hI1]
      simp only [Image.putBlk]
      rw [Function.update_comm hta, Function.update_idem, Function.update_comm hta.symm])
  rw [Function.update_self] at hown3 hptr3
  have hino2 : ((V x).addBlocks 1).addBlocks 1 = (V x).addBlocks 2 := by
    simp only [Inode.addBlocks, Inode.mk.injEq, true_and, and_true, UInt32.add_assoc]
    rfl
  rw [hino2, Function.update_idem] at hown3
  rw [hino2, hptr2] at hptr3
  have hX : ((X ∪ {c | c ∈ [a, b]}) \ {a}) \ {b} = X := by
    rw [← spare_diff ho (L := [a, b]) fun c hc => (hL c hc).2.2]
    ext c
    simp
    tauto
  rw [hX] at hown3
  refine ⟨hown3, Grew.of_ptr (by rw [hI']; exact ⟨rfl, rfl, rfl⟩) ⟨rfl, rfl, rfl, rfl, rfl, rfl⟩
    (by omega) hd0 hptr3
    (fun i => Function.update_of_ne (show Pos.data i ≠ .second _ from
    (by intro h; contradiction)) _ _)
    (fun B hB => ?_) fun y hy p => ?_, hptr3⟩
  · by_cases hBa : a = B
    · exact ⟨.second _, rfl, by rw [Function.update_self, hBa]⟩
    · refine ⟨.double, rfl, ?_⟩
      rw [Function.update_of_ne (show Pos.double ≠ .second _ from (by intro h; contradiction))]
      by_contra hBt
      rw [hI'] at hB
      refine hB ((Function.update_of_ne (fun h => hBt h.symm) _ _).trans ?_)
      exact Function.update_of_ne (fun h => hBa h.symm) _ _
  · have h3 := hframe3 y hy p
    rw [Function.update_of_ne hy] at h3
    rw [h3, hframe2 y hy p]

/-- Three new blocks: the top of the double-indirect tree, a second-level block, and the first
    block below it. -/
theorem grow_top (g : Regions sb) (ho : Own sb I V X) {x t a b index : Nat} (hi1 : 1036 ≤ index)
    (hi2 : index < maxFileBlocks) (ht0 : (V x).doubleIndirect = 0)
    (hL : ∀ c ∈ [t, a, b], sb.dataStart.toNat ≤ c ∧ c < sb.totalBlocks.toNat ∧ I.dbit c = false)
    (hta : t ≠ a) (htb : t ≠ b) (hab : a ≠ b) {I' : Image} {ino' : Inode}
    (hI' : I' = ((I.setDBits [t, a, b]).putBlk a
        (setPtrAt (Bytes.zero 4096) ((index - 1036) % 1024) (UInt32.ofNat b))).putBlk t
      (setPtrAt (Bytes.zero 4096) ((index - 1036) / 1024) (UInt32.ofNat a)))
    (hino : ino' = ({ V x with doubleIndirect := UInt32.ofNat t } : Inode).addBlocks 3) :
    Own sb I' (Function.update V x ino') X ∧ Grew I V x index I' ⟨ino', b, true⟩ ∧
      ptr I'.blk ino' = Function.update (Function.update (Function.update (ptr I.blk (V x))
        .double t) (.second ((index - 1036) / 1024)) a) (.data index) b := by
  have hor := g.order
  have hj : (index - 1036) / 1024 < 1024 := by unfold maxFileBlocks at hi2; omega
  have ht := hL t (by simp)
  have ha := hL a (by simp)
  have hb := hL b (by simp)
  have hspare : ∀ c ∈ [t, a, b], c ∈ X ∪ {c | c ∈ [t, a, b]} := fun c hc => .inr hc
  have hfree : ∀ c ∈ [t, a, b], ∀ y p, ptr I.blk (V y) p ≠ c :=
    fun c hc => (ho.mark hL).spare c (hspare c hc)
  have hp0 : ptr I.blk (V x) .double = 0 := toNat_eq_zero.mpr ht0
  have hs0 : ptr I.blk (V x) (.second ((index - 1036) / 1024)) = 0 := by
    rw [ptr_of_parent (parent_second hj), if_pos hp0]
  have hd0 : bmap I.blk (V x) index = 0 := by
    rw [bmap_double hi1 hi2, if_pos hs0]
  -- both new indirect blocks start from zeros
  have hptra := Own.ptr_putBlk (I.setDBits [t, a, b]) V a (Bytes.zero 4096)
    fun y q _ => hfree a (by simp) y q
  have hown1 := ((ho.mark hL).putBlk a (Bytes.zero 4096)
    fun y q _ => hfree a (by simp) y q).putBlk t (Bytes.zero 4096)
    fun y q _ => by rw [hptra]; exact hfree t (by simp) y q
  have hptr1 : ∀ y, ptr (((I.setDBits [t, a, b]).putBlk a (Bytes.zero 4096)).putBlk t
      (Bytes.zero 4096)).blk (V y) = ptr I.blk (V y) := by
    intro y
    funext p
    rw [Own.ptr_putBlk _ V t (Bytes.zero 4096)
      (fun y q _ => by rw [hptra]; exact hfree t (by simp) y q) y p, hptra]
    rfl
  generalize hI1 : ((I.setDBits [t, a, b]).putBlk a (Bytes.zero 4096)).putBlk t (Bytes.zero 4096)
    = I1 at hown1 hptr1
  have hblkt : I1.blk t = Bytes.zero 4096 := by
    rw [← hI1]
    exact Function.update_self _ _ _
  have hblka : I1.blk a = Bytes.zero 4096 := by
    rw [← hI1]
    exact (Function.update_of_ne hta.symm _ _).trans (Function.update_self _ _ _)
  have htno : (UInt32.ofNat t).toNat = t :=
    UInt32.toNat_ofNat_of_lt' (by simp only [UInt32.size]; omega)
  -- the top, then the second-level block, then the data block
  obtain ⟨hown2, hptr2⟩ := hown1.linkRoot g x t .double
    (({ V x with doubleIndirect := UInt32.ofNat t } : Inode).addBlocks 1) rfl rfl
    (by rw [hptr1]; exact hp0) (hspare t (by simp)) htno
    (by
      intro q hq hqs
      rcases Pos.parent_eq_none hq with ⟨i, rfl, hi | hi⟩ | rfl | rfl | ⟨j, rfl, hj⟩
      · simp only [ptr, bmap, dif_pos hi]
        rfl
      · unfold maxFileBlocks at hi
        simp only [ptr, bmap]
        rw [dif_neg (by omega), if_neg (by omega), if_neg (by omega), dif_neg (by omega),
          if_neg (by omega), if_neg (by omega)]
      · rfl
      · exact absurd rfl hqs
      · simp only [ptr, show ¬ j < 1024 by omega, false_and, if_false])
    (by rw [hblkt]; exact noPtrs_zero) rfl
  rw [hptr1] at hptr2
  generalize hino1 : ({ V x with doubleIndirect := UInt32.ofNat t } : Inode).addBlocks 1 = ino1
    at hown2 hptr2
  have hdouble : ptr I1.blk ino1 .double = t := by rw [hptr2, Function.update_self]
  obtain ⟨hown3, hptr3, hframe3⟩ := hown2.linkPtr g x a (parent_second hj)
    (by rw [Function.update_self, hdouble]; omega)
    (by
      rw [Function.update_self, hptr2, Function.update_of_ne
        (show Pos.second _ ≠ .double from (by intro h; contradiction))]
      exact hs0)
    ⟨hspare a (by simp), fun h => hta h.symm⟩ (fun _ => by rw [hblka]; exact noPtrs_zero) rfl
  simp only [Function.update_self, hdouble, hblkt, Function.update_idem] at hown3 hptr3 hframe3
  generalize hI2 : I1.putBlk t (setPtrAt (Bytes.zero 4096) ((index - 1036) / 1024)
    (UInt32.ofNat a)) = I2 at hown3 hptr3 hframe3
  have hblka2 : I2.blk a = Bytes.zero 4096 := by
    rw [← hI2, ← hblka]
    exact Function.update_of_ne hta.symm _ _
  have hsec : ptr I2.blk (ino1.addBlocks 1) (.second ((index - 1036) / 1024)) = a := by
    rw [hptr3, Function.update_self]
  obtain ⟨hown4, hptr4, hframe4⟩ := hown3.linkPtr g x b (parent_double hi1 hi2)
    (by rw [Function.update_self, hsec]; omega)
    (by
      rw [Function.update_self, hptr3, Function.update_of_ne
        (show Pos.data _ ≠ .second _ from (by intro h; contradiction)),
        hptr2, Function.update_of_ne (show Pos.data _ ≠ .double from (by intro h; contradiction))]
      exact hd0)
    ⟨⟨hspare b (by simp), fun h => htb h.symm⟩, fun h => hab h.symm⟩ (by intros; contradiction)
    (show I' = _ by
      rw [Function.update_self, hsec, hblka2, hI', ← hI2, ← hI1]
      simp only [Image.putBlk, Function.update_idem]
      rw [Function.update_comm hta, Function.update_idem, Function.update_comm hta.symm])
  rw [Function.update_self] at hown4 hptr4
  have hino2 : (ino1.addBlocks 1).addBlocks 1 = ino' := by
    rw [← hino1, hino]
    simp only [Inode.addBlocks, Inode.mk.injEq, true_and, and_true, UInt32.add_assoc]
    rfl
  rw [hino2, Function.update_idem] at hown4
  rw [hino2, hptr3, hptr2] at hptr4
  have hX : (((X ∪ {c | c ∈ [t, a, b]}) \ {t}) \ {a}) \ {b} = X := by
    rw [← spare_diff ho (L := [t, a, b]) fun c hc => (hL c hc).2.2]
    ext c
    simp
    tauto
  rw [hX] at hown4
  refine ⟨hown4, Grew.of_ptr (by rw [hI']; exact ⟨rfl, rfl, rfl⟩)
    (by rw [hino]; exact ⟨rfl, rfl, rfl, rfl, rfl, rfl⟩) (by omega) hd0 hptr4
    (fun i => (Function.update_of_ne (show Pos.data i ≠ .second _ from
    (by intro h; contradiction)) _ _).trans
      (Function.update_of_ne (show Pos.data i ≠ .double from (by intro h; contradiction)) _ _))
    (fun B hB => ?_) fun y hy p => ?_, hptr4⟩
  · by_cases hBa : a = B
    · exact ⟨.second _, rfl, by rw [Function.update_self, hBa]⟩
    · refine ⟨.double, rfl, ?_⟩
      rw [Function.update_of_ne (show Pos.double ≠ .second _ from (by intro h; contradiction)),
        Function.update_self]
      by_contra hBt
      rw [hI'] at hB
      refine hB ((Function.update_of_ne (fun h => hBt h.symm) _ _).trans ?_)
      exact Function.update_of_ne (fun h => hBa h.symm) _ _
  · have h4 := hframe4 y hy p
    have h3 := hframe3 y hy p
    rw [Function.update_of_ne hy] at h3 h4
    rw [h4, h3, hptr1]

theorem update_same (V : Nat → Inode) (x : Nat) : Function.update V x (V x) = V :=
  Function.update_eq_self x V

theorem freeCount_eq_zero (h : ∀ B < sb.totalBlocks.toNat, I.dbit B = true) :
    freeCount sb I = 0 := by
  unfold freeCount
  rw [Finset.card_eq_zero, Finset.filter_eq_empty_iff]
  intro B hB
  rw [h B (Finset.mem_range.mp hB)]
  exact Bool.noConfusion

theorem setPtr_ends (g : Regions sb) (h : Shows sb s I r) {b i v : Nat} (fresh : Bool)
    (h1 : sb.dataStart.toNat ≤ b) (h2 : b < sb.totalBlocks.toNat) {U : Unit → FileSystem → Prop}
    (hU : ∀ s', Shows sb s' (I.putBlk b
      (setPtrAt (if fresh then Bytes.zero 4096 else I.blk b) i (UInt32.ofNat v))) r →
      Writes s s' {b} → U () s') :
    (setPtr sb b fresh i v).Ends s U E :=
  writeBlock_writes g h h1 h2 fresh _ hU

theorem parent_data_lt {i : Nat} (h : i < 12) : (Pos.data i).parent = none := if_pos h

theorem path_lt {i : Nat} (h : i < 12) : path i = [.data i] := if_pos h

theorem path_single {i : Nat} (h1 : 12 ≤ i) (h2 : i < 1036) : path i = [.single, .data i] := by
  unfold path
  rw [if_neg (by omega), if_pos h2]

theorem path_double {i : Nat} (h : 1036 ≤ i) :
    path i = [.double, .second ((i - 1036) / 1024), .data i] := by
  unfold path
  rw [if_neg (by omega), if_neg (by omega)]

theorem holes_double {blk : Nat → Block} {ino : Inode} {i : Nat} (h : 1036 ≤ i) :
    holes blk ino i = (if ptr blk ino .double = 0 then 1 else 0)
      + (if ptr blk ino (.second ((i - 1036) / 1024)) = 0 then 1 else 0)
      + (if bmap blk ino i = 0 then 1 else 0) := by
  have hcount : ∀ (p : Pos) (l : List Pos), (p :: l).countP (fun q => ptr blk ino q == 0)
      = (if ptr blk ino p = 0 then 1 else 0) + l.countP fun q => ptr blk ino q == 0 := by
    intro p l
    rw [List.countP_cons, Nat.add_comm]
    simp only [beq_iff_eq]
  rw [holes, path_double h, hcount, hcount, hcount, List.countP_nil, Nat.add_zero, Nat.add_assoc]
  rfl

/-- Nothing to do: nothing is taken. -/
theorem Took.refl (s : FileSystem) (I : Image) (ino : Inode) (index b : Nat) :
    Took sb s I ino index s I ⟨ino, b, false⟩ [] where
  new _ hn := absurd hn List.not_mem_nil
  old _ _ := rfl
  nodup := List.nodup_nil
  few := by simp
  free _ hn := absurd hn List.not_mem_nil
  dbit := by simp [Image.setDBits]
  count := by
    show ino.blockCount = ino.blockCount + 0
    rw [UInt32.add_zero]
  fresh := by simp
  writes := (Writes.refl s).congr (by simp [bitmapBlocks])

theorem bmapAllocDirect_writes (g : Regions sb) (h : Shows sb s I r) (ho : Own sb I V X) (x : Nat)
    (i : Fin 12)
    (hok : ∀ m s' I' N, Shows sb s' I' r → Own sb I' (Function.update V x m.ino) X →
      Grew I V x i I' m → Took sb s I (V x) i s' I' m N → M m s')
    (hfull : ∀ L s', List.length L ≤ 2 → Shows sb s' I r → Writes s s' (bitmapBlocks sb L) →
      bmap I.blk (V x) i = 0 → freeCount sb I < holes I.blk (V x) i → E (.fsError .enospc) s') :
    (bmapAllocDirect sb (V x) i).Ends s M E := by
  have hbm : bmap I.blk (V x) i = ((V x).direct i).toNat := by
    unfold bmap
    rw [dif_pos i.isLt]
  unfold bmapAllocDirect
  by_cases h0 : (V x).direct i = 0
  · have hb0 : bmap I.blk (V x) i = 0 := hbm.trans (toNat_eq_zero.mpr h0)
    rw [if_neg (by simpa using h0), Prog.ends_bind]
    refine allocBlock_any g h (fun b s' h1 h2 h3 _ hs' hw => ?_) (fun b hb h3 _ => ?_)
      fun hall => ?_
    · obtain ⟨hown, hgrew, hptr⟩ := grow_direct g ho i hb0 h1 h2 h3
      refine hok _ s' _ [(.data i, b)] (hs'.congr (setDBits_singleton b)) hown hgrew ?_
      constructor
      · intro n hn
        rw [List.mem_singleton.mp hn, path_lt i.isLt]
        exact ⟨List.mem_singleton.mpr rfl, hb0, (congrFun hptr _).trans
          (Function.update_self _ _ _)⟩
      · intro p hp
        exact (congrFun hptr p).trans (Function.update_of_ne (by simpa using hp) _ _)
      · exact List.nodup_singleton b
      · exact Nat.le_add_left 1 2
      · intro c hc
        rw [List.mem_singleton.mp hc]
        exact ⟨h1, h2, h3⟩
      · rfl
      · rfl
      · simp
      · refine hw.congr (Set.union_eq_left.mpr ?_).symm
        rintro B ⟨n, hn, q, k, hp, -⟩
        rw [List.mem_singleton.mp hn, parent_data_lt i.isLt] at hp
        cases hp
    · rw [ho.meta_marked g b hb] at h3
      exact Bool.noConfusion h3
    · refine hfull [] s (Nat.zero_le 2) h ?_ hb0 ?_
      · rw [bitmapBlocks_nil]
        exact .refl s
      · rw [freeCount_eq_zero hall, holes, path_lt i.isLt]
        simp [ptr, hb0]
  · rw [if_pos h0, Prog.ends_pure]
    have hne : ((V x).direct i).toNat ≠ 0 := fun hz => h0 (toNat_eq_zero.mp hz)
    exact hok _ s I [] h (by rw [update_same]; exact ho) (Grew.refl hbm hne) (.refl s I (V x) i _)

/-- A new data block below an indirect block that is there. -/
theorem Took.leaf {s₁ s₂ : FileSystem} {x b k index : Nat} {q : Pos} {I' : Image}
    (hp : (Pos.data index).parent = some (q, k)) (hmem : Pos.data index ∈ path index)
    (h0 : bmap I.blk (V x) index = 0)
    (hfree : sb.dataStart.toNat ≤ b ∧ b < sb.totalBlocks.toNat ∧ I.dbit b = false)
    (hdbit : I'.dbit = (I.setDBits [b]).dbit)
    (hptr : ptr I'.blk ((V x).addBlocks 1) = Function.update (ptr I.blk (V x)) (.data index) b)
    (hw : Writes s s₁ (bitmapBlocks sb [b])) (hw' : Writes s₁ s₂ {ptr I.blk (V x) q}) :
    Took sb s I (V x) index s₂ I' ⟨(V x).addBlocks 1, b, true⟩ [(.data index, b)] where
  new n hn := by
    rw [List.mem_singleton.mp hn]
    exact ⟨hmem, h0, (congrFun hptr _).trans (Function.update_self _ _ _)⟩
  old p hpn := (congrFun hptr p).trans (Function.update_of_ne (by simpa using hpn) _ _)
  nodup := List.nodup_singleton b
  few := Nat.le_add_left 1 2
  free c hc := by
    rw [List.mem_singleton.mp hc]
    exact hfree
  dbit := hdbit
  count := rfl
  fresh := by simp
  writes := by
    refine (hw.trans hw').congr (congrArg _ ?_)
    have hq : ptr I'.blk ((V x).addBlocks 1) q = ptr I.blk (V x) q :=
      (congrFun hptr q).trans (Function.update_of_ne (Pos.parent_spec hp).2.2 _ _)
    ext B
    constructor
    · rintro rfl
      exact ⟨_, List.mem_singleton.mpr rfl, q, k, hp, hq⟩
    · rintro ⟨n, hn, q', k', hp', rfl⟩
      rw [List.mem_singleton.mp hn, hp] at hp'
      cases hp'
      exact hq

theorem bmapAllocSingle_writes (g : Regions sb) (h : Shows sb s I r) (ho : Own sb I V X)
    (x : Nat) {index : Nat} (hi1 : 12 ≤ index) (hi2 : index < 1036)
    (hok : ∀ m s' I' N, Shows sb s' I' r → Own sb I' (Function.update V x m.ino) X →
      Grew I V x index I' m → Took sb s I (V x) index s' I' m N → M m s')
    (hfull : ∀ L s', List.length L ≤ 2 → Shows sb s' I r → Writes s s' (bitmapBlocks sb L) →
      bmap I.blk (V x) index = 0 → freeCount sb I < holes I.blk (V x) index →
      E (.fsError .enospc) s') :
    (bmapAllocSingle sb (V x) (index - 12)).Ends s M E := by
  have hp := parent_single hi1 hi2
  have hpath := path_single hi1 hi2
  unfold bmapAllocSingle
  by_cases hs : (V x).singleIndirect = 0
  · -- a new indirect block and a data block
    have hb0 : bmap I.blk (V x) index = 0 := by
      rw [bmap_single hi1 hi2, if_pos (toNat_eq_zero.mpr hs)]
    have hholes : holes I.blk (V x) index = 2 := by
      rw [holes, hpath]
      simp [ptr, hb0, toNat_eq_zero.mpr hs]
    rw [if_neg (by simpa using hs), Prog.ends_bind]
    refine allocAll_writes g h (ho.meta_marked g) 2 (fun L s' hlen hnd hL hs' hw => ?_)
      fun L s' hlen hs' hw hlt => hfull L s' (by omega) hs' hw hb0 (by omega)
    obtain ⟨a, b, rfl⟩ := List.length_eq_two.mp hlen
    have ha := hL a (by simp)
    have hab : a ≠ b := by simpa using hnd
    rw [Prog.ends_bind]
    refine setPtr_ends g hs' true ha.1 ha.2.1 fun s'' hs'' hw' => ?_
    obtain ⟨hown, hgrew, hptr⟩ := grow_single g ho hi1 hi2 hs hL hab rfl rfl
    refine hok _ s'' _ [(.single, a), (.data index, b)] hs'' hown hgrew ?_
    have hne : Pos.single ≠ .data index := fun h => by cases h
    have hpa := (congrFun hptr .single).trans (show _ = a by
      rw [Function.update_of_ne hne, Function.update_self])
    have hpb := (congrFun hptr (.data index)).trans (Function.update_self _ _ _)
    constructor
    · rw [hpath]
      exact List.forall_mem_cons.mpr ⟨⟨by simp, toNat_eq_zero.mpr hs, hpa⟩,
        List.forall_mem_singleton.mpr ⟨by simp, hb0, hpb⟩⟩
    · intro p hpn
      simp only [List.map_cons, List.map_nil, List.mem_cons, not_or, List.not_mem_nil,
        not_false_eq_true, and_true] at hpn
      exact (congrFun hptr p).trans ((Function.update_of_ne hpn.2 _ _).trans
        (Function.update_of_ne hpn.1 _ _))
    · exact hnd
    · exact Nat.le_succ 2
    · exact hL
    · rfl
    · rfl
    · simp
    · refine (hw.trans hw').congr (congrArg _ ?_)
      ext B
      constructor
      · rintro rfl
        exact ⟨(.data index, b), by simp, .single, index - 12, hp, hpa⟩
      · rintro ⟨n, hn, q, k, hq, rfl⟩
        rcases List.mem_cons.mp hn with rfl | hn
        · cases hq
        · rw [List.mem_singleton.mp hn, hp] at hq
          cases hq
          exact hpa
  · have hs0 : ptr I.blk (V x) .single ≠ 0 := fun hz => hs (toNat_eq_zero.mp hz)
    rw [if_pos hs, Prog.ends_bind]
    refine getPtr_at_ends g h (ho.range x) hp hs0 ?_
    by_cases hb0 : bmap I.blk (V x) index = 0
    · have hholes : 0 < holes I.blk (V x) index := by
        rw [holes, hpath]
        simp [ptr, hb0]
      rw [if_neg (by simpa [ptr] using hb0), Prog.ends_bind]
      refine allocBlock_any g h (fun b s' h1 h2 h3 _ hs' hw => ?_) (fun b hb h3 _ => ?_)
        fun hall => hfull [] s (Nat.zero_le 2) h ?_ hb0 (by rw [freeCount_eq_zero hall]; omega)
      · obtain ⟨hr1, hr2⟩ := ho.range x .single hs0
        rw [Prog.ends_bind]
        refine setPtr_ends g hs' false hr1 hr2 fun s'' hs'' hw' => ?_
        obtain ⟨hown, hgrew, hptr⟩ := grow_leaf g ho hp hs0 hb0 h1 h2 h3 rfl
        refine hok _ s'' _ [(.data index, b)] (hs''.congr ?_) hown hgrew
          (.leaf hp (by rw [hpath]; simp) hb0 ⟨h1, h2, h3⟩ rfl hptr hw hw')
        rw [setDBits_singleton]
        rfl
      · rw [ho.meta_marked g b hb] at h3
        exact Bool.noConfusion h3
      · rw [bitmapBlocks_nil]
        exact .refl s
    · rw [if_pos (by simpa [ptr] using hb0), Prog.ends_pure]
      exact hok _ s I [] h (by rw [update_same]; exact ho) (Grew.refl rfl hb0)
        (.refl s I (V x) index _)

theorem bmapAllocDouble_writes (g : Regions sb) (h : Shows sb s I r) (ho : Own sb I V X)
    (x : Nat) {index : Nat} (hi1 : 1036 ≤ index) (hi2 : index < maxFileBlocks)
    (hok : ∀ m s' I' N, Shows sb s' I' r → Own sb I' (Function.update V x m.ino) X →
      Grew I V x index I' m → Took sb s I (V x) index s' I' m N → M m s')
    (hfull : ∀ L s', List.length L ≤ 2 → Shows sb s' I r → Writes s s' (bitmapBlocks sb L) →
      bmap I.blk (V x) index = 0 → freeCount sb I < holes I.blk (V x) index →
      E (.fsError .enospc) s') :
    (bmapAllocDouble sb (V x) ((index - 1036) / 1024) ((index - 1036) % 1024)).Ends s M E := by
  have hj : (index - 1036) / 1024 < 1024 := by unfold maxFileBlocks at hi2; omega
  have hp := parent_double hi1 hi2
  have hpath := path_double hi1
  unfold bmapAllocDouble
  dsimp only
  by_cases ht : (V x).doubleIndirect = 0
  · -- nothing of the tree is there yet
    have ht0 : (V x).doubleIndirect.toNat = 0 := toNat_eq_zero.mpr ht
    have hs0 : ptr I.blk (V x) (.second ((index - 1036) / 1024)) = 0 := by
      rw [ptr_of_parent (parent_second hj)]
      exact if_pos ht0
    have hb0 : bmap I.blk (V x) index = 0 := by rw [bmap_double hi1 hi2, if_pos hs0]
    have hholes : holes I.blk (V x) index = 3 := by
      rw [holes_double hi1, if_pos (show ptr I.blk (V x) .double = 0 from ht0), if_pos hs0,
        if_pos hb0]
    simp only [ht0, ne_eq, not_true_eq_false, if_false, Prog.ends_pure, Prog.ends_bind,
      Prog.ends_ite, beq_self_eq_true, if_true]
    refine allocAll_writes g h (ho.meta_marked g) 3 (fun L s' hlen hnd hL hs' hw => ?_)
      fun L s' hlen hs' hw hlt => hfull L s' (by omega) hs' hw hb0 (by omega)
    obtain ⟨t, a, b, rfl⟩ := List.length_eq_three.mp hlen
    have ht' := hL t (by simp)
    have ha := hL a (by simp)
    have hnd' := hnd
    simp only [List.nodup_cons, List.mem_cons, not_or, List.not_mem_nil, or_false] at hnd
    refine setPtr_ends g hs' true ha.1 ha.2.1 fun s'' hs'' hw1 => ?_
    refine setPtr_ends g hs'' true ht'.1 ht'.2.1 fun s3 hs3 hw2 => ?_
    obtain ⟨hown, hgrew, hptr⟩ := grow_top g ho hi1 hi2 ht hL hnd.1.1 hnd.1.2 hnd.2.1 rfl rfl
    refine hok _ s3 _ [(.double, t), (.second ((index - 1036) / 1024), a), (.data index, b)] hs3
      hown hgrew ?_
    have hpt := (congrFun hptr .double).trans (show _ = t by
      rw [Function.update_of_ne (show Pos.double ≠ .data index from (by intro h; contradiction)),
        Function.update_of_ne (show Pos.double ≠ .second _ from (by intro h; contradiction)),
        Function.update_self])
    have hpa := (congrFun hptr (.second ((index - 1036) / 1024))).trans (show _ = a by
      rw [Function.update_of_ne (show Pos.second _ ≠ .data index from (by intro h; contradiction)),
        Function.update_self])
    have hpb := (congrFun hptr (.data index)).trans (Function.update_self _ _ _)
    constructor
    · rw [hpath]
      exact List.forall_mem_cons.mpr ⟨⟨by simp, ht0, hpt⟩, List.forall_mem_cons.mpr
        ⟨⟨by simp, hs0, hpa⟩, List.forall_mem_singleton.mpr ⟨by simp, hb0, hpb⟩⟩⟩
    · intro p hpn
      simp only [List.map_cons, List.map_nil, List.mem_cons, not_or, List.not_mem_nil,
        not_false_eq_true, and_true] at hpn
      exact (congrFun hptr p).trans ((Function.update_of_ne hpn.2.2 _ _).trans
        ((Function.update_of_ne hpn.2.1 _ _).trans (Function.update_of_ne hpn.1 _ _)))
    · exact hnd'
    · exact le_refl 3
    · exact hL
    · rfl
    · rfl
    · simp
    · refine ((hw.trans hw1).trans hw2).congr ?_
      rw [Set.union_assoc]
      refine congrArg _ ?_
      ext B
      constructor
      · rintro (rfl | rfl)
        · exact ⟨(.data index, b), by simp, _, _, hp, hpa⟩
        · exact ⟨(.second ((index - 1036) / 1024), a), by simp, _, _, parent_second hj, hpt⟩
      · rintro ⟨n, hn, q, k, hq, rfl⟩
        rcases List.mem_cons.mp hn with rfl | hn
        · cases hq
        rcases List.mem_cons.mp hn with rfl | hn
        · rw [parent_second hj] at hq
          cases hq
          exact .inr hpt
        · rw [List.mem_singleton.mp hn, hp] at hq
          cases hq
          exact .inl hpa
  · have ht0 : ptr I.blk (V x) .double ≠ 0 := fun hz => ht (toNat_eq_zero.mp hz)
    have htn : (V x).doubleIndirect.toNat ≠ 0 := ht0
    have hsame : ({ V x with doubleIndirect := UInt32.ofNat (V x).doubleIndirect.toNat } : Inode)
        = V x := by
      rw [UInt32.ofNat_toNat]
    rw [if_pos htn, Prog.ends_bind]
    refine getPtr_at_ends g h (ho.range x) (parent_second hj) ht0 ?_
    by_cases hs0 : ptr I.blk (V x) (.second ((index - 1036) / 1024)) = 0
    · -- a second-level block and a data block
      have hb0 : bmap I.blk (V x) index = 0 := by rw [bmap_double hi1 hi2, if_pos hs0]
      have hbeq : ((V x).doubleIndirect.toNat == 0) = false := by simpa using htn
      have hholes : holes I.blk (V x) index = 2 := by
        rw [holes_double hi1, if_neg ht0, if_pos hs0, if_pos hb0]
      simp only [hs0, ne_eq, not_true_eq_false, if_false, Prog.ends_pure, Prog.ends_bind,
        Prog.ends_ite, beq_self_eq_true, if_true, htn, not_false_eq_true, hbeq, Bool.false_eq_true,
        hsame]
      refine allocAll_writes g h (ho.meta_marked g) 2 (fun L s' hlen hnd hL hs' hw => ?_)
        fun L s' hlen hs' hw hlt => hfull L s' (by omega) hs' hw hb0 (by omega)
      obtain ⟨a, b, rfl⟩ := List.length_eq_two.mp hlen
      have ha := hL a (by simp)
      have hab : a ≠ b := by simpa using hnd
      obtain ⟨hr1, hr2⟩ := ho.range x .double ht0
      have hfree := (ho.mark hL).spare a (.inr (by simp)) x .double
      refine setPtr_ends g hs' true ha.1 ha.2.1 fun s'' hs'' hw1 => ?_
      refine setPtr_ends g hs'' false hr1 hr2 fun s3 hs3 hw2 => ?_
      obtain ⟨hown, hgrew, hptr⟩ := grow_second g ho hi1 hi2 ht0 hs0 hL hab rfl
      refine hok _ s3 _ [(.second ((index - 1036) / 1024), a), (.data index, b)] (hs3.congr ?_)
        hown hgrew ?_
      · congr 2
        exact Function.update_of_ne hfree _ _
      have hpt := (congrFun hptr .double).trans (show _ = ptr I.blk (V x) .double by
        rw [Function.update_of_ne (show Pos.double ≠ .data index from (by intro h; contradiction)),
          Function.update_of_ne (show Pos.double ≠ .second _ from (by intro h; contradiction))])
      have hpa := (congrFun hptr (.second ((index - 1036) / 1024))).trans (show _ = a by
        rw [Function.update_of_ne (show Pos.second _ ≠ .data index from
          (by intro h; contradiction)),
          Function.update_self])
      have hpb := (congrFun hptr (.data index)).trans (Function.update_self _ _ _)
      constructor
      · rw [hpath]
        exact List.forall_mem_cons.mpr ⟨⟨by simp, hs0, hpa⟩,
          List.forall_mem_singleton.mpr ⟨by simp, hb0, hpb⟩⟩
      · intro p hpn
        simp only [List.map_cons, List.map_nil, List.mem_cons, not_or, List.not_mem_nil,
          not_false_eq_true, and_true] at hpn
        exact (congrFun hptr p).trans ((Function.update_of_ne hpn.2 _ _).trans
          (Function.update_of_ne hpn.1 _ _))
      · exact hnd
      · exact Nat.le_succ 2
      · exact hL
      · rfl
      · rfl
      · simp
      · refine ((hw.trans hw1).trans hw2).congr ?_
        rw [Set.union_assoc]
        refine congrArg _ ?_
        ext B
        constructor
        · rintro (rfl | rfl)
          · exact ⟨(.data index, b), by simp, _, _, hp, hpa⟩
          · exact ⟨(.second ((index - 1036) / 1024), a), by simp, _, _, parent_second hj, hpt⟩
        · rintro ⟨n, hn, q, k, hq, rfl⟩
          rcases List.mem_cons.mp hn with rfl | hn
          · rw [parent_second hj] at hq
            cases hq
            exact .inr hpt
          · rw [List.mem_singleton.mp hn, hp] at hq
            cases hq
            exact .inl hpa
    · rw [if_pos hs0, Prog.ends_bind]
      refine getPtr_at_ends g h (ho.range x) hp hs0 ?_
      by_cases hb0 : bmap I.blk (V x) index = 0
      · have hbeq : (ptr I.blk (V x) (.second ((index - 1036) / 1024)) == 0) = false := by
          simpa using hs0
        have hteq : ((V x).doubleIndirect.toNat == 0) = false := by simpa using htn
        have hpd : ptr I.blk (V x) (.data index) = 0 := hb0
        have hholes : holes I.blk (V x) index = 1 := by
          rw [holes_double hi1, if_neg ht0, if_neg hs0, if_pos hb0]
        simp only [hpd, ne_eq, not_true_eq_false, if_false, Prog.ends_bind, htn,
          not_false_eq_true, if_true, hteq, Bool.false_eq_true, hs0, hbeq, Prog.ends_pure, hsame]
        refine allocAll_writes g h (ho.meta_marked g) 1 (fun L s' hlen hnd hL hs' hw => ?_)
          fun L s' hlen hs' hw hlt => hfull L s' (by omega) hs' hw hb0 (by omega)
        obtain ⟨b, rfl⟩ := List.length_eq_one_iff.mp hlen
        have hb := hL b (by simp)
        obtain ⟨hr1, hr2⟩ := ho.range x _ hs0
        refine setPtr_ends g hs' false hr1 hr2 fun s'' hs'' hw' => ?_
        obtain ⟨hown, hgrew, hptr⟩ := grow_leaf g ho hp hs0 hb0 hb.1 hb.2.1 hb.2.2 rfl
        exact hok _ s'' _ [(.data index, b)] hs'' hown hgrew
          (.leaf hp (by rw [hpath]; simp) hb0 hb rfl hptr hw hw')
      · rw [if_pos (show ptr I.blk (V x) (.data index) ≠ 0 from hb0), Prog.ends_pure]
        exact hok _ s I [] h (by rw [update_same]; exact ho) (Grew.refl rfl hb0)
          (.refl s I (V x) index _)

/-- `bmap_alloc` below `MAX_FILE_BLOCKS`: the block is there afterwards and nothing else has moved,
    or fewer than three blocks were free and nothing has changed. -/
theorem bmapAlloc_writes (g : Regions sb) (h : Shows sb s I r) (ho : Own sb I V X) (x : Nat)
    {index : Nat} (hi : index < maxFileBlocks)
    (hok : ∀ m s' I' N, Shows sb s' I' r → Own sb I' (Function.update V x m.ino) X →
      Grew I V x index I' m → Took sb s I (V x) index s' I' m N → M m s')
    (hfull : ∀ L s', List.length L ≤ 2 → Shows sb s' I r → Writes s s' (bitmapBlocks sb L) →
      bmap I.blk (V x) index = 0 → freeCount sb I < holes I.blk (V x) index →
      E (.fsError .enospc) s') :
    (bmapAlloc sb (V x) index).Ends s M E := by
  unfold bmapAlloc
  by_cases h12 : index < 12
  · rw [dif_pos h12]
    exact bmapAllocDirect_writes g h ho x ⟨index, h12⟩ hok hfull
  rw [dif_neg h12]
  by_cases h1036 : index - 12 < 1024
  · rw [if_pos h1036]
    exact bmapAllocSingle_writes g h ho x (by omega) (by omega) hok hfull
  · have hmax : ¬ index - 12 - 1024 ≥ 1024 * 1024 := by unfold maxFileBlocks at hi; omega
    rw [if_neg h1036, if_neg hmax, show index - 12 - 1024 = index - 1036 by omega]
    exact bmapAllocDouble_writes g h ho x (by omega) hi hok hfull

theorem bmapAlloc_ends (g : Regions sb) (h : Shows sb s I r) (ho : Own sb I V X) (x : Nat)
    {index : Nat} (hi : index < maxFileBlocks)
    (hok : ∀ m s' I', Shows sb s' I' r → Own sb I' (Function.update V x m.ino) X →
      Grew I V x index I' m → M m s')
    (hfull : ∀ s', Shows sb s' I r → bmap I.blk (V x) index = 0 →
      freeCount sb I < holes I.blk (V x) index → E (.fsError .enospc) s') :
    (bmapAlloc sb (V x) index).Ends s M E :=
  bmapAlloc_writes g h ho x hi (fun m s' I' _ h1 h2 h3 _ => hok m s' I' h1 h2 h3)
    fun _ s' _ h1 _ h2 h3 => hfull s' h1 h2 h3

/-- `bmap_alloc` past `MAX_FILE_BLOCKS`. -/
theorem bmapAlloc_efbig {ino : Inode} {index : Nat} (hi : maxFileBlocks ≤ index)
    (hE : E (.fsError .efbig) s) : (bmapAlloc sb ino index).Ends s M E := by
  unfold maxFileBlocks at hi
  unfold bmapAlloc
  rw [dif_neg (by omega), if_neg (by omega), if_pos (by omega)]
  exact hE

end Grow

/-! ## Freeing everything -/

/-- The positions in the order `free_all_blocks` visits them. -/
def posBelowSecond (j : Nat) : List Pos :=
  (List.range 1024).map (fun k => .data (1036 + 1024 * j + k)) ++ [.second j]

@[inherit_doc posBelowSecond]
def posList : List Pos :=
  (List.range 12).map .data ++ ((List.range 1024).map (fun k => .data (12 + k)) ++ [.single])
    ++ ((List.range 1024).flatMap posBelowSecond ++ [.double])

theorem mem_posBelowSecond {p : Pos} {j : Nat} :
    p ∈ posBelowSecond j ↔ (∃ k < 1024, p = .data (1036 + 1024 * j + k)) ∨ p = .second j := by
  simp only [posBelowSecond, List.mem_append, List.mem_map, List.mem_range, List.mem_singleton]
  constructor
  · rintro (⟨k, hk, rfl⟩ | h)
    · exact .inl ⟨k, hk, rfl⟩
    · exact .inr h
  · rintro (⟨k, hk, rfl⟩ | h)
    · exact .inl ⟨k, hk, rfl⟩
    · exact .inr h

theorem posList_nodup : posList.Nodup := by
  have hdata : ∀ c n, ((List.range n).map fun k => Pos.data (c + k)).Nodup := fun c n =>
    (List.nodup_range).map fun a b h => by simpa using h
  have h12 : ((List.range 12).map Pos.data).Nodup :=
    (List.nodup_range).map fun a b h => by simpa using h
  have hbelow : ∀ j, (posBelowSecond j).Nodup := by
    intro j
    refine List.nodup_append.mpr ⟨hdata _ _, List.nodup_singleton _, ?_⟩
    intro a ha b hb
    obtain ⟨k, -, rfl⟩ := List.mem_map.mp ha
    rw [List.mem_singleton.mp hb]
    exact nofun
  have hall : ((List.range 1024).flatMap posBelowSecond).Nodup := by
    refine List.nodup_flatMap.mpr ⟨fun j _ => hbelow j, ?_⟩
    refine List.nodup_range.imp_of_mem fun {i j} hi hj hij => ?_
    intro p hp hp'
    rcases mem_posBelowSecond.mp hp with ⟨k, hk, rfl⟩ | rfl <;>
      rcases mem_posBelowSecond.mp hp' with ⟨k', hk', h⟩ | h
    · have := Pos.data.inj h
      omega
    · cases h
    · cases h
    · exact hij (Pos.second.inj h)
  refine List.nodup_append.mpr ⟨List.nodup_append.mpr ⟨h12, List.nodup_append.mpr
    ⟨hdata _ _, List.nodup_singleton _, ?_⟩, ?_⟩, List.nodup_append.mpr
    ⟨hall, List.nodup_singleton _, ?_⟩, ?_⟩
  · intro a ha b hb
    obtain ⟨k, -, rfl⟩ := List.mem_map.mp ha
    rw [List.mem_singleton.mp hb]
    exact nofun
  · intro a ha b hb heq
    obtain ⟨k, hk, rfl⟩ := List.mem_map.mp ha
    rw [List.mem_range] at hk
    rcases List.mem_append.mp hb with hb | hb
    · obtain ⟨k', -, rfl⟩ := List.mem_map.mp hb
      have := Pos.data.inj heq
      omega
    · rw [List.mem_singleton.mp hb] at heq
      cases heq
  · intro a ha b hb heq
    obtain ⟨j, -, hj⟩ := List.mem_flatMap.mp ha
    rw [List.mem_singleton.mp hb] at heq
    subst heq
    rcases mem_posBelowSecond.mp hj with ⟨k, -, h⟩ | h <;> cases h
  · intro a ha b hb heq
    subst heq
    have hb' : (∃ j k, a = .data (1036 + 1024 * j + k)) ∨ (∃ j, a = .second j) ∨ a = .double := by
      rcases List.mem_append.mp hb with hb | hb
      · obtain ⟨j, -, hj⟩ := List.mem_flatMap.mp hb
        rcases mem_posBelowSecond.mp hj with ⟨k, -, h⟩ | h
        · exact .inl ⟨j, k, h⟩
        · exact .inr (.inl ⟨j, h⟩)
      · exact .inr (.inr (List.mem_singleton.mp hb))
    rcases List.mem_append.mp ha with ha | ha
    · obtain ⟨k, hk, rfl⟩ := List.mem_map.mp ha
      rw [List.mem_range] at hk
      rcases hb' with ⟨j, k', h⟩ | ⟨j, h⟩ | h
      · have := Pos.data.inj h
        omega
      · cases h
      · cases h
    · rcases List.mem_append.mp ha with ha | ha
      · obtain ⟨k, hk, rfl⟩ := List.mem_map.mp ha
        rw [List.mem_range] at hk
        rcases hb' with ⟨j, k', h⟩ | ⟨j, h⟩ | h
        · have := Pos.data.inj h
          omega
        · cases h
        · cases h
      · rw [List.mem_singleton.mp ha] at hb'
        rcases hb' with ⟨j, k', h⟩ | ⟨j, h⟩ | h <;> cases h

/-- Every position that can hold a pointer is visited. -/
theorem mem_posList {blk : Nat → Block} {ino : Inode} {p : Pos} (h : ptr blk ino p ≠ 0) :
    p ∈ posList := by
  simp only [posList, List.mem_append, List.mem_map, List.mem_range, List.mem_singleton,
    List.mem_flatMap]
  cases p with
  | data i =>
    by_cases h12 : i < 12
    · exact .inl (.inl ⟨i, h12, rfl⟩)
    by_cases h1036 : i < 1036
    · exact .inl (.inr (.inl ⟨i - 12, by omega, congrArg Pos.data (by omega)⟩))
    by_cases hmax : i < maxFileBlocks
    · unfold maxFileBlocks at hmax
      refine .inr (.inl ⟨(i - 1036) / 1024, by omega, mem_posBelowSecond.mpr (.inl
        ⟨(i - 1036) % 1024, by omega, congrArg Pos.data (by omega)⟩)⟩)
    · refine absurd ?_ h
      unfold maxFileBlocks at hmax
      show bmap blk ino i = 0
      unfold bmap
      rw [dif_neg h12, if_neg (by omega), if_neg (by omega)]
  | single => exact .inl (.inr (.inr rfl))
  | double => exact .inr (.inr rfl)
  | second j =>
    by_cases hj : j < 1024
    · exact .inr (.inl ⟨j, hj, mem_posBelowSecond.mpr (.inr rfl)⟩)
    · exact absurd (if_neg fun hc => hj hc.1) h

section Free

variable {sb : Superblock} {s : FileSystem} {I : Image} {r : Side} {V : Nat → Inode} {X : Set Nat}
  {ino : Inode} {E : Exn → FileSystem → Prop} {f : Pos → Nat}

/-- The blocks at a list of positions, holes left out. -/
def blocksAt (f : Pos → Nat) (L : List Pos) : List Nat := (L.map f).filter (· ≠ 0)

theorem mem_blocksAt {L : List Pos} {b : Nat} : b ∈ blocksAt f L ↔ b ≠ 0 ∧ ∃ p ∈ L, f p = b := by
  simp only [blocksAt, List.mem_filter, List.mem_map, decide_eq_true_eq]
  exact and_comm

theorem blocksAt_append (L L' : List Pos) :
    blocksAt f (L ++ L') = blocksAt f L ++ blocksAt f L' := by
  simp [blocksAt]

theorem blocksAt_eq_nil {L : List Pos} (h : ∀ p ∈ L, f p = 0) : blocksAt f L = [] := by
  simp only [blocksAt, List.filter_eq_nil_iff, List.mem_map]
  rintro b ⟨p, hp, rfl⟩
  simpa using h p hp

theorem blocksAt_singleton {p : Pos} (h : f p ≠ 0) : blocksAt f [p] = [f p] := by
  simp [blocksAt, h]

/-- What `collect` finds in the indirect block at `q`. -/
theorem pointersIn_eq (blk : Nat → Block) (ino : Inode) (child : Nat → Pos) {q : Pos}
    (hq : ptr blk ino q ≠ 0) (hc : ∀ k < 1024, (child k).parent = some (q, k)) :
    pointersIn (blk (ptr blk ino q)) = blocksAt (ptr blk ino) ((List.range 1024).map child) := by
  unfold pointersIn blocksAt
  rw [List.map_map]
  refine congrArg (List.filter _) (List.map_congr_left fun k hk => ?_)
  rw [Function.comp_apply, ptr_of_parent (hc k (List.mem_range.mp hk)), if_neg hq]

/-- Below a hole there is nothing. -/
theorem blocksAt_hole {blk : Nat → Block} {ino : Inode} {q : Pos} {child : Nat → Pos}
    (hq : ptr blk ino q = 0) (hc : ∀ k < 1024, (child k).parent = some (q, k)) :
    blocksAt (ptr blk ino) ((List.range 1024).map child) = [] := by
  refine blocksAt_eq_nil fun p hp => ?_
  obtain ⟨k, hk, rfl⟩ := List.mem_map.mp hp
  rw [ptr_of_parent (hc k (List.mem_range.mp hk)), if_pos hq]

theorem parent_below (j : Nat) (hj : j < 1024) (k : Nat) (hk : k < 1024) :
    (Pos.data (1036 + 1024 * j + k)).parent = some (.second j, k) := by
  rw [parent_double (by omega) (by unfold maxFileBlocks; omega),
    show (1036 + 1024 * j + k - 1036) / 1024 = j by omega,
    show (1036 + 1024 * j + k - 1036) % 1024 = k by omega]

theorem parent_below_single (k : Nat) (hk : k < 1024) :
    (Pos.data (12 + k)).parent = some (.single, k) := by
  rw [parent_single (by omega) (by omega), show 12 + k - 12 = k by omega]

theorem collectSeconds_ends (g : Regions sb) (h : Shows sb s I r) (hr : InRange sb I.blk ino)
    (js : List Nat) (hjs : ∀ j ∈ js, j < 1024) {Q : List Nat → FileSystem → Prop}
    (hQ : Q (blocksAt (ptr I.blk ino) (js.flatMap posBelowSecond)) s) :
    (collectSeconds sb (blocksAt (ptr I.blk ino) (js.map .second))).Ends s Q E := by
  induction js generalizing Q with
  | nil => exact hQ
  | cons j rest ih =>
    have hj := hjs j List.mem_cons_self
    have hrest := fun j' hj' => hjs j' (List.mem_cons_of_mem j hj')
    rw [List.flatMap_cons, blocksAt_append] at hQ
    rw [List.map_cons, ← List.singleton_append, blocksAt_append]
    by_cases h0 : ptr I.blk ino (.second j) = 0
    · rw [blocksAt_eq_nil (fun p hp => by rw [List.mem_singleton.mp hp]; exact h0),
        List.nil_append]
      refine ih hrest ?_
      rwa [posBelowSecond, blocksAt_append, blocksAt_hole h0 (parent_below j hj),
        blocksAt_eq_nil (fun p hp => by rw [List.mem_singleton.mp hp]; exact h0)] at hQ
    · rw [blocksAt_singleton h0, List.singleton_append]
      unfold collectSeconds collect
      obtain ⟨h1, h2⟩ := hr _ h0
      simp only [Prog.ends_bind, Prog.ends_pure]
      refine readBlock_ends g h h1 h2 ?_
      refine ih hrest ?_
      rw [posBelowSecond, blocksAt_append, blocksAt_singleton h0,
        ← pointersIn_eq I.blk ino _ h0 (parent_below j hj)] at hQ
      exact hQ

/-- Everything inode `x` owns goes, and the marks with it. -/
theorem Own.freeAll (h : Own sb I V X) (g : Regions sb) (x : Nat) (L : List Nat) (ino' : Inode)
    (hL : ∀ b, b ∈ L ↔ b ≠ 0 ∧ ∃ p, ptr I.blk (V x) p = b)
    (hptr : ∀ p, ptr I.blk ino' p = 0) (hc : ino'.blockCount = 0) :
    Own sb (I.clearDBits L) (Function.update V x ino') X := by
  have hall : ∀ y q, ptr (I.clearDBits L).blk (Function.update V x ino' y) q
      = if y = x then 0 else ptr I.blk (V y) q := by
    intro y q
    by_cases hy : y = x
    · rw [hy, Function.update_self, if_pos rfl]
      exact hptr q
    · rw [Function.update_of_ne hy, if_neg hy]
      rfl
  refine ⟨?_, ?_, ?_, h.spareRange, ?_, ?_⟩
  · intro y q h0
    rw [hall] at h0 ⊢
    by_cases hy : y = x
    · exact absurd (if_pos hy) h0
    · rw [if_neg hy] at h0 ⊢
      exact h.range y q h0
  · intro y q z q' h0 heq
    rw [hall] at h0 heq
    rw [hall] at heq
    by_cases hy : y = x
    · exact absurd (if_pos hy) h0
    · rw [if_neg hy] at h0 heq
      by_cases hz : z = x
      · rw [if_pos hz] at heq
        exact absurd heq h0
      · rw [if_neg hz] at heq
        exact h.once y q z q' h0 heq
  · intro y
    by_cases hy : y = x
    · have hset : {q | ptr (I.clearDBits L).blk (Function.update V x ino' y) q ≠ 0} = ∅ := by
        ext q
        rw [Set.mem_ofPred_eq, hall, if_pos hy]
        simp
      rw [hset, Set.ncard_empty, hy, Function.update_self, hc]
      rfl
    · have hset : {q | ptr (I.clearDBits L).blk (Function.update V x ino' y) q ≠ 0}
          = {q | ptr I.blk (V y) q ≠ 0} := by
        ext q
        rw [Set.mem_ofPred_eq, Set.mem_ofPred_eq, hall, if_neg hy]
      rw [hset, Function.update_of_ne hy, h.count y]
  · intro b hb y q heq
    rw [hall] at heq
    by_cases hy : y = x
    · rw [if_pos hy] at heq
      -- a spare block is not block 0
      have := h.spare b hb y (.data maxFileBlocks)
      exact this (by rw [← heq]; exact rfl)
    · rw [if_neg hy] at heq
      exact h.spare b hb y q heq
  · intro B hB
    show (I.dbit B && decide (B ∉ L)) = true ↔ _
    rw [Bool.and_eq_true, decide_eq_true_iff, h.bit B hB, hL]
    have hor := g.order
    constructor
    · rintro ⟨h1 | ⟨y, q, h1⟩ | h1, h2⟩
      · exact .inl h1
      · by_cases hy : y = x
        · by_cases hB0 : B = 0
          · exact .inl (by omega)
          · exact absurd ⟨hB0, q, hy ▸ h1⟩ h2
        · exact .inr (.inl ⟨y, q, by rw [hall, if_neg hy, h1]⟩)
      · exact .inr (.inr h1)
    · have hlow : B < sb.dataStart.toNat → ¬ (B ≠ 0 ∧ ∃ p, ptr I.blk (V x) p = B) := by
        rintro h1 ⟨hB0, p, hp⟩
        have := h.range x p (by rw [hp]; exact hB0)
        omega
      rintro (h1 | ⟨y, q, h1⟩ | h1)
      · exact ⟨.inl h1, hlow h1⟩
      · rw [hall] at h1
        by_cases hy : y = x
        · rw [if_pos hy] at h1
          exact ⟨.inl (by omega), hlow (by omega)⟩
        · rw [if_neg hy] at h1
          refine ⟨.inr (.inl ⟨y, q, h1⟩), ?_⟩
          rintro ⟨hB0, p, hp⟩
          exact hy (h.once y q x p (by rw [h1]; exact hB0) (h1.trans hp.symm)).1
      · refine ⟨.inr (.inr h1), ?_⟩
        rintro ⟨-, p, hp⟩
        exact h.spare B h1 x p hp

/-- What `free_all_blocks` leaves of an inode. -/
def Inode.emptied (ino : Inode) : Inode :=
  { ino with direct := fun _ => 0, singleIndirect := 0, doubleIndirect := 0, blockCount := 0 }

theorem ptr_emptied {blk : Nat → Block} {ino : Inode} (p : Pos) : ptr blk ino.emptied p = 0 := by
  revert p
  refine forall_pos (fun p hp => ?_) fun p q k hp hq => ?_
  · rcases Pos.parent_eq_none hp with ⟨i, rfl, hi | hi⟩ | rfl | rfl | ⟨j, rfl, hj⟩
    · simp only [ptr, bmap, dif_pos hi]
      rfl
    · unfold maxFileBlocks at hi
      simp only [ptr, bmap]
      rw [dif_neg (by omega), if_neg (by omega), if_neg (by omega)]
    · rfl
    · rfl
    · simp only [ptr, show ¬ j < 1024 by omega, false_and, if_false]
  · rw [ptr_of_parent hp, hq, if_pos rfl]

theorem ptr_zero (blk : Nat → Block) (p : Pos) : ptr blk .zero p = 0 := by
  show ptr blk (Inode.emptied .zero) p = 0
  exact ptr_emptied p

/-- The blocks at all positions are what the inode owns, each once. -/
theorem mem_blocksAt_posList {blk : Nat → Block} {ino : Inode} {b : Nat} :
    b ∈ blocksAt (ptr blk ino) posList ↔ b ≠ 0 ∧ ∃ p, ptr blk ino p = b := by
  simp only [blocksAt, List.mem_filter, List.mem_map, decide_eq_true_eq]
  constructor
  · rintro ⟨⟨p, -, hp⟩, hb⟩
    exact ⟨hb, p, hp⟩
  · rintro ⟨hb, p, hp⟩
    exact ⟨⟨p, mem_posList (by rw [hp]; exact hb), hp⟩, hb⟩

theorem nodup_blocksAt (hf : Set.InjOn f {p | f p ≠ 0}) : (blocksAt f posList).Nodup := by
  unfold blocksAt
  rw [List.filter_map]
  refine List.Nodup.map_on (fun p hp q hq heq => ?_) (posList_nodup.filter _)
  have hp0 : f p ≠ 0 := by simpa using (List.mem_filter.mp hp).2
  have hq0 : f q ≠ 0 := by simpa using (List.mem_filter.mp hq).2
  exact hf hp0 hq0 heq

theorem Own.nodup_blocksAt (h : Own sb I V X) (x : Nat) :
    (blocksAt (ptr I.blk (V x)) posList).Nodup :=
  ConcurrentFs.nodup_blocksAt (h.injOn x)

/-- As many blocks are collected as there are pointers. -/
theorem length_blocksAt {blk : Nat → Block} {ino : Inode}
    (hinj : Set.InjOn (ptr blk ino) {p | ptr blk ino p ≠ 0}) :
    (blocksAt (ptr blk ino) posList).length = Set.ncard {p | ptr blk ino p ≠ 0} := by
  rw [← List.toFinset_card_of_nodup (nodup_blocksAt hinj), ← Set.ncard_coe_finset,
    ← hinj.ncard_image]
  congr 1
  ext b
  rw [Finset.mem_coe, List.mem_toFinset, mem_blocksAt_posList, Set.mem_image]
  constructor
  · rintro ⟨hb, p, rfl⟩
    exact ⟨p, hb, rfl⟩
  · rintro ⟨p, hp, rfl⟩
    exact ⟨hp, p, rfl⟩

theorem collectSingle_ends (g : Regions sb) (h : Shows sb s I r) (hr : InRange sb I.blk ino)
    {Q : List Nat → FileSystem → Prop}
    (hQ : Q (blocksAt (ptr I.blk ino) ((List.range 1024).map (fun k => .data (12 + k))
      ++ [.single])) s) :
    (collectSingle sb ino).Ends s Q E := by
  unfold collectSingle
  rw [blocksAt_append] at hQ
  by_cases hz : ino.singleIndirect = 0
  · have h0 : ptr I.blk ino .single = 0 := toNat_eq_zero.mpr hz
    rw [if_neg (by simpa using hz), Prog.ends_pure]
    rwa [blocksAt_hole h0 parent_below_single,
      blocksAt_eq_nil (fun p hp => by rw [List.mem_singleton.mp hp]; exact h0)] at hQ
  · have h0 : ptr I.blk ino .single ≠ 0 := fun h => hz (toNat_eq_zero.mp h)
    obtain ⟨h1, h2⟩ := hr _ h0
    rw [if_pos hz]
    simp only [collect, Prog.ends_bind, Prog.ends_pure]
    refine readBlock_ends g h h1 h2 ?_
    rwa [blocksAt_singleton h0, ← pointersIn_eq I.blk ino _ h0 parent_below_single] at hQ

theorem collectDouble_ends (g : Regions sb) (h : Shows sb s I r) (hr : InRange sb I.blk ino)
    {Q : List Nat → FileSystem → Prop}
    (hQ : Q (blocksAt (ptr I.blk ino) ((List.range 1024).flatMap posBelowSecond
      ++ [.double])) s) :
    (collectDouble sb ino).Ends s Q E := by
  unfold collectDouble
  rw [blocksAt_append] at hQ
  by_cases hz : ino.doubleIndirect = 0
  · have h0 : ptr I.blk ino .double = 0 := toNat_eq_zero.mpr hz
    have hnil : blocksAt (ptr I.blk ino) ((List.range 1024).flatMap posBelowSecond) = [] := by
      refine blocksAt_eq_nil fun p hp => ?_
      obtain ⟨j, hj, hp⟩ := List.mem_flatMap.mp hp
      rw [List.mem_range] at hj
      have hsec : ptr I.blk ino (.second j) = 0 := by
        rw [ptr_of_parent (parent_second hj), if_pos h0]
      rcases mem_posBelowSecond.mp hp with ⟨k, hk, rfl⟩ | rfl
      · rw [ptr_of_parent (parent_below j hj k hk), if_pos hsec]
      · exact hsec
    rw [if_neg (by simpa using hz), Prog.ends_pure]
    rwa [hnil, blocksAt_eq_nil (fun p hp => by rw [List.mem_singleton.mp hp]; exact h0)] at hQ
  · have h0 : ptr I.blk ino .double ≠ 0 := fun h => hz (toNat_eq_zero.mp h)
    obtain ⟨h1, h2⟩ := hr _ h0
    rw [if_pos hz]
    simp only [collect, Prog.ends_bind, Prog.ends_pure]
    refine readBlock_ends g h h1 h2 ?_
    rw [pointersIn_eq I.blk ino .second h0 fun k hk => parent_second hk]
    have hd : ptr I.blk ino .double = ino.doubleIndirect.toNat := rfl
    rw [blocksAt_singleton h0, hd] at hQ
    have hjs : ∀ j ∈ List.range 1024, j < 1024 := fun j hj => List.mem_range.mp hj
    generalize List.range 1024 = js at hQ hjs ⊢
    exact collectSeconds_ends g h hr js hjs hQ

theorem direct_eq_blocksAt (blk : Nat → Block) (ino : Inode) :
    ((List.finRange 12).map fun i => (ino.direct i).toNat).filter (· ≠ 0)
      = blocksAt (ptr blk ino) ((List.range 12).map .data) := by
  unfold blocksAt
  refine congrArg (List.filter _) (List.ext_getElem (by simp) fun i hi _ => ?_)
  have hi12 : i < 12 := by simpa using hi
  simp only [List.getElem_map, List.getElem_finRange, List.getElem_range, ptr, bmap, dif_pos hi12]
  rfl

/-- What `free_all_blocks` collects. -/
def collectOwned (sb : Superblock) (ino : Inode) : Fs (List Nat) := do
  let single ← collectSingle sb ino
  let double ← collectDouble sb ino
  return ((List.finRange 12).map fun i => (ino.direct i).toNat).filter (· ≠ 0) ++ single ++ double

/-- `free_all_blocks` collects, frees, and empties the inode. -/
theorem freeAllBlocks_iff (ino : Inode) {T : Inode → FileSystem → Prop} :
    (freeAllBlocks sb ino).Ends s T E ↔ (collectOwned sb ino).Ends s
      (fun L s' => (freeBlocks sb L).Ends s' (fun _ s'' => T ino.emptied s'') E) E := by
  simp only [freeAllBlocks, collectOwned, Prog.ends_bind, Prog.ends_pure]
  rfl

/-- Every pointer of the inode is collected. -/
theorem collectOwned_ends (g : Regions sb) (h : Shows sb s I r) (hr : InRange sb I.blk ino)
    {Q : List Nat → FileSystem → Prop} (hQ : Q (blocksAt (ptr I.blk ino) posList) s) :
    (collectOwned sb ino).Ends s Q E := by
  unfold posList at hQ
  rw [blocksAt_append, blocksAt_append] at hQ
  unfold collectOwned
  rw [direct_eq_blocksAt I.blk]
  simp only [Prog.ends_bind, Prog.ends_pure]
  refine collectSingle_ends g h hr ?_
  exact collectDouble_ends g h hr hQ

/-- `free_all_blocks` clears the marks of what the inode owns and leaves it without pointers. -/
theorem freeAllBlocks_writes (g : Regions sb) (h : Shows sb s I r) (ho : Own sb I V X) (x : Nat)
    {T : Inode → FileSystem → Prop}
    (hT : ∀ s' L, L = blocksAt (ptr I.blk (V x)) posList → Shows sb s' (I.clearDBits L) r →
      Own sb (I.clearDBits L) (Function.update V x (V x).emptied) X →
      Writes s s' (bitmapBlocks sb L) → T (V x).emptied s') :
    (freeAllBlocks sb (V x)).Ends s T E := by
  rw [freeAllBlocks_iff]
  refine collectOwned_ends g h (ho.range x) ?_
  refine freeBlocks_any g h (fun _ _ s' hs' hw => ?_) fun hbad => absurd
    ⟨ho.nodup_blocksAt x, fun b hb => ?_⟩ hbad
  · exact hT s' _ rfl hs'
      (ho.freeAll g x _ _ (fun b => mem_blocksAt_posList) (fun p => ptr_emptied p) rfl) hw
  · obtain ⟨hb0, p, hp⟩ := mem_blocksAt_posList.mp hb
    have h0 : ptr I.blk (V x) p ≠ 0 := by rw [hp]; exact hb0
    obtain ⟨h1, h2⟩ := ho.range x p h0
    have h3 := ho.dbit_of_ptr h0
    rw [hp] at h1 h2 h3
    exact ⟨h1, h2, h3⟩

theorem freeAllBlocks_ends (g : Regions sb) (h : Shows sb s I r) (ho : Own sb I V X) (x : Nat)
    {T : Inode → FileSystem → Prop}
    (hT : ∀ s' L, (∀ b, b ∈ L ↔ b ≠ 0 ∧ ∃ p, ptr I.blk (V x) p = b) →
      Shows sb s' (I.clearDBits L) r →
      Own sb (I.clearDBits L) (Function.update V x (V x).emptied) X → T (V x).emptied s') :
    (freeAllBlocks sb (V x)).Ends s T E :=
  freeAllBlocks_writes g h ho x fun s' L hL hs' ho' _ =>
    hT s' L (fun b => by rw [hL]; exact mem_blocksAt_posList) hs' ho'

end Free

end ConcurrentFs
