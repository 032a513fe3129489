/-
  ConcurrentFs.PointerTree

  The pointers of one inode by themselves, whatever else is on the disk
  (src/block_map.cpp): `bmap_read` and `bmap_alloc` are a sparse map from file
  blocks to disk blocks, and `free_all_blocks` gives back what the inode owns.

  Nothing is assumed of the other inodes or of the rest of the image.  A tree that
  is `WellFormed` is looked at as the only one of an image whose other marked
  blocks are spare, which is a case of `Own`.
-/
import ConcurrentFs.BlockMapSpec
import ConcurrentFs.Mkfs

namespace ConcurrentFs.PointerTree

open Lib Allocator

variable {sb : Superblock} {s s' : FileSystem} {ino : Inode}

/-- The pointer tree of an inode is well formed: every pointer that is not a hole leads to a marked
    block of the data region, no two to the same one. -/
structure WellFormed (sb : Superblock) (s : FileSystem) (ino : Inode) : Prop where
  once : ∀ p q, ptr s.disk ino p ≠ 0 → ptr s.disk ino p = ptr s.disk ino q → p = q
  range : ∀ p, ptr s.disk ino p ≠ 0 →
    sb.dataStart.toNat ≤ ptr s.disk ino p ∧ ptr s.disk ino p < sb.totalBlocks.toNat
  marked : ∀ p, ptr s.disk ino p ≠ 0 → s.blocks.isSet (ptr s.disk ino p) = some true

/-- How many blocks the inode owns. -/
noncomputable def owned (s : FileSystem) (ino : Inode) : Nat := Set.ncard {p | ptr s.disk ino p ≠ 0}

/-- `bmap_read` of file block `i` returns `b`. -/
def Reads (sb : Superblock) (s : FileSystem) (ino : Inode) (i b : Nat) : Prop :=
  (bmapRead sb ino i).run s = some (.ok b, s)

/-! ## One tree in an image of its own -/

/-- The inode with the right `block_count`. -/
noncomputable def counted (s : FileSystem) (ino : Inode) : Inode :=
  { ino with blockCount := UInt32.ofNat (owned s ino) }

/-- The inode as the only one there is. -/
noncomputable def only (s : FileSystem) (ino : Inode) (x : Nat) : Inode :=
  if x = 0 then counted s ino else .zero

/-- The blocks that are marked and not its. -/
def spare (sb : Superblock) (s : FileSystem) (ino : Inode) : Set Nat :=
  {b | sb.dataStart.toNat ≤ b ∧ b < sb.totalBlocks.toNat ∧ s.blocks.isSet b = some true ∧
    ∀ p, ptr s.disk ino p ≠ b}

theorem only_zero : only s ino 0 = counted s ino := if_pos rfl

theorem only_ne {x : Nat} (hx : x ≠ 0) : only s ino x = .zero := if_neg hx

/-- The pointers lead to data blocks, so they are those of the image. -/
theorem WellFormed.ptr_image (hw : WellFormed sb s ino) (p : Pos) :
    ptr (Image.of sb s.disk).blk ino p = ptr s.disk ino p :=
  ptr_congr (fun q _ hq => if_pos (hw.range q hq).1) p

theorem WellFormed.ptr_only (hw : WellFormed sb s ino) (x : Nat) (p : Pos) :
    ptr (Image.of sb s.disk).blk (only s ino x) p = if x = 0 then ptr s.disk ino p else 0 := by
  by_cases hx : x = 0
  · rw [hx, only_zero, if_pos rfl, ← hw.ptr_image p]
    exact congrFun (ptr_fields ino (counted s ino) rfl rfl rfl) p
  · rw [only_ne hx, if_neg hx]
    exact ptr_zero _ p

theorem WellFormed.injOn (hw : WellFormed sb s ino) :
    Set.InjOn (ptr s.disk ino) {p | ptr s.disk ino p ≠ 0} :=
  fun p hp q _ heq => hw.once p q hp heq

theorem WellFormed.mapsTo (hw : WellFormed sb s ino) :
    Set.MapsTo (ptr s.disk ino) {p | ptr s.disk ino p ≠ 0}
      (Finset.range sb.totalBlocks.toNat : Set Nat) := fun p hp =>
  Finset.mem_coe.mpr (Finset.mem_range.mpr (hw.range p hp).2)

theorem WellFormed.finite (hw : WellFormed sb s ino) : {p | ptr s.disk ino p ≠ 0}.Finite :=
  Set.Finite.of_finite_image ((Finset.finite_toSet _).subset hw.mapsTo.image_subset) hw.injOn

/-- There are no more pointers than blocks. -/
theorem WellFormed.owned_lt (hw : WellFormed sb s ino) : owned s ino < 2 ^ 32 := by
  have hle := Set.ncard_le_ncard_of_injOn _ hw.mapsTo hw.injOn (Finset.finite_toSet _)
  rw [Set.ncard_coe_finset, Finset.card_range] at hle
  have := sb.totalBlocks.toNat_lt
  exact hle.trans_lt this

/-- The tree by itself, in an image whose metadata is marked. -/
theorem WellFormed.own (hw : WellFormed sb s ino) (g : Regions sb)
    (h : Shows sb s (.of sb s.disk) s.side)
    (hmeta : ∀ b < sb.dataStart.toNat, (Image.of sb s.disk).dbit b = true) :
    Own sb (.of sb s.disk) (only s ino) (spare sb s ino) where
  range x p h0 := by
    rw [hw.ptr_only] at h0 ⊢
    by_cases hx : x = 0
    · rw [if_pos hx] at h0 ⊢
      exact hw.range p h0
    · rw [if_neg hx] at h0
      exact absurd rfl h0
  once x p y q h0 heq := by
    rw [hw.ptr_only] at h0 heq
    rw [hw.ptr_only] at heq
    by_cases hx : x = 0
    · rw [if_pos hx] at h0 heq
      by_cases hy : y = 0
      · rw [if_pos hy] at heq
        exact ⟨hx.trans hy.symm, hw.once p q h0 heq⟩
      · rw [if_neg hy] at heq
        exact absurd heq h0
    · rw [if_neg hx] at h0
      exact absurd rfl h0
  count x := by
    simp only [hw.ptr_only]
    by_cases hx : x = 0
    · rw [hx, only_zero]
      exact UInt32.toNat_ofNat_of_lt' hw.owned_lt
    · have hnone : {p : Pos | (if x = 0 then ptr s.disk ino p else 0) ≠ 0} = ∅ := by
        ext p
        simp [hx]
      rw [hnone, Set.ncard_empty, only_ne hx]
      rfl
  spareRange b hb := ⟨hb.1, hb.2.1⟩
  spare b hb x p := by
    have ho := g.order
    rw [hw.ptr_only]
    by_cases hx : x = 0
    · rw [if_pos hx]
      exact hb.2.2.2 p
    · rw [if_neg hx]
      have := hb.1
      omega
  bit B hB := by
    have hbit : s.blocks.isSet B = some ((Image.of sb s.disk).dbit B) := by
      rw [Bitmap.isSet_of_lt (by rw [h.blockCount]; exact hB), h.blockBit B hB]
    have ho := g.order
    constructor
    · intro hset
      by_cases hlow : B < sb.dataStart.toNat
      · exact .inl hlow
      · by_cases hp : ∃ p, ptr s.disk ino p = B
        · obtain ⟨p, hp⟩ := hp
          exact .inr (.inl ⟨0, p, by rw [hw.ptr_only, if_pos rfl]; exact hp⟩)
        · rw [not_exists] at hp
          exact .inr (.inr ⟨by omega, hB, by rw [hbit, hset], hp⟩)
    · rintro (hlow | ⟨x, p, hp⟩ | hsp)
      · exact hmeta B hlow
      · rw [hw.ptr_only] at hp
        by_cases hB0 : B = 0
        · exact hmeta B (by omega)
        · by_cases hx : x = 0
          · rw [if_pos hx] at hp
            have := hw.marked p (by rw [hp]; exact hB0)
            rw [hp, hbit] at this
            exact Option.some.inj this
          · rw [if_neg hx] at hp
            exact absurd hp.symm hB0
      · have := hsp.2.2.1
        rw [hbit] at this
        exact Option.some.inj this

/-- What `bmap_alloc` does to `block_count` it does to any. -/
theorem bmapAlloc_count (n : UInt32) {index : Nat} {M : Mapped → FileSystem → Prop}
    {E : Exn → FileSystem → Prop}
    (h : (bmapAlloc sb { ino with blockCount := n } index).Ends s (fun m s' =>
      M ⟨{ m.ino with blockCount := ino.blockCount + (m.ino.blockCount - n) }, m.block, m.fresh⟩ s')
      E) : (bmapAlloc sb ino index).Ends s M E := by
  have hadd : ∀ k : UInt32, ino.blockCount + (n + k - n) = ino.blockCount + k := by
    intro k
    rw [UInt32.add_comm n k, UInt32.add_sub_cancel]
  have hsub : ino.blockCount + (n - n) = ino.blockCount := by
    rw [UInt32.sub_self, UInt32.add_zero]
  by_cases hmax : maxFileBlocks ≤ index
  · refine bmapAlloc_efbig hmax ?_
    unfold maxFileBlocks at hmax
    unfold bmapAlloc at h
    rw [dif_neg (by omega), if_neg (by omega), if_pos (by omega)] at h
    exact h
  unfold maxFileBlocks at hmax
  unfold bmapAlloc at h ⊢
  by_cases h12 : index < 12
  · rw [dif_pos h12] at h ⊢
    unfold bmapAllocDirect at h ⊢
    by_cases hd : ino.direct ⟨index, h12⟩ = 0
    · simp only [hd, ne_eq, not_true_eq_false, if_false, Prog.ends_bind, Prog.ends_pure,
        Inode.addBlocks, Inode.setDirect, hadd] at h ⊢
      exact h
    · simp only [hd, ne_eq, not_false_eq_true, if_true, Prog.ends_pure, hsub] at h ⊢
      exact h
  rw [dif_neg h12] at h ⊢
  by_cases h1036 : index - 12 < 1024
  · rw [if_pos h1036] at h ⊢
    unfold bmapAllocSingle at h ⊢
    simp only [Prog.ends_ite, Prog.ends_bind, Prog.ends_pure, Inode.addBlocks, hadd, hsub] at h ⊢
    exact h
  rw [if_neg h1036, if_neg (by omega)] at h ⊢
  unfold bmapAllocDouble at h ⊢
  simp only [Prog.ends_ite, Prog.ends_bind, Prog.ends_pure, Inode.addBlocks, hadd, hsub] at h ⊢
  exact h

/-! ## Looking up -/

/-- Pointers into the data region are those of the image. -/
theorem ptr_disk {d : Nat → Block} (hr : InRange sb (Image.of sb d).blk ino) (p : Pos) :
    ptr d ino p = ptr (Image.of sb d).blk ino p :=
  ptr_congr (fun q _ hq => (if_pos (hr q hq).1).symm) p

theorem WellFormed.inRange (hw : WellFormed sb s ino) :
    InRange sb (Image.of sb s.disk).blk ino := by
  intro p hp
  rw [hw.ptr_image] at hp ⊢
  exact hw.range p hp

/-- `bmap_read` reads the map. -/
theorem reads_bmap (g : Regions sb) (hs : Synced sb s)
    (hr : InRange sb (Image.of sb s.disk).blk ino)
    {i : Nat} (hi : i < maxFileBlocks) : Reads sb s ino i (bmap s.disk ino i) := by
  have h := (synced_iff g).mp hs
  exact Prog.run_eq_ok.mpr (bmapRead_any g h hr hi ⟨(ptr_disk hr (.data i)).symm, rfl⟩)

theorem Reads.eq {i b b' : Nat} (h : Reads sb s ino i b) (h' : Reads sb s ino i b') : b = b' := by
  unfold Reads at h h'
  rw [h] at h'
  cases h'
  rfl

/-! ## The way down to a block -/

/-- An indirect block on the way down has one child on the way. -/
theorem path_child {i : Nat} (hi : i < maxFileBlocks) {q : Pos} (hq : q ∈ path i)
    (hind : q.indirect = true) : ∃ c ∈ path i, ∃ k, c.parent = some (q, k) ∧
      (∀ p ∈ path i, ∀ j, p.parent = some (q, j) → p = c) ∧ (c = .data i ∨ c.indirect = true) := by
  by_cases h12 : i < 12
  · rw [path_lt h12] at hq
    rw [List.mem_singleton.mp hq] at hind
    cases hind
  by_cases h1036 : i < 1036
  · rw [path_single (by omega) h1036] at hq ⊢
    rcases List.mem_cons.mp hq with rfl | hq
    · refine ⟨.data i, by simp, _, parent_single (by omega) h1036, fun p hp j hpj => ?_, .inl rfl⟩
      rcases List.mem_cons.mp hp with rfl | hp
      · cases hpj
      · exact List.mem_singleton.mp hp
    · rw [List.mem_singleton.mp hq] at hind
      cases hind
  rw [path_double (by omega)] at hq ⊢
  have hj : (i - 1036) / 1024 < 1024 := by unfold maxFileBlocks at hi; omega
  have hdata := parent_double (by omega) hi
  rcases List.mem_cons.mp hq with rfl | hq
  · refine ⟨.second ((i - 1036) / 1024), by simp, _, parent_second hj,
      fun p hp j hpj => ?_, .inr rfl⟩
    rcases List.mem_cons.mp hp with rfl | hp
    · cases hpj
    rcases List.mem_cons.mp hp with rfl | hp
    · rfl
    · rw [List.mem_singleton.mp hp, hdata] at hpj
      cases hpj
  rcases List.mem_cons.mp hq with rfl | hq
  · refine ⟨.data i, by simp, _, hdata, fun p hp j hpj => ?_, .inl rfl⟩
    rcases List.mem_cons.mp hp with rfl | hp
    · cases hpj
    rcases List.mem_cons.mp hp with rfl | hp
    · rw [parent_second hj] at hpj
      cases hpj
    · exact List.mem_singleton.mp hp
  · rw [List.mem_singleton.mp hq] at hind
    cases hind

/-- Every place in an indirect block on the way down is a position. -/
theorem exists_child {i : Nat} (hi : i < maxFileBlocks) {q : Pos} (hq : q ∈ path i)
    (hind : q.indirect = true) {k : Nat} (hk : k < 1024) : ∃ p : Pos, p.parent = some (q, k) := by
  cases q with
  | data i => cases hind
  | single => exact ⟨.data (12 + k), parent_below_single k hk⟩
  | double => exact ⟨.second k, parent_second hk⟩
  | second j =>
    refine ⟨.data (1036 + 1024 * j + k), parent_below j ?_ k hk⟩
    obtain ⟨c, -, k', hc, -⟩ := path_child hi hq hind
    rcases Pos.parent_eq_some hc with ⟨_, -, -, -, h, -⟩ | ⟨i', -, h1, h2, h, -⟩ | ⟨-, -, h⟩
    · cases h
    · cases h
      unfold maxFileBlocks at h2
      omega
    · cases h

/-- A new indirect block holds one pointer, whatever the disk held there. -/
theorem took_clean {I I' : Image} {index : Nat} {m : Mapped} {N : List (Pos × Nat)}
    (hi : index < maxFileBlocks) (ht : Took sb s I ino index s' I' m N)
    (hm : ptr I'.blk m.ino (.data index) ≠ 0) {n : Pos × Nat} (hn : n ∈ N)
    (hne : n.1 ≠ .data index) (hn0 : n.2 ≠ 0) :
    ∃ k < 1024, ∀ j < 1024, ptrAt (I'.blk n.2) j ≠ 0 ↔ j = k := by
  obtain ⟨hpath, hold, hnew⟩ := ht.new n hn
  have hind : n.1.indirect = true := by
    by_cases h12 : index < 12
    · rw [path_lt h12] at hpath
      exact absurd (List.mem_singleton.mp hpath) hne
    by_cases h1036 : index < 1036
    · rw [path_single (by omega) h1036] at hpath
      rcases List.mem_cons.mp hpath with h | h
      · rw [h]
        rfl
      · exact absurd (List.mem_singleton.mp h) hne
    · rw [path_double (by omega)] at hpath
      rcases List.mem_cons.mp hpath with h | hpath
      · rw [h]
        rfl
      rcases List.mem_cons.mp hpath with h | h
      · rw [h]
        rfl
      · exact absurd (List.mem_singleton.mp h) hne
  obtain ⟨c, hc, k, hck, huniq, hkind⟩ := path_child hi hpath hind
  have hread : ∀ p j, p.parent = some (n.1, j) →
      ptr I'.blk m.ino p = (ptrAt (I'.blk n.2) j).toNat := by
    intro p j hp
    rw [ptr_of_parent hp, hnew, if_neg hn0]
  -- the child on the way is there, or nothing below it would be
  have hc0 : ptr I'.blk m.ino c ≠ 0 := by
    rcases hkind with rfl | hkind
    · exact hm
    · intro hz
      obtain ⟨c', hc', k', hck', -, hkind'⟩ := path_child hi hc hkind
      rcases hkind' with rfl | hkind'
      · rw [ptr_of_parent hck', hz, if_pos rfl] at hm
        exact hm rfl
      · -- a child of a child is a data block
        rcases Pos.parent_eq_some hck with ⟨_, rfl, -⟩ | ⟨_, rfl, -⟩ | ⟨rfl, -, -⟩
        · cases hkind
        · cases hkind
        · rcases Pos.parent_eq_some hck' with ⟨_, rfl, -⟩ | ⟨_, rfl, -⟩ | ⟨-, -, h⟩
          · cases hkind'
          · cases hkind'
          · cases h
  refine ⟨k, (Pos.parent_spec hck).2.1, fun j hj => ⟨fun hj0 => ?_, fun hjk => ?_⟩⟩
  · obtain ⟨p, hp⟩ := exists_child hi hpath hind hj
    by_cases hpc : p = c
    · rw [hpc, hck] at hp
      cases hp
      rfl
    · have hpN : p ∉ N.map Prod.fst := by
        intro hmem
        obtain ⟨n', hn', rfl⟩ := List.mem_map.mp hmem
        exact hpc (huniq _ (ht.new n' hn').1 j hp)
      have hz := ht.old p hpN
      rw [hread p j hp, ptr_of_parent hp, hold, if_pos rfl] at hz
      exact absurd (toNat_eq_zero.mp hz) hj0
  · rw [hjk]
    intro hz
    rw [hread c k hck, hz] at hc0
    exact hc0 rfl

/-! ## Taking blocks -/

/-- What `bmap_alloc` of file block `index` has done when it returns `m`. -/
structure Allocated (sb : Superblock) (s : FileSystem) (ino : Inode) (index : Nat) (m : Mapped)
    (s' : FileSystem) : Prop where
  synced : Synced sb s'
  wellFormed : WellFormed sb s' m.ino
  same : SameMeta ino m.ino
  block : Reads sb s' m.ino index m.block
  nonzero : m.block ≠ 0
  others : ∀ i < maxFileBlocks, i ≠ index → ∃ b, Reads sb s ino i b ∧ Reads sb s' m.ino i b
  fresh : m.fresh = true ↔ Reads sb s ino index 0
  /-- The blocks of `L` are new, and nothing else is. -/
  taken : ∃ L : List Nat, L.Nodup ∧ L.length ≤ 3 ∧
    m.ino.blockCount = ino.blockCount + UInt32.ofNat L.length ∧
    owned s' m.ino = owned s ino + L.length ∧
    (∀ b, b ≠ 0 → ((∃ p, ptr s'.disk m.ino p = b) ↔ (∃ p, ptr s.disk ino p = b) ∨ b ∈ L)) ∧
    (∀ b ∈ L, sb.dataStart.toNat ≤ b ∧ b < sb.totalBlocks.toNat ∧
      s.blocks.isSet b = some false ∧ s'.blocks.isSet b = some true) ∧
    (∀ b ∉ L, s'.blocks.isSet b = s.blocks.isSet b) ∧
    -- a new indirect block holds one pointer
    (∀ b ∈ L, b ≠ m.block → ∃ k < 1024, ∀ j < 1024, ptrAt (s'.disk b) j ≠ 0 ↔ j = k) ∧
    ∃ W, Writes s s' W ∧ ∀ B ∈ W, B ∈ L ∨ B ∈ bitmapBlocks sb L ∨
      ((∃ q : Pos, q.indirect = true ∧ ptr s.disk ino q = B) ∧ s'.disk B ≠ s.disk B)

/-- What is left when it throws: the disk was full, or its bitmap is damaged. -/
def Refused (s : FileSystem) (e : Exn) (s' : FileSystem) : Prop :=
  (e = .fsError .enospc ∨ e = .fsError .eio) ∧
    s'.disk = s.disk ∧ s'.inodes = s.inodes ∧ s'.blocks = s.blocks

theorem shows_refused (g : Regions sb) (hs : Synced sb s) {e : Exn}
    (h' : Shows sb s' (.of sb s.disk) s.side) (he : e = .fsError .enospc ∨ e = .fsError .eio) :
    Refused s e s' := by
  obtain ⟨h1, h2, h3⟩ := ((synced_iff g).mp hs).unique g h'
  exact ⟨he, h1, h2, h3⟩

theorem isSet_image {r : Side} (h : Shows sb s (.of sb s.disk) r) {b : Nat}
    (hb : b < sb.totalBlocks.toNat) :
    s.blocks.isSet b = some ((Image.of sb s.disk).dbit b) := by
  rw [Bitmap.isSet_of_lt (by rw [h.blockCount]; exact hb), h.blockBit b hb]

/-- The block was there: nothing is done. -/
theorem allocated_stale (g : Regions sb) (hs : Synced sb s) (hw : WellFormed sb s ino) {index : Nat}
    (hi : index < maxFileBlocks) (h0 : bmap s.disk ino index ≠ 0) :
    Allocated sb s ino index ⟨ino, bmap s.disk ino index, false⟩ s where
  synced := hs
  wellFormed := hw
  same := ⟨rfl, rfl, rfl, rfl, rfl, rfl⟩
  block := reads_bmap g hs hw.inRange hi
  nonzero := h0
  others i hi' _ := ⟨_, reads_bmap g hs hw.inRange hi', reads_bmap g hs hw.inRange hi'⟩
  fresh := ⟨nofun, fun h => absurd ((reads_bmap g hs hw.inRange hi).eq h) h0⟩
  taken := by
    refine ⟨[], List.nodup_nil, Nat.zero_le 3, ?_, rfl, fun b _ => ?_, nofun, fun _ _ => rfl, nofun,
      ∅, .refl s, nofun⟩
    · show ino.blockCount = ino.blockCount + 0
      rw [UInt32.add_zero]
    · simp

/-- New pointers are counted. -/
theorem ncard_new {f f' : Pos → Nat} {N : List (Pos × Nat)}
    (hnew : ∀ n ∈ N, f n.1 = 0 ∧ f' n.1 = n.2) (hold : ∀ p, p ∉ N.map Prod.fst → f' p = f p)
    (hnd : (N.map Prod.snd).Nodup) (hpos : ∀ n ∈ N, n.2 ≠ 0) (hfin : {p | f p ≠ 0}.Finite) :
    Set.ncard {p | f' p ≠ 0} = Set.ncard {p | f p ≠ 0} + N.length := by
  have hfst : (N.map Prod.fst).Nodup := by
    have hmap : (N.map Prod.fst).map f' = N.map Prod.snd := by
      rw [List.map_map]
      exact List.map_congr_left fun n hn => (hnew n hn).2
    exact List.Nodup.of_map f' (hmap ▸ hnd)
  have hset : {p | f' p ≠ 0} = {p | f p ≠ 0} ∪ ((N.map Prod.fst).toFinset : Set Pos) := by
    ext p
    show f' p ≠ 0 ↔ f p ≠ 0 ∨ p ∈ (N.map Prod.fst).toFinset
    rw [List.mem_toFinset]
    by_cases hp : p ∈ N.map Prod.fst
    · obtain ⟨n, hn, rfl⟩ := List.mem_map.mp hp
      obtain ⟨h1, h2⟩ := hnew n hn
      simp only [h2, hpos n hn, hp, ne_eq, not_false_eq_true, or_true]
    · simp only [hold p hp, hp, or_false]
  rw [hset, Set.ncard_union_eq ?_ hfin (Finset.finite_toSet _), Set.ncard_coe_finset,
    List.toFinset_card_of_nodup hfst, List.length_map]
  refine Set.disjoint_left.mpr fun p hp hpN => ?_
  obtain ⟨n, hn, rfl⟩ := List.mem_map.mp (List.mem_toFinset.mp (Finset.mem_coe.mp hpN))
  exact hp (hnew n hn).1

/-- From what was taken for the inode with the right count, what was taken for the inode. -/
theorem allocated_of_took (g : Regions sb) (hs : Synced sb s) (hw : WellFormed sb s ino)
    {index : Nat} (hi : index < maxFileBlocks) {m : Mapped} {I' : Image} {N : List (Pos × Nat)}
    (h' : Shows sb s' I' s.side) (ho : Own sb I' (Function.update (only s ino) 0 m.ino)
    (spare sb s ino))
    (hg : Grew (.of sb s.disk) (only s ino) 0 index I' m)
    (ht : Took sb s (.of sb s.disk) (counted s ino) index s' I' m N) :
    Allocated sb s ino index ⟨{ m.ino with
      blockCount := ino.blockCount + (m.ino.blockCount - (counted s ino).blockCount) },
      m.block, m.fresh⟩ s' := by
  have h := (synced_iff g).mp hs
  obtain rfl := h'.image
  have hs' : Synced sb s' := (synced_iff g).mpr
    ⟨rfl, h'.inodeCount, h'.blockCount, h'.inodeBit, h'.blockBit, rfl⟩
  have hr' : InRange sb (Image.of sb s'.disk).blk m.ino := by
    have := ho.range 0
    rwa [Function.update_self] at this
  generalize hino' : ({ m.ino with
    blockCount := ino.blockCount + (m.ino.blockCount - (counted s ino).blockCount) } : Inode) = ino'
  have hsamePtr : ∀ p, ptr (Image.of sb s'.disk).blk ino' p
    = ptr (Image.of sb s'.disk).blk m.ino p :=
    fun p => congrFun (ptr_fields m.ino ino' (by rw [← hino']) (by rw [← hino'])
      (by rw [← hino'])) p
  have hr2 : InRange sb (Image.of sb s'.disk).blk ino' := by
    intro p hp
    rw [hsamePtr] at hp ⊢
    exact hr' p hp
  have hptr' : ∀ p, ptr s'.disk ino' p = ptr (Image.of sb s'.disk).blk m.ino p := fun p =>
    (ptr_disk hr2 p).trans (hsamePtr p)
  have hptr : ∀ p, ptr s.disk ino p = ptr (Image.of sb s.disk).blk (counted s ino) p := fun p =>
    (hw.ptr_image p).symm.trans
      (congrFun (ptr_fields ino (counted s ino) rfl rfl rfl) p).symm
  have hblock : ptr (Image.of sb s'.disk).blk m.ino (.data index) = m.block := hg.block
  -- what is new in the tree is what was taken
  have hnew : ∀ b, b ≠ 0 → ((∃ p, ptr s'.disk ino' p = b) ↔
      (∃ p, ptr s.disk ino p = b) ∨ b ∈ N.map Prod.snd) := by
    intro b hb
    constructor
    · rintro ⟨p, hp⟩
      by_cases hpN : p ∈ N.map Prod.fst
      · obtain ⟨n, hn, rfl⟩ := List.mem_map.mp hpN
        rw [hptr', (ht.new n hn).2.2] at hp
        exact .inr (hp ▸ List.mem_map_of_mem hn)
      · refine .inl ⟨p, ?_⟩
        rw [hptr, ← ht.old p hpN, ← hptr', hp]
    · rintro (⟨p, hp⟩ | hbN)
      · refine ⟨p, ?_⟩
        rw [hptr', ht.old p fun hpN => ?_, ← hptr, hp]
        obtain ⟨n, hn, rfl⟩ := List.mem_map.mp hpN
        rw [hptr, (ht.new n hn).2.1] at hp
        exact hb hp.symm
      · obtain ⟨n, hn, rfl⟩ := List.mem_map.mp hbN
        exact ⟨n.1, by rw [hptr', (ht.new n hn).2.2]⟩
  have hpos : ∀ n ∈ N, n.2 ≠ 0 := by
    intro n hn
    have hor := g.order
    have := (ht.free n.2 (List.mem_map_of_mem hn)).1
    omega
  have hdisk : ∀ b, sb.dataStart.toNat ≤ b → (Image.of sb s'.disk).blk b = s'.disk b := fun b hb =>
    if_pos hb
  have hindex : bmap s.disk ino index = 0 ↔ N ≠ [] := by
    have hz : bmap s.disk ino index = bmap (Image.of sb s.disk).blk (only s ino 0) index :=
      (hptr (.data index)).trans (by rw [only_zero]; rfl)
    rw [hz, ← ht.fresh]
    refine ⟨fun h0 => ?_, hg.fresh⟩
    by_contra hf
    obtain ⟨hI, hino⟩ := hg.stale (by simpa using hf)
    have := hg.block
    rw [hI, hino, h0] at this
    exact hg.nonzero this.symm
  constructor
  · exact hs'
  · constructor
    · intro p q hp heq
      rw [hptr'] at hp heq
      rw [hptr'] at heq
      have := ho.once 0 p 0 q
      rw [Function.update_self] at this
      exact (this hp heq).2
    · intro p hp
      rw [hptr'] at hp ⊢
      exact hr' p hp
    · intro p hp
      rw [hptr'] at hp ⊢
      rw [isSet_image h' (hr' p hp).2]
      have := ho.dbit_of_ptr (x := 0) (p := p)
      rw [Function.update_self] at this
      exact congrArg some (this hp)
  · obtain ⟨h1, h2, h3, h4, h5, h6⟩ := (show only s ino 0 = _ from only_zero) ▸ hg.same
    rw [← hino']
    exact ⟨h1, h2, h3, h4, h5, h6⟩
  · have := reads_bmap g hs' hr2 hi
    rwa [show bmap s'.disk ino' index = m.block from (hptr' (.data index)).trans hblock] at this
  · exact hg.nonzero
  · intro i hi' hne
    refine ⟨bmap s.disk ino i, reads_bmap g hs hw.inRange hi', ?_⟩
    have := reads_bmap g hs' hr2 hi'
    rwa [show bmap s'.disk ino' i = bmap s.disk ino i from ?_] at this
    refine (hptr' (.data i)).trans ((hg.others i hne).trans ?_)
    rw [only_zero]
    exact (hptr (.data i)).symm
  · show m.fresh = true ↔ _
    rw [ht.fresh, ← hindex]
    exact ⟨fun h0 => h0 ▸ reads_bmap g hs hw.inRange hi,
      fun h0 => (reads_bmap g hs hw.inRange hi).eq h0⟩
  · refine ⟨N.map Prod.snd, ht.nodup, ?_, ?_, ?_, hnew, ?_, ?_, ?_, _, ht.writes, ?_⟩
    · rw [List.length_map]
      exact ht.few
    · rw [List.length_map, ← hino', ht.count, UInt32.add_comm (counted s ino).blockCount,
        UInt32.add_sub_cancel]
    · rw [List.length_map]
      refine ncard_new (fun n hn => ?_) (fun p hp => ?_) ht.nodup hpos hw.finite
      · obtain ⟨-, h1, h2⟩ := ht.new n hn
        exact ⟨(hptr n.1).trans h1, (hptr' n.1).trans h2⟩
      · rw [hptr', ht.old p hp, ← hptr]
    · intro b hb
      obtain ⟨h1, h2, h3⟩ := ht.free b hb
      refine ⟨h1, h2, by rw [isSet_image h h2, h3], ?_⟩
      rw [isSet_image h' h2, ht.dbit]
      simp [Image.setDBits, hb]
    · intro b hb
      by_cases hlt : b < sb.totalBlocks.toNat
      · rw [isSet_image h' hlt, isSet_image h hlt, ht.dbit]
        simp only [Image.setDBits, hb, decide_false, Bool.or_false]
      · rw [Bitmap.isSet_of_le (by rw [h'.blockCount]; omega),
          Bitmap.isSet_of_le (by rw [h.blockCount]; omega)]
    · intro b hb hne
      obtain ⟨n, hn, rfl⟩ := List.mem_map.mp hb
      have := took_clean hi ht (by rw [hblock]; exact hg.nonzero) hn
        (fun hd => hne (by rw [← (ht.new n hn).2.2, hd, hblock])) (hpos n hn)
      rwa [hdisk _ (ht.free _ hb).1] at this
    · rintro B (hB | ⟨n, hn, q, k, hqk, hB⟩)
      · exact .inr (.inl hB)
      obtain ⟨-, hold, hnw⟩ := ht.new n hn
      rw [ptr_of_parent hqk, hB] at hnw
      rw [ptr_of_parent hqk] at hold
      have hB0 : B ≠ 0 := fun h0 => hpos n hn (by rw [← hnw, if_pos h0])
      rw [if_neg hB0] at hnw
      by_cases hqN : q ∈ N.map Prod.fst
      · obtain ⟨n', hn', rfl⟩ := List.mem_map.mp hqN
        rw [(ht.new n' hn').2.2] at hB
        exact .inl (hB ▸ List.mem_map_of_mem hn')
      · rw [ht.old q hqN] at hB
        rw [hB, if_neg hB0] at hold
        refine .inr (.inr ⟨⟨q, (Pos.parent_spec hqk).1, (hptr q).trans hB⟩, fun heq => ?_⟩)
        have hBr : sb.dataStart.toNat ≤ B := by
          have := (hw.range q (by rw [hptr, hB]; exact hB0)).1
          rwa [hptr, hB] at this
        have hBi : (Image.of sb s.disk).blk B = s.disk B := if_pos hBr
        rw [hdisk B hBr, heq, ← hBi, hold] at hnw
        exact hpos n hn hnw.symm

/-! ### A damaged bitmap -/

section Damaged

variable {I : Image} {r : Side} {E : Exn → FileSystem → Prop}

/-- With a metadata block unmarked, that is what `alloc_block` finds. -/
theorem allocBlock_damaged (g : Regions sb) (h : Shows sb s I r)
    (hlow : ∃ b < sb.dataStart.toNat, I.dbit b = false) {Q : Nat → FileSystem → Prop}
    (hE : E (.fsError .eio) s) : (allocBlock sb).Ends s Q E := by
  obtain ⟨b, hb, h0⟩ := hlow
  refine allocBlock_any g h (fun c s' h1 _ _ h3 _ _ => ?_) (fun _ _ _ _ => hE) fun hall => ?_
  · have := h3 b (by omega)
    rw [h0] at this
    exact Bool.noConfusion this
  · have hor := g.order
    have := hall b (by omega)
    rw [h0] at this
    exact Bool.noConfusion this

theorem allocAll_damaged (g : Regions sb) (h : Shows sb s I r)
    (hlow : ∃ b < sb.dataStart.toNat, I.dbit b = false) {n : Nat} (hn : 0 < n)
    {Q : List Nat → FileSystem → Prop} (hE : ∀ s', Shows sb s' I r → E (.fsError .eio) s') :
    (allocAll sb n).Ends s Q E := by
  obtain ⟨k, rfl⟩ : ∃ k, n = k + 1 := ⟨n - 1, by omega⟩
  unfold allocAll allocAllFrom
  rw [Prog.ends_bind, Prog.ends_onError]
  refine allocBlock_damaged g h hlow ?_
  refine freeBlocks_ends g h List.nodup_nil (by intros; contradiction) fun s' hs' =>
    hE s' (hs'.congr ?_)
  simp [Image.clearDBits]

/-- With a metadata block unmarked, `bmap_alloc` finds the block or fails. -/
theorem bmapAlloc_damaged (g : Regions sb) (h : Shows sb s I r) (hr : InRange sb I.blk ino)
    (hlow : ∃ b < sb.dataStart.toNat, I.dbit b = false) {index : Nat} (hi : index < maxFileBlocks)
    {M : Mapped → FileSystem → Prop}
    (hM : bmap I.blk ino index ≠ 0 → M ⟨ino, bmap I.blk ino index, false⟩ s)
    (hE : ∀ s', Shows sb s' I r → E (.fsError .eio) s') : (bmapAlloc sb ino index).Ends s M E := by
  unfold bmapAlloc
  by_cases h12 : index < 12
  · rw [dif_pos h12]
    unfold bmapAllocDirect
    have hb : bmap I.blk ino index = (ino.direct ⟨index, h12⟩).toNat := dif_pos h12
    by_cases h0 : ino.direct ⟨index, h12⟩ = 0
    · rw [if_neg (by simpa using h0), Prog.ends_bind]
      exact allocBlock_damaged g h hlow (hE s h)
    · rw [if_pos h0, Prog.ends_pure, ← hb]
      exact hM fun hz => h0 (toNat_eq_zero.mp (hb ▸ hz))
  rw [dif_neg h12]
  by_cases h1036 : index - 12 < 1024
  · rw [if_pos h1036]
    have hp := parent_single (show 12 ≤ index by omega) (by omega)
    unfold bmapAllocSingle
    by_cases hs : ino.singleIndirect = 0
    · rw [if_neg (by simpa using hs), Prog.ends_bind]
      exact allocAll_damaged g h hlow (by omega) hE
    · have hs0 : ptr I.blk ino .single ≠ 0 := fun hz => hs (toNat_eq_zero.mp hz)
      rw [if_pos hs, Prog.ends_bind]
      refine getPtr_at_ends g h hr hp hs0 ?_
      by_cases hb0 : bmap I.blk ino index = 0
      · rw [if_neg (by simpa [ptr] using hb0), Prog.ends_bind]
        exact allocBlock_damaged g h hlow (hE s h)
      · rw [if_pos (by simpa [ptr] using hb0), Prog.ends_pure]
        exact hM hb0
  have hmax : ¬ index - 12 - 1024 ≥ 1024 * 1024 := by unfold maxFileBlocks at hi; omega
  rw [if_neg h1036, if_neg hmax, show index - 12 - 1024 = index - 1036 by omega]
  have hj : (index - 1036) / 1024 < 1024 := by omega
  have hp := parent_double (show 1036 ≤ index by omega) hi
  unfold bmapAllocDouble
  dsimp only
  by_cases ht : ino.doubleIndirect.toNat = 0
  · simp only [ht, ne_eq, not_true_eq_false, if_false, Prog.ends_pure, Prog.ends_bind]
    exact allocAll_damaged g h hlow (by omega) hE
  · rw [if_pos ht, Prog.ends_bind]
    refine getPtr_at_ends g h hr (parent_second hj) ht ?_
    by_cases hs0 : ptr I.blk ino (.second ((index - 1036) / 1024)) = 0
    · simp only [hs0, ne_eq, not_true_eq_false, if_false, Prog.ends_pure, Prog.ends_bind]
      exact allocAll_damaged g h hlow (by omega) hE
    · rw [if_pos hs0, Prog.ends_bind]
      refine getPtr_at_ends g h hr hp hs0 ?_
      by_cases hb0 : bmap I.blk ino index = 0
      · rw [if_neg (show ¬ ptr I.blk ino (.data index) ≠ 0 from fun hz => hz hb0), Prog.ends_bind]
        exact allocAll_damaged g h hlow (by omega) hE
      · rw [if_pos (show ptr I.blk ino (.data index) ≠ 0 from hb0), Prog.ends_pure]
        exact hM hb0

end Damaged

/-- `bmap_alloc` below `MAX_FILE_BLOCKS`. -/
theorem bmapAlloc_allocated (g : Regions sb) (hs : Synced sb s) (hw : WellFormed sb s ino)
    {index : Nat} (hi : index < maxFileBlocks) :
    (bmapAlloc sb ino index).Ends s (Allocated sb s ino index) (Refused s) := by
  have h := (synced_iff g).mp hs
  by_cases hmeta : ∀ b < sb.dataStart.toNat, (Image.of sb s.disk).dbit b = true
  · refine bmapAlloc_count (counted s ino).blockCount ?_
    rw [show ({ ino with blockCount := (counted s ino).blockCount } : Inode) = only s ino 0 from
      only_zero.symm]
    refine bmapAlloc_writes g h (hw.own g h hmeta) 0 hi (fun m s' I' N h' ho hg ht => ?_)
      fun L s' _ h' _ _ _ => shows_refused g hs h' (.inl rfl)
    rw [only_zero] at ht
    exact allocated_of_took g hs hw hi h' ho hg ht
  · push Not at hmeta
    obtain ⟨b, hb, h0⟩ := hmeta
    have hbm : bmap (Image.of sb s.disk).blk ino index = bmap s.disk ino index :=
      hw.ptr_image (.data index)
    refine bmapAlloc_damaged g h hw.inRange ⟨b, hb, by simpa using h0⟩ hi (fun hz => ?_)
      fun s' h' => shows_refused g hs h' (.inr rfl)
    rw [hbm] at hz ⊢
    exact allocated_stale g hs hw hi hz

/-- `bmap_read` and `bmap_alloc` are a sparse map from file blocks to disk blocks, on every inode
    whose pointer tree is well formed.  Past `MAX_FILE_BLOCKS` both refuse. -/
theorem bmapAlloc_sparse {n : UInt32} (hv : validateSuperblock sb n = .ok ()) (hs : Synced sb s)
    (hw : WellFormed sb s ino) (index : Nat) :
    (index < maxFileBlocks →
      (bmapAlloc sb ino index).Ends s (Allocated sb s ino index) (Refused s)) ∧
    (maxFileBlocks ≤ index →
      (bmapRead sb ino index).run s = some (.error (.fsError .efbig), s) ∧
      (bmapAlloc sb ino index).run s = some (.error (.fsError .efbig), s)) :=
  ⟨fun hi => bmapAlloc_allocated (regions_of_validate hv) hs hw hi,
    fun hi => ⟨Prog.run_eq_error.mpr (bmapRead_efbig hi ⟨rfl, rfl⟩),
      Prog.run_eq_error.mpr (bmapAlloc_efbig hi ⟨rfl, rfl⟩)⟩⟩

/-- An inode without pointers. -/
theorem wellFormed_zero (sb : Superblock) (s : FileSystem) : WellFormed sb s .zero where
  once p _ hp _ := absurd (ptr_zero s.disk p) hp
  range p hp := absurd (ptr_zero s.disk p) hp
  marked p hp := absurd (ptr_zero s.disk p) hp

section Kept

variable {index i : Nat} {m : Mapped} (ha : Allocated sb s ino index m s')
include ha

/-- The map after `bmap_alloc`. -/
theorem Allocated.bmap_block (g : Regions sb) (hi : index < maxFileBlocks) :
    bmap s'.disk m.ino index = m.block :=
  (reads_bmap g ha.synced ha.wellFormed.inRange hi).eq ha.block

theorem Allocated.bmap_other (g : Regions sb) (hs : Synced sb s) (hw : WellFormed sb s ino)
    (hi : i ≠ index) : bmap s'.disk m.ino i = bmap s.disk ino i := by
  by_cases hlt : i < maxFileBlocks
  · obtain ⟨b, h1, h2⟩ := ha.others i hlt hi
    rw [(reads_bmap g ha.synced ha.wellFormed.inRange hlt).eq h2,
      (reads_bmap g hs hw.inRange hlt).eq h1]
  · rw [bmap_past (by omega), bmap_past (by omega)]

/-- The data blocks that were there hold what they held. -/
theorem Allocated.disk_data (g : Regions sb) (hw : WellFormed sb s ino)
    (h0 : bmap s.disk ino i ≠ 0) : s'.disk (bmap s.disk ino i) = s.disk (bmap s.disk ino i) := by
  obtain ⟨L, -, -, -, -, -, hL, -, -, W, hW, hsub⟩ := ha.taken
  refine hW.disk _ fun hB => ?_
  have hr := hw.range (.data i) h0
  rcases hsub _ hB with hin | ⟨b, hb, hin⟩ | ⟨⟨q, hq, hin⟩, -⟩
  · have hfree := (hL _ hin).2.2.1
    rw [show s.blocks.isSet (bmap s.disk ino i) = some true from hw.marked (.data i) h0] at hfree
    cases hfree
  · have hor := g.order
    have h1 : sb.dataStart.toNat ≤ bmap s.disk ino i := hr.1
    have h2 := (hL b hb).2.1
    omega
  · have := hw.once (.data i) q h0 hin.symm
    rw [← this] at hq
    cases hq

end Kept

/-! ### A file that grows -/

/-- The inode and the state after the file blocks `l` were mapped, one after the other. -/
def mapAll (sb : Superblock) : FileSystem → Inode → List Nat → Option (Inode × FileSystem)
  | s, ino, [] => some (ino, s)
  | s, ino, i :: l => match (bmapAlloc sb ino i).run s with
    | some (.ok m, s') => mapAll sb s' m.ino l
    | _ => none

/-- One block more: the tree stays well formed and its blocks stay counted. -/
theorem Allocated.counts {index : Nat} {m : Mapped} (ha : Allocated sb s ino index m s')
    (hc : ino.blockCount.toNat = owned s ino) : m.ino.blockCount.toNat = owned s' m.ino := by
  obtain ⟨L, -, hlen, hcount, howned, -⟩ := ha.taken
  have hlt := ha.wellFormed.owned_lt
  have hL : (UInt32.ofNat L.length).toNat = L.length :=
    UInt32.toNat_ofNat_of_lt' (show L.length < 2 ^ 32 by omega)
  rw [hcount, UInt32.toNat_add, hL, hc, howned]
  exact Nat.mod_eq_of_lt (by omega)

/-- However many file blocks are mapped, in any order, the tree stays well formed and its blocks
    stay counted. -/
theorem mapAll_wellFormed (g : Regions sb) {l : List Nat} {ino' : Inode} (hs : Synced sb s)
    (hw : WellFormed sb s ino) (hc : ino.blockCount.toNat = owned s ino)
    (h : mapAll sb s ino l = some (ino', s')) :
    Synced sb s' ∧ WellFormed sb s' ino' ∧ ino'.blockCount.toNat = owned s' ino' := by
  induction l generalizing s ino with
  | nil =>
    obtain ⟨rfl, rfl⟩ := Prod.mk.inj (Option.some.inj h)
    exact ⟨hs, hw, hc⟩
  | cons i l ih =>
    unfold mapAll at h
    split at h
    · rename_i m s1 hrun
      by_cases hi : i < maxFileBlocks
      · have ha : Allocated sb s ino i m s1 := by
          obtain ⟨out, hrun', hout⟩ := Prog.ends_iff_run.mp (bmapAlloc_allocated g hs hw hi)
          rw [hrun] at hrun'
          obtain rfl := Option.some.inj hrun'
          exact hout
        exact ih ha.synced ha.wellFormed (ha.counts hc) h
      · -- past the last block there is nothing to map
        have herr : (bmapAlloc sb ino i).run s = some (.error (.fsError .efbig), s) :=
          Prog.run_eq_error.mpr (bmapAlloc_efbig (Nat.le_of_not_lt hi) ⟨rfl, rfl⟩)
        rw [hrun] at herr
        obtain ⟨hm, -⟩ := Prod.mk.inj (Option.some.inj herr)
        contradiction
    · contradiction

theorem owned_zero (s : FileSystem) : owned s .zero = 0 := by
  simp [owned, ptr_zero]

/-- A file on a new file system, with block 0 and, through the indirect block, block 12. -/
def grownFile : Inode × FileSystem :=
  (mapAll smallLayout Mkfs.smallFs .zero [0, 12]).getD (.zero, Mkfs.smallFs)

theorem grownFile_wellFormed : Synced smallLayout grownFile.2 ∧
    WellFormed smallLayout grownFile.2 grownFile.1 ∧
    grownFile.1.blockCount.toNat = owned grownFile.2 grownFile.1 := by
  have hsome : (mapAll smallLayout Mkfs.smallFs .zero [0, 12]).isSome = true := by decide +kernel
  obtain ⟨⟨ino, s⟩, h⟩ := Option.isSome_iff_exists.mp hsome
  unfold grownFile
  rw [h]
  exact mapAll_wellFormed (regions_of_validate smallLayout_valid) (synced_mounted smallLayout _ _)
    (wellFormed_zero _ _) (owned_zero _).symm h

/-- Block 13 takes one block, which the indirect block leads to. -/
theorem bmapAlloc_sparse_small : grownFile.1.direct 0 = 5 ∧ grownFile.1.singleIndirect ≠ 0 ∧
    ∃ m s', (bmapAlloc smallLayout grownFile.1 13).run grownFile.2 = some (.ok m, s') ∧
      m.block = 8 ∧ m.fresh = true ∧ Allocated smallLayout grownFile.2 grownFile.1 13 m s' := by
  refine ⟨by decide +kernel, by decide +kernel, ?_⟩
  obtain ⟨hs, hw, -⟩ := grownFile_wellFormed
  have hends := (bmapAlloc_sparse smallLayout_valid hs hw 13).1 (by unfold maxFileBlocks; omega)
  obtain ⟨m, s', hrun, hm, ha⟩ := hends.result
    (show (bmapAlloc smallLayout grownFile.1 13).result (fun m => (m.block, m.fresh)) grownFile.2
      = some (8, true) by decide +kernel)
  obtain ⟨hb, hf⟩ := Prod.mk.inj hm
  exact ⟨m, s', hrun, hb, hf, ha⟩

/-! ## Giving blocks back -/

/-- What a list must be for `free_blocks` to take it. -/
def Good (sb : Superblock) (s : FileSystem) (L : List Nat) : Prop :=
  L.Nodup ∧ ∀ b ∈ L, sb.dataStart.toNat ≤ b ∧ b < sb.totalBlocks.toNat ∧
  s.blocks.isSet b = some true

/-- What `free_all_blocks` has done when it leaves the inode as `ino'`: the blocks of `L` are
    free. -/
structure Freed (sb : Superblock) (s : FileSystem) (ino : Inode) (ino' : Inode) (s' : FileSystem)
    (L : List Nat) : Prop where
  emptied : ino' = ino.emptied
  holes : ∀ i < maxFileBlocks, Reads sb s' ino' i 0
  nodup : L.Nodup
  length : L.length = ino.blockCount.toNat
  mem : ∀ b, b ∈ L ↔ b ≠ 0 ∧ ((∃ i < maxFileBlocks, Reads sb s ino i b) ∨
    b = ino.singleIndirect.toNat ∨ b = ino.doubleIndirect.toNat ∨
    ino.doubleIndirect ≠ 0 ∧ ∃ j < 1024, b = (ptrAt (s.disk ino.doubleIndirect.toNat) j).toNat)
  /-- On the disk it is as in memory. -/
  synced : Synced sb s'
  freed : ∀ b ∈ L, s.blocks.isSet b = some true ∧ s'.blocks.isSet b = some false
  kept : ∀ b ∉ L, s'.blocks.isSet b = s.blocks.isSet b
  inodes : s'.inodes = s.inodes
  /-- Only the data bitmap was written. -/
  writes : Writes s s' (bitmapBlocks sb L)
  others : ∀ B, B < sb.dataBitmapStart.toNat ∨ sb.inodeTableStart.toNat ≤ B → s'.disk B = s.disk B

/-- The blocks at all positions, by what leads to them. -/
theorem mem_blocksAt (g : Regions sb) (hs : Synced sb s) (hw : WellFormed sb s ino) {b : Nat} :
    b ∈ blocksAt (ptr s.disk ino) posList ↔ b ≠ 0 ∧ ((∃ i < maxFileBlocks, Reads sb s ino i b) ∨
      b = ino.singleIndirect.toNat ∨ b = ino.doubleIndirect.toNat ∨
      ino.doubleIndirect ≠ 0 ∧ ∃ j < 1024,
        b = (ptrAt (s.disk ino.doubleIndirect.toNat) j).toNat) := by
  rw [mem_blocksAt_posList]
  refine and_congr_right fun hb => ⟨?_, ?_⟩
  · rintro ⟨p, rfl⟩
    cases p with
    | data i =>
      have hi : i < maxFileBlocks := by
        by_contra hge
        exact hb (bmap_past (by omega))
      exact .inl ⟨i, hi, reads_bmap g hs hw.inRange hi⟩
    | single => exact .inr (.inl rfl)
    | double => exact .inr (.inr (.inl rfl))
    | second j =>
      have hj : j < 1024 ∧ ino.doubleIndirect.toNat ≠ 0 := by
        by_contra hn
        exact hb (if_neg hn)
      exact .inr (.inr (.inr ⟨fun hz => hj.2 (toNat_eq_zero.mpr hz), j, hj.1, if_pos hj⟩))
  · rintro (⟨i, hi, hr⟩ | rfl | rfl | ⟨hd, j, hj, rfl⟩)
    · exact ⟨.data i, (reads_bmap g hs hw.inRange hi).eq hr⟩
    · exact ⟨.single, rfl⟩
    · exact ⟨.double, rfl⟩
    · exact ⟨.second j, if_pos ⟨hj, fun hz => hd (toNat_eq_zero.mp hz)⟩⟩

/-- `free_all_blocks` gives back exactly what an inode with a well-formed pointer tree owns.  A list
    with a duplicate, an out-of-range or an unmarked block is refused, and nothing has changed. -/
theorem freeAllBlocks_exact {n : UInt32} (hv : validateSuperblock sb n = .ok ()) (hs : Synced sb s)
    (ino : Inode) :
    (WellFormed sb s ino → ino.blockCount.toNat = owned s ino →
      (freeAllBlocks sb ino).Ends s (fun ino' s' => ∃ L, Freed sb s ino ino' s' L)
        fun _ _ => False) ∧
    (∀ L, (collectOwned sb ino).run s = some (.ok L, s) → ¬ Good sb s L →
      (freeAllBlocks sb ino).run s = some (.error (.fsError .eio), s)) := by
  have g := regions_of_validate hv
  have hor := g.order
  have h := (synced_iff g).mp hs
  constructor
  · intro hw hc
    have hfun : ptr (Image.of sb s.disk).blk ino = ptr s.disk ino := funext hw.ptr_image
    have hnd : (blocksAt (ptr s.disk ino) posList).Nodup := nodup_blocksAt hw.injOn
    have hmarked : ∀ b ∈ blocksAt (ptr s.disk ino) posList,
        sb.dataStart.toNat ≤ b ∧ b < sb.totalBlocks.toNat ∧ s.blocks.isSet b = some true := by
      intro b hb
      obtain ⟨hb0, p, rfl⟩ := mem_blocksAt_posList.mp hb
      exact ⟨(hw.range p hb0).1, (hw.range p hb0).2, hw.marked p hb0⟩
    rw [freeAllBlocks_iff]
    refine collectOwned_ends g h hw.inRange ?_
    rw [hfun]
    generalize hL : blocksAt (ptr s.disk ino) posList = L at hnd hmarked
    refine freeBlocks_any g h (fun _ _ s' h' hwr => ⟨L, ?_⟩) fun hbad => absurd
      ⟨hnd, fun b hb => ⟨(hmarked b hb).1, (hmarked b hb).2.1, ?_⟩⟩ hbad
    · have hs' : Synced sb s' := by
        have himg := h'.image
        exact (synced_iff g).mpr ⟨rfl, h'.inodeCount, h'.blockCount,
          by rw [himg]; exact h'.inodeBit, by rw [himg]; exact h'.blockBit, rfl⟩
      have hbit : ∀ b < sb.totalBlocks.toNat, s'.blocks.isSet b
          = some ((Image.of sb s.disk).dbit b && decide (b ∉ L)) := fun b hb => by
        rw [Bitmap.isSet_of_lt (by rw [h'.blockCount]; exact hb), h'.blockBit b hb]
        rfl
      constructor
      · rfl
      · intro i hi
        have : Reads sb s' ino.emptied i _ := reads_bmap g hs'
          (fun p hp => absurd (ptr_emptied p) hp) hi
        rwa [show bmap s'.disk ino.emptied i = 0 from ptr_emptied (.data i)] at this
      · exact hnd
      · rw [← hL, length_blocksAt hw.injOn, hc]
        rfl
      · intro b
        rw [← hL]
        exact mem_blocksAt g hs hw
      · exact hs'
      · intro b hb
        refine ⟨(hmarked b hb).2.2, ?_⟩
        rw [hbit b (hmarked b hb).2.1]
        simp [hb]
      · intro b hb
        by_cases hlt : b < sb.totalBlocks.toNat
        · rw [hbit b hlt, isSet_image h hlt]
          simp [hb]
        · rw [Bitmap.isSet_of_le (by rw [h'.blockCount]; omega),
            Bitmap.isSet_of_le (by rw [h.blockCount]; omega)]
      · refine Bitmap.ext_bit (h'.inodeCount.trans h.inodeCount.symm) fun i => ?_
        by_cases hi : i < sb.inodeCount.toNat
        · rw [h'.inodeBit i hi, h.inodeBit i hi]
          rfl
        · rw [Bitmap.bit_past (by rw [h'.inodeCount]; omega),
            Bitmap.bit_past (by rw [h.inodeCount]; omega)]
      · exact hwr
      · intro B hB
        refine hwr.disk B ?_
        rintro ⟨b, hb, rfl⟩
        have := (hmarked b hb).2.1
        omega
    · rw [← Option.some.injEq, ← isSet_image h (hmarked b hb).2.1]
      exact (hmarked b hb).2.2
  · intro L hrun hbad
    rw [Prog.run_eq_error, freeAllBlocks_iff]
    refine (Prog.run_eq_ok.mp hrun).mono ?_ fun _ _ hf => hf.elim
    rintro L' s' ⟨rfl, rfl⟩
    refine freeBlocks_any g h (fun h1 h2 _ _ _ => hbad ⟨h1, fun b hb => ?_⟩) fun _ => ⟨rfl, rfl⟩
    obtain ⟨h3, h4, h5⟩ := h2 b hb
    exact ⟨h3, h4, by rw [isSet_image h h4, h5]⟩

/-- An inode with two pointers to one block. -/
def doubled : Inode := { Inode.zero with direct := fun i => if i.val < 2 then 4 else 0 }

/-- A file gives back its two blocks and the indirect block; the block of the root, listed twice, is
    not given back at all. -/
theorem freeAllBlocks_exact_small :
    (∃ ino' s' L, (freeAllBlocks smallLayout grownFile.1).run grownFile.2 = some (.ok ino', s') ∧
      Freed smallLayout grownFile.2 grownFile.1 ino' s' L ∧ L.length = 3) ∧
    (freeAllBlocks smallLayout doubled).run Mkfs.smallFs
      = some (.error (.fsError .eio), Mkfs.smallFs) := by
  obtain ⟨hs, hw, hc⟩ := grownFile_wellFormed
  have hends := (freeAllBlocks_exact smallLayout_valid hs grownFile.1).1 hw hc
  obtain ⟨⟨out, s'⟩, hrun, hout⟩ := Prog.ends_iff_run.mp hends
  constructor
  · cases out with
    | error e => exact hout.elim
    | ok ino' =>
      obtain ⟨L, hL⟩ := hout
      have hthree : grownFile.1.blockCount.toNat = 3 := by decide +kernel
      exact ⟨ino', s', L, hrun, hL, hL.length.trans hthree⟩
  · refine (freeAllBlocks_exact smallLayout_valid (synced_mounted smallLayout _ _) doubled).2
      [4, 4] rfl fun hgood => ?_
    exact absurd hgood.1 (by decide)

end ConcurrentFs.PointerTree
