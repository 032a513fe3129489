/-
  ConcurrentFs.Ownership

  Who owns which block.  An inode's pointers sit at positions: file block `i`, the
  single- and the double-indirect block, and the second-level blocks.  `Own` says
  that every non-zero pointer leads to a block of the data region nobody else
  points at, that `block_count` counts them, and that the data bitmap marks the
  metadata, the owned blocks, and the blocks in `X`: those taken from the
  allocator that no inode points at yet.

  The inodes are a parameter of `Own` and need not be those of the inode table,
  so it also holds half way through an operation, when an inode has been changed
  in memory and not been written back.
-/
import ConcurrentFs.Image
import Mathlib.Data.Set.Card
import Mathlib.Data.Finset.Card

namespace ConcurrentFs

open Lib

/-! ## Positions -/

/-- Where in the pointers of an inode a block number stands. -/
inductive Pos where
  | data (i : Nat)
  | single
  | double
  | second (j : Nat)
  deriving DecidableEq

namespace Pos

/-- Whether the block at this position holds pointers. -/
def indirect : Pos → Bool
  | data _ => false
  | _ => true

/-- The indirect block a position lies in, and where; `none` for those in the inode itself. -/
def parent : Pos → Option (Pos × Nat)
  | data i =>
    if i < 12 then none
    else if i < 1036 then some (single, i - 12)
    else if i < maxFileBlocks then some (second ((i - 1036) / 1024), (i - 1036) % 1024)
    else none
  | single => none
  | double => none
  | second j => if j < 1024 then some (double, j) else none

/-- What lies in an indirect block. -/
theorem parent_eq_some {p q : Pos} {k : Nat} (h : p.parent = some (q, k)) :
    (∃ i, p = data i ∧ 12 ≤ i ∧ i < 1036 ∧ q = single ∧ k = i - 12) ∨
    (∃ i, p = data i ∧ 1036 ≤ i ∧ i < maxFileBlocks ∧ q = second ((i - 1036) / 1024) ∧
      k = (i - 1036) % 1024) ∨
    p = second k ∧ k < 1024 ∧ q = double := by
  cases p with
  | data i =>
    simp only [parent] at h
    by_cases h1 : i < 12
    · rw [if_pos h1] at h
      cases h
    · rw [if_neg h1] at h
      by_cases h2 : i < 1036
      · rw [if_pos h2] at h
        cases h
        exact .inl ⟨i, rfl, by omega, h2, rfl, rfl⟩
      · rw [if_neg h2] at h
        by_cases h3 : i < maxFileBlocks
        · rw [if_pos h3] at h
          cases h
          exact .inr (.inl ⟨i, rfl, by omega, h3, rfl, rfl⟩)
        · rw [if_neg h3] at h
          cases h
  | single => cases h
  | double => cases h
  | second j =>
    simp only [parent] at h
    by_cases h1 : j < 1024
    · rw [if_pos h1] at h
      cases h
      exact .inr (.inr ⟨rfl, h1, rfl⟩)
    · rw [if_neg h1] at h
      cases h

/-- What lies in the inode, or nowhere. -/
theorem parent_eq_none {p : Pos} (h : p.parent = none) :
    (∃ i, p = data i ∧ (i < 12 ∨ maxFileBlocks ≤ i)) ∨ p = single ∨ p = double ∨
      ∃ j, p = second j ∧ 1024 ≤ j := by
  cases p with
  | data i =>
    refine .inl ⟨i, rfl, ?_⟩
    simp only [parent] at h
    by_contra hno
    rw [not_or] at hno
    rw [if_neg hno.1, if_pos (by omega : i < maxFileBlocks)] at h
    split at h <;> cases h
  | single => exact .inr (.inl rfl)
  | double => exact .inr (.inr (.inl rfl))
  | second j =>
    refine .inr (.inr (.inr ⟨j, rfl, ?_⟩))
    by_contra hno
    simp only [parent, if_pos (show j < 1024 by omega)] at h
    cases h

theorem parent_spec {p q : Pos} {k : Nat} (h : p.parent = some (q, k)) :
    q.indirect = true ∧ k < 1024 ∧ q ≠ p := by
  rcases parent_eq_some h with ⟨i, rfl, h1, h2, rfl, hk⟩ | ⟨i, rfl, h1, h2, rfl, hk⟩ |
    ⟨rfl, h1, rfl⟩
  · exact ⟨rfl, by omega, nofun⟩
  · exact ⟨rfl, by omega, nofun⟩
  · exact ⟨rfl, h1, nofun⟩

/-- One place in an indirect block is one position. -/
theorem parent_injective {p p' : Pos} {q : Pos × Nat} (h : p.parent = some q)
    (h' : p'.parent = some q) : p = p' := by
  obtain ⟨q, k⟩ := q
  rcases parent_eq_some h with ⟨i, rfl, h1, h2, rfl, hk⟩ | ⟨i, rfl, h1, h2, rfl, hk⟩ |
    ⟨rfl, h1, rfl⟩ <;>
  rcases parent_eq_some h' with ⟨i', rfl, h1', h2', hq, hk'⟩ | ⟨i', rfl, h1', h2', hq, hk'⟩ |
    ⟨rfl, h1', hq⟩ <;> simp only [second.injEq, reduceCtorEq] at hq
  · congr 1
    omega
  · congr 1
    omega
  · rfl

end Pos

/-- The block number at a position. -/
def ptr (blk : Nat → Block) (ino : Inode) : Pos → Nat
  | .data i => bmap blk ino i
  | .single => ino.singleIndirect.toNat
  | .double => ino.doubleIndirect.toNat
  | .second j =>
    if j < 1024 ∧ ino.doubleIndirect.toNat ≠ 0 then (ptrAt (blk ino.doubleIndirect.toNat) j).toNat
    else 0

theorem toNat_eq_zero {a : UInt32} : a.toNat = 0 ↔ a = 0 := by
  rw [← UInt32.toNat_inj]
  rfl

section Ptr

variable {blk blk' : Nat → Block} {ino : Inode}

theorem bmap_single {i : Nat} (h1 : 12 ≤ i) (h2 : i < 1036) :
    bmap blk ino i = if ino.singleIndirect.toNat = 0 then 0
      else (ptrAt (blk ino.singleIndirect.toNat) (i - 12)).toNat := by
  unfold bmap
  rw [dif_neg (by omega), if_pos (by omega)]
  simp only [toNat_eq_zero]

theorem bmap_double {i : Nat} (h1 : 1036 ≤ i) (h2 : i < maxFileBlocks) :
    bmap blk ino i = if ptr blk ino (.second ((i - 1036) / 1024)) = 0 then 0
      else (ptrAt (blk (ptr blk ino (.second ((i - 1036) / 1024)))) ((i - 1036) % 1024)).toNat := by
  unfold maxFileBlocks at h2
  unfold bmap
  rw [dif_neg (by omega), if_neg (by omega), if_pos (by omega),
    show i - 12 - 1024 = i - 1036 by omega]
  by_cases hd : ino.doubleIndirect = 0
  · rw [if_pos hd, if_pos]
    simp [ptr, hd]
  · have hdn : ino.doubleIndirect.toNat ≠ 0 := fun h0 => hd (toNat_eq_zero.mp h0)
    have hp : ptr blk ino (.second ((i - 1036) / 1024))
        = (ptrAt (blk ino.doubleIndirect.toNat) ((i - 1036) / 1024)).toNat :=
      if_pos ⟨by omega, hdn⟩
    rw [if_neg hd, hp]

theorem ptr_of_parent {p q : Pos} {k : Nat} (h : p.parent = some (q, k)) :
    ptr blk ino p = if ptr blk ino q = 0 then 0 else (ptrAt (blk (ptr blk ino q)) k).toNat := by
  rcases Pos.parent_eq_some h with ⟨i, rfl, h1, h2, rfl, hk⟩ | ⟨i, rfl, h1, h2, rfl, hk⟩ |
    ⟨rfl, h1, rfl⟩
  · rw [hk]
    exact bmap_single h1 h2
  · rw [hk]
    exact bmap_double h1 h2
  · by_cases hd : ptr blk ino .double = 0
    · rw [if_pos hd]
      exact if_neg fun hc => hc.2 hd
    · rw [if_neg hd]
      exact if_pos ⟨h1, hd⟩

/-- A pointer in the inode itself does not depend on the blocks. -/
theorem ptr_of_root {p : Pos} (h : p.parent = none) : ptr blk' ino p = ptr blk ino p := by
  rcases Pos.parent_eq_none h with ⟨i, rfl, hi | hi⟩ | rfl | rfl | ⟨j, rfl, hj⟩
  · simp only [ptr, bmap, dif_pos hi]
  · unfold maxFileBlocks at hi
    simp only [ptr, bmap]
    rw [dif_neg (by omega), if_neg (by omega), if_neg (by omega), dif_neg (by omega),
      if_neg (by omega), if_neg (by omega)]
  · rfl
  · rfl
  · simp only [ptr, show ¬ j < 1024 by omega, false_and, if_false]

/-- Pointers above the data blocks decide the others: a rule for all positions, given it for the
    indirect ones. -/
theorem forall_pos {Q : Pos → Prop} (hroot : ∀ p, p.parent = none → Q p)
    (hstep : ∀ p q k, p.parent = some (q, k) → Q q → Q p) : ∀ p, Q p := by
  have hsec : ∀ j, Q (.second j) := by
    intro j
    cases hp : (Pos.second j).parent with
    | none => exact hroot _ hp
    | some qk =>
      obtain ⟨q, k⟩ := qk
      refine hstep _ q k hp ?_
      rcases Pos.parent_eq_some hp with ⟨i, h, -⟩ | ⟨i, h, -⟩ | ⟨-, -, rfl⟩
      · cases h
      · cases h
      · exact hroot _ rfl
  intro p
  cases hp : p.parent with
  | none => exact hroot _ hp
  | some qk =>
    obtain ⟨q, k⟩ := qk
    refine hstep _ q k hp ?_
    cases q with
    | data i => exact absurd (Pos.parent_spec hp).1 (by simp [Pos.indirect])
    | single => exact hroot _ rfl
    | double => exact hroot _ rfl
    | second j => exact hsec j

/-- The pointers of an inode depend on its indirect blocks only. -/
theorem ptr_congr (h : ∀ q, q.indirect = true → ptr blk ino q ≠ 0 →
    blk' (ptr blk ino q) = blk (ptr blk ino q)) : ∀ p, ptr blk' ino p = ptr blk ino p := by
  refine forall_pos (fun p hp => ptr_of_root hp) fun p q k hp hq => ?_
  rw [ptr_of_parent hp, ptr_of_parent hp, hq]
  by_cases h0 : ptr blk ino q = 0
  · rw [if_pos h0, if_pos h0]
  · rw [if_neg h0, if_neg h0, h q (Pos.parent_spec hp).1 h0]

/-- A block all of whose pointers are holes. -/
def NoPtrs (b : Block) : Prop := ∀ k < 1024, ptrAt b k = 0

theorem noPtrs_zero : NoPtrs (Bytes.zero 4096) := by
  intro k hk
  unfold ptrAt
  rw [Bytes.slice_zero]
  rfl

/-- Setting a pointer that was a hole fills exactly its position. -/
theorem ptr_setPtr {p q : Pos} {k v : Nat} (hp : p.parent = some (q, k))
    (hq0 : ptr blk ino q ≠ 0)
    (hinj : ∀ p p', ptr blk ino p ≠ 0 → ptr blk ino p = ptr blk ino p' → p = p')
    (hfree : ptr blk ino p = 0) (hv : v < 2 ^ 32) (hne : ∀ p', ptr blk ino p' = v → v = 0)
    (hno : p.indirect = true → NoPtrs (blk v)) :
    ptr (Function.update blk (ptr blk ino q)
        (setPtrAt (blk (ptr blk ino q)) k (UInt32.ofNat v))) ino
      = Function.update (ptr blk ino) p v := by
  obtain ⟨hqi, hk, hqp⟩ := Pos.parent_spec hp
  generalize hblk' : Function.update blk (ptr blk ino q)
    (setPtrAt (blk (ptr blk ino q)) k (UInt32.ofNat v)) = blk'
  have hvn : (UInt32.ofNat v).toNat = v := UInt32.toNat_ofNat_of_lt' hv
  funext p'
  revert p'
  refine forall_pos (fun p' hp' => ?_) fun p' q' k' hp' hq' => ?_
  · have hpp : p' ≠ p := by
      rintro rfl
      rw [hp] at hp'
      cases hp'
    rw [Function.update_of_ne hpp, ptr_of_root hp']
  · rw [ptr_of_parent hp', hq']
    by_cases hqp' : q' = p
    · -- below the new pointer: the block it leads to holds none
      subst hqp'
      have hpp : p' ≠ q' := fun h => (Pos.parent_spec hp').2.2 h.symm
      rw [Function.update_self, Function.update_of_ne hpp, ptr_of_parent hp', hfree, if_pos rfl]
      by_cases hv0 : v = 0
      · rw [if_pos hv0]
      · rw [if_neg hv0, ← hblk', Function.update_of_ne (fun h => hv0 (hne q h.symm)),
          hno (Pos.parent_spec hp').1 k' (Pos.parent_spec hp').2.1]
        rfl
    · rw [Function.update_of_ne hqp']
      by_cases hqq : q' = q
      · subst hqq
        rw [if_neg hq0, ← hblk', Function.update_self]
        by_cases hkk : k' = k
        · subst hkk
          rw [Pos.parent_injective hp' hp, Function.update_self, ptrAt_setPtrAt_self _ _ hk, hvn]
        · have hpp : p' ≠ p := by
            rintro rfl
            rw [hp] at hp'
            cases hp'
            exact hkk rfl
          rw [Function.update_of_ne hpp, ptrAt_setPtrAt_ne _ _ (Ne.symm hkk), ptr_of_parent hp',
            if_neg hq0]
      · have hpp : p' ≠ p := by
          rintro rfl
          rw [hp] at hp'
          cases hp'
          exact hqq rfl
        rw [Function.update_of_ne hpp, ptr_of_parent hp']
        by_cases h0 : ptr blk ino q' = 0
        · rw [if_pos h0, if_pos h0]
        · rw [if_neg h0, if_neg h0, ← hblk',
            Function.update_of_ne (fun h => hqq (hinj q' q h0 h))]

/-- The pointers of an inode depend on no other field of it. -/
theorem ptr_fields (ino ino' : Inode) (h1 : ino'.direct = ino.direct)
    (h2 : ino'.singleIndirect = ino.singleIndirect)
    (h3 : ino'.doubleIndirect = ino.doubleIndirect) :
    ptr blk ino' = ptr blk ino := by
  funext p
  cases p <;> simp only [ptr, bmap, h1, h2, h3]

theorem ptr_setDirect (ino : Inode) (i : Fin 12) {v : Nat} (hv : v < 2 ^ 32) :
    ptr blk (ino.setDirect i v) = Function.update (ptr blk ino) (.data i) v := by
  funext p
  revert p
  refine forall_pos (fun p hp => ?_) fun p q k hp hq => ?_
  · rcases Pos.parent_eq_none hp with ⟨j, rfl, hj | hj⟩ | rfl | rfl | ⟨j, rfl, hj⟩
    · simp only [ptr, bmap, dif_pos hj, Inode.setDirect]
      by_cases hij : j = i.val
      · subst hij
        simp only [Fin.eta, Function.update_self]
        exact UInt32.toNat_ofNat_of_lt' hv
      · rw [Function.update_of_ne (by simpa [Fin.ext_iff] using hij),
          Function.update_of_ne (by simpa using hij)]
        simp only [ptr, bmap, dif_pos hj]
    · have hi := i.isLt
      rw [Function.update_of_ne (by unfold maxFileBlocks at hj; simp; omega)]
      unfold maxFileBlocks at hj
      simp only [ptr, bmap]
      rw [dif_neg (by omega), if_neg (by omega), if_neg (by omega), dif_neg (by omega),
        if_neg (by omega), if_neg (by omega)]
    · rfl
    · rfl
    · rfl
  · have hq' : q ≠ .data i := by
      rintro rfl
      exact absurd (Pos.parent_spec hp).1 (by simp [Pos.indirect])
    have hp' : p ≠ .data i := by
      rintro rfl
      have hi := i.isLt
      rcases Pos.parent_eq_some hp with ⟨j, h, h1, -⟩ | ⟨j, h, h1, -⟩ | ⟨h, -⟩
      · cases h
        omega
      · cases h
        omega
      · cases h
    rw [Function.update_of_ne hq'] at hq
    rw [Function.update_of_ne hp', ptr_of_parent hp, ptr_of_parent hp, hq]

/-- A root pointer set to a block without pointers fills exactly its position. -/
theorem ptr_setRoot {ino' : Inode} {p : Pos} {v : Nat} (hind : p.indirect = true)
    (hp : p.parent = none) (h0 : ptr blk ino p = 0) (hv : ptr blk ino' p = v)
    (hroot : ∀ q, q.parent = none → q ≠ p → ptr blk ino' q = ptr blk ino q) (hno : NoPtrs (blk v)) :
    ptr blk ino' = Function.update (ptr blk ino) p v := by
  funext p'
  revert p'
  refine forall_pos (fun q hq => ?_) fun p' q k hp' hq => ?_
  · by_cases hqp : q = p
    · rw [hqp, Function.update_self, hv]
    · rw [Function.update_of_ne hqp, hroot q hq hqp]
  · have hpp : p' ≠ p := by
      rintro rfl
      rw [hp] at hp'
      cases hp'
    rw [Function.update_of_ne hpp, ptr_of_parent hp', ptr_of_parent hp', hq]
    by_cases hqp : q = p
    · subst hqp
      rw [Function.update_self, h0, if_pos rfl]
      by_cases hv0 : v = 0
      · rw [if_pos hv0]
      · rw [if_neg hv0, hno k (Pos.parent_spec hp').2.1]
        rfl
    · rw [Function.update_of_ne hqp]

end Ptr

/-! ## Ownership -/

/-- Every block is owned at most once, counted, and marked; `X` are marked and owned by nobody. -/
structure Own (sb : Superblock) (I : Image) (V : Nat → Inode) (X : Set Nat) : Prop where
  range : ∀ x p, ptr I.blk (V x) p ≠ 0 →
    sb.dataStart.toNat ≤ ptr I.blk (V x) p ∧ ptr I.blk (V x) p < sb.totalBlocks.toNat
  once : ∀ x p y q, ptr I.blk (V x) p ≠ 0 → ptr I.blk (V x) p = ptr I.blk (V y) q → x = y ∧ p = q
  count : ∀ x, (V x).blockCount.toNat = Set.ncard {p | ptr I.blk (V x) p ≠ 0}
  spareRange : ∀ b ∈ X, sb.dataStart.toNat ≤ b ∧ b < sb.totalBlocks.toNat
  spare : ∀ b ∈ X, ∀ x p, ptr I.blk (V x) p ≠ b
  bit : ∀ B < sb.totalBlocks.toNat, I.dbit B = true ↔
    B < sb.dataStart.toNat ∨ (∃ x p, ptr I.blk (V x) p = B) ∨ B ∈ X

/-- The image with the bits of the blocks of `L` set. -/
def Image.setDBits (I : Image) (L : List Nat) : Image :=
  { I with dbit := fun B => I.dbit B || decide (B ∈ L) }

namespace Own

variable {sb : Superblock} {I : Image} {V : Nat → Inode} {X : Set Nat}

theorem meta_marked (h : Own sb I V X) (g : Regions sb) :
    ∀ B < sb.dataStart.toNat, I.dbit B = true := by
  intro B hB
  have := g.order
  exact (h.bit B (by omega)).mpr (.inl hB)

theorem injOn (h : Own sb I V X) (x : Nat) :
    Set.InjOn (ptr I.blk (V x)) {p | ptr I.blk (V x) p ≠ 0} := by
  intro p hp q _ heq
  exact (h.once x p x q hp heq).2

theorem mapsTo (h : Own sb I V X) (x : Nat) :
    Set.MapsTo (ptr I.blk (V x)) {p | ptr I.blk (V x) p ≠ 0}
      (Finset.range sb.totalBlocks.toNat : Set Nat) := by
  intro p hp
  exact Finset.mem_coe.mpr (Finset.mem_range.mpr (h.range x p hp).2)

theorem finite (h : Own sb I V X) (x : Nat) : {p | ptr I.blk (V x) p ≠ 0}.Finite :=
  Set.Finite.of_finite_image ((Finset.finite_toSet _).subset (h.mapsTo x).image_subset) (h.injOn x)

/-- Blocks just taken from the allocator. -/
theorem mark (h : Own sb I V X) {L : List Nat}
    (hL : ∀ b ∈ L, sb.dataStart.toNat ≤ b ∧ b < sb.totalBlocks.toNat ∧ I.dbit b = false) :
    Own sb (I.setDBits L) V (X ∪ {b | b ∈ L}) where
  range := h.range
  once := h.once
  count := h.count
  spareRange b hb := by
    rcases hb with hb | hb
    · exact h.spareRange b hb
    · exact ⟨(hL b hb).1, (hL b hb).2.1⟩
  spare b hb x p heq := by
    rcases hb with hb | hb
    · exact h.spare b hb x p heq
    · obtain ⟨-, h2, h3⟩ := hL b hb
      have := (h.bit b h2).mpr (.inr (.inl ⟨x, p, heq⟩))
      rw [h3] at this
      exact Bool.noConfusion this
  bit B hB := by
    show (I.dbit B || decide (B ∈ L)) = true ↔ _
    rw [Bool.or_eq_true, h.bit B hB, decide_eq_true_iff]
    constructor
    · rintro ((h1 | h1 | h1) | h1)
      · exact .inl h1
      · exact .inr (.inl h1)
      · exact .inr (.inr (.inl h1))
      · exact .inr (.inr (.inr h1))
    · rintro (h1 | h1 | h1 | h1)
      · exact .inl (.inl h1)
      · exact .inl (.inr (.inl h1))
      · exact .inl (.inr (.inr h1))
      · exact .inr h1

/-- Writing a block that holds nobody's pointers changes no pointer. -/
theorem ptr_putBlk (I : Image) (V : Nat → Inode) (b : Nat) (data : Block)
    (hb : ∀ x q, q.indirect = true → ptr I.blk (V x) q ≠ b) (x : Nat) (p : Pos) :
    ptr (I.putBlk b data).blk (V x) p = ptr I.blk (V x) p :=
  ptr_congr (fun q hq _ => Function.update_of_ne (hb x q hq) _ _) p

theorem putBlk (h : Own sb I V X) (b : Nat) (data : Block)
    (hb : ∀ x q, q.indirect = true → ptr I.blk (V x) q ≠ b) : Own sb (I.putBlk b data) V X := by
  have hptr := ptr_putBlk I V b data hb
  constructor
  · simp only [hptr]; exact h.range
  · simp only [hptr]; exact h.once
  · simp only [hptr]; exact h.count
  · exact h.spareRange
  · simp only [hptr]; exact h.spare
  · simp only [hptr]; exact h.bit

/-- A data block is nobody's indirect block. -/
theorem data_ne (h : Own sb I V X) {x i : Nat} (h0 : bmap I.blk (V x) i ≠ 0) (y : Nat) (q : Pos)
    (hq : q.indirect = true) : ptr I.blk (V y) q ≠ bmap I.blk (V x) i := by
  intro heq
  have := (h.once x (.data i) y q h0 heq.symm).2
  subst this
  cases hq

/-- A spare block is given to inode `x`, at position `p`. -/
theorem link (h : Own sb I V X) (x b : Nat) (p : Pos) (ino' : Inode) (blk' : Nat → Block)
    (hb : b ∈ X) (hp0 : ptr I.blk (V x) p = 0) (g : Regions sb)
    (hptr : ptr blk' ino' = Function.update (ptr I.blk (V x)) p b)
    (hother : ∀ y, y ≠ x → ∀ q, ptr blk' (V y) q = ptr I.blk (V y) q)
    (hcount : ino'.blockCount = (V x).blockCount + 1) :
    Own sb { I with blk := blk' } (Function.update V x ino') (X \ {b}) := by
  have hor := g.order
  have hbr := h.spareRange b hb
  have hb0 : b ≠ 0 := by omega
  -- the pointers afterwards, for every inode at once
  have hall : ∀ y q, ptr blk' (Function.update V x ino' y) q
      = if y = x ∧ q = p then b else ptr I.blk (V y) q := by
    intro y q
    by_cases hy : y = x
    · subst hy
      rw [Function.update_self, hptr, Function.update_apply]
      by_cases hq : q = p
      · rw [if_pos hq, if_pos ⟨rfl, hq⟩]
      · rw [if_neg hq, if_neg fun hc => hq hc.2]
    · rw [Function.update_of_ne hy, hother y hy, if_neg fun hc => hy hc.1]
  have hrange : ∀ y q, ptr blk' (Function.update V x ino' y) q ≠ 0 →
      sb.dataStart.toNat ≤ ptr blk' (Function.update V x ino' y) q ∧
      ptr blk' (Function.update V x ino' y) q < sb.totalBlocks.toNat := by
    intro y q h0
    rw [hall] at h0 ⊢
    by_cases hyq : y = x ∧ q = p
    · rw [if_pos hyq]
      exact hbr
    · rw [if_neg hyq] at h0 ⊢
      exact h.range y q h0
  have honce : ∀ y q z q', ptr blk' (Function.update V x ino' y) q ≠ 0 →
      ptr blk' (Function.update V x ino' y) q = ptr blk' (Function.update V x ino' z) q' →
      y = z ∧ q = q' := by
    intro y q z q' h0 heq
    rw [hall] at h0 heq
    rw [hall] at heq
    split at heq
    · rename_i hyq
      split at heq
      · rename_i hzq
        exact ⟨hyq.1.trans hzq.1.symm, hyq.2.trans hzq.2.symm⟩
      · exact absurd heq.symm (h.spare b hb z q')
    · rename_i hyq
      rw [if_neg hyq] at h0
      split at heq
      · exact absurd heq (h.spare b hb y q)
      · exact h.once y q z q' h0 heq
  refine ⟨hrange, honce, ?_, fun b' hb' => h.spareRange b' hb'.1, ?_, ?_⟩
  · intro y
    show _ = Set.ncard {q | ptr blk' (Function.update V x ino' y) q ≠ 0}
    by_cases hy : y = x
    · subst hy
      have hset : {q | ptr blk' (Function.update V y ino' y) q ≠ 0}
          = insert p {q | ptr I.blk (V y) q ≠ 0} := by
        ext q
        simp only [Set.mem_ofPred_eq, Set.mem_insert_iff, hall, true_and]
        by_cases hq : q = p
        · simp [hq, hb0]
        · simp [hq]
      have hcard : Set.ncard {q | ptr blk' (Function.update V y ino' y) q ≠ 0}
          = Set.ncard {q | ptr I.blk (V y) q ≠ 0} + 1 := by
        rw [hset]
        exact Set.ncard_insert_of_notMem (by simp [hp0]) (h.finite y)
      -- the count stays below the number of blocks, so it does not wrap
      have hle : Set.ncard {q | ptr blk' (Function.update V y ino' y) q ≠ 0}
          ≤ sb.totalBlocks.toNat := by
        have hinj : Set.InjOn (ptr blk' (Function.update V y ino' y))
            {q | ptr blk' (Function.update V y ino' y) q ≠ 0} :=
          fun q hq q' _ heq => (honce y q y q' hq heq).2
        have hmaps : Set.MapsTo (ptr blk' (Function.update V y ino' y))
            {q | ptr blk' (Function.update V y ino' y) q ≠ 0}
            (Finset.range sb.totalBlocks.toNat : Set Nat) :=
          fun q hq => Finset.mem_coe.mpr (Finset.mem_range.mpr (hrange y q hq).2)
        have := Set.ncard_le_ncard_of_injOn _ hmaps hinj (Finset.finite_toSet _)
        rwa [Set.ncard_coe_finset, Finset.card_range] at this
      rw [hcard] at hle
      have hsum : ino'.blockCount.toNat = Set.ncard {q | ptr I.blk (V y) q ≠ 0} + 1 := by
        rw [hcount, UInt32.toNat_add, h.count y, UInt32.toNat_one]
        omega
      rw [hcard, Function.update_self, hsum]
    · have hset : {q | ptr blk' (Function.update V x ino' y) q ≠ 0}
          = {q | ptr I.blk (V y) q ≠ 0} := by
        ext q
        rw [Set.mem_ofPred_eq, Set.mem_ofPred_eq, Function.update_of_ne hy, hother y hy]
      rw [hset, Function.update_of_ne hy, h.count y]
  · intro b' hb' y q heq
    rw [show ptr _ _ _ = _ from hall y q] at heq
    split at heq
    · exact hb'.2 heq.symm
    · exact h.spare b' hb'.1 y q heq
  · intro B hB
    rw [h.bit B hB]
    constructor
    · rintro (h1 | ⟨y, q, h1⟩ | h1)
      · exact .inl h1
      · by_cases hyq : y = x ∧ q = p
        · rw [hyq.1, hyq.2, hp0] at h1
          exact .inl (by omega)
        · refine .inr (.inl ⟨y, q, ?_⟩)
          rw [hall, if_neg hyq, h1]
      · by_cases hBb : B = b
        · refine .inr (.inl ⟨x, p, ?_⟩)
          rw [hall, if_pos ⟨rfl, rfl⟩, hBb]
        · exact .inr (.inr ⟨h1, hBb⟩)
    · rintro (h1 | ⟨y, q, h1⟩ | h1)
      · exact .inl h1
      · rw [hall] at h1
        split at h1
        · exact .inr (.inr (h1 ▸ hb))
        · exact .inr (.inl ⟨y, q, h1⟩)
      · exact .inr (.inr h1.1)

/-- A spare block linked into an indirect block of `x`. -/
theorem linkPtr (h : Own sb I V X) (g : Regions sb) (x b : Nat) {k : Nat} {p q : Pos}
    (hp : p.parent = some (q, k)) (hq0 : ptr I.blk (V x) q ≠ 0) (hp0 : ptr I.blk (V x) p = 0)
    (hb : b ∈ X) (hno : p.indirect = true → NoPtrs (I.blk b)) {I' : Image}
    (hI' : I' = I.putBlk (ptr I.blk (V x) q)
      (setPtrAt (I.blk (ptr I.blk (V x) q)) k (UInt32.ofNat b))) :
    Own sb I' (Function.update V x ((V x).addBlocks 1)) (X \ {b}) ∧
      ptr I'.blk ((V x).addBlocks 1) = Function.update (ptr I.blk (V x)) p b ∧
      ∀ y, y ≠ x → ∀ q, ptr I'.blk (V y) q = ptr I.blk (V y) q := by
  have hor := g.order
  have hbr := h.spareRange b hb
  have hptr : ptr I'.blk ((V x).addBlocks 1) = Function.update (ptr I.blk (V x)) p b := by
    rw [ptr_fields (V x) ((V x).addBlocks 1) rfl rfl rfl, hI']
    refine ptr_setPtr hp hq0 (fun p p' h0 heq => (h.once x p x p' h0 heq).2) hp0 (by omega)
      (fun p' heq => absurd heq (h.spare b hb x p')) hno
  have hother : ∀ y, y ≠ x → ∀ q, ptr I'.blk (V y) q = ptr I.blk (V y) q := by
    intro y hy
    refine ptr_congr fun q' hq' h0 => ?_
    rw [hI']
    exact Function.update_of_ne (fun heq => hy (h.once y q' x q h0 heq).1) _ _
  refine ⟨?_, hptr, hother⟩
  have hlink := h.link x b p _ _ hb hp0 g hptr hother rfl
  rw [hI'] at hlink ⊢
  exact hlink

/-- A spare block linked into the inode itself. -/
theorem linkRoot (h : Own sb I V X) (g : Regions sb) (x b : Nat) (p : Pos) (ino' : Inode)
    (hind : p.indirect = true) (hp : p.parent = none) (hp0 : ptr I.blk (V x) p = 0) (hb : b ∈ X)
    (hv : ptr I.blk ino' p = b)
    (hroot : ∀ q, q.parent = none → q ≠ p → ptr I.blk ino' q = ptr I.blk (V x) q)
    (hno : NoPtrs (I.blk b)) (hcount : ino'.blockCount = (V x).blockCount + 1) :
    Own sb I (Function.update V x ino') (X \ {b}) ∧
      ptr I.blk ino' = Function.update (ptr I.blk (V x)) p b := by
  have hptr := ptr_setRoot hind hp hp0 hv hroot hno
  exact ⟨h.link x b p ino' I.blk hb hp0 g hptr (fun _ _ _ => rfl) hcount, hptr⟩

/-- Ownership depends on the pointers of the inodes and their counts. -/
theorem congr_inode (h : Own sb I V X) {V' : Nat → Inode}
    (hV : ∀ y, ptr I.blk (V' y) = ptr I.blk (V y) ∧ (V' y).blockCount = (V y).blockCount) :
    Own sb I V' X := by
  constructor
  · simp only [(hV _).1]; exact h.range
  · simp only [(hV _).1]; exact h.once
  · simp only [(hV _).1, (hV _).2]; exact h.count
  · exact h.spareRange
  · simp only [(hV _).1]; exact h.spare
  · simp only [(hV _).1]; exact h.bit

theorem dbit_of_spare (h : Own sb I V X) {b : Nat} (hb : b ∈ X) : I.dbit b = true :=
  (h.bit b (h.spareRange b hb).2).mpr (.inr (.inr hb))

theorem dbit_of_ptr (h : Own sb I V X) {x : Nat} {p : Pos} (h0 : ptr I.blk (V x) p ≠ 0) :
    I.dbit (ptr I.blk (V x) p) = true :=
  (h.bit _ (h.range x p h0).2).mpr (.inr (.inl ⟨x, p, rfl⟩))

end Own

/-! ## Taking blocks from the allocator -/

/-- How many blocks are free. -/
def freeCount (sb : Superblock) (I : Image) : Nat :=
  ((Finset.range sb.totalBlocks.toNat).filter fun B => I.dbit B = false).card

section Alloc

variable {sb : Superblock} {s : FileSystem} {I : Image} {r : Side} {V : Nat → Inode} {X : Set Nat}
  {E : Exn → FileSystem → Prop}

/-- With every block outside `got` marked, no more blocks were free than `got` has. -/
theorem freeCount_le_of_full {got : List Nat}
    (h : ∀ B < sb.totalBlocks.toNat, (I.setDBits got).dbit B = true) :
    freeCount sb I ≤ got.length := by
  have hsub : (Finset.range sb.totalBlocks.toNat).filter (fun B => I.dbit B = false)
      ⊆ got.toFinset := by
    intro B hB
    obtain ⟨h1, h2⟩ := Finset.mem_filter.mp hB
    have := h B (Finset.mem_range.mp h1)
    simp only [Image.setDBits, h2, Bool.false_or, decide_eq_true_iff] at this
    exact List.mem_toFinset.mpr this
  exact (Finset.card_le_card hsub).trans got.toFinset_card_le

/-- The loop of `alloc_all`, `got` having been taken since state `s₀`. -/
theorem allocAllFrom_writes (g : Regions sb) (hmeta : ∀ B < sb.dataStart.toNat, I.dbit B = true)
    (s₀ : FileSystem) {Q : List Nat → FileSystem → Prop} (n : Nat) :
    ∀ (got : List Nat) (s : FileSystem), Shows sb s (I.setDBits got) r →
      Writes s₀ s (bitmapBlocks sb got) → got.Nodup →
      (∀ b ∈ got, sb.dataStart.toNat ≤ b ∧ b < sb.totalBlocks.toNat ∧ I.dbit b = false) →
      (∀ L s', L.length = got.length + n → L.Nodup →
        (∀ b ∈ L, sb.dataStart.toNat ≤ b ∧ b < sb.totalBlocks.toNat ∧ I.dbit b = false) →
        Shows sb s' (I.setDBits L) r → Writes s₀ s' (bitmapBlocks sb L) → Q L s') →
      (∀ L s', L.length < got.length + n → Shows sb s' I r → Writes s₀ s' (bitmapBlocks sb L) →
        freeCount sb I < got.length + n → E (.fsError .enospc) s') →
      (allocAllFrom sb got n).Ends s Q E := by
  induction n with
  | zero =>
    intro got s hs hw hnd hgot hok _
    exact hok got s rfl hnd hgot hs hw
  | succ n ih =>
    intro got s hs hw hnd hgot hok hfull
    have hclear : ∀ b ∈ got, (I.setDBits got).dbit b = true := fun b hb => by
      simp [Image.setDBits, hb]
    unfold allocAllFrom
    rw [Prog.ends_bind, Prog.ends_onError]
    refine allocBlock_any g hs (fun b s' h1 h2 h3 _ hs' hw' => ?_) (fun b hb h3 _ => ?_)
      fun hall => ?_
    · -- one more
      simp only [Image.setDBits, Bool.or_eq_false_iff, decide_eq_false_iff_not] at h3
      have hI : (I.setDBits got).putDBit b true = I.setDBits (got ++ [b]) := by
        simp only [Image.setDBits, Image.putDBit, Image.mk.injEq, true_and, and_true]
        funext B
        by_cases hB : B = b
        · simp [hB]
        · simp [hB]
      refine ih (got ++ [b]) s' (hs'.congr hI)
        ((hw.trans hw').congr (bitmapBlocks_append sb got [b]).symm) ?_ ?_
        (fun L s'' hL hn hr hs'' hw'' => ?_) fun L s'' hL hs'' hw'' hlt => ?_
      · exact List.nodup_append.mpr ⟨hnd, List.nodup_singleton b,
          fun a ha c hc => by rw [List.mem_singleton.mp hc]; rintro rfl; exact h3.2 ha⟩
      · intro c hc
        rcases List.mem_append.mp hc with hc | hc
        · exact hgot c hc
        · rw [List.mem_singleton.mp hc]
          exact ⟨h1, h2, h3.1⟩
      · refine hok L s'' (by rw [hL, List.length_append]; simp; omega) hn hr hs'' hw''
      · rw [List.length_append] at hL hlt
        simp only [List.length_cons, List.length_nil] at hL hlt
        exact hfull L s'' (by omega) hs'' hw'' (by omega)
    · -- metadata is never free
      simp [Image.setDBits, hmeta b hb] at h3
    · -- the disk is full: those taken go back
      refine freeBlocks_any g hs (fun _ _ s' hs' hw' => ?_) fun hbad => absurd
        ⟨hnd, fun b hb => ⟨(hgot b hb).1, (hgot b hb).2.1, hclear b hb⟩⟩ hbad
      have hI : (I.setDBits got).clearDBits got = I := by
        ext1 <;> try rfl
        funext B
        simp only [Image.setDBits, Image.clearDBits]
        by_cases hB : B ∈ got
        · simp [hB, (hgot B hB).2.2]
        · simp [hB]
      have := freeCount_le_of_full hall
      exact hfull got s' (by omega) (hs'.congr hI) ((hw.trans hw').congr (Set.union_self _))
        (by omega)

/-- `alloc_all`: `n` blocks that were free, or nothing changed and fewer than `n` were. -/
theorem allocAll_writes (g : Regions sb) (h : Shows sb s I r)
    (hmeta : ∀ B < sb.dataStart.toNat, I.dbit B = true) (n : Nat)
    {Q : List Nat → FileSystem → Prop}
    (hok : ∀ L s', L.length = n → L.Nodup →
      (∀ b ∈ L, sb.dataStart.toNat ≤ b ∧ b < sb.totalBlocks.toNat ∧ I.dbit b = false) →
      Shows sb s' (I.setDBits L) r → Writes s s' (bitmapBlocks sb L) → Q L s')
    (hfull : ∀ L s', L.length < n → Shows sb s' I r → Writes s s' (bitmapBlocks sb L) →
      freeCount sb I < n → E (.fsError .enospc) s') :
    (allocAll sb n).Ends s Q E := by
  have hI : I.setDBits [] = I := by simp [Image.setDBits]
  refine allocAllFrom_writes g hmeta s n [] s (h.congr hI.symm) ?_ List.nodup_nil nofun
    (fun L s' hL => hok L s' (by simpa using hL))
    fun L s' hL hs' hw' hlt => hfull L s' (by simpa using hL) hs' hw' (by simpa using hlt)
  rw [bitmapBlocks_nil]
  exact .refl s

end Alloc

end ConcurrentFs
