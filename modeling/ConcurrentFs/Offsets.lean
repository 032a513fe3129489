/-
  ConcurrentFs.Offsets

  What a failing call on a descriptor does to the offsets (vfs_read, vfs_write and
  vfs_lseek of src/vfs.cpp).  Nothing but the last step of such a call changes an
  offset, and an error thrown before that step leaves all of them alone.  The one
  error thrown after it is the `VFS_ENOSPC` of a `vfs_write` that wrote nothing: by
  then the offset is the position of the first chunk, and for an `O_APPEND`
  descriptor that is the end of the file.

  When this happens is said exactly, in every state: the first chunk writes nothing
  if and only if fewer blocks are free than the pointer tree of the file misses on
  the way to the position (`OutOfSpace`).
-/
import ConcurrentFs.FileData
import ConcurrentFs.JournalUse
import ConcurrentFs.Mkfs

namespace ConcurrentFs

open Lib

/-! ## Running out of blocks -/

/-- The clear bits. -/
def Bitmap.spare (bm : Bitmap) : Finset Nat :=
  (Finset.range bm.nbits).filter fun b => bm.bit b = false

theorem Bitmap.mem_spare {bm : Bitmap} {b : Nat} :
    b ∈ bm.spare ↔ b < bm.nbits ∧ bm.bit b = false := by
  unfold Bitmap.spare
  rw [Finset.mem_filter, Finset.mem_range]

theorem Bitmap.spare_put {bm : Bitmap} {b : Nat} (hb : b ∈ bm.spare) :
    (bm.put b true).spare = bm.spare.erase b := by
  obtain ⟨hlt, -⟩ := Bitmap.mem_spare.mp hb
  ext c
  rw [Bitmap.mem_spare, Finset.mem_erase, Bitmap.mem_spare, Bitmap.put_nbits,
    Bitmap.put_bit hlt true c]
  by_cases hc : c = b
  · simp [hc]
  · simp [hc]

/-- A block that can be marked in the bitmap on the disk and lies in the data region. -/
structure Usable (sb : Superblock) (b : Nat) : Prop where
  data : sb.dataStart.toNat ≤ b
  total : b < sb.totalBlocks.toNat
  mark : touchable sb (sb.dataBitmapStart.toNat + b / 32768) = true

/-- Fewer than `n` blocks are free, and nothing is wrong with those that are. -/
structure Short (sb : Superblock) (bm : Bitmap) (n : Nat) : Prop where
  few : bm.spare.card < n
  usable : ∀ b ∈ bm.spare, Usable sb b

/-- The blocks of `got` are marked, and can be given back but for their range. -/
structure InHand (sb : Superblock) (bm : Bitmap) (got : List Nat) : Prop where
  nodup : got.Nodup
  marked : ∀ b ∈ got, b < bm.nbits ∧ bm.bit b = true
  data : ∀ b ∈ got, sb.dataStart.toNat ≤ b
  mark : ∀ b ∈ got, touchable sb (sb.dataBitmapStart.toNat + b / 32768) = true

section Alloc

variable {sb : Superblock} {s : FileSystem} {bm : Bitmap} {got : List Nat}

theorem writeBlock_part (b : Nat) (fresh : Bool) (fn : Block → Block) :
    (writeBlock sb b fresh fn).Part s (fun _ s' => touchable sb b = true ∧ s'.blocks = s.blocks)
      fun e s' => e = .other ∧ touchable sb b = false ∧ s'.blocks = s.blocks := by
  unfold writeBlock
  by_cases h : touchable sb b = true
  · rw [if_pos h, Prog.part_change]
    exact ⟨h, rfl⟩
  · rw [if_neg h]
    exact ⟨rfl, by simpa using h, rfl⟩

/-- `alloc_block` fails for want of blocks only if none is free, and otherwise because something is
    wrong with the one it found. -/
theorem allocBlock_part : (allocBlock sb).Part s
    (fun b s' => b ∈ s.blocks.spare ∧ sb.dataStart.toNat ≤ b ∧
      touchable sb (sb.dataBitmapStart.toNat + b / 32768) = true ∧
      s'.blocks = s.blocks.put b true)
    fun e s' => (e = .fsError .enospc ∧ s.blocks.spare = ∅ ∧ s'.blocks = s.blocks) ∨
      e ≠ .fsError .enospc ∧ (∃ b ∈ s.blocks.spare, ¬ Usable sb b) ∧
        (s'.blocks = s.blocks ∨ ∃ b ∈ s.blocks.spare, s'.blocks = s.blocks.put b true) := by
  unfold allocBlock
  rw [Prog.part_bind, Prog.part_view]
  cases hf : s.blocks.findFirstFree with
  | none =>
    refine .inl ⟨rfl, ?_, rfl⟩
    ext b
    have := Bitmap.findFirstFree_none hf b
    simp only [Bitmap.mem_spare, Finset.notMem_empty, iff_false, not_and, Bool.not_eq_false]
    exact this
  | some b =>
    obtain ⟨hlt, hbit, -⟩ := Bitmap.findFirstFree_some hf
    have hb : b ∈ s.blocks.spare := Bitmap.mem_spare.mpr ⟨hlt, hbit⟩
    dsimp only
    by_cases hd : b < sb.dataStart.toNat
    · rw [if_pos hd]
      exact .inr ⟨(by intro h; contradiction), ⟨b, hb, fun hu =>
        absurd hu.data (by omega)⟩, .inl rfl⟩
    rw [if_neg hd]
    simp only [Prog.part_bind, Prog.part_view, Prog.part_change, Bitmap.set_of_lt hlt,
      orOutOfRange, Prog.part_pure]
    refine (writeBlock_part _ _ _).mono (fun _ s' h => ?_) fun e s' h => ?_
    · exact ⟨hb, by omega, h.1, h.2⟩
    · obtain ⟨rfl, hno, hs'⟩ := h
      refine .inr ⟨(by intro h; contradiction), ⟨b, hb, fun hu => ?_⟩, .inr ⟨b, hb, hs'⟩⟩
      rw [hu.mark] at hno
      exact Bool.noConfusion hno

theorem InHand.nil : InHand sb bm [] := ⟨.nil, nofun, nofun, nofun⟩

/-- Marking one more leaves the others marked. -/
theorem InHand.put (h : InHand sb bm got) {b : Nat} (hb : b ∈ bm.spare) :
    InHand sb (bm.put b true) got where
  nodup := h.nodup
  marked c hc := by
    rw [Bitmap.put_nbits, Bitmap.put_bit (Bitmap.mem_spare.mp hb).1]
    refine ⟨(h.marked c hc).1, ?_⟩
    split
    · rfl
    · exact (h.marked c hc).2
  data := h.data
  mark := h.mark

theorem InHand.snoc (h : InHand sb bm got) {b : Nat} (hb : b ∈ bm.spare)
    (h1 : sb.dataStart.toNat ≤ b)
    (h2 : touchable sb (sb.dataBitmapStart.toNat + b / 32768) = true) :
    InHand sb (bm.put b true) (got ++ [b]) := by
  obtain ⟨hlt, hbit⟩ := Bitmap.mem_spare.mp hb
  have hnew : b ∉ got := fun hm => by
    rw [(h.marked b hm).2] at hbit
    exact Bool.noConfusion hbit
  have hput := h.put hb
  refine ⟨List.nodup_append.mpr ⟨h.nodup, List.nodup_singleton b, ?_⟩, ?_, ?_, ?_⟩
  · rintro c hc d hd rfl
    rw [List.mem_singleton.mp hd] at hc
    exact hnew hc
  all_goals refine List.forall_mem_append.mpr ⟨?_, List.forall_mem_singleton.mpr ?_⟩
  · exact hput.marked
  · rw [Bitmap.put_nbits, Bitmap.put_bit hlt, if_pos rfl]
    exact ⟨hlt, rfl⟩
  · exact h.data
  · exact h1
  · exact h.mark
  · exact h2

/-- Clearing the bits of a run in memory. -/
theorem clearBits_part (bm : Bitmap) (run : List Nat) : ∀ s : FileSystem,
    s.blocks.nbits = bm.nbits →
    (∀ b ∈ run, b < bm.nbits) →
    (run.forM clearBlockBit).Part s (fun _ s' => s'.blocks.nbits = bm.nbits) fun _ _ => False := by
  induction run with
  | nil => exact fun s hs _ => hs
  | cons b run ih =>
    intro s hs hlt
    obtain ⟨hb, hrun⟩ := List.forall_mem_cons.mp hlt
    show (clearBlockBit b >>= fun _ => run.forM clearBlockBit).Part s _ _
    unfold clearBlockBit
    simp only [Prog.part_bind, Prog.part_view, Bitmap.clear_of_lt (hs ▸ hb), orOutOfRange,
      Prog.part_pure, Prog.part_change]
    exact ih _ ((Bitmap.put_nbits _ _ _).trans hs) hrun

/-- Giving back runs of blocks whose bitmap blocks can be written. -/
theorem freeRuns_part (bm : Bitmap) (runs : List (List Nat)) : ∀ s : FileSystem,
    s.blocks.nbits = bm.nbits →
    (∀ run ∈ runs, run ≠ [] ∧ ∀ b ∈ run, b < bm.nbits ∧
      touchable sb (sb.dataBitmapStart.toNat + b / 32768) = true) →
    (runs.forM (freeRun sb)).Part s (fun _ _ => True) fun _ _ => False := by
  induction runs with
  | nil => exact fun _ _ _ => trivial
  | cons run runs ih =>
    intro s hs hall
    obtain ⟨⟨hne, hrun⟩, hrest⟩ := List.forall_mem_cons.mp hall
    obtain ⟨b, tail, rfl⟩ := List.exists_cons_of_ne_nil hne
    show (freeRun sb (b :: tail) >>= fun _ => runs.forM (freeRun sb)).Part s _ _
    unfold freeRun
    rw [Prog.part_bind, Prog.part_bind]
    refine (writeBlock_part _ _ _).mono (fun _ s' h => ?_) fun e s' h => ?_
    · refine (clearBits_part bm (b :: tail) s' ((congrArg _ h.2).trans hs)
        fun c hc => (hrun c hc).1).mono (fun _ s'' h'' => ih s'' h'' hrest) fun _ _ hf => hf
    · have := (hrun b List.mem_cons_self).2
      rw [List.headD_cons, this] at h
      exact Bool.noConfusion h.2.1

/-- What was just taken can be given back if it lies on the disk. -/
theorem freeBlocks_part (h : InHand sb s.blocks got) : (freeBlocks sb got).Part s
    (fun _ _ => ∀ b ∈ got, b < sb.totalBlocks.toNat)
    fun e _ => e ≠ .fsError .enospc ∧ ¬ ∀ b ∈ got, b < sb.totalBlocks.toNat := by
  have hperm := List.perm_insertionSort (· ≤ ·) got
  have hiff := freeable_iff sb s.blocks (List.pairwise_insertionSort (· ≤ ·) got)
  simp only [hperm.nodup_iff, hperm.mem_iff] at hiff
  unfold freeBlocks
  rw [Prog.part_bind, Prog.part_view]
  by_cases hf : freeable sb s.blocks (got.insertionSort (· ≤ ·)) = true
  · have hall : ∀ b ∈ got, b < sb.totalBlocks.toNat := fun b hb => ((hiff.mp hf).2 b hb).2.1
    simp only [hf, Bool.not_true, Bool.false_eq_true, if_false]
    refine (freeRuns_part s.blocks _ s rfl fun run hrun => ?_).mono
      (fun _ _ _ => hall) fun _ _ hf => hf.elim
    refine ⟨List.ne_nil_of_mem_splitBy hrun, fun b hb => ?_⟩
    have hmem : b ∈ got := by
      rw [← hperm.mem_iff, ← List.flatten_splitBy (fun a b : Nat => a / 32768 == b / 32768)
        (got.insertionSort (· ≤ ·))]
      exact List.mem_flatten.mpr ⟨run, hrun, hb⟩
    exact ⟨(h.marked b hmem).1, h.mark b hmem⟩
  · have hf' : freeable sb s.blocks (got.insertionSort (· ≤ ·)) = false := by
      rw [← Bool.not_eq_true]
      exact hf
    simp only [hf', Bool.not_false, if_true]
    refine ⟨nofun, fun hall => hf (hiff.mpr ⟨h.nodup, fun b hb => ⟨h.data b hb, hall b hb, ?_⟩⟩)⟩
    obtain ⟨hlt, hbit⟩ := h.marked b hb
    rw [Bitmap.isSet_of_lt hlt, hbit]

/-- One block less to find, one block less to find it among. -/
theorem short_put {b n : Nat} (hb : b ∈ bm.spare) (h1 : sb.dataStart.toNat ≤ b)
    (h2 : touchable sb (sb.dataBitmapStart.toNat + b / 32768) = true) :
    (Short sb (bm.put b true) n ∧ b < sb.totalBlocks.toNat) ↔ Short sb bm (n + 1) := by
  have hcard := Finset.card_erase_add_one hb
  constructor
  · rintro ⟨⟨hfew, huse⟩, hlt⟩
    rw [Bitmap.spare_put hb] at hfew huse
    refine ⟨by omega, fun c hc => ?_⟩
    by_cases hcb : c = b
    · rw [hcb]
      exact ⟨h1, hlt, h2⟩
    · exact huse c (Finset.mem_erase.mpr ⟨hcb, hc⟩)
  · rintro ⟨hfew, huse⟩
    refine ⟨⟨?_, ?_⟩, (huse b hb).total⟩
    · rw [Bitmap.spare_put hb]
      omega
    · intro c hc
      rw [Bitmap.spare_put hb] at hc
      exact huse c (Finset.mem_of_mem_erase hc)

/-- `alloc_all` runs out exactly when too few blocks are free; what it has by then it can give
    back. -/
theorem allocAllFrom_part (n : Nat) : ∀ (s : FileSystem) (got : List Nat),
    InHand sb s.blocks got → (allocAllFrom sb got n).Part s
      (fun _ _ => ¬ (Short sb s.blocks n ∧ ∀ b ∈ got, b < sb.totalBlocks.toNat))
      fun e _ => e = .fsError .enospc ↔
        Short sb s.blocks n ∧ ∀ b ∈ got, b < sb.totalBlocks.toNat := by
  induction n with
  | zero => exact fun s got _ h => absurd h.1.few (Nat.not_lt_zero _)
  | succ n ih =>
    intro s got hgot
    unfold allocAllFrom
    rw [Prog.part_bind, Prog.part_onError]
    refine allocBlock_part.mono (fun b s' h => ?_) fun e s' h => ?_
    · -- one more in hand
      obtain ⟨hb, h1, h2, hs'⟩ := h
      have hiff : (Short sb (s.blocks.put b true) n ∧ ∀ c ∈ got ++ [b], c < sb.totalBlocks.toNat) ↔
          Short sb s.blocks (n + 1) ∧ ∀ c ∈ got, c < sb.totalBlocks.toNat := by
        rw [← short_put hb h1 h2, List.forall_mem_append, List.forall_mem_singleton]
        tauto
      have := ih s' (got ++ [b]) (hs' ▸ hgot.snoc hb h1 h2)
      rwa [hs', hiff] at this
    rcases h with ⟨rfl, hnone, hs'⟩ | ⟨hne, ⟨b, hb, hbad⟩, hs'⟩
    · -- none is left
      have hshort : Short sb s.blocks (n + 1) := by
        refine ⟨?_, ?_⟩
        · rw [hnone]
          exact Nat.succ_pos n
        · rw [hnone]
          intros; contradiction
      refine (freeBlocks_part (hs' ▸ hgot)).mono (fun _ _ hall => ?_) fun e _ he => ?_
      · exact ⟨fun _ => ⟨hshort, hall⟩, fun _ => rfl⟩
      · exact ⟨fun hc => absurd hc he.1, fun hc => absurd hc.2 he.2⟩
    · -- the one that was found is no good
      have hgot' : InHand sb s'.blocks got := by
        rcases hs' with hs' | ⟨c, hc, hs'⟩
        · rw [hs']
          exact hgot
        · rw [hs']
          exact hgot.put hc
      have hno : ¬ Short sb s.blocks (n + 1) := fun hs => hbad (hs.usable b hb)
      refine (freeBlocks_part hgot').mono (fun _ _ _ => ?_) fun e' _ he => ?_
      · exact ⟨fun hc => absurd hc hne, fun hc => absurd hc.1 hno⟩
      · exact ⟨fun hc => absurd hc he.1, fun hc => absurd hc.1 hno⟩

theorem allocAll_part (n : Nat) : (allocAll sb n).Part s (fun _ _ => ¬ Short sb s.blocks n)
    fun e _ => e = .fsError .enospc ↔ Short sb s.blocks n := by
  refine (allocAllFrom_part n s [] .nil).mono (fun _ _ h hs => h ⟨hs, nofun⟩) fun e _ h => ?_
  exact h.trans ⟨And.left, fun hs => ⟨hs, nofun⟩⟩

end Alloc

/-! ## The block of a position -/

/-- `bmap_alloc` of file block `index` finds no room: what there is on the way can be read, and
    there are fewer free blocks than holes. -/
structure OutOfSpace (sb : Superblock) (s : FileSystem) (ino : Inode) (index : Nat) : Prop where
  readable : ∀ p ∈ path index, p.indirect = true → ptr s.disk ino p ≠ 0 →
    touchable sb (ptr s.disk ino p) = true
  short : Short sb s.blocks (holes s.disk ino index)

section Map

variable {sb : Superblock} {s : FileSystem} {ino : Inode} {α : Type}

/-- A program that runs out of blocks exactly when `P` holds. -/
def FullIff (P : Prop) (s : FileSystem) (p : Fs α) : Prop :=
  p.Part s (fun _ _ => ¬ P) fun e _ => e = .fsError .enospc ↔ P

theorem FullIff.congr {P Q : Prop} {p : Fs α} (h : FullIff P s p) (hpq : P ↔ Q) :
    FullIff Q s p := by
  rwa [← propext hpq]

theorem fullIff_pure {P : Prop} (a : α) (h : ¬ P) : FullIff P s (pure a : Fs α) := h

/-- What is left to do after the blocks were found does not ask for more. -/
theorem FullIff.then {β : Type} {P : Prop} {p : Fs β} {f : β → Fs α} (h : FullIff P s p)
    (hf : ∀ a s', (f a).Part s' (fun _ _ => True) fun e _ => e ≠ .fsError .enospc) :
    FullIff P s (p >>= f) := by
  unfold FullIff
  rw [Prog.part_bind]
  refine Prog.Part.mono h (fun a s' hno => ?_) fun _ _ he => he
  exact (hf a s').mono (fun _ _ _ => hno) fun e _ he =>
    ⟨fun hc => absurd hc he, fun hc => absurd hc hno⟩

theorem setPtr_full (block : Nat) (fresh : Bool) (i v : Nat) (s : FileSystem) :
    (setPtr sb block fresh i v).Part s (fun _ _ => True) fun e _ => e ≠ .fsError .enospc :=
  (writeBlock_part _ _ _).mono (fun _ _ _ => trivial) fun e _ h => by
    rw [h.1]
    exact nofun

theorem allocBlock_full : FullIff (Short sb s.blocks 1) s (allocBlock sb) := by
  refine allocBlock_part.mono (fun b s' h hs => ?_) fun e s' h => ?_
  · have := Finset.card_pos.mpr ⟨b, h.1⟩
    have := hs.few
    omega
  · rcases h with ⟨rfl, hnone, -⟩ | ⟨hne, ⟨b, hb, hbad⟩, -⟩
    · refine ⟨fun _ => ⟨?_, ?_⟩, fun _ => rfl⟩
      · rw [hnone]
        exact Nat.one_pos
      · rw [hnone]
        exact nofun
    · exact ⟨fun hc => absurd hc hne, fun hs => absurd (hs.usable b hb) hbad⟩

/-- `get_ptr`, and what comes after it. -/
theorem getPtr_full {P : Prop} {block i : Nat} {f : Nat → Fs α}
    (hno : touchable sb block = false → ¬ P)
    (hf : touchable sb block = true → FullIff P s (f (ptrAt (s.disk block) i).toNat)) :
    FullIff P s (getPtr sb block i >>= f) := by
  unfold FullIff getPtr readBlock
  by_cases h : touchable sb block = true
  · simp only [h, if_true, Prog.part_bind, Prog.part_view, Prog.part_pure]
    exact hf h
  · have h' : touchable sb block = false := by simpa using h
    simp only [h', Bool.false_eq_true, if_false, Prog.part_bind, Prog.part_throw]
    exact ⟨(by intros; contradiction), fun hp => absurd hp (hno h')⟩

theorem allocAll_full (n : Nat) : FullIff (Short sb s.blocks n) s (allocAll sb n) := allocAll_part n

theorem outOfSpace_iff {index n : Nat} (hn : holes s.disk ino index = n)
    (hread : ∀ p ∈ path index, p.indirect = true → ptr s.disk ino p ≠ 0 →
      touchable sb (ptr s.disk ino p) = true) :
    Short sb s.blocks n ↔ OutOfSpace sb s ino index := by
  rw [← hn]
  exact ⟨fun h => ⟨hread, h⟩, OutOfSpace.short⟩

theorem not_outOfSpace {index : Nat} (hn : holes s.disk ino index = 0) :
    ¬ OutOfSpace sb s ino index := by
  intro h
  have := h.short.few
  omega

theorem bmapAllocDirect_full (i : Fin 12) :
    FullIff (OutOfSpace sb s ino i) s (bmapAllocDirect sb ino i) := by
  have hptr : ptr s.disk ino (.data i) = (ino.direct i).toNat := by
    show bmap s.disk ino i = _
    unfold bmap
    rw [dif_pos i.isLt]
  have hholes : holes s.disk ino i = if (ino.direct i).toNat = 0 then 1 else 0 := by
    unfold holes
    rw [path_lt i.isLt, List.countP_singleton, hptr]
    simp only [beq_iff_eq]
  unfold bmapAllocDirect
  by_cases h0 : ino.direct i = 0
  · rw [if_neg (by simpa using h0)]
    rw [if_pos (toNat_eq_zero.mpr h0)] at hholes
    refine (allocBlock_full.congr (outOfSpace_iff hholes fun p hp hi => ?_)).then
      fun _ _ => trivial
    rw [path_lt i.isLt, List.mem_singleton] at hp
    rw [hp] at hi
    exact absurd hi Bool.false_ne_true
  · rw [if_pos h0]
    rw [if_neg (fun h => h0 (toNat_eq_zero.mp h))] at hholes
    exact fullIff_pure _ (not_outOfSpace hholes)

theorem bmapAllocSingle_full {index : Nat} (h1 : 12 ≤ index) (h2 : index < 1036) :
    FullIff (OutOfSpace sb s ino index) s (bmapAllocSingle sb ino (index - 12)) := by
  have hpath := path_single h1 h2
  have hpar := parent_single h1 h2
  have hsingle : ptr s.disk ino .single = ino.singleIndirect.toNat := rfl
  unfold bmapAllocSingle
  by_cases hs0 : ino.singleIndirect = 0
  · -- the indirect block is missing as well
    have hp : ptr s.disk ino .single = 0 := toNat_eq_zero.mpr hs0
    have hd : ptr s.disk ino (.data index) = 0 := by rw [ptr_of_parent hpar, if_pos hp]
    have hholes : holes s.disk ino index = 2 := by
      unfold holes
      rw [hpath]
      simp [hp, hd]
    rw [if_neg (by simpa using hs0)]
    refine ((allocAll_full 2).congr (outOfSpace_iff hholes fun p hp' hi h0 => ?_)).then
      fun got s' => ?_
    · rw [hpath] at hp'
      rcases List.mem_cons.mp hp' with rfl | hp'
      · exact absurd hp h0
      · rw [List.mem_singleton.mp hp'] at hi
        exact absurd hi Bool.false_ne_true
    · rw [Prog.part_bind]
      exact (setPtr_full _ _ _ _ _).mono (fun _ _ _ => trivial) fun _ _ he => he
  · have hp : ptr s.disk ino .single ≠ 0 := fun h => hs0 (toNat_eq_zero.mp h)
    have hd : ptr s.disk ino (.data index)
        = (ptrAt (s.disk ino.singleIndirect.toNat) (index - 12)).toNat := by
      rw [ptr_of_parent hpar, if_neg hp, hsingle]
    rw [if_pos hs0]
    refine getPtr_full (fun hno hout => ?_) fun hyes => ?_
    · have := hout.readable .single (by rw [hpath]; simp) rfl hp
      rw [hsingle, hno] at this
      exact Bool.noConfusion this
    rw [← hd]
    by_cases hd0 : ptr s.disk ino (.data index) = 0
    · have hholes : holes s.disk ino index = 1 := by
        unfold holes
        rw [hpath]
        simp [hp, hd0]
      rw [if_neg (by simpa using hd0)]
      refine (allocBlock_full.congr (outOfSpace_iff hholes fun p hp' hi h0 => ?_)).then
        fun data s' => ?_
      · rw [hpath] at hp'
        rcases List.mem_cons.mp hp' with rfl | hp'
        · exact hyes
        · rw [List.mem_singleton.mp hp'] at hi
          exact absurd hi Bool.false_ne_true
      · rw [Prog.part_bind]
        exact (setPtr_full _ _ _ _ _).mono (fun _ _ _ => trivial) fun _ _ he => he
    · have hholes : holes s.disk ino index = 0 := by
        unfold holes
        rw [hpath]
        simp [hp, hd0]
      rw [if_pos hd0]
      exact fullIff_pure _ (not_outOfSpace hholes)

/-- What is found below the double-indirect block, or missing. -/
theorem bmapAllocDouble_full {index : Nat} (h1 : 1036 ≤ index) (h2 : index < maxFileBlocks) :
    FullIff (OutOfSpace sb s ino index) s
      (bmapAllocDouble sb ino ((index - 1036) / 1024) ((index - 1036) % 1024)) := by
  have hj : (index - 1036) / 1024 < 1024 := by unfold maxFileBlocks at h2; omega
  have hpath := path_double h1
  have hpar := parent_double h1 h2
  have hpar2 := parent_second hj
  have hdouble : ptr s.disk ino .double = ino.doubleIndirect.toNat := rfl
  have hsec : ptr s.disk ino (.second ((index - 1036) / 1024)) =
      if ptr s.disk ino .double = 0 then 0
      else (ptrAt (s.disk (ptr s.disk ino .double)) ((index - 1036) / 1024)).toNat :=
    ptr_of_parent hpar2
  have hdat : ptr s.disk ino (.data index) =
      if ptr s.disk ino (.second ((index - 1036) / 1024)) = 0 then 0
      else (ptrAt (s.disk (ptr s.disk ino (.second ((index - 1036) / 1024))))
        ((index - 1036) % 1024)).toNat := ptr_of_parent hpar
  -- what is on the way is read before anything is taken
  have hfill : (∀ p ∈ path index, p.indirect = true → ptr s.disk ino p ≠ 0 →
      touchable sb (ptr s.disk ino p) = true) → ptr s.disk ino (.data index) = 0 →
      FullIff (OutOfSpace sb s ino index) s (fillDouble sb ino ((index - 1036) / 1024)
        ((index - 1036) % 1024) (ptr s.disk ino (.second ((index - 1036) / 1024)))) := by
    intro hread hd0
    have hholes : holes s.disk ino index
        = 1 + (if ptr s.disk ino (.second ((index - 1036) / 1024)) ≠ 0 then 0 else 1)
          + (if ino.doubleIndirect.toNat ≠ 0 then 0 else 1) := by
      unfold holes
      rw [hpath]
      simp only [List.countP_cons, List.countP_nil, beq_iff_eq, hd0, if_true, hdouble]
      split <;> split <;> simp_all
    unfold fillDouble
    refine ((allocAll_full _).congr (outOfSpace_iff hholes hread)).then fun got s' => ?_
    dsimp only
    rw [Prog.part_bind]
    refine (setPtr_full _ _ _ _ _).mono (fun _ s'' _ => ?_) fun _ _ he => he
    split
    · rw [Prog.part_bind]
      exact (setPtr_full _ _ _ _ _).mono (fun _ _ _ => trivial) fun _ _ he => he
    · trivial
  have hend : ∀ data, data = ptr s.disk ino (.data index) →
      (∀ p ∈ path index, p.indirect = true → ptr s.disk ino p ≠ 0 →
        touchable sb (ptr s.disk ino p) = true) →
      (data ≠ 0 → ptr s.disk ino (.second ((index - 1036) / 1024)) ≠ 0 ∧
        ptr s.disk ino .double ≠ 0) →
      FullIff (OutOfSpace sb s ino index) s (if data ≠ 0 then pure ⟨ino, data, false⟩
        else fillDouble sb ino ((index - 1036) / 1024) ((index - 1036) % 1024)
          (ptr s.disk ino (.second ((index - 1036) / 1024)))) := by
    intro data hdata hread hup
    by_cases hd0 : data ≠ 0
    · rw [if_pos hd0]
      refine fullIff_pure _ (not_outOfSpace ?_)
      obtain ⟨hs0, ht0⟩ := hup hd0
      unfold holes
      rw [hpath]
      simp [hs0, ht0, ← hdata, hd0]
    · rw [if_neg hd0]
      exact hfill hread (hdata ▸ not_not.mp hd0)
  have hreads : (ptr s.disk ino .double ≠ 0 → touchable sb (ptr s.disk ino .double) = true) →
      (ptr s.disk ino (.second ((index - 1036) / 1024)) ≠ 0 →
        touchable sb (ptr s.disk ino (.second ((index - 1036) / 1024))) = true) →
      ∀ p ∈ path index, p.indirect = true → ptr s.disk ino p ≠ 0 →
        touchable sb (ptr s.disk ino p) = true := by
    intro hrt hrs p hp hi
    rw [hpath] at hp
    rcases List.mem_cons.mp hp with rfl | hp
    · exact hrt
    rcases List.mem_cons.mp hp with rfl | hp
    · exact hrs
    · rw [List.mem_singleton.mp hp] at hi
      exact absurd hi Bool.false_ne_true
  have hunread : ∀ p ∈ path index, p.indirect = true → ptr s.disk ino p ≠ 0 →
      touchable sb (ptr s.disk ino p) = false → ¬ OutOfSpace sb s ino index := by
    intro p hp hi h0 hno hout
    rw [hout.readable p hp hi h0] at hno
    exact Bool.noConfusion hno
  rw [bmapAllocDouble_eq]
  rw [hdouble] at hsec
  by_cases ht : ino.doubleIndirect.toNat = 0
  · have hs0 : ptr s.disk ino (.second ((index - 1036) / 1024)) = 0 := by rw [hsec, if_pos ht]
    have hd0 : ptr s.disk ino (.data index) = 0 := by rw [hdat, if_pos hs0]
    have := hend 0 hd0.symm (hreads (fun h => absurd ht h) fun h => absurd hs0 h)
      fun h => absurd rfl h
    rw [hs0] at this
    simp only [ht, ne_eq, not_true_eq_false, if_false]
    exact this
  rw [if_neg ht] at hsec
  rw [if_pos ht]
  refine getPtr_full (hunread .double (by rw [hpath]; simp) rfl ht) fun hrt => ?_
  rw [← hsec]
  by_cases hs0 : ptr s.disk ino (.second ((index - 1036) / 1024)) = 0
  · have hd0 : ptr s.disk ino (.data index) = 0 := by rw [hdat, if_pos hs0]
    have := hend 0 hd0.symm (hreads (fun _ => hrt) fun h => absurd hs0 h) fun h => absurd rfl h
    rw [hs0] at this ⊢
    simp only [ne_eq, not_true_eq_false, if_false]
    exact this
  · rw [if_neg hs0] at hdat
    rw [if_pos hs0]
    refine getPtr_full (hunread _ (by rw [hpath]; simp) rfl hs0) fun hrs => ?_
    rw [← hdat]
    exact hend _ rfl (hreads (fun _ => hrt) fun _ => hrs) fun _ => ⟨hs0, ht⟩

/-- `bmap_alloc` below `MAX_FILE_BLOCKS`, in any state. -/
theorem bmapAlloc_full {index : Nat} (h : index < maxFileBlocks) :
    FullIff (OutOfSpace sb s ino index) s (bmapAlloc sb ino index) := by
  have hmax : ¬ index - 12 - 1024 ≥ 1024 * 1024 := by unfold maxFileBlocks at h; omega
  unfold bmapAlloc
  by_cases h1 : index < 12
  · rw [dif_pos h1]
    exact bmapAllocDirect_full ⟨index, h1⟩
  rw [dif_neg h1]
  by_cases h2 : index - 12 < 1024
  · rw [if_pos h2]
    exact bmapAllocSingle_full (by omega) (by omega)
  · rw [if_neg h2, if_neg hmax, show index - 12 - 1024 = index - 1036 by omega]
    exact bmapAllocDouble_full (by omega) h

end Map

/-! ## The first chunk -/

/-- What `file_inode` reads, if it can. -/
def inodeSeen (sb : Superblock) (s : FileSystem) (p : EntryPtr) (id : Nat) : Option Inode :=
  match s.entryAt p with
  | none => none
  | some e =>
    if e.inodeValid then some e.inode
    else if id = 0 ∨ id ≥ sb.inodeCount.toNat ∨ touchable sb (inodeBlock sb id) = false then none
    else some (inodeIn (s.disk (inodeBlock sb id)) (id % 32))

/-- The first chunk of a write through `f` that is to start at `start` writes nothing, because the
    disk is full. -/
def StuckAt (sb : Superblock) (s : FileSystem) (f : Snapshot) (pos start : Nat) : Prop :=
  ∃ ino, inodeSeen sb s f.lock f.inode = some ino ∧ start = chunkStart f ino.size.toNat pos ∧
    start < maxFileBytes ∧ OutOfSpace sb s ino (start / 4096)

section Chunk

variable {sb : Superblock} {s : FileSystem} {f : Snapshot} {src : Nat → UInt8} {n pos start : Nat}

theorem StuckAt.unique {start' : Nat} (h : StuckAt sb s f pos start)
    (h' : StuckAt sb s f pos start') : start = start' := by
  obtain ⟨ino, hino, rfl, -⟩ := h
  obtain ⟨ino', hino', rfl, -⟩ := h'
  rw [hino] at hino'
  rw [Option.some.inj hino']

theorem readEntry_part {α : Type} {p : EntryPtr} {g : Entry → α} {P : α → FileSystem → Prop}
    {E : Exn → FileSystem → Prop} (h : ∀ e, s.entryAt p = some e → P (g e) s)
    (hgone : s.entryAt p = none → E .fault s) : (readEntry p g).Part s P E := by
  intro _
  dsimp only [id]
  cases he : s.entryAt p with
  | none => exact hgone he
  | some e => exact h e he

theorem changeEntry_part {p : EntryPtr} {g : Entry → Entry} {U : Unit → FileSystem → Prop}
    {E : Exn → FileSystem → Prop} (h : U () (s.mapEntry p g)) (hgone : E .fault (s.mapEntry p g)) :
    (changeEntry p g).Part s U E := by
  intro _
  dsimp only
  split
  · exact h
  · exact hgone

theorem lockEntry_part {p : EntryPtr} {exclusive : Bool} {U : Unit → FileSystem → Prop}
    {E : Exn → FileSystem → Prop}
    (h : ∀ g : Entry → Entry, (∀ e, (g e).addr = e.addr ∧ (g e).inode = e.inode ∧
      (g e).inodeValid = e.inodeValid) → U () (s.mapEntry p g) ∧ E .fault (s.mapEntry p g)) :
    (lockEntry p exclusive).Part s U E := by
  have hg := h
    (fun e => if exclusive then { e with writer := true } else { e with readers := e.readers + 1 })
    fun e => by cases exclusive <;> exact ⟨rfl, rfl, rfl⟩
  intro _
  dsimp only
  split
  · exact hg.1
  · exact hg.2

theorem fileInode_part (p : EntryPtr) (id : Nat) : (fileInode sb p id).Part s
    (fun ino s' => s' = s ∧ inodeSeen sb s p id = some ino)
    fun e s' => s' = s ∧ (e ≠ .fault → inodeSeen sb s p id = none ∧ e ≠ .fsError .enospc) := by
  unfold fileInode
  rw [Prog.part_bind]
  refine readEntry_part (fun e he => ?_) fun _ => ⟨rfl, fun h => absurd rfl h⟩
  have hseen : inodeSeen sb s p id = if e.inodeValid then some e.inode
      else if id = 0 ∨ id ≥ sb.inodeCount.toNat ∨ touchable sb (inodeBlock sb id) = false then none
      else some (inodeIn (s.disk (inodeBlock sb id)) (id % 32)) := by
    unfold inodeSeen
    rw [he]
  cases hv : e.inodeValid with
  | true =>
    rw [hv, if_pos rfl] at hseen
    exact ⟨rfl, hseen⟩
  | false =>
    rw [hv, if_neg Bool.false_ne_true] at hseen
    simp only [Bool.false_eq_true, if_false]
    unfold readInode checkId readBlock
    rw [Prog.part_bind]
    by_cases hid : id = 0 ∨ id ≥ sb.inodeCount.toNat
    · rw [if_pos (by tauto)] at hseen
      rw [if_pos hid]
      exact ⟨rfl, fun _ => ⟨hseen, nofun⟩⟩
    rw [if_neg hid, Prog.part_pure, Prog.part_bind]
    by_cases hb : touchable sb (inodeBlock sb id) = true
    · rw [if_neg (by rw [hb]; simpa using hid)] at hseen
      rw [if_pos hb, Prog.part_view]
      exact ⟨rfl, hseen⟩
    · rw [if_pos (.inr (.inr (by simpa using hb)))] at hseen
      rw [if_neg hb]
      exact ⟨rfl, fun _ => ⟨hseen, nofun⟩⟩

/-- The block loop never goes back. -/
theorem writeBlocks_grows (chunkEnd : Nat) (k : Nat) : ∀ (s : FileSystem) (ino : Inode) (at_ : Nat)
    (changed : Bool), (writeBlocks sb src chunkEnd ino at_ changed k).Part s
      (fun c _ => at_ ≤ c.at_) fun _ _ => True := by
  induction k with
  | zero =>
    intro s ino at_ changed
    unfold writeBlocks
    split
    · exact le_refl at_
    · trivial
  | succ k ih =>
    intro s ino at_ changed
    unfold writeBlocks
    by_cases hend : at_ ≥ chunkEnd
    · rw [if_pos hend]
      exact le_refl at_
    rw [if_neg hend, Prog.part_bind, Prog.part_catch, Prog.part_bind]
    refine ((bmapAlloc sb ino (at_ / 4096)).part_true s).mono (fun m s' _ => ?_) fun e s' _ => ?_
    · rw [Prog.part_pure]
      dsimp only
      rw [Prog.part_bind]
      refine (writeBlock_part _ _ _).mono (fun _ s'' _ => ?_) fun _ _ _ => trivial
      exact (ih s'' m.ino _ _).mono (fun c _ h => le_trans (Nat.le_add_right _ _) h)
        fun _ _ _ => trivial
    · split
      · exact le_refl at_
      · trivial

/-- The first round of the block loop. -/
theorem writeBlocks_first {chunkEnd k at_ : Nat} {ino : Inode} {changed : Bool}
    (hlt : at_ < chunkEnd) (hmax : at_ / 4096 < maxFileBlocks) :
    (writeBlocks sb src chunkEnd ino at_ changed (k + 1)).Part s
      (fun c _ => OutOfSpace sb s ino (at_ / 4096) ∧ c = ⟨ino, at_, changed, true⟩ ∨
        ¬ OutOfSpace sb s ino (at_ / 4096) ∧ at_ < c.at_)
      fun _ _ => ¬ OutOfSpace sb s ino (at_ / 4096) := by
  unfold writeBlocks
  rw [if_neg (by omega), Prog.part_bind, Prog.part_catch, Prog.part_bind]
  refine Prog.Part.mono (bmapAlloc_full hmax) (fun m s' hno => ?_) fun e s' he => ?_
  · rw [Prog.part_pure]
    dsimp only
    rw [Prog.part_bind]
    refine (writeBlock_part _ _ _).mono (fun _ s'' _ => ?_) fun _ _ _ => hno
    refine (writeBlocks_grows chunkEnd k s'' m.ino _ _).mono (fun c _ h => .inr ⟨hno, ?_⟩)
      fun _ _ _ => hno
    omega
  · split
    · exact .inl ⟨he.mp ‹_›, rfl⟩
    · exact fun hout => absurd (he.mpr hout) ‹_›

theorem OutOfSpace.congr {s' : FileSystem} {ino : Inode} {index : Nat} (hd : s'.disk = s.disk)
    (hb : s'.blocks = s.blocks) : OutOfSpace sb s' ino index ↔ OutOfSpace sb s ino index := by
  constructor
  · rintro ⟨h1, h2⟩
    rw [hd] at h1 h2
    rw [hb] at h2
    exact ⟨h1, h2⟩
  · rintro ⟨h1, h2⟩
    refine ⟨?_, ?_⟩
    · rw [hd]
      exact h1
    · rw [hd, hb]
      exact h2

theorem mapEntry_disk (p : EntryPtr) (g : Entry → Entry) : (s.mapEntry p g).disk = s.disk := by
  unfold FileSystem.mapEntry
  split
  · rfl
  · rfl

theorem mapEntry_blocks (p : EntryPtr) (g : Entry → Entry) :
    (s.mapEntry p g).blocks = s.blocks := by
  unfold FileSystem.mapEntry
  split
  · rfl
  · rfl

/-- The first chunk of a write: it writes nothing, and then it has changed nothing and the disk is
    full, exactly when it is stuck. -/
theorem writeChunk_part (hn : 0 < n) : (writeChunk sb f src n pos 0).Part s
    (fun r _ => (∃ start, StuckAt sb s f pos start ∧ r = .wrote start start true) ∨
      (∀ start, ¬ StuckAt sb s f pos start) ∧ ∃ p a full, r = .wrote p a full ∧ p < a)
    fun e _ => e ≠ .fault → ∀ start, ¬ StuckAt sb s f pos start := by
  unfold writeChunk
  rw [Prog.part_bind]
  refine (fileInode_part f.lock f.inode).mono (fun ino s' h => ?_) fun e s' h hf start hst => ?_
  rotate_left
  · obtain ⟨ino, hino, -⟩ := hst
    rw [(h.2 hf).1] at hino
    cases hino
  obtain ⟨rfl, hseen⟩ := h
  rw [Prog.part_bind]
  refine changeEntry_part ?_ fun hf => absurd rfl hf
  have hdisk := mapEntry_disk (s := s') f.lock fun e => { e with inodeValid := false }
  have hblocks := mapEntry_blocks (s := s') f.lock fun e => { e with inodeValid := false }
  generalize s'.mapEntry f.lock _ = s1 at hdisk hblocks ⊢
  dsimp only
  obtain ⟨start, hstart⟩ : ∃ start, start = chunkStart f ino.size.toNat pos := ⟨_, rfl⟩
  rw [show (if f.flags &&& oAppend != 0 then ino.size.toNat else pos) = start from hstart.symm]
  have hstuck : ∀ start', StuckAt sb s' f pos start' ↔
      start' = start ∧ start < maxFileBytes ∧ OutOfSpace sb s1 ino (start / 4096) := by
    intro start'
    rw [OutOfSpace.congr hdisk hblocks]
    constructor
    · rintro ⟨ino', hino', rfl, h1, h2⟩
      rw [hseen] at hino'
      cases hino'
      rw [← hstart] at h1 h2
      exact ⟨hstart.symm, h1, h2⟩
    · rintro ⟨rfl, h1, h2⟩
      exact ⟨ino, hseen, hstart, h1, h2⟩
  by_cases hbig : start ≥ maxFileBytes
  · rw [if_pos hbig]
    simp only [if_true]
    exact fun _ start' hst => absurd ((hstuck start').mp hst).2.1 (by omega)
  rw [if_neg hbig, Prog.part_bind]
  have hend : start < min (min (start + (n - 0)) ((start / 4096 + 16) * 4096)) maxFileBytes := by
    omega
  have hindex : start / 4096 < maxFileBlocks := by unfold maxFileBytes at hbig; omega
  obtain ⟨k, hk⟩ : ∃ k,
      min (min (start + (n - 0)) ((start / 4096 + 16) * 4096)) maxFileBytes - start = k + 1 :=
      ⟨_, (Nat.succ_pred_eq_of_pos (by omega)).symm⟩
  rw [hk]
  refine (writeBlocks_first hend hindex).mono (fun c s2 h => ?_) fun e s2 h _ start' hst => ?_
  rotate_left
  · exact h ((hstuck start').mp hst).2.2
  -- what is left returns what the block loop has done
  have htail : ∀ (ino' : Inode) (changed : Bool) (s3 : FileSystem), (do
      if changed then writeInode sb ino'
      changeEntry f.lock fun e => { e with inode := ino', inodeValid := true }
      return ChunkResult.wrote start c.at_ c.diskFull : Fs ChunkResult).Part s3
        (fun r _ => r = .wrote start c.at_ c.diskFull) fun _ _ => True := by
    intro ino' changed s3
    have hlast : ∀ s4, (do
        changeEntry f.lock fun e => { e with inode := ino', inodeValid := true }
        return ChunkResult.wrote start c.at_ c.diskFull : Fs ChunkResult).Part s4
          (fun r _ => r = .wrote start c.at_ c.diskFull) fun _ _ => True := by
      intro s4
      rw [Prog.part_bind]
      exact changeEntry_part rfl trivial
    by_cases hc : changed = true
    · rw [if_pos hc, Prog.part_bind]
      exact ((writeInode sb ino').part_true s3).mono (fun _ s4 _ => hlast s4) fun _ _ _ => trivial
    · rw [if_neg hc]
      exact hlast s3
  rcases h with ⟨hout, rfl⟩ | ⟨hno, hlt⟩
  · have hnot : ¬ start > start := lt_irrefl start
    simp only [hnot, if_false, Prog.part_bind, Prog.part_pure, Bool.false_eq_true]
    refine changeEntry_part (.inl ⟨start, (hstuck start).mpr ⟨rfl, by omega, hout⟩, rfl⟩) ?_
    exact fun hf => absurd rfl hf
  · have hnever : ∀ start', ¬ StuckAt sb s' f pos start' :=
      fun start' hst => hno ((hstuck start').mp hst).2.2
    rw [if_pos hlt]
    simp only [Prog.part_bind]
    intro _
    refine (htail _ _ _).mono (fun r _ hr => .inr ⟨hnever, _, _, _, hr, hlt⟩) fun _ _ _ _ => hnever

/-- Taking a lock does not change what `file_inode` reads. -/
theorem inodeSeen_mapEntry {p : EntryPtr} {g : Entry → Entry} (id : Nat)
    (hg : ∀ e, (g e).addr = e.addr ∧ (g e).inode = e.inode ∧ (g e).inodeValid = e.inodeValid) :
    inodeSeen sb (s.mapEntry p g) p id = inodeSeen sb s p id := by
  have hentry : (s.mapEntry p g).entryAt p = (s.entryAt p).map g := by
    unfold FileSystem.mapEntry
    cases he : s.entryAt p with
    | none => exact he
    | some e =>
      show Option.filter _ (Function.update s.entries p.id (some (g e)) p.id) = _
      have haddr : (e.addr == p.addr) = true := by
        unfold FileSystem.entryAt at he
        exact (Option.filter_eq_some_iff.mp he).2
      rw [Function.update_self, Option.filter_some, (hg e).1, haddr]
      rfl
  unfold inodeSeen
  rw [hentry, mapEntry_disk]
  cases s.entryAt p with
  | none => rfl
  | some e =>
    show (if (g e).inodeValid = true then some (g e).inode else _) = _
    rw [(hg e).2.1, (hg e).2.2]

theorem StuckAt.congr {s' : FileSystem} (hd : s'.disk = s.disk) (hb : s'.blocks = s.blocks)
    (hseen : inodeSeen sb s' f.lock f.inode = inodeSeen sb s f.lock f.inode) :
    StuckAt sb s' f pos start ↔ StuckAt sb s f pos start := by
  unfold StuckAt
  simp only [hseen, OutOfSpace.congr hd hb]

/-- The count only goes up. -/
theorem writeChunks_grows (k : Nat) : ∀ (s : FileSystem) (pos done : Nat),
    (writeChunks sb f src n pos done k).Part s (fun r _ => done ≤ r.2.1) fun _ _ => True := by
  induction k with
  | zero =>
    intro s pos done
    unfold writeChunks
    split
    · exact le_refl done
    · trivial
  | succ k ih =>
    intro s pos done
    unfold writeChunks
    by_cases hend : done ≥ n
    · rw [if_pos hend]
      exact le_refl done
    rw [if_neg hend, Prog.part_bind]
    refine (Prog.part_true _ s).mono (fun r s' _ => ?_) fun _ _ _ => trivial
    match r with
    | .past _ => exact le_refl done
    | .wrote _ _ true => exact Nat.le_add_right _ _
    | .wrote p a false =>
      exact (ih s' a _).mono (fun _ _ h => le_trans (Nat.le_add_right _ _) h) fun _ _ _ => trivial

/-- The chunks of a write end with nothing written and the disk full exactly when the first is
    stuck, and then the position is where that was to start. -/
theorem writeChunks_part (hn : 0 < n) {k : Nat} (hk : 0 < k) :
    (writeChunks sb f src n pos 0 k).Part s
    (fun r _ => (∃ start, StuckAt sb s f pos start ∧ r = (start, 0, true)) ∨
      (∀ start, ¬ StuckAt sb s f pos start) ∧ 0 < r.2.1)
    fun e _ => e ≠ .fault → ∀ start, ¬ StuckAt sb s f pos start := by
  obtain ⟨k, rfl⟩ : ∃ m, k = m + 1 := ⟨k - 1, by omega⟩
  unfold writeChunks withOp
  rw [if_neg (by omega), Prog.part_bind, Prog.part_bind, Prog.part_change, Prog.part_ensure,
    Prog.part_bind]
  refine lockEntry_part fun g hg => ⟨?_, ?_⟩
  rotate_left
  · rw [Prog.part_change]
    exact fun hf => absurd rfl hf
  have hsame : ∀ start, StuckAt sb
      (({ s with calls := s.calls ++ [.beginOp] } : FileSystem).mapEntry f.lock g) f pos start ↔
        StuckAt sb s f pos start := by
    intro start
    refine (StuckAt.congr (mapEntry_disk _ _) (mapEntry_blocks _ _)
      (inodeSeen_mapEntry f.inode hg)).trans ?_
    exact StuckAt.congr rfl rfl rfl
  generalize (({ s with calls := s.calls ++ [.beginOp] } : FileSystem).mapEntry f.lock g) = s1
    at hsame ⊢
  rw [Prog.part_ensure, Prog.part_atomic]
  refine (writeChunk_part hn).mono (fun r s2 h => ?_) fun e s2 h => ?_
  · refine changeEntry_part ?_ ?_
    · rw [Prog.part_change]
      rcases h with ⟨start, hst, rfl⟩ | ⟨hno, p, a, full, rfl, hlt⟩
      · refine .inl ⟨start, (hsame start).mp hst, ?_⟩
        show (start, 0 + (start - start), true) = _
        rw [Nat.sub_self]
      · have hnever : ∀ start, ¬ StuckAt sb s f pos start :=
          fun start hst => hno start ((hsame start).mpr hst)
        match full with
        | true => exact .inr ⟨hnever, show 0 < 0 + (a - p) by omega⟩
        | false =>
          exact (writeChunks_grows k _ a _).mono (fun r' _ h' => .inr ⟨hnever, by omega⟩)
            fun _ _ _ _ => hnever
    · rw [Prog.part_change]
      exact fun hf => absurd rfl hf
  · refine changeEntry_part ?_ ?_
    · rw [Prog.part_change]
      exact fun hf start hst => h hf start ((hsame start).mpr hst)
    · rw [Prog.part_change]
      exact fun hf => absurd rfl hf

end Chunk

/-! ## What keeps the offsets -/

/-- No descriptor has moved. -/
def SameOffsets (s s' : FileSystem) : Prop := ∀ fd, (s'.files fd).offset = (s.files fd).offset

theorem SameOffsets.trans {s s' s'' : FileSystem} (h : SameOffsets s s')
    (h' : SameOffsets s' s'') : SameOffsets s s'' := fun fd => (h' fd).trans (h fd)

/-- `SameOffsets`, as an effect of which there is one amount. -/
def offsetsKept : Effect FileSystem ℕ∞ where
  rel _ := SameOffsets
  refl _ _ := rfl
  trans h h' := h.trans h'
  mono _ h := h

theorem offsetsKept_countsWrites : CountsWrites offsetsKept where
  entries _ _ _ _ := rfl
  clock _ _ _ := rfl
  inodes _ _ _ := rfl
  blocks _ _ _ := rfl
  put _ _ _ _ := rfl

theorem mapFile_offsets {s : FileSystem} {fd : Nat} {g : OpenFile → OpenFile}
    (hg : ∀ f, (g f).offset = f.offset) : SameOffsets s (s.mapFile fd g) := by
  intro k
  show (Function.update s.files fd (g (s.files fd)) k).offset = _
  by_cases hk : k = fd
  · rw [hk, Function.update_self, hg]
  · rw [Function.update_of_ne hk]

section Has

variable (sb : Superblock) {F : Effect FileSystem ℕ∞} (hF : CountsWrites F)

theorem readRangeFrom_has (ino : Inode) (k : Nat) :
    ∀ pos left, (readRangeFrom sb ino pos left k).Has F 0 := by
  induction k with
  | zero =>
    intro pos left
    unfold readRangeFrom
    exact (Prog.has_pure _).ite (Prog.has_throw _)
  | succ k ih =>
    intro pos left
    unfold readRangeFrom
    refine (Prog.has_pure _).ite ((bmapRead_has sb ino _).then fun block => ?_)
    refine Prog.Has.ite ?_ ?_
    · exact (Prog.has_pure _).then fun _ => (ih _ _).then fun _ => Prog.has_pure _
    · refine (readBlock_has sb block).then fun b => ?_
      exact (Prog.has_pure _).then fun _ => (ih _ _).then fun _ => Prog.has_pure _

theorem readRange_has (ino : Inode) (pos n : Nat) : (readRange sb ino pos n).Has F 0 := by
  unfold readRange
  exact (Prog.has_pure _).ite (readRangeFrom_has sb ino _ _ _)

include hF

theorem writeChunk_has (f : Snapshot) (src : Nat → UInt8) (n pos done : Nat) :
    (writeChunk sb f src n pos done).Has F ⊤ := by
  have hlast : ∀ ino r, (do
      changeEntry f.lock fun e => { e with inode := ino, inodeValid := true }
      return r : Fs ChunkResult).Has F ⊤ := fun ino r =>
    ((changeEntry_has hF.toIgnoresLocks _ _).then fun _ => Prog.has_pure _).mono le_top
  have htail : ∀ ino (changed : Bool) r, (do
      if changed then writeInode sb ino
      changeEntry f.lock fun e => { e with inode := ino, inodeValid := true }
      return r : Fs ChunkResult).Has F ⊤ := by
    intro ino changed r
    refine Prog.Has.ite ?_ (hlast ino r)
    exact has_any_bind ((writeInode_has sb hF ino).mono le_top) fun _ => hlast ino r
  unfold writeChunk
  refine (fileInode_has sb _ _).then fun ino => ?_
  refine (changeEntry_has hF.toIgnoresLocks _ _).then fun _ => ?_
  dsimp only
  refine Prog.Has.ite ?_ ?_
  · exact (((Prog.has_throw _).then fun _ => Prog.has_pure _).ite (Prog.has_pure _)).mono le_top
  refine has_any_bind (writeBlocks_has sb hF _ _ _ _ _ _) fun c => ?_
  refine Prog.Has.ite ?_ ?_
  · exact (now_has hF).then fun t => (Prog.has_pure _).then fun _ => htail _ _ _
  · exact (Prog.has_pure _).then fun _ => htail _ _ _

end Has

theorem writeChunks_has (sb : Superblock) (f : Snapshot) (src : Nat → UInt8) (n k : Nat) :
    ∀ pos done, (writeChunks sb f src n pos done k).Has offsetsKept ⊤ := by
  have hL := offsetsKept_countsWrites.toIgnoresLocks
  induction k with
  | zero =>
    intro pos done
    unfold writeChunks
    exact ((Prog.has_pure _).ite (Prog.has_throw _)).mono le_top
  | succ k ih =>
    intro pos done
    have hchunk : (withOp do
        lockEntry f.lock true
        (writeChunk sb f src n pos done).atomic.ensure (unlockEntry f.lock true)).Has
          offsetsKept ⊤ := by
      unfold withOp
      refine (Prog.has_change fun _ _ => rfl).then fun _ => ?_
      refine (Prog.Has.ensure (m := ⊤) (n := 0) ?_ (Prog.has_change fun _ _ => rfl)).mono le_top
      refine (lockEntry_has hL _ _).then fun _ => ?_
      exact ((writeChunk_has sb offsetsKept_countsWrites _ _ _ _ _).atomic.ensure
        (unlockEntry_has hL _ _)).mono le_top
    unfold writeChunks
    refine Prog.Has.ite ((Prog.has_pure _).mono le_top) (has_any_bind hchunk fun r => ?_)
    match r with
    | .past _ => exact (Prog.has_pure _).mono le_top
    | .wrote _ _ true => exact (Prog.has_pure _).mono le_top
    | .wrote _ a false => exact ih a _

/-! ## The calls -/

/-- The calls that move a descriptor. -/
inductive OffsetCall where
  | read (fd : Int) (hasBuf : Bool) (n : Nat)
  | write (fd : Int) (buf : Option (Nat → UInt8)) (n : Nat)
  | lseek (fd off whence : Int)

/-- The program of a call; the bytes a read leaves in its buffer are dropped. -/
def OffsetCall.run (sb : Superblock) : OffsetCall → Fs Int
  | read fd hasBuf n => do return (← vfsRead sb fd hasBuf n).1
  | write fd buf n => vfsWrite sb fd buf n
  | lseek fd off whence => vfsLseek sb fd off whence

/-- The write that moves its descriptor and fails: it is made through an open descriptor that may
    write and appends, it has something to write, the file does not end at the offset nor at
    `MAX_FILE_BYTES`, and there is no room for the block the file ends in. -/
structure StrayAppend (sb : Superblock) (s : FileSystem) (fd : Int) (buf : Option (Nat → UInt8))
    (n : Nat) (p : EntryPtr) (ino : Inode) : Prop where
  range : ¬ (fd < 0 ∨ fd ≥ 1024)
  isOpen : (s.files fd.toNat).inode ≠ 0
  lock : (s.files fd.toNat).lock = some p
  access : (s.files fd.toNat).flags &&& oAccmode ≠ oRdonly
  some_ : n ≠ 0
  buf : buf ≠ none
  append : (s.files fd.toNat).flags &&& oAppend ≠ 0
  seen : inodeSeen sb s p (s.files fd.toNat).inode = some ino
  apart : ino.size.toNat ≠ (s.files fd.toNat).offset
  max : ino.size.toNat < maxFileBytes
  full : OutOfSpace sb s ino (ino.size.toNat / 4096)

/-- The call is such a write. -/
def OffsetCall.Strays (sb : Superblock) (s : FileSystem) : OffsetCall → Prop
  | write fd buf n => ∃ p ino, StrayAppend sb s fd buf n p ino
  | _ => False

section Calls

variable {sb : Superblock} {s : FileSystem} {α : Type} {P : α → FileSystem → Prop}

theorem withFs_part {code : Int → α} {body : Fs α}
    (h : body.Part s P fun e s' => e ≠ .fault → ∀ c : Nat, 0 < c → P (code (-c)) s') :
    (withFs code body).Part s P fun _ _ => True := by
  unfold withFs
  rw [Prog.part_catch]
  refine h.mono (fun _ _ ha => ha) fun e s' he => ?_
  cases e with
  | fsError e =>
    refine he nofun _ ?_
    cases e <;> exact Nat.succ_pos _
  | other => exact he nofun _ (Nat.succ_pos _)
  | fault => trivial

theorem snapshot_part {fd : Nat} {E : Exn → FileSystem → Prop} {Q : Snapshot → FileSystem → Prop}
    (hbad : (s.files fd).inode = 0 → E (.fsError .ebadf) s) (hgone : E .fault s)
    (h : ∀ p, (s.files fd).inode ≠ 0 → (s.files fd).lock = some p →
      Q ⟨(s.files fd).inode, (s.files fd).flags, p⟩ s) : (snapshot fd).Part s Q E := by
  intro _
  dsimp only [id]
  by_cases h0 : (s.files fd).inode = 0
  · rw [if_pos h0]
    exact hbad h0
  · rw [if_neg h0]
    cases hl : (s.files fd).lock with
    | none => exact hgone
    | some p => exact h p h0 hl

/-- What the calls have in common: an exception is a negative answer, and `op` is given back
    whatever happens. -/
theorem descriptor_part {code : Int → α} {fd : Int} {body : Nat → Fs α}
    (hbad : fd < 0 ∨ fd ≥ 1024 → ∀ c : Nat, 0 < c → P (code (-c)) s)
    (hbody : ¬ (fd < 0 ∨ fd ≥ 1024) → ∀ s1,
      s1 = s.mapFile fd.toNat (fun f => { f with op := true }) →
      (body fd.toNat).Part s1 (fun a s2 => ∀ s3, SameOffsets s2 s3 → P a s3)
        fun e s2 => ∀ s3, SameOffsets s2 s3 → e ≠ .fault → ∀ c : Nat, 0 < c → P (code (-c)) s3) :
    (withFs code (do
      let fd ← fileAt fd
      withFd fd (body fd))).Part s P fun _ _ => True := by
  refine withFs_part ?_
  unfold fileAt
  rw [Prog.part_bind]
  by_cases hr : fd < 0 ∨ fd ≥ 1024
  · rw [if_pos hr]
    exact fun _ => hbad hr
  rw [if_neg hr, Prog.part_pure]
  unfold withFd
  rw [Prog.part_bind, Prog.part_await]
  intro _
  rw [Prog.part_ensure]
  refine (hbody hr _ rfl).mono (fun a s2 h => ?_) fun e s2 h => ?_
  · rw [Prog.part_change]
    exact h _ (mapFile_offsets fun _ => rfl)
  · rw [Prog.part_change]
    exact h _ (mapFile_offsets fun _ => rfl)

end Calls

/-- A read that fails moves nothing. -/
theorem vfsRead_part (sb : Superblock) (s : FileSystem) (fd : Int) (hasBuf : Bool) (n : Nat) :
    (vfsRead sb fd hasBuf n).Part s (fun r s' => r.1 < 0 → SameOffsets s s') fun _ _ => True := by
  have hL := offsetsKept_countsWrites.toIgnoresLocks
  unfold vfsRead
  refine descriptor_part (fun _ _ _ _ _ => rfl) fun _ s1 hs1 => ?_
  have h1 : SameOffsets s s1 := hs1 ▸ mapFile_offsets fun _ => rfl
  rw [Prog.part_bind]
  refine snapshot_part (fun _ s3 h3 _ _ _ _ => h1.trans h3) (fun s3 _ hf => absurd rfl hf)
    fun p _ _ => ?_
  generalize (⟨(s1.files fd.toNat).inode, (s1.files fd.toNat).flags, p⟩ : Snapshot) = f
  by_cases ha : f.flags &&& oAccmode = oWronly
  · rw [if_pos ha]
    exact fun s3 h3 _ _ _ _ => h1.trans h3
  rw [if_neg ha]
  by_cases hn : n = 0
  · rw [if_pos hn]
    exact fun _ _ hneg => absurd hneg (lt_irrefl _)
  rw [if_neg hn]
  by_cases hb : (!hasBuf) = true
  · rw [if_pos hb]
    exact fun s3 h3 _ _ _ _ => h1.trans h3
  rw [if_neg hb, Prog.part_bind]
  refine (lockEntry_has hL f.lock false s1).mono (fun _ s2 h2 => ?_) fun e s2 h2 s3 h3 _ _ _ _ =>
    (h1.trans h2).trans h3
  have hget : (do
      let ino ← fileInode sb f.lock f.inode
      let pos ← Prog.view fun s => (s.files fd.toNat).offset
      readRange sb ino pos (min n ssizeMax) : Fs (List UInt8)).Has offsetsKept 0 :=
    (fileInode_has sb _ _).then fun ino => (Prog.has_view _).then fun pos =>
      readRange_has sb ino pos _
  rw [Prog.part_bind]
  refine ((hget.atomic.ensure (unlockEntry_has hL f.lock false)) s2).mono (fun got s4 _ => ?_)
    fun e s4 h4 s3 h3 _ _ _ _ => ((h1.trans h2).trans h4).trans h3
  -- from here on nothing fails
  rw [Prog.part_bind, Prog.part_change, Prog.part_pure]
  intro s3 _ hneg
  have : (0 : Int) ≤ (got.length : Int) := Int.natCast_nonneg _
  exact absurd hneg (not_lt.mpr this)

/-- A seek that fails moves nothing. -/
theorem vfsLseek_part (sb : Superblock) (s : FileSystem) (fd off whence : Int) :
    (vfsLseek sb fd off whence).Part s (fun r s' => r < 0 → SameOffsets s s') fun _ _ => True := by
  have hL := offsetsKept_countsWrites.toIgnoresLocks
  unfold vfsLseek
  refine descriptor_part (fun _ _ _ _ _ => rfl) fun _ s1 hs1 => ?_
  have h1 : SameOffsets s s1 := hs1 ▸ mapFile_offsets fun _ => rfl
  rw [Prog.part_bind]
  refine snapshot_part (fun _ s3 h3 _ _ _ _ => h1.trans h3) (fun s3 _ hf => absurd rfl hf)
    fun p _ _ => ?_
  generalize (⟨(s1.files fd.toNat).inode, (s1.files fd.toNat).flags, p⟩ : Snapshot) = f
  have hend : ∀ (base : Int) (s2 : FileSystem) (past : Prop) [Decidable past],
      (base + off < 0 → past) → SameOffsets s s2 → (do
      if past then throwErrno .einval
      Prog.change (·.mapFile fd.toNat fun f => { f with offset := (base + off).toNat })
      return base + off : Fs Int).Part s2
        (fun r s' => ∀ s3, SameOffsets s' s3 → r < 0 → SameOffsets s s3)
        fun e s' => ∀ s3, SameOffsets s' s3 → e ≠ .fault → ∀ c : Nat, 0 < c → -(c : Int) < 0 →
          SameOffsets s s3 := by
    intro base s2 past _ hover h2
    by_cases ho : past
    · rw [if_pos ho]
      exact fun s3 h3 _ _ _ _ => h2.trans h3
    · rw [if_neg ho, Prog.part_bind, Prog.part_change, Prog.part_pure]
      exact fun s3 _ hneg => absurd (hover hneg) ho
  by_cases hw0 : whence = 0
  · rw [if_pos hw0, Prog.part_bind, Prog.part_pure]
    exact hend 0 s1 _ (fun h => .inr (.inr h)) h1
  by_cases hw1 : whence = 1
  · rw [if_neg hw0, if_pos hw1, Prog.part_bind, Prog.part_view, Prog.part_bind, Prog.part_pure]
    generalize toOffT _ = base
    exact hend base s1 _ (fun h => .inr (.inr h)) h1
  by_cases hw2 : whence = 2
  · rw [if_neg hw0, if_neg hw1, if_pos hw2, Prog.part_bind]
    refine (lockEntry_has hL f.lock false s1).mono (fun _ s2 h2 => ?_)
      fun e s2 h2 s3 h3 _ _ _ _ => (h1.trans h2).trans h3
    rw [Prog.part_bind]
    refine (((fileInode_has sb f.lock f.inode).atomic.ensure
      (unlockEntry_has hL f.lock false)) s2).mono (fun ino s4 h4 => ?_)
      fun e s4 h4 s3 h3 _ _ _ _ => ((h1.trans h2).trans h4).trans h3
    rw [Prog.part_bind, Prog.part_pure]
    generalize toOffT _ = base
    exact hend base s4 _ (fun h => .inr (.inr h)) ((h1.trans h2).trans h4)
  · rw [if_neg hw0, if_neg hw1, if_neg hw2]
    exact fun s3 h3 _ _ _ _ => h1.trans h3

/-- A write that fails moves its own descriptor exactly when it is a stray append. -/
theorem vfsWrite_part (sb : Superblock) (s : FileSystem) (fd : Int) (buf : Option (Nat → UInt8))
    (n : Nat) : (vfsWrite sb fd buf n).Part s (fun r s' => r < 0 →
      (SameOffsets s s' ↔ ¬ ∃ p ino, StrayAppend sb s fd buf n p ino)) fun _ _ => True := by
  unfold vfsWrite
  have hkept : ∀ {s' : FileSystem}, SameOffsets s s' →
      (∀ p ino, ¬ StrayAppend sb s fd buf n p ino) →
      (SameOffsets s s' ↔ ¬ ∃ p ino, StrayAppend sb s fd buf n p ino) :=
    fun h hno => iff_of_true h fun ⟨p, ino, hst⟩ => hno p ino hst
  refine descriptor_part (fun hr _ _ _ => hkept (fun _ => rfl) fun p ino hst => hst.range hr)
    fun hr s1 hs1 => ?_
  have h1 : SameOffsets s s1 := hs1 ▸ mapFile_offsets fun _ => rfl
  have hfile : s1.files fd.toNat = { s.files fd.toNat with op := true } := by
    rw [hs1]
    exact Function.update_self _ _ _
  have hstuck : ∀ f pos start, StuckAt sb s1 f pos start ↔ StuckAt sb s f pos start := by
    intro f pos start
    rw [hs1]
    exact StuckAt.congr rfl rfl rfl
  clear hs1
  rw [Prog.part_bind]
  refine snapshot_part (fun h0 s3 h3 _ _ _ _ => hkept (h1.trans h3) fun p ino hst => ?_)
    (fun s3 _ hf => absurd rfl hf) fun p hopen hlock => ?_
  · rw [hfile] at h0
    exact hst.isOpen h0
  rw [hfile] at hopen hlock ⊢
  dsimp only at hopen hlock ⊢
  by_cases ha : (s.files fd.toNat).flags &&& oAccmode = oRdonly
  · rw [if_pos ha]
    exact fun s3 h3 _ _ _ _ => hkept (h1.trans h3) fun p ino hst => hst.access ha
  rw [if_neg ha]
  by_cases hn : n = 0
  · rw [if_pos hn]
    exact fun _ _ hneg => absurd hneg (lt_irrefl _)
  rw [if_neg hn]
  cases buf with
  | none => exact fun s3 h3 _ _ _ _ => hkept (h1.trans h3) fun p ino hst => hst.buf rfl
  | some src =>
  dsimp only
  rw [Prog.part_bind, Prog.part_view, hfile]
  dsimp only
  have hpos : 0 < min n ssizeMax := by
    have : 0 < ssizeMax := by decide
    omega
  rw [Prog.part_bind]
  -- an append that is stuck with its file's end elsewhere is a stray one
  have hstray : ∀ ino, StrayAppend sb s fd (some src) n p ino → StuckAt sb s1
      ⟨(s.files fd.toNat).inode, (s.files fd.toNat).flags, p⟩ (s.files fd.toNat).offset
      ino.size.toNat := by
    intro ino hst
    refine (hstuck _ _ _).mpr ⟨ino, hst.seen, ?_, hst.max, hst.full⟩
    unfold chunkStart
    rw [if_pos (by simpa using hst.append)]
  have hnever : (∀ start, ¬ StuckAt sb s1
      ⟨(s.files fd.toNat).inode, (s.files fd.toNat).flags, p⟩ (s.files fd.toNat).offset start) →
      ∀ p' ino, ¬ StrayAppend sb s fd (some src) n p' ino := by
    intro hno p' ino hst
    obtain rfl : p = p' := Option.some.inj (hlock.symm.trans hst.lock)
    exact hno _ (hstray ino hst)
  refine ((writeChunks_part hpos hpos).and (writeChunks_has sb _ src _ _ _ _ s1)).mono
    (fun r s2 h => ?_) fun e s2 h s3 h3 hf _ _ _ => ?_
  rotate_left
  · exact hkept ((h1.trans h.2).trans h3) (hnever (h.1 hf))
  obtain ⟨h, h2⟩ := h
  rcases h with ⟨start, hst, rfl⟩ | ⟨hno, hdone⟩
  · -- the offset is where the first chunk was to start
    dsimp only
    rw [Prog.part_bind, Prog.part_change, if_pos ⟨rfl, rfl⟩]
    intro s3 h3 _ _ _ _
    have hmoved : (s3.files fd.toNat).offset = start := by
      rw [h3 fd.toNat]
      show (Function.update s2.files fd.toNat _ fd.toNat).offset = _
      rw [Function.update_self]
    have hothers : ∀ k, k ≠ fd.toNat → (s3.files k).offset = (s.files k).offset := by
      intro k hk
      rw [h3 k, ← h1 k, ← h2 k]
      show (Function.update s2.files fd.toNat _ k).offset = _
      rw [Function.update_of_ne hk]
    have hsame : SameOffsets s s3 ↔ start = (s.files fd.toNat).offset := by
      constructor
      · exact fun h => hmoved.symm.trans (h fd.toNat)
      · intro h k
        by_cases hk : k = fd.toNat
        · rw [hk, hmoved, h]
        · exact hothers k hk
    rw [hsame]
    constructor
    · rintro heq ⟨p', ino, hs⟩
      obtain rfl : p = p' := Option.some.inj (hlock.symm.trans hs.lock)
      exact hs.apart ((hst.unique (hstray ino hs)).symm.trans heq)
    · intro hno
      by_contra hne
      obtain ⟨ino, hseen, hstart, hmax, hout⟩ := (hstuck _ _ _).mp hst
      unfold chunkStart at hstart
      dsimp only at hseen hstart
      by_cases happ : (s.files fd.toNat).flags &&& oAppend = 0
      · rw [if_neg (by simpa using happ)] at hstart
        exact hne hstart
      · rw [if_pos (by simpa using happ)] at hstart
        refine hno ⟨p, ino, hr, hopen, hlock, ha, hn, nofun, happ, hseen, ?_, ?_, ?_⟩
        · rw [← hstart]
          exact hne
        · rw [← hstart]
          exact hmax
        · rw [← hstart]
          exact hout
  · obtain ⟨pos, done, full⟩ := r
    dsimp only at hdone ⊢
    rw [Prog.part_bind, Prog.part_change, if_neg (by omega)]
    intro s3 _ hneg
    exact absurd hneg (not_lt.mpr (Int.natCast_nonneg done))

/-- A call on a descriptor that reports an error leaves every offset as it was, unless it is an
    append through a descriptor that does not stand at the end of its file, on a disk with too
    little room for the next block. -/
theorem failed_call_offsets (sb : Superblock) {s s' : FileSystem} {c : OffsetCall} {r : Int}
    (h : (c.run sb).run s = some (.ok r, s')) (hr : r < 0) :
    SameOffsets s s' ↔ ¬ c.Strays sb s := by
  cases c with
  | read fd hasBuf n =>
    have hpart : (OffsetCall.run sb (.read fd hasBuf n)).Part s
        (fun r s' => r < 0 → SameOffsets s s') fun _ _ => True := by
      unfold OffsetCall.run
      rw [Prog.part_bind]
      exact vfsRead_part sb s fd hasBuf n
    exact iff_of_true (Prog.part_iff_run.mp hpart _ h hr) id
  | write fd buf n => exact Prog.part_iff_run.mp (vfsWrite_part sb s fd buf n) _ h hr
  | lseek fd off whence =>
    exact iff_of_true (Prog.part_iff_run.mp (vfsLseek_part sb s fd off whence) _ h hr) id

/-- A file is made and takes the last block there is; then its descriptor, which appends, is put
    back to the start. -/
def fillUp : Fs Int := do
  let fd ← vfsOpen Mkfs.tinyLayout (some [47, 97]) (oWronly ||| oCreat ||| oAppend)
  let _ ← vfsWrite Mkfs.tinyLayout fd (some fun _ => 7) 4096
  vfsLseek Mkfs.tinyLayout fd 0 0

/-- What that makes of a new file system. -/
def fullFs : FileSystem :=
  let new := FileSystem.mounted Mkfs.tinyLayout Mkfs.tinyDisk fun _ => 0
  ((fillUp.run new).map Prod.snd).getD new

/-- One byte does not fit, and the descriptor is at the end of the file. -/
theorem fullFs_write : (fullFs.files 0).offset = 0 ∧
    ∃ s', (OffsetCall.run Mkfs.tinyLayout (.write 0 (some fun _ => 7) 1)).run fullFs
      = some (.ok (-28), s') ∧ (s'.files 0).offset = 4096 := by
  have hout : ((OffsetCall.run Mkfs.tinyLayout (.write 0 (some fun _ => 7) 1)).run fullFs).map
      (fun o => (o.1.toOption, (o.2.files 0).offset)) = some (some (-28), 4096) := by decide +kernel
  obtain ⟨⟨out, s'⟩, hrun, hout⟩ := Option.map_eq_some_iff.mp hout
  obtain ⟨hcode, hoff⟩ := Prod.mk.inj hout
  cases out with
  | error e => cases hcode
  | ok r =>
    obtain rfl : r = -28 := Option.some.inj hcode
    exact ⟨by decide +kernel, s', hrun, hoff⟩

theorem failed_call_offsets_full :
    (OffsetCall.write 0 (some fun _ => 7) 1).Strays Mkfs.tinyLayout fullFs := by
  obtain ⟨hstart, s', hrun, hoff⟩ := fullFs_write
  by_contra hno
  have := (failed_call_offsets Mkfs.tinyLayout hrun (by decide)).mpr hno 0
  rw [hoff, hstart] at this
  exact absurd this (by decide)

theorem failed_call_offsets_not_kept : ¬ ∀ (s s' : FileSystem) (c : OffsetCall) (r : Int),
    (c.run Mkfs.tinyLayout).run s = some (.ok r, s') → r < 0 → SameOffsets s s' := by
  intro hall
  obtain ⟨hstart, s', hrun, hoff⟩ := fullFs_write
  have := hall fullFs s' _ _ hrun (by decide) 0
  rw [hoff, hstart] at this
  exact absurd this (by decide)

end ConcurrentFs
