/-
  ConcurrentFs.BitmapSet

  A bitmap is a set of numbers below its size, through any sequence of calls: what
  `is_set` says of a bit is what the last call that touched it made of it, the
  search and the count are those of the set, and what is stored reads back.

  A `load` may be handed blocks with any bytes in them, and the device may fail in
  the middle of one.
-/
import ConcurrentFs.Bitmap

namespace ConcurrentFs

open Lib

namespace Bitmap

/-! ## Loading, block by block -/

/-- The loop of `Bitmap::load` with `n` blocks to go, block `k` first: the words afterwards, and
    whether every read came back. -/
def loadLoop (read : Nat → Option Block) (first : Nat) :
    Nat → Nat → (Nat → UInt64) → (Nat → UInt64) × Bool
  | 0, _, words => (words, true)
  | n + 1, k, words =>
    match read (first + k) with
    | none => (words, false)
    | some blk =>
      loadLoop read first n (k + 1) fun w => if w / 512 = k then wordAt blk (w % 512) else words w

/-- Blocks `k` to `m` of the region can be read. -/
def Readable (read : Nat → Option Block) (first k m : Nat) : Prop :=
  ∀ j, k ≤ j → j ≤ m → (read (first + j)).isSome

instance (read : Nat → Option Block) (first k m : Nat) : Decidable (Readable read first k m) :=
  decidable_of_iff (∀ j < m + 1, k ≤ j → (read (first + j)).isSome)
    ⟨fun h j hk hm => h j (by omega) hk, fun h j hm hk => h j hk (by omega)⟩

theorem readable_step {read : Nat → Option Block} {first k m : Nat} {blk : Block}
    (hb : read (first + k) = some blk) :
    Readable read first k m ↔ Readable read first (k + 1) m := by
  constructor
  · intro h j hk hm
    exact h j (by omega) hm
  · intro h j hk hm
    by_cases hj : j = k
    · rw [hj, hb]
      rfl
    · exact h j (by omega) hm

/-- What the loop leaves in a word: it is read if the loop gets as far as its block. -/
theorem loadLoop_words (read : Nat → Option Block) (first : Nat) :
    ∀ (n k : Nat) (words : Nat → UInt64) (w : Nat),
      (loadLoop read first n k words).1 w =
        if k ≤ w / 512 ∧ w / 512 < k + n ∧ Readable read first k (w / 512) then
          wordAt ((read (first + w / 512)).getD (Bytes.zero 4096)) (w % 512)
        else words w := by
  intro n
  induction n with
  | zero =>
    intro k words w
    rw [loadLoop, if_neg (by omega)]
  | succ n ih =>
    intro k words w
    unfold loadLoop
    cases hb : read (first + k) with
    | none =>
      rw [if_neg]
      rintro ⟨hk, -, hr⟩
      have := hr k (Nat.le_refl k) hk
      rw [hb] at this
      cases this
    | some blk =>
      simp only
      rw [ih]
      have hstep : Readable read first k (w / 512) ↔ Readable read first (k + 1) (w / 512) :=
        readable_step hb
      by_cases hw : w / 512 = k
      · have hr : Readable read first k (w / 512) := by
          intro j hk hm
          rw [show j = k by omega, hb]
          rfl
        rw [if_neg (by omega), if_pos hw, if_pos ⟨by omega, by omega, hr⟩, hw, hb]
        rfl
      · rw [if_neg hw]
        by_cases hc : k + 1 ≤ w / 512 ∧ w / 512 < k + 1 + n ∧ Readable read first (k + 1) (w / 512)
        · rw [if_pos hc, if_pos ⟨by omega, by omega, hstep.mpr hc.2.2⟩]
        · rw [if_neg hc, if_neg]
          rintro ⟨h1, h2, h3⟩
          exact hc ⟨by omega, by omega, hstep.mp h3⟩

theorem loadLoop_done (read : Nat → Option Block) (first : Nat) :
    ∀ (n k : Nat) (words : Nat → UInt64),
      (loadLoop read first n k words).2 = true ↔ ∀ j, k ≤ j → j < k + n →
        (read (first + j)).isSome := by
  intro n
  induction n with
  | zero =>
    intro k words
    simp only [loadLoop, true_iff]
    intro j h1 h2
    omega
  | succ n ih =>
    intro k words
    unfold loadLoop
    cases hb : read (first + k) with
    | none =>
      constructor
      · intro h
        cases h
      · intro h
        have := h k (Nat.le_refl k) (by omega)
        rw [hb] at this
        cases this
    | some blk =>
      simp only
      rw [ih]
      constructor
      · intro h j h1 h2
        by_cases hj : j = k
        · rw [hj, hb]
          rfl
        · exact h j (by omega) (by omega)
      · intro h j h1 h2
        exact h j (by omega) (by omega)

/-- A bit after the loop of `load` into a bitmap. -/
theorem wordBit_loadLoop (read : Nat → Option Block) (first n : Nat) (words : Nat → UInt64)
    (i : Nat) :
    wordBit (loadLoop read first n 0 words).1 i =
      if i / 32768 < n ∧ Readable read first 0 (i / 32768) then
        bitAt ((read (first + i / 32768)).getD (Bytes.zero 4096)) (i % 32768)
      else wordBit words i := by
  unfold wordBit
  rw [loadLoop_words, show i / 64 / 512 = i / 32768 by omega]
  by_cases hc : i / 32768 < n ∧ Readable read first 0 (i / 32768)
  · rw [if_pos ⟨by omega, by omega, hc.2⟩, if_pos hc, testBit_wordAt_region]
  · rw [if_neg hc, if_neg]
    rintro ⟨-, h1, h2⟩
    exact hc ⟨by omega, h2⟩

/-- The words of a bitmap after the loop of a load into it, and whether it got to its end. -/
def loaded (b : Bitmap) (read : Nat → Option Block) (first : Nat) : (Nat → UInt64) × Bool :=
  loadLoop read first (blocksFor b.nbits) 0 b.words

/-- A load that fails has not read the last block, and all spare bits are there. -/
theorem clear_past_failed {b : Bitmap} {read : Nat → Option Block} {first : Nat}
    (h : ¬ (b.loaded read first).2 = true) {i : Nat} (hi : b.nbits ≤ i) :
    wordBit (b.loaded read first).1 i = false := by
  rw [loaded, wordBit_loadLoop, if_neg, b.clear_past i hi]
  rintro ⟨hlt, hr⟩
  refine h ((loadLoop_done read first _ 0 _).mpr fun j _ hj => hr j (by omega) ?_)
  unfold blocksFor at hlt hj
  omega

/-- `Bitmap::load` into a bitmap, and whether it returned. -/
def loadInto (b : Bitmap) (read : Nat → Option Block) (first : Nat) : Bitmap × Bool :=
  if hdone : (b.loaded read first).2 = true then
    ({ nbits := b.nbits
       words := trim b.nbits (b.loaded read first).1
       clear_past := fun i hi => by
         rw [wordBit_trim, decide_eq_false (by omega), Bool.false_and] }, true)
  else
    ({ nbits := b.nbits
       words := (b.loaded read first).1
       clear_past := fun _ hi => clear_past_failed hdone hi }, false)

theorem mk_nbits (n : Nat) (words : Nat → UInt64)
    (h : ∀ i, n ≤ i → wordBit words i = false) : (mk n words h).nbits = n := rfl

theorem mk_bit (n : Nat) (words : Nat → UInt64) (h : ∀ i, n ≤ i → wordBit words i = false)
    (i : Nat) : (mk n words h).bit i = wordBit words i := rfl

theorem loadInto_of_done {b : Bitmap} {read : Nat → Option Block} {first : Nat}
    (hdone : (b.loaded read first).2 = true) :
    ∃ b', b.loadInto read first = (b', true) ∧ b'.nbits = b.nbits ∧
      ∀ i, b'.bit i = wordBit (trim b.nbits (b.loaded read first).1) i :=
  ⟨_, dif_pos hdone, mk_nbits .., mk_bit _ _ _⟩

theorem loadInto_of_failed {b : Bitmap} {read : Nat → Option Block} {first : Nat}
    (hdone : (b.loaded read first).2 = false) :
    ∃ b', b.loadInto read first = (b', false) ∧ b'.nbits = b.nbits ∧
      ∀ i, b'.bit i = wordBit (b.loaded read first).1 i :=
  ⟨_, dif_neg (Bool.eq_false_iff.mp hdone), mk_nbits .., mk_bit _ _ _⟩

@[simp] theorem loadInto_nbits (b : Bitmap) (read : Nat → Option Block) (first : Nat) :
    (b.loadInto read first).1.nbits = b.nbits := by
  rcases Bool.eq_false_or_eq_true (b.loaded read first).2 with hdone | hdone
  · obtain ⟨b', h, hn, -⟩ := loadInto_of_done hdone
    rw [h, hn]
  · obtain ⟨b', h, hn, -⟩ := loadInto_of_failed hdone
    rw [h, hn]

/-- A bit that a load gets as far as is the one on the disk, any other is left. -/
theorem loadInto_bit {b : Bitmap} {i : Nat} (hi : i < b.nbits) (read : Nat → Option Block)
    (first : Nat) :
    (b.loadInto read first).1.bit i =
      if Readable read first 0 (i / 32768) then
        bitAt ((read (first + i / 32768)).getD (Bytes.zero 4096)) (i % 32768)
      else b.bit i := by
  have hblk : i / 32768 < blocksFor b.nbits := by
    unfold blocksFor
    omega
  have hword := wordBit_loadLoop read first (blocksFor b.nbits) b.words i
  rw [← loaded, ← bit] at hword
  simp only [hblk, true_and] at hword
  rcases Bool.eq_false_or_eq_true (b.loaded read first).2 with hdone | hdone
  · obtain ⟨b', h, -, hb⟩ := loadInto_of_done hdone
    rw [h, hb, wordBit_trim, decide_eq_true hi, Bool.true_and, hword]
  · obtain ⟨b', h, -, hb⟩ := loadInto_of_failed hdone
    rw [h, hb, hword]

theorem loadInto_done {b : Bitmap} {read : Nat → Option Block} {first : Nat}
    (h : ∀ j < blocksFor b.nbits, (read (first + j)).isSome) :
    (b.loadInto read first).2 = true := by
  have hdone : (b.loaded read first).2 = true :=
    (loadLoop_done read first (blocksFor b.nbits) 0 b.words).mpr fun j _ hj => h j (by omega)
  obtain ⟨b', h, -⟩ := loadInto_of_done hdone
  rw [h]

/-- With every read coming back, `loadInto` is `load`. -/
theorem loadInto_some (b : Bitmap) (read : Nat → Block) (first : Nat) :
    b.loadInto (fun x => some (read x)) first = (load read first b.nbits, true) := by
  refine Prod.ext (ext_bit (loadInto_nbits ..) fun i => ?_) (loadInto_done fun j _ => rfl)
  rw [load_bit]
  by_cases hi : i < b.nbits
  · have hread : Readable (fun x => some (read x)) first 0 (i / 32768) := fun j _ _ => rfl
    rw [loadInto_bit hi, if_pos hread, Option.getD_some, decide_eq_true hi, Bool.true_and]
  · rw [bit_past (by rw [loadInto_nbits]; omega), decide_eq_false hi, Bool.false_and]

/-! ## Storing -/

/-- The disk after `Bitmap::store`. -/
def store (b : Bitmap) (first : Nat) (d : Nat → Block) : Nat → Block :=
  (List.range (blocksFor b.nbits)).foldl (fun d k => Function.update d (first + k) (b.stored k)) d

theorem foldl_update_range (f : Nat → Block) (first : Nat) (d : Nat → Block) {j : Nat} :
    ∀ {n : Nat}, j < n →
      (List.range n).foldl (fun d k => Function.update d (first + k) (f k)) d
      (first + j) = f j := by
  intro n
  induction n with
  | zero =>
    intro h
    omega
  | succ n ih =>
    intro h
    rw [List.range_succ, List.foldl_append, List.foldl_cons, List.foldl_nil]
    by_cases hj : j = n
    · rw [hj, Function.update_self]
    · rw [Function.update_of_ne (by omega), ih (by omega)]

theorem store_at {b : Bitmap} {j : Nat} (hj : j < blocksFor b.nbits) (first : Nat)
    (d : Nat → Block) : b.store first d (first + j) = b.stored j :=
  foldl_update_range b.stored first d hj

/-- What is stored reads back, into any bitmap of the size. -/
theorem loadInto_store {b b' : Bitmap} (hn : b'.nbits = b.nbits) (first : Nat) (d : Nat → Block) :
    b'.loadInto (fun x => some (b.store first d x)) first = (b, true) := by
  rw [loadInto_some, hn]
  refine Prod.ext (ext_bit rfl fun i => ?_) rfl
  rw [load_bit]
  by_cases hi : i < b.nbits
  · have hblk : i / 32768 < blocksFor b.nbits := by
      unfold blocksFor
      omega
    rw [store_at hblk, bitAt_stored b _ (Nat.mod_lt _ (by omega)), decide_eq_true hi,
      Bool.true_and, show 32768 * (i / 32768) + i % 32768 = i by omega]
  · rw [bit_past (b := b) (by omega), decide_eq_false hi, Bool.false_and]

/-! ## Counting -/

/-- The bits of some words, word by word. -/
theorem countP_words (p : Nat → Bool) (n : Nat) :
    ((List.range n).map fun w => (List.range 64).countP fun k => p (w * 64 + k)).sum
      = (List.range (n * 64)).countP p := by
  induction n with
  | zero => rfl
  | succ n ih =>
    rw [List.range_succ (n := n), List.map_append, List.sum_append, ih, Nat.succ_mul,
      List.range_add,
      List.countP_append, List.countP_map]
    simp only [List.map_cons, List.map_nil, List.sum_cons, List.sum_nil, Nat.add_zero]
    rfl

theorem popcount_words (b : Bitmap) (w : Nat) :
    popcount (b.words w) = (List.range 64).countP fun k => b.bit (w * 64 + k) := by
  refine List.countP_congr fun k hk => ?_
  rw [b.bit_word w (List.mem_range.mp hk)]

/-- Nothing is counted past the end. -/
theorem countP_bits (b : Bitmap) {m : Nat} (h : b.nbits ≤ m) :
    (List.range m).countP b.bit = (List.range b.nbits).countP b.bit := by
  obtain ⟨k, rfl⟩ := Nat.exists_eq_add_of_le h
  rw [List.range_add, List.countP_append, Nat.add_eq_left, List.countP_map,
    List.countP_eq_zero]
  intro j _
  rw [Function.comp_apply, bit_past (Nat.le_add_right _ _)]
  exact Bool.false_ne_true

theorem toNat_countSet {b : Bitmap} (h : b.nbits < 2 ^ 32) :
    b.countSet.toNat = (List.range b.nbits).countP b.bit := by
  have hsum : ((List.range b.wordCount).map fun w => popcount (b.words w)).sum
      = (List.range b.nbits).countP b.bit := by
    rw [List.map_congr_left fun w _ => b.popcount_words w, countP_words,
      b.countP_bits b.nbits_le_wordCount]
  have hle : (List.range b.nbits).countP b.bit ≤ b.nbits := by
    have := List.countP_le_length (p := b.bit) (l := List.range b.nbits)
    rwa [List.length_range] at this
  rw [countSet, hsum, UInt32.toNat_ofNat_of_lt' (by simp only [UInt32.size]; omega)]

/-! ## Sequences of calls -/

/-- A call that may change a bitmap, or does not. -/
inductive Call where
  | set (i : Nat)
  | clear (i : Nat)
  | load (read : Nat → Option Block) (first : Nat)
  | store (first : Nat) (d : Nat → Block)

/-- The bitmap after a call.  One that is out of range throws and changes nothing. -/
def Call.run (b : Bitmap) : Call → Bitmap
  | .set i => (b.set i).getD b
  | .clear i => (b.clear i).getD b
  | .load read first => (b.loadInto read first).1
  | .store .. => b

/-- What a call makes of bit `i`, if it touches it. -/
def Call.touches (i : Nat) : Call → Option Bool
  | .set j => if j = i then some true else none
  | .clear j => if j = i then some false else none
  | .load read first =>
    if Readable read first 0 (i / 32768) then
      some (bitAt ((read (first + i / 32768)).getD (Bytes.zero 4096)) (i % 32768))
    else none
  | .store .. => none

/-- What the last call that touched bit `i` made of it; clear to begin with. -/
def lastValue (cs : List Call) (i : Nat) : Bool :=
  (cs.reverse.findSome? (Call.touches i)).getD false

@[simp] theorem run_nbits (b : Bitmap) (c : Call) : (c.run b).nbits = b.nbits := by
  cases c with
  | set i =>
    rw [Call.run]
    by_cases h : i < b.nbits
    · rw [set_of_lt h, Option.getD_some, put_nbits]
    · rw [Bitmap.set, dif_pos (by omega), Option.getD_none]
  | clear i =>
    rw [Call.run]
    by_cases h : i < b.nbits
    · rw [clear_of_lt h, Option.getD_some, put_nbits]
    · rw [Bitmap.clear, if_pos (by omega), Option.getD_none]
  | load read first => rw [Call.run, loadInto_nbits]
  | store first d => rw [Call.run]

/-- One call: the bit it touches is what it makes of it, every other stays. -/
theorem run_bit {b : Bitmap} {i : Nat} (hi : i < b.nbits) (c : Call) :
    (c.run b).bit i = (c.touches i).getD (b.bit i) := by
  cases c with
  | set j =>
    by_cases hj : j < b.nbits
    · rw [Call.run, set_of_lt hj, Option.getD_some, put_bit hj, Call.touches]
      by_cases h : j = i
      · rw [if_pos h.symm, if_pos h, Option.getD_some]
      · rw [if_neg (Ne.symm h), if_neg h, Option.getD_none]
    · rw [Call.run, Bitmap.set, dif_pos (by omega), Option.getD_none, Call.touches,
        if_neg (by omega), Option.getD_none]
  | clear j =>
    by_cases hj : j < b.nbits
    · rw [Call.run, clear_of_lt hj, Option.getD_some, put_bit hj, Call.touches]
      by_cases h : j = i
      · rw [if_pos h.symm, if_pos h, Option.getD_some]
      · rw [if_neg (Ne.symm h), if_neg h, Option.getD_none]
    · rw [Call.run, Bitmap.clear, if_pos (by omega), Option.getD_none, Call.touches,
        if_neg (by omega), Option.getD_none]
  | load read first =>
    rw [Call.run, loadInto_bit hi, Call.touches]
    split <;> rfl
  | store first d => rfl

theorem foldl_run_nbits (b : Bitmap) (cs : List Call) :
    (cs.foldl Call.run b).nbits = b.nbits := by
  induction cs generalizing b with
  | nil => rfl
  | cons c cs ih => rw [List.foldl_cons, ih, run_nbits]

theorem foldl_run_bit (nbits : Nat) (cs : List Call) {i : Nat} (hi : i < nbits) :
    (cs.foldl Call.run (ofSize nbits)).bit i = lastValue cs i := by
  induction cs using List.reverseRecOn with
  | nil => exact ofSize_bit nbits i
  | append_singleton cs c ih =>
    rw [List.foldl_append, List.foldl_cons, List.foldl_nil,
      run_bit (by rw [foldl_run_nbits]; exact hi), ih, lastValue, lastValue, List.reverse_append,
      List.reverse_singleton, List.singleton_append, List.findSome?_cons]
    cases c.touches i <;> rfl

/-- A bitmap is a faithful set of bits, whatever is called on it. -/
theorem faithful (nbits : UInt32) (cs : List Call) :
    let b := cs.foldl Call.run (ofSize nbits.toNat)
    (∀ i, nbits.toNat ≤ i → wordBit b.words i = false) ∧
    (∀ i < nbits.toNat, b.isSet i = some (lastValue cs i)) ∧
    (∀ i, b.findFirstFree = some i ↔
      i < nbits.toNat ∧ lastValue cs i = false ∧ ∀ j < i, lastValue cs j = true) ∧
    (b.findFirstFree = none ↔ ∀ i < nbits.toNat, lastValue cs i = true) ∧
    b.countSet.toNat = (List.range nbits.toNat).countP (lastValue cs) ∧
    ∀ (first : Nat) (d : Nat → Block) (b' : Bitmap),
      (∀ i < nbits.toNat,
        ((b.store first d (first + i / 8 / 4096)).get (i / 8 % 4096)).toNat.testBit
        (i % 8) = lastValue cs i) ∧
      (b'.nbits = nbits.toNat →
        b'.loadInto (fun x => some (b.store first d x)) first = (b, true)) := by
  intro b
  have hn : b.nbits = nbits.toNat := foldl_run_nbits _ cs
  have hbit : ∀ i < nbits.toNat, b.bit i = lastValue cs i := fun i hi =>
    foldl_run_bit nbits.toNat cs hi
  have hsome : ∀ i, b.findFirstFree = some i →
      i < nbits.toNat ∧ lastValue cs i = false ∧ ∀ j < i, lastValue cs j = true := by
    intro i h
    obtain ⟨hlt, hclear, hset⟩ := findFirstFree_some h
    rw [hn] at hlt
    exact ⟨hlt, (hbit i hlt).symm.trans hclear, fun j hj =>
      (hbit j (by omega)).symm.trans (hset j hj)⟩
  have hnone : b.findFirstFree = none → ∀ i < nbits.toNat, lastValue cs i = true := by
    intro h i hi
    exact (hbit i hi).symm.trans (findFirstFree_none h i (by omega))
  refine ⟨fun i hi => b.clear_past i (by omega), ?_, ?_, ?_, ?_, ?_⟩
  · intro i hi
    rw [isSet_of_lt (by omega), hbit i hi]
  · intro i
    constructor
    · exact hsome i
    · rintro ⟨hlt, hclear, hset⟩
      -- whatever is found is the least clear bit too
      cases hf : b.findFirstFree with
      | none =>
        have := hnone hf i hlt
        rw [hclear] at this
        cases this
      | some k =>
        obtain ⟨-, hk, hks⟩ := hsome k hf
        rcases Nat.lt_trichotomy i k with h | h | h
        · rw [hks i h] at hclear
          cases hclear
        · rw [h]
        · rw [hset k h] at hk
          cases hk
  · constructor
    · exact hnone
    · intro h
      cases hf : b.findFirstFree with
      | none => rfl
      | some k =>
        obtain ⟨hlt, hk, -⟩ := hsome k hf
        rw [h k hlt] at hk
        cases hk
  · rw [toNat_countSet (by have := nbits.toNat_lt; omega), hn]
    refine List.countP_congr fun i hi => ?_
    rw [hbit i (List.mem_range.mp hi)]
  · intro first d b'
    refine ⟨?_, fun h => loadInto_store (h.trans hn.symm) first d⟩
    intro i hi
    have hblk : i / 32768 < blocksFor b.nbits := by
      unfold blocksFor
      omega
    have h := bitAt_stored b (i / 32768) (j := i % 32768) (Nat.mod_lt _ (by omega))
    rw [show 32768 * (i / 32768) + i % 32768 = i by omega, hbit i hi] at h
    rw [show i / 8 / 4096 = i / 32768 by omega, store_at hblk, ← h, bitAt,
      show i % 32768 / 8 = i / 8 % 4096 by omega, show i % 32768 % 8 = i % 8 by omega]

end Bitmap

end ConcurrentFs
