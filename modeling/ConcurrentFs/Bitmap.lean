/-
  ConcurrentFs.Bitmap

  One bit per thing (src/bitmap.cpp): in memory as 64-bit words, on the disk as
  bytes.  `Bitmap` carries the promise its header makes, that bits past the end
  are always clear, so a search for a clear bit needs no mask.  The bytes of a
  bitmap block are changed in place by `flip` (src/alloc.cpp).

  Both sides are given a view as plain functions from bit numbers, `Bitmap.bit`
  and `bitAt`, and every operation a lemma that says what it does to the view.
-/
import ConcurrentFs.Superblock
import Mathlib.Data.Nat.Bitwise

namespace ConcurrentFs

open Lib

/-- Bit `i` of a word array. -/
def wordBit (words : Nat → UInt64) (i : Nat) : Bool := (words (i / 64)).toNat.testBit (i % 64)

/-- `Bitmap`: the bits of things numbered `0` to `nbits - 1`. -/
structure Bitmap where
  nbits : Nat
  words : Nat → UInt64
  /-- Bits past `nbits` are always kept clear. -/
  clear_past : ∀ i, nbits ≤ i → wordBit words i = false

namespace Bitmap

/-- Bit `i`, clear past the end. -/
def bit (b : Bitmap) (i : Nat) : Bool := wordBit b.words i

/-- `bit_mask`. -/
def bitMask (i : Nat) : UInt64 := 1 <<< UInt64.ofNat (i % 64)

theorem toNat_bitMask (i : Nat) : (bitMask i).toNat = 2 ^ (i % 64) := by
  have h : i % 64 < 64 := Nat.mod_lt _ (by omega)
  have hp : 2 ^ (i % 64) < 2 ^ 64 := Nat.pow_lt_pow_right (by omega) h
  unfold bitMask
  rw [UInt64.toNat_shiftLeft, UInt64.toNat_ofNat_of_lt' (by simp only [UInt64.size]; omega),
    Nat.mod_eq_of_lt h, UInt64.toNat_one, Nat.one_shiftLeft, Nat.mod_eq_of_lt hp]

/-- What `|= bit_mask(i)` does to one word. -/
theorem wordBit_or (words : Nat → UInt64) (i j : Nat) :
    wordBit (Function.update words (i / 64) (words (i / 64) ||| bitMask i)) j
      = (decide (j = i) || wordBit words j) := by
  unfold wordBit
  by_cases hw : j / 64 = i / 64
  · rw [hw, Function.update_self, UInt64.toNat_or, Nat.testBit_or, toNat_bitMask,
      Nat.testBit_two_pow, Bool.or_comm]
    congr 1
    exact decide_eq_decide.mpr (by omega)
  · rw [Function.update_of_ne hw, decide_eq_false (by rintro rfl; exact hw rfl), Bool.false_or]

/-- What `&= ~bit_mask(i)` does to one word. -/
theorem wordBit_andNot (words : Nat → UInt64) (i j : Nat) :
    wordBit (Function.update words (i / 64) (words (i / 64) &&& ~~~ bitMask i)) j
      = (!decide (j = i) && wordBit words j) := by
  unfold wordBit
  by_cases hw : j / 64 = i / 64
  · have hlt : j % 64 < 64 := Nat.mod_lt _ (by omega)
    rw [hw, Function.update_self, UInt64.toNat_and, Nat.testBit_and, UInt64.toNat_not,
      toNat_bitMask]
    have : (UInt64.size - 1 - 2 ^ (i % 64)).testBit (j % 64) = !decide (j = i) := by
      have h := Nat.testBit_two_pow_sub_succ (n := 64) (x := 2 ^ (i % 64))
        (Nat.pow_lt_pow_right (by omega) (Nat.mod_lt _ (by omega))) (j % 64)
      have hs : UInt64.size - 1 - 2 ^ (i % 64) = 2 ^ 64 - (2 ^ (i % 64) + 1) := by
        simp only [UInt64.size]; omega
      rw [hs, h, Nat.testBit_two_pow, decide_eq_true hlt, Bool.true_and]
      congr 1
      exact decide_eq_decide.mpr (by omega)
    rw [this, Bool.and_comm]
  · rw [Function.update_of_ne hw, decide_eq_false (by rintro rfl; exact hw rfl), Bool.not_false,
      Bool.true_and]

/-- `Bitmap::is_set`; `none` is the `std::out_of_range`. -/
def isSet (b : Bitmap) (i : Nat) : Option Bool :=
  if i ≥ b.nbits then none else some (b.words (i / 64) &&& bitMask i != 0)

/-- `Bitmap::set`. -/
def set (b : Bitmap) (i : Nat) : Option Bitmap :=
  if h : i ≥ b.nbits then none
  else some
    { nbits := b.nbits
      words := Function.update b.words (i / 64) (b.words (i / 64) ||| bitMask i)
      clear_past := fun j hj => by
        rw [wordBit_or, b.clear_past j hj, decide_eq_false (by omega)]; rfl }

/-- `Bitmap::clear`. -/
def clear (b : Bitmap) (i : Nat) : Option Bitmap :=
  if i ≥ b.nbits then none
  else some
    { nbits := b.nbits
      words := Function.update b.words (i / 64) (b.words (i / 64) &&& ~~~ bitMask i)
      clear_past := fun j hj => by
        rw [wordBit_andNot, b.clear_past j hj, Bool.and_false] }

/-- How many words `words_` has. -/
def wordCount (b : Bitmap) : Nat := blocksFor b.nbits * 512

/-- `__builtin_ctzll`: the place of the lowest set bit. -/
def ctz (w : UInt64) : Nat := ((List.range 64).find? fun k => w.toNat.testBit k).getD 64

/-- The loop of `find_first_free`, from word `w` on with `n` words to go. -/
def findFrom (b : Bitmap) (w : Nat) : Nat → Option Nat
  | 0 => none
  | n + 1 =>
    if b.words w = ~~~ 0 then b.findFrom (w + 1) n
    else
      let i := w * 64 + ctz (~~~ b.words w)
      if i ≥ b.nbits then none else some i

/-- `Bitmap::find_first_free`. -/
def findFirstFree (b : Bitmap) : Option Nat := b.findFrom 0 b.wordCount

/-- `__builtin_popcountll`. -/
def popcount (w : UInt64) : Nat := (List.range 64).countP fun k => w.toNat.testBit k

/-- `Bitmap::count_set`, a `uint32_t`. -/
def countSet (b : Bitmap) : UInt32 :=
  UInt32.ofNat (((List.range b.wordCount).map fun w => popcount (b.words w)).sum)

/-- Word `j` of a bitmap block. -/
def wordAt (b : Block) (j : Nat) : UInt64 := Codec.u64.symm (b.slice (8 * j) 8)

/-- The words `Bitmap::load` keeps of a bitmap of `nbits` bits whose blocks start at `first`. -/
def loadWords (read : Nat → Block) (first nbits : Nat) (w : Nat) : UInt64 :=
  let raw := wordAt (read (first + w / 512)) (w % 512)
  if w = nbits / 64 ∧ nbits % 64 ≠ 0 then raw &&& (bitMask nbits - 1)
  -- the spare words
  else if w ≥ (nbits + 63) / 64 then 0
  else raw

end Bitmap

/-! ## Bits on the disk -/

/-- Bit `i` of a bitmap block: bit `i % 8` of byte `i / 8`. -/
def bitAt (b : Block) (i : Nat) : Bool := (b.get (i / 8)).toNat.testBit (i % 8)

/-- `flip`: sets or clears one bit of a bitmap block. -/
def flip (b : Block) (bit : Nat) (value : Bool) : Block :=
  let bit := bit % 32768
  let mask : UInt8 := 1 <<< UInt8.ofNat (bit % 8)
  let old := b.get (bit / 8)
  b.patch (bit / 8) fun _ : Fin 1 => if value then old ||| mask else old &&& ~~~ mask

theorem toNat_byteMask (i : Nat) : ((1 : UInt8) <<< UInt8.ofNat (i % 8)).toNat = 2 ^ (i % 8) := by
  have h : i % 8 < 8 := Nat.mod_lt _ (by omega)
  have hp : 2 ^ (i % 8) < 2 ^ 8 := Nat.pow_lt_pow_right (by omega) h
  rw [UInt8.toNat_shiftLeft, UInt8.toNat_ofNat_of_lt' (by simp only [UInt8.size]; omega),
    Nat.mod_eq_of_lt h, UInt8.toNat_one, Nat.one_shiftLeft, Nat.mod_eq_of_lt hp]

/-- One byte of a bitmap block, with a bit set or cleared. -/
theorem testBit_flipByte (old : UInt8) (value : Bool) (i : Nat) {k : Nat} (hk : k < 8) :
    (if value then old ||| 1 <<< UInt8.ofNat (i % 8)
      else old &&& ~~~ (1 <<< UInt8.ofNat (i % 8))).toNat.testBit k
      = if k = i % 8 then value else old.toNat.testBit k := by
  have hi : i % 8 < 8 := Nat.mod_lt _ (by omega)
  cases value with
  | true =>
    rw [if_pos rfl, UInt8.toNat_or, Nat.testBit_or, toNat_byteMask, Nat.testBit_two_pow]
    by_cases hki : k = i % 8
    · simp [hki]
    · simp [hki, Ne.symm hki]
  | false =>
    rw [if_neg (by simp), UInt8.toNat_and, Nat.testBit_and, UInt8.toNat_not, toNat_byteMask]
    have h := Nat.testBit_two_pow_sub_succ (n := 8) (x := 2 ^ (i % 8))
      (Nat.pow_lt_pow_right (by omega) hi) k
    have hs : UInt8.size - 1 - 2 ^ (i % 8) = 2 ^ 8 - (2 ^ (i % 8) + 1) := by
      simp only [UInt8.size]; omega
    rw [hs, h, Nat.testBit_two_pow, decide_eq_true hk]
    by_cases hki : k = i % 8
    · simp [hki]
    · simp [hki, Ne.symm hki]

/-- A flipped bit has its new value, every other bit the one it had. -/
theorem bitAt_flip (b : Block) (i : Nat) (value : Bool) {j : Nat} (hj : j < 32768) :
    bitAt (flip b i value) j = if j = i % 32768 then value else bitAt b j := by
  have hi : i % 32768 < 32768 := Nat.mod_lt _ (by omega)
  unfold bitAt flip
  rw [Bytes.get_patch _ _ _ (by omega)]
  by_cases hb : j / 8 = i % 32768 / 8
  · rw [if_pos (by omega), Bytes.get_of_lt _ (by omega),
      testBit_flipByte _ _ _ (Nat.mod_lt _ (by omega)),
      hb]
    by_cases hk : j % 8 = i % 32768 % 8
    · rw [if_pos hk, if_pos (by omega)]
    · rw [if_neg hk, if_neg (by rintro rfl; exact hk rfl)]
  · rw [if_neg (by omega), if_neg (by rintro rfl; exact hb rfl)]

/-- A bitmap block is its bits. -/
theorem block_ext_bitAt {a b : Block} (h : ∀ j < 32768, bitAt a j = bitAt b j) : a = b := by
  refine Bytes.ext_get fun i hi => UInt8.toNat_inj.mp (Nat.eq_of_testBit_eq fun k => ?_)
  by_cases hk : k < 8
  · have := h (8 * i + k) (by omega)
    unfold bitAt at this
    rwa [show (8 * i + k) / 8 = i by omega, show (8 * i + k) % 8 = k by omega] at this
  · have hp : 2 ^ 8 ≤ 2 ^ k := Nat.pow_le_pow_right (by omega) (by omega)
    have ha := (a.get i).toNat_lt
    have hb := (b.get i).toNat_lt
    rw [Nat.testBit_lt_two_pow (by omega), Nat.testBit_lt_two_pow (by omega)]

namespace Bitmap

/-! ## The view of a bitmap in memory -/

variable {b b' : Bitmap} {i j : Nat}

theorem bit_past (h : b.nbits ≤ i) : b.bit i = false := b.clear_past i h

theorem isSet_of_lt (h : i < b.nbits) : b.isSet i = some (b.bit i) := by
  unfold isSet
  rw [if_neg (by omega)]
  congr 1
  unfold bit wordBit
  rw [Bool.eq_iff_iff, bne_iff_ne, ne_eq, ← UInt64.toNat_inj, UInt64.toNat_and, toNat_bitMask,
    UInt64.toNat_zero, Nat.and_two_pow]
  cases ((b.words (i / 64)).toNat.testBit (i % 64)) <;> simp

theorem isSet_of_le (h : b.nbits ≤ i) : b.isSet i = none := if_pos h

/-- The bitmap with bit `i` given the value `v`, for `i` below its size. -/
def put (b : Bitmap) (i : Nat) (v : Bool) : Bitmap := ((if v then b.set i else b.clear i)).getD b

theorem set_of_lt (h : i < b.nbits) : b.set i = some (b.put i true) := by
  simp [put, set, show ¬ b.nbits ≤ i by omega]

theorem clear_of_lt (h : i < b.nbits) : b.clear i = some (b.put i false) := by
  simp [put, clear, show ¬ b.nbits ≤ i by omega]

@[simp] theorem put_nbits (b : Bitmap) (i : Nat) (v : Bool) : (b.put i v).nbits = b.nbits := by
  unfold put set clear
  cases v <;> simp only [Bool.false_eq_true, if_true, if_false] <;> split <;> rfl

theorem put_bit (h : i < b.nbits) (v : Bool) (j : Nat) :
    (b.put i v).bit j = if j = i then v else b.bit j := by
  cases v with
  | true =>
    simp only [put, set, ge_iff_le, show ¬ b.nbits ≤ i by omega, dif_neg, not_false_eq_true,
      if_true, Option.getD_some, bit, wordBit_or]
    by_cases hj : j = i <;> simp [hj]
  | false =>
    simp only [put, clear, ge_iff_le, show ¬ b.nbits ≤ i by omega, if_false, Bool.false_eq_true,
      Option.getD_some, bit, wordBit_andNot]
    by_cases hj : j = i <;> simp [hj]

/-- A bitmap is its size and its bits. -/
theorem ext_bit (hn : b.nbits = b'.nbits) (h : ∀ i, b.bit i = b'.bit i) : b = b' := by
  have hw : b.words = b'.words := by
    funext w
    refine UInt64.toNat_inj.mp (Nat.eq_of_testBit_eq fun k => ?_)
    by_cases hk : k < 64
    · have := h (64 * w + k)
      unfold bit wordBit at this
      rwa [show (64 * w + k) / 64 = w by omega, show (64 * w + k) % 64 = k by omega] at this
    · have hp : 2 ^ 64 ≤ 2 ^ k := Nat.pow_le_pow_right (by omega) (by omega)
      have ha := (b.words w).toNat_lt
      have hb := (b'.words w).toNat_lt
      rw [Nat.testBit_lt_two_pow (by omega), Nat.testBit_lt_two_pow (by omega)]
  cases b; cases b'
  subst hn hw
  rfl

/-! ## The search for a clear bit -/

theorem ctz_spec {w : UInt64} (h : w ≠ 0) :
    ctz w < 64 ∧ w.toNat.testBit (ctz w) = true ∧ ∀ k < ctz w, w.toNat.testBit k = false := by
  have hex : ∃ k < 64, w.toNat.testBit k = true := by
    by_contra hno
    push Not at hno
    refine h (UInt64.toNat_inj.mp (Nat.eq_of_testBit_eq fun k => ?_))
    rw [UInt64.toNat_zero, Nat.zero_testBit]
    by_cases hk : k < 64
    · simpa using hno k hk
    · have hp : 2 ^ 64 ≤ 2 ^ k := Nat.pow_le_pow_right (by omega) (by omega)
      have := w.toNat_lt
      exact Nat.testBit_lt_two_pow (by omega)
  unfold ctz
  cases hf : (List.range 64).find? fun k => w.toNat.testBit k with
  | none =>
    obtain ⟨k, hk, hb⟩ := hex
    have := List.find?_eq_none.mp hf k (List.mem_range.mpr hk)
    exact absurd hb this
  | some k =>
    rw [List.find?_range_eq_some] at hf
    exact ⟨List.mem_range.mp hf.2.1, hf.1, fun j hj => by simpa using hf.2.2 j hj⟩

theorem bit_word (b : Bitmap) (w : Nat) {k : Nat} (hk : k < 64) :
    b.bit (w * 64 + k) = (b.words w).toNat.testBit k := by
  unfold bit wordBit
  rw [show (w * 64 + k) / 64 = w by omega, show (w * 64 + k) % 64 = k by omega]

theorem testBit_not {w : UInt64} {k : Nat} (hk : k < 64) :
    (~~~ w).toNat.testBit k = !w.toNat.testBit k := by
  rw [UInt64.toNat_not]
  have h := Nat.testBit_two_pow_sub_succ (n := 64) (x := w.toNat) w.toNat_lt k
  rw [show UInt64.size - 1 - w.toNat = 2 ^ 64 - (w.toNat + 1) by simp only [UInt64.size]; omega, h,
    decide_eq_true hk, Bool.true_and]

/-- What the search has found when it stops, given that it skipped only set bits so far. -/
theorem findFrom_spec (b : Bitmap) :
    ∀ (n w : Nat), (∀ i < w * 64, b.bit i = true) → b.nbits ≤ (w + n) * 64 →
      match b.findFrom w n with
      | some i => i < b.nbits ∧ b.bit i = false ∧ ∀ j < i, b.bit j = true
      | none => ∀ i < b.nbits, b.bit i = true := by
  intro n
  induction n with
  | zero =>
    intro w hset hn i hi
    exact hset i (by omega)
  | succ n ih =>
    intro w hset hn
    unfold findFrom
    by_cases hfull : b.words w = ~~~ 0
    · rw [if_pos hfull]
      refine ih (w + 1) (fun i hi => ?_) (by omega)
      by_cases hw : i < w * 64
      · exact hset i hw
      · have hb := b.bit_word w (k := i - w * 64) (by omega)
        rw [show w * 64 + (i - w * 64) = i by omega, hfull, testBit_not (by omega)] at hb
        simpa using hb
    · rw [if_neg hfull]
      have hne : ~~~ b.words w ≠ 0 := by
        intro h
        apply hfull
        rw [← h, UInt64.not_not]
      obtain ⟨hlt, hbit, hbelow⟩ := ctz_spec hne
      have hcl : b.bit (w * 64 + ctz (~~~ b.words w)) = false := by
        rw [bit_word _ _ hlt]
        rw [testBit_not hlt] at hbit
        simpa using hbit
      have hall : ∀ j < w * 64 + ctz (~~~ b.words w), b.bit j = true := by
        intro j hj
        by_cases hw : j < w * 64
        · exact hset j hw
        · have hk := hbelow (j - w * 64) (by omega)
          have hb := b.bit_word w (k := j - w * 64) (by omega)
          rw [testBit_not (by omega)] at hk
          rw [show w * 64 + (j - w * 64) = j by omega] at hb
          rw [hb]
          simpa using hk
      by_cases hpast : w * 64 + ctz (~~~ b.words w) ≥ b.nbits
      · simp only [if_pos hpast]
        intro i hi
        exact hall i (by omega)
      · simp only [if_neg hpast]
        exact ⟨by omega, hcl, hall⟩

theorem nbits_le_wordCount (b : Bitmap) : b.nbits ≤ b.wordCount * 64 := by
  unfold wordCount blocksFor
  omega

/-- What is found is the lowest clear bit. -/
theorem findFirstFree_some (h : b.findFirstFree = some i) :
    i < b.nbits ∧ b.bit i = false ∧ ∀ j < i, b.bit j = true := by
  have := b.findFrom_spec b.wordCount 0 (by omega) (by have := b.nbits_le_wordCount; omega)
  unfold findFirstFree at h
  rwa [h] at this

/-- Nothing is found when every bit is set. -/
theorem findFirstFree_none (h : b.findFirstFree = none) : ∀ i < b.nbits, b.bit i = true := by
  have := b.findFrom_spec b.wordCount 0 (by omega) (by have := b.nbits_le_wordCount; omega)
  unfold findFirstFree at h
  rwa [h] at this

/-! ## Loading -/

/-- A number is its lowest byte and the rest, bit by bit. -/
theorem testBit_byte_add {a : Nat} (ha : a < 256) (r k : Nat) :
    (a + 256 * r).testBit k = if k < 8 then a.testBit k else r.testBit (k - 8) := by
  have := Nat.testBit_two_pow_mul_add (i := 8) r (b := a) (by omega) k
  rw [← this]
  congr 1
  omega

theorem toNat_u32_symm (g : Bytes 4) :
    (Codec.u32.symm g).toNat = (g.get 0).toNat + 256 * ((g.get 1).toNat + 256 * ((g.get 2).toNat
      + 256 * (g.get 3).toNat)) := by
  have h0 := (g 0).toNat_lt
  have h1 := (g 1).toNat_lt
  have h2 := (g 2).toNat_lt
  have h3 := (g 3).toNat_lt
  show (UInt32.ofNat _).toNat = _
  rw [UInt32.toNat_ofNat_of_lt' (by simp only [UInt32.size]; omega)]
  rw [Bytes.get_of_lt g (by omega), Bytes.get_of_lt g (by omega), Bytes.get_of_lt g (by omega),
    Bytes.get_of_lt g (by omega)]
  show (g 0).toNat + 256 * (g 1).toNat + 65536 * (g 2).toNat + 16777216 * (g 3).toNat
    = (g 0).toNat + 256 * ((g 1).toNat + 256 * ((g 2).toNat + 256 * (g 3).toNat))
  omega

theorem testBit_u32_symm (g : Bytes 4) {k : Nat} (hk : k < 32) :
    (Codec.u32.symm g).toNat.testBit k = (g.get (k / 8)).toNat.testBit (k % 8) := by
  rw [toNat_u32_symm, testBit_byte_add (g.get 0).toNat_lt, testBit_byte_add (g.get 1).toNat_lt,
    testBit_byte_add (g.get 2).toNat_lt]
  by_cases h0 : k < 8
  · rw [if_pos h0, show k / 8 = 0 by omega, Nat.mod_eq_of_lt h0]
  · rw [if_neg h0]
    by_cases h1 : k < 16
    · rw [if_pos (by omega), show k / 8 = 1 by omega, show k % 8 = k - 8 by omega]
    · rw [if_neg (by omega)]
      by_cases h2 : k < 24
      · rw [if_pos (by omega), show k / 8 = 2 by omega, show k % 8 = k - 8 - 8 by omega]
      · rw [if_neg (by omega), show k / 8 = 3 by omega, show k % 8 = k - 8 - 8 - 8 by omega]

theorem toNat_u64_symm (f : Bytes 8) :
    (Codec.u64.symm f).toNat = (Codec.u32.symm (f.slice 0 4)).toNat
      + 4294967296 * (Codec.u32.symm (f.slice 4 4)).toNat := by
  have hl := (Codec.u32.symm (f.slice 0 4)).toNat_lt
  have hh := (Codec.u32.symm (f.slice 4 4)).toNat_lt
  have h : Codec.u64.symm f = UInt64.ofNat (((Codec.pair Codec.u32 Codec.u32).symm f).1.toNat
      + 4294967296 * ((Codec.pair Codec.u32 Codec.u32).symm f).2.toNat) := rfl
  rw [h, Codec.pair_symm_apply, UInt64.toNat_ofNat_of_lt' (by simp only [UInt64.size]; omega)]

theorem testBit_u64_symm (f : Bytes 8) {k : Nat} (hk : k < 64) :
    (Codec.u64.symm f).toNat.testBit k = (f.get (k / 8)).toNat.testBit (k % 8) := by
  rw [toNat_u64_symm, Nat.add_comm]
  have h := Nat.testBit_two_pow_mul_add (i := 32) (Codec.u32.symm (f.slice 4 4)).toNat
    (b := (Codec.u32.symm (f.slice 0 4)).toNat) (Codec.u32.symm (f.slice 0 4)).toNat_lt k
  rw [show 4294967296 * (Codec.u32.symm (f.slice 4 4)).toNat
    = 2 ^ 32 * (Codec.u32.symm (f.slice 4 4)).toNat from rfl, h]
  by_cases hl : k < 32
  · rw [if_pos hl, testBit_u32_symm _ hl, Bytes.get_slice _ _ (by omega), Nat.zero_add]
  · rw [if_neg hl, testBit_u32_symm _ (by omega), Bytes.get_slice _ _ (by omega),
      show 4 + (k - 32) / 8 = k / 8 by omega, show (k - 32) % 8 = k % 8 by omega]

theorem testBit_wordAt (b : Block) (j : Nat) {k : Nat} (hk : k < 64) :
    (wordAt b j).toNat.testBit k = bitAt b (64 * j + k) := by
  unfold wordAt bitAt
  rw [testBit_u64_symm _ hk, Bytes.get_slice _ _ (by omega),
    show 8 * j + k / 8 = (64 * j + k) / 8 by omega,
    show k % 8 = (64 * j + k) % 8 by omega]

theorem testBit_lowMask (nbits : Nat) {k : Nat} :
    (bitMask nbits - 1).toNat.testBit k = decide (k < nbits % 64) := by
  have h1 : (1 : UInt64) ≤ bitMask nbits := by
    rw [UInt64.le_iff_toNat_le, toNat_bitMask]
    exact Nat.one_le_two_pow
  rw [UInt64.toNat_sub_of_le _ _ h1, toNat_bitMask, UInt64.toNat_one, Nat.testBit_two_pow_sub_one]

/-- What `load` does behind its loop: the spare bits of the last word are masked out and the
    spare words cleared. -/
def trim (nbits : Nat) (words : Nat → UInt64) (w : Nat) : UInt64 :=
  if w = nbits / 64 ∧ nbits % 64 ≠ 0 then words w &&& (bitMask nbits - 1)
  else if w ≥ (nbits + 63) / 64 then 0
  else words w

theorem wordBit_trim (nbits : Nat) (words : Nat → UInt64) (i : Nat) :
    wordBit (trim nbits words) i = (decide (i < nbits) && wordBit words i) := by
  unfold wordBit trim
  by_cases hlast : i / 64 = nbits / 64 ∧ nbits % 64 ≠ 0
  · rw [if_pos hlast, UInt64.toNat_and, Nat.testBit_and, testBit_lowMask, Bool.and_comm]
    congr 1
    exact decide_eq_decide.mpr (by omega)
  · rw [if_neg hlast]
    by_cases hspare : i / 64 ≥ (nbits + 63) / 64
    · rw [if_pos hspare, UInt64.toNat_zero, Nat.zero_testBit, decide_eq_false (by omega),
        Bool.false_and]
    · rw [if_neg hspare, decide_eq_true (by omega), Bool.true_and]

/-- Bit `i` of words read from blocks is the bit of the region they are read from. -/
theorem testBit_wordAt_region (blk : Block) (i : Nat) :
    (wordAt blk (i / 64 % 512)).toNat.testBit (i % 64) = bitAt blk (i % 32768) := by
  rw [testBit_wordAt _ _ (Nat.mod_lt _ (by omega)),
    show 64 * (i / 64 % 512) + i % 64 = i % 32768 by omega]

/-- The bits `load` keeps are those of the region below `nbits`. -/
theorem wordBit_loadWords (read : Nat → Block) (first nbits i : Nat) :
    wordBit (loadWords read first nbits) i
      = (decide (i < nbits) && bitAt (read (first + i / 32768)) (i % 32768)) := by
  have h := wordBit_trim nbits (fun w => wordAt (read (first + w / 512)) (w % 512)) i
  have hraw : wordBit (fun w => wordAt (read (first + w / 512)) (w % 512)) i
      = bitAt (read (first + i / 32768)) (i % 32768) := by
    rw [wordBit, testBit_wordAt_region, show i / 64 / 512 = i / 32768 by omega]
  rw [hraw] at h
  exact h

/-- `Bitmap::load`. -/
def load (read : Nat → Block) (first nbits : Nat) : Bitmap where
  nbits := nbits
  words := loadWords read first nbits
  clear_past i hi := by rw [wordBit_loadWords, decide_eq_false (by omega), Bool.false_and]

@[simp] theorem load_nbits (read : Nat → Block) (first nbits : Nat) :
    (load read first nbits).nbits = nbits := rfl

theorem load_bit (read : Nat → Block) (first nbits i : Nat) :
    (load read first nbits).bit i
      = (decide (i < nbits) && bitAt (read (first + i / 32768)) (i % 32768)) :=
  wordBit_loadWords read first nbits i

/-! ## Storing -/

/-- `Bitmap::Bitmap`: every bit clear. -/
def ofSize (nbits : Nat) : Bitmap where
  nbits := nbits
  words := fun _ => 0
  clear_past _ _ := by simp [wordBit]

@[simp] theorem ofSize_nbits (nbits : Nat) : (ofSize nbits).nbits = nbits := rfl

@[simp] theorem ofSize_bit (nbits i : Nat) : (ofSize nbits).bit i = false := by
  simp [ofSize, bit, wordBit]

/-- Block `k` of what `Bitmap::store` writes: 512 words from word `512 * k` on. -/
def stored (b : Bitmap) (k : Nat) : Block := fun i =>
  Codec.u64 (b.words (512 * k + i.val / 8)) ⟨i.val % 8, Nat.mod_lt _ (by omega)⟩

theorem wordAt_stored (b : Bitmap) (k : Nat) {w : Nat} (hw : w < 512) :
    wordAt (b.stored k) w = b.words (512 * k + w) := by
  unfold wordAt
  rw [Equiv.symm_apply_eq]
  funext i
  have hi := i.isLt
  rw [Bytes.slice, Bytes.get_of_lt _ (show 8 * w + i.val < 4096 by omega)]
  simp only [stored, show (8 * w + i.val) / 8 = w by omega,
    show (8 * w + i.val) % 8 = i.val by omega]

/-- A block stored holds the bits of the bitmap it is for. -/
theorem bitAt_stored (b : Bitmap) (k : Nat) {j : Nat} (hj : j < 32768) :
    bitAt (b.stored k) j = b.bit (32768 * k + j) := by
  have hlt : j % 64 < 64 := Nat.mod_lt _ (by omega)
  have h := testBit_wordAt (b.stored k) (j / 64) hlt
  rw [show 64 * (j / 64) + j % 64 = j by omega, wordAt_stored b k (by omega)] at h
  rw [← h, bit, wordBit, show (32768 * k + j) / 64 = 512 * k + j / 64 by omega,
    show (32768 * k + j) % 64 = j % 64 by omega]

end Bitmap

end ConcurrentFs
