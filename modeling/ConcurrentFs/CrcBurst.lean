/-
  ConcurrentFs.CrcBurst

  The checksum as division.  The table loop of `crc32` divides the bits of the
  message, least significant first, one by one.  A step of the division is linear
  and can be undone, so two messages that differ only inside 32 consecutive bits
  leave different remainders, and `scan` turns down a record so damaged.
-/
import ConcurrentFs.ScanSafe

namespace ConcurrentFs

open Lib

/-! ## Division, bit by bit -/

/-- The next bit of a message divided: the remainder moves down by one, and the polynomial is
    taken off if the bit that falls out and the bit of the message differ. -/
def divideBit (c : BitVec 32) (bit : Bool) : BitVec 32 :=
  if c.getLsbD 0 ≠ bit then 0xEDB88320#32 ^^^ (c >>> 1) else c >>> 1

/-- The bits of a byte, least significant first. -/
def byteBits (b : UInt8) : List Bool := (List.range 8).map fun k => b.toNat.testBit k

/-- The bits of a message. -/
def messageBits (bytes : List UInt8) : List Bool := bytes.flatMap byteBits

@[simp] theorem length_byteBits (b : UInt8) : (byteBits b).length = 8 := by
  rw [byteBits, List.length_map, List.length_range]

@[simp] theorem length_messageBits (bytes : List UInt8) :
    (messageBits bytes).length = 8 * bytes.length := by
  induction bytes with
  | nil => rfl
  | cons b bytes ih =>
    rw [messageBits, List.flatMap_cons, List.length_append, length_byteBits, ← messageBits, ih,
      List.length_cons]
    omega

/-- Some bits as a word, the first at the bottom. -/
def wordOf : List Bool → BitVec 32
  | [] => 0
  | b :: bs => BitVec.setWidth 32 (BitVec.ofBool b) ^^^ (wordOf bs <<< 1)

theorem getLsbD_bitWord (b : Bool) {i : Nat} :
    (BitVec.setWidth 32 (BitVec.ofBool b)).getLsbD i = (decide (i = 0) && b) := by
  rw [BitVec.getLsbD_setWidth, BitVec.getLsbD_ofBool]
  by_cases h : i = 0
  · subst h
    simp
  · simp [h]

theorem getLsbD_wordOf (bs : List Bool) {i : Nat} (hi : i < 32) :
    (wordOf bs).getLsbD i = bs.getD i false := by
  induction bs generalizing i with
  | nil => simp [wordOf]
  | cons b bs ih =>
    rw [wordOf, BitVec.getLsbD_xor, getLsbD_bitWord, BitVec.getLsbD_shiftLeft]
    cases i with
    | zero => simp
    | succ i =>
      rw [List.getD_cons_succ, ← ih (by omega)]
      simp [hi]

/-! ## A step is linear and can be undone -/

theorem crcBit_xor (a b : BitVec 32) : crcBit (a ^^^ b) = crcBit a ^^^ crcBit b := by
  unfold crcBit
  rw [BitVec.getLsbD_xor, BitVec.ushiftRight_xor_distrib]
  generalize 0xEDB88320#32 = p
  generalize a >>> 1 = x
  generalize b >>> 1 = y
  apply BitVec.eq_of_getLsbD_eq
  intro i _
  cases a.getLsbD 0 <;> cases b.getLsbD 0 <;>
    simp only [Bool.xor_true, Bool.xor_false, Bool.not_true, Bool.not_false, if_true,
      Bool.false_eq_true, if_false, BitVec.getLsbD_xor] <;>
    cases p.getLsbD i <;> cases x.getLsbD i <;> cases y.getLsbD i <;> rfl

@[simp] theorem crcBit_zero : crcBit 0 = 0 := by decide

/-- The polynomial has its top bit, so what fell out at the bottom can be read off the top. -/
theorem eq_zero_of_crcBit {c : BitVec 32} (h : crcBit c = 0) : c = 0 := by
  have htop : (c >>> 1).getLsbD 31 = false := by
    rw [BitVec.getLsbD_ushiftRight, BitVec.getLsbD_of_ge c _ (by omega)]
  have hlow : c.getLsbD 0 = false := by
    by_contra hne
    rw [crcBit, if_pos (by simpa using hne)] at h
    have hbit := congrArg (fun x => x.getLsbD 31) h
    simp only [BitVec.getLsbD_xor, htop] at hbit
    exact absurd hbit (by decide)
  rw [crcBit, if_neg (by rw [hlow]; exact Bool.false_ne_true)] at h
  apply BitVec.eq_of_getLsbD_eq
  intro i hi
  cases i with
  | zero => rw [hlow]; rfl
  | succ i =>
    have hbit := congrArg (fun x => x.getLsbD i) h
    simp only [BitVec.getLsbD_ushiftRight] at hbit
    rw [Nat.add_comm i 1, hbit]
    simp

theorem crcBit_iterate_xor (n : Nat) (a b : BitVec 32) :
    crcBit^[n] (a ^^^ b) = crcBit^[n] a ^^^ crcBit^[n] b := by
  induction n generalizing a b with
  | zero => rfl
  | succ n ih => rw [Function.iterate_succ_apply, crcBit_xor, ih]; rfl

theorem eq_zero_of_iterate (n : Nat) {c : BitVec 32} (h : crcBit^[n] c = 0) : c = 0 := by
  induction n with
  | zero => exact h
  | succ n ih =>
    rw [Function.iterate_succ_apply'] at h
    exact ih (eq_zero_of_crcBit h)

theorem iterate_zero (n : Nat) : crcBit^[n] 0 = 0 := by
  induction n with
  | zero => rfl
  | succ n ih => rw [Function.iterate_succ_apply, crcBit_zero, ih]

/-- A word with nothing at its low end only moves down. -/
theorem crcBit_of_low {c : BitVec 32} (h : c.getLsbD 0 = false) : crcBit c = c >>> 1 := by
  rw [crcBit, if_neg (by rw [h]; exact Bool.false_ne_true)]

theorem iterate_of_low (n : Nat) {c : BitVec 32} (h : ∀ i < n, c.getLsbD i = false) :
    crcBit^[n] c = c >>> n := by
  induction n generalizing c with
  | zero => rfl
  | succ n ih =>
    rw [Function.iterate_succ_apply, crcBit_of_low (h 0 (by omega)), ih, ← BitVec.shiftRight_add,
      Nat.add_comm]
    intro i hi
    rw [BitVec.getLsbD_ushiftRight]
    exact h (1 + i) (by omega)

theorem divideBit_eq (c : BitVec 32) (b : Bool) :
    divideBit c b = crcBit (c ^^^ BitVec.setWidth 32 (BitVec.ofBool b)) := by
  have hshift : BitVec.setWidth 32 (BitVec.ofBool b) >>> 1 = 0 := by
    cases b <;> decide
  have hlow : (BitVec.setWidth 32 (BitVec.ofBool b)).getLsbD 0 = b := by
    rw [getLsbD_bitWord]
    rfl
  rw [divideBit, crcBit, BitVec.getLsbD_xor, hlow, BitVec.ushiftRight_xor_distrib, hshift,
    show (c >>> 1 ^^^ 0 : BitVec 32) = c >>> 1 from BitVec.xor_zero]
  cases c.getLsbD 0 <;> cases b <;> rfl

/-- Up to 32 bits can be divided at once: they are added in, and the sum moves down. -/
theorem foldl_divideBit (bs : List Bool) (h : bs.length ≤ 32) (c : BitVec 32) :
    bs.foldl divideBit c = crcBit^[bs.length] (c ^^^ wordOf bs) := by
  induction bs generalizing c with
  | nil => exact (BitVec.xor_zero (x := c)).symm
  | cons b bs ih =>
    rw [List.length_cons] at h
    have hdown : crcBit (wordOf bs <<< 1) = wordOf bs := by
      rw [crcBit_of_low (by simp)]
      apply BitVec.eq_of_getLsbD_eq
      intro i hi
      rw [BitVec.getLsbD_ushiftRight, BitVec.getLsbD_shiftLeft]
      by_cases hlast : 1 + i < 32
      · simp [hlast]
      · -- there is no bit at the top to lose
        rw [getLsbD_wordOf bs hi, List.getD_eq_getElem?_getD, List.getElem?_eq_none (by omega)]
        simp [hlast]
    have hstep : crcBit (c ^^^ wordOf (b :: bs)) = divideBit c b ^^^ wordOf bs := by
      rw [wordOf, ← BitVec.xor_assoc, crcBit_xor (c ^^^ _), hdown, divideBit_eq]
    rw [List.foldl_cons, ih (by omega), List.length_cons, Function.iterate_succ_apply, hstep]

/-! ## The table -/

theorem getLsbD_low (i : Nat) (hi : i < 32) : (0xFF#32).getLsbD i = decide (i < 8) := by
  rw [BitVec.getLsbD_ofNat, show (0xFF : Nat) = 2 ^ 8 - 1 from rfl, Nat.testBit_two_pow_sub_one,
    decide_eq_true hi, Bool.true_and]

/-- The table says what eight steps do to the low byte; the rest only moves down. -/
theorem makeTable_xor (x : BitVec 32) : makeTable (x &&& 0xFF#32) ^^^ (x >>> 8) = crcBit^[8] x := by
  have hsplit : x = (x &&& 0xFF#32) ^^^ (x &&& ~~~ 0xFF#32) := by
    apply BitVec.eq_of_getLsbD_eq
    intro i hi
    rw [BitVec.getLsbD_xor, BitVec.getLsbD_and, BitVec.getLsbD_and, BitVec.getLsbD_not,
      decide_eq_true hi, Bool.true_and]
    cases x.getLsbD i <;> cases (0xFF#32).getLsbD i <;> rfl
  have hhigh : crcBit^[8] (x &&& ~~~ 0xFF#32) = x >>> 8 := by
    rw [iterate_of_low 8]
    · apply BitVec.eq_of_getLsbD_eq
      intro i hi
      rw [BitVec.getLsbD_ushiftRight, BitVec.getLsbD_ushiftRight, BitVec.getLsbD_and,
        BitVec.getLsbD_not]
      by_cases h : 8 + i < 32
      · rw [getLsbD_low _ h, decide_eq_true h, decide_eq_false (by omega)]
        simp
      · rw [BitVec.getLsbD_of_ge x _ (by omega), Bool.false_and]
    · intro i hi
      rw [BitVec.getLsbD_and, BitVec.getLsbD_not, getLsbD_low _ (by omega), decide_eq_true hi]
      simp
  conv => rhs; rw [hsplit, crcBit_iterate_xor, hhigh]
  rfl

theorem wordOf_byteBits (b : UInt8) : wordOf (byteBits b) = b.toBitVec.setWidth 32 := by
  apply BitVec.eq_of_getLsbD_eq
  intro i hi
  rw [getLsbD_wordOf _ hi, byteBits, List.getD_eq_getElem?_getD, List.getElem?_map,
    BitVec.getLsbD_setWidth, decide_eq_true hi, Bool.true_and]
  by_cases h : i < 8
  · rw [List.getElem?_range h]
    rfl
  · rw [List.getElem?_eq_none (by rw [List.length_range]; omega),
      BitVec.getLsbD_of_ge _ _ (by omega)]
    rfl

/-- One turn of the loop divides the bits of one byte. -/
theorem crcByte_eq (c : BitVec 32) (b : UInt8) : crcByte c b = (byteBits b).foldl divideBit c := by
  rw [foldl_divideBit _ (by rw [length_byteBits]; omega), wordOf_byteBits, length_byteBits,
    ← makeTable_xor, crcByte, BitVec.ushiftRight_xor_distrib (c : BitVec 32)]
  have hb : (b.toBitVec.setWidth 32) >>> 8 = (0 : BitVec 32) := by
    apply BitVec.eq_of_getLsbD_eq
    intro i hi
    rw [BitVec.getLsbD_ushiftRight, BitVec.getLsbD_setWidth, BitVec.getLsbD_of_ge _ _ (by omega),
      Bool.and_false]
    simp
  rw [hb]
  exact congrArg _ (BitVec.xor_zero (x := c >>> 8)).symm

theorem foldl_crcByte (bytes : List UInt8) (c : BitVec 32) :
    bytes.foldl crcByte c = (messageBits bytes).foldl divideBit c := by
  induction bytes generalizing c with
  | nil => rfl
  | cons b bytes ih =>
    rw [List.foldl_cons, crcByte_eq, ih, messageBits, messageBits, List.flatMap_cons,
      List.foldl_append]

/-- A checksum goes on where the one before it stopped. -/
theorem crc32_append (a b : List UInt8) (crc : BitVec 32) :
    crc32 b (crc32 a crc) = crc32 (a ++ b) crc := by
  rw [crc32, crc32, crc32, BitVec.not_not, List.foldl_append]

/-! ## Bursts -/

/-- Bit `i` of a message: bit `i % 8` of byte `i / 8`. -/
def messageBit (bytes : List UInt8) (i : Nat) : Bool := (bytes.getD (i / 8) 0).toNat.testBit (i % 8)

/-- Two messages that differ, but only inside 32 consecutive bits. -/
structure Burst (a b : List UInt8) : Prop where
  length : a.length = b.length
  differ : a ≠ b
  inside : ∃ s, ∀ i, i < s ∨ s + 32 ≤ i → messageBit a i = messageBit b i

theorem getD_messageBits (bytes : List UInt8) (i : Nat) :
    (messageBits bytes).getD i false = messageBit bytes i := by
  induction bytes generalizing i with
  | nil => simp [messageBits, messageBit]
  | cons b bytes ih =>
    rw [messageBits, List.flatMap_cons, ← messageBits, List.getD_eq_getElem?_getD]
    by_cases h : i < 8
    · rw [List.getElem?_append_left (by rw [length_byteBits]; exact h), byteBits, List.getElem?_map,
        List.getElem?_range h, messageBit, show i / 8 = 0 by omega, Nat.mod_eq_of_lt h]
      rfl
    · rw [List.getElem?_append_right (by rw [length_byteBits]; omega), length_byteBits,
        ← List.getD_eq_getElem?_getD, ih, messageBit, messageBit,
        show i / 8 = (i - 8) / 8 + 1 by omega,
        show i % 8 = (i - 8) % 8 by omega, List.getD_cons_succ]

/-- Bytes that are not the same have a bit that is not. -/
theorem exists_messageBit_ne {a b : List UInt8} (hlen : a.length = b.length) (hne : a ≠ b) :
    ∃ i, messageBit a i ≠ messageBit b i := by
  by_contra hall
  push Not at hall
  refine hne (List.ext_getElem hlen fun k h1 h2 => ?_)
  refine UInt8.toNat_inj.mp (Nat.eq_of_testBit_eq fun j => ?_)
  by_cases hj : j < 8
  · have h := hall (8 * k + j)
    rw [messageBit, messageBit, show (8 * k + j) / 8 = k by omega,
      show (8 * k + j) % 8 = j by omega,
      List.getD_eq_getElem?_getD, List.getD_eq_getElem?_getD, List.getElem?_eq_getElem h1,
      List.getElem?_eq_getElem h2] at h
    exact h
  · have hp : 2 ^ 8 ≤ 2 ^ j := Nat.pow_le_pow_right (by omega) (by omega)
    have ha := a[k].toNat_lt
    have hb := b[k].toNat_lt
    rw [Nat.testBit_lt_two_pow (by omega), Nat.testBit_lt_two_pow (by omega)]

theorem divideBit_xor (c d : BitVec 32) (a b : Bool) :
    divideBit (c ^^^ d) (a ^^ b) = divideBit c a ^^^ divideBit d b := by
  have hbit : BitVec.setWidth 32 (BitVec.ofBool (a ^^ b))
      = BitVec.setWidth 32 (BitVec.ofBool a) ^^^ BitVec.setWidth 32 (BitVec.ofBool b) := by
    cases a <;> cases b <;> decide
  rw [divideBit_eq, divideBit_eq, divideBit_eq, ← crcBit_xor, hbit]
  congr 1
  ac_rfl

/-- The remainders of two messages differ by the remainder of their difference. -/
theorem foldl_divideBit_xor {as bs : List Bool} (hlen : as.length = bs.length) (c d : BitVec 32) :
    as.foldl divideBit c ^^^ bs.foldl divideBit d
      = (List.zipWith xor as bs).foldl divideBit (c ^^^ d) := by
  induction as generalizing bs c d with
  | nil =>
    cases bs with
    | nil => rfl
    | cons b bs => cases hlen
  | cons a as ih =>
    cases bs with
    | nil => cases hlen
    | cons b bs =>
      rw [List.foldl_cons, List.foldl_cons, ih (Nat.succ.inj hlen), List.zipWith_cons_cons,
        List.foldl_cons, divideBit_xor]

theorem foldl_divideBit_false {ds : List Bool} (h : ∀ d ∈ ds, d = false) (c : BitVec 32) :
    ds.foldl divideBit c = crcBit^[ds.length] c := by
  induction ds generalizing c with
  | nil => rfl
  | cons d ds ih =>
    have hstep : divideBit c d = crcBit c := by
      rw [h d (List.mem_cons_self ..), divideBit_eq]
      exact congrArg crcBit (BitVec.xor_zero (x := c))
    rw [List.foldl_cons, ih fun d hd => h d (List.mem_cons_of_mem _ hd), hstep, List.length_cons,
      Function.iterate_succ_apply]

/-- Set bits in one window of 32 leave a remainder: those before it leave the register at zero,
    the window is a word that is not zero, and no number of steps brings that back to zero. -/
theorem foldl_burst_ne_zero (ds : List Bool) {s : Nat}
    (hout : ∀ i, i < s ∨ s + 32 ≤ i → ds.getD i false = false)
    (hin : ∃ i, ds.getD i false = true) : ds.foldl divideBit 0 ≠ 0 := by
  have hbefore : ∀ d ∈ ds.take s, d = false := by
    intro d hd
    obtain ⟨i, hi, rfl⟩ := List.getElem_of_mem hd
    have hi' := hi
    rw [List.length_take] at hi'
    have := hout i (Or.inl (by omega))
    rw [List.getD_eq_getElem?_getD, List.getElem?_eq_getElem (by omega)] at this
    rw [List.getElem_take]
    exact this
  have hafter : ∀ d ∈ (ds.drop s).drop 32, d = false := by
    intro d hd
    obtain ⟨i, hi, rfl⟩ := List.getElem_of_mem hd
    have hi' := hi
    rw [List.length_drop, List.length_drop] at hi'
    have := hout (s + (32 + i)) (Or.inr (by omega))
    rw [List.getD_eq_getElem?_getD, List.getElem?_eq_getElem (by omega)] at this
    rw [List.getElem_drop, List.getElem_drop]
    exact this
  have hwindow : wordOf ((ds.drop s).take 32) ≠ 0 := by
    obtain ⟨i, hi⟩ := hin
    have hs : s ≤ i ∧ i < s + 32 := by
      by_contra hno
      rw [hout i (by omega)] at hi
      cases hi
    intro h0
    have hbit := getLsbD_wordOf ((ds.drop s).take 32) (i := i - s) (by omega)
    rw [h0, List.getD_eq_getElem?_getD, List.getElem?_take_of_lt (by omega), List.getElem?_drop,
      show s + (i - s) = i by omega, ← List.getD_eq_getElem?_getD, hi] at hbit
    simp at hbit
  have hsplit : ds = ds.take s ++ ((ds.drop s).take 32 ++ (ds.drop s).drop 32) := by
    rw [List.take_append_drop, List.take_append_drop]
  intro h0
  rw [hsplit, List.foldl_append, List.foldl_append, foldl_divideBit_false hbefore, iterate_zero,
    foldl_divideBit_false hafter, foldl_divideBit _ (List.length_take_le ..)] at h0
  have hzero := eq_zero_of_iterate _ (eq_zero_of_iterate _ h0)
  exact hwindow ((BitVec.zero_xor (x := wordOf _)).symm.trans hzero)

/-- Every burst of up to 32 bits is caught. -/
theorem crc32_ne_of_burst {a b : List UInt8} (h : Burst a b) (crc : BitVec 32) :
    crc32 a crc ≠ crc32 b crc := by
  obtain ⟨s, hs⟩ := h.inside
  obtain ⟨i, hi⟩ := exists_messageBit_ne h.length h.differ
  have hlen : (messageBits a).length = (messageBits b).length := by
    rw [length_messageBits, length_messageBits, h.length]
  have hdiff : ∀ i, (List.zipWith xor (messageBits a) (messageBits b)).getD i false
      = (messageBit a i ^^ messageBit b i) := by
    intro i
    rw [← getD_messageBits, ← getD_messageBits, List.getD_eq_getElem?_getD,
      List.getD_eq_getElem?_getD, List.getD_eq_getElem?_getD, List.getElem?_zipWith]
    by_cases hlt : i < (messageBits a).length
    · rw [List.getElem?_eq_getElem hlt, List.getElem?_eq_getElem (by omega)]
      rfl
    · rw [List.getElem?_eq_none (by omega), List.getElem?_eq_none (by omega)]
      rfl
  have hne := foldl_burst_ne_zero (List.zipWith xor (messageBits a) (messageBits b)) (s := s)
    (fun i hi => by rw [hdiff, hs i hi, Bool.xor_self])
    ⟨i, by rw [hdiff]; cases ha : messageBit a i <;> cases hb : messageBit b i <;> simp_all⟩
  intro heq
  rw [crc32, crc32, foldl_crcByte, foldl_crcByte] at heq
  have hfold := BitVec.not_inj.mp heq
  have hxor := foldl_divideBit_xor hlen (~~~ crc) (~~~ crc)
  rw [hfold, BitVec.xor_self, BitVec.xor_self] at hxor
  exact hne hxor.symm

/-! ## A damaged record -/

/-- With another payload, a burst away from its own, a record no longer has its checksum. -/
theorem recordChecksum_ne_of_burst {h : WalRecordHeader} {p p' : Block}
    (hlen : h.payloadLen = 4096) (hb : Burst (List.ofFn p) (List.ofFn p')) :
    recordChecksum h p ≠ recordChecksum h p' := by
  have htake : ∀ q : Block, (List.ofFn q).take h.payloadLen.toNat = List.ofFn q := by
    intro q
    rw [hlen, List.take_of_length_le (by rw [List.length_ofFn]; decide)]
  have hpos : h.payloadLen > 0 := by
    rw [hlen]
    decide
  intro heq
  rw [recordChecksum, recordChecksum, if_pos hpos, if_pos hpos, htake, htake] at heq
  exact crc32_ne_of_burst hb _ (congrArg UInt32.toBitVec heq)

/-- `scan` stops in front of a record whose payload has suffered a burst. -/
theorem scan_burst {totalBlocks : Nat} {rs : List WalRecord} {r : WalRecord} {p' : Block}
    (hrs : LogRun totalBlocks (rs ++ [r])) (hr : r.header.type = walBlock)
    (hb : Burst (List.ofFn r.payload) (List.ofFn p')) (rest : List UInt8) :
    scan totalBlocks (recordsBytes rs ++
      (List.ofFn (WalRecordHeader.codec r.header) ++ (List.ofFn p' ++ rest))) = rs := by
  have hi := hrs.intact r (by simp)
  have hlen : r.header.payloadLen = 4096 := by rw [hi.payloadLen, if_pos hr]
  have hbefore : LogRun totalBlocks rs :=
    ⟨fun x hx => hrs.intact x (List.mem_append_left _ hx), hrs.lsns.left_of_append⟩
  rw [scan, scanFrom_recordsBytes (chained_none_iff.mpr hbefore), scanFrom_none, List.append_nil]
  cases hs : scanRecord totalBlocks (List.ofFn (WalRecordHeader.codec r.header) ++
      (List.ofFn p' ++ rest)) (lastLsn none rs) with
  | none => rfl
  | some x =>
    obtain ⟨-, hx, hxi, -, hxp⟩ := scanRecord_eq_some_iff.mp hs
    rw [frontBytes_ofFn_append, Equiv.symm_apply_apply] at hx
    obtain ⟨-, hpay⟩ := hxp (by rw [hx]; exact hr)
    rw [List.drop_append_of_le_length (by rw [List.length_ofFn]),
      List.drop_of_length_le (by rw [List.length_ofFn]), List.nil_append,
      frontBytes_ofFn_append] at hpay
    have hck := hxi.checksum
    rw [hx, hpay, ← hi.checksum] at hck
    exact absurd hck.symm (recordChecksum_ne_of_burst hlen hb)

/-- `crc32` is bit-by-bit division from all ones to the complement, it goes on across any split,
    and neither it nor a scan of the log lets a burst of up to 32 bits pass. -/
theorem crc32_division :
    (∀ bytes, crc32 bytes 0 =
      BitVec.allOnes 32 ^^^ (messageBits bytes).foldl divideBit (BitVec.allOnes 32)) ∧
    (∀ a b crc, crc32 b (crc32 a crc) = crc32 (a ++ b) crc) ∧
    (∀ a b crc, Burst a b → crc32 a crc ≠ crc32 b crc) ∧
    ∀ (totalBlocks : Nat) (rs : List WalRecord) (r : WalRecord) (p' : Block) (rest : List UInt8),
      LogRun totalBlocks (rs ++ [r]) → r.header.type = walBlock →
      Burst (List.ofFn r.payload) (List.ofFn p') →
      scan totalBlocks (recordsBytes rs ++
        (List.ofFn (WalRecordHeader.codec r.header) ++ (List.ofFn p' ++ rest))) = rs := by
  refine ⟨?_, crc32_append, fun a b crc h => crc32_ne_of_burst h crc,
    fun total rs r p' rest hrs hr hb => scan_burst hrs hr hb rest⟩
  intro bytes
  rw [crc32, foldl_crcByte, show ~~~ (0 : BitVec 32) = BitVec.allOnes 32 from BitVec.not_zero,
    BitVec.allOnes_xor]

end ConcurrentFs
