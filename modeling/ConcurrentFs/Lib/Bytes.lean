/-
  ConcurrentFs.Lib.Bytes

  Byte windows and fixed-width encodings.

  A `Bytes n` is `n` bytes; `slice` reads a window of it and `patch` overwrites
  one, which is what `memcpy` out of and into a buffer does.  An encoding of a
  plain-data type is an equivalence with `Bytes n`: every value has exactly one
  representation and every byte string is a value, so nothing is lost either way
  and no padding is left undetermined.  Encodings of records are built from
  `u8`, `u16`, `u32`, `u64` with `pair` and `array`.
-/
import Mathlib.Data.Fin.Tuple.Basic
import Mathlib.Logic.Equiv.Fin.Basic
import Mathlib.Data.Fintype.Pi
import Mathlib.Tactic.IntervalCases
import Mathlib.Tactic.FinCases

namespace ConcurrentFs.Lib

/-- `n` bytes. -/
abbrev Bytes (n : Nat) := Fin n → UInt8

namespace Bytes

variable {m n k : Nat}

/-- Byte `i`, or `0` past the end. -/
def get (b : Bytes m) (i : Nat) : UInt8 := if h : i < m then b ⟨i, h⟩ else 0

/-- The window of `n` bytes starting at `off`. -/
def slice (b : Bytes m) (off n : Nat) : Bytes n := fun i => b.get (off + i)

/-- `b` with the window starting at `off` overwritten by `s`. -/
def patch (b : Bytes m) (off : Nat) (s : Bytes n) : Bytes m := fun i =>
  if h : off ≤ i.val ∧ i.val < off + n then s ⟨i.val - off, by omega⟩ else b i

/-- All bytes zero. -/
def zero (n : Nat) : Bytes n := fun _ => 0

theorem get_of_lt (b : Bytes m) {i : Nat} (h : i < m) : b.get i = b ⟨i, h⟩ := dif_pos h

@[simp] theorem get_val (b : Bytes m) (i : Fin m) : b.get i.val = b i := get_of_lt b i.isLt

@[simp] theorem get_zero (i : Nat) : (zero m).get i = 0 := by
  unfold get zero; split <;> rfl

theorem ext_get {a b : Bytes m} (h : ∀ i, i < m → a.get i = b.get i) : a = b := by
  funext i
  have := h i.val i.isLt
  simpa using this

/-- Reading a patched buffer: inside the window the patch, outside the buffer. -/
theorem get_patch (b : Bytes m) (off : Nat) (s : Bytes n) {i : Nat} (hi : i < m) :
    (b.patch off s).get i = if off ≤ i ∧ i < off + n then s.get (i - off) else b.get i := by
  rw [get_of_lt _ hi]
  simp only [patch]
  split
  · rw [get_of_lt s (by omega)]
  · rw [get_of_lt b hi]

@[simp] theorem get_slice (b : Bytes m) (off : Nat) {i : Nat} (hi : i < n) :
    (b.slice off n).get i = b.get (off + i) := by
  rw [get_of_lt _ hi]; rfl

/-- What was written into a window is what is read out of it. -/
theorem slice_patch_self (b : Bytes m) {off : Nat} (s : Bytes n) (h : off + n ≤ m) :
    (b.patch off s).slice off n = s := by
  refine ext_get fun i hi => ?_
  rw [get_slice _ _ hi, get_patch _ _ _ (by omega), if_pos (by omega)]
  congr 1
  omega

/-- A window disjoint from the one written reads as before. -/
theorem slice_patch_disjoint (b : Bytes m) {off off' : Nat} (s : Bytes n)
    (h : off' + k ≤ off ∨ off + n ≤ off') :
    (b.patch off s).slice off' k = b.slice off' k := by
  refine ext_get fun i hi => ?_
  rw [get_slice _ _ hi, get_slice _ _ hi]
  by_cases hm : off' + i < m
  · rw [get_patch _ _ _ hm, if_neg (by omega)]
  · simp [get, hm]

@[simp] theorem slice_zero (off : Nat) : (zero m).slice off n = zero n := by
  refine ext_get fun i hi => ?_
  rw [get_slice _ _ hi, get_zero, get_zero]

/-- A window inside a window of the same buffer. -/
theorem slice_slice (b : Bytes m) {off off' : Nat} (h : off' + k ≤ n) :
    (b.slice off n).slice off' k = b.slice (off + off') k := by
  refine ext_get fun i hi => ?_
  rw [get_slice _ _ hi, get_slice _ _ hi, get_slice _ _ (by omega)]
  congr 1
  omega

end Bytes

/-! ## Encodings -/

/-- An encoding of `α` in exactly `n` bytes, one representation for each value. -/
abbrev Codec (α : Type) (n : Nat) := α ≃ Bytes n

namespace Codec

variable {α β : Type} {m n k : Nat}

/-- One byte. -/
def u8 : Codec UInt8 1 where
  toFun x := fun _ => x
  invFun f := f 0
  left_inv _ := rfl
  right_inv f := by funext i; fin_cases i; rfl

/-- Two bytes, least significant first. -/
def u16 : Codec UInt16 2 where
  toFun x := fun i => UInt8.ofNat (x.toNat / 256 ^ i.val)
  invFun f := UInt16.ofNat ((f 0).toNat + 256 * (f 1).toNat)
  left_inv x := by
    apply UInt16.toNat_inj.mp
    have := x.toNat_lt
    simp
    omega
  right_inv f := by
    funext i
    apply UInt8.toNat_inj.mp
    have h0 := (f 0).toNat_lt
    have h1 := (f 1).toNat_lt
    fin_cases i
    · simp
    · simp; omega

/-- Four bytes, least significant first. -/
def u32 : Codec UInt32 4 where
  toFun x := fun i => UInt8.ofNat (x.toNat / 256 ^ i.val)
  invFun f := UInt32.ofNat ((f 0).toNat + 256 * (f 1).toNat + 65536 * (f 2).toNat
    + 16777216 * (f 3).toNat)
  left_inv x := by
    apply UInt32.toNat_inj.mp
    have := x.toNat_lt
    simp
    omega
  right_inv f := by
    funext i
    apply UInt8.toNat_inj.mp
    have h0 := (f 0).toNat_lt
    have h1 := (f 1).toNat_lt
    have h2 := (f 2).toNat_lt
    have h3 := (f 3).toNat_lt
    fin_cases i
    · simp; omega
    · simp; omega
    · simp; omega
    · simp; omega

/-- An encoding followed by another. -/
def pair (c : Codec α m) (d : Codec β n) : Codec (α × β) (m + n) :=
  (c.prodCongr d).trans (Fin.appendEquiv m n)

theorem pair_symm_apply (c : Codec α m) (d : Codec β n) (f : Bytes (m + n)) :
    (pair c d).symm f = (c.symm (f.slice 0 m), d.symm (f.slice m n)) := by
  have h1 : (fun i => f (Fin.castAdd n i)) = f.slice 0 m := by
    funext i
    rw [Bytes.slice, Nat.zero_add, Bytes.get_of_lt f (by omega)]
    rfl
  have h2 : (fun i => f (Fin.natAdd m i)) = f.slice m n := by
    funext i
    rw [Bytes.slice, Bytes.get_of_lt f (by omega)]
    rfl
  rw [← h1, ← h2]
  rfl

/-- Eight bytes, least significant first: two four-byte halves. -/
def u64 : Codec UInt64 8 :=
  Equiv.trans
    { toFun := fun x => (UInt32.ofNat x.toNat, UInt32.ofNat (x.toNat / 4294967296))
      invFun := fun p => UInt64.ofNat (p.1.toNat + 4294967296 * p.2.toNat)
      left_inv := by
        intro x
        apply UInt64.toNat_inj.mp
        have := x.toNat_lt
        simp
        omega
      right_inv := by
        rintro ⟨a, b⟩
        have ha := a.toNat_lt
        have hb := b.toNat_lt
        refine Prod.ext (UInt32.toNat_inj.mp ?_) (UInt32.toNat_inj.mp ?_)
        · simp
        · simp; omega }
    (pair u32 u32)

/-- `k` values one after the other. -/
def array (k : Nat) (c : Codec α n) : Codec (Fin k → α) (k * n) :=
  (Equiv.arrowCongr (Equiv.refl _) c).trans <|
    (Equiv.curry (Fin k) (Fin n) UInt8).symm.trans <|
      Equiv.arrowCongr finProdFinEquiv (Equiv.refl _)

/-- Value `i` of an array stands in its own window. -/
theorem array_slice (c : Codec α n) (f : Fin k → α) {i : Nat} (hi : i < k) :
    (array k c f).slice (n * i) n = c (f ⟨i, hi⟩) := by
  funext p
  have hlt : n * i + p.val < k * n := by
    have h1 := Nat.mul_le_mul_right n hi
    have h2 := p.isLt
    have h3 := Nat.mul_comm n i
    rw [Nat.succ_mul] at h1
    omega
  rw [Bytes.slice, Bytes.get_of_lt _ hlt]
  show c (f (finProdFinEquiv.symm ⟨n * i + p.val, hlt⟩).1)
    (finProdFinEquiv.symm ⟨n * i + p.val, hlt⟩).2
    = c (f ⟨i, hi⟩) p
  have hdec : finProdFinEquiv.symm ⟨n * i + p.val, hlt⟩ = (⟨i, hi⟩, p) := by
    rw [Equiv.symm_apply_eq]
    exact Fin.ext (Nat.add_comm _ _)
  rw [hdec]

end Codec

end ConcurrentFs.Lib
