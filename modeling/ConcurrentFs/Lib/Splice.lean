/-
  ConcurrentFs.Lib.Splice

  Writing into a string that grows.

  `splice old start data` is `old` with `data` written from position `start` on: it
  is as long as it has to be, and what lies between the end of `old` and `start` is
  zero.  Writing nothing changes nothing, wherever it is written.  Writing a string
  in pieces, one after the other, is writing it (`splice_splice`).
-/
import Mathlib.Data.List.GetD
import Mathlib.Algebra.Group.Defs
import Mathlib.Order.MinMax

namespace ConcurrentFs.Lib

variable {α : Type} [Zero α]

/-- `old` with `data` at `start`. -/
def splice (old : List α) (start : Nat) (data : List α) : List α :=
  if data = [] then old
  else old.take start ++ List.replicate (start - old.length) 0 ++ data ++
    old.drop (start + data.length)

/-- Strings of one length are equal if they have the same elements. -/
theorem ext_getD {a b : List α} (hlen : a.length = b.length) (h : ∀ p, a.getD p 0 = b.getD p 0) :
    a = b := by
  refine List.ext_getElem hlen fun p hp hp' => ?_
  have := h p
  rwa [List.getD_eq_getElem a 0 hp, List.getD_eq_getElem b 0 hp'] at this

section Splice

variable {old data data' : List α} {start p : Nat}

@[simp] theorem splice_nil : splice old start [] = old := if_pos rfl

theorem length_splice (h : data ≠ []) :
    (splice old start data).length = max old.length (start + data.length) := by
  rw [splice, if_neg h]
  simp only [List.length_append, List.length_take, List.length_replicate, List.length_drop]
  omega

/-- What is written is there, and the rest is as it was. -/
theorem getD_splice : (splice old start data).getD p 0
    = if start ≤ p ∧ p < start + data.length then data.getD (p - start) 0 else old.getD p 0 := by
  by_cases h : data = []
  · rw [h, splice_nil, if_neg]
    simp
  have hfront : (old.take start ++ List.replicate (start - old.length) 0).length = start := by
    simp only [List.length_append, List.length_take, List.length_replicate]
    omega
  rw [splice, if_neg h]
  by_cases hp : p < start
  · -- before the window
    rw [if_neg (by omega), List.getD_append _ _ _ _ (by rw [List.length_append, hfront]; omega),
      List.getD_append _ _ _ _ (by omega)]
    by_cases hold : p < old.length
    · have htake : p < (old.take start).length := by rw [List.length_take]; omega
      rw [List.getD_append _ _ _ _ htake, List.getD_eq_getElem _ _ htake,
        List.getD_eq_getElem _ _ hold, List.getElem_take]
    · rw [List.getD_append_right _ _ _ _ (by rw [List.length_take]; omega),
        List.getD_eq_default old 0 (by omega), List.getD_replicate]
      rw [List.length_take]
      omega
  · by_cases hp' : p < start + data.length
    · -- in the window
      rw [if_pos ⟨by omega, hp'⟩, List.getD_append _ _ _ _
        (by rw [List.length_append, hfront]; omega),
        List.getD_append_right _ _ _ _ (by omega), hfront]
    · -- past the window
      rw [if_neg (by omega), List.getD_append_right _ _ _ _
        (by rw [List.length_append, hfront]; omega),
        List.length_append, hfront]
      by_cases hold : p < old.length
      · rw [List.getD_eq_getElem _ _ (by rw [List.length_drop]; omega),
          List.getD_eq_getElem _ _ hold,
          List.getElem_drop]
        congr 1
        omega
      · rw [List.getD_eq_default _ _ (by rw [List.length_drop]; omega),
          List.getD_eq_default _ _ (by omega)]

/-- A string that goes on where another one ends. -/
theorem splice_splice :
    splice (splice old start data) (start + data.length) data'
      = splice old start (data ++ data') := by
  by_cases h : data = []
  · rw [h, splice_nil, List.length_nil, Nat.add_zero, List.nil_append]
  by_cases h' : data' = []
  · rw [h', splice_nil, List.append_nil]
  have hne : data ++ data' ≠ [] := fun hnil => h (List.append_eq_nil_iff.mp hnil).1
  refine ext_getD ?_ fun p => ?_
  · rw [length_splice h', length_splice h, length_splice hne, List.length_append]
    omega
  · rw [getD_splice, getD_splice, getD_splice, List.length_append]
    by_cases h1 : p < start
    · rw [if_neg (by omega), if_neg (by omega), if_neg (by omega)]
    · by_cases h2 : p < start + data.length
      · rw [if_neg (by omega), if_pos ⟨by omega, h2⟩, if_pos ⟨by omega, by omega⟩,
          List.getD_append _ _ _ _ (by omega)]
      · by_cases h3 : p < start + data.length + data'.length
        · rw [if_pos ⟨by omega, h3⟩, if_pos ⟨by omega, by omega⟩,
            List.getD_append_right _ _ _ _ (by omega), Nat.sub_sub]
        · rw [if_neg (by omega), if_neg (by omega), if_neg (by omega)]

end Splice

end ConcurrentFs.Lib
