/-
  ConcurrentFs.Lib.Slots

  A finite map kept in numbered slots: each slot is free or holds an item with a
  key, and no key is in two slots.  `items` lists what the first slots hold, in
  their order.  Filling a free slot puts one item in between the others and
  emptying it takes it out again, wherever the slot is; a lookup by key is a search
  for the one slot that has it.
-/
import Mathlib.Data.List.Nodup
import Mathlib.Data.List.Range
import Mathlib.Logic.Function.Basic

namespace ConcurrentFs.Lib.Slots

variable {β κ : Type} {f : Nat → Option β} {key : β → κ} {m k : Nat} {b : β}

/-- What the first `m` slots hold. -/
def items (f : Nat → Option β) (m : Nat) : List β := (List.range m).filterMap f

theorem mem_items : b ∈ items f m ↔ ∃ k < m, f k = some b := by
  simp [items, List.mem_filterMap]

/-- Free slots at the end do not matter. -/
theorem items_extend {n : Nat} (hmn : m ≤ n) (hf : ∀ k, m ≤ k → f k = none) :
    items f n = items f m := by
  obtain ⟨d, rfl⟩ := Nat.exists_eq_add_of_le hmn
  induction d with
  | zero => rfl
  | succ d ih =>
    have hlast : items f (m + (d + 1)) = items f (m + d) := by
      unfold items
      rw [show m + (d + 1) = (m + d) + 1 by omega, List.range_succ, List.filterMap_append]
      simp [hf (m + d) (by omega)]
    rw [hlast, ih (by omega)]

/-- The slots before `k`, slot `k`, and those after it. -/
theorem items_split (f : Nat → Option β) (hk : k < m) :
    items f m = items f k ++ (f k).toList ++ (List.range' (k + 1) (m - k - 1)).filterMap f := by
  have hrange : List.range m = List.range k ++ k :: List.range' (k + 1) (m - k - 1) := by
    rw [List.range_eq_range', List.range_eq_range',
      show m = k + ((m - k - 1) + 1) by omega, ← List.range'_append, Nat.one_mul, Nat.zero_add,
      List.range'_succ, show k + (m - k - 1 + 1) - k - 1 = m - k - 1 by omega]
  unfold items
  rw [hrange, List.filterMap_append, List.filterMap_cons, List.append_assoc]
  cases f k <;> rfl

/-- Filling and emptying a slot. -/
theorem items_update (f : Nat → Option β) (hk : k < m) : ∃ A B, ∀ o,
    items (Function.update f k o) m = A ++ o.toList ++ B := by
  refine ⟨items f k, (List.range' (k + 1) (m - k - 1)).filterMap f, fun o => ?_⟩
  rw [items_split _ hk, Function.update_self]
  have hbefore : items (Function.update f k o) k = items f k := by
    refine List.filterMap_congr fun j hj => ?_
    rw [Function.update_of_ne (ne_of_lt (List.mem_range.mp hj))]
  have hafter : (List.range' (k + 1) (m - k - 1)).filterMap (Function.update f k o)
      = (List.range' (k + 1) (m - k - 1)).filterMap f := by
    refine List.filterMap_congr fun j hj => ?_
    have := (List.mem_range'_1.mp hj).1
    rw [Function.update_of_ne (by omega)]
  rw [hbefore, hafter]

/-- No key is in two slots. -/
def Unique (key : β → κ) (f : Nat → Option β) : Prop :=
  ∀ j k a b, f j = some a → f k = some b → key a = key b → j = k

theorem Unique.nodup (h : Unique key f) (m : Nat) : ((items f m).map key).Nodup := by
  induction m with
  | zero => exact List.nodup_nil
  | succ m ih =>
    unfold items at ih ⊢
    rw [List.range_succ, List.filterMap_append, List.map_append]
    refine List.nodup_append.mpr ⟨ih, ?_, ?_⟩
    · cases hm : f m <;> simp [hm]
    · intro x hx y hy
      obtain ⟨a, ha, rfl⟩ := List.mem_map.mp hx
      obtain ⟨b, hb, rfl⟩ := List.mem_map.mp hy
      obtain ⟨j, hj, hfa⟩ := mem_items.mp ha
      have hfb : f m = some b := by simpa using hb
      intro heq
      have := h j m a b hfa hfb heq
      omega

/-- A slot filled with a key that is in none. -/
theorem Unique.fill (h : Unique key f) (hb : ∀ j a, f j = some a → key a ≠ key b) :
    Unique key (Function.update f k (some b)) := by
  intro i j a c hi hj heq
  by_cases hik : i = k
  · by_cases hjk : j = k
    · rw [hik, hjk]
    · rw [hik, Function.update_self] at hi
      rw [Function.update_of_ne hjk] at hj
      cases hi
      exact absurd heq.symm (hb j c hj)
  · rw [Function.update_of_ne hik] at hi
    by_cases hjk : j = k
    · rw [hjk, Function.update_self] at hj
      cases hj
      exact absurd heq (hb i a hi)
    · rw [Function.update_of_ne hjk] at hj
      exact h i j a c hi hj heq

/-- A slot emptied. -/
theorem Unique.clear (h : Unique key f) : Unique key (Function.update f k none) := by
  intro i j a c hi hj heq
  have hne : ∀ l d, Function.update f k none l = some d → f l = some d := by
    intro l d hl
    by_cases hlk : l = k
    · rw [hlk, Function.update_self] at hl
      cases hl
    · rwa [Function.update_of_ne hlk] at hl
  exact h i j a c (hne i a hi) (hne j c hj) heq

end ConcurrentFs.Lib.Slots
