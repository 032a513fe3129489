/-
  ConcurrentFs.Lib.Effect

  What a program may do to a state, and how much of it.

  `Part` is partial correctness: if the program comes to an end, it ends in a state
  that meets one of the two postconditions.  It says nothing about waiting, so it
  holds of code between two locks without a word about the locks, and `Ends.and_part`
  adds it to what is known of a program that does come to an end.

  An `Effect` is a relation between the state before and the state after, graded by
  an amount; one thing after another adds the amounts.  `p.Has F m` says that `p`,
  wherever it starts, does no more than `m` of it.
-/
import ConcurrentFs.Lib.Prog
import Mathlib.Algebra.Order.Monoid.Canonical.Defs
import Mathlib.Algebra.Order.BigOperators.Group.List

namespace ConcurrentFs.Lib

namespace Prog

variable {σ ε α β : Type}

/-! ## Partial correctness -/

/-- Run alone from `s`, `p` returns and `P` holds, or throws and `E` holds, or waits for ever. -/
def Part : Prog σ ε α → σ → (α → σ → Prop) → (ε → σ → Prop) → Prop
  | ret a, s, P, _ => P a s
  | fail e, s, _, E => E e s
  | act ready step next, s, P, E => ready s = true → (next s).Part (step s) P E

section Rules

variable {p : Prog σ ε α} {s : σ} {P P' : α → σ → Prop} {E E' : ε → σ → Prop}

@[simp] theorem part_ret (a : α) : (ret a : Prog σ ε α).Part s P E ↔ P a s := Iff.rfl

@[simp] theorem part_pure (a : α) : (pure a : Prog σ ε α).Part s P E ↔ P a s := Iff.rfl

@[simp] theorem part_throw (e : ε) : (throw e : Prog σ ε α).Part s P E ↔ E e s := Iff.rfl

theorem part_iff_run : p.Part s P E ↔ ∀ out, p.run s = some out → Meets P E out.1 out.2 := by
  induction p generalizing s with
  | ret a => simp [Part, run, Meets]
  | fail e => simp [Part, run, Meets]
  | act ready step next ih =>
    by_cases h : ready s = true
    · simp only [Part, run, h, if_true, true_implies, ih]
    · simp [Part, run, h]

theorem part_bind' (f : α → Prog σ ε β) {Q : β → σ → Prop} :
    (p.bind f).Part s Q E ↔ p.Part s (fun a s' => (f a).Part s' Q E) E := by
  induction p generalizing s with
  | ret a => rfl
  | fail e => rfl
  | act ready step next ih => simp only [bind, Part, ih]

@[simp] theorem part_bind (f : α → Prog σ ε β) {Q : β → σ → Prop} :
    (p >>= f).Part s Q E ↔ p.Part s (fun a s' => (f a).Part s' Q E) E :=
  part_bind' f

theorem part_catch (h : ε → Prog σ ε α) :
    (p.catch_ h).Part s P E ↔ p.Part s P fun e s' => (h e).Part s' P E := by
  induction p generalizing s with
  | ret a => rfl
  | fail e => rfl
  | act ready step next ih => simp only [catch_, Part, ih]

@[simp] theorem part_tryCatch (h : ε → Prog σ ε α) :
    (tryCatch p h).Part s P E ↔ p.Part s P fun e s' => (h e).Part s' P E :=
  part_catch h

@[simp] theorem part_onError (q : Prog σ ε Unit) :
    (p.onError q).Part s P E ↔ p.Part s P fun e s' => q.Part s' (fun _ => E e) E := by
  unfold onError
  rw [part_tryCatch]
  simp only [part_bind, part_throw]

@[simp] theorem part_ensure (q : Prog σ ε Unit) :
    (p.ensure q).Part s P E ↔
      p.Part s (fun a s' => q.Part s' (fun _ => P a) E)
        fun e s' => q.Part s' (fun _ => E e) E := by
  unfold ensure
  simp only [part_bind, part_tryCatch, part_throw, part_pure]

@[simp] theorem part_view (f : σ → α) : (view f : Prog σ ε α).Part s P E ↔ P (f s) s := by
  simp [view, Part]

@[simp] theorem part_change (f : σ → σ) {Q : Unit → σ → Prop} :
    (change f : Prog σ ε Unit).Part s Q E ↔ Q () (f s) := by
  simp [change, Part]

@[simp] theorem part_await (ready : σ → Bool) (f : σ → σ) {Q : Unit → σ → Prop} :
    (await ready f : Prog σ ε Unit).Part s Q E ↔ (ready s = true → Q () (f s)) := by
  simp [await, Part]

@[simp] theorem part_atomic : p.atomic.Part s P E ↔ p.Part s P E := by
  rw [part_iff_run (p := p)]
  unfold atomic
  cases h : p.run s with
  | none => simp [Part, h]
  | some out =>
    obtain ⟨r, s'⟩ := out
    cases r <;> simp [Part, h, ofExcept, Meets]

/-- Weaker postconditions. -/
theorem Part.mono (h : p.Part s P E) (hP : ∀ a s', P a s' → P' a s')
    (hE : ∀ e s', E e s' → E' e s') : p.Part s P' E' := by
  induction p generalizing s with
  | ret a => exact hP a s h
  | fail e => exact hE e s h
  | act ready step next ih => exact fun hr => ih s (h hr)

/-- Nothing is said. -/
theorem part_true (p : Prog σ ε α) (s : σ) : p.Part s (fun _ _ => True) fun _ _ => True := by
  induction p generalizing s with
  | ret a => trivial
  | fail e => trivial
  | act ready step next ih => exact fun _ => ih s (step s)

theorem Ends.part (h : p.Ends s P E) : p.Part s P E := by
  induction p generalizing s with
  | ret a => exact h
  | fail e => exact h
  | act ready step next ih => exact fun _ => ih s h.2

/-- What a program does that comes to an end. -/
theorem Ends.and_part (h : p.Ends s P E) (h' : p.Part s P' E') :
    p.Ends s (fun a s' => P a s' ∧ P' a s') fun e s' => E e s' ∧ E' e s' := by
  induction p generalizing s with
  | ret a => exact ⟨h, h'⟩
  | fail e => exact ⟨h, h'⟩
  | act ready step next ih => exact ⟨h.1, ih s h.2 (h' h.1)⟩

theorem Part.and (h : p.Part s P E) (h' : p.Part s P' E') :
    p.Part s (fun a s' => P a s' ∧ P' a s') fun e s' => E e s' ∧ E' e s' := by
  induction p generalizing s with
  | ret a => exact ⟨h, h'⟩
  | fail e => exact ⟨h, h'⟩
  | act ready step next ih => exact fun hr => ih s (h hr) (h' hr)

end Rules

end Prog

/-! ## Effects -/

/-- Something a program may do to the state, in amounts that add up. -/
structure Effect (σ M : Type) [AddCommMonoid M] [PartialOrder M] where
  rel : M → σ → σ → Prop
  refl : ∀ s, rel 0 s s
  trans : ∀ {m n s s' s''}, rel m s s' → rel n s' s'' → rel (m + n) s s''
  mono : ∀ {m n s s'}, m ≤ n → rel m s s' → rel n s s'

namespace Prog

section Effects

variable {σ ε α β M : Type} [AddCommMonoid M] [PartialOrder M] {F : Effect σ M} {m n : M}
  {p : Prog σ ε α} {q : Prog σ ε Unit}

/-- `p` does no more than `m` of the effect. -/
def Has (F : Effect σ M) (m : M) (p : Prog σ ε α) : Prop :=
  ∀ s, p.Part s (fun _ => F.rel m s) fun _ => F.rel m s

theorem Has.mono (h : p.Has F m) (hmn : m ≤ n) : p.Has F n := fun s =>
  (h s).mono (fun _ _ => F.mono hmn) fun _ _ => F.mono hmn

theorem has_pure (a : α) : (pure a : Prog σ ε α).Has F 0 := F.refl

theorem has_throw (e : ε) : (throw e : Prog σ ε α).Has F 0 := F.refl

theorem has_view (f : σ → α) : (view f : Prog σ ε α).Has F 0 := fun s =>
    (part_view f).mpr (F.refl s)

theorem has_change {f : σ → σ} (h : ∀ s, F.rel m s (f s)) : (change f : Prog σ ε Unit).Has F m :=
  fun s => (part_change f).mpr (h s)

theorem Has.atomic (h : p.Has F m) : p.atomic.Has F m := fun s => part_atomic.mpr (h s)

theorem Has.ite {c : Prop} [Decidable c] {p' : Prog σ ε α} (h : p.Has F m) (h' : p'.Has F m) :
    (if c then p else p').Has F m := by
  split
  · exact h
  · exact h'

theorem Has.ensure (hp : p.Has F m) (hq : q.Has F n) : (p.ensure q).Has F (m + n) := by
  intro s
  rw [part_ensure]
  refine (hp s).mono (fun a s' h1 => ?_) fun e s' h1 => ?_
  · exact (hq s').mono (fun _ _ => F.trans h1) fun _ _ => F.trans h1
  · exact (hq s').mono (fun _ _ => F.trans h1) fun _ _ => F.trans h1

variable [CanonicallyOrderedAdd M]

theorem Has.bind {f : α → Prog σ ε β} (h : p.Has F m) (hf : ∀ a, (f a).Has F n) :
    (p >>= f).Has F (m + n) := by
  intro s
  rw [part_bind]
  refine (h s).mono (fun a s' h1 => ?_) fun e s' h1 => F.mono le_self_add h1
  exact (hf a s').mono (fun _ _ => F.trans h1) fun _ _ => F.trans h1

theorem Has.catch_ {h : ε → Prog σ ε α} (hp : p.Has F m) (hh : ∀ e, (h e).Has F n) :
    (p.catch_ h).Has F (m + n) := by
  intro s
  rw [part_catch]
  refine (hp s).mono (fun a s' h1 => F.mono le_self_add h1) fun e s' h1 => ?_
  exact (hh e s').mono (fun _ _ => F.trans h1) fun _ _ => F.trans h1

theorem Has.onError (hp : p.Has F m) (hq : q.Has F n) : (p.onError q).Has F (m + n) := by
  refine Has.catch_ hp fun e => ?_
  have := hq.bind fun _ => has_throw (α := α) (F := F) e
  rwa [add_zero] at this

/-- A stretch that does nothing, and what comes after it. -/
theorem Has.then {f : α → Prog σ ε β} (h : p.Has F 0) (hf : ∀ a, (f a).Has F m) :
    (p >>= f).Has F m := by
  have := h.bind hf
  rwa [zero_add] at this

/-- A loop. -/
theorem has_forM {f : β → Prog σ ε Unit} (l : List β) (h : ∀ b ∈ l, (f b).Has F m) :
    (l.forM f).Has F (l.length • m) := by
  induction l with
  | nil => exact (has_pure ()).mono (by rw [List.length_nil, zero_nsmul])
  | cons b l ih =>
    refine ((h b List.mem_cons_self).bind fun _ => ih fun b' hb' =>
      h b' (List.mem_cons_of_mem _ hb')).mono ?_
    rw [List.length_cons, succ_nsmul, add_comm]

end Effects

end Prog

end ConcurrentFs.Lib
