/-
  ConcurrentFs.Lib.Prog

  Programs over a shared state, as trees of atomic steps.

  A `Prog σ ε α` returns an `α`, throws an `ε`, or takes one atomic step on the
  state and goes on with a program that depends on what the state was.  A step
  may have to wait: it is taken only in a state that is `ready` for it.  Keeping
  the steps apart is what lets other threads come in between; running a program
  alone is `run`, and `Ends` is the total-correctness predicate for it: the
  program never waits for ever, and ends in a state that meets one of the two
  postconditions.  `atomic` folds a stretch of a program into one step, for code
  that runs under a lock that keeps everybody else out.
-/
import Mathlib.Logic.Basic

namespace ConcurrentFs.Lib

/-- A program over states `σ` that throws `ε` or returns `α`. -/
inductive Prog (σ ε : Type) (α : Type) : Type where
  | ret (a : α)
  | fail (e : ε)
  /-- One step: wait until the state is ready, change it, go on. -/
  | act (ready : σ → Bool) (step : σ → σ) (next : σ → Prog σ ε α)

namespace Prog

variable {σ ε α β γ : Type}

/-- `p`, then `f` on what it returned. -/
def bind : Prog σ ε α → (α → Prog σ ε β) → Prog σ ε β
  | ret a, f => f a
  | fail e, _ => fail e
  | act ready step next, f => act ready step fun s => (next s).bind f

/-- `p`, or `h` on what it threw. -/
def catch_ : Prog σ ε α → (ε → Prog σ ε α) → Prog σ ε α
  | ret a, _ => ret a
  | fail e, h => h e
  | act ready step next, h => act ready step fun s => (next s).catch_ h

instance : Monad (Prog σ ε) where
  pure := ret
  bind := bind

instance : MonadExceptOf ε (Prog σ ε) where
  throw := fail
  tryCatch := catch_

/-- `p`, and then `q` however `p` came to its end: what a destructor does. -/
def ensure (p : Prog σ ε α) (q : Prog σ ε Unit) : Prog σ ε α := do
  let a ← try p catch e => do q; throw e
  q
  return a

/-- `p`, and then `q` if `p` threw, which is thrown on. -/
def onError (p : Prog σ ε α) (q : Prog σ ε Unit) : Prog σ ε α :=
  try p catch e => do q; throw e

/-- A step that reads the state. -/
def view (f : σ → α) : Prog σ ε α := act (fun _ => true) id fun s => ret (f s)

/-- A step that changes the state. -/
def change (f : σ → σ) : Prog σ ε Unit := act (fun _ => true) f fun _ => ret ()

/-- A step that waits for `ready`, then changes the state. -/
def await (ready : σ → Bool) (f : σ → σ) : Prog σ ε Unit := act ready f fun _ => ret ()

/-- What is left of a program after it has run to its end. -/
def ofExcept : Except ε α → Prog σ ε α
  | .ok a => ret a
  | .error e => fail e

/-- Runs alone from `s`; `none` when it waits for something that never comes. -/
def run : Prog σ ε α → σ → Option (Except ε α × σ)
  | ret a, s => some (.ok a, s)
  | fail e, s => some (.error e, s)
  | act ready step next, s => if ready s then (next s).run (step s) else none

/-- The whole of `p` as one step. -/
def atomic (p : Prog σ ε α) : Prog σ ε α :=
  act (fun s => (p.run s).isSome) (fun s => ((p.run s).map Prod.snd).getD s)
    fun s => match p.run s with
      | some (r, _) => ofExcept r
      | none => p

/-- Run alone from `s`, `p` returns and `P` holds, or throws and `E` holds. -/
def Ends : Prog σ ε α → σ → (α → σ → Prop) → (ε → σ → Prop) → Prop
  | ret a, s, P, _ => P a s
  | fail e, s, _, E => E e s
  | act ready step next, s, P, E => ready s = true ∧ (next s).Ends (step s) P E

/-- The postcondition that goes with an outcome. -/
def Meets (P : α → σ → Prop) (E : ε → σ → Prop) : Except ε α → σ → Prop
  | .ok a => P a
  | .error e => E e

/-! ## Rules for `Ends` -/

section Rules

variable {p : Prog σ ε α} {s : σ} {P P' : α → σ → Prop} {E E' : ε → σ → Prop}

@[simp] theorem ends_ret (a : α) : (ret a : Prog σ ε α).Ends s P E ↔ P a s := Iff.rfl

@[simp] theorem ends_pure (a : α) : (pure a : Prog σ ε α).Ends s P E ↔ P a s := Iff.rfl

@[simp] theorem ends_throw (e : ε) : (throw e : Prog σ ε α).Ends s P E ↔ E e s := Iff.rfl

theorem ends_bind' (f : α → Prog σ ε β) {Q : β → σ → Prop} :
    (p.bind f).Ends s Q E ↔ p.Ends s (fun a s' => (f a).Ends s' Q E) E := by
  induction p generalizing s with
  | ret a => rfl
  | fail e => rfl
  | act ready step next ih =>
    simp only [bind, Ends, ih]

@[simp] theorem ends_bind (f : α → Prog σ ε β) {Q : β → σ → Prop} :
    (p >>= f).Ends s Q E ↔ p.Ends s (fun a s' => (f a).Ends s' Q E) E :=
  ends_bind' f

@[simp] theorem ends_map (f : α → β) {Q : β → σ → Prop} :
    (f <$> p).Ends s Q E ↔ p.Ends s (fun a s' => Q (f a) s') E :=
  ends_bind' _

theorem ends_catch (h : ε → Prog σ ε α) :
    (p.catch_ h).Ends s P E ↔ p.Ends s P fun e s' => (h e).Ends s' P E := by
  induction p generalizing s with
  | ret a => rfl
  | fail e => rfl
  | act ready step next ih =>
    simp only [catch_, Ends, ih]

@[simp] theorem ends_tryCatch (h : ε → Prog σ ε α) :
    (tryCatch p h).Ends s P E ↔ p.Ends s P fun e s' => (h e).Ends s' P E :=
  ends_catch h

@[simp] theorem ends_onError (q : Prog σ ε Unit) :
    (p.onError q).Ends s P E ↔ p.Ends s P fun e s' => q.Ends s' (fun _ => E e) E := by
  unfold onError
  rw [ends_tryCatch]
  simp only [ends_bind, ends_throw]

@[simp] theorem ends_ensure (q : Prog σ ε Unit) :
    (p.ensure q).Ends s P E ↔
      p.Ends s (fun a s' => q.Ends s' (fun _ => P a) E)
        fun e s' => q.Ends s' (fun _ => E e) E := by
  unfold ensure
  simp only [ends_bind, ends_tryCatch, ends_throw, ends_pure]

@[simp] theorem ends_view (f : σ → α) : (view f : Prog σ ε α).Ends s P E ↔ P (f s) s := by
  simp [view, Ends]

@[simp] theorem ends_change (f : σ → σ) {Q : Unit → σ → Prop} :
    (change f : Prog σ ε Unit).Ends s Q E ↔ Q () (f s) := by
  simp [change, Ends]

@[simp] theorem ends_await (ready : σ → Bool) (f : σ → σ) {Q : Unit → σ → Prop} :
    (await ready f : Prog σ ε Unit).Ends s Q E ↔ ready s = true ∧ Q () (f s) := by
  simp [await, Ends]

theorem ends_ite {c : Prop} [Decidable c] (q : Prog σ ε α) :
    (if c then p else q).Ends s P E ↔ if c then p.Ends s P E else q.Ends s P E := by
  split <;> rfl

/-- Weaker postconditions. -/
theorem Ends.mono (h : p.Ends s P E) (hP : ∀ a s', P a s' → P' a s')
    (hE : ∀ e s', E e s' → E' e s') : p.Ends s P' E' := by
  induction p generalizing s with
  | ret a => exact hP a s h
  | fail e => exact hE e s h
  | act ready step next ih => exact ⟨h.1, ih s h.2⟩

/-- `Ends` speaks of the one way `run` goes. -/
theorem ends_iff_run : p.Ends s P E ↔ ∃ out, p.run s = some out ∧ Meets P E out.1 out.2 := by
  induction p generalizing s with
  | ret a => simp [Ends, run, Meets]
  | fail e => simp [Ends, run, Meets]
  | act ready step next ih =>
    by_cases h : ready s = true
    · simp only [Ends, run, h, if_true, true_and, ih]
    · simp [Ends, run, h]

/-- Where a program that returns ends. -/
theorem run_eq_ok {a : α} {s' : σ} :
    p.run s = some (.ok a, s') ↔ p.Ends s (fun b t => b = a ∧ t = s') fun _ _ => False := by
  rw [ends_iff_run]
  constructor
  · intro h
    exact ⟨_, h, rfl, rfl⟩
  · rintro ⟨⟨out, t⟩, h, hout⟩
    cases out with
    | ok b =>
      obtain ⟨h1, h2⟩ := hout
      rw [h, h1]
      exact congrArg some (congrArg _ h2)
    | error e => exact hout.elim

/-- Where a program that throws ends. -/
theorem run_eq_error {e : ε} {s' : σ} :
    p.run s = some (.error e, s') ↔ p.Ends s (fun _ _ => False) fun b t => b = e ∧ t = s' := by
  rw [ends_iff_run]
  constructor
  · intro h
    exact ⟨_, h, rfl, rfl⟩
  · rintro ⟨⟨out, t⟩, h, hout⟩
    cases out with
    | ok b => exact hout.elim
    | error b =>
      obtain ⟨h1, h2⟩ := hout
      rw [h, h1]
      exact congrArg some (congrArg _ h2)

/-- What `f` sees of the result of a program that is run, if there is one. -/
def result {β : Type} (f : α → β) (p : Prog σ ε α) (s : σ) : Option β :=
  (p.run s).bind fun out => out.1.toOption.map f

theorem run_of_result {β : Type} {f : α → β} {b : β} (h : p.result f s = some b) :
    ∃ a s', p.run s = some (.ok a, s') ∧ f a = b := by
  obtain ⟨⟨out, s'⟩, hrun, hb⟩ := Option.bind_eq_some_iff.mp h
  cases out with
  | error e => contradiction
  | ok a => exact ⟨a, s', hrun, Option.some.inj hb⟩

theorem result_of_run {β : Type} {f : α → β} {a : α} {s' : σ} {b : β}
    (h : p.run s = some (.ok a, s')) (hb : p.result f s = some b) : f a = b := by
  obtain ⟨a', s'', hrun, hf⟩ := run_of_result hb
  rw [h] at hrun
  obtain ⟨ha, -⟩ := Prod.mk.inj (Option.some.inj hrun)
  rw [Except.ok.inj ha, hf]

/-- What is known of a program, where its result can be computed. -/
theorem Ends.result {β : Type} {f : α → β} {b : β} (h : p.Ends s P E) (hb : p.result f s = some b) :
    ∃ a s', p.run s = some (.ok a, s') ∧ f a = b ∧ P a s' := by
  obtain ⟨out, hrun, hout⟩ := ends_iff_run.mp h
  obtain ⟨a, s', hrun', hf⟩ := run_of_result hb
  rw [hrun] at hrun'
  obtain rfl := Option.some.inj hrun'
  exact ⟨a, s', hrun, hf, hout⟩

@[simp] theorem ends_atomic : p.atomic.Ends s P E ↔ p.Ends s P E := by
  rw [ends_iff_run (p := p)]
  unfold atomic
  cases h : p.run s with
  | none => simp [Ends, h]
  | some out =>
    obtain ⟨r, s'⟩ := out
    cases r <;> simp [Ends, h, ofExcept, Meets]

/-- Two facts about the one way a program goes. -/
theorem Ends.and (h : p.Ends s P E) (h' : p.Ends s P' E') :
    p.Ends s (fun a s' => P a s' ∧ P' a s') fun e s' => E e s' ∧ E' e s' := by
  induction p generalizing s with
  | ret a => exact ⟨h, h'⟩
  | fail e => exact ⟨h, h'⟩
  | act ready step next ih => exact ⟨h.1, ih s h.2 h'.2⟩

/-- A loop over consecutive numbers, with an invariant. -/
theorem ends_forM_range' {I : Nat → σ → Prop} {f : Nat → Prog σ ε Unit} (n : Nat) :
    ∀ {m : Nat} {s : σ}, I m s →
      (∀ k, m ≤ k → k < m + n → ∀ s, I k s → (f k).Ends s (fun _ => I (k + 1)) E) →
      ((List.range' m n).forM f).Ends s (fun _ => I (m + n)) E := by
  induction n with
  | zero => exact fun h _ => h
  | succ n ih =>
    intro m s h hstep
    show (f m >>= fun _ => (List.range' (m + 1) n).forM f).Ends s _ E
    rw [ends_bind]
    refine (hstep m (Nat.le_refl m) (by omega) s h).mono (fun _ s' h' => ?_) fun _ _ hE => hE
    rw [show m + (n + 1) = m + 1 + n by omega]
    exact ih h' fun k h1 h2 => hstep k (by omega) (by omega)

theorem ends_forM_range {I : Nat → σ → Prop} {f : Nat → Prog σ ε Unit} {n : Nat} (h : I 0 s)
    (hstep : ∀ k < n, ∀ s, I k s → (f k).Ends s (fun _ => I (k + 1)) E) :
    ((List.range n).forM f).Ends s (fun _ => I n) E := by
  have := ends_forM_range' n h fun k _ hk => hstep k (by omega)
  rwa [Nat.zero_add, ← List.range_eq_range'] at this

end Rules

end Prog

end ConcurrentFs.Lib
