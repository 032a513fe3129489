/-
  ConcurrentFs.Lib.Threads

  Many threads over one state.  Every thread runs programs (`Prog`) one after the
  other, and any thread may take the next step, so between two steps of one the
  others may have done anything.

  Reasoning is by ghosts: each thread has one, which says what the thread holds
  and what it knows, and one invariant ties the shared state, a shared ghost (the
  world) and the ghosts of all threads together.  `Safe p g Q E` says that `p`,
  run by a thread whose ghost is `g`, keeps the invariant at each of its steps
  whatever the other ghosts are, waits only for a thread that ranks higher, and
  ends with a result and a ghost that satisfy `Q`, or an exception and one that
  satisfy `E`.  `Safe.ends` is what follows for a thread that runs alone.  For any
  number of threads in any interleaving, `Pool.Spec.run_ok` says that the invariant
  always holds, `Pool.Spec.unstuck` that some thread can always go on, and
  `Pool.Spec.inevitable` that the calls which are running all return.  `Pool.play`
  computes a run from a list of the scheduler's choices.
-/
import ConcurrentFs.Lib.Prog
import Mathlib.Data.Multiset.Basic
import Mathlib.Data.ENat.Basic
import Mathlib.Data.Set.Finite.Lemmas

namespace ConcurrentFs.Lib

/-- What the threads share: an invariant over the state, the world and all ghosts, how a thread may
    change the world along with its ghost, and for whom it may wait. -/
structure Shared (σ ω γ : Type) where
  inv : σ → ω → Multiset γ → Prop
  rank : γ → ℕ∞
  moves : ω → γ → ω → γ → Prop
  refl : ∀ w g, moves w g w g
  trans : ∀ {w g w' g' w'' g''}, moves w g w' g' → moves w' g' w'' g'' → moves w g w'' g''

namespace Prog

variable {σ ε ω γ α β : Type} (L : Shared σ ω γ)

/-- `p`, run by a thread with ghost `g`. -/
def Safe : Prog σ ε α → γ → (α → γ → Prop) → (ε → γ → Prop) → Prop
  | ret a, g, Q, _ => Q a g
  | fail e, g, _, E => E e g
  | act ready step next, g, Q, E => ∀ s w rest, L.inv s w (g ::ₘ rest) →
    (ready s = true ∨ ∃ g' ∈ rest, L.rank g < L.rank g') ∧
    (ready s = true → ∃ g' w', L.moves w g w' g' ∧ L.inv (step s) w' (g' ::ₘ rest) ∧
      (next s).Safe g' Q E)

section Rules

variable {L} {p : Prog σ ε α} {g : γ} {Q Q' : α → γ → Prop} {E E' : ε → γ → Prop}

@[simp] theorem safe_ret (a : α) : (ret a : Prog σ ε α).Safe L g Q E ↔ Q a g := Iff.rfl

@[simp] theorem safe_pure (a : α) : (pure a : Prog σ ε α).Safe L g Q E ↔ Q a g := Iff.rfl

@[simp] theorem safe_throw (e : ε) : (throw e : Prog σ ε α).Safe L g Q E ↔ E e g := Iff.rfl

/-- Weaker postconditions. -/
theorem Safe.mono (h : p.Safe L g Q E) (hQ : ∀ a g', Q a g' → Q' a g')
    (hE : ∀ e g', E e g' → E' e g') : p.Safe L g Q' E' := by
  induction p generalizing g with
  | ret a => exact hQ a g h
  | fail e => exact hE e g h
  | act ready step next ih =>
    intro s w rest hinv
    obtain ⟨hwait, hstep⟩ := h s w rest hinv
    refine ⟨hwait, fun hr => ?_⟩
    obtain ⟨g', w', hm, hinv', hs⟩ := hstep hr
    exact ⟨g', w', hm, hinv', ih s hs⟩

theorem Safe.bind (f : α → Prog σ ε β) {R : β → γ → Prop}
    (h : p.Safe L g (fun a g' => (f a).Safe L g' R E) E) : (p >>= f).Safe L g R E := by
  show (p.bind f).Safe L g R E
  induction p generalizing g with
  | ret a => exact h
  | fail e => exact h
  | act ready step next ih =>
    intro s w rest hinv
    obtain ⟨hwait, hstep⟩ := h s w rest hinv
    refine ⟨hwait, fun hr => ?_⟩
    obtain ⟨g', w', hm, hinv', hs⟩ := hstep hr
    exact ⟨g', w', hm, hinv', ih s hs⟩

theorem Safe.catch_ (h : ε → Prog σ ε α)
    (hp : p.Safe L g Q fun e g' => (h e).Safe L g' Q E) : (p.catch_ h).Safe L g Q E := by
  induction p generalizing g with
  | ret a => exact hp
  | fail e => exact hp
  | act ready step next ih =>
    intro s w rest hinv
    obtain ⟨hwait, hstep⟩ := hp s w rest hinv
    refine ⟨hwait, fun hr => ?_⟩
    obtain ⟨g', w', hm, hinv', hs⟩ := hstep hr
    exact ⟨g', w', hm, hinv', ih s hs⟩

theorem Safe.onError {q : Prog σ ε Unit}
    (hp : p.Safe L g Q fun e g' => q.Safe L g' (fun _ => E e) E) : (p.onError q).Safe L g Q E :=
  Safe.catch_ _ (hp.mono (fun _ _ h => h) fun _ _ h => Safe.bind _ h)

theorem Safe.ensure {q : Prog σ ε Unit}
    (hp : p.Safe L g (fun a g' => q.Safe L g' (fun _ => Q a) E)
      fun e g' => q.Safe L g' (fun _ => E e) E) : (p.ensure q).Safe L g Q E := by
  refine Safe.bind _ (Safe.catch_ _ (hp.mono (fun a g' h => ?_) fun e g' h => ?_))
  · exact Safe.bind _ h
  · exact Safe.bind _ h

/-- One step. -/
theorem safe_act {ready : σ → Bool} {step : σ → σ} {next : σ → Prog σ ε α}
    (h : ∀ s w rest, L.inv s w (g ::ₘ rest) →
      (ready s = true ∨ ∃ g' ∈ rest, L.rank g < L.rank g') ∧
      (ready s = true → ∃ g' w', L.moves w g w' g' ∧ L.inv (step s) w' (g' ::ₘ rest) ∧
        (next s).Safe L g' Q E)) : (act ready step next).Safe L g Q E := h

/-- A stretch taken as one step: what it does when run alone. -/
theorem safe_atomic
    (h : ∀ s w rest, L.inv s w (g ::ₘ rest) →
      p.Ends s (fun a s' => ∃ g' w', L.moves w g w' g' ∧ L.inv s' w' (g' ::ₘ rest) ∧ Q a g')
        fun e s' => ∃ g' w', L.moves w g w' g' ∧ L.inv s' w' (g' ::ₘ rest) ∧ E e g') :
    p.atomic.Safe L g Q E := by
  refine safe_act fun s w rest hinv => ?_
  obtain ⟨⟨out, s'⟩, hrun, hout⟩ := ends_iff_run.mp (h s w rest hinv)
  refine ⟨.inl (by rw [hrun]; rfl), fun _ => ?_⟩
  rw [hrun]
  cases out with
  | ok a =>
    obtain ⟨g', w', hm, hinv', hq⟩ := hout
    exact ⟨g', w', hm, hinv', hq⟩
  | error e =>
    obtain ⟨g', w', hm, hinv', he⟩ := hout
    exact ⟨g', w', hm, hinv', he⟩

/-- A thread that is alone. -/
theorem Safe.ends (h : p.Safe L g Q E) {s : σ} {w : ω} (hinv : L.inv s w {g}) :
    p.Ends s (fun a s' => ∃ g' w', L.moves w g w' g' ∧ L.inv s' w' {g'} ∧ Q a g')
      fun e s' => ∃ g' w', L.moves w g w' g' ∧ L.inv s' w' {g'} ∧ E e g' := by
  induction p generalizing g s w with
  | ret a => exact ⟨g, w, L.refl w g, hinv, h⟩
  | fail e => exact ⟨g, w, L.refl w g, hinv, h⟩
  | act ready step next ih =>
    obtain ⟨hwait, hstep⟩ := h s w 0 hinv
    -- there is nobody to wait for
    have hr : ready s = true := hwait.resolve_right fun h => by
      obtain ⟨g', hg', -⟩ := h
      exact Multiset.notMem_zero g' hg'
    obtain ⟨g', w', hm, hinv', hs⟩ := hstep hr
    refine ⟨hr, (ih s hs hinv').mono (fun a s' h' => ?_) fun e s' h' => ?_⟩
    · obtain ⟨g'', w'', hm', hi, hq⟩ := h'
      exact ⟨g'', w'', L.trans hm hm', hi, hq⟩
    · obtain ⟨g'', w'', hm', hi, he⟩ := h'
      exact ⟨g'', w'', L.trans hm hm', hi, he⟩

end Rules

end Prog

/-! ## Pools of threads -/

/-- What a thread is doing: nothing, or a call, with the rest of its program. -/
inductive Status (κ σ ε α : Type) where
  | idle
  | busy (call : κ) (rest : Prog σ ε α)

def Status.isIdle {κ σ ε α : Type} : Status κ σ ε α → Bool
  | idle => true
  | busy _ _ => false

/-- What is seen of a run from outside. -/
inductive Event (κ α : Type) where
  | call (thread : Nat) (c : κ)
  | ret (thread : Nat) (c : κ) (a : α)

/-- The state, the threads, and what has been seen so far. -/
structure Pool (κ σ ε α : Type) where
  state : σ
  threads : List (Status κ σ ε α)
  trace : List (Event κ α)

namespace Pool

variable {κ σ ε α ω γ : Type}

/-- One step of a pool whose calls run the programs `code`: a thread with nothing to do makes a
    call, a thread takes one step of its program, or a call returns. -/
inductive Step (code : κ → Prog σ ε α) : Pool κ σ ε α → Pool κ σ ε α → Prop where
  | start (s : σ) (front back : List (Status κ σ ε α)) (tr : List (Event κ α)) (c : κ) :
    Step code ⟨s, front ++ .idle :: back, tr⟩
      ⟨s, front ++ .busy c (code c) :: back, tr ++ [.call front.length c]⟩
  | act (s : σ) (front back : List (Status κ σ ε α)) (tr : List (Event κ α)) (c : κ)
    (ready : σ → Bool) (step : σ → σ) (next : σ → Prog σ ε α) (h : ready s = true) :
    Step code ⟨s, front ++ .busy c (.act ready step next) :: back, tr⟩
      ⟨step s, front ++ .busy c (next s) :: back, tr⟩
  | finish (s : σ) (front back : List (Status κ σ ε α)) (tr : List (Event κ α)) (c : κ) (a : α) :
    Step code ⟨s, front ++ .busy c (.ret a) :: back, tr⟩
      ⟨s, front ++ .idle :: back, tr ++ [.ret front.length c a]⟩

/-- The pools that can come about from `n` threads with nothing to do. -/
inductive Reachable (code : κ → Prog σ ε α) (s : σ) (n : Nat) : Pool κ σ ε α → Prop where
  | init : Reachable code s n ⟨s, List.replicate n .idle, []⟩
  | step {P P' : Pool κ σ ε α} : Reachable code s n P → Step code P P' → Reachable code s n P'

/-- What has to be known of the calls: how the ghost of thread `i` starts, and how it ends. -/
structure Spec (code : κ → Prog σ ε α) (L : Shared σ ω γ) where
  /-- The ghost of thread `i` between calls. -/
  Rest : Nat → γ → Prop
  /-- The ghost with which the program of a call ends. -/
  Post : Nat → κ → α → γ → Prop
  /-- The trace as the world has it. -/
  trace : ω → List (Event κ α)
  /-- What nothing changes. -/
  Kept : ω → Prop
  low : ∀ {i g}, Rest i g → L.rank g = 0
  quiet : ∀ {w g w' g'}, L.moves w g w' g' → trace w' = trace w ∧ (Kept w → Kept w')
  start : ∀ i c s w g rest, L.inv s w (g ::ₘ rest) → Rest i g → ∃ g' w',
    L.inv s w' (g' ::ₘ rest) ∧ trace w' = trace w ++ [.call i c] ∧ (Kept w → Kept w') ∧
    (code c).Safe L g' (Post i c) fun _ _ => False
  finish : ∀ i c a s w g rest, L.inv s w (g ::ₘ rest) → Post i c a g → ∃ g' w',
    L.inv s w' (g' ::ₘ rest) ∧ trace w' = trace w ++ [.ret i c a] ∧ (Kept w → Kept w') ∧
    Rest i g'

variable {code : κ → Prog σ ε α} {L : Shared σ ω γ}

/-- The ghost of thread `i` fits what it is doing. -/
def Spec.Fits (S : Spec code L) (i : Nat) : Status κ σ ε α → γ → Prop
  | .idle, g => S.Rest i g
  | .busy c p, g => p.Safe L g (S.Post i c) fun _ _ => False

/-- The ghosts of the threads from the `i`-th on fit what those do. -/
def Spec.AllFit (S : Spec code L) : Nat → List (Status κ σ ε α) → List γ → Prop
  | _, [], [] => True
  | i, t :: ts, g :: gs => S.Fits i t g ∧ S.AllFit (i + 1) ts gs
  | _, _, _ => False

theorem Spec.allFit_split (S : Spec code L) {i : Nat} {front back : List (Status κ σ ε α)}
    {t : Status κ σ ε α} {gs : List γ} (h : S.AllFit i (front ++ t :: back) gs) :
    ∃ gf g gb, gs = gf ++ g :: gb ∧ S.Fits (i + front.length) t g ∧
      ∀ t' g', S.Fits (i + front.length) t' g' →
        S.AllFit i (front ++ t' :: back) (gf ++ g' :: gb) := by
  induction front generalizing i gs with
  | nil =>
    cases gs with
    | nil => exact h.elim
    | cons g gs =>
      exact ⟨[], g, gs, rfl, h.1, fun t' g' hf => ⟨hf, h.2⟩⟩
  | cons u front ih =>
    cases gs with
    | nil => exact h.elim
    | cons g gs =>
      obtain ⟨gf, g1, gb, rfl, hfit, hput⟩ := ih h.2
      rw [show i + 1 + front.length = i + (u :: front).length by simp; omega] at hfit hput
      exact ⟨g :: gf, g1, gb, rfl, hfit, fun t' g' hf => ⟨h.1, hput t' g' hf⟩⟩

/-- The invariant of a pool. -/
def Spec.Ok (S : Spec code L) (P : Pool κ σ ε α) : Prop :=
  ∃ (w : ω) (gs : List γ), L.inv P.state w (gs : Multiset γ) ∧ S.Kept w ∧ S.trace w = P.trace ∧
    S.AllFit 0 P.threads gs

theorem coe_middle (gf gb : List γ) (g : γ) :
    ((gf ++ g :: gb : List γ) : Multiset γ) = g ::ₘ ((gf ++ gb : List γ) : Multiset γ) := by
  rw [Multiset.cons_coe]
  exact Multiset.coe_eq_coe.mpr List.perm_middle

theorem Spec.step_ok (S : Spec code L) {P P' : Pool κ σ ε α} (h : S.Ok P) (hstep : Step code P P') :
    S.Ok P' := by
  obtain ⟨w, gs, hinv, hkept, htr, hfit⟩ := h
  cases hstep with
  | start s front back tr c =>
    obtain ⟨gf, g, gb, rfl, hrest, hput⟩ := S.allFit_split hfit
    rw [Nat.zero_add] at hrest hput
    simp only [coe_middle] at hinv
    obtain ⟨g', w', hinv', htr', hk, hsafe⟩ := S.start front.length c s w g _ hinv hrest
    refine ⟨w', gf ++ g' :: gb, ?_, hk hkept, ?_, hput _ g' hsafe⟩
    · rw [coe_middle]
      exact hinv'
    · rw [htr', htr]
  | act s front back tr c ready step next hr =>
    obtain ⟨gf, g, gb, rfl, hsafe, hput⟩ := S.allFit_split hfit
    simp only [coe_middle] at hinv
    -- only the ghost of the thread that moves changes
    obtain ⟨-, hgo⟩ := hsafe s w _ hinv
    obtain ⟨g', w', hm, hinv', hsafe'⟩ := hgo hr
    obtain ⟨htr', hk⟩ := S.quiet hm
    refine ⟨w', gf ++ g' :: gb, ?_, hk hkept, ?_, hput _ g' hsafe'⟩
    · rw [coe_middle]
      exact hinv'
    · rw [htr', htr]
  | finish s front back tr c a =>
    obtain ⟨gf, g, gb, rfl, hpost, hput⟩ := S.allFit_split hfit
    rw [Nat.zero_add] at hpost hput
    simp only [coe_middle] at hinv
    obtain ⟨g', w', hinv', htr', hk, hrest⟩ := S.finish front.length c a s w g _ hinv hpost
    refine ⟨w', gf ++ g' :: gb, ?_, hk hkept, ?_, hput _ g' hrest⟩
    · rw [coe_middle]
      exact hinv'
    · rw [htr', htr]

/-- Every reachable pool is all right if the first one is. -/
theorem Spec.run_ok (S : Spec code L) {s : σ} {n : Nat} {P : Pool κ σ ε α}
    (h0 : S.Ok ⟨s, List.replicate n .idle, []⟩) (h : Reachable code s n P) : S.Ok P := by
  induction h with
  | init => exact h0
  | step _ hstep ih => exact S.step_ok ih hstep

/-! ### One thread at a time -/

/-- A thread that is the only one to go on runs the rest of its program. -/
theorem Reachable.runs {s0 s s' : σ} {n : Nat} {front back : List (Status κ σ ε α)}
    {tr : List (Event κ α)} {c : κ} {a : α} (p : Prog σ ε α)
    (h : Reachable code s0 n ⟨s, front ++ .busy c p :: back, tr⟩)
    (hrun : p.run s = some (.ok a, s')) :
    Reachable code s0 n ⟨s', front ++ .idle :: back, tr ++ [.ret front.length c a]⟩ := by
  induction p generalizing s with
  | ret b =>
    obtain ⟨hb, rfl⟩ := Prod.mk.inj (Option.some.inj hrun)
    obtain rfl := Except.ok.inj hb
    exact h.step (.finish s front back tr c b)
  | fail e =>
    obtain ⟨hb, -⟩ := Prod.mk.inj (Option.some.inj hrun)
    contradiction
  | act ready step next ih =>
    by_cases hr : ready s = true
    · rw [Prog.run, if_pos hr] at hrun
      exact ih s (h.step (.act s front back tr c ready step next hr)) hrun
    · rw [Prog.run, if_neg hr] at hrun
      contradiction

/-! ### Runs that can be evaluated -/

/-- What is to happen next: thread `i` makes a call, takes one step of its program, or is the only
    one to go on until its call returns. -/
inductive Pick (κ : Type) where
  | call (i : Nat) (c : κ)
  | work (i : Nat)
  | rest (i : Nat)

/-- What comes of it.  A thread that cannot do what is picked for it does nothing. -/
def pick (code : κ → Prog σ ε α) (P : Pool κ σ ε α) : Pick κ → Pool κ σ ε α
  | .call i c => match P.threads[i]? with
    | some .idle => ⟨P.state, P.threads.set i (.busy c (code c)), P.trace ++ [.call i c]⟩
    | _ => P
  | .work i => match P.threads[i]? with
    | some (.busy c (.act ready step next)) =>
      if ready P.state = true then
        ⟨step P.state, P.threads.set i (.busy c (next P.state)), P.trace⟩
      else P
    | some (.busy c (.ret a)) => ⟨P.state, P.threads.set i .idle, P.trace ++ [.ret i c a]⟩
    | _ => P
  | .rest i => match P.threads[i]? with
    | some (.busy c p) => match p.run P.state with
      | some (.ok a, s) => ⟨s, P.threads.set i .idle, P.trace ++ [.ret i c a]⟩
      | _ => P
    | _ => P

/-- One pick after the other. -/
def play (code : κ → Prog σ ε α) (P : Pool κ σ ε α) (l : List (Pick κ)) : Pool κ σ ε α :=
  l.foldl (pick code) P

/-- Thread `i` among the others. -/
theorem threads_split {ts : List (Status κ σ ε α)} {i : Nat} {t : Status κ σ ε α}
    (h : ts[i]? = some t) : ∃ front back, ts = front ++ t :: back ∧ front.length = i ∧
      ∀ t', ts.set i t' = front ++ t' :: back := by
  obtain ⟨hi, rfl⟩ := List.getElem?_eq_some_iff.mp h
  refine ⟨ts.take i, ts.drop (i + 1), ?_, ?_, fun t' => ?_⟩
  · rw [List.getElem_cons_drop, List.take_append_drop]
  · rw [List.length_take]
    omega
  · rw [List.set_eq_take_append_cons_drop, if_pos hi]

/-- Whatever is picked, the pool stays one that can come about. -/
theorem Reachable.pick {s0 : σ} {n : Nat} {P : Pool κ σ ε α} (h : Reachable code s0 n P)
    (k : Pick κ) : Reachable code s0 n (P.pick code k) := by
  obtain ⟨s, ts, tr⟩ := P
  cases k with
  | call i c =>
    unfold Pool.pick
    dsimp only
    split
    · rename_i hi
      obtain ⟨front, back, rfl, rfl, hset⟩ := threads_split hi
      rw [hset]
      exact h.step (.start s front back tr c)
    · exact h
  | work i =>
    unfold Pool.pick
    dsimp only
    split
    · rename_i c ready step next hi
      obtain ⟨front, back, rfl, rfl, hset⟩ := threads_split hi
      split
      · rename_i hr
        rw [hset]
        exact h.step (.act s front back tr c ready step next hr)
      · exact h
    · rename_i c a hi
      obtain ⟨front, back, rfl, rfl, hset⟩ := threads_split hi
      rw [hset]
      exact h.step (.finish s front back tr c a)
    · exact h
  | rest i =>
    unfold Pool.pick
    dsimp only
    split
    · rename_i c p hi
      obtain ⟨front, back, rfl, rfl, hset⟩ := threads_split hi
      split
      · rename_i a s' hrun
        rw [hset]
        exact h.runs p hrun
      · exact h
    · exact h

theorem Reachable.play {s0 : σ} {n : Nat} {P : Pool κ σ ε α} (h : Reachable code s0 n P)
    (l : List (Pick κ)) : Reachable code s0 n (P.play code l) := by
  induction l generalizing P with
  | nil => exact h
  | cons k l ih => exact ih (h.pick k)

/-! ### Going on -/

/-- What a thread does with a call it has made: it takes a step of its program, or returns. -/
inductive Work : Pool κ σ ε α → Pool κ σ ε α → Prop where
  | act (s : σ) (front back : List (Status κ σ ε α)) (tr : List (Event κ α)) (c : κ)
    (ready : σ → Bool) (step : σ → σ) (next : σ → Prog σ ε α) (h : ready s = true) :
    Work ⟨s, front ++ .busy c (.act ready step next) :: back, tr⟩
      ⟨step s, front ++ .busy c (next s) :: back, tr⟩
  | finish (s : σ) (front back : List (Status κ σ ε α)) (tr : List (Event κ α)) (c : κ) (a : α) :
    Work ⟨s, front ++ .busy c (.ret a) :: back, tr⟩
      ⟨s, front ++ .idle :: back, tr ++ [.ret front.length c a]⟩

theorem Work.step {P P' : Pool κ σ ε α} (h : Work P P') : Step code P P' := by
  cases h with
  | act s front back tr c ready step next h => exact .act s front back tr c ready step next h
  | finish s front back tr c a => exact .finish s front back tr c a

theorem Spec.allFit_get (S : Spec code L) {i : Nat} {ts : List (Status κ σ ε α)} {gs : List γ}
    (h : S.AllFit i ts gs) : ts.length = gs.length ∧
      ∀ k (hk : k < ts.length) (hk' : k < gs.length), S.Fits (i + k) ts[k] gs[k] := by
  induction ts generalizing i gs with
  | nil =>
    cases gs with
    | nil => exact ⟨rfl, fun k hk => absurd hk (Nat.not_lt_zero k)⟩
    | cons g gs => exact h.elim
  | cons t ts ih =>
    cases gs with
    | nil => exact h.elim
    | cons g gs =>
      obtain ⟨hlen, hget⟩ := ih h.2
      refine ⟨congrArg (· + 1) hlen, fun k hk hk' => ?_⟩
      cases k with
      | zero => exact h.1
      | succ k =>
        have := hget k (Nat.lt_of_succ_lt_succ hk) (Nat.lt_of_succ_lt_succ hk')
        rwa [show i + 1 + k = i + (k + 1) by omega] at this

/-- No exception leaves a call. -/
theorem Spec.no_fail (S : Spec code L) {P : Pool κ σ ε α} (h : S.Ok P) (c : κ) (e : ε) :
    Status.busy c (.fail e) ∉ P.threads := by
  intro hmem
  obtain ⟨w, gs, -, -, -, hfit⟩ := h
  obtain ⟨hlen, hget⟩ := S.allFit_get hfit
  obtain ⟨k, hk, hkt⟩ := List.mem_iff_getElem.mp hmem
  have := hget k hk (hlen ▸ hk)
  rw [hkt] at this
  exact this

/-- As long as a call is running, some thread that has one can go on: the one that ranks highest. -/
theorem Spec.unstuck (S : Spec code L) {P : Pool κ σ ε α} (h : S.Ok P)
    (hbusy : ∃ t ∈ P.threads, t ≠ .idle) : ∃ P', Work P P' := by
  have hok := h
  obtain ⟨s, ts, tr⟩ := P
  obtain ⟨w, gs, hinv, -, -, hfit⟩ := h
  dsimp only at hinv hfit hbusy
  obtain ⟨hlen, hget⟩ := S.allFit_get hfit
  -- the busy thread that ranks highest
  obtain ⟨k, ⟨hk, hkbusy⟩, hmax⟩ := Set.exists_max_image
    {k | ∃ hk : k < ts.length, ts[k] ≠ .idle} (fun k => gs[k]?.elim 0 L.rank)
    ((Set.finite_lt_nat ts.length).subset fun k hk => hk.1) (by
      obtain ⟨t, ht, hidle⟩ := hbusy
      obtain ⟨k, hk, rfl⟩ := List.mem_iff_getElem.mp ht
      exact ⟨k, hk, hidle⟩)
  have hk' : k < gs.length := hlen ▸ hk
  have hfk := hget k hk hk'
  have hts : ts = ts.take k ++ ts[k] :: ts.drop (k + 1) := by
    rw [List.getElem_cons_drop, List.take_append_drop]
  cases hst : ts[k] with
  | idle => exact absurd hst hkbusy
  | busy c p =>
    rw [hst] at hfk hts
    rw [hts]
    cases p with
    | ret a => exact ⟨_, .finish s _ _ tr c a⟩
    | fail e => exact hfk.elim
    | act ready step next =>
      have hperm : (gs : Multiset γ) = gs[k] ::ₘ (gs.eraseIdx k : Multiset γ) := by
        rw [Multiset.cons_coe]
        exact Multiset.coe_eq_coe.mpr (List.getElem_cons_eraseIdx_perm hk').symm
      rw [hperm] at hinv
      obtain ⟨hready | ⟨g', hg', hlt⟩, -⟩ := hfk s w _ hinv
      · exact ⟨_, .act s _ _ tr c ready step next hready⟩
      · -- it would wait for one that ranks higher still
        obtain ⟨j, hj, rfl⟩ := List.mem_iff_getElem.mp
          (List.mem_of_mem_eraseIdx (Multiset.mem_coe.mp hg'))
        have hj' : j < ts.length := hlen.symm ▸ hj
        have hfj := hget j hj' hj
        have hjbusy : ts[j] ≠ .idle := by
          intro hidle
          rw [hidle] at hfj
          rw [S.low hfj] at hlt
          exact absurd hlt not_lt_zero
        have hle := hmax j ⟨hj', hjbusy⟩
        rw [List.getElem?_eq_getElem hj, List.getElem?_eq_getElem hk'] at hle
        exact absurd hlt (not_lt_of_ge hle)

/-- What a thread that goes on becomes. -/
inductive Status.After : Status κ σ ε α → Status κ σ ε α → Prop where
  | act (c : κ) (ready : σ → Bool) (step : σ → σ) (next : σ → Prog σ ε α) (s : σ) :
    After (.busy c (next s)) (.busy c (.act ready step next))
  | finish (c : κ) (a : α) : After .idle (.busy c (.ret a))

theorem acc_after (t : Status κ σ ε α) : Acc Status.After t := by
  have hidle : Acc (Status.After (κ := κ) (σ := σ) (ε := ε) (α := α)) .idle :=
    ⟨_, fun t h => by cases h⟩
  cases t with
  | idle => exact hidle
  | busy c p =>
    induction p with
    | ret a =>
      refine ⟨_, fun t h => ?_⟩
      cases h
      exact hidle
    | fail e => exact ⟨_, fun t h => by cases h⟩
    | act ready step next ih =>
      refine ⟨_, fun t h => ?_⟩
      cases h with
      | act _ _ _ _ s => exact ih s

/-- One of the threads goes on. -/
def OneAfter (ts' ts : List (Status κ σ ε α)) : Prop :=
  ∃ front back t t', ts = front ++ t :: back ∧ ts' = front ++ t' :: back ∧ Status.After t' t

theorem acc_oneAfter (ts : List (Status κ σ ε α)) : Acc OneAfter ts := by
  induction ts with
  | nil =>
    refine ⟨_, fun ts' h => ?_⟩
    obtain ⟨front, back, t, t', h, -⟩ := h
    cases front <;> cases h
  | cons t ts ih =>
    -- the first thread or one of the others
    induction acc_after t generalizing ts with
    | intro t _ iht =>
      induction ih with
      | intro ts hts ihts =>
        refine ⟨_, fun ts' h => ?_⟩
        obtain ⟨front, back, u, u', heq, rfl, hu⟩ := h
        cases front with
        | nil =>
          obtain ⟨rfl, rfl⟩ := List.cons.inj heq
          exact iht u' hu _ ⟨_, hts⟩
        | cons v front =>
          obtain ⟨rfl, rfl⟩ := List.cons.inj heq
          exact ihts _ ⟨front, back, u, u', rfl, rfl, hu⟩

/-- Threads that make no new calls cannot go on for ever. -/
theorem work_ends (P : Pool κ σ ε α) : Acc (fun P' P => Work P P') P := by
  refine Subrelation.accessible (r := InvImage OneAfter Pool.threads) ?_
    (InvImage.accessible _ (acc_oneAfter _))
  intro P' P h
  cases h with
  | act s front back tr c ready step next _ =>
    exact ⟨front, back, _, _, rfl, rfl, .act c ready step next s⟩
  | finish s front back tr c a => exact ⟨front, back, _, _, rfl, rfl, .finish c a⟩

/-- Whichever thread goes on next with its call, again and again, a pool in `Q` is reached. -/
inductive Inevitable (Q : Pool κ σ ε α → Prop) : Pool κ σ ε α → Prop where
  | here {P : Pool κ σ ε α} : Q P → Inevitable Q P
  | on {P : Pool κ σ ε α} : (∃ P', Work P P') → (∀ P', Work P P' → Inevitable Q P') →
    Inevitable Q P

/-- All calls return. -/
theorem Spec.inevitable (S : Spec code L) {P : Pool κ σ ε α} (h : S.Ok P) :
    Inevitable (fun P => ∀ t ∈ P.threads, t = .idle) P := by
  induction work_ends P with
  | intro P _ ih =>
    by_cases hidle : ∀ t ∈ P.threads, t = .idle
    · exact .here hidle
    · push Not at hidle
      apply Inevitable.on (S.unstuck h hidle)
      intro P' hwork
      exact ih P' hwork (S.step_ok h hwork.step)

end Pool

end ConcurrentFs.Lib
