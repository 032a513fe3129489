/-
  ConcurrentFs.Lib.History

  Runs of many threads with a history beside them.

  The world is what the shared state stands for.  Every step of a thread that
  changes the world, or at which the answer of its call is settled, is a deed, and
  the deeds of all threads make up one log, together with the calls and their
  returns.  The log is the witness for statements about all interleavings: its
  deeds lead from the first world to the present one, and between a call and its
  return there is exactly one deed of that thread that settles the answer.

  `Record` says that a log is like that.  `shared` adds it to an invariant over
  the state, the world and what the threads have in their hands, `Note` is what a
  step may do to it, and `spec` turns one triple for each call into a statement
  about every pool of threads.
-/
import ConcurrentFs.Lib.Threads
import Mathlib.Data.Multiset.MapFold
import Mathlib.Data.Multiset.UnionInter

namespace ConcurrentFs.Lib

/-- Where a thread is: between calls, in a call whose answer is open, or in one whose answer is
    settled. -/
inductive Phase (κ α : Type) where
  | idle
  | called (c : κ)
  | decided (c : κ) (a : α)

/-- The call a thread is in. -/
def Phase.call {κ α : Type} : Phase κ α → Option κ
  | idle => none
  | called c => some c
  | decided c _ => some c

/-- What a thread did: its kind, the answer it settled, if it did, and the world it left. -/
structure Deed (δ α ς : Type) where
  act : δ
  answer : Option α
  post : ς

/-- One line of the log. -/
inductive Mark (κ α δ ς : Type) where
  | call (thread : Nat) (c : κ)
  | deed (thread : Nat) (c : κ) (d : Deed δ α ς)
  | ret (thread : Nat) (c : κ) (a : α)

/-- What one thread remembers: who it is, where it is, and what it did since its call. -/
structure Diary (κ α δ ς : Type) where
  thread : Nat
  phase : Phase κ α
  own : List (Deed δ α ς)

/-- The kinds of what it did. -/
def Diary.acts {κ α δ ς : Type} (D : Diary κ α δ ς) : List δ := D.own.map Deed.act

/-- What a thread has in its hands, and what it remembers. -/
structure Ghost (η κ α δ ς : Type) where
  hands : η
  diary : Diary κ α δ ς

/-- The first world, the present one, and how it came about. -/
structure Ledger (κ α δ ς : Type) where
  start : ς
  world : ς
  log : List (Mark κ α δ ς)

section Log

variable {κ α δ ς : Type}

def Mark.thread : Mark κ α δ ς → Nat
  | call i _ => i
  | deed i _ _ => i
  | ret i _ _ => i

/-- What is seen of a mark from outside. -/
def Mark.event : Mark κ α δ ς → Option (Event κ α)
  | call i c => some (.call i c)
  | deed _ _ _ => none
  | ret i c a => some (.ret i c a)

/-- The marks lead from `W` to `W'`, each deed being allowed where it was done. -/
def Linked (legal : ς → κ → Deed δ α ς → Prop) : ς → List (Mark κ α δ ς) → ς → Prop
  | W, [], W' => W' = W
  | W, .deed _ c d :: l, W' => legal W c d ∧ Linked legal d.post l W'
  | W, .call _ _ :: l, W' => Linked legal W l W'
  | W, .ret _ _ _ :: l, W' => Linked legal W l W'

/-- How a deed of call `c` moves its thread on: the answer is settled once. -/
inductive Phase.Notes (c : κ) (d : Deed δ α ς) : Phase κ α → Phase κ α → Prop where
  | before (h : d.answer = none) : Notes c d (.called c) (.called c)
  | settle {a : α} (h : d.answer = some a) : Notes c d (.called c) (.decided c a)
  | after {a : α} (h : d.answer = none) : Notes c d (.decided c a) (.decided c a)

/-- The deeds of one thread lead from `W` to `W'`, if no other thread does anything meanwhile, and
    their thread from one phase to the other. -/
inductive Trail (legal : ς → κ → Deed δ α ς → Prop) :
    ς → Phase κ α → List (Deed δ α ς) → ς → Phase κ α → Prop where
  | nil (W : ς) (ph : Phase κ α) : Trail legal W ph [] W ph
  | cons {W W' : ς} {c : κ} {d : Deed δ α ς} {ph ph' ph'' : Phase κ α} {l : List (Deed δ α ς)}
    (hn : Phase.Notes c d ph ph') (hl : legal W c d) (h : Trail legal d.post ph' l W' ph'') :
    Trail legal W ph (d :: l) W' ph''

/-- The lines of thread `i` make sense: a call, its deeds, one of which settles the answer, and the
    return with that answer; and the deeds of a call that returned `a` satisfy `fin`. -/
inductive Follows (fin : κ → α → List (Deed δ α ς) → Prop) (i : Nat) :
    List (Mark κ α δ ς) → Phase κ α → List (Deed δ α ς) → Prop where
  | nil : Follows fin i [] .idle []
  | other {l : List (Mark κ α δ ς)} {m : Mark κ α δ ς} {ph : Phase κ α} {own : List (Deed δ α ς)}
    (h : Follows fin i l ph own) (hm : m.thread ≠ i) : Follows fin i (l ++ [m]) ph own
  | call {l : List (Mark κ α δ ς)} {own : List (Deed δ α ς)} (c : κ)
      (h : Follows fin i l .idle own) :
    Follows fin i (l ++ [.call i c]) (.called c) []
  | deed {l : List (Mark κ α δ ς)} {c : κ} {d : Deed δ α ς} {ph ph' : Phase κ α}
    {own : List (Deed δ α ς)} (h : Follows fin i l ph own) (hn : Phase.Notes c d ph ph') :
    Follows fin i (l ++ [.deed i c d]) ph' (own ++ [d])
  | ret {l : List (Mark κ α δ ς)} {c : κ} {a : α} {own : List (Deed δ α ς)}
    (h : Follows fin i l (.decided c a) own) (hf : fin c a own) :
    Follows fin i (l ++ [.ret i c a]) .idle own

variable {legal : ς → κ → Deed δ α ς → Prop} {fin : κ → α → List (Deed δ α ς) → Prop}

theorem Linked.snoc {W W' : ς} {l : List (Mark κ α δ ς)} (h : Linked legal W l W')
    {m : Mark κ α δ ς} {W'' : ς} (hm : Linked legal W' [m] W'') :
    Linked legal W (l ++ [m]) W'' := by
  induction l generalizing W with
  | nil =>
    obtain rfl : W' = W := h
    exact hm
  | cons m' l ih =>
    cases m' with
    | call i c => exact ih h
    | deed i c d => exact ⟨h.1, ih h.2⟩
    | ret i c a => exact ih h

/-- Where everything that is allowed is allowed otherwise too. -/
theorem Linked.mono {legal' : ς → κ → Deed δ α ς → Prop} {W W' : ς} {l : List (Mark κ α δ ς)}
    (h : Linked legal W l W') (hl : ∀ W c d, legal W c d → legal' W c d) :
    Linked legal' W l W' := by
  induction l generalizing W with
  | nil => exact h
  | cons m l ih =>
    cases m with
    | call i c => exact ih h
    | deed i c d => exact ⟨hl W c d h.1, ih h.2⟩
    | ret i c a => exact ih h

theorem Trail.append {W W' W'' : ς} {ph ph' ph'' : Phase κ α} {l l' : List (Deed δ α ς)}
    (h : Trail legal W ph l W' ph') (h' : Trail legal W' ph' l' W'' ph'') :
    Trail legal W ph (l ++ l') W'' ph'' := by
  induction h with
  | nil => exact h'
  | cons hn hl _ ih => exact .cons hn hl (ih h')

/-- What every allowed deed of a certain kind preserves, such deeds preserve. -/
theorem Trail.keeps {R : ς → ς → Prop} (hrefl : ∀ W, R W W)
    (htrans : ∀ {W W' W''}, R W W' → R W' W'' → R W W'') {K : Deed δ α ς → Prop}
    (hstep : ∀ {W c d}, legal W c d → K d → R W d.post) {W W' : ς} {ph ph' : Phase κ α}
    {l : List (Deed δ α ς)} (h : Trail legal W ph l W' ph') (hK : ∀ d ∈ l, K d) : R W W' := by
  induction h with
  | nil W => exact hrefl W
  | cons hn hl _ ih =>
    obtain ⟨hd, hK⟩ := List.forall_mem_cons.mp hK
    exact htrans (hstep hl hd) (ih hK)

/-- After the answer is settled no deed settles one. -/
theorem Trail.after {W W' : ς} {c : κ} {a : α} {ph : Phase κ α} {l : List (Deed δ α ς)}
    (h : Trail legal W (.decided c a) l W' ph) : ph = .decided c a ∧ ∀ d ∈ l, d.answer = none := by
  generalize hph : Phase.decided c a = ph0 at h
  induction h with
  | nil => exact ⟨rfl, fun d hd => absurd hd List.not_mem_nil⟩
  | cons hn hl _ ih =>
    cases hn with
    | before => contradiction
    | settle => contradiction
    | after hd =>
      obtain ⟨h1, h2⟩ := ih hph
      exact ⟨h1, List.forall_mem_cons.mpr ⟨hd, h2⟩⟩

/-- Before the answer is settled no deed settles it. -/
theorem Trail.before {W W' : ς} {c : κ} {ph : Phase κ α} {l : List (Deed δ α ς)}
    (h : Trail legal W ph l W' (.called c)) : ∀ d ∈ l, d.answer = none := by
  generalize hph : Phase.called c = ph1 at h
  induction h with
  | nil => exact fun d hd => absurd hd List.not_mem_nil
  | cons hn hl h ih =>
    subst hph
    cases hn with
    | before hd => exact List.forall_mem_cons.mpr ⟨hd, ih rfl⟩
    | settle hd =>
      have := h.after.1
      contradiction
    | after hd =>
      have := h.after.1
      contradiction

/-- One deed settles the answer. -/
theorem Trail.settled {W W' : ς} {c : κ} {a : α} {l : List (Deed δ α ς)}
    (h : Trail legal W (.called c) l W' (.decided c a)) : ∃ l1 d l2 V, l = l1 ++ d :: l2 ∧
      Trail legal W (.called c) l1 V (.called c) ∧ legal V c d ∧ d.answer = some a ∧
      Trail legal d.post (.decided c a) l2 W' (.decided c a) := by
  generalize hph : Phase.called c = ph0, hph' : Phase.decided c a = ph1 at h
  induction h with
  | nil =>
    subst hph
    contradiction
  | @cons W W' c' d ph ph' ph'' l hn hl h ih =>
    subst hph'
    cases hn with
    | before hd =>
      obtain ⟨l1, d1, l2, V, rfl, h1, h2, h3, h4⟩ := ih hph rfl
      obtain rfl := Phase.called.inj hph
      exact ⟨d :: l1, d1, l2, V, rfl, .cons (.before hd) hl h1, h2, h3, h4⟩
    | settle hd =>
      obtain rfl := Phase.called.inj hph
      obtain ⟨heq, -⟩ := h.after
      obtain ⟨-, rfl⟩ := Phase.decided.inj heq
      exact ⟨[], d, l, W, rfl, .nil W _, hl, hd, h⟩
    | after hd => contradiction

/-- What a step does to the diary of its thread and to the world: nothing, or one deed. -/
inductive Note (legal : ς → κ → Deed δ α ς → Prop) :
    Diary κ α δ ς → ς → Diary κ α δ ς → ς → Prop where
  | quiet (D : Diary κ α δ ς) (W : ς) : Note legal D W D W
  | deed {D : Diary κ α δ ς} {W : ς} {c : κ} {d : Deed δ α ς} {ph : Phase κ α}
    (hn : Phase.Notes c d D.phase ph) (hl : legal W c d) :
    Note legal D W ⟨D.thread, ph, D.own ++ [d]⟩ d.post

/-- The log is a history of the present world, and fits the diaries of the threads. -/
structure Record (legal : ς → κ → Deed δ α ς → Prop) (fin : κ → α → List (Deed δ α ς) → Prop)
    (w : Ledger κ α δ ς) (Ds : Multiset (Diary κ α δ ς)) : Prop where
  linked : Linked legal w.start w.log w.world
  nodup : (Ds.map Diary.thread).Nodup
  follows : ∀ D ∈ Ds, Follows fin D.thread w.log D.phase D.own
  others : ∀ i, i ∉ Ds.map Diary.thread → Follows fin i w.log .idle []

/-- Adding one line, of a thread that is there. -/
theorem Record.snoc {w : Ledger κ α δ ς} {D : Diary κ α δ ς} {Ds : Multiset (Diary κ α δ ς)}
    (h : Record legal fin w (D ::ₘ Ds)) (m : Mark κ α δ ς) (W' : ς) (hm : m.thread = D.thread)
    (hl : Linked legal w.world [m] W') {ph : Phase κ α} {own : List (Deed δ α ς)}
    (hf : Follows fin D.thread (w.log ++ [m]) ph own) :
    Record legal fin ⟨w.start, W', w.log ++ [m]⟩ (⟨D.thread, ph, own⟩ ::ₘ Ds) := by
  have hnd := h.nodup
  rw [Multiset.map_cons, Multiset.nodup_cons] at hnd
  refine ⟨h.linked.snoc hl, ?_, fun D' hD' => ?_, fun i hi => ?_⟩
  · rw [Multiset.map_cons, Multiset.nodup_cons]
    exact hnd
  · rcases Multiset.mem_cons.mp hD' with rfl | hD'
    · exact hf
    · refine (h.follows D' (Multiset.mem_cons_of_mem hD')).other ?_
      rw [hm]
      intro heq
      exact hnd.1 (Multiset.mem_map.mpr ⟨D', hD', heq.symm⟩)
  · rw [Multiset.map_cons, Multiset.mem_cons, not_or] at hi
    refine (h.others i ?_).other ?_
    · rw [Multiset.map_cons, Multiset.mem_cons, not_or]
      exact hi
    · rw [hm]
      exact fun heq => hi.1 heq.symm

end Log

/-! ## The invariant with its history -/

section Shared

/-- How much is held: threads wait only for those that hold more. -/
class Ranked (η : Type) where
  rank : η → ℕ∞

variable {σ η κ α δ ς : Type} [Ranked η] (body : σ → ς → Multiset η → Prop)
  (legal : ς → κ → Deed δ α ς → Prop) (fin : κ → α → List (Deed δ α ς) → Prop)

omit [Ranked η] in
/-- A world that came about. -/
def Lived (W : ς) : Prop := ∃ s hs, body s W hs

omit [Ranked η] in
/-- A deed that is allowed, between worlds that came about. -/
def Real (W : ς) (c : κ) (d : Deed δ α ς) : Prop := legal W c d ∧ Lived body W ∧ Lived body d.post

/-- An invariant over the state, the world and what the threads hold, with its history. -/
def shared : Shared σ (Ledger κ α δ ς) (Ghost η κ α δ ς) where
  inv s w gs := body s w.world (gs.map Ghost.hands) ∧
    Record (Real body legal) fin w (gs.map Ghost.diary)
  rank g := Ranked.rank g.hands
  moves w g w' g' :=
    w'.start = w.start ∧
    g'.diary.thread = g.diary.thread ∧
    w'.log.filterMap Mark.event = w.log.filterMap Mark.event ∧
    ∃ ds, g'.diary.own = g.diary.own ++ ds ∧
      Trail (Real body legal) w.world g.diary.phase ds w'.world g'.diary.phase
  refl w g := ⟨rfl, rfl, rfl, [], (List.append_nil _).symm, .nil _ _⟩
  trans := by
    rintro w g w' g' w'' g'' ⟨h0, h1, h2, ds, h3, h4⟩ ⟨k0, k1, k2, ds', k3, k4⟩
    refine ⟨k0.trans h0, k1.trans h1, k2.trans h2, ds ++ ds', ?_, h4.append k4⟩
    rw [k3, h3, List.append_assoc]

variable {legal fin}

/-- What a step may note, in the log. -/
theorem Record.note {w : Ledger κ α δ ς} {D D' : Diary κ α δ ς} {W' : ς}
    {Ds : Multiset (Diary κ α δ ς)} (h : Record (Real body legal) fin w (D ::ₘ Ds))
    (hn : Note legal D w.world D' W') (hb : Lived body w.world) (hb' : Lived body W')
    (hands hands' : η) :
    ∃ w', w'.world = W' ∧ (shared body legal fin).moves w ⟨hands, D⟩ w' ⟨hands', D'⟩ ∧
      Record (Real body legal) fin w' (D' ::ₘ Ds) := by
  cases hn with
  | quiet => exact ⟨w, rfl, ⟨rfl, rfl, rfl, [], (List.append_nil _).symm, .nil _ _⟩, h⟩
  | @deed c d ph hn hl =>
    have hreal : Real body legal w.world c d := ⟨hl, hb, hb'⟩
    refine ⟨⟨w.start, d.post, w.log ++ [.deed D.thread c d]⟩, rfl,
      ⟨rfl, rfl, ?_, [d], rfl, .cons hn hreal (.nil _ _)⟩, ?_⟩
    · rw [List.filterMap_append]
      exact List.append_nil _
    · exact h.snoc (.deed D.thread c d) d.post rfl ⟨hreal, rfl⟩
        ((h.follows D (Multiset.mem_cons_self _ _)).deed hn)

variable {body} {ε β : Type} {h : η} {D : Diary κ α δ ς} {Q : β → Ghost η κ α δ ς → Prop}
  {E : ε → Ghost η κ α δ ς → Prop}

/-- The ghost `⟨h, D⟩` may become one that satisfies `R`, without a step of the state. -/
def Shift (body : σ → ς → Multiset η → Prop) (legal : ς → κ → Deed δ α ς → Prop) (s : σ) (W : ς)
    (rest : Multiset η) (D : Diary κ α δ ς) (R : Ghost η κ α δ ς → Prop) : Prop :=
  ∃ h' D' W', Note legal D W D' W' ∧ body s W' (h' ::ₘ rest) ∧ R ⟨h', D'⟩

/-- One step, in terms of what the threads hold. -/
theorem safe_step {ready : σ → Bool} {step : σ → σ} {next : σ → Prog σ ε β}
    (hs : ∀ s W rest, body s W (h ::ₘ rest) →
      (ready s = true ∨ ∃ h' ∈ rest, Ranked.rank h < Ranked.rank h') ∧
      (ready s = true → Shift body legal (step s) W rest D
        fun g => (next s).Safe (shared body legal fin) g Q E)) :
    (Prog.act ready step next).Safe (shared body legal fin) ⟨h, D⟩ Q E := by
  refine Prog.safe_act fun s w rest hinv => ?_
  obtain ⟨hbody, hrec⟩ := hinv
  rw [Multiset.map_cons] at hbody hrec
  obtain ⟨hwait, hgo⟩ := hs s w.world _ hbody
  refine ⟨hwait.imp_right fun hh => ?_, fun hr => ?_⟩
  · obtain ⟨h', hmem, hlt⟩ := hh
    obtain ⟨g', hg', rfl⟩ := Multiset.mem_map.mp hmem
    exact ⟨g', hg', hlt⟩
  obtain ⟨h', D', W', hn, hbody', hnext⟩ := hgo hr
  obtain ⟨w', rfl, hm, hrec'⟩ := hrec.note body hn ⟨_, _, hbody⟩ ⟨_, _, hbody'⟩ h h'
  refine ⟨⟨h', D'⟩, w', hm, ⟨?_, ?_⟩, hnext⟩
  · rw [Multiset.map_cons]
    exact hbody'
  · rw [Multiset.map_cons]
    exact hrec'

/-- A stretch taken as one step. -/
theorem safe_stretch {p : Prog σ ε β}
    (hs : ∀ s W rest, body s W (h ::ₘ rest) → p.Ends s
      (fun b s' => Shift body legal s' W rest D (Q b))
      fun e s' => Shift body legal s' W rest D (E e)) :
    p.atomic.Safe (shared body legal fin) ⟨h, D⟩ Q E := by
  refine Prog.safe_atomic fun s w rest hinv => ?_
  obtain ⟨hbody, hrec⟩ := hinv
  rw [Multiset.map_cons] at hbody hrec
  have key : ∀ (s' : σ) (R : Ghost η κ α δ ς → Prop),
      Shift body legal s' w.world (rest.map Ghost.hands) D R →
      ∃ g' w', (shared body legal fin).moves w ⟨h, D⟩ w' g' ∧
        (shared body legal fin).inv s' w' (g' ::ₘ rest) ∧ R g' := by
    rintro s' R ⟨h', D', W', hn, hbody', hR⟩
    obtain ⟨w', rfl, hm, hrec'⟩ := hrec.note body hn ⟨_, _, hbody⟩ ⟨_, _, hbody'⟩ h h'
    refine ⟨⟨h', D'⟩, w', hm, ⟨?_, ?_⟩, hR⟩
    · rw [Multiset.map_cons]
      exact hbody'
    · rw [Multiset.map_cons]
      exact hrec'
  exact (hs s w.world _ hbody).mono (fun b s' => key s' (Q b)) fun e s' => key s' (E e)

omit [Ranked η] in
/-- Nothing is noted. -/
theorem Shift.quiet {s : σ} {W : ς} {rest : Multiset η} {R : Ghost η κ α δ ς → Prop} {g : η}
    (hb : body s W (g ::ₘ rest)) (hR : R ⟨g, D⟩) : Shift body legal s W rest D R :=
  ⟨g, D, W, .quiet D W, hb, hR⟩

end Shared

/-! ## From calls to pools -/

section Pools

variable {σ η κ α δ ς ε : Type} [Ranked η] {body : σ → ς → Multiset η → Prop}
  {legal : ς → κ → Deed δ α ς → Prop} {fin : κ → α → List (Deed δ α ς) → Prop}
  {code : κ → Prog σ ε α} (empty : η)

/-- A diary at the end of a call: its answer is settled, or can be settled in any world. -/
def Settled (legal : ς → κ → Deed δ α ς → Prop) (fin : κ → α → List (Deed δ α ς) → Prop)
    (c : κ) (a : α)
    (D : Diary κ α δ ς) : Prop :=
  (D.phase = .decided c a ∧ fin c a D.own) ∨
  (D.phase = .called c ∧ ∃ act, ∀ W, legal W c ⟨act, some a, W⟩ ∧
    fin c a (D.own ++ [⟨act, some a, W⟩]))

/-- One triple for each call is a specification of pools, which start in the world `W`. -/
def spec (W : ς) (hlow : Ranked.rank empty = 0)
    (hcode : ∀ i c, (code c).Safe (shared body legal fin) ⟨empty, ⟨i, .called c, []⟩⟩
      (fun a g => g.hands = empty ∧ g.diary.thread = i ∧ Settled legal fin c a g.diary)
      fun _ _ => False) :
    Pool.Spec code (shared body legal fin) where
  Rest i g := g.hands = empty ∧ g.diary.thread = i ∧ g.diary.phase = .idle
  Post i c a g := g.hands = empty ∧ g.diary.thread = i ∧ Settled legal fin c a g.diary
  trace w := w.log.filterMap Mark.event
  Kept w := w.start = W
  low := by
    intro i g h
    show Ranked.rank g.hands = 0
    rw [h.1, hlow]
  quiet h := ⟨h.2.2.1, fun hk => h.1.trans hk⟩
  start i c s w g rest hinv hrest := by
    obtain ⟨hands, D⟩ := g
    obtain ⟨rfl, rfl, hidle⟩ := hrest
    obtain ⟨hbody, hrec⟩ := hinv
    rw [Multiset.map_cons] at hbody hrec
    have hf := hrec.follows D (Multiset.mem_cons_self _ _)
    rw [show D.phase = .idle from hidle] at hf
    refine ⟨⟨hands, ⟨D.thread, .called c, []⟩⟩, ⟨w.start, w.world,
      w.log ++ [.call D.thread c]⟩, ⟨?_, ?_⟩,
      ?_, fun hk => hk, hcode D.thread c⟩
    · rw [Multiset.map_cons]
      exact hbody
    · rw [Multiset.map_cons]
      exact hrec.snoc (.call D.thread c) w.world rfl rfl (hf.call c)
    · rw [List.filterMap_append]
      rfl
  finish i c a s w g rest hinv hpost := by
    obtain ⟨hands, D⟩ := g
    obtain ⟨rfl, rfl, hset⟩ := hpost
    obtain ⟨hbody, hrec⟩ := hinv
    rw [Multiset.map_cons] at hbody hrec
    -- settle the answer first, if it is still open
    obtain ⟨w1, D1, hw1, hstart, hth, hrec1, hdec, hfin, htr⟩ : ∃ w1 D1, w1.world = w.world ∧
        w1.start = w.start ∧ D1.thread = D.thread ∧
        Record (Real body legal) fin w1 (D1 ::ₘ rest.map Ghost.diary) ∧
        D1.phase = .decided c a ∧ fin c a D1.own ∧
        w1.log.filterMap Mark.event = w.log.filterMap Mark.event := by
      rcases hset with ⟨hdec, hfin⟩ | ⟨hcall, act, hact⟩
      · exact ⟨w, D, rfl, rfl, rfl, hrec, hdec, hfin, rfl⟩
      · obtain ⟨hl, hfin⟩ := hact w.world
        have hf := hrec.follows D (Multiset.mem_cons_self _ _)
        rw [show D.phase = .called c from hcall] at hf
        have hlived : Lived body w.world := ⟨_, _, hbody⟩
        have hrec' := hrec.snoc (.deed D.thread c ⟨act, some a, w.world⟩) w.world rfl
          ⟨⟨hl, hlived, hlived⟩, rfl⟩
          (hf.deed (.settle rfl))
        refine ⟨_, _, ?_, ?_, ?_, hrec', rfl, hfin, ?_⟩
        · rfl
        · rfl
        · rfl
        rw [List.filterMap_append]
        exact List.append_nil _
    have hf := hrec1.follows D1 (Multiset.mem_cons_self _ _)
    rw [hdec] at hf
    refine ⟨⟨hands, ⟨D1.thread, .idle, D1.own⟩⟩, ⟨w1.start, w1.world,
      w1.log ++ [.ret D1.thread c a]⟩,
      ⟨?_, ?_⟩, ?_, fun hk => hstart.trans hk, rfl, hth, rfl⟩
    · rw [Multiset.map_cons]
      show body s w1.world _
      rw [hw1]
      exact hbody
    · rw [Multiset.map_cons]
      exact hrec1.snoc (.ret D1.thread c a) w1.world rfl rfl (hf.ret hfin)
    · rw [List.filterMap_append, htr]
      show _ ++ [Event.ret D1.thread c a] = _
      rw [hth]

/-- What is true of the first world, with nobody holding anything, is a start for `spec`. -/
theorem spec_init {W : ς} (hlow : Ranked.rank empty = 0)
    (hcode : ∀ i c, (code c).Safe (shared body legal fin) ⟨empty, ⟨i, .called c, []⟩⟩
      (fun a g => g.hands = empty ∧ g.diary.thread = i ∧ Settled legal fin c a g.diary)
      fun _ _ => False) {s : σ} {n : Nat} (hb : body s W (Multiset.replicate n empty)) :
    (spec empty W hlow hcode).Ok ⟨s, List.replicate n .idle, []⟩ := by
  let ghost : Nat → Ghost η κ α δ ς := fun i => ⟨empty, ⟨i, .idle, []⟩⟩
  have hfit : ∀ n k, (spec empty W hlow hcode).AllFit k (List.replicate n .idle)
      ((List.range' k n).map ghost) := by
    intro n
    induction n with
    | zero => exact fun _ => trivial
    | succ n ih => exact fun k => ⟨⟨rfl, rfl, rfl⟩, ih (k + 1)⟩
  refine ⟨⟨W, W, []⟩, (List.range' 0 n).map ghost, ⟨?_, rfl, ?_, fun D hD => ?_, fun i hi => .nil⟩,
    rfl, rfl, hfit n 0⟩
  · have : (((List.range' 0 n).map ghost : Multiset (Ghost η κ α δ ς)).map Ghost.hands)
        = Multiset.replicate n empty := by
      rw [Multiset.map_coe, List.map_map, ← Multiset.coe_replicate]
      congr 1
      rw [List.eq_replicate_iff]
      simp [ghost]
    rw [this]
    exact hb
  · rw [Multiset.map_map, Multiset.map_coe, List.map_map]
    show ((List.range' 0 n).map id).Nodup
    rw [List.map_id]
    exact List.nodup_range'
  · obtain ⟨g, hg, rfl⟩ := Multiset.mem_map.mp hD
    obtain ⟨i, -, rfl⟩ := List.mem_map.mp (Multiset.mem_coe.mp hg)
    exact .nil

end Pools

end ConcurrentFs.Lib
