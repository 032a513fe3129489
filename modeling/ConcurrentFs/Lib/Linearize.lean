/-
  ConcurrentFs.Lib.Linearize

  Linearizability, for an object with a nondeterministic sequential meaning.

  `answers W c a W'` says that in the state `W` call `c` may answer `a` and leave
  `W'`, and `quiet W W'` that a call that is running may make `W'` of `W` with nobody
  being answered.  A run of many threads is linearizable if its operations can be put
  in a row, `Linearization`, such that each answers as it may where the one before it
  left off, but for quiet moves, and such that every operation has its place between
  its call and its return: whenever the run is cut in two, so can be the row, and the
  operations in the first part are, for each thread, those that have returned, with
  their answers, and at most such others as have been called.  So an operation that
  returned before another one was called comes before it.

  `linearization` gets this from a history (`Lib.History`): the operations in the
  order in which their answers were settled, and between them the deeds that settled
  none.
-/
import ConcurrentFs.Lib.History

namespace ConcurrentFs.Lib

variable {κ α δ ς : Type}

/-- An operation: who made which call, and the answer. -/
structure Op (κ α : Type) where
  thread : Nat
  call : κ
  answer : α

/-- The calls thread `i` makes. -/
def callsOf (i : Nat) (tr : List (Event κ α)) : List κ :=
  tr.filterMap fun
    | .call j c => if j = i then some c else none
    | .ret .. => none

/-- What returns to thread `i`. -/
def returnsOf (i : Nat) (tr : List (Event κ α)) : List (κ × α) :=
  tr.filterMap fun
    | .call .. => none
    | .ret j c a => if j = i then some (c, a) else none

/-- The operations of thread `i`. -/
def opsOf (i : Nat) (ops : List (Op κ α)) : List (κ × α) :=
  ops.filterMap fun o => if o.thread = i then some (o.call, o.answer) else none

/-- The operations one after the other. -/
inductive Serial (answers : ς → κ → α → ς → Prop) (quiet : ς → ς → Prop) :
    ς → List (Op κ α) → ς → Prop where
  | nil (x : ς) : Serial answers quiet x [] x
  | quiet {x y z : ς} {ops : List (Op κ α)} (h : quiet x y) (hs : Serial answers quiet y ops z) :
    Serial answers quiet x ops z
  | op {x y z : ς} {o : Op κ α} {ops : List (Op κ α)} (h : answers x o.call o.answer y)
    (hs : Serial answers quiet y ops z) : Serial answers quiet x (o :: ops) z

/-- The operations `ops` in a row are a linearization of what is seen of a run. -/
structure Linearization (answers : ς → κ → α → ς → Prop) (quiet : ς → ς → Prop) (x : ς)
    (tr : List (Event κ α)) (y : ς) (ops : List (Op κ α)) : Prop where
  serial : Serial answers quiet x ops y
  between : ∀ tr1 tr2, tr = tr1 ++ tr2 → ∃ ops1 ops2, ops = ops1 ++ ops2 ∧
    ∀ i, returnsOf i tr1 <+: opsOf i ops1 ∧ (opsOf i ops1).map Prod.fst <+: callsOf i tr1

section Ops

variable {i j : Nat} {ops ops' : List (Op κ α)} {tr : List (Event κ α)}

theorem opsOf_append : opsOf i (ops ++ ops') = opsOf i ops ++ opsOf i ops' :=
  List.filterMap_append

theorem opsOf_cons_self (o : Op κ α) (ops : List (Op κ α)) :
    opsOf o.thread (o :: ops) = (o.call, o.answer) :: opsOf o.thread ops :=
  List.filterMap_cons_some (by rw [if_pos rfl])

theorem opsOf_cons_ne {o : Op κ α} (h : o.thread ≠ i) (ops : List (Op κ α)) :
    opsOf i (o :: ops) = opsOf i ops :=
  List.filterMap_cons_none (by rw [if_neg h])

/-- Operations of one thread only. -/
theorem ops_of_single (h : ∀ i, i ≠ j → opsOf i ops = []) :
    ops = (opsOf j ops).map fun x => ⟨j, x.1, x.2⟩ := by
  induction ops with
  | nil => rfl
  | cons o ops ih =>
    obtain rfl : o.thread = j := by
      by_contra hne
      have := h o.thread hne
      rw [opsOf_cons_self] at this
      contradiction
    have hrest : ∀ i, i ≠ o.thread → opsOf i ops = [] := fun i hi =>
      (opsOf_cons_ne hi.symm ops).symm.trans (h i hi)
    rw [opsOf_cons_self, List.map_cons, ← ih hrest]

/-- The thread of an event. -/
def Event.thread : Event κ α → Nat
  | call i _ | ret i _ _ => i

theorem callsOf_none (h : ∀ e ∈ tr, e.thread ≠ i) : callsOf i tr = [] := by
  apply List.filterMap_eq_nil_iff.mpr
  intro e he
  cases e with
  | call j c => exact if_neg (h _ he)
  | ret => rfl

/-- The operations of a thread that is waiting for no answer are those that have returned. -/
theorem opsOf_eq_returnsOf
    (h : returnsOf i tr <+: opsOf i ops ∧ (opsOf i ops).map Prod.fst <+: callsOf i tr)
    (hlen : (callsOf i tr).length ≤ (returnsOf i tr).length) : opsOf i ops = returnsOf i tr := by
  refine (h.1.eq_of_length_le ?_).symm
  have hle := h.2.length_le
  rw [List.length_map] at hle
  exact hle.trans hlen

/-- A row that is cut in two. -/
theorem Serial.split {answers : ς → κ → α → ς → Prop} {quiet : ς → ς → Prop} {x z : ς}
    (h : Serial answers quiet x (ops ++ ops') z) :
    ∃ y, Serial answers quiet x ops y ∧ Serial answers quiet y ops' z := by
  generalize hall : ops ++ ops' = all at h
  induction h generalizing ops with
  | nil x =>
    obtain ⟨rfl, rfl⟩ := List.append_eq_nil_iff.mp hall
    exact ⟨x, .nil x, .nil x⟩
  | quiet hq _ ih =>
    obtain ⟨y, h1, h2⟩ := ih hall
    exact ⟨y, .quiet hq h1, h2⟩
  | op ho hs ih =>
    cases ops with
    | nil =>
      obtain rfl := hall
      exact ⟨_, .nil _, .op ho hs⟩
    | cons o ops =>
      obtain ⟨rfl, hops⟩ := List.cons.inj hall
      obtain ⟨y, h1, h2⟩ := ih hops
      exact ⟨y, .op ho h1, h2⟩

end Ops

/-! ## From histories -/

/-- The operation that a mark settles. -/
def Mark.point : Mark κ α δ ς → Option (Op κ α)
  | deed i c d => d.answer.map fun a => ⟨i, c, a⟩
  | _ => none

/-- The call whose answer is open. -/
def Phase.asked : Phase κ α → List κ
  | called c => [c]
  | _ => []

/-- The answer that has not been returned yet. -/
def Phase.due : Phase κ α → List (κ × α)
  | decided c a => [(c, a)]
  | _ => []

section Marks

variable {i : Nat} {m : Mark κ α δ ς} {l l' : List (Mark κ α δ ς)} {ph : Phase κ α}
  {own : List (Deed δ α ς)} {fin : κ → α → List (Deed δ α ς) → Prop}

/-- The operations that the marks settle. -/
def pointsOf (i : Nat) (l : List (Mark κ α δ ς)) : List (κ × α) := opsOf i (l.filterMap Mark.point)

@[inherit_doc callsOf] def calledIn (i : Nat) (l : List (Mark κ α δ ς)) : List κ :=
  callsOf i (l.filterMap Mark.event)

@[inherit_doc returnsOf] def returnedIn (i : Nat) (l : List (Mark κ α δ ς)) : List (κ × α) :=
  returnsOf i (l.filterMap Mark.event)

@[simp] theorem pointsOf_append : pointsOf i (l ++ l') = pointsOf i l ++ pointsOf i l' := by
  unfold pointsOf
  rw [List.filterMap_append, opsOf_append]

@[simp] theorem calledIn_append : calledIn i (l ++ l') = calledIn i l ++ calledIn i l' := by
  unfold calledIn callsOf
  rw [List.filterMap_append, List.filterMap_append]

@[simp] theorem returnedIn_append : returnedIn i (l ++ l') = returnedIn i l ++ returnedIn i l' := by
  unfold returnedIn returnsOf
  rw [List.filterMap_append, List.filterMap_append]

/-- The marks of other threads are nothing to thread `i`. -/
theorem other_mark (hm : m.thread ≠ i) :
    calledIn i [m] = [] ∧ returnedIn i [m] = [] ∧ pointsOf i [m] = [] := by
  cases m with
  | call j c =>
    have hj : j ≠ i := hm
    exact ⟨by simp [calledIn, callsOf, Mark.event, hj], rfl, rfl⟩
  | deed j c d =>
    have hj : j ≠ i := hm
    refine ⟨rfl, rfl, ?_⟩
    cases h : d.answer <;> simp [pointsOf, opsOf, Mark.point, h, hj]
  | ret j c a =>
    have hj : j ≠ i := hm
    exact ⟨rfl, by simp [returnedIn, returnsOf, Mark.event, hj], rfl⟩

/-- Thread by thread, the operations are what was called, but for a call whose answer is open, and
    they are what returned, and an answer that has not yet. -/
theorem Follows.counted (h : Follows fin i l ph own) :
    calledIn i l = (pointsOf i l).map Prod.fst ++ ph.asked ∧
    pointsOf i l = returnedIn i l ++ ph.due := by
  induction h with
  | nil => exact ⟨rfl, rfl⟩
  | other h hm ih =>
    obtain ⟨h1, h2, h3⟩ := other_mark hm
    rw [calledIn_append, pointsOf_append, returnedIn_append, h1, h2, h3]
    simpa using ih
  | call c h ih =>
    have h1 : calledIn i [(.call i c : Mark κ α δ ς)] = [c] := by
      simp [calledIn, callsOf, Mark.event]
    have h2 : returnedIn i [(.call i c : Mark κ α δ ς)] = [] := rfl
    have h3 : pointsOf i [(.call i c : Mark κ α δ ς)] = [] := rfl
    rw [calledIn_append, pointsOf_append, returnedIn_append, h1, h2, h3, ih.1, ih.2]
    simp [Phase.asked, Phase.due]
  | @deed l c d ph ph' own h hn ih =>
    have h1 : calledIn i [(.deed i c d : Mark κ α δ ς)] = [] := rfl
    have h2 : returnedIn i [(.deed i c d : Mark κ α δ ς)] = [] := rfl
    have h3 : pointsOf i [(.deed i c d : Mark κ α δ ς)]
        = (d.answer.map fun a => (c, a)).toList := by
      cases h : d.answer <;> simp [pointsOf, opsOf, Mark.point, h]
    rw [calledIn_append, pointsOf_append, returnedIn_append, h1, h2, h3]
    cases hn with
    | before hd => simpa [hd, Phase.asked, Phase.due] using ih
    | settle hd => simpa [hd, Phase.asked, Phase.due] using ih
    | after hd => simpa [hd, Phase.asked, Phase.due] using ih
  | @ret l c a own h hf ih =>
    have h1 : calledIn i [(.ret i c a : Mark κ α δ ς)] = [] := rfl
    have h2 : returnedIn i [(.ret i c a : Mark κ α δ ς)] = [(c, a)] := by
      simp [returnedIn, returnsOf, Mark.event]
    have h3 : pointsOf i [(.ret i c a : Mark κ α δ ς)] = [] := rfl
    rw [calledIn_append, pointsOf_append, returnedIn_append, h1, h2, h3]
    simpa [Phase.asked, Phase.due] using ih

/-- So does every beginning of a log. -/
theorem Follows.before (h : Follows fin i (l ++ l') ph own) : ∃ ph' own',
    Follows fin i l ph' own' := by
  induction l' using List.reverseRecOn generalizing ph own with
  | nil => exact ⟨ph, own, by simpa using h⟩
  | append_singleton l' m ih =>
    rw [← List.append_assoc] at h
    have hlast : ∀ {k : List (Mark κ α δ ς)} {m' : Mark κ α δ ς}, k ++ [m'] = l ++ l' ++ [m] →
        k = l ++ l' := fun hk => (List.append_inj' hk rfl).1
    generalize hk : l ++ l' ++ [m] = k at h
    cases h with
    | nil => simp at hk
    | other h hm => exact ih (hlast hk.symm ▸ h)
    | call c h => exact ih (hlast hk.symm ▸ h)
    | deed h hn => exact ih (hlast hk.symm ▸ h)
    | ret h hf => exact ih (hlast hk.symm ▸ h)

end Marks

/-- A history has a linearization, if its deeds do as the answers say that they settle, and those
    that settle none are quiet. -/
theorem linearization {answers : ς → κ → α → ς → Prop} {quiet : ς → ς → Prop}
    {legal : ς → κ → Deed δ α ς → Prop} {fin : κ → α → List (Deed δ α ς) → Prop} {W W' : ς}
    {log : List (Mark κ α δ ς)}
    (hlinked : Linked legal W log W') (hfollows : ∀ i, ∃ ph own, Follows fin i log ph own)
    (hanswer : ∀ W c d a, legal W c d → d.answer = some a → answers W c a d.post)
    (hquiet : ∀ W c d, legal W c d → d.answer = none → quiet W d.post) :
    Linearization answers quiet W (log.filterMap Mark.event) W' (log.filterMap Mark.point) where
  serial := by
    clear hfollows
    induction log generalizing W with
    | nil =>
      obtain rfl : W' = W := hlinked
      exact .nil _
    | cons m log ih =>
      cases m with
      | call i c => exact ih hlinked
      | ret i c a => exact ih hlinked
      | deed i c d =>
        obtain ⟨hl, hrest⟩ := hlinked
        have hs := ih hrest
        cases hd : d.answer with
        | none =>
          rw [List.filterMap_cons_none (by simp [Mark.point, hd])]
          exact .quiet (hquiet W c d hl hd) hs
        | some a =>
          rw [List.filterMap_cons_some (b := ⟨i, c, a⟩) (by simp [Mark.point, hd])]
          exact .op (hanswer W c d a hl hd) hs
  between tr1 tr2 htr := by
    obtain ⟨l1, l2, rfl, rfl, rfl⟩ := List.filterMap_eq_append_iff.mp htr
    refine ⟨_, _, List.filterMap_append, fun i => ?_⟩
    obtain ⟨ph, own, h⟩ := hfollows i
    obtain ⟨ph', own', h'⟩ := h.before
    obtain ⟨h1, h2⟩ := h'.counted
    exact ⟨⟨ph'.due, h2.symm⟩, ⟨ph'.asked, h1.symm⟩⟩

end ConcurrentFs.Lib
