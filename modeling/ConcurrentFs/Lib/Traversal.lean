/-
  ConcurrentFs.Lib.Traversal

  Walking a graph with a stack, and a counter for each node instead of a mark.

  Every edge followed counts up the counter of the node it leads to, and puts the
  node on the stack when the counter then says 0 or 1.  A counter that never
  wrapped would say so once, for the first edge; one that counts modulo `m` says so
  again after `m` edges.  The walk comes to an end all the same (`bounded`), and it
  visits every node it reaches once exactly when no node has `m` edges to it
  (`nodup_iff`).
-/
import Mathlib.Algebra.BigOperators.Group.Finset.Piecewise
import Mathlib.Algebra.BigOperators.Ring.Finset
import Mathlib.Algebra.Order.BigOperators.Group.Finset
import Mathlib.Data.Finset.Insert
import Mathlib.Data.List.Count
import Mathlib.Tactic.Ring

namespace ConcurrentFs.Lib

/-- A graph to walk: where each node leads, edge by edge, and which nodes are walked when an edge
    leads there. -/
structure Traversal (α : Type) where
  root : α
  kids : α → List α
  inner : α → Prop
  /-- The walk starts at the root and never comes back to it. -/
  root_not_inner : ¬ inner root

namespace Traversal

variable {α : Type} [DecidableEq α] (G : Traversal α) [DecidablePred G.inner] (m : Nat)

/-- Following an edge to `x`: its counter, of how many edges were followed to it, and the stack. -/
def edge (a : (α → Nat) × List α) (x : α) : (α → Nat) × List α :=
  (Function.update a.1 x (a.1 x + 1),
    if G.inner x ∧ (a.1 x + 1) % m ≤ 1 then x :: a.2 else a.2)

/-- The walk under way. -/
structure State (α : Type) where
  stack : List α
  named : α → Nat
  visits : List α

/-- Node `d`, taken off the stack. -/
def visit (s : State α) (d : α) (rest : List α) : State α where
  stack := ((G.kids d).foldl (G.edge m) (s.named, rest)).2
  named := ((G.kids d).foldl (G.edge m) (s.named, rest)).1
  visits := s.visits ++ [d]

/-- The states a walk can be in. -/
inductive Reached : State α → Prop where
  | start : Reached ⟨[G.root], fun _ => 0, []⟩
  | visit {s : State α} {d : α} {rest : List α} :
      Reached s → s.stack = d :: rest → Reached (G.visit m s d rest)

/-- The nodes the walk should come to. -/
inductive Reach : α → Prop where
  | root : Reach G.root
  | kid {d x : α} : Reach d → x ∈ G.kids d → G.inner x → Reach x

/-- How often a counter has said 0 or 1 after so many edges. -/
def pushes : Nat → Nat
  | 0 => 0
  | n + 1 => pushes n + if (n + 1) % m ≤ 1 then 1 else 0

/-! ## How often a node is pushed -/

section Pushes

variable {m} (hm : 2 ≤ m)
include hm

/-- In each full round of the counter twice, and once more after the first edge of the next. -/
theorem pushes_at (q : Nat) : ∀ r < m, pushes m (m * q + r) = 2 * q + if r = 0 then 0 else 1 := by
  have hrest : ∀ q, pushes m (m * q) = 2 * q → ∀ r < m,
      pushes m (m * q + r) = 2 * q + if r = 0 then 0 else 1 := by
    intro q h0 r
    induction r with
    | zero => exact fun _ => h0
    | succ r ih =>
      intro hr
      have hmod : (m * q + r + 1) % m = r + 1 := by
        rw [Nat.add_assoc, Nat.mul_add_mod, Nat.mod_eq_of_lt hr]
      rw [← Nat.add_assoc, pushes, ih (by omega), hmod]
      by_cases h : r = 0
      · simp [h]
      · simp [h]
  refine hrest q ?_
  induction q with
  | zero => rfl
  | succ q ih =>
    have hlast : m * (q + 1) = m * q + (m - 1) + 1 := by
      rw [Nat.mul_succ]
      omega
    have hmod : (m * q + (m - 1) + 1) % m = 0 := by
      rw [← hlast, Nat.mul_mod_right]
    rw [hlast, pushes, hrest q ih (m - 1) (by omega), hmod, if_neg (by omega)]
    simp only [Nat.zero_le, if_true]
    omega

theorem pushes_eq (n : Nat) : pushes m n = 2 * (n / m) + if n % m = 0 then 0 else 1 := by
  have := pushes_at hm (n / m) (n % m) (Nat.mod_lt n (by omega))
  rwa [Nat.div_add_mod] at this

/-- No more than once before the counter is back at 0. -/
theorem pushes_le_one {n : Nat} : pushes m n ≤ 1 ↔ n < m := by
  rw [pushes_eq hm]
  constructor
  · intro h
    by_contra hge
    have := Nat.div_pos (by omega : m ≤ n) (by omega)
    split at h <;> omega
  · intro h
    rw [Nat.div_eq_of_lt h]
    split <;> omega

theorem pushes_pos {n : Nat} (hn : 1 ≤ n) : 1 ≤ pushes m n := by
  induction n with
  | zero => omega
  | succ n ih =>
    by_cases h0 : n = 0
    · subst h0
      simp [pushes, Nat.mod_eq_of_lt (show 1 < m by omega)]
    · have := ih (by omega)
      unfold pushes
      omega

/-- Seldom, for the number of edges. -/
theorem pushes_bound (n : Nat) : m * pushes m n ≤ m + 2 * n := by
  have h := Nat.div_add_mod n m
  rw [pushes_eq hm, Nat.mul_add]
  have h2 : m * (2 * (n / m)) = 2 * (m * (n / m)) := by ring
  have h3 : m * (if n % m = 0 then 0 else 1) ≤ m := by split <;> omega
  omega

end Pushes

/-! ## One node -/

section Edges

variable {G m}

theorem foldl_edge_named (xs : List α) (a : (α → Nat) × List α) (x : α) :
    (xs.foldl (G.edge m) a).1 x = a.1 x + xs.count x := by
  induction xs generalizing a with
  | nil => rfl
  | cons y xs ih =>
    rw [List.foldl_cons, ih, List.count_cons]
    show Function.update a.1 y (a.1 y + 1) x + _ = _
    by_cases h : x = y
    · simp [h]
      omega
    · rw [Function.update_of_ne h]
      simp [Ne.symm h]

/-- A node to be walked is pushed as often as its counter says. -/
theorem foldl_edge_count {x : α} (hx : G.inner x) (xs : List α) (a : (α → Nat) × List α) :
    (xs.foldl (G.edge m) a).2.count x + pushes m (a.1 x)
      = a.2.count x + pushes m (a.1 x + xs.count x) := by
  induction xs generalizing a with
  | nil => rfl
  | cons y xs ih =>
    rw [List.foldl_cons]
    have h := ih (G.edge m a y)
    by_cases hy : x = y
    · have h1 : (G.edge m a y).1 x = a.1 x + 1 := by rw [hy]; exact Function.update_self _ _ _
      have h2 : (G.edge m a y).2.count x
          = a.2.count x + if (a.1 x + 1) % m ≤ 1 then 1 else 0 := by
        unfold edge
        dsimp only
        rw [← hy]
        by_cases hp : (a.1 x + 1) % m ≤ 1
        · rw [if_pos ⟨hx, hp⟩, if_pos hp, List.count_cons_self]
        · rw [if_neg fun hc => hp hc.2, if_neg hp]
          rfl
      rw [h1, h2, pushes] at h
      have h3 : (y :: xs).count x = xs.count x + 1 := by rw [hy, List.count_cons_self]
      rw [h3, show a.1 x + (xs.count x + 1) = a.1 x + 1 + xs.count x by omega]
      omega
    · have h1 : (G.edge m a y).1 x = a.1 x := Function.update_of_ne hy _ _
      have h2 : (G.edge m a y).2.count x = a.2.count x := by
        unfold edge
        dsimp only
        split
        · exact List.count_cons_of_ne (Ne.symm hy)
        · rfl
      rw [h1, h2] at h
      rwa [List.count_cons_of_ne (Ne.symm hy)]

/-- What is pushed is one of the nodes led to, to be walked. -/
theorem mem_foldl_edge {x : α} (xs : List α) (a : (α → Nat) × List α)
    (h : x ∈ (xs.foldl (G.edge m) a).2) : x ∈ a.2 ∨ x ∈ xs ∧ G.inner x := by
  induction xs generalizing a with
  | nil => exact .inl h
  | cons y xs ih =>
    rcases ih _ h with h | ⟨h1, h2⟩
    · unfold edge at h
      dsimp only at h
      split at h
      · rename_i hy
        rcases List.mem_cons.mp h with rfl | h
        · exact .inr ⟨List.mem_cons_self .., hy.1⟩
        · exact .inl h
      · exact .inl h
    · exact .inr ⟨List.mem_cons_of_mem _ h1, h2⟩

theorem foldl_edge_not_inner {x : α} (hx : ¬ G.inner x) (xs : List α) (a : (α → Nat) × List α) :
    (xs.foldl (G.edge m) a).2.count x = a.2.count x := by
  induction xs generalizing a with
  | nil => rfl
  | cons y xs ih =>
    rw [List.foldl_cons, ih]
    unfold edge
    dsimp only
    split
    · rename_i h
      exact List.count_cons_of_ne (by rintro rfl; exact hx h.1)
    · rfl

end Edges

/-! ## The walk -/

/-- The edges to `x` out of the nodes of a list. -/
def into (L : List α) (x : α) : Nat := (L.map fun d => (G.kids d).count x).sum

open Classical in
/-- The edges to `x` out of all nodes the walk should come to, those of `N` and the root. -/
noncomputable def total (N : Finset α) (x : α) : Nat :=
  ∑ d ∈ (insert G.root N).filter G.Reach, (G.kids d).count x

/-- What holds of every state of a walk. -/
structure Inv (s : State α) : Prop where
  named : ∀ x, s.named x = G.into s.visits x
  inner : ∀ x, G.inner x → (s.visits ++ s.stack).count x = pushes m (s.named x)
  outer : ∀ x, ¬ G.inner x → (s.visits ++ s.stack).count x = if x = G.root then 1 else 0
  reach : ∀ x ∈ s.visits ++ s.stack, G.Reach x

section Walk

variable {G m}

omit [DecidablePred G.inner] in
theorem into_concat (L : List α) (d x : α) :
    G.into (L ++ [d]) x = G.into L x + (G.kids d).count x := by
  simp [into]

theorem Reached.inv {s : State α} (h : G.Reached m s) : G.Inv m s := by
  induction h with
  | start =>
    refine ⟨fun _ => rfl, fun x hx => ?_, fun x _ => ?_, fun x hx => ?_⟩
    · have hne : G.root ≠ x := by
        rintro rfl
        exact G.root_not_inner hx
      simp [pushes, hne]
    · by_cases hx : x = G.root
      · simp [hx]
      · simp [hx, Ne.symm hx]
    · rw [List.nil_append, List.mem_singleton] at hx
      rw [hx]
      exact .root
  | @visit s d rest _ hs ih =>
    have hperm : ∀ x, (s.visits ++ s.stack).count x
        = ((s.visits ++ [d]) ++ rest).count x := fun x => by
      rw [hs, List.append_assoc, List.singleton_append]
    refine ⟨fun x => ?_, fun x hx => ?_, fun x hx => ?_, fun x hx => ?_⟩
    · show ((G.kids d).foldl (G.edge m) (s.named, rest)).1 x = G.into (s.visits ++ [d]) x
      rw [foldl_edge_named, into_concat, ← ih.named]
    · show (s.visits ++ [d] ++ ((G.kids d).foldl (G.edge m) (s.named, rest)).2).count x
        = pushes m (((G.kids d).foldl (G.edge m) (s.named, rest)).1 x)
      have h1 := foldl_edge_count (m := m) hx (G.kids d) (s.named, rest)
      have h2 := ih.inner x hx
      rw [hperm, List.count_append] at h2
      rw [foldl_edge_named, List.count_append]
      dsimp only at h1 ⊢
      omega
    · show (s.visits ++ [d] ++ ((G.kids d).foldl (G.edge m) (s.named, rest)).2).count x = _
      have h2 := ih.outer x hx
      rw [hperm, List.count_append] at h2
      rw [List.count_append, foldl_edge_not_inner hx]
      exact h2
    · have hd : G.Reach d := ih.reach d (by rw [hs]; simp)
      rcases List.mem_append.mp hx with hx | hx
      · rcases List.mem_append.mp hx with hx | hx
        · exact ih.reach x (List.mem_append_left _ hx)
        · rw [List.mem_singleton.mp hx]
          exact hd
      · rcases mem_foldl_edge _ _ hx with hx | ⟨h1, h2⟩
        · exact ih.reach x (by rw [hs]; simp [show x ∈ rest from hx])
        · exact .kid hd h1 h2

omit [DecidablePred G.inner] in
/-- When the stack is empty everything there is to reach was visited. -/
theorem Inv.visited (hm : 2 ≤ m) {s : State α} (h : G.Inv m s) (hend : s.stack = []) {x : α} :
    x ∈ s.visits ↔ G.Reach x := by
  rw [← List.append_nil s.visits, ← hend]
  refine ⟨h.reach x, fun hx => ?_⟩
  induction hx with
  | root =>
    have := h.outer G.root G.root_not_inner
    rw [if_pos rfl] at this
    exact List.count_pos_iff.mp (by omega)
  | @kid d x _ hk hx ih =>
    have hcount := h.inner x hx
    have hnamed : 1 ≤ s.named x := by
      rw [h.named]
      rw [hend, List.append_nil] at ih
      have h1 : 1 ≤ (G.kids d).count x := List.count_pos_iff.mpr hk
      exact h1.trans (List.single_le_sum (fun _ _ => Nat.zero_le _) _
        (List.mem_map.mpr ⟨d, ih, rfl⟩))
    exact List.count_pos_iff.mp (by rw [hcount]; exact pushes_pos hm hnamed)

theorem sum_count_le (N : Finset α) (L : List α) : ∑ x ∈ N, L.count x ≤ L.length := by
  induction L with
  | nil => simp
  | cons y L ih =>
    simp only [List.count_cons, Finset.sum_add_distrib, beq_iff_eq, Finset.sum_ite_eq,
      List.length_cons]
    split <;> omega

theorem sum_count_eq {N : Finset α} {L : List α} (h : ∀ x ∈ L, x ∈ N) :
    ∑ x ∈ N, L.count x = L.length := by
  induction L with
  | nil => simp
  | cons y L ih =>
    simp only [List.count_cons, Finset.sum_add_distrib, beq_iff_eq, Finset.sum_ite_eq,
      List.length_cons]
    rw [if_pos (h y (List.mem_cons_self ..)), ih fun x hx => h x (List.mem_cons_of_mem _ hx)]

omit [DecidablePred G.inner] in
/-- No more edges were followed than the nodes visited have. -/
theorem sum_into_le (N : Finset α) {K : Nat} (L : List α) (hK : ∀ d, (G.kids d).length ≤ K) :
    ∑ x ∈ N, G.into L x ≤ K * L.length := by
  induction L with
  | nil => simp [into]
  | cons d L ih =>
    have h1 : ∑ x ∈ N, G.into (d :: L) x = ∑ x ∈ N, (G.kids d).count x + ∑ x ∈ N, G.into L x := by
      rw [← Finset.sum_add_distrib]
      rfl
    have h2 := sum_count_le N (G.kids d)
    have h3 := hK d
    rw [h1, List.length_cons, Nat.mul_succ]
    omega

omit [DecidablePred G.inner] in
theorem Reach.mem {N : Finset α} (hN : ∀ x, G.inner x → x ∈ N) {x : α} (h : G.Reach x) :
    x ∈ insert G.root N := by
  cases h with
  | root => exact Finset.mem_insert_self _ _
  | kid _ _ hx => exact Finset.mem_insert_of_mem (hN _ hx)

/-- A walk does not go on for ever: if no node has more than `K` edges and `4 * K` is no more than
    the counters' modulus, it is over after twice as many visits as there are nodes. -/
theorem Inv.bounded (hm : 2 ≤ m) {s : State α} (h : G.Inv m s) {N : Finset α}
    (hN : ∀ x, G.inner x → x ∈ N) {K : Nat} (hK : ∀ d, (G.kids d).length ≤ K) (h4 : 4 * K ≤ m) :
    s.visits.length + 2 * s.stack.length ≤ 2 * (N.card + 1) := by
  have hlen : ∑ x ∈ insert G.root N, (s.visits ++ s.stack).count x
      = s.visits.length + s.stack.length := by
    rw [sum_count_eq fun x hx => (h.reach x hx).mem hN, List.length_append]
  have heach : ∀ x ∈ insert G.root N,
      m * (s.visits ++ s.stack).count x ≤ m + 2 * G.into s.visits x := by
    intro x _
    by_cases hx : G.inner x
    · rw [h.inner x hx, ← h.named]
      exact pushes_bound hm _
    · rw [h.outer x hx]
      split <;> omega
  have hsum := Finset.sum_le_sum heach
  rw [← Finset.mul_sum, hlen, Finset.sum_add_distrib, Finset.sum_const, ← Finset.mul_sum,
    nsmul_eq_mul, Nat.cast_id] at hsum
  have hinto := sum_into_le (insert G.root N) s.visits hK
  have hcard : (insert G.root N).card ≤ N.card + 1 := Finset.card_insert_le _ _
  have h1 : (insert G.root N).card * m ≤ (N.card + 1) * m := Nat.mul_le_mul_right _ hcard
  have h2 : 4 * K * s.visits.length ≤ m * s.visits.length := Nat.mul_le_mul_right _ h4
  have h3 : m * (s.visits.length + 2 * s.stack.length) ≤ m * (2 * (N.card + 1)) := by
    have e1 : m * (s.visits.length + 2 * s.stack.length)
        = m * s.visits.length + 2 * (m * s.stack.length) := by ring
    have e2 : m * (s.visits.length + s.stack.length)
        = m * s.visits.length + m * s.stack.length := by ring
    have e3 : m * (2 * (N.card + 1)) = 2 * ((N.card + 1) * m) := by ring
    have e4 : 4 * K * s.visits.length = 4 * (K * s.visits.length) := by ring
    omega
  exact Nat.le_of_mul_le_mul_left h3 (by omega)

omit [DecidablePred G.inner] in
open Classical in
/-- The edges out of different nodes that are to be visited are among all those there are. -/
theorem into_le_total {N : Finset α} (hN : ∀ x, G.inner x → x ∈ N) {L : List α} (hL : L.Nodup)
    (hreach : ∀ d ∈ L, G.Reach d) (x : α) : G.into L x ≤ G.total N x := by
  unfold into total
  rw [← List.sum_toFinset _ hL]
  refine Finset.sum_le_sum_of_subset fun d hd => ?_
  have hd := hreach d (List.mem_toFinset.mp hd)
  exact Finset.mem_filter.mpr ⟨hd.mem hN, hd⟩

omit [DecidablePred G.inner] in
open Classical in
theorem into_eq_total {N : Finset α} (hN : ∀ x, G.inner x → x ∈ N) {L : List α} (hL : L.Nodup)
    (hreach : ∀ d, d ∈ L ↔ G.Reach d) (x : α) : G.into L x = G.total N x := by
  unfold into total
  rw [← List.sum_toFinset _ hL]
  refine Finset.sum_congr ?_ fun _ _ => rfl
  ext d
  rw [List.mem_toFinset, hreach, Finset.mem_filter]
  exact ⟨fun hd => ⟨hd.mem hN, hd⟩, fun hd => hd.2⟩

/-- While no counter can wrap nothing is pushed twice. -/
theorem Reached.nodup (hm : 2 ≤ m) {s : State α} (h : G.Reached m s) {N : Finset α}
    (hN : ∀ x, G.inner x → x ∈ N) (hlt : ∀ x, G.inner x → G.total N x < m) :
    (s.visits ++ s.stack).Nodup := by
  induction h with
  | start => simp
  | @visit s d rest h hs ih =>
    have hinv := (Reached.visit h hs).inv
    have hvis : (s.visits ++ [d]).Nodup := by
      rw [hs, List.append_cons] at ih
      exact List.Nodup.of_append_left ih
    rw [List.nodup_iff_count_le_one]
    intro x
    by_cases hx : G.inner x
    · rw [hinv.inner x hx, hinv.named, pushes_le_one hm]
      refine lt_of_le_of_lt (into_le_total hN hvis (fun d hd => ?_) x) (hlt x hx)
      exact hinv.reach d (List.mem_append_left _ hd)
    · rw [hinv.outer x hx]
      split <;> omega

/-- Visited once, every node the walk reaches, exactly when no node to be walked has as many edges
    to it as the counters count. -/
theorem nodup_iff (hm : 2 ≤ m) {s : State α} (h : G.Reached m s) (hend : s.stack = [])
    {N : Finset α} (hN : ∀ x, G.inner x → x ∈ N) :
    s.visits.Nodup ↔ ∀ x, G.inner x → G.total N x < m := by
  constructor
  · intro hnd x hx
    have hcount := h.inv.inner x hx
    rw [hend, List.append_nil] at hcount
    have hle := List.nodup_iff_count_le_one.mp hnd x
    rw [hcount, pushes_le_one hm, h.inv.named,
      into_eq_total hN hnd fun d => h.inv.visited hm hend] at hle
    exact hle
  · intro hlt
    have := h.nodup hm hN hlt
    rwa [hend, List.append_nil] at this

end Walk

end Traversal

end ConcurrentFs.Lib
