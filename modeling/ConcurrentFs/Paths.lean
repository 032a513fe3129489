/-
  ConcurrentFs.Paths

  Paths in the tree.  `At p x` says that the names `p` lead from the root to inode
  `x`.  In a tree that satisfies the rules a path leads to one inode and an inode
  is at one path, so a tree is the same thing as a function from paths to kinds,
  and adding or removing an inode changes that function at one path.
-/
import ConcurrentFs.Tree

namespace ConcurrentFs

namespace Tree

/-- The names lead from the root to `x`. -/
inductive At (t : Tree) : List Name → Nat → Prop where
  | root : At t [] rootInode
  | child {p : List Name} {d k x : Nat} {name : Name} (hd : At t p d) (hk : 2 ≤ k)
    (hn : t.Names d k x) (hname : (t.entry d k).named = name) : At t (p ++ [name]) x

variable {t : Tree}

theorem at_snoc {p : List Name} {name : Name} {x : Nat} : t.At (p ++ [name]) x ↔
    ∃ d k, t.At p d ∧ 2 ≤ k ∧ t.Names d k x ∧ (t.entry d k).named = name := by
  constructor
  · intro h
    generalize hq : p ++ [name] = q at h
    cases h with
    | root => exact absurd hq (by simp)
    | child hd hk hn hname =>
      obtain ⟨rfl, h2⟩ := List.append_inj' hq rfl
      rw [List.cons.injEq] at h2
      exact ⟨_, _, hd, hk, hn, hname.trans h2.1.symm⟩
  · rintro ⟨d, k, hd, hk, hn, hname⟩
    exact .child hd hk hn hname

theorem at_nil {x : Nat} : t.At [] x ↔ x = rootInode := by
  constructor
  · intro h
    generalize hq : ([] : List Name) = q at h
    cases h with
    | root => rfl
    | child => exact absurd hq (by simp)
  · rintro rfl
    exact .root

namespace Rules

variable (h : t.Rules)
include h

theorem used_of_at {p : List Name} {x : Nat} (ha : t.At p x) : t.kind x ≠ none := by
  cases ha with
  | root =>
    rw [h.root]
    exact nofun
  | child hd hk hn hname => exact h.used_of_names hn

/-- A path leads to one inode. -/
theorem at_unique {p : List Name} {x y : Nat} (hx : t.At p x) (hy : t.At p y) : x = y := by
  induction hx generalizing y with
  | root => exact (at_nil.mp hy).symm
  | child hd hk hn hname ih =>
    obtain ⟨d', k', hd', hk', hn', hname'⟩ := at_snoc.mp hy
    rw [← ih hd'] at hn' hname'
    rw [h.unique _ _ k' hn.id_ne hn'.id_ne (hname.trans hname'.symm)] at hn
    exact hn.1.symm.trans hn'.1

/-- An inode is at one path. -/
theorem at_injective {p q : List Name} {x : Nat} (hp : t.At p x) (hq : t.At q x) : p = q := by
  induction hp generalizing q with
  | root =>
    cases hq with
    | root => rfl
    | child hd hk hn hname => exact absurd ⟨_, hk, hn⟩ (h.rootless _)
  | child hd hk hn hname ih =>
    cases hq with
    | root => exact absurd ⟨_, hk, hn⟩ (h.rootless _)
    | child hd' hk' hn' hname' =>
      obtain ⟨rfl, rfl⟩ := h.one _ _ _ _ _ hk hk' hn hn'
      rw [ih hd', ← hname, ← hname']

/-- Every inode in use is somewhere. -/
theorem exists_at {x : Nat} (hx : t.kind x ≠ none) : ∃ p, t.At p x := by
  have hr := h.reach x hx
  clear hx
  induction hr with
  | refl => exact ⟨[], .root⟩
  | tail _ hc ih =>
    obtain ⟨p, hp⟩ := ih
    obtain ⟨k, hk, hn⟩ := hc
    exact ⟨_, .child hp hk hn rfl⟩

end Rules

/-! ## Paths after a change -/

section Change

variable {d k x : Nat} {e : DirEntry} {kd : Kind}

/-- A new inode is at one new path; nothing else has moved. -/
theorem add_at (h : t.Rules) (c : t.CanAdd d k x e kd) {p : List Name} {y : Nat} :
    (t.add d k x e kd).At p y ↔ t.At p y ∨ (∃ q, t.At q d ∧ p = q ++ [e.named] ∧ y = x) := by
  have hne := c.ne
  constructor
  · intro ha
    induction ha with
    | root => exact .inl .root
    | @child p d' k' y name _ hk' hn hname ih =>
      have hold : ∀ {z}, t.At p z → z ≠ x := fun hz heq =>
        h.used_of_at hz (heq ▸ c.unused)
      rcases (add_names h c d' k' y).mp hn
        with ⟨rfl, rfl, rfl⟩ | ⟨-, -, hk0, -⟩ | ⟨-, -, hk1, -⟩ | hn'
      · -- the new entry
        rcases ih with hd | ⟨q, -, -, hdx⟩
        · refine .inr ⟨p, hd, ?_, rfl⟩
          rw [← hname]
          show p ++ [(t.addEntry d' k' y e kd d' k').named] = _
          rw [addEntry_self]
        · exact absurd hdx hne
      · omega
      · omega
      · have hd'x : d' ≠ x := by
          rintro rfl
          exact absurd (c.unused.symm.trans (h.kind_of_names hn')) nofun
        rcases ih with hd | ⟨q, -, -, hdx⟩
        · refine .inl (.child hd hk' hn' ?_)
          rw [← hname]
          show _ = (t.addEntry d k x e kd d' k').named
          rw [addEntry_other _ hd'x]
          rintro ⟨rfl, rfl⟩
          exact not_names_zero c.free hn'
        · exact absurd hdx hd'x
  · have hmono : ∀ {q : List Name} {z : Nat}, t.At q z → (t.add d k x e kd).At q z := by
      intro q z hz
      induction hz with
      | root => exact .root
      | @child p d' k' y name _ hk' hn hname ih =>
        refine .child ih hk' ((add_names h c d' k' y).mpr (.inr (.inr (.inr hn)))) ?_
        rw [← hname]
        show (t.addEntry d k x e kd d' k').named = _
        rw [addEntry_other]
        · rintro ⟨rfl, rfl⟩
          exact not_names_zero c.free hn
        · rintro rfl
          exact absurd (c.unused.symm.trans (h.kind_of_names hn)) nofun
    rintro (hy | ⟨q, hq, rfl, rfl⟩)
    · exact hmono hy
    · refine .child (hmono hq) (h.two_le_of_free c.dir c.free)
        ((add_names h c d k y).mpr (.inl ⟨rfl, rfl, rfl⟩)) ?_
      show (t.addEntry d k y e kd d k).named = _
      rw [addEntry_self]

/-- What was removed is nowhere; nothing else has moved. -/
theorem remove_at (h : t.Rules) (c : t.CanRemove d k x) {p : List Name} {y : Nat} :
    (t.remove d k x).At p y ↔ t.At p y ∧ y ≠ x := by
  constructor
  · intro ha
    induction ha with
    | root => exact ⟨.root, (h.ne_root_of_child c.child).symm⟩
    | @child p d' k' y name _ hk' hn hname ih =>
      obtain ⟨hn', h1, h2⟩ := (remove_names d' k' y).mp hn
      rw [remove_entry_other h1 h2] at hname
      refine ⟨.child ih.1 hk' hn' hname, ?_⟩
      rintro rfl
      exact h1 (h.one d' k' d k y hk' c.two hn' c.names)
  · rintro ⟨ha, hy⟩
    induction ha with
    | root => exact .root
    | @child p d' k' y name _ hk' hn hname ih =>
      -- the directory is not the removed one: that has no entries
      have hd'x : d' ≠ x := by
        rintro rfl
        exact not_names_zero (c.empty k' hk') hn
      have h1 : ¬ (d' = d ∧ k' = k) := by
        rintro ⟨rfl, rfl⟩
        exact hy (hn.1.symm.trans c.names.1)
      refine .child (ih hd'x) hk' ((remove_names d' k' y).mpr ⟨hn, h1, hd'x⟩) ?_
      rw [remove_entry_other h1 hd'x, hname]

end Change

/-! ## The tree as a function of paths -/

/-- What is at a path. -/
noncomputable def kindAt (t : Tree) (p : List Name) : Option Kind :=
  open Classical in if h : ∃ x, t.At p x then t.kind h.choose else none

theorem kindAt_of_at (h : t.Rules) {p : List Name} {x : Nat} (hx : t.At p x) :
    t.kindAt p = t.kind x := by
  have hex : ∃ x, t.At p x := ⟨x, hx⟩
  unfold kindAt
  rw [dif_pos hex, h.at_unique hex.choose_spec hx]

theorem kindAt_none {p : List Name} (hx : ∀ x, ¬ t.At p x) : t.kindAt p = none := by
  unfold kindAt
  rw [dif_neg fun ⟨x, hp⟩ => hx x hp]

theorem kindAt_eq_some (h : t.Rules) {p : List Name} {kd : Kind} :
    t.kindAt p = some kd ↔ ∃ x, t.At p x ∧ t.kind x = some kd := by
  constructor
  · intro hk
    by_cases hex : ∃ x, t.At p x
    · obtain ⟨x, hx⟩ := hex
      exact ⟨x, hx, (kindAt_of_at h hx).symm.trans hk⟩
    · rw [kindAt_none fun x hx => hex ⟨x, hx⟩] at hk
      exact absurd hk nofun
  · rintro ⟨x, hx, hk⟩
    rw [kindAt_of_at h hx, hk]

/-- Where an inode in use is. -/
noncomputable def pathOf (t : Tree) (x : Nat) : List Name :=
  open Classical in if h : ∃ p, t.At p x then h.choose else []

theorem pathOf_eq (h : t.Rules) {p : List Name} {x : Nat} (hx : t.At p x) : t.pathOf x = p := by
  have hex : ∃ p, t.At p x := ⟨p, hx⟩
  unfold pathOf
  rw [dif_pos hex]
  exact h.at_injective hex.choose_spec hx

/-- Adding changes the function at one path. -/
theorem kindAt_add (h : t.Rules) {d k x : Nat} {e : DirEntry} {kd : Kind}
    (c : t.CanAdd d k x e kd) {q : List Name} (hq : t.At q d) :
    (t.add d k x e kd).kindAt = Function.update t.kindAt (q ++ [e.named]) (some kd) := by
  have h' := add_rules h c
  have hself : (t.add d k x e kd).kind x = some kd := Function.update_self _ _ _
  funext p
  by_cases hp : p = q ++ [e.named]
  · rw [hp, Function.update_self,
      kindAt_of_at h' ((add_at h c).mpr (.inr ⟨q, hq, rfl, rfl⟩)), hself]
  · rw [Function.update_of_ne hp]
    by_cases hex : ∃ y, t.At p y
    · obtain ⟨y, hy⟩ := hex
      rw [kindAt_of_at h' ((add_at h c).mpr (.inl hy)), kindAt_of_at h hy]
      refine Function.update_of_ne ?_ _ _
      rintro rfl
      exact h.used_of_at hy c.unused
    · rw [kindAt_none (fun y hy => hex ⟨y, hy⟩), kindAt_none fun y hy => ?_]
      rcases (add_at h c).mp hy with hy | ⟨q', hq', rfl, -⟩
      · exact hex ⟨y, hy⟩
      · exact hp (by rw [h.at_injective hq' hq])

theorem kindAt_remove (h : t.Rules) {d k x : Nat} (c : t.CanRemove d k x) {q : List Name}
    (hq : t.At q x) : (t.remove d k x).kindAt = Function.update t.kindAt q none := by
  have h' := remove_rules h c
  funext p
  by_cases hp : p = q
  · rw [hp, Function.update_self, kindAt_none fun y hy => ?_]
    obtain ⟨hy, hne⟩ := (remove_at h c).mp hy
    exact hne (h.at_unique hy hq)
  · rw [Function.update_of_ne hp]
    by_cases hex : ∃ y, t.At p y
    · obtain ⟨y, hy⟩ := hex
      have hyx : y ≠ x := by
        rintro rfl
        exact hp (h.at_injective hy hq)
      rw [kindAt_of_at h' ((remove_at h c).mpr ⟨hy, hyx⟩), kindAt_of_at h hy]
      exact Function.update_of_ne hyx _ _
    · rw [kindAt_none (fun y hy => hex ⟨y, hy⟩), kindAt_none fun y hy => ?_]
      exact hex ⟨y, ((remove_at h c).mp hy).1⟩

end Tree

end ConcurrentFs
