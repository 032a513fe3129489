/-
  ConcurrentFs.PathSplit

  What `split_path` computes: the components between the slashes, folded from left
  to right into a list of names.  Names it returns are never empty, too long, "."
  or "..", and have no slash in them, so a path put together from them splits into
  the same names; and a path can be split a piece at a time.
-/
import ConcurrentFs.Directory
import Mathlib.Data.List.TakeWhile

namespace ConcurrentFs

open Lib

/-- The bytes between slashes, empty ones and all. -/
def components (p : List UInt8) : List Name := p.splitOn 47

/-- What one component does to the names before it. -/
def resolve (names : List Name) (c : Name) : List Name :=
  if c = [] ∨ c = dot then names
  else if c = dotdot then names.dropLast
  else names ++ [c]

/-- A name `split_path` may return. -/
structure ProperName (n : Name) : Prop where
  nonempty : n ≠ []
  length : n.length ≤ 58
  noSlash : (47 : UInt8) ∉ n
  notDot : n ≠ dot
  notDotdot : n ≠ dotdot

/-- The path with these names. -/
def joinPath (names : List Name) : List UInt8 := 47 :: [47].intercalate names

/-! ## Components -/

theorem components_append (p q : List UInt8) :
    components (p ++ 47 :: q) = components p ++ components q :=
  List.splitOn_append_cons_self p q

@[simp] theorem components_slash (p : List UInt8) : components (47 :: p) = [] :: components p :=
  components_append [] p

theorem components_of_not_mem {c : List UInt8} (h : (47 : UInt8) ∉ c) : components c = [c] :=
  List.splitOn_eq_singleton h

theorem not_mem_components {p : List UInt8} {c : Name} (h : c ∈ components p) :
    (47 : UInt8) ∉ c := by
  induction p generalizing c with
  | nil =>
    rw [components, List.splitOn_nil, List.mem_singleton] at h
    rw [h]
    exact List.not_mem_nil
  | cons x p ih =>
    by_cases hx : x = 47
    · rw [hx, components_slash, List.mem_cons] at h
      rcases h with rfl | h
      · exact List.not_mem_nil
      · exact ih h
    · -- a byte that is no slash joins the first component
      rw [components, List.splitOn_cons_eq_if_modifyHead, if_neg (by simpa using hx)] at h
      change c ∈ (components p).modifyHead (List.cons x) at h
      cases hp : components p with
      | nil =>
        rw [hp] at h
        cases h
      | cons a as =>
        rw [hp, List.modifyHead_cons, List.mem_cons] at h
        rcases h with rfl | h
        · intro hmem
          rcases List.mem_cons.mp hmem with h47 | hmem
          · exact hx h47.symm
          · exact ih (by rw [hp]; exact List.mem_cons_self ..) hmem
        · exact ih (by rw [hp]; exact List.mem_cons_of_mem _ h)

/-! ## One component -/

/-- A component that is not too long does to the names what it stands for. -/
theorem pushComponent_of_le {c : Name} (h : c.length ≤ 58) (names : List Name) :
    pushComponent names c = .ok (resolve names c) := by
  unfold pushComponent resolve
  by_cases h0 : c.length = 0
  · rw [if_pos h0, if_pos (Or.inl (List.eq_nil_of_length_eq_zero h0))]
  · have hne : c ≠ [] := fun hc => h0 (by rw [hc]; rfl)
    rw [if_neg h0, if_neg (by omega)]
    by_cases hd : c = dot
    · rw [if_pos hd, if_pos (Or.inr hd)]
    · have hno : ¬ (c = [] ∨ c = dot) := by
        rintro (h | h)
        · exact hne h
        · exact hd h
      rw [if_neg hd, if_neg hno]
      by_cases hdd : c = dotdot
      · rw [if_pos hdd, if_pos hdd]
      · rw [if_neg hdd, if_neg hdd]

theorem pushComponent_of_lt {c : Name} (h : 58 < c.length) (names : List Name) :
    pushComponent names c = .error .enametoolong := by
  rw [pushComponent, if_neg (by omega), if_pos h]

/-- Folding components: one too long throws, wherever it stands. -/
theorem foldlM_pushComponent (cs : List Name) (names : List Name) :
    cs.foldlM pushComponent names =
      if ∃ c ∈ cs, 58 < c.length then .error .enametoolong else .ok (cs.foldl resolve names) := by
  induction cs generalizing names with
  | nil => simp [pure, Except.pure]
  | cons c cs ih =>
    rw [List.foldlM_cons, List.foldl_cons]
    by_cases hc : 58 < c.length
    · rw [pushComponent_of_lt hc, if_pos ⟨c, List.mem_cons_self .., hc⟩]
      rfl
    · rw [pushComponent_of_le (by omega)]
      show cs.foldlM pushComponent (resolve names c) = _
      rw [ih]
      by_cases hcs : ∃ c ∈ cs, 58 < c.length
      · obtain ⟨c', hmem, hlt⟩ := hcs
        rw [if_pos ⟨c', hmem, hlt⟩, if_pos ⟨c', List.mem_cons_of_mem _ hmem, hlt⟩]
      · rw [if_neg hcs, if_neg]
        rintro ⟨c', hmem, hlt⟩
        rcases List.mem_cons.mp hmem with rfl | hmem
        · exact hc hlt
        · exact hcs ⟨c', hmem, hlt⟩

/-! ## The loop -/

theorem foldlM_slash (names : List Name) (p : List UInt8) :
    (components (47 :: p)).foldlM pushComponent names
      = (components p).foldlM pushComponent names := by
  rw [components_slash, List.foldlM_cons]
  rfl

theorem foldlM_dropSlashes (names : List Name) (p : List UInt8) :
    (components (p.dropWhile (· == 47))).foldlM pushComponent names
      = (components p).foldlM pushComponent names := by
  induction p with
  | nil => rfl
  | cons x p ih =>
    rw [List.dropWhile_cons]
    by_cases hx : x = 47
    · rw [if_pos (by simpa using hx), ih, hx, foldlM_slash]
    · rw [if_neg (by simpa using hx)]

/-- A round of the loop: a component, then the rest of the path from its slash on. -/
theorem foldlM_component (names : List Name) (p : List UInt8) :
    (components p).foldlM pushComponent names =
      (pushComponent names (p.takeWhile (· != 47))) >>= fun names =>
        (components (p.dropWhile (· != 47))).foldlM pushComponent names := by
  have hmem : (47 : UInt8) ∉ p.takeWhile (· != 47) := by
    intro h
    have := List.mem_takeWhile_imp h
    simp at this
  have hnil : ∀ names : List Name, (components []).foldlM pushComponent names = .ok names := by
    intro names
    rfl
  conv => lhs; rw [← List.takeWhile_append_dropWhile (p := (· != 47)) (l := p)]
  cases hrest : p.dropWhile (· != 47) with
  | nil =>
    rw [List.append_nil, components_of_not_mem hmem, List.foldlM_cons]
    cases pushComponent names (p.takeWhile (· != 47)) <;> rfl
  | cons x rest =>
    have hx : x = 47 := by
      have hhead := List.head_dropWhile_not (· != (47 : UInt8)) (l := p)
        (by rw [hrest]; exact List.cons_ne_nil x rest)
      simp only [hrest, List.head_cons] at hhead
      simpa using hhead
    rw [hx, components_append, components_of_not_mem hmem, List.singleton_append, List.foldlM_cons]
    simp only [foldlM_slash]

/-- The loop folds the components of what is left of the path. -/
theorem splitFrom_eq (n : Nat) :
    ∀ (names : List Name) (p : List UInt8), p.length ≤ n →
      splitFrom names p n = (components p).foldlM pushComponent names := by
  induction n with
  | zero =>
    intro names p hp
    rw [List.eq_nil_of_length_eq_zero (Nat.le_zero.mp hp)]
    rfl
  | succ n ih =>
    intro names p hp
    unfold splitFrom
    by_cases h0 : p = []
    · rw [if_pos h0, h0]
      rfl
    · rw [if_neg h0, ← foldlM_dropSlashes names p, foldlM_component]
      simp only
      -- the round takes a byte at least: a slash, or one of the component
      have hlen : ((p.dropWhile (· == 47)).dropWhile (· != 47)).length ≤ n := by
        obtain ⟨x, p, rfl⟩ := List.exists_cons_of_ne_nil h0
        have hle := (List.dropWhile_suffix (l := p) (· == 47)).length_le
        have hle' := (List.dropWhile_suffix (l := p.dropWhile (· == 47)) (· != 47)).length_le
        have hle'' := (List.dropWhile_suffix (l := p) (· != 47)).length_le
        rw [List.length_cons] at hp
        by_cases hx : x = 47
        · rw [List.dropWhile_cons, if_pos (by simpa using hx)]
          omega
        · rw [List.dropWhile_cons, if_neg (by simpa using hx), List.dropWhile_cons,
            if_pos (by simpa using hx)]
          omega
      cases pushComponent names ((p.dropWhile (· == 47)).takeWhile (· != 47)) with
      | error e => rfl
      | ok names => exact ih names _ hlen

theorem splitPath_eq {p : List UInt8} (hp : p.head? = some 47) :
    splitPath (some p) = (components p).foldlM pushComponent [] := by
  unfold splitPath
  simp only
  rw [if_pos hp, splitFrom_eq _ _ _ (Nat.le_refl _)]

/-! ## The names -/

theorem resolve_proper {names : List Name} (h : ∀ n ∈ names, ProperName n) {c : Name}
    (hs : (47 : UInt8) ∉ c) (hlen : c.length ≤ 58) : ∀ n ∈ resolve names c, ProperName n := by
  unfold resolve
  intro n hn
  split at hn
  · exact h n hn
  · rename_i h0
    split at hn
    · exact h n (List.mem_of_mem_dropLast hn)
    · rename_i hdd
      rcases List.mem_append.mp hn with hn | hn
      · exact h n hn
      · rw [List.mem_singleton] at hn
        subst hn
        exact ⟨fun h => h0 (Or.inl h), hlen, hs, fun h => h0 (Or.inr h), hdd⟩

theorem foldl_resolve_proper {cs names : List Name} (h : ∀ n ∈ names, ProperName n)
    (hs : ∀ c ∈ cs, (47 : UInt8) ∉ c ∧ c.length ≤ 58) :
    ∀ n ∈ cs.foldl resolve names, ProperName n := by
  induction cs generalizing names with
  | nil => exact h
  | cons c cs ih =>
    obtain ⟨h47, hlen⟩ := hs c (List.mem_cons_self ..)
    exact ih (resolve_proper h h47 hlen) fun c hc => hs c (List.mem_cons_of_mem _ hc)

/-- Proper names only add up. -/
theorem foldl_resolve_of_proper {cs : List Name} (h : ∀ n ∈ cs, ProperName n) (names : List Name) :
    cs.foldl resolve names = names ++ cs := by
  induction cs generalizing names with
  | nil => exact (List.append_nil names).symm
  | cons c cs ih =>
    have hc := h c (List.mem_cons_self ..)
    have hstep : resolve names c = names ++ [c] := by
      unfold resolve
      rw [if_neg, if_neg hc.notDotdot]
      rintro (h0 | h0)
      · exact hc.nonempty h0
      · exact hc.notDot h0
    rw [List.foldl_cons, hstep, ih fun n hn => h n (List.mem_cons_of_mem _ hn), List.append_assoc,
      List.singleton_append]

/-- A byte of a component is one of the path. -/
theorem mem_of_components {p : List UInt8} {c : Name} (h : c ∈ components p) :
    ∀ b ∈ c, b ∈ p := by
  induction p generalizing c with
  | nil =>
    rw [components, List.splitOn_nil, List.mem_singleton] at h
    rw [h]
    exact fun b hb => hb
  | cons x p ih =>
    intro b hb
    by_cases hx : x = 47
    · rw [hx, components_slash, List.mem_cons] at h
      rcases h with rfl | h
      · cases hb
      · exact List.mem_cons_of_mem x (ih h b hb)
    · rw [components, List.splitOn_cons_eq_if_modifyHead, if_neg (by simpa using hx)] at h
      change c ∈ (components p).modifyHead (List.cons x) at h
      cases hp : components p with
      | nil =>
        rw [hp] at h
        cases h
      | cons a as =>
        rw [hp, List.modifyHead_cons, List.mem_cons] at h
        rcases h with rfl | h
        · rcases List.mem_cons.mp hb with rfl | hb
          · exact List.mem_cons_self ..
          · exact List.mem_cons_of_mem x (ih (by rw [hp]; exact List.mem_cons_self ..) b hb)
        · exact List.mem_cons_of_mem x (ih (by rw [hp]; exact List.mem_cons_of_mem _ h) b hb)

/-- The names are components of the path. -/
theorem mem_of_foldl_resolve {cs names : List Name} {n : Name} (h : n ∈ cs.foldl resolve names) :
    n ∈ names ∨ n ∈ cs := by
  induction cs generalizing names with
  | nil => exact .inl h
  | cons c cs ih =>
    rcases ih h with h | h
    · have hsub : n ∈ names ∨ n = c := by
        unfold resolve at h
        split at h
        · exact .inl h
        · split at h
          · exact .inl (List.mem_of_mem_dropLast h)
          · rcases List.mem_append.mp h with h | h
            · exact .inl h
            · exact .inr (List.mem_singleton.mp h)
      rcases hsub with h | rfl
      · exact .inl h
      · exact .inr (List.mem_cons_self ..)
    · exact .inr (List.mem_cons_of_mem c h)

/-- The names of a path are proper, and have no byte that the path does not have. -/
theorem proper_of_splitPath {p : List UInt8} {names : List Name}
    (h : splitPath (some p) = .ok names) : ∀ n ∈ names, ProperName n ∧ ∀ b ∈ n, b ∈ p := by
  have hp : p.head? = some 47 := by
    by_contra hne
    have : splitPath (some p) = .error .einval := if_neg hne
    rw [this] at h
    cases h
  rw [splitPath_eq hp, foldlM_pushComponent] at h
  split at h
  · cases h
  · rename_i hlong
    obtain rfl := Except.ok.inj h
    intro n hn
    refine ⟨foldl_resolve_proper (by intro n hn; cases hn)
      (fun c hc => ⟨not_mem_components hc, ?_⟩) n hn,
      ?_⟩
    · exact Nat.le_of_not_lt fun hlt => hlong ⟨c, hc, hlt⟩
    · rcases mem_of_foldl_resolve hn with hn | hn
      · cases hn
      · exact mem_of_components hn

/-- A path made of proper names splits into them. -/
theorem splitPath_joinPath {names : List Name} (h : ∀ n ∈ names, ProperName n) :
    splitPath (some (joinPath names)) = .ok names := by
  have hcs : (components (joinPath names)).foldlM pushComponent [] = .ok names := by
    unfold joinPath
    rw [foldlM_slash]
    cases names with
    | nil => rfl
    | cons n ns =>
      have hsplit : components ([47].intercalate (n :: ns)) = n :: ns :=
        List.splitOn_intercalate 47 (fun l hl => (h l hl).noSlash) (List.cons_ne_nil n ns)
      rw [hsplit, foldlM_pushComponent, if_neg, foldl_resolve_of_proper h, List.nil_append]
      rintro ⟨c, hc, hlt⟩
      have := (h c hc).length
      omega
  rw [splitPath_eq rfl, hcs]

/-- `split_path` on a path from the root: it throws for a component that is too long and for
    nothing else, returns the components folded into proper names, comes back to the same names
    from the path they make, and goes on from the names of one path with those of another. -/
theorem splitPath_normalises {p : List UInt8} (hp : p.head? = some 47) :
    (splitPath (some p) = .error .enametoolong ↔ ∃ c ∈ components p, 58 < c.length) ∧
    ((¬ ∃ c ∈ components p, 58 < c.length) →
      splitPath (some p) = .ok ((components p).foldl resolve [])) ∧
    (∀ names, splitPath (some p) = .ok names →
      (∀ n ∈ names, ProperName n) ∧ splitPath (some (joinPath names)) = .ok names) ∧
    ∀ q : List UInt8, splitPath (some (p ++ 47 :: q)) =
      splitPath (some p) >>= fun names => (components q).foldlM pushComponent names := by
  have hfold := splitPath_eq hp
  rw [foldlM_pushComponent] at hfold
  refine ⟨?_, ?_, ?_, ?_⟩
  · rw [hfold]
    split
    · exact iff_of_true rfl ‹_›
    · exact iff_of_false (fun h => by cases h) ‹_›
  · intro hlong
    rw [hfold, if_neg hlong]
  · intro names hok
    have hproper : ∀ n ∈ names, ProperName n := by
      rw [hfold] at hok
      split at hok
      · cases hok
      · rename_i hlong
        rw [← Except.ok.inj hok]
        refine foldl_resolve_proper (fun n hn => by cases hn) fun c hc =>
          ⟨not_mem_components hc, ?_⟩
        exact Nat.le_of_not_lt fun hlt => hlong ⟨c, hc, hlt⟩
    exact ⟨hproper, splitPath_joinPath hproper⟩
  · intro q
    have hpq : (p ++ 47 :: q).head? = some 47 := by
      cases p with
      | nil => cases hp
      | cons x p => exact hp
    rw [splitPath_eq hpq, splitPath_eq hp, components_append, List.foldlM_append]

/-- "/a//b/./c/../d" is the path to "d" in "b" in "a". -/
theorem splitPath_normalises_dots :
    splitPath (some [47, 97, 47, 47, 98, 47, 46, 47, 99, 47, 46, 46, 47, 100])
      = .ok [[97], [98], [100]] :=
  ((splitPath_normalises rfl).2.1 (by decide)).trans (by decide)

end ConcurrentFs
