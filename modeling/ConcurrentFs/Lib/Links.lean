/-
  ConcurrentFs.Lib.Links

  Doubly linked lists through nodes that carry their own links: for each index a
  list, with a head and a tail, and for each node the one before it and the one
  behind it.  `IsList i xs` says that the list of index `i` is `xs`, read from
  either end.

  A change mends the two sides of a place in the list one after the other, so a
  list is taken apart here into what leads up to a place and what follows it.
-/
import Mathlib.Data.List.Basic
import Mathlib.Data.List.Nodup
import Mathlib.Logic.Function.Basic

namespace ConcurrentFs.Lib

structure Links (ι α : Type) where
  prev : α → Option α
  next : α → Option α
  head : ι → Option α
  tail : ι → Option α

namespace Links

variable {ι α : Type} [DecidableEq ι] [DecidableEq α]

/-! ## Operations -/

/-- What follows a node, or the start of the list, from now on. -/
def setNext (l : Links ι α) (i : ι) : Option α → Option α → Links ι α
  | some p, v => { l with next := Function.update l.next p v }
  | none, v => { l with head := Function.update l.head i v }

/-- What comes before a node, or the end of the list, from now on. -/
def setPrev (l : Links ι α) (i : ι) : Option α → Option α → Links ι α
  | some n, v => { l with prev := Function.update l.prev n v }
  | none, v => { l with tail := Function.update l.tail i v }

def unlink (l : Links ι α) (i : ι) (f : α) : Links ι α :=
  let l := l.setNext i (l.prev f) (l.next f)
  let l := l.setPrev i (l.next f) (l.prev f)
  { l with prev := Function.update l.prev f none, next := Function.update l.next f none }

def pushFront (l : Links ι α) (i : ι) (f : α) : Links ι α :=
  let l := { l with
    prev := Function.update l.prev f none
    next := Function.update l.next f (l.head i) }
  let l := l.setPrev i (l.head i) (some f)
  { l with head := Function.update l.head i (some f) }

def pushBack (l : Links ι α) (i : ι) (f : α) : Links ι α :=
  let l := { l with
    next := Function.update l.next f none
    prev := Function.update l.prev f (l.tail i) }
  let l := l.setNext i (l.tail i) (some f)
  { l with tail := Function.update l.tail i (some f) }

/-! ## Segments -/

/-- The nodes of `xs` hang together, between `p` before them and `n` behind them. -/
def Seg (l : Links ι α) : Option α → List α → Option α → Prop
  | _, [], _ => True
  | p, x :: xs, n => l.prev x = p ∧ l.next x = xs.head?.or n ∧ l.Seg (some x) xs n

/-- From the head on come `xs`, and then `n`. -/
def Left (l : Links ι α) (i : ι) (xs : List α) (n : Option α) : Prop :=
  l.head i = xs.head?.or n ∧ l.Seg none xs n

/-- Up to the tail come `p`, and then `xs`. -/
def Right (l : Links ι α) (i : ι) (p : Option α) (xs : List α) : Prop :=
  l.tail i = xs.getLast?.or p ∧ l.Seg p xs none

/-- The list of index `i`, from head to tail, with its links both ways. -/
def IsList (l : Links ι α) (i : ι) (xs : List α) : Prop :=
  l.head i = xs.head? ∧ l.tail i = xs.getLast? ∧ l.Seg none xs none

variable {l l' : Links ι α} {i j : ι} {f : α} {p n v : Option α} {xs ys : List α}

omit [DecidableEq ι] [DecidableEq α] in
theorem Seg.congr (h : l.Seg p xs n) (hp : ∀ x ∈ xs, l'.prev x = l.prev x)
    (hn : ∀ x ∈ xs, l'.next x = l.next x) : l'.Seg p xs n := by
  induction xs generalizing p with
  | nil => trivial
  | cons x xs ih =>
    obtain ⟨h1, h2, h3⟩ := h
    exact ⟨(hp x (List.mem_cons_self ..)).trans h1, (hn x (List.mem_cons_self ..)).trans h2,
      ih h3 (fun y hy => hp y (List.mem_cons_of_mem _ hy))
        fun y hy => hn y (List.mem_cons_of_mem _ hy)⟩

omit [DecidableEq ι] [DecidableEq α] in
theorem seg_append : l.Seg p (xs ++ ys) n ↔
    l.Seg p xs (ys.head?.or n) ∧ l.Seg (xs.getLast?.or p) ys n := by
  induction xs generalizing p with
  | nil => exact ⟨fun h => ⟨trivial, h⟩, fun h => h.2⟩
  | cons x xs ih =>
    have hlast : (x :: xs).getLast?.or p = xs.getLast?.or (some x) := by
      rw [List.getLast?_cons]
      cases xs.getLast? <;> rfl
    have hhead : (xs ++ ys).head?.or n = xs.head?.or (ys.head?.or n) := by
      rw [List.head?_append, Option.or_assoc]
    rw [hlast, List.cons_append, Seg, Seg, hhead, ih, and_assoc, and_assoc]

omit [DecidableEq ι] [DecidableEq α] in
/-- A list is what leads up to a place and what follows it. -/
theorem isList_append : l.IsList i (xs ++ ys) ↔
    l.Left i xs ys.head? ∧ l.Right i xs.getLast? ys := by
  rw [IsList, seg_append, Left, Right, List.head?_append, List.getLast?_append, Option.or_none,
    Option.or_none]
  constructor
  · rintro ⟨hh, ht, h1, h2⟩
    exact ⟨⟨hh, h1⟩, ht, h2⟩
  · rintro ⟨⟨hh, h1⟩, ht, h2⟩
    exact ⟨hh, ht, h1, h2⟩

/-! ## Mending one side -/

theorem Left.setNext (h : l.Left i xs n) (hx : xs.Nodup) :
    (l.setNext i xs.getLast? v).Left i xs v := by
  rcases List.eq_nil_or_concat xs with rfl | ⟨xs, x, rfl⟩
  · exact ⟨Function.update_self .., trivial⟩
  · rw [List.concat_eq_append] at h hx ⊢
    rw [List.nodup_append] at hx
    have hne : ∀ y ∈ xs, y ≠ x := fun y hy => hx.2.2 y hy x (List.mem_singleton_self x)
    obtain ⟨hh, hs⟩ := h
    rw [seg_append] at hs
    rw [List.getLast?_concat]
    refine ⟨?_, seg_append.mpr ⟨hs.1.congr (fun _ _ => rfl) fun y hy => ?_, ?_⟩⟩
    · rw [List.head?_append, Option.or_assoc] at hh ⊢
      exact hh
    · exact Function.update_of_ne (hne y hy) ..
    · exact ⟨hs.2.1, Function.update_self .., trivial⟩

theorem Right.setPrev (h : l.Right i p ys) (hy : ys.Nodup) :
    (l.setPrev i ys.head? v).Right i v ys := by
  cases ys with
  | nil => exact ⟨Function.update_self .., trivial⟩
  | cons y ys =>
    have hne : ∀ x ∈ ys, x ≠ y := by
      rintro x hx rfl
      exact (List.nodup_cons.mp hy).1 hx
    obtain ⟨ht, -, hn, hs⟩ := h
    refine ⟨?_, Function.update_self .., hn, hs.congr (fun x hx => ?_) fun _ _ => rfl⟩
    · rw [List.getLast?_cons] at ht ⊢
      exact ht
    · exact Function.update_of_ne (hne x hx) ..

theorem setNext_prev : (l.setNext i p v).prev = l.prev := by cases p <;> rfl

theorem setPrev_next : (l.setPrev i n v).next = l.next := by cases n <;> rfl

theorem setNext_tail : (l.setNext i p v).tail = l.tail := by cases p <;> rfl

theorem setPrev_head : (l.setPrev i n v).head = l.head := by cases n <;> rfl

theorem setNext_next (h : p ≠ some f) : (l.setNext i p v).next f = l.next f := by
  cases p with
  | none => rfl
  | some p => exact Function.update_of_ne (fun he => h (congrArg some he.symm)) ..

theorem setPrev_prev (h : n ≠ some f) : (l.setPrev i n v).prev f = l.prev f := by
  cases n with
  | none => rfl
  | some n => exact Function.update_of_ne (fun he => h (congrArg some he.symm)) ..

omit [DecidableEq ι] [DecidableEq α] in
theorem Right.mono (h : l.Right i p ys) (ht : l'.tail i = l.tail i)
    (hp : ∀ x ∈ ys, l'.prev x = l.prev x) (hn : ∀ x ∈ ys, l'.next x = l.next x) :
    l'.Right i p ys := ⟨ht.trans h.1, h.2.congr hp hn⟩

omit [DecidableEq ι] [DecidableEq α] in
theorem Left.mono (h : l.Left i xs n) (hh : l'.head i = l.head i)
    (hp : ∀ x ∈ xs, l'.prev x = l.prev x) (hn : ∀ x ∈ xs, l'.next x = l.next x) :
    l'.Left i xs n := ⟨hh.trans h.1, h.2.congr hp hn⟩

/-! ## Operations on a list -/

theorem IsList.unlink (h : l.IsList i (xs ++ f :: ys)) (hd : (xs ++ f :: ys).Nodup) :
    (l.unlink i f).IsList i (xs ++ ys) := by
  obtain ⟨hxs, hfys, hdis⟩ := List.nodup_append.mp hd
  obtain ⟨hf, hys⟩ := List.nodup_cons.mp hfys
  have hfxs : f ∉ xs := fun hm => hdis f hm f (List.mem_cons_self ..) rfl
  obtain ⟨hleft, hright⟩ := isList_append.mp h
  have hprev : l.prev f = xs.getLast? := hright.2.1
  have hnext : l.next f = ys.head? := by
    rw [hright.2.2.1, Option.or_none]
  have hlast : xs.getLast? ≠ some f := fun he => hfxs (List.mem_of_getLast? he)
  have hhead : ys.head? ≠ some f := fun he => hf (List.mem_of_head? he)
  -- first the node before `f`, or the head, is led past it
  generalize hl₁ : l.setNext i xs.getLast? ys.head? = l₁
  have hleft₁ : l₁.Left i xs ys.head? := by
    rw [← hl₁]
    exact hleft.setNext hxs
  have hright₁ : l₁.Right i (some f) ys := by
    rw [← hl₁]
    refine ⟨?_, hright.2.2.2.congr (fun _ _ => by rw [setNext_prev]) fun x hx => setNext_next ?_⟩
    · rw [setNext_tail, hright.1, List.getLast?_cons]
      cases ys.getLast? <;> rfl
    · exact fun he => hdis x (List.mem_of_getLast? he) x (List.mem_cons_of_mem _ hx) rfl
  -- then the node behind it, or the tail
  generalize hl₂ : l₁.setPrev i ys.head? xs.getLast? = l₂
  have hright₂ : l₂.Right i xs.getLast? ys := by
    rw [← hl₂]
    exact hright₁.setPrev hys
  have hleft₂ : l₂.Left i xs ys.head? := by
    rw [← hl₂]
    refine hleft₁.mono (by rw [setPrev_head]) (fun x hx => setPrev_prev ?_)
      fun _ _ => by rw [setPrev_next]
    exact fun he => hdis x hx x (List.mem_cons_of_mem _ (List.mem_of_head? he)) rfl
  have hun : l.unlink i f = { l₂ with
      prev := Function.update l₂.prev f none, next := Function.update l₂.next f none } := by
    have hn₁ : l₁.next f = ys.head? := by rw [← hl₁, setNext_next hlast, hnext]
    have hp₁ : l₁.prev f = xs.getLast? := by rw [← hl₁, setNext_prev, hprev]
    rw [Links.unlink, hprev, hnext, hl₁, hn₁, hp₁, hl₂]
  rw [hun]
  refine isList_append.mpr ⟨hleft₂.mono rfl (fun x hx => ?_) fun x hx => ?_,
    hright₂.mono rfl (fun x hx => ?_) fun x hx => ?_⟩ <;> refine Function.update_of_ne ?_ ..
  · rintro rfl
    exact hfxs hx
  · rintro rfl
    exact hfxs hx
  · rintro rfl
    exact hf hx
  · rintro rfl
    exact hf hx

theorem IsList.pushFront (h : l.IsList i xs) (hd : xs.Nodup) (hf : f ∉ xs) :
    (l.pushFront i f).IsList i (f :: xs) := by
  have hne : ∀ x ∈ xs, x ≠ f := by
    rintro x hx rfl
    exact hf hx
  have hhead : xs.head? ≠ some f := fun he => hf (List.mem_of_head? he)
  generalize hl₁ : ({ l with
    prev := Function.update l.prev f none
    next := Function.update l.next f (l.head i) } : Links ι α) = l₁
  have hright : l₁.Right i none xs := by
    rw [← hl₁]
    exact ⟨by rw [Option.or_none]; exact h.2.1,
      h.2.2.congr (fun x hx => Function.update_of_ne (hne x hx) ..)
        fun x hx => Function.update_of_ne (hne x hx) ..⟩
  have hh : l₁.head i = xs.head? := by
    rw [← hl₁]
    exact h.1
  obtain ⟨ht, hs⟩ := hright.setPrev (v := some f) hd
  have hpush : l.pushFront i f = { l₁.setPrev i xs.head? (some f) with
      head := Function.update (l₁.setPrev i xs.head? (some f)).head i (some f) } := by
    rw [← hh, ← hl₁]
    rfl
  rw [hpush]
  refine ⟨Function.update_self .., ht.trans ?_, ?_, ?_, hs.congr (fun _ _ => rfl) fun _ _ => rfl⟩
  · rw [List.getLast?_cons]
    cases xs.getLast? <;> rfl
  · show (l₁.setPrev i xs.head? (some f)).prev f = none
    rw [setPrev_prev hhead, ← hl₁]
    exact Function.update_self ..
  · show (l₁.setPrev i xs.head? (some f)).next f = xs.head?.or none
    rw [setPrev_next, Option.or_none, ← h.1, ← hl₁]
    exact Function.update_self ..

theorem IsList.pushBack (h : l.IsList i xs) (hd : xs.Nodup) (hf : f ∉ xs) :
    (l.pushBack i f).IsList i (xs ++ [f]) := by
  have hne : ∀ x ∈ xs, x ≠ f := by
    rintro x hx rfl
    exact hf hx
  have hlast : xs.getLast? ≠ some f := fun he => hf (List.mem_of_getLast? he)
  generalize hl₁ : ({ l with
    next := Function.update l.next f none
    prev := Function.update l.prev f (l.tail i) } : Links ι α) = l₁
  have hleft : l₁.Left i xs none := by
    rw [← hl₁]
    exact ⟨by rw [Option.or_none]; exact h.1,
      h.2.2.congr (fun x hx => Function.update_of_ne (hne x hx) ..)
        fun x hx => Function.update_of_ne (hne x hx) ..⟩
  have ht : l₁.tail i = xs.getLast? := by
    rw [← hl₁]
    exact h.2.1
  have hleft' := hleft.setNext (v := some f) hd
  have hpush : l.pushBack i f = { l₁.setNext i xs.getLast? (some f) with
      tail := Function.update (l₁.setNext i xs.getLast? (some f)).tail i (some f) } := by
    rw [← ht, ← hl₁]
    rfl
  rw [hpush]
  refine isList_append.mpr ⟨hleft'.mono rfl (fun _ _ => rfl) fun _ _ => rfl,
    Function.update_self .., ?_, ?_, trivial⟩
  · show (l₁.setNext i xs.getLast? (some f)).prev f = xs.getLast?
    rw [setNext_prev, ← h.2.1, ← hl₁]
    exact Function.update_self ..
  · show (l₁.setNext i xs.getLast? (some f)).next f = none
    rw [setNext_next hlast, ← hl₁]
    exact Function.update_self ..

/-! ## The other lists -/

theorem IsList.setNext (h : l.IsList j ys) (hij : j ≠ i) (hp : ∀ x ∈ ys, p ≠ some x) :
    (l.setNext i p v).IsList j ys := by
  refine ⟨?_, by rw [setNext_tail]; exact h.2.1,
    h.2.2.congr (fun _ _ => by rw [setNext_prev]) fun x hx => setNext_next (hp x hx)⟩
  cases p with
  | none => exact (Function.update_of_ne hij ..).trans h.1
  | some p => exact h.1

theorem IsList.setPrev (h : l.IsList j ys) (hij : j ≠ i) (hn : ∀ x ∈ ys, n ≠ some x) :
    (l.setPrev i n v).IsList j ys := by
  refine ⟨by rw [setPrev_head]; exact h.1, ?_,
    h.2.2.congr (fun x hx => setPrev_prev (hn x hx)) fun _ _ => by rw [setPrev_next]⟩
  cases n with
  | none => exact (Function.update_of_ne hij ..).trans h.2.1
  | some n => exact h.2.1

omit [DecidableEq ι] [DecidableEq α] in
theorem IsList.mono (h : l.IsList j ys) (hh : l'.head j = l.head j) (ht : l'.tail j = l.tail j)
    (hp : ∀ x ∈ ys, l'.prev x = l.prev x) (hn : ∀ x ∈ ys, l'.next x = l.next x) :
    l'.IsList j ys := ⟨hh.trans h.1, ht.trans h.2.1, h.2.2.congr hp hn⟩

omit [DecidableEq ι] [DecidableEq α] in
/-- The links of a node in its list. -/
theorem IsList.links (h : l.IsList i (xs ++ f :: ys)) :
    l.prev f = xs.getLast? ∧ l.next f = ys.head? := by
  obtain ⟨-, hright⟩ := isList_append.mp h
  exact ⟨hright.2.1, by rw [hright.2.2.1, Option.or_none]⟩

/-- Lists for every index, with no node twice in any of them. -/
structure Lists (l : Links ι α) (lists : ι → List α) : Prop where
  isList : ∀ i, l.IsList i (lists i)
  nodup : ∀ i, (lists i).Nodup
  disjoint : ∀ i j x, x ∈ lists i → x ∈ lists j → i = j

variable {lists : ι → List α}

theorem Lists.unlink (h : l.Lists lists) (hf : f ∈ lists i) :
    (l.unlink i f).Lists (Function.update lists i ((lists i).erase f)) := by
  obtain ⟨xs, ys, hxy⟩ := List.append_of_mem hf
  have hi := h.isList i
  have hd := h.nodup i
  rw [hxy] at hi hd
  obtain ⟨hxs, hfys, hdis⟩ := List.nodup_append.mp hd
  have hfxs : f ∉ xs := fun hm => hdis f hm f (List.mem_cons_self ..) rfl
  have herase : (lists i).erase f = xs ++ ys := by
    rw [hxy, List.erase_append_right _ hfxs, List.erase_cons_head]
  have hsub : ∀ j x, x ∈ Function.update lists i ((lists i).erase f) j → x ∈ lists j := by
    intro j x hx
    by_cases hj : j = i
    · subst hj
      rw [Function.update_self] at hx
      exact List.mem_of_mem_erase hx
    · rwa [Function.update_of_ne hj] at hx
  refine ⟨fun j => ?_, fun j => ?_, fun j k x hj hk => h.disjoint j k x (hsub j x hj) (hsub k x hk)⟩
  · by_cases hj : j = i
    · subst hj
      rw [Function.update_self, herase]
      exact hi.unlink hd
    · rw [Function.update_of_ne hj]
      obtain ⟨hprev, hnext⟩ := hi.links
      -- a neighbour of `f` is in its list, not in this one
      have apart : ∀ x ∈ lists j, x ∉ lists i := fun x hx hx' => hj (h.disjoint j i x hx hx')
      have hp : ∀ x ∈ lists j, l.prev f ≠ some x := by
        intro x hx he
        refine apart x hx ?_
        rw [hxy]
        exact List.mem_append_left _ (List.mem_of_getLast? (hprev.symm.trans he))
      have hn : ∀ x ∈ lists j, l.next f ≠ some x := by
        intro x hx he
        refine apart x hx ?_
        rw [hxy]
        exact List.mem_append_right _
          (List.mem_cons_of_mem _ (List.mem_of_head? (hnext.symm.trans he)))
      have hself : l.prev f ≠ some f := by
        rw [hprev]
        exact fun he => hfxs (List.mem_of_getLast? he)
      have hne : ∀ x ∈ lists j, x ≠ f := by
        rintro x hx rfl
        exact apart x hx hf
      have h₁ := (h.isList j).setNext hj hp (v := l.next f)
      have hn₁ : (l.setNext i (l.prev f) (l.next f)).next f = l.next f := setNext_next hself
      have h₂ := h₁.setPrev hj (n := (l.setNext i (l.prev f) (l.next f)).next f)
        (v := (l.setNext i (l.prev f) (l.next f)).prev f) (by rw [hn₁]; exact hn)
      exact h₂.mono rfl rfl (fun x hx => Function.update_of_ne (hne x hx) ..)
        fun x hx => Function.update_of_ne (hne x hx) ..
  · by_cases hj : j = i
    · subst hj
      rw [Function.update_self]
      exact (h.nodup j).erase f
    · rw [Function.update_of_ne hj]
      exact h.nodup j

omit [DecidableEq α] in
/-- A node comes into the list of index `i`. -/
theorem Lists.insert (h : l.Lists lists) (hf : ∀ j, f ∉ lists j) {zs : List α}
    (hperm : zs.Perm (f :: lists i)) (hz : l'.IsList i zs)
    (ho : ∀ j, j ≠ i → l'.IsList j (lists j)) : l'.Lists (Function.update lists i zs) := by
  have hmem : ∀ j x, x ∈ Function.update lists i zs j → x ∈ lists j ∨ j = i ∧ x = f := by
    intro j x hx
    by_cases hj : j = i
    · subst hj
      rw [Function.update_self, hperm.mem_iff, List.mem_cons] at hx
      exact hx.symm.imp id fun hx => ⟨rfl, hx⟩
    · rw [Function.update_of_ne hj] at hx
      exact .inl hx
  refine ⟨fun j => ?_, fun j => ?_, fun j k x hj hk => ?_⟩
  · by_cases hj : j = i
    · subst hj
      rw [Function.update_self]
      exact hz
    · rw [Function.update_of_ne hj]
      exact ho j hj
  · by_cases hj : j = i
    · subst hj
      rw [Function.update_self, hperm.nodup_iff]
      exact List.nodup_cons.mpr ⟨hf j, h.nodup j⟩
    · rw [Function.update_of_ne hj]
      exact h.nodup j
  · rcases hmem j x hj with hj | ⟨rfl, rfl⟩
    · rcases hmem k x hk with hk | ⟨-, rfl⟩
      · exact h.disjoint j k x hj hk
      · exact absurd hj (hf j)
    · rcases hmem k x hk with hk | ⟨rfl, -⟩
      · exact absurd hk (hf k)
      · rfl

theorem Lists.pushFront (h : l.Lists lists) (hf : ∀ j, f ∉ lists j) :
    (l.pushFront i f).Lists (Function.update lists i (f :: lists i)) := by
  refine h.insert hf (.refl _) ((h.isList i).pushFront (h.nodup i) (hf i)) fun j hj => ?_
  have hne : ∀ x ∈ lists j, x ≠ f := by
    rintro x hx rfl
    exact hf j hx
  generalize hl₁ : ({ l with
    prev := Function.update l.prev f none
    next := Function.update l.next f (l.head i) } : Links ι α) = l₁
  have h₁ : l₁.IsList j (lists j) := by
    rw [← hl₁]
    exact (h.isList j).mono rfl rfl (fun x hx => Function.update_of_ne (hne x hx) ..)
      fun x hx => Function.update_of_ne (hne x hx) ..
  have hhead : ∀ x ∈ lists j, l.head i ≠ some x := by
    intro x hx he
    exact hj (h.disjoint j i x hx (List.mem_of_head? ((h.isList i).1.symm.trans he)))
  have h₂ := h₁.setPrev hj hhead (v := some f)
  rw [Links.pushFront]
  simp only [hl₁]
  exact h₂.mono (Function.update_of_ne hj ..) rfl (fun _ _ => rfl) fun _ _ => rfl

theorem Lists.pushBack (h : l.Lists lists) (hf : ∀ j, f ∉ lists j) :
    (l.pushBack i f).Lists (Function.update lists i (lists i ++ [f])) := by
  refine h.insert hf (List.perm_append_singleton f _)
    ((h.isList i).pushBack (h.nodup i) (hf i)) fun j hj => ?_
  have hne : ∀ x ∈ lists j, x ≠ f := by
    rintro x hx rfl
    exact hf j hx
  generalize hl₁ : ({ l with
    next := Function.update l.next f none
    prev := Function.update l.prev f (l.tail i) } : Links ι α) = l₁
  have h₁ : l₁.IsList j (lists j) := by
    rw [← hl₁]
    exact (h.isList j).mono rfl rfl (fun x hx => Function.update_of_ne (hne x hx) ..)
      fun x hx => Function.update_of_ne (hne x hx) ..
  have htail : ∀ x ∈ lists j, l.tail i ≠ some x := by
    intro x hx he
    exact hj (h.disjoint j i x hx (List.mem_of_getLast? ((h.isList i).2.1.symm.trans he)))
  have h₂ := h₁.setNext hj htail (v := some f)
  rw [Links.pushBack]
  simp only [hl₁]
  exact h₂.mono rfl (Function.update_of_ne hj ..) (fun _ _ => rfl) fun _ _ => rfl

/-- A node that was taken out is in no list. -/
theorem Lists.notMem_erase (h : l.Lists lists) (hf : f ∈ lists i) (j : ι) :
    f ∉ Function.update lists i ((lists i).erase f) j := by
  by_cases hj : j = i
  · subst hj
    rw [Function.update_self]
    exact (h.nodup j).not_mem_erase
  · rw [Function.update_of_ne hj]
    exact fun hm => hj (h.disjoint j i f hm hf)

/-- A node moves to the front of its list. -/
theorem Lists.toFront (h : l.Lists lists) (hf : f ∈ lists i) :
    ((l.unlink i f).pushFront i f).Lists
      (Function.update lists i (f :: (lists i).erase f)) := by
  have hl := (h.unlink hf).pushFront (i := i) (h.notMem_erase hf)
  rwa [Function.update_self, Function.update_idem] at hl

/-- A node moves to the end of its list. -/
theorem Lists.toBack (h : l.Lists lists) (hf : f ∈ lists i) :
    ((l.unlink i f).pushBack i f).Lists
      (Function.update lists i ((lists i).erase f ++ [f])) := by
  have hl := (h.unlink hf).pushBack (i := i) (h.notMem_erase hf)
  rwa [Function.update_self, Function.update_idem] at hl

end Links

end ConcurrentFs.Lib
