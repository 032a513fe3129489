/-
  ConcurrentFs.Tree

  The directory tree an image holds, without the blocks it is kept in: which
  inodes are in use and as what, the entry in every slot of every directory, and
  the link counts.  `Rules` is the part of the consistency rules of layout.h that
  speaks of the tree; `add_rules` and `remove_rules` say that adding and removing
  a file or an empty directory keep them.

  Link counts are compared with the cardinality of the set of slots that hold the
  inode's number, taken in `ℕ∞`: nothing then has to be said about finiteness.
-/
import ConcurrentFs.Directory
import Mathlib.Data.Set.Card

namespace ConcurrentFs

open Lib

/-- What an inode in use can be. -/
inductive Kind where
  | file
  | dir
  deriving DecidableEq

/-- The type in a directory entry that names such an inode. -/
def Kind.ft : Kind → UInt8
  | file => ftFile
  | dir => ftDir

theorem Kind.ft_injective {kd kd' : Kind} (h : kd.ft = kd'.ft) : kd = kd' := by
  cases kd <;> cases kd' <;> first | rfl | exact absurd h (by decide)

/-- How many links a new inode of this kind gives to the directory it is made in: its "..". -/
def Kind.dots : Kind → Nat
  | file => 0
  | dir => 1

/-- The name in a directory entry. -/
def DirEntry.named (e : DirEntry) : Name := (List.ofFn e.name).take e.nameLen.toNat

/-- A name an entry may hold. -/
structure DirEntry.Legal (e : DirEntry) : Prop where
  pos : 1 ≤ e.nameLen.toNat
  le : e.nameLen.toNat ≤ 58
  chars : ∀ c ∈ e.named, c ≠ 47 ∧ c ≠ 0

structure Tree where
  /-- `none`: not in use. -/
  kind : Nat → Option Kind
  /-- The entry in slot `k` of directory `d`, all zeros where there is no slot. -/
  entry : Nat → Nat → DirEntry
  links : Nat → Nat

namespace Tree

variable (t : Tree)

/-- Slot `k` of directory `d` holds the number `x`. -/
def Names (d k x : Nat) : Prop := (t.entry d k).inodeId.toNat = x ∧ x ≠ 0

/-- `x` is in directory `d`, under a name other than "." and "..". -/
def Child (d x : Nat) : Prop := ∃ k, 2 ≤ k ∧ t.Names d k x

/-- The rules of layout.h that speak of the tree. -/
structure Rules : Prop where
  zero : t.kind 0 = none
  root : t.kind rootInode = some .dir
  /-- Only directories have slots. -/
  dirs : ∀ d k, t.entry d k ≠ .zero → t.kind d = some .dir
  free : ∀ d k, (t.entry d k).inodeId = 0 → t.entry d k = .zero
  dot : ∀ d, t.kind d = some .dir → (t.entry d 0).named = dot ∧ t.Names d 0 d
  dotdot : ∀ d, t.kind d = some .dir → (t.entry d 1).named = dotdot ∧
    ∃ p, t.Names d 1 p ∧ (d = rootInode → p = rootInode) ∧ (d ≠ rootInode → t.Child p d)
  legal : ∀ d k, (t.entry d k).inodeId ≠ 0 → (t.entry d k).Legal
  typed : ∀ d k x, t.Names d k x → ∃ kd, t.kind x = some kd ∧ (t.entry d k).type = kd.ft
  unique : ∀ d k k', (t.entry d k).inodeId ≠ 0 → (t.entry d k').inodeId ≠ 0 →
    (t.entry d k).named = (t.entry d k').named → k = k'
  links : ∀ x, t.kind x ≠ none → (t.links x : ℕ∞) = Set.encard {p : Nat × Nat | t.Names p.1 p.2 x}
  one : ∀ d k d' k' x, 2 ≤ k → 2 ≤ k' → t.Names d k x → t.Names d' k' x → d = d' ∧ k = k'
  rootless : ∀ d, ¬ t.Child d rootInode
  reach : ∀ x, t.kind x ≠ none → Relation.ReflTransGen t.Child rootInode x

end Tree

/-! ## Entries -/

theorem isNamed_iff {e : DirEntry} {name : Name} (h : e.inodeId ≠ 0 → e.Legal) :
    isNamed name e = true ↔ e.inodeId ≠ 0 ∧ e.named = name := by
  unfold isNamed DirEntry.named
  simp only [Bool.and_eq_true, bne_iff_ne, ne_eq, beq_iff_eq]
  constructor
  · rintro ⟨⟨h0, hlen⟩, hname⟩
    exact ⟨h0, by rw [hlen, hname]⟩
  · rintro ⟨h0, hname⟩
    have hlen : e.nameLen.toNat = name.length := by
      have := (h h0).le
      rw [← hname, List.length_take, List.length_ofFn]
      omega
    exact ⟨⟨h0, hlen⟩, by rw [← hlen, hname]⟩

section MakeEntry

variable {name : Name} {id : Nat} {type : UInt8}

theorem makeEntry_nameLen (h : name.length ≤ 58) :
    (makeEntry name id type).nameLen.toNat = name.length :=
  UInt8.toNat_ofNat_of_lt' (Nat.lt_of_le_of_lt h (by decide))

theorem makeEntry_named (h : name.length ≤ 58) : (makeEntry name id type).named = name := by
  unfold DirEntry.named
  rw [makeEntry_nameLen h]
  refine List.ext_getElem ?_ fun i h1 h2 => ?_
  · rw [List.length_take, List.length_ofFn]
    omega
  · rw [List.getElem_take, List.getElem_ofFn]
    exact List.getD_eq_getElem _ _ h2

theorem makeEntry_id (h : id < 2 ^ 32) : (makeEntry name id type).inodeId.toNat = id :=
  UInt32.toNat_ofNat_of_lt' h

theorem makeEntry_legal (h1 : 1 ≤ name.length) (h2 : name.length ≤ 58)
    (hc : ∀ c ∈ name, c ≠ 47 ∧ c ≠ 0) : (makeEntry name id type).Legal where
  pos := by rw [makeEntry_nameLen h2]; exact h1
  le := by rw [makeEntry_nameLen h2]; exact h2
  chars := by rw [makeEntry_named h2]; exact hc

theorem dot_chars : ∀ c ∈ dot, c ≠ 47 ∧ c ≠ 0 := by simp [dot]

theorem dotdot_chars : ∀ c ∈ dotdot, c ≠ 47 ∧ c ≠ 0 := by simp [dotdot]

end MakeEntry

namespace Tree

variable {t : Tree}

theorem Names.id_ne {d k x : Nat} (h : t.Names d k x) : (t.entry d k).inodeId ≠ 0 := by
  intro h0
  exact h.2 (by rw [← h.1, h0]; rfl)

theorem not_names_zero {d k x : Nat} (h : t.entry d k = .zero) : ¬ t.Names d k x := by
  rintro ⟨h1, h2⟩
  rw [h] at h1
  exact h2 h1.symm

namespace Rules

variable (h : t.Rules)
include h

/-- A directory that holds an entry is one. -/
theorem kind_of_names {d k x : Nat} (hn : t.Names d k x) : t.kind d = some .dir :=
  h.dirs d k fun h0 => not_names_zero h0 hn

/-- What is named is in use. -/
theorem used_of_names {d k x : Nat} (hn : t.Names d k x) : t.kind x ≠ none := by
  obtain ⟨kd, hkd, -⟩ := h.typed d k x hn
  rw [hkd]
  exact nofun

/-- Nothing names an inode that is not in use. -/
theorem not_names_unused {x : Nat} (hx : t.kind x = none) (d k : Nat) : ¬ t.Names d k x :=
  fun hn => h.used_of_names hn hx

theorem entry_unused {x : Nat} (hx : t.kind x ≠ some .dir) (k : Nat) : t.entry x k = .zero := by
  by_contra h0
  exact hx (h.dirs x k h0)

/-- A slot that is free, or not there, is not one of the first two. -/
theorem two_le_of_free {d k : Nat} (hd : t.kind d = some .dir) (h0 : t.entry d k = .zero) :
    2 ≤ k := by
  by_contra hk
  have hk' : k = 0 ∨ k = 1 := by omega
  rcases hk' with rfl | rfl
  · exact not_names_zero h0 (h.dot d hd).2
  · obtain ⟨-, p, hp, -⟩ := h.dotdot d hd
    exact not_names_zero h0 hp

/-- A name other than "." and ".." is not in the first two slots. -/
theorem two_le_of_named {d k x : Nat} {name : Name} (hn : t.Names d k x)
    (hname : (t.entry d k).named = name) (h1 : name ≠ ConcurrentFs.dot)
    (h2 : name ≠ ConcurrentFs.dotdot) :
    2 ≤ k := by
  have hd := h.kind_of_names hn
  by_contra hk
  have hk' : k = 0 ∨ k = 1 := by omega
  rcases hk' with rfl | rfl
  · exact h1 (hname ▸ (h.dot d hd).1)
  · exact h2 (hname ▸ (h.dotdot d hd).1)

/-- The root is not below anything, and nothing is below itself. -/
theorem ne_root_of_child {d x : Nat} (hc : t.Child d x) : x ≠ rootInode := by
  rintro rfl
  exact h.rootless d hc

theorem parent_unique {d d' x : Nat} (hc : t.Child d x) (hc' : t.Child d' x) : d = d' := by
  obtain ⟨k, hk, hn⟩ := hc
  obtain ⟨k', hk', hn'⟩ := hc'
  exact (h.one d k d' k' x hk hk' hn hn').1

theorem ne_of_child {d x : Nat} (hc : t.Child d x) : d ≠ x := by
  rintro rfl
  obtain ⟨k, hk, hn⟩ := hc
  have hr := h.reach d (h.used_of_names hn)
  -- the only way into `d` is from `d`
  have : ∀ y, Relation.ReflTransGen t.Child rootInode y → y ≠ d := by
    intro y hy
    induction hy with
    | refl => exact fun heq => h.ne_root_of_child ⟨k, hk, hn⟩ heq.symm
    | tail _ hstep ih =>
      rintro rfl
      exact ih (h.parent_unique hstep ⟨k, hk, hn⟩)
  exact this d hr rfl

/-- ".." of a directory other than the root holds the directory it is in. -/
theorem dotdot_of_child {d x : Nat} (hc : t.Child d x) (hx : t.kind x = some .dir) :
    t.Names x 1 d := by
  obtain ⟨-, p, hp, -, hchild⟩ := h.dotdot x hx
  have hpd : p = d := h.parent_unique (hchild (h.ne_root_of_child hc)) hc
  rwa [hpd] at hp

end Rules

/-! ## Adding -/

/-- What is in slot `k'` of directory `d'` once `x` is entered in slot `k` of `d` as `e`. -/
def addEntry (t : Tree) (d k x : Nat) (e : DirEntry) (kd : Kind) (d' k' : Nat) : DirEntry :=
  if d' = d ∧ k' = k then e
  else if kd = .dir ∧ d' = x ∧ k' = 0 then makeEntry ConcurrentFs.dot x ftDir
  else if kd = .dir ∧ d' = x ∧ k' = 1 then makeEntry ConcurrentFs.dotdot d ftDir
  else t.entry d' k'

/-- The tree with a new file or a new, empty directory `x`, entered as `e` in slot `k` of `d`. -/
def add (t : Tree) (d k x : Nat) (e : DirEntry) (kd : Kind) : Tree where
  kind := Function.update t.kind x (some kd)
  entry := t.addEntry d k x e kd
  links := Function.update (Function.update t.links d (t.links d + kd.dots)) x (1 + kd.dots)

/-- What has to hold for `x` to be added. -/
structure CanAdd (t : Tree) (d k x : Nat) (e : DirEntry) (kd : Kind) : Prop where
  dir : t.kind d = some .dir
  free : t.entry d k = .zero
  unused : t.kind x = none
  pos : 1 ≤ x
  dlt : d < 2 ^ 32
  xlt : x < 2 ^ 32
  id : e.inodeId.toNat = x
  legal : e.Legal
  type : e.type = kd.ft
  fresh : ∀ k', (t.entry d k').inodeId ≠ 0 → (t.entry d k').named ≠ e.named

section Add

variable {d k x : Nat} {e : DirEntry} {kd : Kind}

theorem addEntry_self : t.addEntry d k x e kd d k = e := if_pos ⟨rfl, rfl⟩

theorem CanAdd.ne (c : t.CanAdd d k x e kd) : d ≠ x := by
  rintro rfl
  exact absurd (c.dir.symm.trans c.unused) nofun

variable (h : t.Rules) (c : t.CanAdd d k x e kd)
include h c

omit h in
theorem addEntry_dot (hkd : kd = .dir) :
    t.addEntry d k x e kd x 0 = makeEntry ConcurrentFs.dot x ftDir := by
  unfold addEntry
  rw [if_neg fun hc => c.ne hc.1.symm, if_pos ⟨hkd, rfl, rfl⟩]

omit h in
theorem addEntry_dotdot (hkd : kd = .dir) :
    t.addEntry d k x e kd x 1 = makeEntry ConcurrentFs.dotdot d ftDir := by
  unfold addEntry
  rw [if_neg fun hc => c.ne hc.1.symm, if_neg fun hc => absurd hc.2.2 (by decide),
    if_pos ⟨hkd, rfl, rfl⟩]

omit h c in
theorem addEntry_other {d' k' : Nat} (h1 : ¬ (d' = d ∧ k' = k)) (h2 : d' ≠ x) :
    t.addEntry d k x e kd d' k' = t.entry d' k' := by
  unfold addEntry
  rw [if_neg h1, if_neg fun hc => h2 hc.2.1, if_neg fun hc => h2 hc.2.1]

/-- The slots of the new tree, one kind after the other. -/
theorem addEntry_cases (d' k' : Nat) :
    (d' = d ∧ k' = k ∧ t.addEntry d k x e kd d' k' = e) ∨
    (kd = .dir ∧ d' = x ∧ k' = 0 ∧
      t.addEntry d k x e kd d' k' = makeEntry ConcurrentFs.dot x ftDir) ∨
    (kd = .dir ∧ d' = x ∧ k' = 1 ∧
      t.addEntry d k x e kd d' k' = makeEntry ConcurrentFs.dotdot d ftDir) ∨
    (d' = x ∧ t.addEntry d k x e kd d' k' = .zero ∧ (kd = .dir → 2 ≤ k')) ∨
    (¬ (d' = d ∧ k' = k) ∧ d' ≠ x ∧ t.addEntry d k x e kd d' k' = t.entry d' k') := by
  by_cases h1 : d' = d ∧ k' = k
  · obtain ⟨rfl, rfl⟩ := h1
    exact .inl ⟨rfl, rfl, addEntry_self⟩
  by_cases h2 : d' = x
  · subst h2
    by_cases hkd : kd = .dir
    · by_cases h3 : k' = 0
      · subst h3
        exact .inr (.inl ⟨hkd, rfl, rfl, addEntry_dot c hkd⟩)
      by_cases h4 : k' = 1
      · subst h4
        exact .inr (.inr (.inl ⟨hkd, rfl, rfl, addEntry_dotdot c hkd⟩))
      · refine .inr (.inr (.inr (.inl ⟨rfl, ?_, fun _ => by omega⟩)))
        unfold addEntry
        rw [if_neg h1, if_neg fun hc => h3 hc.2.2, if_neg fun hc => h4 hc.2.2,
          h.entry_unused (by rw [c.unused]; exact nofun)]
    · refine .inr (.inr (.inr (.inl ⟨rfl, ?_, fun hc => absurd hc hkd⟩)))
      unfold addEntry
      rw [if_neg h1, if_neg fun hc => hkd hc.1, if_neg fun hc => hkd hc.1,
        h.entry_unused (by rw [c.unused]; exact nofun)]
  · exact .inr (.inr (.inr (.inr ⟨h1, h2, addEntry_other h1 h2⟩)))

/-- What the slots of the new tree name. -/
theorem add_names (d' k' y : Nat) : (t.add d k x e kd).Names d' k' y ↔
    (d' = d ∧ k' = k ∧ y = x) ∨ (kd = .dir ∧ d' = x ∧ k' = 0 ∧ y = x) ∨
    (kd = .dir ∧ d' = x ∧ k' = 1 ∧ y = d) ∨ t.Names d' k' y := by
  have hx0 := c.pos
  have hd0 : d ≠ 0 := by
    rintro rfl
    exact absurd (h.zero.symm.trans c.dir) nofun
  have hnd : ¬ t.Names d k y := not_names_zero c.free
  have hnx : ∀ k', ¬ t.Names x k' y := fun k' =>
    not_names_zero (h.entry_unused (by rw [c.unused]; exact nofun) k')
  have hne := c.ne
  unfold Names
  show (t.addEntry d k x e kd d' k').inodeId.toNat = y ∧ y ≠ 0 ↔ _
  rcases addEntry_cases h c d' k' with ⟨rfl, rfl, he⟩ | ⟨hkd, rfl, rfl, he⟩ | ⟨hkd, rfl, rfl, he⟩ |
    ⟨rfl, he, hk⟩ | ⟨h1, h2, he⟩
  · rw [he, c.id]
    constructor
    · rintro ⟨rfl, -⟩
      exact .inl ⟨rfl, rfl, rfl⟩
    · rintro (⟨-, -, rfl⟩ | ⟨-, hdx, -⟩ | ⟨-, hdx, -⟩ | hn)
      · exact ⟨rfl, by omega⟩
      · exact absurd hdx hne
      · exact absurd hdx hne
      · exact absurd hn hnd
  · rw [he, makeEntry_id c.xlt]
    constructor
    · rintro ⟨rfl, -⟩
      exact .inr (.inl ⟨hkd, rfl, rfl, rfl⟩)
    · rintro (⟨hdx, -⟩ | ⟨-, -, -, rfl⟩ | ⟨-, -, hk, -⟩ | hn)
      · exact absurd hdx.symm hne
      · exact ⟨rfl, by omega⟩
      · exact absurd hk (by decide)
      · exact absurd hn (hnx 0)
  · rw [he, makeEntry_id c.dlt]
    constructor
    · rintro ⟨rfl, -⟩
      exact .inr (.inr (.inl ⟨hkd, rfl, rfl, rfl⟩))
    · rintro (⟨hdx, -⟩ | ⟨-, -, hk, -⟩ | ⟨-, -, -, rfl⟩ | hn)
      · exact absurd hdx.symm hne
      · exact absurd hk (by decide)
      · exact ⟨rfl, hd0⟩
      · exact absurd hn (hnx 1)
  · rw [he]
    constructor
    · rintro ⟨rfl, h0⟩
      exact absurd rfl h0
    · rintro (⟨hdx, -⟩ | ⟨hkd, -, hk0, -⟩ | ⟨hkd, -, hk1, -⟩ | hn)
      · exact absurd hdx.symm hne
      · exact absurd (hk hkd) (by omega)
      · exact absurd (hk hkd) (by omega)
      · exact absurd hn (hnx k')
  · rw [he]
    constructor
    · exact fun hn => .inr (.inr (.inr hn))
    · rintro (⟨hd, hk, -⟩ | ⟨-, hx, -⟩ | ⟨-, hx, -⟩ | hn)
      · exact absurd ⟨hd, hk⟩ h1
      · exact absurd hx h2
      · exact absurd hx h2
      · exact hn

theorem add_child {d' y : Nat} :
    (t.add d k x e kd).Child d' y ↔ (d' = d ∧ y = x) ∨ t.Child d' y := by
  have hk := h.two_le_of_free c.dir c.free
  unfold Child
  simp only [add_names h c]
  constructor
  · rintro ⟨k', hk', ⟨rfl, -, rfl⟩ | ⟨-, -, rfl, -⟩ | ⟨-, -, rfl, -⟩ | hn⟩
    · exact .inl ⟨rfl, rfl⟩
    · omega
    · omega
    · exact .inr ⟨k', hk', hn⟩
  · rintro (⟨rfl, rfl⟩ | ⟨k', hk', hn⟩)
    · exact ⟨k, hk, .inl ⟨rfl, rfl, rfl⟩⟩
    · exact ⟨k', hk', .inr (.inr (.inr hn))⟩

/-- The entries of the new tree are legal. -/
theorem add_legal (d' k' : Nat) (h0 : (t.addEntry d k x e kd d' k').inodeId ≠ 0) :
    (t.addEntry d k x e kd d' k').Legal := by
  rcases addEntry_cases h c d' k' with ⟨-, -, he⟩ | ⟨-, -, -, he⟩ | ⟨-, -, -, he⟩ |
    ⟨-, he, -⟩ | ⟨-, -, he⟩ <;> rw [he] at h0 ⊢
  · exact c.legal
  · exact makeEntry_legal (by decide) (by decide) dot_chars
  · exact makeEntry_legal (by decide) (by decide) dotdot_chars
  · exact absurd rfl h0
  · exact h.legal d' k' h0

theorem add_unique (d' k1 k2 : Nat) (h1 : (t.addEntry d k x e kd d' k1).inodeId ≠ 0)
    (h2 : (t.addEntry d k x e kd d' k2).inodeId ≠ 0)
    (heq : (t.addEntry d k x e kd d' k1).named = (t.addEntry d k x e kd d' k2).named) :
    k1 = k2 := by
  by_cases hx : d' = x
  · -- in the new directory: "." and ".."
    subst hx
    have hne := c.ne
    have hdots : (makeEntry ConcurrentFs.dot d' ftDir).named
        ≠ (makeEntry ConcurrentFs.dotdot d ftDir).named := by
      rw [makeEntry_named (by decide), makeEntry_named (by decide)]
      decide
    have hslot : ∀ k', (t.addEntry d k d' e kd d' k').inodeId ≠ 0 →
        (k' = 0 ∧ t.addEntry d k d' e kd d' k' = makeEntry ConcurrentFs.dot d' ftDir) ∨
        (k' = 1 ∧ t.addEntry d k d' e kd d' k' = makeEntry ConcurrentFs.dotdot d ftDir) := by
      intro k' h0
      rcases addEntry_cases h c d' k' with ⟨hd, -⟩ | ⟨-, -, hk, he⟩ | ⟨-, -, hk, he⟩ |
        ⟨-, he, -⟩ | ⟨-, h6, -⟩
      · exact absurd hd.symm hne
      · exact .inl ⟨hk, he⟩
      · exact .inr ⟨hk, he⟩
      · rw [he] at h0
        exact absurd rfl h0
      · exact absurd rfl h6
    rcases hslot k1 h1 with ⟨hk1, he1⟩ | ⟨hk1, he1⟩ <;>
    rcases hslot k2 h2 with ⟨hk2, he2⟩ | ⟨hk2, he2⟩ <;> rw [he1, he2] at heq
    · rw [hk1, hk2]
    · exact absurd heq hdots
    · exact absurd heq.symm hdots
    · rw [hk1, hk2]
  · by_cases hk1 : d' = d ∧ k1 = k
    · by_cases hk2 : d' = d ∧ k2 = k
      · exact hk1.2.trans hk2.2.symm
      · rw [addEntry_other hk2 hx] at h2 heq
        rw [hk1.1, hk1.2, addEntry_self] at heq
        rw [hk1.1] at h2
        exact absurd heq.symm (c.fresh k2 h2)
    · rw [addEntry_other hk1 hx] at h1 heq
      by_cases hk2 : d' = d ∧ k2 = k
      · rw [hk2.1, hk2.2, addEntry_self] at heq
        rw [hk2.1] at h1
        exact absurd heq (c.fresh k1 h1)
      · rw [addEntry_other hk2 hx] at h2 heq
        exact h.unique d' k1 k2 h1 h2 heq

theorem add_typed (d' k' y : Nat) (hn : (t.add d k x e kd).Names d' k' y) :
    ∃ kd', (t.add d k x e kd).kind y = some kd' ∧
      ((t.add d k x e kd).entry d' k').type = kd'.ft := by
  have hne := c.ne
  have hself : (t.add d k x e kd).kind x = some kd := Function.update_self _ _ _
  rcases (add_names h c d' k' y).mp hn with ⟨rfl, rfl, rfl⟩ | ⟨hkd, rfl, rfl, rfl⟩ |
    ⟨hkd, rfl, rfl, rfl⟩ | hn'
  · refine ⟨kd, hself, ?_⟩
    show (t.addEntry d' k' y e kd d' k').type = _
    rw [addEntry_self, c.type]
  · refine ⟨kd, hself, ?_⟩
    show (t.addEntry d k y e kd y 0).type = _
    rw [addEntry_dot c hkd, hkd]
    rfl
  · refine ⟨.dir, ?_, ?_⟩
    · show Function.update t.kind d' (some kd) y = _
      rw [Function.update_of_ne hne, c.dir]
    · show (t.addEntry y k d' e kd d' 1).type = _
      rw [addEntry_dotdot c hkd]
      rfl
  · have hy : y ≠ x := by
      rintro rfl
      exact h.not_names_unused c.unused d' k' hn'
    have hd' : d' ≠ x := by
      rintro rfl
      exact absurd (c.unused.symm.trans (h.kind_of_names hn')) nofun
    have hdk : ¬ (d' = d ∧ k' = k) := by
      rintro ⟨rfl, rfl⟩
      exact not_names_zero c.free hn'
    obtain ⟨kd', hkd', hty⟩ := h.typed d' k' y hn'
    refine ⟨kd', ?_, ?_⟩
    · show Function.update t.kind x (some kd) y = _
      rw [Function.update_of_ne hy, hkd']
    · show (t.addEntry d k x e kd d' k').type = _
      rw [addEntry_other hdk hd', hty]

theorem add_links_self (y : Nat) (hy : y = x) : ((t.add d k x e kd).links y : ℕ∞)
    = Set.encard {p : Nat × Nat | (t.add d k x e kd).Names p.1 p.2 y} := by
  subst hy
  have hne := c.ne
  have hold : ∀ d' k', ¬ t.Names d' k' y := h.not_names_unused c.unused
  have hlinks : (t.add d k y e kd).links y = 1 + kd.dots := Function.update_self _ _ _
  cases kd with
  | file =>
    have hset : {p : Nat × Nat | (t.add d k y e .file).Names p.1 p.2 y} = {(d, k)} := by
      ext ⟨d', k'⟩
      simp only [Set.mem_ofPred_eq, add_names h c, Set.mem_singleton_iff, Prod.mk.injEq]
      simp [hold]
    rw [hset, Set.encard_singleton, hlinks]
    rfl
  | dir =>
    have hset : {p : Nat × Nat | (t.add d k y e .dir).Names p.1 p.2 y} = {(d, k), (y, 0)} := by
      ext ⟨d', k'⟩
      simp only [Set.mem_ofPred_eq, add_names h c, Set.mem_insert_iff, Set.mem_singleton_iff,
        Prod.mk.injEq]
      simp [hold, hne.symm]
    rw [hset, Set.encard_pair (by simp [hne])]
    rw [hlinks]
    rfl

theorem add_links (y : Nat) (hy : (t.add d k x e kd).kind y ≠ none) :
    ((t.add d k x e kd).links y : ℕ∞)
      = Set.encard {p : Nat × Nat | (t.add d k x e kd).Names p.1 p.2 y} := by
  by_cases hyx : y = x
  · exact add_links_self h c y hyx
  have hne := c.ne
  have hy' : t.kind y ≠ none := by
    have : Function.update t.kind x (some kd) y ≠ none := hy
    rwa [Function.update_of_ne hyx] at this
  have hlinks : (t.add d k x e kd).links y = Function.update t.links d (t.links d + kd.dots) y :=
    Function.update_of_ne hyx _ _
  by_cases hyd : y = d ∧ kd = .dir
  · -- one more "..", in the new directory
    obtain ⟨rfl, rfl⟩ := hyd
    have hset : {p : Nat × Nat | (t.add y k x e .dir).Names p.1 p.2 y}
        = insert (x, 1) {p : Nat × Nat | t.Names p.1 p.2 y} := by
      ext ⟨d', k'⟩
      simp only [Set.mem_ofPred_eq, add_names h c, Set.mem_insert_iff, Prod.mk.injEq]
      simp [hyx]
    have hmem : (x, 1) ∉ {p : Nat × Nat | t.Names p.1 p.2 y} := by
      intro hn
      exact absurd (c.unused.symm.trans (h.kind_of_names hn)) nofun
    rw [hset, Set.encard_insert_of_notMem hmem, ← h.links y hy']
    rw [hlinks, Function.update_self]
    rfl
  · have hset : {p : Nat × Nat | (t.add d k x e kd).Names p.1 p.2 y}
        = {p : Nat × Nat | t.Names p.1 p.2 y} := by
      ext ⟨d', k'⟩
      simp only [Set.mem_ofPred_eq, add_names h c]
      constructor
      · rintro (⟨-, -, rfl⟩ | ⟨-, -, -, rfl⟩ | ⟨hkd, -, -, hd⟩ | hn)
        · exact absurd rfl hyx
        · exact absurd rfl hyx
        · exact absurd ⟨hd, hkd⟩ hyd
        · exact hn
      · exact fun hn => .inr (.inr (.inr hn))
    rw [hset, ← h.links y hy', hlinks]
    by_cases hd : y = d
    · subst hd
      cases kd with
      | file => rw [Function.update_self]; rfl
      | dir => exact absurd ⟨rfl, rfl⟩ hyd
    · rw [Function.update_of_ne hd]

omit h c in
theorem add_kind_dir {d' : Nat} (hd' : (t.add d k x e kd).kind d' = some .dir) :
    (d' = x ∧ kd = .dir) ∨ (d' ≠ x ∧ t.kind d' = some .dir) := by
  have hk : Function.update t.kind x (some kd) d' = some .dir := hd'
  by_cases hdx : d' = x
  · subst hdx
    rw [Function.update_self] at hk
    exact .inl ⟨rfl, Option.some.inj hk⟩
  · rw [Function.update_of_ne hdx] at hk
    exact .inr ⟨hdx, hk⟩

/-- Adding a file or an empty directory keeps the rules. -/
theorem add_rules : (t.add d k x e kd).Rules := by
  have hne := c.ne
  have hk := h.two_le_of_free c.dir c.free
  have hxr : x ≠ rootInode := by
    rintro rfl
    exact absurd (c.unused.symm.trans h.root) nofun
  refine ⟨?_, ?_, fun d' k' h0 => ?_, fun d' k' h0 => ?_, fun d' hd' => ?_, fun d' hd' => ?_,
    add_legal h c, add_typed h c, add_unique h c, add_links h c, ?_, ?_, fun y hy => ?_⟩
  · show Function.update t.kind x (some kd) 0 = none
    rw [Function.update_of_ne (by have := c.pos; omega), h.zero]
  · show Function.update t.kind x (some kd) rootInode = some .dir
    rw [Function.update_of_ne hxr.symm, h.root]
  · -- only directories have slots
    show Function.update t.kind x (some kd) d' = some .dir
    have h0' : t.addEntry d k x e kd d' k' ≠ .zero := h0
    rcases addEntry_cases h c d' k' with ⟨rfl, -, -⟩ | ⟨hkd, rfl, -⟩ | ⟨hkd, rfl, -⟩ |
      ⟨-, he, -⟩ | ⟨-, h2, he⟩
    · rw [Function.update_of_ne hne, c.dir]
    · rw [Function.update_self, hkd]
    · rw [Function.update_self, hkd]
    · exact absurd he h0'
    · rw [Function.update_of_ne h2]
      rw [he] at h0'
      exact h.dirs d' k' h0'
  · have h0' : (t.addEntry d k x e kd d' k').inodeId = 0 := h0
    show t.addEntry d k x e kd d' k' = .zero
    rcases addEntry_cases h c d' k' with ⟨-, -, he⟩ | ⟨-, -, -, he⟩ | ⟨-, -, -, he⟩ |
      ⟨-, he, -⟩ | ⟨-, -, he⟩
    · have hid := c.id
      rw [he] at h0'
      rw [h0'] at hid
      have := c.pos
      exact absurd hid (by show 0 ≠ x; omega)
    · have hid : (makeEntry ConcurrentFs.dot x ftDir).inodeId.toNat = x := makeEntry_id c.xlt
      rw [he] at h0'
      rw [h0'] at hid
      have := c.pos
      exact absurd hid (by show 0 ≠ x; omega)
    · have hid : (makeEntry ConcurrentFs.dotdot d ftDir).inodeId.toNat = d := makeEntry_id c.dlt
      rw [he] at h0'
      rw [h0'] at hid
      have hd0 : d ≠ 0 := by
        rintro rfl
        exact absurd (h.zero.symm.trans c.dir) nofun
      exact absurd hid.symm hd0
    · exact he
    · rw [he] at h0' ⊢
      exact h.free d' k' h0'
  · -- "."
    show (t.addEntry d k x e kd d' 0).named = _ ∧ _
    rcases add_kind_dir hd' with ⟨rfl, hkd⟩ | ⟨hdx, hdd⟩
    · rw [addEntry_dot c hkd, makeEntry_named (by decide)]
      exact ⟨rfl, (add_names h c d' 0 d').mpr (.inr (.inl ⟨hkd, rfl, rfl, rfl⟩))⟩
    · rw [addEntry_other (fun hc => by omega) hdx]
      exact ⟨(h.dot d' hdd).1, (add_names h c d' 0 d').mpr (.inr (.inr (.inr (h.dot d' hdd).2)))⟩
  · -- ".."
    show (t.addEntry d k x e kd d' 1).named = _ ∧ _
    rcases add_kind_dir hd' with ⟨rfl, hkd⟩ | ⟨hdx, hdd⟩
    · rw [addEntry_dotdot c hkd, makeEntry_named (by decide)]
      exact ⟨rfl, d, (add_names h c d' 1 d).mpr (.inr (.inr (.inl ⟨hkd, rfl, rfl, rfl⟩))),
        fun hr => absurd hr hxr, fun _ => (add_child h c).mpr (.inl ⟨rfl, rfl⟩)⟩
    · rw [addEntry_other (fun hc => by omega) hdx]
      obtain ⟨hname, p, hp, hr, hch⟩ := h.dotdot d' hdd
      exact ⟨hname, p, (add_names h c d' 1 p).mpr (.inr (.inr (.inr hp))), hr,
        fun hd'r => (add_child h c).mpr (.inr (hch hd'r))⟩
  · -- one name
    intro d1 k1 d2 k2 y hk1 hk2 hn1 hn2
    rw [add_names h c] at hn1 hn2
    rcases hn1 with ⟨rfl, rfl, rfl⟩ | ⟨-, -, rfl, -⟩ | ⟨-, -, rfl, -⟩ | hn1
    · rcases hn2 with ⟨rfl, rfl, -⟩ | ⟨-, -, rfl, -⟩ | ⟨-, -, rfl, -⟩ | hn2
      · exact ⟨rfl, rfl⟩
      · omega
      · omega
      · exact absurd hn2 (h.not_names_unused c.unused d2 k2)
    · omega
    · omega
    · rcases hn2 with ⟨rfl, rfl, rfl⟩ | ⟨-, -, rfl, -⟩ | ⟨-, -, rfl, -⟩ | hn2
      · exact absurd hn1 (h.not_names_unused c.unused d1 k1)
      · omega
      · omega
      · exact h.one d1 k1 d2 k2 y hk1 hk2 hn1 hn2
  · intro d' hc
    rcases (add_child h c).mp hc with ⟨-, hr⟩ | hc
    · exact hxr hr.symm
    · exact h.rootless d' hc
  · -- everything in use is reached as before, the new inode through `d`
    have hmono : ∀ z, Relation.ReflTransGen t.Child rootInode z →
        Relation.ReflTransGen (t.add d k x e kd).Child rootInode z := fun z hz =>
      Relation.ReflTransGen.mono (fun _ _ hc => (add_child h c).mpr (.inr hc)) _ _ hz
    by_cases hyx : y = x
    · subst hyx
      exact (hmono d (h.reach d (by rw [c.dir]; exact nofun))).tail
        ((add_child h c).mpr (.inl ⟨rfl, rfl⟩))
    · refine hmono y (h.reach y ?_)
      have : Function.update t.kind x (some kd) y ≠ none := hy
      rwa [Function.update_of_ne hyx] at this

end Add

/-! ## Removing -/

/-- The tree without `x`, which slot `k` of `d` holds. -/
def remove (t : Tree) (d k x : Nat) : Tree where
  kind := Function.update t.kind x none
  entry d' k' := if d' = d ∧ k' = k ∨ d' = x then .zero else t.entry d' k'
  links := Function.update
    (if t.kind x = some .dir then Function.update t.links d (t.links d - 1) else t.links) x 0

/-- What has to hold for `x` to be removed: a directory has nothing in it but "." and "..". -/
structure CanRemove (t : Tree) (d k x : Nat) : Prop where
  two : 2 ≤ k
  names : t.Names d k x
  empty : ∀ k', 2 ≤ k' → t.entry x k' = .zero

section Remove

variable {d k x : Nat}

theorem remove_entry_other {d' k' : Nat} (h1 : ¬ (d' = d ∧ k' = k)) (h2 : d' ≠ x) :
    (t.remove d k x).entry d' k' = t.entry d' k' :=
  if_neg fun hc => hc.elim h1 h2

theorem remove_entry_zero {d' k' : Nat} (h : d' = d ∧ k' = k ∨ d' = x) :
    (t.remove d k x).entry d' k' = .zero := if_pos h

/-- A slot of the new tree is empty, or as it was. -/
theorem remove_entry_cases (d' k' : Nat) (h0 : (t.remove d k x).entry d' k' ≠ .zero) :
    ¬ (d' = d ∧ k' = k) ∧ d' ≠ x ∧ (t.remove d k x).entry d' k' = t.entry d' k' := by
  by_cases hc : d' = d ∧ k' = k ∨ d' = x
  · exact absurd (remove_entry_zero hc) h0
  · exact ⟨fun h1 => hc (.inl h1), fun h2 => hc (.inr h2), if_neg hc⟩

theorem remove_names (d' k' y : Nat) : (t.remove d k x).Names d' k' y ↔
    t.Names d' k' y ∧ ¬ (d' = d ∧ k' = k) ∧ d' ≠ x := by
  constructor
  · intro hn
    obtain ⟨h1, h2, he⟩ := remove_entry_cases d' k' fun h0 => not_names_zero h0 hn
    unfold Names at hn
    rw [he] at hn
    exact ⟨hn, h1, h2⟩
  · rintro ⟨hn, h1, h2⟩
    unfold Names
    rw [remove_entry_other h1 h2]
    exact hn

theorem remove_kind {y : Nat} {kd : Kind} (hy : (t.remove d k x).kind y = some kd) :
    y ≠ x ∧ t.kind y = some kd := by
  have hu : Function.update t.kind x none y = some kd := hy
  by_cases hyx : y = x
  · rw [hyx, Function.update_self] at hu
    exact absurd hu nofun
  · rw [Function.update_of_ne hyx] at hu
    exact ⟨hyx, hu⟩

variable (h : t.Rules) (c : t.CanRemove d k x)
include h c

omit h in
theorem CanRemove.child : t.Child d x := ⟨k, c.two, c.names⟩

omit h in
/-- Only its own "." and ".." and the slot it is removed from have anything to do with `x`. -/
theorem remove_child {d' y : Nat} (hy : y ≠ x) : (t.remove d k x).Child d' y ↔ t.Child d' y := by
  unfold Child
  simp only [remove_names]
  constructor
  · rintro ⟨k', hk', hn, -⟩
    exact ⟨k', hk', hn⟩
  · rintro ⟨k', hk', hn⟩
    refine ⟨k', hk', hn, ?_, ?_⟩
    · rintro ⟨rfl, rfl⟩
      exact hy (hn.1.symm.trans c.names.1)
    · rintro rfl
      exact not_names_zero (c.empty k' hk') hn

theorem remove_links (y : Nat) (hy : y ≠ x) (hu : t.kind y ≠ none) :
    ((t.remove d k x).links y : ℕ∞)
      = Set.encard {p : Nat × Nat | (t.remove d k x).Names p.1 p.2 y} := by
  have hne := h.ne_of_child (c.child)
  have hlinks : (t.remove d k x).links y
      = (if t.kind x = some .dir then Function.update t.links d (t.links d - 1) else t.links) y :=
    Function.update_of_ne hy _ _
  rw [hlinks]
  by_cases hx : t.kind x = some .dir
  · rw [if_pos hx]
    have hdd := h.dotdot_of_child (c.child) hx
    -- what is lost besides the entry of `x` are its "." and its ".."
    have hset : {p : Nat × Nat | (t.remove d k x).Names p.1 p.2 y}
        = {p : Nat × Nat | t.Names p.1 p.2 y} \ {(x, 1)} := by
      ext ⟨d', k'⟩
      simp only [Set.mem_ofPred_eq, remove_names, Set.mem_sdiff, Set.mem_singleton_iff,
        Prod.mk.injEq]
      constructor
      · rintro ⟨hn, -, h2⟩
        exact ⟨hn, fun hc => h2 hc.1⟩
      · rintro ⟨hn, h1⟩
        refine ⟨hn, ?_, ?_⟩
        · rintro ⟨rfl, rfl⟩
          exact hy (hn.1.symm.trans c.names.1)
        · rintro rfl
          have hk' : k' = 0 ∨ k' = 1 ∨ 2 ≤ k' := by omega
          rcases hk' with rfl | rfl | hk'
          · exact hy (hn.1.symm.trans (h.dot d' hx).2.1)
          · exact h1 ⟨rfl, rfl⟩
          · exact not_names_zero (c.empty k' hk') hn
    by_cases hyd : y = d
    · subst hyd
      have hmem : (x, 1) ∈ {p : Nat × Nat | t.Names p.1 p.2 y} := hdd
      have hcard := Set.encard_sdiff_singleton_add_one hmem
      rw [← hset, ← h.links y hu] at hcard
      rw [Function.update_self]
      -- the count was at least one, so the subtraction is exact
      have hfin : Set.encard {p : Nat × Nat | (t.remove y k x).Names p.1 p.2 y} ≠ ⊤ := by
        intro htop
        rw [htop] at hcard
        exact absurd hcard (by simp)
      obtain ⟨n, hn⟩ := ENat.ne_top_iff_exists.mp hfin
      rw [← hn] at hcard ⊢
      have : n + 1 = t.links y := by exact_mod_cast hcard
      rw [← this]
      rfl
    · rw [Function.update_of_ne hyd, hset, h.links y hu]
      congr 1
      ext p
      simp only [Set.mem_sdiff, Set.mem_singleton_iff, Set.mem_ofPred_eq]
      constructor
      · intro hn
        refine ⟨hn, ?_⟩
        rintro rfl
        exact hyd (hn.1.symm.trans hdd.1)
      · exact fun hn => hn.1
  · rw [if_neg hx, h.links y hu]
    congr 1
    ext ⟨d', k'⟩
    simp only [Set.mem_ofPred_eq, remove_names]
    constructor
    · intro hn
      refine ⟨hn, ?_, ?_⟩
      · rintro ⟨rfl, rfl⟩
        exact hy (hn.1.symm.trans c.names.1)
      · rintro rfl
        exact hx (h.kind_of_names hn)
    · exact fun hn => hn.1

/-- Removing a file or an empty directory keeps the rules. -/
theorem remove_rules : (t.remove d k x).Rules := by
  have hchild := c.child
  have hne := h.ne_of_child hchild
  have hxr := h.ne_root_of_child hchild
  have hused : ∀ y, (t.remove d k x).kind y ≠ none → y ≠ x ∧ t.kind y ≠ none := by
    intro y hy
    obtain ⟨kd, hkd⟩ := Option.ne_none_iff_exists'.mp hy
    obtain ⟨h1, h2⟩ := remove_kind hkd
    exact ⟨h1, by rw [h2]; exact nofun⟩
  have hkind : ∀ y, y ≠ x → (t.remove d k x).kind y = t.kind y := fun y hy =>
    Function.update_of_ne hy _ _
  refine ⟨?_, ?_, fun d' k' h0 => ?_, fun d' k' h0 => ?_, fun d' hd' => ?_, fun d' hd' => ?_,
    fun d' k' h0 => ?_, fun d' k' y hn => ?_, fun d' k1 k2 h1 h2 heq => ?_,
    fun y hy => remove_links h c y (hused y hy).1 (hused y hy).2, ?_, ?_, fun y hy => ?_⟩
  · by_cases h0 : 0 = x
    · show Function.update t.kind x none 0 = none
      rw [h0, Function.update_self]
    · rw [hkind 0 h0, h.zero]
  · rw [hkind _ hxr.symm, h.root]
  · obtain ⟨-, h2, he⟩ := remove_entry_cases d' k' h0
    rw [he] at h0
    rw [hkind d' h2]
    exact h.dirs d' k' h0
  · by_contra hz
    obtain ⟨-, -, he⟩ := remove_entry_cases d' k' hz
    rw [he] at h0 hz
    exact hz (h.free d' k' h0)
  · -- "."
    obtain ⟨hdx, hdd⟩ := remove_kind hd'
    have hk0 : ¬ (d' = d ∧ 0 = k) := fun hc => by have := c.two; omega
    rw [remove_entry_other hk0 hdx, remove_names]
    exact ⟨(h.dot d' hdd).1, (h.dot d' hdd).2, hk0, hdx⟩
  · -- ".."
    obtain ⟨hdx, hdd⟩ := remove_kind hd'
    have hk1 : ¬ (d' = d ∧ 1 = k) := fun hc => by have := c.two; omega
    obtain ⟨hname, p, hp, hr, hch⟩ := h.dotdot d' hdd
    rw [remove_entry_other hk1 hdx]
    exact ⟨hname, p, (remove_names d' 1 p).mpr ⟨hp, hk1, hdx⟩, hr,
      fun hd'r => (remove_child c hdx).mpr (hch hd'r)⟩
  · have hz : (t.remove d k x).entry d' k' ≠ .zero := fun hz => h0 (by rw [hz]; rfl)
    obtain ⟨-, -, he⟩ := remove_entry_cases d' k' hz
    rw [he] at h0 ⊢
    exact h.legal d' k' h0
  · obtain ⟨hn', h1, h2⟩ := (remove_names d' k' y).mp hn
    obtain ⟨kd, hkd, hty⟩ := h.typed d' k' y hn'
    -- `x` itself is not named any more
    have hyx : y ≠ x := by
      rintro rfl
      have hk' : 2 ≤ k' ∨ k' = 0 ∨ k' = 1 := by omega
      have hdd := h.kind_of_names hn'
      rcases hk' with hk' | rfl | rfl
      · have := h.one d' k' d k y hk' c.two hn' c.names
        exact h1 this
      · exact h2 ((h.dot d' hdd).2.1.symm.trans hn'.1)
      · obtain ⟨-, p, hp, hr, hch⟩ := h.dotdot d' hdd
        have hpy : p = y := hp.1.symm.trans hn'.1
        by_cases hd'r : d' = rootInode
        · exact hxr (hpy.symm.trans (hr hd'r))
        · obtain ⟨k'', hk'', hn''⟩ := hch hd'r
          rw [hpy] at hn''
          exact not_names_zero (c.empty k'' hk'') hn''
    refine ⟨kd, by rw [hkind y hyx, hkd], ?_⟩
    rw [remove_entry_other h1 h2, hty]
  · have hz1 : (t.remove d k x).entry d' k1 ≠ .zero := fun hz => h1 (by rw [hz]; rfl)
    have hz2 : (t.remove d k x).entry d' k2 ≠ .zero := fun hz => h2 (by rw [hz]; rfl)
    rw [(remove_entry_cases d' k1 hz1).2.2] at h1 heq
    rw [(remove_entry_cases d' k2 hz2).2.2] at h2 heq
    exact h.unique d' k1 k2 h1 h2 heq
  · intro d1 k1 d2 k2 y hk1 hk2 hn1 hn2
    exact h.one d1 k1 d2 k2 y hk1 hk2 ((remove_names d1 k1 y).mp hn1).1
      ((remove_names d2 k2 y).mp hn2).1
  · rintro d' ⟨k', hk', hn⟩
    exact h.rootless d' ⟨k', hk', ((remove_names d' k' _).mp hn).1⟩
  · -- no way from the root leads through `x`
    obtain ⟨hyx, hyu⟩ := hused y hy
    have hr := h.reach y hyu
    clear hy hyu
    induction hr with
    | refl => exact .refl
    | @tail a b hab hstep ih =>
      have hax : a ≠ x := by
        rintro rfl
        obtain ⟨k', hk', hn⟩ := hstep
        exact not_names_zero (c.empty k' hk') hn
      exact (ih hax).tail ((remove_child c hyx).mpr hstep)

end Remove

/-- The rules depend on the tree where it stands: link counts of inodes not in use do not matter. -/
theorem Rules.congr {t' : Tree} (h : t.Rules) (hk : t'.kind = t.kind) (he : t'.entry = t.entry)
    (hl : ∀ x, t.kind x ≠ none → t'.links x = t.links x) : t'.Rules := by
  have hn : t'.Names = t.Names := by
    unfold Names
    rw [he]
  have hc : t'.Child = t.Child := by
    unfold Child
    rw [hn]
  refine ⟨?_, ?_, ?_, ?_, ?_, ?_, ?_, ?_, ?_, ?_, ?_, ?_, ?_⟩
  · rw [hk]; exact h.zero
  · rw [hk]; exact h.root
  · rw [hk, he]; exact h.dirs
  · rw [he]; exact h.free
  · rw [hk, he, hn]; exact h.dot
  · rw [hk, he, hn, hc]; exact h.dotdot
  · rw [he]; exact h.legal
  · rw [hk, he, hn]; exact h.typed
  · rw [he]; exact h.unique
  · intro x hx
    rw [hk] at hx
    rw [hl x hx, hn]
    exact h.links x hx
  · rw [hn]; exact h.one
  · rw [hc]; exact h.rootless
  · rw [hk, hc]; exact h.reach

end Tree

end ConcurrentFs
