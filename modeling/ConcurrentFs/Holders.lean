/-
  ConcurrentFs.Holders

  Who holds what.  A grip is a reference to a lock entry, and with it maybe one of
  the entry's open descriptors and maybe its lock.  Threads have grips in their
  hands, and every open descriptor that nobody is using has one.  `Body` says that
  the counts in the lock entries are the numbers of grips, that the descriptor
  table is as the world says, and that what a thread knows about an inode whose
  lock it holds is true.
-/
import ConcurrentFs.FileData
import ConcurrentFs.Paths
import ConcurrentFs.Lib.History
import Mathlib.Algebra.BigOperators.Group.Finset.Basic
import Mathlib.Algebra.Order.Group.Multiset
import Mathlib.Data.ENat.Lattice

namespace ConcurrentFs

open Lib

/-! ## The world -/

/-- What a descriptor slot stands for. -/
inductive FdState where
  | free
  /-- Taken by an `open()` that is still running, or by a `close()` that is about to give it back;
      with the inode and the flags once the open is settled. -/
  | reserved (file : Option (Nat × UInt32))
  | live (x : Nat) (flags : UInt32) (offset : Nat)

/-- The inode of a descriptor. -/
def FdState.inode : FdState → Option Nat
  | free => none
  | reserved file => file.map Prod.fst
  | live x _ _ => some x

/-- The reservations there are for slot `fd`. -/
def FdState.reservation (sl : FdState) (fd : Nat) : Multiset (Nat × Option (Nat × UInt32)) :=
  match sl with
  | reserved file => {(fd, file)}
  | _ => 0

/-- What a mounted file system stands for. -/
structure World where
  image : Image
  slot : Nat → FdState

/-! ## Grips -/

/-- What a thread knows of an inode: its contents, its entries if it is a directory, its place. -/
structure Known where
  ino : Inode
  ents : Nat → DirEntry
  path : List Name

/-- What is known of inode `id` of image `I`, which is at `path`. -/
def Image.known (I : Image) (id : Nat) (path : List Name) : Known :=
  ⟨I.inode id, I.tree.entry id, path⟩

/-- A lock that is held. -/
structure Hold where
  exclusive : Bool
  known : Option Known
  /-- No descriptor is open, and none can be opened. -/
  unopened : Bool

structure Grip where
  ptr : EntryPtr
  opened : Bool
  hold : Option Hold

def Grip.shared (r : Grip) : Bool := r.hold.any fun H => !H.exclusive

def Grip.exclusive (r : Grip) : Bool := r.hold.any Hold.exclusive

/-- The mutex of a descriptor: its slot, where it points and how it is used if it is open, and
    whether its entry has been given up already. -/
structure Token where
  fd : Nat
  live : Option (EntryPtr × UInt32 × Nat)
  dead : Bool

/-- What a thread has. -/
structure Hands where
  grips : Multiset Grip
  token : Option Token
  resv : Option (Nat × Option (Nat × UInt32))

/-- Nothing. -/
def Hands.empty : Hands := ⟨0, none, none⟩

/-- The grips on inode `id`. -/
def on (id : Nat) (F : Multiset Grip) : Multiset Grip := F.filter fun r => r.ptr.id = id

/-- The grip of a descriptor that nobody is using. -/
def OpenFile.idleGrips (f : OpenFile) : Multiset Grip :=
  if f.op then 0 else f.lock.elim 0 fun p => {⟨p, true, none⟩}

/-- `MAX_OPEN`. -/
@[irreducible] def maxOpen : Nat := 1024

theorem maxOpen_eq : maxOpen = 1024 := by
  unfold maxOpen
  rfl

def idleGrips (files : Nat → OpenFile) : Multiset Grip :=
  ∑ fd ∈ Finset.range maxOpen, (files fd).idleGrips

/-- How many of the grips are open descriptors, hold the lock shared, hold it exclusive. -/
def openedIn (F : Multiset Grip) : Nat := F.countP fun r => r.opened = true
@[inherit_doc openedIn] def sharedIn (F : Multiset Grip) : Nat := F.countP fun r => r.shared = true
@[inherit_doc openedIn] def exclusiveIn (F : Multiset Grip) : Nat :=
  F.countP fun r => r.exclusive = true

/-! ## The invariant -/

/-- The counts of a lock entry. -/
structure Counted (e : Entry) (F : Multiset Grip) : Prop where
  refs : e.refs = F.card
  addr : ∀ r ∈ F, r.ptr.addr = e.addr
  opened : e.openCount = openedIn F
  readers : e.readers = sharedIn F
  writer : e.writer.toNat = exclusiveIn F
  apart : e.writer = true → e.readers = 0

/-- What a hold says is true. -/
structure Hold.Valid (H : Hold) (I : Image) (id : Nat) (F : Multiset Grip) : Prop where
  known : ∀ K, H.known = some K →
    K.ino = I.inode id ∧ K.ents = I.tree.entry id ∧ I.tree.At K.path id
  unopened : H.unopened = true → H.exclusive = true ∧ ∀ r ∈ F, r.opened = false

/-- The lock entry of inode `id`, with its grips and how many more opens than closes there were. -/
structure EntryOk (I : Image) (id : Nat) (entry : Option Entry) (balance : Int)
    (F : Multiset Grip) : Prop where
  gone : entry = none → F = 0
  there : ∀ e, entry = some e → F ≠ 0 ∧ Counted e F
  copy : ∀ e, entry = some e → e.inodeValid = true →
    e.inode = I.inode id ∧ I.tree.kind id = some .file
  holds : ∀ r ∈ F, ∀ H, r.hold = some H → H.Valid I id F
  file : ∀ r ∈ F, r.opened = true → I.tree.kind id = some .file
  balance : balance = openedIn F

/-- How many more opens than closes of inode `id` are on record. -/
def openBalance (events : List OpenEvent) (id : Nat) : Int :=
  events.count (.registered id) - events.count (.givenBack id)

/-- Slot `fd` of the table is as the world says.  `T` are the tokens for it, `X` the
    reservations. -/
structure SlotOk (f : OpenFile) (sl : FdState) (fd : Nat) (T : Multiset Token)
    (X : Multiset (Nat × Option (Nat × UInt32))) : Prop where
  op : T.card = if f.op then 1 else 0
  inUse : f.inUse = true ↔ sl ≠ .free
  lt : sl ≠ .free → fd < maxOpen
  reserved : X = sl.reservation fd
  open_ : ∀ x flags off, sl = .live x flags off → x ≠ 0 ∧ f.inode = x ∧ f.flags = flags ∧
    f.offset = off ∧ ∃ p, f.lock = some p ∧ p.id = x ∧ ∀ t ∈ T, t.live = some (p, flags, off)
  shut : (∀ x flags off, sl ≠ .live x flags off) → ∀ t ∈ T, t.live = none
  closed : (∀ x flags off, sl ≠ .live x flags off) → (∀ t ∈ T, t.dead = false) →
    f.inode = 0 ∧ f.lock = none

/-- What a thread has fits together: its open grips are those of its token or its reservation. -/
structure Hands.Ok (h : Hands) : Prop where
  opened : ∀ r ∈ h.grips, r.opened = true →
    (∃ t flags off, h.token = some t ∧ t.live = some (r.ptr, flags, off)) ∨
    ∃ fd flags, h.resv = some (fd, some (r.ptr.id, flags))
  token : ∀ t p flags off, h.token = some t → t.live = some (p, flags, off) →
    ∃ r ∈ h.grips, r.opened = true ∧ r.ptr = p
  dead : ∀ t, h.token = some t → t.dead = true → t.live = none ∧ h.resv = some (t.fd, none)
  /-- An open that is settled has its grip, or has just made the file and still holds the
      directory. -/
  resv : ∀ fd x flags, h.resv = some (fd, some (x, flags)) →
    (∃ r ∈ h.grips, r.opened = true ∧ r.ptr.id = x) ∨
    ∃ r ∈ h.grips, ∃ H K, r.hold = some H ∧ H.exclusive = true ∧ H.known = some K ∧
      ∃ k, 2 ≤ k ∧ (K.ents k).inodeId.toNat = x ∧ x ≠ 0

def tokensOn (fd : Nat) (hs : Multiset Hands) : Multiset Token :=
  (hs.filterMap Hands.token).filter fun t => t.fd = fd

def resvsOn (fd : Nat) (hs : Multiset Hands) : Multiset (Nat × Option (Nat × UInt32)) :=
  (hs.filterMap Hands.resv).filter fun v => v.1 = fd

/-- All grips. -/
def allGrips (files : Nat → OpenFile) (hs : Multiset Hands) : Multiset Grip :=
  (hs.map Hands.grips).sum + idleGrips files

/-- The invariant. -/
structure Body (sb : Superblock) (s : FileSystem) (W : World) (hs : Multiset Hands) : Prop where
  shows : Shows sb s W.image s.side
  cons : Consistent sb W.image
  entry : ∀ id, EntryOk W.image id (s.entries id) (openBalance s.opens id)
    (on id (allGrips s.files hs))
  slot : ∀ fd, SlotOk (s.files fd) (W.slot fd) fd (tokensOn fd hs) (resvsOn fd hs)
  ok : ∀ h ∈ hs, h.Ok

/-! ## Taking the multisets apart -/

section Parts

variable {id fd : Nat} {F G : Multiset Grip} {r : Grip} {h h' : Hands} {hs : Multiset Hands}

@[simp] theorem on_zero : on id 0 = 0 := rfl

@[simp] theorem on_add : on id (F + G) = on id F + on id G := Multiset.filter_add _ _ _

theorem on_cons_self (h : r.ptr.id = id) : on id (r ::ₘ F) = r ::ₘ on id F :=
  Multiset.filter_cons_of_pos _ h

theorem on_cons_other (h : r.ptr.id ≠ id) : on id (r ::ₘ F) = on id F :=
  Multiset.filter_cons_of_neg _ h

theorem on_singleton_self (h : r.ptr.id = id) : on id {r} = {r} :=
  (Multiset.filter_singleton _).trans (if_pos h)

theorem on_singleton_other (h : r.ptr.id ≠ id) : on id {r} = 0 :=
  (Multiset.filter_singleton _).trans (if_neg h)

@[simp] theorem openedIn_cons : openedIn (r ::ₘ F) = openedIn F + r.opened.toNat := by
  unfold openedIn
  rw [Multiset.countP_cons]
  cases r.opened <;> rfl

@[simp] theorem sharedIn_cons : sharedIn (r ::ₘ F) = sharedIn F + r.shared.toNat := by
  unfold sharedIn
  rw [Multiset.countP_cons]
  cases r.shared <;> rfl

@[simp] theorem exclusiveIn_cons : exclusiveIn (r ::ₘ F) = exclusiveIn F + r.exclusive.toNat := by
  unfold exclusiveIn
  rw [Multiset.countP_cons]
  cases r.exclusive <;> rfl

theorem mem_on : r ∈ on id F ↔ r ∈ F ∧ r.ptr.id = id := Multiset.mem_filter

theorem mem_allGrips {files : Nat → OpenFile} {r : Grip} : r ∈ allGrips files hs ↔
    (∃ h ∈ hs, r ∈ h.grips) ∨ r ∈ idleGrips files := by
  unfold allGrips
  rw [Multiset.mem_add]
  exact or_congr Multiset.mem_bind Iff.rfl

theorem mem_tokensOn {t : Token} : t ∈ tokensOn fd hs ↔ ∃ h ∈ hs, h.token = some t ∧ t.fd = fd := by
  unfold tokensOn
  rw [Multiset.mem_filter, Multiset.mem_filterMap]
  constructor
  · rintro ⟨⟨h, hh, ht⟩, hfd⟩
    exact ⟨h, hh, ht, hfd⟩
  · rintro ⟨h, hh, ht, hfd⟩
    exact ⟨⟨h, hh, ht⟩, hfd⟩

theorem mem_resvsOn {v : Nat × Option (Nat × UInt32)} :
    v ∈ resvsOn fd hs ↔ ∃ h ∈ hs, h.resv = some v ∧ v.1 = fd := by
  unfold resvsOn
  rw [Multiset.mem_filter, Multiset.mem_filterMap]
  constructor
  · rintro ⟨⟨h, hh, ht⟩, hfd⟩
    exact ⟨h, hh, ht, hfd⟩
  · rintro ⟨h, hh, ht, hfd⟩
    exact ⟨⟨h, hh, ht⟩, hfd⟩

theorem allGrips_cons (files : Nat → OpenFile) :
    allGrips files (h ::ₘ hs) = h.grips + allGrips files hs := by
  unfold allGrips
  rw [Multiset.map_cons, Multiset.sum_cons, add_assoc]

/-- The token of `h`, if it is for `fd`. -/
theorem tokensOn_congr (ht : h'.token = h.token) :
    tokensOn fd (h' ::ₘ hs) = tokensOn fd (h ::ₘ hs) := by
  unfold tokensOn
  cases hc : h.token with
  | none => rw [Multiset.filterMap_cons_none _ _ hc, Multiset.filterMap_cons_none _ _ (ht.trans hc)]
  | some t =>
    rw [Multiset.filterMap_cons_some _ _ _ hc, Multiset.filterMap_cons_some _ _ _ (ht.trans hc)]

theorem resvsOn_congr (ht : h'.resv = h.resv) :
    resvsOn fd (h' ::ₘ hs) = resvsOn fd (h ::ₘ hs) := by
  unfold resvsOn
  cases hc : h.resv with
  | none => rw [Multiset.filterMap_cons_none _ _ hc, Multiset.filterMap_cons_none _ _ (ht.trans hc)]
  | some t =>
    rw [Multiset.filterMap_cons_some _ _ _ hc, Multiset.filterMap_cons_some _ _ _ (ht.trans hc)]

end Parts

/-! ## Who waits for whom -/

/-- A lock ranks above those of everything on the way to it. -/
noncomputable def Hold.depth (H : Hold) : ℕ∞ :=
  H.known.elim ⊤ fun K => ((2 + K.path.length : Nat) : ℕ∞)

noncomputable def Grip.depth (r : Grip) : ℕ∞ := r.hold.elim 0 Hold.depth

/-- Mutexes of descriptors come before locks, and a lock before those further down. -/
noncomputable instance : Ranked Hands where
  rank h := (h.token.elim 0 fun _ => 1) ⊔ (h.grips.map Grip.depth).sup

section Rank

variable {h : Hands} {n : ℕ∞}

theorem le_rank {r : Grip} (hr : r ∈ h.grips) : r.depth ≤ Ranked.rank h :=
  le_sup_of_le_right (Multiset.le_sup (Multiset.mem_map_of_mem _ hr))

theorem one_le_rank {t : Token} (ht : h.token = some t) : 1 ≤ Ranked.rank h := by
  refine le_sup_of_le_left ?_
  rw [ht]
  exact le_refl _

theorem rank_le (ht : (h.token.elim 0 fun _ => 1) ≤ n) (hG : ∀ r ∈ h.grips, r.depth ≤ n) :
    Ranked.rank h ≤ n := by
  refine sup_le ht (Multiset.sup_le.mpr fun d hd => ?_)
  obtain ⟨r, hr, rfl⟩ := Multiset.mem_map.mp hd
  exact hG r hr

/-- Hands with one lock, or none, and no mutex. -/
theorem rank_known {p : EntryPtr} {o : Bool} {H : Hold} {K : Known}
    {v : Option (Nat × Option (Nat × UInt32))} (hK : H.known = some K) {path : List Name}
    (hle : K.path.length + 1 ≤ path.length) :
    Ranked.rank (⟨{⟨p, o, some H⟩}, none, v⟩ : Hands) ≤ ((1 + path.length : Nat) : ℕ∞) := by
  refine rank_le bot_le fun r hr => ?_
  rw [Multiset.mem_singleton.mp hr]
  show H.depth ≤ _
  rw [Hold.depth, hK]
  show ((2 + K.path.length : Nat) : ℕ∞) ≤ _
  rw [Nat.cast_le]
  omega

theorem rank_none {v : Option (Nat × Option (Nat × UInt32))} :
    Ranked.rank (⟨0, none, v⟩ : Hands) ≤ n :=
  rank_le bot_le fun r hr => absurd hr (Multiset.notMem_zero r)

theorem rank_empty : Ranked.rank Hands.empty = 0 :=
  le_antisymm (rank_le (le_refl _) fun r hr => absurd hr (Multiset.notMem_zero r)) bot_le

end Rank

/-! ## Changing grips on one inode -/

section Regrip

variable {sb : Superblock} {s s' : FileSystem} {W : World} {h h' : Hands} {rest : Multiset Hands}

/-- A step on the entry of one inode, with the grips of one thread on it. -/
theorem Body.regrip (hb : Body sb s W (h ::ₘ rest)) (id : Nat)
    (hshow : Shows sb s' W.image s'.side) (hfiles : s'.files = s.files)
    (hent : ∀ j, j ≠ id → s'.entries j = s.entries j ∧
      openBalance s'.opens j = openBalance s.opens j)
    (htok : h'.token = h.token) (hresv : h'.resv = h.resv)
    (hgrips : ∀ j, j ≠ id → on j h'.grips = on j h.grips)
    (hentry : ∀ R, EntryOk W.image id (s.entries id) (openBalance s.opens id) (on id h.grips + R) →
      EntryOk W.image id (s'.entries id) (openBalance s'.opens id) (on id h'.grips + R))
    (hok : h.Ok → h'.Ok) : Body sb s' W (h' ::ₘ rest) where
  shows := hshow
  cons := hb.cons
  entry j := by
    have he := hb.entry j
    rw [hfiles, allGrips_cons, on_add]
    rw [allGrips_cons, on_add] at he
    by_cases hj : j = id
    · rw [hj] at he ⊢
      exact hentry _ he
    · rw [(hent j hj).1, (hent j hj).2, hgrips j hj]
      exact he
  slot fd := by
    rw [hfiles, tokensOn_congr htok, resvsOn_congr hresv]
    exact hb.slot fd
  ok k hk := by
    rcases Multiset.mem_cons.mp hk with rfl | hk
    · exact hok (hb.ok h (Multiset.mem_cons_self _ _))
    · exact hb.ok k (Multiset.mem_cons_of_mem hk)

end Regrip

end ConcurrentFs
