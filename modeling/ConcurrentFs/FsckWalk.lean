/-
  ConcurrentFs.FsckWalk

  The walk of the tree (src/fsck.cpp, `walk_tree` and `check_directory`) as a
  `Lib.Traversal`: the nodes are inodes, a directory leads to the inodes its entries
  name, and the counters are `names_`, which wrap at 2^32.

  `Tally` says what the tables hold in the middle of a walk, in terms of how often
  each inode has been named (`N`) and referred to (`R`) by the entries looked at,
  counted without wrapping.
-/
import ConcurrentFs.FsckBlocks
import ConcurrentFs.Lib.Traversal

namespace ConcurrentFs.Fsck

open Lib Traversal

variable {dev : Device} {sb : Superblock}

/-! ## What the walk goes over -/

/-- The slots of the blocks recorded for a directory, in order; holes are skipped. -/
def slotsOf (dev : Device) (blocks : List Nat) : List (Nat × DirEntry) :=
  (List.range blocks.length).flatMap fun fb =>
    if blocks.getD fb 0 = 0 then []
    else (List.range 64).map fun s => (fb * 64 + s, slotAt (dev.blocks (blocks.getD fb 0)) s)

/-- The inode that an entry refers to, if there is one of that number. -/
def refersTo (sb : Superblock) (e : Nat × DirEntry) : Option Nat :=
  if e.2.inodeId ≠ 0 ∧ e.2.inodeId < sb.inodeCount then some e.2.inodeId.toNat else none

/-- The inode that an entry other than "." and ".." names, if it is in use. -/
def namesNode (sb : Superblock) (kind : Nat → Kind) (e : Nat × DirEntry) : Option Nat :=
  if 2 ≤ e.1 ∧ e.2.inodeId ≠ 0 ∧ e.2.inodeId < sb.inodeCount ∧ kind e.2.inodeId.toNat ≠ .none
  then some e.2.inodeId.toNat else none

/-- The name in a slot that is neither "." nor ".." nor free. -/
def nameIn (e : Nat × DirEntry) : Option Name :=
  if 2 ≤ e.1 ∧ e.2.inodeId ≠ 0 then some ((List.ofFn e.2.name).take (min e.2.nameLen.toNat 58))
  else none

/-- What `check_dot` asks for. -/
def DotOk (e : DirEntry) (want : Name) (id : Nat) : Prop :=
  (e.nameLen.toNat = want.length ∧ (List.ofFn e.name).take want.length = want) ∧ e.type = ftDir ∧
    e.inodeId.toNat = id

/-- What is asked of the name in a slot, apart from its being new. -/
def NameOk (e : DirEntry) (name : Name) : Prop :=
  (e.nameLen.toNat ≠ 0 ∧ e.nameLen.toNat ≤ 58) ∧ (47 ∉ name ∧ 0 ∉ name) ∧ name ≠ dot ∧ name ≠ dotdot

/-- What is asked of the inode in a slot. -/
def TargetOk (kind : Nat → Kind) (e : DirEntry) : Prop :=
  kind e.inodeId.toNat ≠ .none ∧
    (kind e.inodeId.toNat ≠ .bad →
      e.type = if kind e.inodeId.toNat = .dir then ftDir else ftFile)

/-- What `check_directory` asks of a slot, apart from its name's being new. -/
def SlotOk (sb : Superblock) (kind : Nat → Kind) (dir parent : Nat) (e : Nat × DirEntry) : Prop :=
  if e.1 < 2 then
    DotOk e.2 (if e.1 = 0 then dot else dotdot) (if e.1 = 0 then dir else parent)
  else if e.2.inodeId = 0 then e.2 = .zero
  else NameOk e.2 ((List.ofFn e.2.name).take (min e.2.nameLen.toNat 58)) ∧
    e.2.inodeId < sb.inodeCount ∧ TargetOk kind e.2

/-- What `check_directory` asks of the slots of a directory. -/
structure SlotsOk (sb : Superblock) (kind : Nat → Kind) (dir parent : Nat)
    (es : List (Nat × DirEntry)) : Prop where
  each : ∀ e ∈ es, SlotOk sb kind dir parent e
  names : (es.filterMap nameIn).Nodup

/-- The tree as the tables of the checker have it when the walk begins. -/
def graph (dev : Device) (sb : Superblock) (c : Checker) : Traversal Nat where
  root := rootInode
  kids d := (slotsOf dev (c.dirBlocks.get d)).filterMap (namesNode sb c.kind.get)
  inner x := x < sb.inodeCount.toNat ∧ c.kind.get x = .dir ∧ x ≠ rootInode
  root_not_inner h := h.2.2 rfl

instance (c : Checker) : DecidablePred (graph dev sb c).inner := fun x =>
  inferInstanceAs (Decidable (x < sb.inodeCount.toNat ∧ c.kind.get x = .dir ∧ x ≠ rootInode))

/-- Where a 32-bit counter is back at 0. -/
abbrev wrap : Nat := 4294967296

/-- The tables in the middle of a walk that began at `c₀`. -/
structure Tally (dev : Device) (sb : Superblock) (c₀ : Checker) (N R : Nat → Nat) (c : Checker) :
    Prop where
  ok : Ok dev sb c
  fields : c =
    { c₀ with
      problems := c.problems
      suppressed := c.suppressed
      files := c.files
      directories := c.directories
      refs := c.refs
      names := c.names
      reachable := c.reachable
      reads := c.reads
      visits := c.visits }
  names : ∀ x, c.names.get x = UInt32.ofNat (N x)
  refs : ∀ x, c.refs.get x = UInt32.ofNat (R x)
  reachable : ∀ x, c.reachable.get x = true ↔ x = rootInode ∨ 1 ≤ N x
  files : c.files = UInt32.ofNat
    (∑ x ∈ (Finset.range sb.inodeCount.toNat).filter fun x => c₀.kind.get x = .file,
      pushes wrap (N x))

/-! ## Rules -/

section Rules

variable {c c₀ : Checker} {N R : Nat → Nat} {E : Stop → Checker → Prop}

theorem Tally.complain (h : Tally dev sb c₀ N R c) (ps : List String) (n : Nat) :
    Tally dev sb c₀ N R { c with problems := ps, suppressed := n } where
  ok := h.ok.complain ps n
  fields := by rw [h.fields]
  names := h.names
  refs := h.refs
  reachable := h.reachable
  files := h.files

theorem Tally.kind (h : Tally dev sb c₀ N R c) : c.kind = c₀.kind := by rw [h.fields]

theorem checkDot_ends {who : String} {e : DirEntry} {slot : Nat} {want : Name} {id : Nat}
    {Q : Unit → Checker → Prop}
    (hQ : ∀ ps n, (Clean ps n ↔ Clean c.problems c.suppressed ∧ DotOk e want id) →
      Q () { c with problems := ps, suppressed := n }) :
    (checkDot who e slot want id).Ends c Q E := by
  unfold checkDot
  dsimp only
  by_cases h1 : ¬ (e.nameLen.toNat = want.length ∧ (List.ofFn e.name).take want.length = want) ∨
      e.type ≠ ftDir
  · rw [if_pos h1]
    refine problem_ends fun ps n hps => hQ ps n ⟨fun h0 => absurd h0 hps, fun h0 => ?_⟩
    exact (h1.elim (fun h => h h0.2.1) fun h => h h0.2.2.1).elim
  · rw [if_neg h1]
    refine report_ends fun ps n hps => hQ ps n (hps.trans (and_congr_right fun _ => ?_))
    push Not at h1
    rw [not_not]
    exact ⟨fun h => ⟨h1.1, h1.2, h⟩, fun h => h.2.2⟩

theorem checkName_ends {who : String} {slot : Nat} {e : DirEntry} {name : Name} {seen : List Name}
    {Q : Unit → Checker → Prop}
    (hQ : ∀ ps n, (Clean ps n ↔ Clean c.problems c.suppressed ∧ NameOk e name ∧ name ∉ seen) →
      Q () { c with problems := ps, suppressed := n }) :
    (checkName who slot e name seen).Ends c Q E := by
  have hlast : ∀ c' : Checker, (∀ ps n, (Clean ps n ↔ Clean c'.problems c'.suppressed ∧
    name ∉ seen) →
      Q () { c' with problems := ps, suppressed := n }) →
      (if name ∈ seen then
        problem (who ++ " has two entries named \"" ++ text name ++ "\"") else pure
        ()).Ends c' Q E :=
    fun c' h => report_ends fun ps n hps => h ps n hps
  unfold checkName
  by_cases h1 : e.nameLen.toNat = 0 ∨ e.nameLen.toNat > 58
  · rw [if_pos h1, Prog.ends_bind]
    refine problem_ends fun ps n hps => hlast _ fun ps' n' hps' => hQ ps' n' (hps'.trans ?_)
    refine ⟨fun h => absurd h.1 hps, fun h => ?_⟩
    have := h.2.1.1
    omega
  rw [if_neg h1]
  by_cases h2 : 47 ∈ name ∨ 0 ∈ name
  · rw [if_pos h2, Prog.ends_bind]
    refine problem_ends fun ps n hps => hlast _ fun ps' n' hps' => hQ ps' n' (hps'.trans ?_)
    exact ⟨fun h => absurd h.1 hps, fun h => (h2.elim h.2.1.2.1.1 h.2.1.2.1.2).elim⟩
  rw [if_neg h2]
  refine report_then fun ps n hps => hlast _ fun ps' n' hps' => hQ ps' n' (hps'.trans ?_)
  rw [hps]
  push Not at h1 h2 ⊢
  exact ⟨fun h => ⟨h.1.1, ⟨h1, h2, h.1.2⟩, h.2⟩, fun h => ⟨⟨h.1, h.2.1.2.2⟩, h.2.2⟩⟩

/-- One more reference. -/
theorem countRef_ends (h : Tally dev sb c₀ N R c) {x : Nat} (hx : x < sb.inodeCount.toNat)
    {Q : Unit → Checker → Prop}
    (hQ : ∀ r, Tally dev sb c₀ N (Function.update R x (R x + 1)) { c with refs := r } →
      Q () { c with refs := r }) : (countRef x).Ends c Q E := by
  unfold countRef
  rw [Prog.ends_bind]
  refine elem_ends (by rw [h.ok.refs]; exact hx) ((Prog.ends_change _).mpr (hQ _ ?_))
  refine ⟨⟨h.ok.inodeBm, h.ok.blockBm, h.ok.inodes, h.ok.kind, h.ok.owner,
    h.ok.dirBlocks, h.ok.refs,
    h.ok.names, h.ok.reachable, h.ok.owned, h.ok.dirs, h.ok.dirLength, h.ok.reads⟩,
    by rw [h.fields], h.names, fun y => ?_, h.reachable, h.files⟩
  show Function.update c.refs.get x (c.refs.get x + 1) y = _
  by_cases hy : y = x
  · rw [hy, Function.update_self, Function.update_self, h.refs, UInt32.ofNat_add]
    rfl
  · rw [Function.update_of_ne hy, Function.update_of_ne hy, h.refs]

/-- The files counted once more for a name of a file, when its counter says 0 or 1. -/
theorem files_update {S : Finset ℕ} (x : ℕ) :
    UInt32.ofNat (∑ y ∈ S, pushes wrap (Function.update N x (N x + 1) y))
      = UInt32.ofNat (∑ y ∈ S, pushes wrap (N y)) + if x ∈ S ∧
      (N x + 1) % wrap ≤ 1 then 1 else 0 := by
  by_cases hx : x ∈ S
  · rw [← Finset.add_sum_erase S _ hx, ← Finset.add_sum_erase S (fun y => pushes wrap (N y)) hx,
      Function.update_self, pushes]
    have hrest : ∑ y ∈ S.erase x, pushes wrap (Function.update N x (N x + 1) y)
        = ∑ y ∈ S.erase x, pushes wrap (N y) := by
      refine Finset.sum_congr rfl fun y hy => ?_
      rw [Function.update_of_ne (Finset.ne_of_mem_erase hy)]
    rw [hrest]
    by_cases hp : (N x + 1) % wrap ≤ 1
    · rw [if_pos hp, if_pos ⟨hx, hp⟩, Nat.add_right_comm, UInt32.ofNat_add]
      rfl
    · rw [if_neg hp, if_neg fun h => hp h.2, Nat.add_zero, UInt32.add_zero]
  · rw [if_neg fun h => hx h.1]
    refine (congrArg UInt32.ofNat (Finset.sum_congr rfl fun y hy => ?_)).trans
      (UInt32.add_zero _).symm
    rw [Function.update_of_ne (by rintro rfl; exact hx hy)]

/-- One more name. -/
theorem Tally.name (h : Tally dev sb c₀ N R c) {x : Nat} (hx : x < sb.inodeCount.toNat)
    {r : Table Bool} {n : UInt32} (hr : r.size = c.reachable.size)
    (hget : ∀ y, r.get y = true ↔ c.reachable.get y = true ∨ y = x)
    (hn : n = c.files + if c₀.kind.get x = .file ∧ (N x + 1) % wrap ≤ 1 then 1 else 0) :
    Tally dev sb c₀ (Function.update N x (N x + 1)) R
      { c with names := c.names.set x (c.names.get x + 1), reachable := r, files := n } where
  ok := { inodeBm := h.ok.inodeBm, blockBm := h.ok.blockBm, inodes := h.ok.inodes, kind := h.ok.kind
          owner := h.ok.owner, dirBlocks := h.ok.dirBlocks, refs := h.ok.refs, names := h.ok.names
          reachable := hr.trans h.ok.reachable, owned := h.ok.owned, dirs := h.ok.dirs
          dirLength := h.ok.dirLength, reads := h.ok.reads }
  fields := by rw [h.fields]
  names y := by
    show Function.update c.names.get x (c.names.get x + 1) y = _
    by_cases hy : y = x
    · rw [hy, Function.update_self, Function.update_self, h.names, UInt32.ofNat_add]
      rfl
    · rw [Function.update_of_ne hy, Function.update_of_ne hy, h.names]
  refs := h.refs
  reachable y := by
    rw [hget, h.reachable]
    by_cases hy : y = x
    · rw [hy, Function.update_self]
      simp
    · rw [Function.update_of_ne hy]
      simp [hy]
  files := by
    rw [files_update, ← h.files]
    refine hn.trans (congrArg _ (if_congr (and_congr_left fun _ => ?_) rfl rfl))
    rw [Finset.mem_filter, Finset.mem_range]
    exact (and_iff_right hx).symm

theorem countName_ends (h : Tally dev sb c₀ N R c) {x : Nat} (hx : x < sb.inodeCount.toNat)
    {Q : UInt32 → Checker → Prop}
    (hQ : Q (c.names.get x + 1) { c with names := c.names.set x (c.names.get x + 1) }) :
    (countName x).Ends c Q E := by
  unfold countName
  rw [Prog.ends_bind]
  refine elem_ends (by rw [h.ok.names]; exact hx) ?_
  rw [Prog.ends_bind]
  exact (Prog.ends_change _).mpr hQ

theorem setReachable_ends {x : Nat} (hx : x < c.reachable.size) {Q : Unit → Checker → Prop}
    (hQ : Q () { c with reachable := c.reachable.set x true }) : (setReachable x).Ends c Q E := by
  unfold setReachable
  rw [Prog.ends_bind]
  exact elem_ends hx ((Prog.ends_change _).mpr hQ)

/-- The counter as the checker reads it. -/
theorem Tally.count (h : Tally dev sb c₀ N R c) (x : Nat) :
    (c.names.get x + 1).toNat = (N x + 1) % wrap := by
  rw [h.names, UInt32.toNat_add, UInt32.toNat_ofNat']
  show (N x % wrap + 1) % wrap = _
  rw [Nat.mod_add_mod]

/-- The stack with the parents left out. -/
abbrev nodes (stack : List Pending) : List Nat := stack.map Prod.fst

/-- `check_directory` at an entry that names an inode. -/
theorem checkTarget_ends (hroot : c₀.kind.get rootInode = .dir) (h : Tally dev sb c₀ N R c)
    {dir : Nat} {entry : String} {e : DirEntry} {stack : List Pending}
    (hx : e.inodeId < sb.inodeCount) {Q : List Pending → Checker → Prop}
    (hnone : c₀.kind.get e.inodeId.toNat = .none → ∀ c',
      Tally dev sb c₀ N (Function.update R e.inodeId.toNat (R e.inodeId.toNat + 1)) c' →
      (Clean c'.problems c'.suppressed ↔ Clean c.problems c.suppressed ∧ TargetOk c₀.kind.get e) →
      c'.visits = c.visits →
      c'.directories = c.directories → Q stack c')
    (hname : c₀.kind.get e.inodeId.toNat ≠ .none → ∀ stack' c',
      Tally dev sb c₀ (Function.update N e.inodeId.toNat (N e.inodeId.toNat + 1))
        (Function.update R e.inodeId.toNat (R e.inodeId.toNat + 1)) c' →
      (Clean c'.problems c'.suppressed ↔ Clean c.problems c.suppressed ∧ TargetOk c₀.kind.get e) →
      c'.visits = c.visits →
      c'.directories = c.directories →
      stack' = (if (graph dev sb c₀).inner e.inodeId.toNat ∧ (N e.inodeId.toNat + 1) % wrap ≤ 1
        then (e.inodeId.toNat, dir) :: stack else stack) → Q stack' c') :
    (checkTarget dir entry e stack).Ends c Q E := by
  have hlt : e.inodeId.toNat < sb.inodeCount.toNat := UInt32.lt_iff_toNat_lt.mp hx
  unfold checkTarget
  dsimp only
  rw [Prog.ends_bind]
  refine countRef_ends h hlt fun r h' => ?_
  have hlt' : ∀ c' : Checker, c'.kind = c.kind → e.inodeId.toNat < c'.kind.size := fun c' hc => by
    rw [hc, h.ok.kind]
    exact hlt
  generalize hR : Function.update R e.inodeId.toNat (R e.inodeId.toNat + 1) = R' at *
  generalize hxid : e.inodeId.toNat = x at *
  rw [Prog.ends_bind]
  refine elem_ends (hlt' { c with refs := r } rfl) ?_
  have hk : c.kind.get x = c₀.kind.get x := by rw [h.kind]
  dsimp only
  rw [hk]
  have hgraph : (graph dev sb c₀).inner x ↔ c₀.kind.get x = .dir ∧ x ≠ rootInode :=
    and_iff_right hlt
  have htarget : TargetOk c₀.kind.get e ↔ c₀.kind.get x ≠ .none ∧
      (c₀.kind.get x ≠ .bad → e.type = if c₀.kind.get x = .dir then ftDir else ftFile) := by
    unfold TargetOk
    rw [hxid]
  by_cases hnone' : c₀.kind.get x = .none
  · rw [if_pos hnone', Prog.ends_bind]
    refine problem_ends fun ps n hps => hnone hnone' _ (h'.complain ps n) ?_ rfl rfl
    exact ⟨fun h0 => absurd h0 hps, fun h0 => absurd hnone' (htarget.mp h0.2).1⟩
  rw [if_neg hnone']
  have hpushed : ¬ (c₀.kind.get x = .dir ∧ x ≠ rootInode ∧ (N x + 1) % wrap ≤ 1) →
      stack = if (graph dev sb c₀).inner x ∧ (N x + 1) % wrap ≤ 1 then (x, dir) :: stack
        else stack := fun hno => by
    rw [if_neg fun hc => hno ⟨(hgraph.mp hc.1).1, (hgraph.mp hc.1).2, hc.2⟩]
  by_cases hbad : c₀.kind.get x = .bad
  · rw [if_pos hbad, Prog.ends_bind]
    refine countName_ends h' hlt ?_
    rw [Prog.ends_bind]
    refine setReachable_ends (by rw [h'.ok.reachable]; exact hlt) ?_
    refine hname hnone' stack _ (h'.name hlt (r := c.reachable.set x true) (n := c.files) rfl
      (fun y => ?_) ?_) ?_ rfl rfl (hpushed (by rw [hbad]; exact fun hc => nomatch hc.1))
    · show Function.update c.reachable.get x true y = true ↔ c.reachable.get y = true ∨ y = x
      by_cases hy : y = x
      · simp [hy]
      · simp [hy]
    · rw [if_neg (by rw [hbad]; exact fun hc => nomatch hc.1)]
      exact (UInt32.add_zero _).symm
    · refine (and_iff_left (htarget.mpr ⟨hnone', fun hb => absurd hbad hb⟩)).symm
  rw [if_neg hbad]
  refine report_then fun ps n hps => ?_
  have hps' : Clean ps n ↔ Clean c.problems c.suppressed ∧ TargetOk c₀.kind.get e := by
    rw [hps, htarget, not_not]
    exact and_congr_right fun _ => ⟨fun ht => ⟨hnone', fun _ => ht⟩, fun ht => ht.2 hbad⟩
  have h'' := h'.complain ps n
  rw [Prog.ends_bind]
  refine countName_ends h'' hlt ?_
  have hcount := h''.count x
  have hgt : c.names.get x + 1 > 1 ↔ ¬ (N x + 1) % wrap ≤ 1 := by
    rw [gt_iff_lt, UInt32.lt_iff_toNat_lt, not_le, ← hcount]
    rfl
  dsimp only
  by_cases hmany : c.names.get x + 1 > 1 ∨ x = rootInode
  · rw [if_pos hmany]
    -- named before, or the root: it is reachable already, and no file is counted
    refine hname hnone' stack _ (h''.name hlt (r := c.reachable) (n := c.files) rfl
      (fun y => ?_) ?_)
      hps' rfl rfl (hpushed ?_)
    · refine ⟨.inl, fun hy => hy.elim id ?_⟩
      rintro rfl
      refine (h.reachable y).mpr (hmany.elim (fun hm => .inr ?_) .inl)
      by_contra h0
      exact hgt.mp hm (by rw [show N y = 0 by omega]; decide)
    · rw [if_neg ?_]
      · exact (UInt32.add_zero _).symm
      · rintro ⟨hf, hle⟩
        refine hmany.elim (fun hm => hgt.mp hm hle) ?_
        rintro rfl
        rw [hroot] at hf
        cases hf
    · rintro ⟨hd, hne, hle⟩
      exact hmany.elim (fun hm => hgt.mp hm hle) hne
  rw [if_neg hmany, Prog.ends_bind]
  push Not at hmany
  have hle : (N x + 1) % wrap ≤ 1 := by
    by_contra hno
    exact hmany.1 (hgt.mpr hno)
  have hreach : ∀ y, (c.reachable.set x true).get y = true ↔ c.reachable.get y = true ∨ y = x := by
    intro y
    show Function.update c.reachable.get x true y = true ↔ _
    by_cases hy : y = x
    · simp [hy]
    · simp [hy]
  refine setReachable_ends (by show x < c.reachable.size; rw [h.ok.reachable]; exact hlt) ?_
  by_cases hdir : c₀.kind.get x = .dir
  · rw [if_pos hdir]
    refine hname hnone' _ _ (h''.name hlt (r := c.reachable.set x true) (n := c.files)
      rfl hreach ?_)
      hps' rfl rfl (if_pos ⟨hgraph.mpr ⟨hdir, hmany.2⟩, hle⟩).symm
    rw [hdir, if_neg (by simp)]
    exact (UInt32.add_zero _).symm
  · rw [if_neg hdir, Prog.ends_bind, Prog.ends_change]
    refine hname hnone' _ _ (h''.name hlt (r := c.reachable.set x true) (n := c.files + 1)
      rfl hreach ?_)
      hps' rfl rfl (hpushed fun hc => hdir hc.1)
    have hfile : c₀.kind.get x = .file := by
      cases hk' : c₀.kind.get x with
      | file => rfl
      | none => exact absurd hk' hnone'
      | dir => exact absurd hk' hdir
      | bad => exact absurd hk' hbad
    rw [if_pos ⟨hfile, hle⟩]

end Rules

/-! ## One directory -/

section Scanning

variable (dev sb) (c₀ c₁ : Checker) (N R : Nat → Nat) (dir parent : Nat) (rest : List Pending)

/-- The counters and the stack once the slots `es` have been looked at. -/
def followed (es : List (Nat × DirEntry)) : (Nat → Nat) × List Nat :=
  (es.filterMap (namesNode sb c₀.kind.get)).foldl ((graph dev sb c₀).edge wrap) (N, nodes rest)

/-- The references once the slots `es` have been looked at. -/
def referred (es : List (Nat × DirEntry)) (x : Nat) : Nat :=
    R x + (es.filterMap (refersTo sb)).count x

/-- In the middle of a directory, `es` of whose slots have been looked at. -/
structure Scanning (es : List (Nat × DirEntry)) (a : Scan) (c : Checker) : Prop where
  tally : Tally dev sb c₀ (followed dev sb c₀ N rest es).1 (referred sb R es) c
  stack : nodes a.stack = (followed dev sb c₀ N rest es).2
  parents : ∀ p ∈ a.stack, p ∈ rest ∨ p.2 = dir ∧ p.1 ∈ es.filterMap (namesNode sb c₀.kind.get)
  seen : ∀ name, name ∈ a.seen ↔ name ∈ es.filterMap nameIn
  clean : Clean c.problems c.suppressed ↔ Clean c₁.problems c₁.suppressed ∧
    SlotsOk sb c₀.kind.get dir parent es
  visits : c.visits = c₁.visits
  directories : c.directories = c₁.directories

end Scanning

section Slots

variable {c c₀ c₁ : Checker} {N R : Nat → Nat} {dir parent : Nat} {rest : List Pending}
  {es : List (Nat × DirEntry)} {a : Scan} {E : Stop → Checker → Prop}

theorem slotsOk_concat {kind : Nat → Kind} (e : Nat × DirEntry) :
    SlotsOk sb kind dir parent (es ++ [e]) ↔ SlotsOk sb kind dir parent es ∧
      SlotOk sb kind dir parent e ∧ ∀ name, nameIn e = some name → name ∉ es.filterMap nameIn := by
  constructor
  · rintro ⟨h1, h2⟩
    rw [List.filterMap_append] at h2
    refine ⟨⟨fun e' he => h1 e' (List.mem_append_left _ he), List.Nodup.of_append_left h2⟩,
      h1 e (by simp), fun name hname hin => ?_⟩
    exact List.disjoint_of_nodup_append h2 hin (by simp [hname])
  · rintro ⟨⟨h1, h2⟩, h3, h4⟩
    refine ⟨fun e' he => ?_, ?_⟩
    · rcases List.mem_append.mp he with he | he
      · exact h1 e' he
      · rw [List.mem_singleton.mp he]
        exact h3
    · rw [List.filterMap_append]
      cases hn : nameIn e with
      | none => simpa [hn] using h2
      | some name =>
        simp only [hn, List.filterMap_cons, List.filterMap_nil]
        refine List.nodup_append.mpr ⟨h2, List.nodup_singleton _, fun x hx y hy => ?_⟩
        rw [List.mem_singleton.mp hy]
        rintro rfl
        exact h4 _ hn hx

theorem referred_concat (e : Nat × DirEntry) :
    referred sb R (es ++ [e]) = match refersTo sb e with
      | some x => Function.update (referred sb R es) x (referred sb R es x + 1)
      | none => referred sb R es := by
  funext y
  unfold referred
  cases h : refersTo sb e with
  | none => simp [h]
  | some x =>
    by_cases hy : y = x
    · simp [h, hy]
      rfl
    · simp [h, hy, Ne.symm hy]

theorem followed_concat (e : Nat × DirEntry) :
    followed dev sb c₀ N rest (es ++ [e]) = match namesNode sb c₀.kind.get e with
      | some x => (graph dev sb c₀).edge wrap (followed dev sb c₀ N rest es) x
      | none => followed dev sb c₀ N rest es := by
  unfold followed
  cases h : namesNode sb c₀.kind.get e <;> simp [h]

/-- A slot that names nothing. -/
theorem Scanning.pass (h : Scanning dev sb c₀ c₁ N R dir parent rest es a c) {e : Nat × DirEntry}
    (hnode : namesNode sb c₀.kind.get e = none) (seen : List Name) {c' : Checker}
    (htally : Tally dev sb c₀ (followed dev sb c₀ N rest es).1 (referred sb R (es ++ [e])) c')
    (hseen : ∀ name, name ∈ seen ↔ name ∈ a.seen ∨ nameIn e = some name)
    (hclean : Clean c'.problems c'.suppressed ↔ Clean c.problems c.suppressed ∧
    SlotOk sb c₀.kind.get dir parent e ∧
      ∀ name, nameIn e = some name → name ∉ a.seen)
    (hv : c'.visits = c.visits) (hd : c'.directories = c.directories) :
    Scanning dev sb c₀ c₁ N R dir parent rest (es ++ [e]) ⟨seen, a.stack⟩ c' where
  tally := by
    rw [followed_concat, hnode]
    exact htally
  stack := by
    rw [followed_concat, hnode]
    exact h.stack
  parents p hp := by
    refine (h.parents p hp).imp_right fun hp => ⟨hp.1, ?_⟩
    rw [List.filterMap_append]
    exact List.mem_append_left _ hp.2
  seen name := by
    rw [hseen, h.seen, List.filterMap_append, List.mem_append]
    simp only [List.mem_filterMap, List.mem_singleton, exists_eq_left]
  clean := by
    rw [hclean, h.clean, slotsOk_concat]
    simp only [h.seen, and_assoc]
  visits := hv.trans h.visits
  directories := hd.trans h.directories

/-- One slot. -/
theorem checkSlot_ends (hroot : c₀.kind.get rootInode = .dir)
    (h : Scanning dev sb c₀ c₁ N R dir parent rest es a c) (slot : Nat) (e : DirEntry) :
    (checkSlot sb dir parent slot e a).Ends c
      (Scanning dev sb c₀ c₁ N R dir parent rest (es ++ [(slot, e)])) E := by
  unfold checkSlot
  dsimp only
  by_cases hslot : slot < 2
  · have hname : nameIn (slot, e) = none := if_neg fun hc => by
      have : 2 ≤ slot := hc.1
      omega
    have hnode : namesNode sb c₀.kind.get (slot, e) = none := if_neg fun hc => by
      have : 2 ≤ slot := hc.1
      omega
    rw [if_pos hslot, Prog.ends_bind]
    refine checkDot_ends fun ps n hps => ?_
    have hclean : Clean ps n ↔ Clean c.problems c.suppressed ∧
      SlotOk sb c₀.kind.get dir parent (slot, e) ∧
        ∀ name, nameIn (slot, e) = some name → name ∉ a.seen := by
      rw [hps, hname]
      unfold SlotOk
      rw [if_pos (show (slot, e).1 < 2 from hslot)]
      simp
    have ht := h.tally.complain ps n
    have hseen : ∀ name, name ∈ a.seen ↔ name ∈ a.seen ∨ nameIn (slot, e) = some name := by
      simp [hname]
    by_cases hr : e.inodeId ≠ 0 ∧ e.inodeId < sb.inodeCount
    · rw [if_pos hr, Prog.ends_bind]
      refine countRef_ends ht (UInt32.lt_iff_toNat_lt.mp hr.2) fun r ht' => ?_
      refine h.pass hnode a.seen ?_ hseen hclean rfl rfl
      rw [referred_concat, show refersTo sb (slot, e) = some e.inodeId.toNat from if_pos hr]
      exact ht'
    · rw [if_neg hr]
      refine h.pass hnode a.seen ?_ hseen hclean rfl rfl
      rw [referred_concat, show refersTo sb (slot, e) = none from if_neg hr]
      exact ht
  rw [if_neg hslot]
  have hslot' : ¬ (slot, e).1 < 2 := hslot
  by_cases h0 : e.inodeId = 0
  · have hname : nameIn (slot, e) = none := if_neg fun hc => hc.2 h0
    rw [if_pos h0]
    refine report_then fun ps n hps => ?_
    refine h.pass (if_neg fun hc => hc.2.1 h0) a.seen ?_ (by simp [hname]) ?_ rfl rfl
    · rw [referred_concat, show refersTo sb (slot, e) = none from if_neg fun hc => hc.1 h0]
      exact h.tally.complain ps n
    · show Clean ps n ↔ _
      rw [hps, hname, not_not]
      unfold SlotOk
      rw [if_neg hslot', if_pos h0]
      simp
  rw [if_neg h0, Prog.ends_bind]
  generalize hnm : (List.ofFn e.name).take (min e.nameLen.toNat 58) = name
  have hname : nameIn (slot, e) = some name := (if_pos ⟨by omega, h0⟩).trans (congrArg some hnm)
  have hslotOk : SlotOk sb c₀.kind.get dir parent (slot, e) ↔
      NameOk e name ∧ e.inodeId < sb.inodeCount ∧ TargetOk c₀.kind.get e := by
    unfold SlotOk
    rw [if_neg hslot', if_neg (show ¬ (slot, e).2.inodeId = 0 from h0), ← hnm]
  have hseen : ∀ x, x ∈ name :: a.seen ↔ x ∈ a.seen ∨ nameIn (slot, e) = some x := fun x => by
    rw [hname, List.mem_cons, or_comm, Option.some.injEq, eq_comm]
  have hnew : ∀ {P Q S : Prop}, P ∧ (Q ∧ name ∉ a.seen) ∧ S ↔
      P ∧ (Q ∧ S) ∧ ∀ x, nameIn (slot, e) = some x → x ∉ a.seen := fun {P Q S} => by
    rw [hname]
    simp only [Option.some.injEq, forall_eq']
    tauto
  refine checkName_ends fun ps n hps => ?_
  have ht := h.tally.complain ps n
  by_cases hge : e.inodeId ≥ sb.inodeCount
  · rw [if_pos hge, Prog.ends_bind]
    have hnlt : ¬ e.inodeId < sb.inodeCount := UInt32.not_lt.mpr hge
    refine problem_ends fun ps' n' hps' => ?_
    refine h.pass (if_neg fun hc => hnlt hc.2.2.1) (name :: a.seen) ?_ hseen ?_ rfl rfl
    · rw [referred_concat, show refersTo sb (slot, e) = none from if_neg fun hc => hnlt hc.2]
      exact ht.complain ps' n'
    · refine ⟨fun hn => absurd hn hps', fun hok => ?_⟩
      exact absurd (hslotOk.mp hok.2.1).2.1 hnlt
  rw [if_neg hge, Prog.ends_bind]
  have hlt : e.inodeId < sb.inodeCount := UInt32.not_le.mp hge
  have hrefers : refersTo sb (slot, e) = some e.inodeId.toNat := if_pos ⟨h0, hlt⟩
  have hclean : ∀ c' : Checker, (Clean c'.problems c'.suppressed ↔ Clean ps n ∧
    TargetOk c₀.kind.get e) →
      (Clean c'.problems c'.suppressed ↔ Clean c.problems c.suppressed ∧
      SlotOk sb c₀.kind.get dir parent (slot, e) ∧
        ∀ x, nameIn (slot, e) = some x → x ∉ a.seen) := fun c' hc' => by
    rw [hc', hps, hslotOk, and_iff_right hlt, ← hnew, and_assoc]
  refine checkTarget_ends hroot ht hlt (fun hk c' ht' hc' hv hd => ?_)
    fun hk stack' c' ht' hc' hv hd hstack => ?_
  · refine h.pass (if_neg fun hc => hc.2.2.2 hk) (name :: a.seen) ?_ hseen (hclean c' hc') hv hd
    rw [referred_concat, hrefers]
    exact ht'
  · have hnode : namesNode sb c₀.kind.get (slot, e) = some e.inodeId.toNat :=
      if_pos ⟨by omega, h0, hlt, hk⟩
    have hfol : followed dev sb c₀ N rest (es ++ [(slot, e)]) = _ := followed_concat (slot, e)
    rw [hnode] at hfol
    constructor
    · rw [hfol, referred_concat, hrefers]
      exact ht'
    · rw [hfol, hstack]
      unfold Traversal.edge
      dsimp only
      rw [apply_ite nodes, h.stack]
      refine if_congr Iff.rfl ?_ rfl
      show e.inodeId.toNat :: nodes a.stack = _
      rw [h.stack]
    · intro p hp
      have hold : p ∈ a.stack → p ∈ rest ∨ p.2 = dir ∧
          p.1 ∈ (es ++ [(slot, e)]).filterMap (namesNode sb c₀.kind.get) := fun hp =>
        (h.parents p hp).imp_right fun hp => ⟨hp.1, by
          rw [List.filterMap_append]
          exact List.mem_append_left _ hp.2⟩
      have hp : p ∈ stack' := hp
      rw [hstack] at hp
      split at hp
      · rcases List.mem_cons.mp hp with rfl | hp
        · exact .inr ⟨rfl, by rw [List.filterMap_append]; simp [hnode]⟩
        · exact hold hp
      · exact hold hp
    · exact fun x => by
        show x ∈ name :: a.seen ↔ _
        rw [hseen, h.seen, List.filterMap_append, List.mem_append]
        simp only [List.mem_filterMap, List.mem_singleton, exists_eq_left]
    · rw [hclean c' hc', h.clean, slotsOk_concat]
      simp only [h.seen, and_assoc]
    · exact hv.trans h.visits
    · exact hd.trans h.directories

/-- A loop each round of which looks at the slots `g j`. -/
theorem foldlM_scanning {ι : Type} {g : ι → List (Nat × DirEntry)} {body : Scan → ι → Check Scan}
    (js : List ι) :
    ∀ {es a c}, Scanning dev sb c₀ c₁ N R dir parent rest es a c →
      (∀ j ∈ js, ∀ {es a c}, Scanning dev sb c₀ c₁ N R dir parent rest es a c →
        (body a j).Ends c (Scanning dev sb c₀ c₁ N R dir parent rest (es ++ g j)) E) →
      (js.foldlM body a).Ends c
        (Scanning dev sb c₀ c₁ N R dir parent rest (es ++ js.flatMap g)) E := by
  induction js with
  | nil =>
    intro es a c h _
    rw [List.flatMap_nil, List.append_nil]
    exact h
  | cons j js ih =>
    intro es a c h hbody
    rw [List.flatMap_cons, ← List.append_assoc, List.foldlM_cons, Prog.ends_bind]
    refine (hbody j (List.mem_cons_self ..) h).mono (fun a' c' h' => ?_) fun _ _ hE => hE
    exact ih h' fun j' hj' => hbody j' (List.mem_cons_of_mem _ hj')

/-- A block of the directory that is its own is read. -/
theorem Scanning.read (h : Scanning dev sb c₀ c₁ N R dir parent rest es a c) {b : Nat}
    (hdir : dir ≠ 0) (hown : c.owner.get b = dir) (hb : b < dev.count.toNat) :
    Scanning dev sb c₀ c₁ N R dir parent rest es a
      { c with reads := c.reads ++ [⟨b, .directory dir, c.owner.get b⟩] } where
  tally :=
    { ok := h.tally.ok.read hb fun x hx => by
        rcases hx with hx | hx
        · cases hx
        · exact ⟨Use.directory.inj hx ▸ hdir, Use.directory.inj hx ▸ hown⟩
      fields := by rw [h.tally.fields]
      names := h.tally.names
      refs := h.tally.refs
      reachable := h.tally.reachable
      files := h.tally.files }
  stack := h.stack
  parents := h.parents
  seen := h.seen
  clean := h.clean
  visits := h.visits
  directories := h.directories

/-- `check_directory`: it reads the blocks recorded for the directory, which are its own, and looks
    at every slot. -/
theorem checkDirectory_ends (hcount : sb.totalBlocks = dev.count)
    (hroot : c₀.kind.get rootInode = .dir) (h : Tally dev sb c₀ N R c)
    (hdir : dir < sb.inodeCount.toNat) :
    (checkDirectory dev sb dir parent rest).Ends c
      (fun stack c' => ∃ seen, Scanning dev sb c₀ { c with visits := c.visits ++ [dir] }
      N R dir parent
        rest (slotsOf dev (c₀.dirBlocks.get dir)) ⟨seen, stack⟩ c') E := by
  have hstart : Scanning dev sb c₀ { c with visits := c.visits ++ [dir] } N R dir parent rest []
      ⟨[], rest⟩ { c with visits := c.visits ++ [dir] } := by
    constructor
    · constructor
      · exact { h.ok with }
      · rw [h.fields]
      · exact h.names
      · exact h.refs
      · exact h.reachable
      · exact h.files
    · rfl
    · exact fun p hp => .inl hp
    · exact fun _ => Iff.rfl
    · exact ⟨fun h0 => ⟨h0, ⟨nofun, List.nodup_nil⟩⟩, fun h0 => h0.1⟩
    · rfl
    · rfl
  have hmap : c.dirBlocks = c₀.dirBlocks := by rw [h.fields]
  have howner : c.owner = c₀.owner := by rw [h.fields]
  unfold checkDirectory
  simp only [Prog.ends_bind, Prog.ends_change]
  refine elem_ends (by show dir < c.dirBlocks.size; rw [h.ok.dirBlocks]; exact hdir) ?_
  rw [show ({ c with visits := c.visits ++ [dir] } : Checker).dirBlocks.get dir
      = c₀.dirBlocks.get dir by
    rw [← hmap]]
  generalize hbs : c₀.dirBlocks.get dir = blocks
  refine (foldlM_scanning (g := fun fb => if blocks.getD fb 0 = 0 then []
      else (List.range 64).map fun s => (fb * 64 + s, slotAt (dev.blocks (blocks.getD fb 0)) s))
    (List.range blocks.length) hstart fun fb hfb {es a c'} h' => ?_).mono (fun a c' h' => ?_)
    fun _ _ hE => hE
  · unfold checkDirBlock
    by_cases h0 : blocks.getD fb 0 = 0
    · rw [if_pos h0, if_pos h0, List.append_nil]
      exact h'
    · rw [if_neg h0, if_neg h0, Prog.ends_bind]
      have hin : blocks.getD fb 0 ∈ c₀.dirBlocks.get dir := by
        rw [hbs, List.getD_eq_getElem _ _ (List.mem_range.mp hfb)]
        exact List.getElem_mem _
      have hown := h.ok.dirs dir _ (hmap ▸ hin) h0
      have hlt := (h.ok.owned _ (by rw [hown.2]; exact hown.1)).2
      have howner' : c'.owner = c.owner := by rw [h'.tally.fields, howner]
      have hlt' : blocks.getD fb 0 < dev.count.toNat := by rw [← hcount]; exact hlt
      refine read_ends hlt' ?_
      have hread := h'.read hown.1 (by rw [howner']; exact hown.2) hlt'
      generalize hes : ((List.range 64).map fun s =>
        (fb * 64 + s, slotAt (dev.blocks (blocks.getD fb 0)) s)) = new
      rw [← List.flatMap_singleton' new, ← hes, List.flatMap_map]
      exact foldlM_scanning (List.range 64) hread fun s _ {es a c} h'' =>
        checkSlot_ends hroot h'' _ _
  · rw [List.nil_append] at h'
    exact ⟨a.seen, h'⟩

end Slots

/-! ## The walk -/

/-- How often the slots of the directories of a list refer to an inode. -/
def refsIn (dev : Device) (sb : Superblock) (c₀ : Checker) (L : List Nat) (x : Nat) : Nat :=
  (L.map fun d => ((slotsOf dev (c₀.dirBlocks.get d)).filterMap (refersTo sb)).count x).sum

/-- In the middle of the walk that began at `c₀`: `V` are the directories checked, with the parents
    they were checked against. -/
structure OnWalk (dev : Device) (sb : Superblock) (c₀ : Checker) (s : State Nat)
    (V stack : List Pending) (c : Checker) : Prop where
  reached : (graph dev sb c₀).Reached wrap s
  pending : nodes stack = s.stack
  visited : nodes V = s.visits
  parents : ∀ p ∈ V ++ stack,
    p = (rootInode, rootInode) ∨ p.2 ∈ s.visits ∧ p.1 ∈ (graph dev sb c₀).kids p.2
  tally : Tally dev sb c₀ s.named (refsIn dev sb c₀ s.visits) c
  visits : c.visits = c₀.visits ++ s.visits
  directories : c.directories = c₀.directories + UInt32.ofNat s.visits.length
  clean : Clean c.problems c.suppressed ↔ Clean c₀.problems c₀.suppressed ∧
    ∀ p ∈ V, SlotsOk sb c₀.kind.get p.1 p.2 (slotsOf dev (c₀.dirBlocks.get p.1))

section Walk

variable {c c₀ : Checker} {s : State Nat} {V stack : List Pending} {E : Stop → Checker → Prop}

/-- Every slot of a directory takes up its place in a block of it. -/
theorem slotsOf_length (dev : Device) (blocks : List Nat) :
    (slotsOf dev blocks).length ≤ 64 * blocks.length := by
  unfold slotsOf
  rw [List.length_flatMap]
  have hall : ∀ n ∈ (List.range blocks.length).map fun fb =>
      (if blocks.getD fb 0 = 0 then []
        else (List.range 64).map fun s => (fb * 64 + s,
          slotAt (dev.blocks (blocks.getD fb 0)) s)).length,
      n ≤ 64 := by
    intro n hn
    obtain ⟨fb, -, rfl⟩ := List.mem_map.mp hn
    split
    · exact Nat.zero_le _
    · rw [List.length_map, List.length_range]
  have := List.sum_le_card_nsmul _ 64 hall
  rw [List.length_map, List.length_range, nsmul_eq_mul, Nat.cast_id, Nat.mul_comm] at this
  exact this

/-- A directory names no more than 2^26 inodes. -/
theorem kids_length (h : Ok dev sb c₀) (d : Nat) : ((graph dev sb c₀).kids d).length ≤ 2 ^ 26 := by
  have h1 := List.length_filterMap_le (namesNode sb c₀.kind.get) (slotsOf dev (c₀.dirBlocks.get d))
  have h2 := slotsOf_length dev (c₀.dirBlocks.get d)
  have h3 := h.dirLength d
  show (List.filterMap _ _).length ≤ _
  omega

/-- How often block `fb` of directory `d` names `x`. -/
def blockCount (dev : Device) (sb : Superblock) (c : Checker) (d x fb : Nat) : Nat :=
  if (c.dirBlocks.get d).getD fb 0 = 0 then 0
  else (((List.range 64).map fun s =>
    (fb * 64 + s, slotAt (dev.blocks ((c.dirBlocks.get d).getD fb 0)) s)).filterMap
      (namesNode sb c.kind.get)).count x

/-- How often a directory names an inode, block by block. -/
theorem kids_count (d x : Nat) : ((graph dev sb c₀).kids d).count x
    = ∑ fb ∈ Finset.range (c₀.dirBlocks.get d).length, blockCount dev sb c₀ d x fb := by
  show ((slotsOf dev (c₀.dirBlocks.get d)).filterMap _).count x = _
  unfold slotsOf blockCount
  rw [List.filterMap_flatMap, List.count_flatMap, Finset.sum_eq_multiset_sum, Finset.range_val,
    Multiset.range, Multiset.map_coe, Multiset.sum_coe]
  refine congrArg List.sum (List.map_congr_left fun fb _ => ?_)
  by_cases h0 : (c₀.dirBlocks.get d).getD fb 0 = 0
  · simp only [Function.comp_apply, if_pos h0, List.filterMap_nil, List.count_nil]
  · simp only [Function.comp_apply, if_neg h0]

/-- What the walk comes to are inodes. -/
theorem reach_lt (hroot : rootInode < sb.inodeCount.toNat) {x : Nat}
    (h : (graph dev sb c₀).Reach x) : x < sb.inodeCount.toNat := by
  cases h with
  | root => exact hroot
  | kid _ _ hx => exact hx.1

/-- One directory. -/
theorem OnWalk.visit (hcount : sb.totalBlocks = dev.count) (hroot : c₀.kind.get rootInode = .dir)
    (hrlt : rootInode < sb.inodeCount.toNat) {d parent : Nat} {rest : List Pending}
    (h : OnWalk dev sb c₀ s V ((d, parent) :: rest) c) :
    (checkDirectory dev sb d parent rest).Ends { c with directories := c.directories + 1 }
      (fun stack' c' => ∃ s', s'.visits.length = s.visits.length + 1 ∧
        OnWalk dev sb c₀ s' (V ++ [(d, parent)]) stack' c') E := by
  have hs : s.stack = d :: nodes rest := h.pending.symm
  have hlt : d < sb.inodeCount.toNat :=
    reach_lt hrlt (h.reached.inv.reach d (by rw [hs]; simp))
  have ht : Tally dev sb c₀ s.named (refsIn dev sb c₀ s.visits)
      { c with directories := c.directories + 1 } := by
    constructor
    · exact { h.tally.ok with }
    · rw [h.tally.fields]
    · exact h.tally.names
    · exact h.tally.refs
    · exact h.tally.reachable
    · exact h.tally.files
  refine (checkDirectory_ends hcount hroot ht hlt).mono (fun stack' c' ⟨seen, h'⟩ => ?_)
    fun _ _ hE => hE
  have hkids : followed dev sb c₀ s.named rest (slotsOf dev (c₀.dirBlocks.get d))
      = ((graph dev sb c₀).kids d).foldl ((graph dev sb c₀).edge wrap) (s.named, nodes rest) := rfl
  refine ⟨(graph dev sb c₀).visit wrap s d (nodes rest), by simp [Traversal.visit], ?_⟩
  constructor
  · exact .visit h.reached hs
  · exact h'.stack
  · show nodes (V ++ [(d, parent)]) = s.visits ++ [d]
    rw [← h.visited]
    simp
  · show ∀ p ∈ V ++ [(d, parent)] ++ stack', _ ∨ p.2 ∈ s.visits ++ [d] ∧ _
    have hold : ∀ p ∈ V ++ (d, parent) :: rest, p = (rootInode, rootInode) ∨
        p.2 ∈ s.visits ++ [d] ∧ p.1 ∈ (graph dev sb c₀).kids p.2 := fun p hp =>
      (h.parents p hp).imp_right fun hp => ⟨List.mem_append_left _ hp.1, hp.2⟩
    intro p hp
    rw [List.append_cons] at hold
    rcases List.mem_append.mp hp with hp | hp
    · exact hold p (List.mem_append_left _ hp)
    · rcases h'.parents p hp with hp | ⟨h1, h2⟩
      · exact hold p (List.mem_append_right _ hp)
      · exact .inr (by rw [h1]; exact ⟨by simp, h2⟩)
  · have hrefs : referred sb (refsIn dev sb c₀ s.visits) (slotsOf dev (c₀.dirBlocks.get d))
        = refsIn dev sb c₀ (s.visits ++ [d]) := by
      funext x
      simp [referred, refsIn]
    exact hrefs ▸ h'.tally
  · show c'.visits = c₀.visits ++ (s.visits ++ [d])
    rw [h'.visits, ← List.append_assoc, ← h.visits]
  · rw [h'.directories]
    show c.directories + 1 = c₀.directories + UInt32.ofNat (s.visits ++ [d]).length
    rw [h.directories, List.length_append, List.length_singleton, UInt32.ofNat_add,
      UInt32.add_assoc]
    rfl
  · rw [h'.clean]
    show Clean c.problems c.suppressed ∧ _ ↔ _
    rw [h.clean, and_assoc]
    refine and_congr_right fun _ => ?_
    simp only [List.mem_append, List.mem_singleton, or_imp, forall_and, forall_eq]

/-- The walk comes to its end. -/
theorem walkFrom_ends (h0 : Ok dev sb c₀) (hcount : sb.totalBlocks = dev.count)
    (hroot : c₀.kind.get rootInode = .dir)
    (hrlt : rootInode < sb.inodeCount.toNat) (n : Nat) :
    ∀ {s V stack c}, OnWalk dev sb c₀ s V stack c →
      2 * (sb.inodeCount.toNat + 1) + 1 ≤ n + s.visits.length →
      (walkFrom dev sb stack n).Ends c (fun _ c' => ∃ s' V', s'.stack = [] ∧
        OnWalk dev sb c₀ s' V' [] c') E := by
  have hbound : ∀ {s V stack c}, OnWalk dev sb c₀ s V stack c →
      s.visits.length + 2 * stack.length ≤ 2 * (sb.inodeCount.toNat + 1) := by
    intro s V stack c h
    have hb := h.reached.inv.bounded (by decide) (N := Finset.range sb.inodeCount.toNat)
      (fun x hx => Finset.mem_range.mpr hx.1) (kids_length h0) (by decide)
    rwa [Finset.card_range, ← h.pending, List.length_map] at hb
  induction n with
  | zero =>
    intro s V stack c h hn
    have := hbound h
    omega
  | succ n ih =>
    intro s V stack c h hn
    cases stack with
    | nil => exact ⟨s, V, h.pending.symm, h⟩
    | cons p rest =>
      obtain ⟨d, parent⟩ := p
      unfold walkFrom
      rw [Prog.ends_bind, Prog.ends_change, Prog.ends_bind]
      refine (h.visit hcount hroot hrlt).mono (fun stack' c' ⟨s', hlen, h'⟩ => ?_) fun _ _ hE => hE
      exact ih h' (by omega)

end Walk

end ConcurrentFs.Fsck
