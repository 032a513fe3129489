/-
  ConcurrentFs.FsckRun

  The whole check (src/fsck.cpp, `Checker::run`).  Whatever is on the device it
  comes to its end and stays inside the device and its own tables, and what it
  reads as an inode's is recorded as that inode's; it reports no problem exactly
  if what its passes ask for is so.
-/
import ConcurrentFs.FsckInodes
import ConcurrentFs.FsckWalk

namespace ConcurrentFs.Fsck

open Lib Traversal

variable {dev : Device} {sb : Superblock}

/-! ## Superblock and tables -/

section Tables

variable {c c₀ : Checker} {E : Stop → Checker → Prop}

/-- Of the checker `c₀` only the problems and the reads have changed, and nothing has been read yet
    that belongs to an inode. -/
structure Early (dev : Device) (c₀ c : Checker) : Prop where
  fields : c = { c₀ with problems := c.problems, suppressed := c.suppressed, reads := c.reads }
  reads : ∀ r ∈ c.reads, r.block < dev.count.toNat ∧
    ∀ id, r.use = .indirect id ∨ r.use = .directory id → False

theorem Early.read (h : Early dev c₀ c) {b : Nat} (use : Use) (hb : b < dev.count.toNat)
    (huse : ∀ id, use = .indirect id ∨ use = .directory id → False) :
    Early dev c₀ { c with reads := c.reads ++ [⟨b, use, c.owner.get b⟩] } where
  fields := by rw [h.fields]
  reads r hr := by
    rcases List.mem_append.mp hr with hr | hr
    · exact h.reads r hr
    · rw [List.mem_singleton.mp hr]
      exact ⟨hb, huse⟩

theorem Early.complain (h : Early dev c₀ c) (ps : List String) (n : Nat) :
    Early dev c₀ { c with problems := ps, suppressed := n } :=
  ⟨by rw [h.fields], h.reads⟩

/-- What check_superblock asks of what follows the superblock in block 0. -/
def PaddingOk (b : Block) : Prop := ∀ i ∈ List.range' 48 (4096 - 48), b.get i = 0

/-- `check_superblock`. -/
theorem checkSuperblock_ends (hdev : dev.count ≠ 0) :
    (checkSuperblock dev).Ends Checker.start (fun r c => Early dev Checker.start c ∧
      match r with
      | some sb => sb = superblockIn (dev.blocks 0) ∧ validateSuperblock sb dev.count = .ok () ∧
          (Clean c.problems c.suppressed ↔ PaddingOk (dev.blocks 0))
      | none => ¬ Clean c.problems c.suppressed ∧
          ∀ sb, sb = superblockIn (dev.blocks 0) → validateSuperblock sb dev.count ≠ .ok ()) E := by
  have h0 : 0 < dev.count.toNat := by
    rcases Nat.eq_zero_or_pos dev.count.toNat with h | h
    · exact absurd (UInt32.toNat_inj.mp h) hdev
    · exact h
  have hstart : Early dev Checker.start Checker.start := ⟨rfl, nofun⟩
  unfold checkSuperblock
  rw [Prog.ends_bind]
  refine read_ends h0 ?_
  have hread := hstart.read .superblock h0 fun _ hid => by rcases hid with hid | hid <;> cases hid
  dsimp only
  cases hv : validateSuperblock (superblockIn (dev.blocks 0)) dev.count with
  | error e =>
    rw [Prog.ends_bind]
    refine problem_ends fun ps n hps => ⟨hread.complain ps n, hps, ?_⟩
    rintro sb rfl
    rw [hv]
    exact nofun
  | ok u =>
    dsimp only
    cases hf : (List.range' 48 (4096 - 48)).find? fun i => (dev.blocks 0).get i != 0 with
    | some i =>
      rw [Prog.ends_bind]
      refine problem_ends fun ps n hps =>
        ⟨hread.complain ps n, rfl, hv, fun hn => absurd hn hps, fun hpad => ?_⟩
      have h1 := List.find?_some hf
      have h2 := hpad i (List.mem_of_find?_eq_some hf)
      rw [h2] at h1
      exact absurd h1 (by decide)
    | none =>
      refine ⟨hread, rfl, hv, fun _ i hi => ?_, fun _ => ⟨rfl, rfl⟩⟩
      have := List.find?_eq_none.mp hf i hi
      simpa using this

/-- Reading blocks one after the other. -/
theorem reads_ends {first n : Nat} {use : Use} (hlt : first + n ≤ dev.count.toNat)
    (huse : ∀ id, use = .indirect id ∨ use = .directory id → False) (h : Early dev c₀ c) :
    ((List.range n).forM fun k => do let _ ← read dev (first + k) use).Ends c
      (fun _ c' => Early dev c₀ c' ∧ c'.problems = c.problems ∧
      c'.suppressed = c.suppressed) E := by
  refine Prog.ends_forM_range (I := fun _ c' => Early dev c₀ c' ∧ c'.problems = c.problems ∧
    c'.suppressed = c.suppressed) ⟨h, rfl, rfl⟩
    fun k hk c' h' => ?_
  rw [Prog.ends_bind]
  refine read_ends (by omega) ⟨h'.1.read _ (by omega) huse, h'.2⟩

theorem loadBitmap_ends {nbits first : Nat} (hlt : first + blocksFor nbits ≤ dev.count.toNat)
    (h : Early dev c₀ c) : (loadBitmap dev nbits first).Ends c (fun bm c' =>
      bm = .load dev.blocks first nbits ∧ Early dev c₀ c' ∧ c'.problems = c.problems ∧
      c'.suppressed = c.suppressed) E := by
  unfold loadBitmap
  rw [Prog.ends_bind]
  refine (reads_ends hlt (fun _ hid => by rcases hid with hid | hid <;> cases hid) h).mono
    (fun _ c' h' => ⟨rfl, h'⟩) fun _ _ hE => hE

/-- The checker as the walk finds it; `ps₁` and `n₁` are the problems with the superblock. -/
structure Tabled (dev : Device) (sb : Superblock) (ps₁ : List String) (n₁ : Nat) (c : Checker) :
    Prop where
  ok : Ok dev sb c
  fields : c =
    { Checker.loaded dev sb with
      problems := c.problems
      suppressed := c.suppressed
      inodesUsed := c.inodesUsed
      kind := c.kind
      owner := c.owner
      dirBlocks := c.dirBlocks
      reads := c.reads }
  kind : ∀ x, c.kind.get x = if x < sb.inodeCount.toNat then kindAt dev sb x else .none
  owner : Claims dev sb sb.inodeCount.toNat → ∀ b x, x ≠ 0 → (c.owner.get b = x ↔
    x < sb.inodeCount.toNat ∧ InUse dev sb x ∧
      b ∈ blocksAt (ptr dev.blocks (inodeOn dev sb x)) visitList)
  dirs : Claims dev sb sb.inodeCount.toNat → ∀ x < sb.inodeCount.toNat, InUse dev sb x → ∀ i,
    (c.dirBlocks.get x).getD i 0 =
      if kindAt dev sb x = .dir ∧ i < 2 ^ 20 ∧ i < (inodeOn dev sb x).size.toNat / 4096
      then ptr dev.blocks (inodeOn dev sb x) (.data i) else 0
  used : c.inodesUsed
    = UInt32.ofNat ((Finset.range sb.inodeCount.toNat).filter (InUse dev sb)).card
  clean : Clean c.problems c.suppressed ↔ Clean ps₁ n₁ ∧ Claims dev sb sb.inodeCount.toNat ∧
    (∀ x < sb.inodeCount.toNat, InodeOk dev sb x) ∧ rootInode < sb.inodeCount.toNat ∧
    kindAt dev sb rootInode = .dir

/-- `Checker::run` from the superblock to the walk. -/
theorem tables_ends (g : Regions sb) (hcount : sb.totalBlocks = dev.count)
    (h : Early dev Checker.start c) :
    (tables dev sb).Ends c (fun _ c' => Tabled dev sb c.problems c.suppressed c') E := by
  have hend : sb.dataStart.toNat < dev.count.toNat := hcount ▸ g.room
  have h1 := g.inodeBitmap
  have h2 := g.dataBitmap
  have h3 := g.inodeTable
  have h4 := g.data
  unfold tables
  rw [Prog.ends_bind]
  refine (loadBitmap_ends (by omega) h).mono (fun bm c1 ⟨hbm, he1, hp1⟩ => ?_) fun _ _ hE => hE
  rw [Prog.ends_bind, Prog.ends_change, Prog.ends_bind]
  have he1' : Early dev { Checker.start with inodeBm := bm } { c1 with inodeBm := bm } :=
    ⟨by rw [he1.fields], he1.reads⟩
  refine (loadBitmap_ends (by omega) he1').mono (fun bm2 c2 ⟨hbm2, he2, hp2⟩ => ?_) fun _ _ hE => hE
  rw [Prog.ends_bind, Prog.ends_change, Prog.ends_bind]
  have he2' : Early dev { Checker.start with inodeBm := bm, blockBm := bm2 }
      { c2 with blockBm := bm2 } := ⟨by rw [he2.fields], he2.reads⟩
  unfold loadInodes
  rw [Prog.ends_bind]
  refine (reads_ends (by omega) (fun _ hid => by rcases hid with hid | hid <;> cases hid) he2').mono
    (fun _ c3 ⟨he3, hp3⟩ => ?_) fun _ _ hE => hE
  rw [Prog.ends_change]
  generalize hc₁ : ({ c3 with
      inodes := ⟨sb.inodeCount.toNat,
        fun id => inodeIn (dev.blocks (sb.inodeTableStart.toNat + id / 32)) (id % 32)⟩
      kind := .assign sb.inodeCount.toNat .none
      owner := .assign sb.totalBlocks.toNat 0
      dirBlocks := .assign sb.inodeCount.toNat []
      refs := .assign sb.inodeCount.toNat 0
      names := .assign sb.inodeCount.toNat 0
      reachable := .assign sb.inodeCount.toNat false } : Checker) = c₁
  have he : Early dev (Checker.loaded dev sb) c₁ := by
    refine ⟨?_, fun r hr => he3.reads r (by rw [← hc₁] at hr; exact hr)⟩
    rw [← hc₁, he3.fields, hbm, hbm2]
    rfl
  have hload : Loaded dev sb c₁ := by
    rw [he.fields]
    exact ⟨fun _ => rfl, rfl⟩
  have hok : Ok dev sb c₁ := by
    have hl := loaded_ok dev sb
    rw [he.fields]
    exact { inodeBm := hl.inodeBm, blockBm := hl.blockBm, inodes := hl.inodes, kind := hl.kind
            owner := hl.owner, dirBlocks := hl.dirBlocks, refs := hl.refs, names := hl.names
            reachable := hl.reachable, owned := hl.owned, dirs := hl.dirs
            dirLength := hl.dirLength
            reads := fun r hr => ⟨(he.reads r hr).1, fun id hid =>
              ((he.reads r hr).2 id hid).elim⟩ }
  have hpassed : Passed dev sb c₁ 0 c₁ := by
    refine ⟨hok, rfl, fun x => ?_, fun b => .inl ?_, fun x _ => ?_, fun _ b x hx => ?_,
      fun _ => nofun,
      ?_, ?_⟩
    · rw [he.fields]
      rfl
    · rw [he.fields]
      rfl
    · rw [he.fields]
      rfl
    · have h0 : c₁.owner.get b = 0 := by
        rw [he.fields]
        rfl
      rw [h0]
      exact ⟨fun hx0 => absurd hx0.symm hx, fun hx0 => absurd hx0.1 (Nat.not_lt_zero x)⟩
    · exact (UInt32.add_zero _).symm
    · exact ⟨fun hp => ⟨hp, claims_zero, nofun⟩, fun hp => hp.1⟩
  have hp : c₁.problems = c.problems ∧ c₁.suppressed = c.suppressed := by
    rw [← hc₁]
    exact ⟨hp3.1.trans (hp2.1.trans hp1.1), hp3.2.trans (hp2.2.trans hp1.2)⟩
  refine (checkInodes_ends hcount hload hpassed).mono (fun _ c' ⟨c'', ps, k, h', hc', hps⟩ => ?_)
    fun _ _ hE => hE
  subst hc'
  refine ⟨h'.ok.complain ps k, ?_, h'.kind, h'.owner, h'.dirs, ?_, ?_⟩
  · rw [h'.fields, he.fields]
  · refine h'.used.trans ?_
    rw [he.fields]
    exact UInt32.zero_add _
  · show Clean ps k ↔ _
    rw [hps, h'.clean, hp.1, hp.2]
    simp only [and_assoc]

end Tables

/-! ## Links and the data bitmap -/

/-- What `check_links` asks of inode `id`. -/
def LinkOk (c : Checker) (id : Nat) : Prop :=
  c.kind.get id ≠ .none →
    (if id = rootInode then c.names.get id = 0
      else c.reachable.get id = true ∧ c.names.get id ≤ 1) ∧
    (c.kind.get id ≠ .bad → (c.inodes.get id).linkCount.toNat = (c.refs.get id).toNat)

/-- What `check_data_bitmap` asks of block `b`. -/
def BitOk (sb : Superblock) (c : Checker) (b : Nat) : Prop :=
  if b < sb.dataStart.toNat then c.blockBm.bit b = true
  else c.owner.get b ≠ 0 ↔ c.blockBm.bit b = true

section Links

variable {c : Checker} {E : Stop → Checker → Prop}

/-- The end of the loop body of `check_links`, where the link count is compared. -/
theorem links_ends (h : Ok dev sb c) {id : Nat} (hlt : id < sb.inodeCount.toNat) {k : Kind}
    {what : Inode → UInt32 → String} {Q : Unit → Checker → Prop}
    (hQ : ∀ ps n, (Clean ps n ↔ Clean c.problems c.suppressed ∧
        (k ≠ .bad → (c.inodes.get id).linkCount.toNat = (c.refs.get id).toNat)) →
      Q () { c with problems := ps, suppressed := n }) :
    (elem Checker.inodes id >>= fun ino => elem Checker.refs id >>= fun refs =>
      if k ≠ .bad ∧ ino.linkCount.toNat ≠ refs.toNat then problem (what ino refs)
      else pure ()).Ends c Q E := by
  rw [Prog.ends_bind]
  refine elem_ends (by rw [h.inodes]; exact hlt) ?_
  rw [Prog.ends_bind]
  refine elem_ends (by rw [h.refs]; exact hlt) (report_ends fun ps n hps => hQ ps n ?_)
  rw [hps, not_and, not_not]

theorem checkLink_ends (h : Ok dev sb c) {id : Nat} (hlt : id < sb.inodeCount.toNat)
    {Q : Unit → Checker → Prop}
    (hQ : ∀ ps n, (Clean ps n ↔ Clean c.problems c.suppressed ∧ LinkOk c id) →
      Q () { c with problems := ps, suppressed := n }) : (checkLink id).Ends c Q E := by
  unfold checkLink
  rw [Prog.ends_bind]
  refine elem_ends (by rw [h.kind]; exact hlt) ?_
  unfold LinkOk at hQ
  generalize hk : c.kind.get id = k at hQ
  by_cases hnone : k = .none
  · rw [if_pos hnone]
    exact hQ c.problems c.suppressed ⟨fun hp => ⟨hp, fun hn => absurd hnone hn⟩, fun hp => hp.1⟩
  rw [if_neg hnone]
  dsimp only
  rw [Prog.ends_bind]
  refine elem_ends (by rw [h.names]; exact hlt) ?_
  by_cases hroot : id = rootInode
  · rw [if_pos hroot]
    refine report_then fun ps n hps => links_ends (h.complain ps n) hlt
      fun ps' n' hps' => hQ ps' n' ?_
    rw [hps']
    show (Clean ps n ∧ _) ↔ _
    rw [hps, if_pos hroot, imp_iff_right hnone, and_assoc]
    refine and_congr_right fun _ => and_congr_left fun _ => ?_
    rw [gt_iff_lt, UInt32.not_lt]
    exact UInt32.le_zero_iff
  rw [if_neg hroot, Prog.ends_bind]
  rw [if_neg hroot] at hQ
  refine elem_ends (by rw [h.reachable]; exact hlt) ?_
  by_cases hreach : c.reachable.get id = true
  · rw [if_neg (not_not.mpr hreach)]
    refine report_then fun ps n hps => links_ends (h.complain ps n) hlt
      fun ps' n' hps' => hQ ps' n' ?_
    rw [hps']
    show (Clean ps n ∧ _) ↔ _
    rw [hps, imp_iff_right hnone, and_iff_right hreach, and_assoc]
    refine and_congr_right fun _ => and_congr_left fun _ => ?_
    rw [gt_iff_lt, UInt32.not_lt]
  · rw [if_pos hreach, Prog.ends_bind]
    refine problem_ends fun ps n hps => hQ ps n ⟨fun h0 => absurd h0 hps, fun h0 => ?_⟩
    exact absurd (h0.2 hnone).1.1 hreach

/-- `check_links`. -/
theorem checkLinks_ends (h : Ok dev sb c) {Q : Unit → Checker → Prop}
    (hQ : ∀ ps n, (Clean ps n ↔ Clean c.problems c.suppressed ∧
        ∀ id, 1 ≤ id → id < sb.inodeCount.toNat → LinkOk c id) →
      Q () { c with problems := ps, suppressed := n }) : (checkLinks sb).Ends c Q E := by
  refine (Prog.ends_forM_range' (I := fun m c' => ∃ ps n,
    c' = { c with problems := ps, suppressed := n } ∧
      (Clean ps n ↔ Clean c.problems c.suppressed ∧ ∀ id, 1 ≤ id → id < m → LinkOk c id))
      (sb.inodeCount.toNat - 1)
    ⟨c.problems, c.suppressed, rfl, ?_⟩ ?_).mono ?_ fun _ _ hE => hE
  · exact ⟨fun h0 => ⟨h0, fun id h1 h2 => absurd h2 (by omega)⟩, fun h0 => h0.1⟩
  · rintro id h1 h2 c' ⟨ps, n, rfl, hps⟩
    refine checkLink_ends (h.complain ps n) (by omega) fun ps' n' hps' => ⟨ps', n', rfl, ?_⟩
    rw [hps']
    show (Clean ps n ∧ LinkOk c id) ↔ _
    rw [hps, and_assoc]
    refine and_congr_right fun _ => ⟨fun ⟨h3, h4⟩ x hx hx' => ?_, fun h3 =>
      ⟨?_, h3 id h1 (by omega)⟩⟩
    · rcases Nat.lt_succ_iff_lt_or_eq.mp hx' with hx' | rfl
      · exact h3 x hx hx'
      · exact h4
    · exact fun x hx hx' => h3 x hx (by omega)
  · rintro _ c' ⟨ps, n, rfl, hps⟩
    refine hQ ps n (hps.trans (and_congr_right fun _ => ?_))
    exact ⟨fun h3 id h1 h2 => h3 id h1 (by omega), fun h3 id h1 h2 => h3 id h1 (by omega)⟩

theorem checkBit_ends (h : Ok dev sb c) {b : Nat} (hlt : b < sb.totalBlocks.toNat)
    {Q : Unit → Checker → Prop}
    (hQ : ∀ ps n, (Clean ps n ↔ Clean c.problems c.suppressed ∧ BitOk sb c b) →
      Q () { c with problems := ps, suppressed := n }) : (checkBit sb b).Ends c Q E := by
  unfold checkBit
  rw [Prog.ends_bind]
  refine isSet_ends (by rw [h.blockBm]; exact hlt) ?_
  unfold BitOk at hQ
  by_cases hmeta : b < sb.dataStart.toNat
  · rw [if_pos hmeta]
    rw [if_pos hmeta] at hQ
    exact report_ends fun ps n hps => hQ ps n (hps.trans (by rw [not_not]))
  rw [if_neg hmeta, Prog.ends_bind]
  rw [if_neg hmeta] at hQ
  refine elem_ends (by rw [h.owner]; exact hlt) ?_
  by_cases h1 : c.owner.get b ≠ 0 ∧ ¬ c.blockBm.bit b = true
  · rw [if_pos h1]
    refine problem_ends fun ps n hps => hQ ps n ⟨fun h0 => absurd h0 hps, fun h0 => ?_⟩
    exact absurd (h0.2.mp h1.1) h1.2
  · rw [if_neg h1]
    refine report_ends fun ps n hps => hQ ps n (hps.trans (and_congr_right fun _ => ?_))
    tauto

/-- `check_data_bitmap`. -/
theorem checkDataBitmap_ends (h : Ok dev sb c) {Q : Unit → Checker → Prop}
    (hQ : ∀ ps n, (Clean ps n ↔ Clean c.problems c.suppressed ∧ ∀ b < sb.totalBlocks.toNat,
    BitOk sb c b) →
      Q () { c with problems := ps, suppressed := n }) : (checkDataBitmap sb).Ends c Q E := by
  refine (Prog.ends_forM_range (I := fun m c' => ∃ ps n,
    c' = { c with problems := ps, suppressed := n } ∧
      (Clean ps n ↔ Clean c.problems c.suppressed ∧ ∀ b < m, BitOk sb c b))
    ⟨c.problems, c.suppressed, rfl, ?_⟩ ?_).mono ?_ fun _ _ hE => hE
  · exact ⟨fun h0 => ⟨h0, nofun⟩, fun h0 => h0.1⟩
  · rintro b h2 c' ⟨ps, n, rfl, hps⟩
    refine checkBit_ends (h.complain ps n) h2 fun ps' n' hps' => ⟨ps', n', rfl, ?_⟩
    rw [hps']
    show (Clean ps n ∧ BitOk sb c b) ↔ _
    rw [hps, forall_lt_succ, and_assoc]
  · rintro _ c' ⟨ps, n, rfl, hps⟩
    exact hQ ps n hps

end Links

/-! ## The whole check -/

/-- `walk_tree` from `c₀` to `c`: nothing if the root is no directory, and else a whole walk. -/
inductive Toured (dev : Device) (sb : Superblock) (c₀ : Checker) : Checker → Prop where
  | noRoot : c₀.kind.get rootInode ≠ .dir → Toured dev sb c₀ c₀
  | walked {c : Checker} {s : State Nat} {V : List Pending} : c₀.kind.get rootInode = .dir →
      s.stack = [] → OnWalk dev sb c₀ s V [] c → Toured dev sb c₀ c

/-- What the check leaves, when the tables were `c₀` and after the walk `c₁`. -/
structure Finished (dev : Device) (sb : Superblock) (c₀ c₁ c : Checker) : Prop where
  toured : Toured dev sb c₀ c₁
  fields : c =
    { c₁ with
      problems := c.problems
      suppressed := c.suppressed
      blocksUsed := c₁.blockBm.countSet }
  clean : Clean c.problems c.suppressed ↔ Clean c₁.problems c₁.suppressed ∧
    (∀ id, 1 ≤ id → id < sb.inodeCount.toNat → LinkOk c₁ id) ∧
    ∀ b < sb.totalBlocks.toNat, BitOk sb c₁ b

section Run

variable {c c₀ : Checker} {ps₁ : List String} {n₁ : Nat} {E : Stop → Checker → Prop}

/-- `walk_tree`. -/
theorem walkTree_ends (hcount : sb.totalBlocks = dev.count) (h : Tabled dev sb ps₁ n₁ c₀)
    {rounds : Nat}
    (hr : 2 * (sb.inodeCount.toNat + 1) + 1 ≤ rounds) :
    (walkTree dev sb rounds).Ends c₀ (fun _ c => Toured dev sb c₀ c ∧ Ok dev sb c) E := by
  unfold walkTree
  rw [Prog.ends_bind, Prog.ends_view]
  by_cases hlt : rootInode < sb.inodeCount.toNat
  swap
  · have hno : c₀.kind.get rootInode ≠ .dir := by
      rw [h.kind, if_neg hlt]
      intro h; contradiction
    rw [if_pos (by rw [h.ok.kind]; omega)]
    exact ⟨.noRoot hno, h.ok⟩
  rw [if_neg (by rw [h.ok.kind]; omega), Prog.ends_bind]
  refine elem_ends (by rw [h.ok.kind]; exact hlt) ?_
  by_cases hroot : c₀.kind.get rootInode = .dir
  swap
  · rw [if_pos hroot]
    exact ⟨.noRoot hroot, h.ok⟩
  rw [if_neg (not_not.mpr hroot), Prog.ends_bind]
  refine setReachable_ends (by rw [h.ok.reachable]; exact hlt) ?_
  have hzero : (∀ x, c₀.names.get x = 0) ∧ (∀ x, c₀.refs.get x = 0) ∧
      (∀ x, c₀.reachable.get x = false) ∧ c₀.files = 0 := by
    rw [h.fields]
    exact ⟨fun _ => rfl, fun _ => rfl, fun _ => rfl, rfl⟩
  have hstart : OnWalk dev sb c₀ ⟨[rootInode], fun _ => 0, []⟩ [] [(rootInode, rootInode)]
      { c₀ with reachable := c₀.reachable.set rootInode true } := by
    refine ⟨.start, rfl, rfl, fun p hp => .inl (by simpa using hp), ?_, (List.append_nil _).symm,
      (UInt32.add_zero _).symm, ?_⟩
    · refine ⟨{ h.ok with }, rfl, hzero.1, hzero.2.1, fun x => ?_, ?_⟩
      · show Function.update c₀.reachable.get rootInode true x = true ↔ _
        by_cases hx : x = rootInode
        · rw [hx, Function.update_self]
          simp
        · rw [Function.update_of_ne hx, hzero.2.2.1]
          simp [hx]
      · show c₀.files = _
        rw [hzero.2.2.2]
        simp [pushes]
    · exact ⟨fun hp => ⟨hp, (by intros; contradiction)⟩, fun hp => hp.1⟩
  refine (walkFrom_ends h.ok hcount hroot hlt rounds hstart (by simpa using hr)).mono
    (fun _ c hend => ?_) fun _ _ hE => hE
  obtain ⟨s, V, hs, hw⟩ := hend
  exact ⟨.walked hroot hs hw, hw.tally.ok⟩

/-- `Checker::run` after the superblock. -/
theorem runBody_ends (hcount : sb.totalBlocks = dev.count) (ht : Tabled dev sb ps₁ n₁ c₀)
    (hrun : (tables dev sb).run c = some (.ok (), c₀)) {rounds : Nat}
    (hr : 2 * (sb.inodeCount.toNat + 1) + 1 ≤ rounds) :
    (runBody dev sb rounds).Ends c (fun _ c' => ∃ c₁, Finished dev sb c₀ c₁ c' ∧
    Ok dev sb c₁) E := by
  unfold runBody
  rw [Prog.ends_bind]
  refine (Prog.run_eq_ok.mp hrun).mono (fun _ c0 ⟨_, h0⟩ => ?_) fun _ _ hE => hE.elim
  subst h0
  rw [Prog.ends_bind]
  refine (walkTree_ends hcount ht hr).mono (fun _ c₁ ⟨h, hok⟩ => ?_) fun _ _ hE => hE
  rw [Prog.ends_bind]
  refine checkLinks_ends hok fun ps n hps => ?_
  rw [Prog.ends_bind]
  refine checkDataBitmap_ends (hok.complain ps n) fun ps' n' hps' => ?_
  rw [Prog.ends_bind, Prog.ends_change, Prog.ends_change]
  refine ⟨c₁, ?_, hok⟩
  have hclean : Clean ps' n' ↔ Clean c₁.problems c₁.suppressed ∧
      (∀ id, 1 ≤ id → id < sb.inodeCount.toNat → LinkOk c₁ id) ∧
      ∀ b < sb.totalBlocks.toNat, BitOk sb c₁ b := by
    rw [hps']
    show (Clean ps n ∧ _) ↔ _
    rw [hps, and_assoc]
    rfl
  by_cases hn : n' > 0
  · rw [if_pos hn]
    refine ⟨h, rfl, fun h0 => ?_, fun h0 => ?_⟩
    · exact absurd h0.2 (by show n' ≠ 0; omega)
    · exact absurd (hclean.mpr h0).2 (by omega)
  · rw [if_neg hn]
    exact ⟨h, rfl, hclean⟩

/-- The part of the check that comes before the walk; the superblock, if it can be used. -/
def beforeWalk (dev : Device) : Check (Option Superblock) := do
  match ← checkSuperblock dev with
  | none => return none
  | some sb =>
    tables dev sb
    return some sb

/-- How a check of a device that is one comes to its end: at once, if the superblock cannot be used,
    or with everything looked at. -/
theorem fsck_ends (hdev : dev.count ≠ 0) {rounds : Nat} (hr : 2 ^ 34 ≤ rounds) :
    (fsck dev rounds).Ends Checker.start (fun _ c =>
      (validateSuperblock (superblockIn (dev.blocks 0)) dev.count ≠ .ok () ∧
        ¬ Clean c.problems c.suppressed ∧ Early dev Checker.start c ∧
        (beforeWalk dev).run Checker.start = some (.ok none, c)) ∨
      ∃ sb ps₁ n₁ c₀ c₁, sb = superblockIn (dev.blocks 0) ∧
        validateSuperblock sb dev.count = .ok () ∧ (Clean ps₁ n₁ ↔ PaddingOk (dev.blocks 0)) ∧
        (beforeWalk dev).run Checker.start = some (.ok (some sb), c₀) ∧ Tabled dev sb ps₁ n₁ c₀ ∧
        Finished dev sb c₀ c₁ c ∧ Ok dev sb c₁) E := by
  obtain ⟨⟨out, c0⟩, hrun0, hout⟩ := Prog.ends_iff_run.mp
    (checkSuperblock_ends (E := fun _ _ => False) hdev)
  cases out with
  | error e => exact hout.elim
  | ok r =>
    obtain ⟨hearly, hr0⟩ := hout
    have hsup : (checkSuperblock dev).Ends Checker.start (fun b t => b = r ∧ t = c0)
        fun _ _ => False := Prog.run_eq_ok.mp hrun0
    unfold fsck
    rw [Prog.ends_bind]
    refine hsup.mono (fun b t ⟨hb, ht⟩ => ?_) fun _ _ hE => hE.elim
    subst hb ht
    cases b with
    | none =>
      refine .inl ⟨hr0.2 _ rfl, hr0.1, hearly, Prog.run_eq_ok.mpr ?_⟩
      unfold beforeWalk
      rw [Prog.ends_bind]
      refine hsup.mono (fun b t' ⟨hb, ht⟩ => ?_) fun _ _ hE => hE.elim
      subst hb ht
      exact ⟨rfl, rfl⟩
    | some sb =>
      obtain ⟨hsb, hv, hpad⟩ := hr0
      have hcount : sb.totalBlocks = dev.count := (validateSuperblock_eq_ok.mp hv).2.2.1
      obtain ⟨⟨out, c₀⟩, hrun, hout⟩ := Prog.ends_iff_run.mp
        (tables_ends (E := fun _ _ => False) (regions_of_validate hv) hcount hearly)
      cases out with
      | error e => exact hout.elim
      | ok u =>
        have hlt := sb.inodeCount.toNat_lt
        refine (runBody_ends hcount hout hrun (by omega)).mono (fun _ c ⟨c₁, hf, hok⟩ => .inr
          ⟨sb, t.problems, t.suppressed, c₀, c₁, hsb, hv, hpad, Prog.run_eq_ok.mpr ?_,
          hout, hf, hok⟩)
          fun _ _ hE => hE
        unfold beforeWalk
        rw [Prog.ends_bind]
        refine hsup.mono (fun b t' ⟨hb, ht⟩ => ?_) fun _ _ hE => hE.elim
        subst hb ht
        show (tables dev sb >>= _).Ends _ _ _
        rw [Prog.ends_bind]
        refine (Prog.run_eq_ok.mp hrun).mono (fun _ c0 ⟨_, h0⟩ => ?_) fun _ _ hE => hE
        exact ⟨rfl, h0⟩

end Run

end ConcurrentFs.Fsck
