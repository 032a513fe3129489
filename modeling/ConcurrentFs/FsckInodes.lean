/-
  ConcurrentFs.FsckInodes

  The first pass of the checker over the inodes (src/fsck.cpp, `check_blocks` and
  `check_inodes`): what it asks of each inode, and what it leaves in the tables.

  What an inode points to is recorded completely if it can all be claimed; if it
  cannot, there is a problem, and the rest of the tables is still in order.
-/
import ConcurrentFs.FsckBlocks

namespace ConcurrentFs.Fsck

open Lib

variable {dev : Device} {sb : Superblock}

/-! ## One inode -/

/-- What `check_blocks` asks of an inode besides that its blocks can be claimed. -/
structure BlocksOk (dev : Device) (ino : Inode) (isDir : Bool) : Prop where
  count : (blocksAt (ptr dev.blocks ino) visitList).length = ino.blockCount.toNat
  size : ino.size.toNat ≤ maxFileBlocks * 4096
  ends : isDir = false → ∀ i, ptr dev.blocks ino (.data i) ≠ 0 →
    i < ((ino.size + 4096 - 1) / 4096).toNat
  whole : isDir = true → ino.size.toNat % 4096 = 0
  some : isDir = true → ino.size.toNat / 4096 ≠ 0
  dirEnds : isDir = true → ∀ i, ptr dev.blocks ino (.data i) ≠ 0 → i < ino.size.toNat / 4096
  /-- No hole, and no more blocks than the map of a directory takes. -/
  noHole : isDir = true → ∀ i < ino.size.toNat / 4096, i < 2 ^ 20 ∧ ptr dev.blocks ino (.data i) ≠ 0

/-- What `check_blocks` does. -/
structure Decoded (dev : Device) (sb : Superblock) (id : Nat) (ino : Inode) (isDir : Bool)
    (c c' : Checker) : Prop where
  ok : Ok dev sb c'
  frame : Frame id c c'
  owner : Claimable sb c.owner.get (ptr dev.blocks ino) Set.univ → ∀ b, c'.owner.get b =
    if b ∈ blocksAt (ptr dev.blocks ino) visitList then id else c.owner.get b
  dir : Claimable sb c.owner.get (ptr dev.blocks ino) Set.univ → ∀ i,
    (c'.dirBlocks.get id).getD i 0 =
    if isDir = true ∧ i < 2 ^ 20 ∧ i < ino.size.toNat / 4096 then ptr dev.blocks ino (.data i)
    else 0
  clean : Clean c'.problems c'.suppressed ↔ Clean c.problems c.suppressed ∧
    Claimable sb c.owner.get (ptr dev.blocks ino) Set.univ ∧ BlocksOk dev ino isDir

section Inode

variable {c c₀ : Checker} {w : Walked} {id : Nat} {ino : Inode} {isDir : Bool}
  {E : Stop → Checker → Prop}

/-- A position that is not visited is a hole. -/
theorem ptr_unvisited {blk : Nat → Block} {p : Pos} (h : p ∉ visitList) : ptr blk ino p = 0 := by
  by_contra h0
  exact h (visitList_perm.mem_iff.mpr (mem_posList h0))

theorem claimable_univ {owner : Nat → Nat}
    (h : Claimable sb owner (ptr dev.blocks ino) {p | p ∈ visitList}) :
    Claimable sb owner (ptr dev.blocks ino) Set.univ := by
  have hin : ∀ p, ptr dev.blocks ino p ≠ 0 → p ∈ visitList := fun p h0 => by
    by_contra hno
    exact h0 (ptr_unvisited hno)
  exact ⟨fun p _ h0 => h.range p (hin p h0) h0, fun p _ h0 => h.free p (hin p h0) h0,
    fun p _ q _ h0 heq => h.once p (hin p h0) q (hin q (heq ▸ h0)) h0 heq⟩

/-- What `check_blocks` knows of an inode that can be claimed when it has gone through its
    pointers. -/
theorem Walking.claimed (h : Walking dev sb (ptr dev.blocks ino) id isDir c₀ visitList
    visitList w c) :
    (Clean c.problems c.suppressed ↔ Clean c₀.problems c₀.suppressed ∧
      Claimable sb c₀.owner.get (ptr dev.blocks ino) Set.univ) ∧
    (Claimable sb c₀.owner.get (ptr dev.blocks ino) Set.univ →
      Visited sb (ptr dev.blocks ino) id isDir c₀ visitList visitList w c) := by
  rcases h.either with hv | ⟨hp, hno⟩
  · refine ⟨?_, fun _ => hv⟩
    rw [hv.problems, hv.suppressed]
    exact ⟨fun h0 => ⟨h0, claimable_univ hv.claimable⟩, fun h0 => h0.1⟩
  · exact ⟨⟨fun h0 => absurd h0 hp, fun h0 => absurd h0.2 hno⟩, fun hc => absurd hc hno⟩

/-- Where the file blocks end. -/
theorem Visited.end_le (h : Visited sb (ptr dev.blocks ino) id isDir c₀ visitList visitList w c)
    (e : Nat) : ¬ w.end > e ↔ ∀ i, ptr dev.blocks ino (.data i) ≠ 0 → i < e := by
  rw [gt_iff_lt, not_lt, h.end]
  constructor
  · intro hall i h0
    refine hall (i, ptr dev.blocks ino (.data i)) (mem_dataAt.mpr ⟨?_, h0, rfl⟩)
    by_contra hno
    exact h0 (ptr_unvisited hno)
  · rintro hall ⟨i, b⟩ hq
    obtain ⟨-, h0, rfl⟩ := mem_dataAt.mp hq
    exact hall i h0

theorem Visited.map_getD (h : Visited sb (ptr dev.blocks ino) id isDir c₀ visitList visitList w c)
    (i : Nat) : (c.dirBlocks.get id).getD i 0
      = if isDir = true ∧ i < 2 ^ 20 then ptr dev.blocks ino (.data i) else 0 := by
  rw [h.dir]
  by_cases hin : Pos.data i ∈ visitList
  · exact if_congr (by simp [hin]) rfl rfl
  · rw [ptr_unvisited hin]
    simp

/-- The first hole is looked for no further than where the map ends. -/
theorem find_hole {n : Nat} {m : List Nat} :
    (List.range (min n (m.length + 1))).find? (fun i => m.getD i 0 = 0) = none ↔
      ∀ i < n, m.getD i 0 ≠ 0 := by
  rw [List.find?_eq_none]
  simp only [List.mem_range, decide_eq_true_eq, lt_min_iff]
  constructor
  · intro h i hi
    by_cases hl : i < m.length + 1
    · exact h i ⟨hi, hl⟩
    · refine absurd ?_ (h m.length ⟨by omega, by omega⟩)
      rw [List.getD_eq_getElem?_getD, List.getElem?_eq_none (le_refl _)]
      rfl
  · exact fun h i hi => h i hi.1

theorem take_getD (m : List Nat) (n i : Nat) :
    (m.take n).getD i 0 = if i < n then m.getD i 0 else 0 := by
  rw [List.getD_eq_getElem?_getD, List.getD_eq_getElem?_getD, List.getElem?_take]
  split <;> rfl

theorem checkEnd_ends {Q : Unit → Checker → Prop}
    (hQ : ∀ ps n, (Clean ps n ↔ Clean c.problems c.suppressed ∧
    ¬ w.end > ((ino.size + 4096 - 1) / 4096).toNat) →
      Q () { c with problems := ps, suppressed := n }) : (checkEnd id ino w).Ends c Q E :=
  report_ends hQ

theorem checkDirEnd_ends (hid : id < c.dirBlocks.size) {Q : Unit → Checker → Prop}
    (hQ : ∀ ps n t, (Clean ps n ↔ Clean c.problems c.suppressed ∧ ino.size.toNat % 4096 = 0 ∧
        ino.size.toNat / 4096 ≠ 0 ∧ ¬ w.end > ino.size.toNat / 4096 ∧
        ∀ i < ino.size.toNat / 4096, (c.dirBlocks.get id).getD i 0 ≠ 0) →
      t.size = c.dirBlocks.size → (∀ x ≠ id, t.get x = c.dirBlocks.get x) →
      t.get id = (c.dirBlocks.get id).take (ino.size.toNat / 4096) →
      Q () { c with problems := ps, suppressed := n, dirBlocks := t }) :
    (checkDirEnd id ino w).Ends c Q E := by
  unfold checkDirEnd
  dsimp only
  refine report_then fun ps1 n1 h1 => report_then fun ps2 n2 h2 => report_then fun ps3 n3 h3 => ?_
  rw [Prog.ends_bind]
  refine elem_ends (by exact hid) ?_
  generalize hm : c.dirBlocks.get id = m at hQ
  generalize ino.size.toNat / 4096 = n at *
  -- at the end the map is cut off at the size
  have hcut : ∀ ps k, (Clean ps k ↔ Clean ps3 n3 ∧ ∀ i < n, m.getD i 0 ≠ 0) →
      (if m.length > n then setDirBlocks id (m.take n) else pure ()).Ends
        { c with problems := ps, suppressed := k } Q E := by
    intro ps k hps
    have hps' : Clean ps k ↔ Clean c.problems c.suppressed ∧ ino.size.toNat % 4096 = 0 ∧
      n ≠ 0 ∧ ¬ w.end > n ∧
        ∀ i < n, m.getD i 0 ≠ 0 := by
      rw [hps, h3, h2, h1, not_not]
      simp only [and_assoc, ne_eq]
    by_cases hl : m.length > n
    · rw [if_pos hl]
      refine setDirBlocks_ends (by exact hid) (hQ ps k _ hps' rfl (fun x hx => ?_) ?_)
      · exact Function.update_of_ne hx _ _
      · exact Function.update_self _ _ _
    · rw [if_neg hl]
      refine hQ ps k c.dirBlocks hps' rfl (fun _ _ => rfl) ?_
      rw [hm, List.take_of_length_le (by omega)]
  dsimp only
  cases hf : (List.range (min n (m.length + 1))).find? fun i => m.getD i 0 = 0 with
  | some i =>
    rw [Prog.ends_bind]
    refine problem_ends fun ps k hps => hcut ps k ⟨fun h0 => absurd h0 hps, fun h0 => ?_⟩
    rw [find_hole.mpr h0.2] at hf
    cases hf
  | none => exact hcut ps3 n3 (and_iff_left (find_hole.mp hf)).symm

/-- Maps cut off are as much in order. -/
theorem Ok.cut (h : Ok dev sb c) {t : Table (List Nat)} (hsize : t.size = c.dirBlocks.size)
    (hpre : ∀ x, t.get x <+: c.dirBlocks.get x) : Ok dev sb { c with dirBlocks := t } :=
  { inodeBm := h.inodeBm, blockBm := h.blockBm, inodes := h.inodes, kind := h.kind
    owner := h.owner, dirBlocks := hsize.trans h.dirBlocks, refs := h.refs, names := h.names
    reachable := h.reachable, owned := h.owned
    dirs := fun x b hb h0 => h.dirs x b ((hpre x).subset hb) h0
    dirLength := fun x => (hpre x).length_le.trans (h.dirLength x)
    reads := h.reads }

/-- `check_blocks`. -/
theorem checkBlocks_ends (hcount : sb.totalBlocks = dev.count) (hid : id ≠ 0)
    (hlt : id < sb.inodeCount.toNat) (hc : Before dev sb id c) (hino : c.inodes.get id = ino)
    (hdir : decide (c.kind.get id = .dir) = isDir) :
    (checkBlocks dev sb id).Ends c (fun _ c' => Decoded dev sb id ino isDir c c') E := by
  unfold checkBlocks
  rw [Prog.ends_bind]
  refine elem_ends (by rw [hc.ok.inodes]; exact hlt) ?_
  rw [Prog.ends_bind]
  refine elem_ends (by rw [hc.ok.kind]; exact hlt) ?_
  rw [Prog.ends_bind, hino]
  have hdir' : (c.kind.get id = .dir) ↔ isDir = true := by rw [← hdir, decide_eq_true_iff]
  rw [hdir]
  refine (checkPointers_walking hcount hid hlt hc.ok hc.empty).mono (fun w c1 h => ?_)
    fun _ _ hE => hE
  obtain ⟨hclean, hvis⟩ := h.claimed
  refine report_then fun ps1 n1 h1 => report_then fun ps2 n2 h2 => ?_
  have hcommon : Clean ps2 n2 ↔ Clean c.problems c.suppressed ∧
      Claimable sb c.owner.get (ptr dev.blocks ino) Set.univ ∧
      (blocksAt (ptr dev.blocks ino) visitList).length = ino.blockCount.toNat ∧
      ino.size.toNat ≤ maxFileBlocks * 4096 := by
    rw [h2]
    show (Clean ps1 n1 ∧ _) ↔ _
    rw [h1, hclean, not_not, gt_iff_lt, not_lt]
    constructor
    · rintro ⟨⟨⟨hp, hcl⟩, hown⟩, hsz⟩
      exact ⟨hp, hcl, by rw [← (hvis hcl).owned, hown], hsz⟩
    · rintro ⟨hp, hcl, hown, hsz⟩
      exact ⟨⟨⟨hp, hcl⟩, by rw [(hvis hcl).owned, hown]⟩, hsz⟩
  have hok := (h.ok.complain ps1 n1).complain ps2 n2
  have hframe := (h.frame.complain ps1 n1).complain ps2 n2
  by_cases hd : isDir = true
  · rw [if_pos (hdir'.mpr hd)]
    refine checkDirEnd_ends (by show id < c1.dirBlocks.size; rw [h.ok.dirBlocks]; exact hlt)
      fun ps n t hps hsize hothers hmine => ?_
    have hpre : ∀ x, t.get x <+: c1.dirBlocks.get x := fun x => by
      by_cases hx : x = id
      · rw [hx, hmine]
        exact List.take_prefix _ _
      · rw [hothers x hx]
    constructor
    · exact (hok.complain ps n).cut hsize hpre
    · exact ⟨by rw [h.frame.fields], fun x hx => (hothers x hx).trans (h.frame.others x hx),
        h.frame.kept, h.frame.mine⟩
    · exact fun hcl => (hvis hcl).owner
    · intro hcl i
      show (t.get id).getD i 0 = _
      rw [hmine, take_getD, (hvis hcl).map_getD]
      by_cases hi : i < ino.size.toNat / 4096
      · rw [if_pos hi]
        exact if_congr (by simp [hi]) rfl rfl
      · rw [if_neg hi, if_neg fun hc => hi hc.2.2]
    · rw [hps]
      show (Clean ps2 n2 ∧ _) ↔ _
      rw [hcommon]
      constructor
      · rintro ⟨⟨hp, hcl, hb, hsz⟩, hwhole, hsome, hend, hhole⟩
        refine ⟨hp, hcl, hb, hsz, fun hf => ?_, fun _ => hwhole, fun _ => hsome,
          fun _ => ((hvis hcl).end_le _).mp hend, fun _ i hi => ?_⟩
        · rw [hd] at hf
          cases hf
        · have hi0 := hhole i hi
          rw [show (c1.dirBlocks.get id).getD i 0 = _ from (hvis hcl).map_getD i] at hi0
          split at hi0
          · rename_i hcond
            exact ⟨hcond.2, hi0⟩
          · exact absurd rfl hi0
      · rintro ⟨hp, hcl, hb⟩
        refine ⟨⟨hp, hcl, hb.count, hb.size⟩, hb.whole hd, hb.some hd,
          ((hvis hcl).end_le _).mpr (hb.dirEnds hd), fun i hi => ?_⟩
        obtain ⟨hi1, hi0⟩ := hb.noHole hd i hi
        rw [show (c1.dirBlocks.get id).getD i 0 = _ from (hvis hcl).map_getD i, if_pos ⟨hd, hi1⟩]
        exact hi0
  · rw [if_neg fun hc => hd (hdir'.mp hc)]
    refine checkEnd_ends fun ps n hps => ?_
    have hf : isDir = false := by simpa using hd
    constructor
    · exact hok.complain ps n
    · exact hframe.complain ps n
    · exact fun hcl => (hvis hcl).owner
    · intro hcl i
      show (c1.dirBlocks.get id).getD i 0 = _
      rw [(hvis hcl).map_getD, if_neg fun hc => hd hc.1, if_neg fun hc => hd hc.1]
    · rw [hps]
      show (Clean ps2 n2 ∧ _) ↔ _
      rw [hcommon]
      constructor
      · rintro ⟨⟨hp, hcl, hb, hsz⟩, hend⟩
        exact ⟨hp, hcl, hb, hsz, fun _ => ((hvis hcl).end_le _).mp hend, fun hc => absurd hc hd,
          fun hc => absurd hc hd, fun hc => absurd hc hd, fun hc => absurd hc hd⟩
      · rintro ⟨hp, hcl, hb⟩
        exact ⟨⟨hp, hcl, hb.count, hb.size⟩, ((hvis hcl).end_le _).mpr (hb.ends hf)⟩

end Inode

/-! ## All inodes -/

section Device

variable (dev sb)

/-- Inode `x` of the table. -/
def inodeOn (x : Nat) : Inode := inodeIn (dev.blocks (sb.inodeTableStart.toNat + x / 32)) (x % 32)

/-- Bit `x` of the inode bitmap. -/
def marked (x : Nat) : Bool :=
  (Bitmap.load dev.blocks sb.inodeBitmapStart.toNat sb.inodeCount.toNat).bit x

/-- Inode 0 is reserved. -/
def InUse (x : Nat) : Prop := x ≠ 0 ∧ marked dev sb x = true

instance : DecidablePred (InUse dev sb) := fun x =>
  inferInstanceAs (Decidable (x ≠ 0 ∧ marked dev sb x = true))

/-- What an inode is, by the bitmap and its mode. -/
def kindAt (x : Nat) : Kind :=
  if InUse dev sb x then
    if (inodeOn dev sb x).mode = modeFile ||| filePerm then .file
    else if (inodeOn dev sb x).mode = modeDir ||| dirPerm then .dir
    else .bad
  else .none

/-- The blocks of the inodes below `n` can all be claimed. -/
structure Claims (n : Nat) : Prop where
  range : ∀ x < n, InUse dev sb x → ∀ p, ptr dev.blocks (inodeOn dev sb x) p ≠ 0 →
    sb.dataStart.toNat ≤ ptr dev.blocks (inodeOn dev sb x) p ∧
      ptr dev.blocks (inodeOn dev sb x) p < sb.totalBlocks.toNat
  once : ∀ x < n, ∀ y < n, InUse dev sb x → InUse dev sb y → ∀ p q,
    ptr dev.blocks (inodeOn dev sb x) p ≠ 0 →
    ptr dev.blocks (inodeOn dev sb x) p = ptr dev.blocks (inodeOn dev sb y) q → x = y ∧ p = q

/-- What `check_inodes` asks of inode `x`, apart from its blocks' being claimable. -/
structure InodeOk (x : Nat) : Prop where
  reserved : x = 0 → marked dev sb 0 = true
  zero : ¬ InUse dev sb x → inodeOn dev sb x = .zero
  id : InUse dev sb x → (inodeOn dev sb x).id.toNat = x
  mode : kindAt dev sb x ≠ .bad
  links : InUse dev sb x → (inodeOn dev sb x).linkCount ≠ 0
  blocks : InUse dev sb x → BlocksOk dev (inodeOn dev sb x) (decide (kindAt dev sb x = .dir))

/-- What the tables are like when the inodes below `n` have been checked. -/
structure Passed (c₁ : Checker) (n : Nat) (c : Checker) : Prop where
  ok : Ok dev sb c
  fields : c =
    { c₁ with
      problems := c.problems
      suppressed := c.suppressed
      inodesUsed := c.inodesUsed
      kind := c.kind
      owner := c.owner
      dirBlocks := c.dirBlocks
      reads := c.reads }
  kind : ∀ x, c.kind.get x = if x < n then kindAt dev sb x else .none
  fresh : ∀ b, c.owner.get b = 0 ∨ c.owner.get b < n
  empty : ∀ x, n ≤ x → c.dirBlocks.get x = []
  owner : Claims dev sb n → ∀ b x, x ≠ 0 → (c.owner.get b = x ↔ x < n ∧ InUse dev sb x ∧
    b ∈ blocksAt (ptr dev.blocks (inodeOn dev sb x)) visitList)
  dirs : Claims dev sb n → ∀ x < n, InUse dev sb x → ∀ i, (c.dirBlocks.get x).getD i 0 =
    if kindAt dev sb x = .dir ∧ i < 2 ^ 20 ∧ i < (inodeOn dev sb x).size.toNat / 4096
    then ptr dev.blocks (inodeOn dev sb x) (.data i) else 0
  used : c.inodesUsed
    = c₁.inodesUsed + UInt32.ofNat ((Finset.range n).filter (InUse dev sb)).card
  clean : Clean c.problems c.suppressed ↔
    Clean c₁.problems c₁.suppressed ∧ Claims dev sb n ∧ ∀ x < n, InodeOk dev sb x

end Device

section Inodes

variable {c c₁ : Checker} {n : Nat} {E : Stop → Checker → Prop}

theorem Claims.mono {m : Nat} (h : Claims dev sb m) (hn : n ≤ m) : Claims dev sb n :=
  ⟨fun x hx => h.range x (by omega), fun x hx y hy => h.once x (by omega) y (by omega)⟩

theorem claims_zero : Claims dev sb 0 := ⟨nofun, nofun⟩

/-- An inode that is not in use claims nothing. -/
theorem claims_idle (hn : ¬ InUse dev sb n) : Claims dev sb (n + 1) ↔ Claims dev sb n := by
  refine ⟨fun h => h.mono (by omega), fun h => ⟨fun x hx hu => ?_, fun x hx y hy hux huy => ?_⟩⟩
  · exact h.range x (by have : x ≠ n := by rintro rfl; exact hn hu
                        omega) hu
  · have hxn : x ≠ n := by
      rintro rfl
      exact hn hux
    have hyn : y ≠ n := by
      rintro rfl
      exact hn huy
    exact h.once x (by omega) y (by omega) hux huy

theorem mem_visited {x b : Nat} : b ∈ blocksAt (ptr dev.blocks (inodeOn dev sb x)) visitList ↔
    b ≠ 0 ∧ ∃ p, ptr dev.blocks (inodeOn dev sb x) p = b := by
  rw [mem_blocksAt]
  refine and_congr_right fun h0 => ⟨fun ⟨p, _, hp⟩ => ⟨p, hp⟩, fun ⟨p, hp⟩ => ⟨p, ?_, hp⟩⟩
  by_contra hno
  exact h0 (hp.symm.trans (ptr_unvisited hno))

/-- One in use can claim its blocks if they are not those of the inodes before it. -/
theorem Passed.claims_succ (h : Passed dev sb c₁ n c) (hn : InUse dev sb n) (hc : Claims dev sb n) :
    Claims dev sb (n + 1) ↔
      Claimable sb c.owner.get (ptr dev.blocks (inodeOn dev sb n)) Set.univ := by
  constructor
  · intro hc'
    refine ⟨fun p _ => hc'.range n (by omega) hn p, fun p _ h0 => ?_, fun p _ q _ h0 heq => ?_⟩
    · by_contra hne
      obtain ⟨hlt, hu, hin⟩ := (h.owner hc _ _ hne).mp rfl
      obtain ⟨-, q, hq⟩ := mem_visited.mp hin
      have := (hc'.once n (by omega) _ (by omega) hn hu p q h0 hq.symm).1
      omega
    · exact (hc'.once n (by omega) n (by omega) hn hn p q h0 heq).2
  · intro hcl
    have hold : ∀ x, x < n → InUse dev sb x → ∀ p q, ptr dev.blocks (inodeOn dev sb n) p ≠ 0 →
        ptr dev.blocks (inodeOn dev sb n) p ≠ ptr dev.blocks (inodeOn dev sb x) q := by
      intro x hx hu p q h0 heq
      have hfree := hcl.free p (Set.mem_univ p) h0
      have hown := (h.owner hc (ptr dev.blocks (inodeOn dev sb n) p) x hu.1).mpr
        ⟨hx, hu, mem_visited.mpr ⟨h0, q, heq.symm⟩⟩
      exact hu.1 (hown.symm.trans hfree)
    refine ⟨fun x hx hu p h0 => ?_, fun x hx y hy hux huy p q h0 heq => ?_⟩
    · rcases Nat.lt_succ_iff_lt_or_eq.mp hx with hx | rfl
      · exact hc.range x hx hu p h0
      · exact hcl.range p (Set.mem_univ p) h0
    · rcases Nat.lt_succ_iff_lt_or_eq.mp hx with hx | rfl <;>
        rcases Nat.lt_succ_iff_lt_or_eq.mp hy with hy | rfl
      · exact hc.once x hx y hy hux huy p q h0 heq
      · exact absurd heq.symm (hold x hx hux q p (heq ▸ h0))
      · exact absurd heq (hold y hy huy p q h0)
      · exact ⟨rfl, hcl.once p (Set.mem_univ p) q (Set.mem_univ q) h0 heq⟩

theorem forall_lt_succ {P : Nat → Prop} : (∀ x < n + 1, P x) ↔ (∀ x < n, P x) ∧ P n := by
  constructor
  · exact fun h => ⟨fun x hx => h x (by omega), h n (by omega)⟩
  · rintro ⟨h1, h2⟩ x hx
    rcases Nat.lt_succ_iff_lt_or_eq.mp hx with hx | rfl
    · exact h1 x hx
    · exact h2

/-- An inode that is not in use leaves the tables as they are. -/
theorem Passed.idle (h : Passed dev sb c₁ n c) (hn : ¬ InUse dev sb n) {ps : List String} {k : Nat}
    (hps : Clean ps k ↔ Clean c.problems c.suppressed ∧ InodeOk dev sb n) :
    Passed dev sb c₁ (n + 1) { c with problems := ps, suppressed := k } where
  ok := h.ok.complain ps k
  fields := by rw [h.fields]
  kind x := by
    refine (h.kind x).trans ?_
    by_cases hx : x = n
    · rw [hx, if_neg (by omega), if_pos (by omega)]
      exact (if_neg hn).symm
    · exact if_congr (by omega) rfl rfl
  fresh b := (h.fresh b).imp_right fun hb => by
    show c.owner.get b < n + 1
    omega
  empty x hx := h.empty x (by omega)
  owner hc b x hx := by
    refine (h.owner (hc.mono (by omega)) b x hx).trans
      ⟨fun ⟨h1, h2⟩ => ⟨by omega, h2⟩, fun ⟨h1, h2⟩ => ?_⟩
    refine ⟨?_, h2⟩
    have : x ≠ n := by
      rintro rfl
      exact hn h2.1
    omega
  dirs hc x hx hu := h.dirs (hc.mono (by omega)) x (by
    have : x ≠ n := by
      rintro rfl
      exact hn hu
    omega) hu
  used := by
    rw [Finset.range_add_one, Finset.filter_insert, if_neg hn]
    exact h.used
  clean := by
    show Clean ps k ↔ _
    rw [hps, h.clean, claims_idle hn, forall_lt_succ]
    simp only [and_assoc]

/-- The inode's kind is known, its blocks are not looked at yet. -/
theorem Passed.before (h : Passed dev sb c₁ n c) (hn : InUse dev sb n)
    (ps : List String) (k : Nat) :
    Before dev sb n
      { c with
        problems := ps, suppressed := k, inodesUsed := c.inodesUsed + 1
        kind := c.kind.set n (kindAt dev sb n) } where
  ok :=
    { inodeBm := h.ok.inodeBm, blockBm := h.ok.blockBm, inodes := h.ok.inodes, kind := h.ok.kind
      owner := h.ok.owner, dirBlocks := h.ok.dirBlocks, refs := h.ok.refs, names := h.ok.names
      reachable := h.ok.reachable, owned := h.ok.owned, dirs := h.ok.dirs
      dirLength := h.ok.dirLength, reads := h.ok.reads }
  fresh b hb := by
    rcases h.fresh b with h0 | hlt
    · exact hn.1 (hb.symm.trans h0)
    · exact absurd (hb ▸ hlt) (lt_irrefl n)
  empty := h.empty n (le_refl n)

/-- An inode in use is checked. -/
theorem Passed.next (h : Passed dev sb c₁ n c) (hn : InUse dev sb n) {ps : List String} {k : Nat}
    (hps : Clean ps k ↔ Clean c.problems c.suppressed ∧ (inodeOn dev sb n).id.toNat = n ∧
    kindAt dev sb n ≠ .bad ∧
      (inodeOn dev sb n).linkCount ≠ 0) {c' : Checker}
    (hd : Decoded dev sb n (inodeOn dev sb n) (decide (kindAt dev sb n = .dir))
      { c with
        problems := ps, suppressed := k, inodesUsed := c.inodesUsed + 1
        kind := c.kind.set n (kindAt dev sb n) } c') :
    Passed dev sb c₁ (n + 1) c' where
  ok := hd.ok
  fields := by rw [hd.frame.fields, h.fields]
  kind x := by
    rw [hd.frame.fields]
    show Function.update c.kind.get n (kindAt dev sb n) x = _
    by_cases hx : x = n
    · rw [hx, Function.update_self, if_pos (by omega)]
    · rw [Function.update_of_ne hx, h.kind]
      exact if_congr (by omega) rfl rfl
  fresh b := by
    have hold := h.fresh b
    rcases hd.frame.mine b with heq | heq
    · rw [heq]
      exact hold.imp_right fun hlt => by
        show c.owner.get b < n + 1
        omega
    · exact .inr (by omega)
  empty x hx := (hd.frame.others x (by omega)).trans (h.empty x (by omega))
  owner hc b x hx := by
    have hcn : Claims dev sb n := hc.mono (by omega)
    have hcl := (h.claims_succ hn hcn).mp hc
    rw [hd.owner hcl]
    by_cases hb : b ∈ blocksAt (ptr dev.blocks (inodeOn dev sb n)) visitList
    · rw [if_pos hb]
      constructor
      · rintro rfl
        exact ⟨by omega, hn, hb⟩
      · rintro ⟨hlt, hu, hin⟩
        obtain ⟨h0, p, hp⟩ := mem_visited.mp hb
        obtain ⟨-, q, hq⟩ := mem_visited.mp hin
        exact (hc.once n (by omega) x hlt hn hu p q (hp ▸ h0) (hp.trans hq.symm)).1
    · rw [if_neg hb]
      refine (h.owner hcn b x hx).trans ⟨fun ⟨h1, h2⟩ => ⟨by omega, h2⟩,
        fun ⟨h1, h2, h3⟩ => ⟨?_, h2, h3⟩⟩
      have : x ≠ n := by
        rintro rfl
        exact hb h3
      omega
  dirs hc x hx hu i := by
    have hcn : Claims dev sb n := hc.mono (by omega)
    rcases Nat.lt_succ_iff_lt_or_eq.mp hx with hx | rfl
    · rw [hd.frame.others x (by omega)]
      exact h.dirs hcn x hx hu i
    · rw [hd.dir ((h.claims_succ hn hcn).mp hc)]
      exact if_congr (by rw [decide_eq_true_iff]) rfl rfl
  used := by
    rw [hd.frame.fields, Finset.range_add_one, Finset.filter_insert, if_pos hn,
      Finset.card_insert_of_notMem (by simp)]
    show c.inodesUsed + 1 = _
    rw [h.used, UInt32.ofNat_add, UInt32.add_assoc]
    rfl
  clean := by
    rw [hd.clean]
    show (Clean ps k ∧ Claimable sb c.owner.get _ _ ∧ _) ↔ _
    rw [hps, h.clean, forall_lt_succ]
    constructor
    · rintro ⟨⟨⟨h1, hc, h2⟩, h3, h4, h5⟩, hcl, hb⟩
      exact ⟨h1, (h.claims_succ hn hc).mpr hcl, h2, fun h0 => absurd h0 hn.1, fun hno =>
        absurd hn hno,
        fun _ => h3, h4, fun _ => h5, fun _ => hb⟩
    · rintro ⟨h1, hc, h2, hok⟩
      have hcn : Claims dev sb n := hc.mono (by omega)
      exact ⟨⟨⟨h1, hcn, h2⟩, hok.id hn, hok.mode, hok.links hn⟩, (h.claims_succ hn hcn).mp hc,
        hok.blocks hn⟩

theorem isSet_ends {bm : Checker → Bitmap} {i : Nat} (hi : i < (bm c).nbits)
    {Q : Bool → Checker → Prop} (hQ : Q ((bm c).bit i) c) : (isSet bm i).Ends c Q E := by
  unfold isSet
  rw [Prog.ends_bind, Prog.ends_view, Bitmap.isSet_of_lt hi]
  exact hQ

theorem setKind_ends {id : Nat} {k : Kind} (hi : id < c.kind.size) {Q : Unit → Checker → Prop}
    (hQ : Q () { c with kind := c.kind.set id k }) : (setKind id k).Ends c Q E := by
  unfold setKind
  rw [Prog.ends_bind]
  exact elem_ends hi ((Prog.ends_change _).mpr hQ)

/-- The inode table and its bitmap have been read. -/
structure Loaded (dev : Device) (sb : Superblock) (c₁ : Checker) : Prop where
  inodes : ∀ x, c₁.inodes.get x = inodeOn dev sb x
  inodeBm : c₁.inodeBm = .load dev.blocks sb.inodeBitmapStart.toNat sb.inodeCount.toNat

/-- The body of the loop of `check_inodes`. -/
theorem checkInode_ends (hcount : sb.totalBlocks = dev.count) (hl : Loaded dev sb c₁)
    (h : Passed dev sb c₁ n c) (hlt : n < sb.inodeCount.toNat) :
    (checkInode dev sb n).Ends c (fun _ c' => Passed dev sb c₁ (n + 1) c') E := by
  have hino : c.inodes.get n = inodeOn dev sb n := by rw [h.fields, hl.inodes]
  have hbit : c.inodeBm.bit n = marked dev sb n := by
    rw [h.fields, hl.inodeBm]
    rfl
  unfold checkInode
  rw [Prog.ends_bind]
  refine elem_ends (by rw [h.ok.inodes]; exact hlt) ?_
  rw [Prog.ends_bind, hino]
  refine isSet_ends (by rw [h.ok.inodeBm]; exact hlt) ?_
  rw [hbit]
  by_cases h0 : n = 0
  · subst h0
    have hno : ¬ InUse dev sb 0 := fun hu => hu.1 rfl
    rw [if_pos rfl]
    refine report_then fun ps k hps => report_then fun ps' k' hps' => h.idle hno ?_
    rw [hps']
    show (Clean ps k ∧ _) ↔ _
    rw [hps, not_not, not_not, and_assoc]
    refine and_congr_right fun _ => ⟨fun ⟨h1, h2⟩ => ?_, fun hok =>
      ⟨hok.reserved rfl, hok.zero hno⟩⟩
    exact ⟨fun _ => h1, fun _ => h2, fun hu => absurd hu hno,
      by rw [kindAt, if_neg hno]; exact nofun,
      fun hu => absurd hu hno, fun hu => absurd hu hno⟩
  rw [if_neg h0]
  by_cases hm : marked dev sb n = true
  swap
  · have hno : ¬ InUse dev sb n := fun hu => hm hu.2
    rw [if_pos hm]
    refine report_then fun ps k hps => h.idle hno ?_
    rw [hps, not_not]
    refine and_congr_right fun _ => ⟨fun h2 => ?_, fun hok => hok.zero hno⟩
    exact ⟨fun hz => absurd hz h0, fun _ => h2, fun hu => absurd hu hno,
      by rw [kindAt, if_neg hno]; exact nofun, fun hu => absurd hu hno, fun hu => absurd hu hno⟩
  have hu : InUse dev sb n := ⟨h0, hm⟩
  rw [if_neg (not_not.mpr hm), Prog.ends_bind, Prog.ends_change]
  refine report_then fun ps k hps => ?_
  have hsize : n < c.kind.size := by rw [h.ok.kind]; exact hlt
  -- what is left once the kind has been recorded
  have hrest : ∀ ps k, (Clean ps k ↔ Clean c.problems c.suppressed ∧
    (inodeOn dev sb n).id.toNat = n ∧
      kindAt dev sb n ≠ .bad) →
      (if (inodeOn dev sb n).linkCount = 0 then
        problem ("inode " ++ str n ++ " is in use but has link_count 0") >>= fun _ =>
          checkBlocks dev sb n
        else checkBlocks dev sb n).Ends
      { c with
        problems := ps, suppressed := k, inodesUsed := c.inodesUsed + 1
        kind := c.kind.set n (kindAt dev sb n) }
      (fun _ c' => Passed dev sb c₁ (n + 1) c') E := by
    intro ps k hps
    refine report_then (k := fun _ => checkBlocks dev sb n) fun ps' k' hps' => ?_
    have hkind : decide (Function.update c.kind.get n (kindAt dev sb n) n = .dir)
        = decide (kindAt dev sb n = .dir) := by rw [Function.update_self]
    refine (checkBlocks_ends hcount h0 hlt (h.before hu ps' k') hino hkind).mono
      (fun _ c' hd => h.next hu ?_ hd) fun _ _ hE => hE
    rw [hps']
    show (Clean ps k ∧ _) ↔ _
    rw [hps]
    simp only [and_assoc, ne_eq]
  by_cases hfile : (inodeOn dev sb n).mode = modeFile ||| filePerm
  · rw [if_pos hfile, Prog.ends_bind]
    have hk : kindAt dev sb n = .file := by rw [kindAt, if_pos hu, if_pos hfile]
    refine setKind_ends (by exact hsize) ?_
    have := hrest ps k (by rw [hps, not_not, hk]; simp)
    rw [hk] at this
    exact this
  rw [if_neg hfile]
  by_cases hdir : (inodeOn dev sb n).mode = modeDir ||| dirPerm
  · rw [if_pos hdir, Prog.ends_bind]
    have hk : kindAt dev sb n = .dir := by rw [kindAt, if_pos hu, if_neg hfile, if_pos hdir]
    refine setKind_ends (by exact hsize) ?_
    have := hrest ps k (by rw [hps, not_not, hk]; simp)
    rw [hk] at this
    exact this
  · rw [if_neg hdir, Prog.ends_bind]
    have hk : kindAt dev sb n = .bad := by rw [kindAt, if_pos hu, if_neg hfile, if_neg hdir]
    refine problem_ends fun ps' k' hps' => ?_
    rw [Prog.ends_bind]
    refine setKind_ends (by exact hsize) ?_
    have := hrest ps' k' ⟨fun hn => absurd hn hps', fun hn => absurd hk hn.2.2⟩
    rw [hk] at this
    exact this

/-- `check_inodes`. -/
theorem checkInodes_ends (hcount : sb.totalBlocks = dev.count) (hl : Loaded dev sb c₁)
    (h : Passed dev sb c₁ 0 c₁) :
    (checkInodes dev sb).Ends c₁ (fun _ c' => ∃ c'' ps k, Passed dev sb c₁ sb.inodeCount.toNat c'' ∧
      c' = { c'' with problems := ps, suppressed := k } ∧
      (Clean ps k ↔ Clean c''.problems c''.suppressed ∧ rootInode < sb.inodeCount.toNat ∧
        kindAt dev sb rootInode = .dir)) E := by
  unfold checkInodes
  rw [Prog.ends_bind]
  refine (Prog.ends_forM_range (I := fun n c => Passed dev sb c₁ n c) h fun n hn c hc =>
    checkInode_ends hcount hl hc hn).mono (fun _ c' h' => ?_) fun _ _ hE => hE
  dsimp only
  by_cases hroot : sb.inodeCount.toNat ≤ rootInode
  · rw [if_pos hroot]
    refine problem_ends fun ps k hps => ⟨c', ps, k, h', rfl, fun h0 => absurd h0 hps, fun h0 => ?_⟩
    exact absurd h0.2.1 (by omega)
  · have hlt : rootInode < sb.inodeCount.toNat := by omega
    rw [if_neg hroot, Prog.ends_bind]
    refine elem_ends (by rw [h'.ok.kind]; exact hlt) ?_
    rw [h'.kind, if_pos hlt]
    refine report_ends fun ps k hps => ⟨c', ps, k, h', rfl, ?_⟩
    rw [hps, not_not, and_iff_right hlt]

end Inodes

end ConcurrentFs.Fsck
