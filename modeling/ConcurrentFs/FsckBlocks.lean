/-
  ConcurrentFs.FsckBlocks

  The checker's own decoding of an inode's pointers.  `Ok` is what the tables of
  the checker are like at any time; the rules say what each of its actions does
  to them.

  Going through the pointers of an inode, the checker either finds every one of
  them claimable (in range, nobody's, and none twice), and then has visited them
  all and recorded them, or has reported a problem: that disjunction is the loop
  invariant `Walking`.
-/
import ConcurrentFs.Fsck
import ConcurrentFs.Mkfs
import ConcurrentFs.PointerTree

namespace ConcurrentFs.Fsck

open Lib

variable {dev : Device} {sb : Superblock}

/-- The tables have their sizes, and what is in them is in order. -/
structure Ok (dev : Device) (sb : Superblock) (c : Checker) : Prop where
  inodeBm : c.inodeBm.nbits = sb.inodeCount.toNat
  blockBm : c.blockBm.nbits = sb.totalBlocks.toNat
  inodes : c.inodes.size = sb.inodeCount.toNat
  kind : c.kind.size = sb.inodeCount.toNat
  owner : c.owner.size = sb.totalBlocks.toNat
  dirBlocks : c.dirBlocks.size = sb.inodeCount.toNat
  refs : c.refs.size = sb.inodeCount.toNat
  names : c.names.size = sb.inodeCount.toNat
  reachable : c.reachable.size = sb.inodeCount.toNat
  /-- An owner is recorded for data blocks only. -/
  owned : ∀ b, c.owner.get b ≠ 0 → sb.dataStart.toNat ≤ b ∧ b < sb.totalBlocks.toNat
  /-- The blocks recorded for a directory are its own. -/
  dirs : ∀ id, ∀ b ∈ c.dirBlocks.get id, b ≠ 0 → id ≠ 0 ∧ c.owner.get b = id
  dirLength : ∀ id, (c.dirBlocks.get id).length ≤ 2 ^ 20
  /-- Every block read is on the device, and an indirect or directory block is its inode's. -/
  reads : ∀ r ∈ c.reads, r.block < dev.count.toNat ∧
    ∀ id, r.use = .indirect id ∨ r.use = .directory id → id ≠ 0 ∧ r.owner = id

/-- No problem has been reported, listed or only counted. -/
def Clean (problems : List String) (suppressed : Nat) : Prop := problems = [] ∧ suppressed = 0

/-- Problems are none of the tables' business. -/
theorem Ok.complain {c : Checker} (h : Ok dev sb c) (ps : List String) (n : Nat) :
    Ok dev sb { c with problems := ps, suppressed := n } :=
  { inodeBm := h.inodeBm, blockBm := h.blockBm, inodes := h.inodes, kind := h.kind
    owner := h.owner, dirBlocks := h.dirBlocks, refs := h.refs, names := h.names
    reachable := h.reachable, owned := h.owned, dirs := h.dirs, dirLength := h.dirLength
    reads := h.reads }

/-! ## Rules for the actions -/

section Rules

variable {c : Checker} {E : Stop → Checker → Prop}

theorem problem_ends {what : String} {Q : Unit → Checker → Prop}
    (hQ : ∀ ps n, ¬ Clean ps n → Q () { c with problems := ps, suppressed := n }) :
    (problem what).Ends c Q E := by
  unfold problem
  rw [Prog.ends_change]
  by_cases h : c.problems.length < 200
  · rw [if_pos h]
    exact hQ (c.problems ++ [what]) c.suppressed (by simp [Clean])
  · rw [if_neg h]
    exact hQ c.problems (c.suppressed + 1) (by simp [Clean])

/-- A problem, if there is cause. -/
theorem report_ends {P : Prop} [Decidable P] {what : String} {Q : Unit → Checker → Prop}
    (hQ : ∀ ps n, (Clean ps n ↔ Clean c.problems c.suppressed ∧ ¬ P) →
    Q () { c with problems := ps, suppressed := n }) :
    (if P then problem what else pure ()).Ends c Q E := by
  by_cases h : P
  · rw [if_pos h]
    exact problem_ends fun ps n hps => hQ ps n ⟨fun h0 => absurd h0 hps, fun h0 => absurd h h0.2⟩
  · rw [if_neg h]
    exact hQ c.problems c.suppressed ⟨fun h0 => ⟨h0, h⟩, fun h0 => h0.1⟩

/-- The same, and on with `k`. -/
theorem report_then {P : Prop} [Decidable P] {what : String} {α : Type} {k : Unit → Check α}
    {Q : α → Checker → Prop}
    (hQ : ∀ ps n, (Clean ps n ↔ Clean c.problems c.suppressed ∧ ¬ P) →
      (k ()).Ends { c with problems := ps, suppressed := n } Q E) :
    (if P then problem what >>= k else k ()).Ends c Q E := by
  have h : (if P then problem what else pure ()).Ends c (fun a c' => (k a).Ends c' Q E) E :=
    report_ends hQ
  rw [← Prog.ends_bind] at h
  by_cases hP : P
  · rw [if_pos hP] at h ⊢
    exact h
  · rw [if_neg hP] at h ⊢
    exact h

theorem elem_ends {α : Type} {t : Checker → Table α} {i : Nat} (hi : i < (t c).size)
    {Q : α → Checker → Prop} (hQ : Q ((t c).get i) c) : (elem t i).Ends c Q E := by
  unfold elem
  rw [Prog.ends_bind, Prog.ends_view, if_pos hi]
  exact hQ

theorem setOwner_ends {b id : Nat} (hb : b < c.owner.size) {Q : Unit → Checker → Prop}
    (hQ : Q () { c with owner := c.owner.set b id }) : (setOwner b id).Ends c Q E := by
  unfold setOwner
  rw [Prog.ends_bind]
  exact elem_ends hb ((Prog.ends_change _).mpr hQ)

theorem setDirBlocks_ends {id : Nat} {bs : List Nat} (hi : id < c.dirBlocks.size)
    {Q : Unit → Checker → Prop} (hQ : Q () { c with dirBlocks := c.dirBlocks.set id bs }) :
    (setDirBlocks id bs).Ends c Q E := by
  unfold setDirBlocks
  rw [Prog.ends_bind]
  exact elem_ends hi ((Prog.ends_change _).mpr hQ)

theorem read_ends {b : Nat} {use : Use} (hb : b < dev.count.toNat) {Q : Block → Checker → Prop}
    (hQ : Q (dev.blocks b) { c with reads := c.reads ++ [⟨b, use, c.owner.get b⟩] }) :
    (read dev b use).Ends c Q E := by
  unfold read
  rw [if_pos hb, Prog.ends_bind, Prog.ends_change]
  exact hQ

/-- Reading an indirect block or a block of a directory that is the inode's. -/
theorem Ok.read (h : Ok dev sb c) {b : Nat} {use : Use} (hb : b < dev.count.toNat)
    (huse : ∀ x, use = .indirect x ∨ use = .directory x → x ≠ 0 ∧ c.owner.get b = x) :
    Ok dev sb { c with reads := c.reads ++ [⟨b, use, c.owner.get b⟩] } :=
  { inodeBm := h.inodeBm, blockBm := h.blockBm, inodes := h.inodes, kind := h.kind
    owner := h.owner, dirBlocks := h.dirBlocks, refs := h.refs, names := h.names
    reachable := h.reachable, owned := h.owned, dirs := h.dirs, dirLength := h.dirLength
    reads := fun r hr => by
      rcases List.mem_append.mp hr with hr | hr
      · exact h.reads r hr
      · rw [List.mem_singleton.mp hr]
        exact ⟨hb, huse⟩ }

/-- A block that is nobody's becomes the inode's. -/
theorem Ok.claim (h : Ok dev sb c) {b id : Nat} (h1 : sb.dataStart.toNat ≤ b)
    (h2 : b < sb.totalBlocks.toNat) (hfree : c.owner.get b = 0) :
    Ok dev sb { c with owner := c.owner.set b id } :=
  { inodeBm := h.inodeBm, blockBm := h.blockBm, inodes := h.inodes, kind := h.kind
    owner := h.owner, dirBlocks := h.dirBlocks, refs := h.refs, names := h.names
    reachable := h.reachable
    owned := fun B hB => by
      by_cases hb : B = b
      · rw [hb]
        exact ⟨h1, h2⟩
      · have hB : Function.update c.owner.get b id B ≠ 0 := hB
        rw [Function.update_of_ne hb] at hB
        exact h.owned B hB
    dirs := fun x B hB hB0 => by
      obtain ⟨hx, hown⟩ := h.dirs x B hB hB0
      refine ⟨hx, ?_⟩
      show Function.update c.owner.get b id B = x
      rw [Function.update_of_ne (by rintro rfl; exact hx (hown.symm.trans hfree)), hown]
    dirLength := h.dirLength, reads := h.reads }

/-- `claim`: the block becomes the inode's, or a problem is reported. -/
theorem claim_ends (h : Ok dev sb c) {id b : Nat} (hid : id ≠ 0) {p : Ptr} {index : Nat}
    {Q : Bool → Checker → Prop}
    (hmine : sb.dataStart.toNat ≤ b → b < sb.totalBlocks.toNat → c.owner.get b = 0 →
      Q true { c with owner := c.owner.set b id })
    (hnot : (sb.dataStart.toNat ≤ b → b < sb.totalBlocks.toNat → c.owner.get b ≠ 0) →
      ∀ ps n, ¬ Clean ps n → Q false { c with problems := ps, suppressed := n }) :
    (claim sb id b p index).Ends c Q E := by
  have hfail : ∀ what, (sb.dataStart.toNat ≤ b → b < sb.totalBlocks.toNat → c.owner.get b ≠ 0) →
      (problem what >>= fun _ => (pure false : Check Bool)).Ends c Q E := fun what hbad =>
    (Prog.ends_bind _).mpr (problem_ends fun ps n hps => hnot hbad ps n hps)
  unfold claim
  by_cases hr : b < sb.dataStart.toNat ∨ b ≥ sb.totalBlocks.toNat
  · rw [if_pos hr]
    exact hfail _ fun h1 h2 => absurd hr (by omega)
  rw [if_neg hr]
  show (elem Checker.owner b >>= _).Ends c Q E
  rw [Prog.ends_bind]
  refine elem_ends (by rw [h.owner]; omega) ?_
  by_cases ho : c.owner.get b = id
  · rw [if_pos ho]
    exact hfail _ fun _ _ => by rw [ho]; exact hid
  rw [if_neg ho]
  by_cases h0 : c.owner.get b ≠ 0
  · rw [if_pos h0]
    exact hfail _ fun _ _ => h0
  rw [if_neg h0]
  show (setOwner b id >>= _).Ends c Q E
  rw [Prog.ends_bind]
  exact setOwner_ends (by rw [h.owner]; omega) (hmine (by omega) (by omega) (by simpa using h0))

end Rules

/-! ## Going through the pointers of an inode -/

/-- The blocks at the positions of `S` can be claimed: in range, nobody's, and none twice. -/
structure Claimable (sb : Superblock) (owner : Nat → Nat) (f : Pos → Nat) (S : Set Pos) : Prop where
  range : ∀ p ∈ S, f p ≠ 0 → sb.dataStart.toNat ≤ f p ∧ f p < sb.totalBlocks.toNat
  free : ∀ p ∈ S, f p ≠ 0 → owner (f p) = 0
  once : ∀ p ∈ S, ∀ q ∈ S, f p ≠ 0 → f p = f q → p = q

/-- The calls of `data` for the positions of a list. -/
def dataAt (f : Pos → Nat) (L : List Pos) : List (Nat × Nat) :=
  L.filterMap fun p => match p with
    | .data i => if f p = 0 then none else some (i, f p)
    | _ => none

/-- What `check_blocks` has kept after one pointer that is no hole. -/
def visit (f : Pos → Nat) (p : Pos) (w : Walked) : Walked :=
  match p with
  | .data i => ⟨w.owned + 1, max w.end (i + 1), w.data ++ [(i, f p)]⟩
  | _ => { w with owned := w.owned + 1 }

section Walk

variable (dev sb) (f : Pos → Nat) (id : Nat) (isDir : Bool) (c₀ : Checker)

/-- The pointers at the positions of `L` have been claimed and counted, and the directory's map has
    those at the positions of `D`. -/
structure Visited (L D : List Pos) (w : Walked) (c : Checker) : Prop where
  claimable : Claimable sb c₀.owner.get f {p | p ∈ L}
  problems : c.problems = c₀.problems
  suppressed : c.suppressed = c₀.suppressed
  owner : ∀ b, c.owner.get b = if b ∈ blocksAt f L then id else c₀.owner.get b
  dir : ∀ i, (c.dirBlocks.get id).getD i 0
    = if isDir = true ∧ i < 2 ^ 20 ∧ Pos.data i ∈ D then f (.data i) else 0
  owned : w.owned = (blocksAt f L).length
  data : w.data = dataAt f L
  «end» : ∀ e, w.end ≤ e ↔ ∀ q ∈ dataAt f L, q.1 < e

/-- Nothing but what `check_blocks` may touch has changed. -/
structure Frame (c : Checker) : Prop where
  fields : c =
    { c₀ with
      owner := c.owner
      dirBlocks := c.dirBlocks
      reads := c.reads
      problems := c.problems
      suppressed := c.suppressed }
  others : ∀ x, x ≠ id → c.dirBlocks.get x = c₀.dirBlocks.get x
  kept : ∀ b, c₀.owner.get b ≠ 0 → c.owner.get b = c₀.owner.get b
  mine : ∀ b, c.owner.get b = c₀.owner.get b ∨ c.owner.get b = id

/-- The invariant: so far all is well, or a problem has been reported and there was cause for it. -/
structure Walking (L D : List Pos) (w : Walked) (c : Checker) : Prop where
  ok : Ok dev sb c
  frame : Frame id c₀ c
  either : Visited sb f id isDir c₀ L D w c ∨
    ¬ Clean c.problems c.suppressed ∧ ¬ Claimable sb c₀.owner.get f Set.univ

end Walk

section Steps

variable {f : Pos → Nat} {id : Nat} {isDir : Bool} {c₀ c : Checker} {L D : List Pos} {w : Walked}
  {E : Stop → Checker → Prop}

theorem dataAt_append (L L' : List Pos) : dataAt f (L ++ L') = dataAt f L ++ dataAt f L' := by
  simp [dataAt]

/-- One more pointer, not a hole, in what has been counted. -/
theorem visit_spec {p : Pos} (h0 : f p ≠ 0) (h1 : w.owned = (blocksAt f L).length)
    (h2 : w.data = dataAt f L) (h3 : ∀ e, w.end ≤ e ↔ ∀ q ∈ dataAt f L, q.1 < e) :
    (visit f p w).owned = (blocksAt f (L ++ [p])).length ∧
      (visit f p w).data = dataAt f (L ++ [p]) ∧
      ∀ e, (visit f p w).end ≤ e ↔ ∀ q ∈ dataAt f (L ++ [p]), q.1 < e := by
  rw [blocksAt_append, blocksAt_singleton h0, List.length_append, List.length_singleton,
    dataAt_append]
  cases p with
  | data i =>
    have hd : dataAt f [.data i] = [(i, f (.data i))] := by simp [dataAt, h0]
    rw [hd]
    refine ⟨by simp [visit, h1], by simp [visit, h2], fun e => ?_⟩
    show max w.end (i + 1) ≤ e ↔ _
    rw [max_le_iff, h3]
    simp only [List.mem_append, List.mem_singleton, or_imp, forall_and, forall_eq, Nat.succ_le_iff]
  | single =>
    exact ⟨by simp [visit, h1], by simp [visit, h2, dataAt],
      by simpa [visit, dataAt] using h3⟩
  | double =>
    exact ⟨by simp [visit, h1], by simp [visit, h2, dataAt],
      by simpa [visit, dataAt] using h3⟩
  | second j =>
    exact ⟨by simp [visit, h1], by simp [visit, h2, dataAt],
      by simpa [visit, dataAt] using h3⟩

/-- A hole adds nothing. -/
theorem dataAt_hole {ps : List Pos} (h : ∀ p ∈ ps, f p = 0) : dataAt f ps = [] := by
  unfold dataAt
  rw [List.filterMap_eq_nil_iff]
  intro p hp
  cases p with
  | data i => exact if_pos (h _ hp)
  | _ => rfl

theorem Claimable.mono {S T : Set Pos} {owner : Nat → Nat} (h : Claimable sb owner f T)
    (hS : S ⊆ T) :
    Claimable sb owner f S :=
  ⟨fun p hp => h.range p (hS hp), fun p hp => h.free p (hS hp),
    fun p hp q hq => h.once p (hS hp) q (hS hq)⟩

/-- Holes can be passed over. -/
theorem Visited.skip (h : Visited sb f id isDir c₀ L L w c) {ps : List Pos}
    (hps : ∀ p ∈ ps, f p = 0) :
    Visited sb f id isDir c₀ (L ++ ps) (L ++ ps) w c := by
  have hnil := blocksAt_eq_nil hps
  constructor
  · constructor
    · intro p hp h0
      rcases List.mem_append.mp hp with hp | hp
      · exact h.claimable.range p hp h0
      · exact absurd (hps p hp) h0
    · intro p hp h0
      rcases List.mem_append.mp hp with hp | hp
      · exact h.claimable.free p hp h0
      · exact absurd (hps p hp) h0
    · intro p hp q hq h0 heq
      rcases List.mem_append.mp hp with hp | hp
      · rcases List.mem_append.mp hq with hq | hq
        · exact h.claimable.once p hp q hq h0 heq
        · exact absurd (heq.trans (hps q hq)) h0
      · exact absurd (hps p hp) h0
  · exact h.problems
  · exact h.suppressed
  · intro b
    rw [blocksAt_append, hnil, List.append_nil]
    exact h.owner b
  · intro i
    rw [h.dir]
    by_cases hi : Pos.data i ∈ ps
    · rw [hps _ hi]
      simp
    · simp [hi]
  · rw [blocksAt_append, hnil, List.append_nil]
    exact h.owned
  · rw [dataAt_append, dataAt_hole hps, List.append_nil]
    exact h.data
  · rw [dataAt_append, dataAt_hole hps, List.append_nil]
    exact h.end

theorem Walking.skip (h : Walking dev sb f id isDir c₀ L L w c) {ps : List Pos}
    (hps : ∀ p ∈ ps, f p = 0) : Walking dev sb f id isDir c₀ (L ++ ps) (L ++ ps) w c :=
  ⟨h.ok, h.frame, h.either.imp_left fun hv => hv.skip hps⟩

/-- After a problem everything else is as well done as not. -/
theorem Walking.failed (hok : Ok dev sb c) (hf : Frame id c₀ c)
    (hp : ¬ Clean c.problems c.suppressed)
    (hn : ¬ Claimable sb c₀.owner.get f Set.univ) (L D : List Pos) (w : Walked) :
    Walking dev sb f id isDir c₀ L D w c := ⟨hok, hf, .inr ⟨hp, hn⟩⟩

/-- A block that was nobody's, claimed. -/
theorem Visited.claim (h : Visited sb f id isDir c₀ L D w c) (hid : id ≠ 0) {p : Pos}
    (h0 : f p ≠ 0) (h1 : sb.dataStart.toNat ≤ f p) (h2 : f p < sb.totalBlocks.toNat)
    (hfree : c.owner.get (f p) = 0) :
    Visited sb f id isDir c₀ (L ++ [p]) D (visit f p w)
    { c with owner := c.owner.set (f p) id } := by
  rw [h.owner] at hfree
  have hnot : f p ∉ blocksAt f L := by
    intro hin
    rw [if_pos hin] at hfree
    exact hid hfree
  rw [if_neg hnot] at hfree
  have hne : ∀ q ∈ L, f q ≠ f p := fun q hq heq =>
    hnot (mem_blocksAt.mpr ⟨h0, q, hq, heq⟩)
  obtain ⟨hv1, hv2, hv3⟩ := visit_spec h0 h.owned h.data h.end
  constructor
  · constructor
    · intro q hq hq0
      rcases List.mem_append.mp hq with hq | hq
      · exact h.claimable.range q hq hq0
      · rw [List.mem_singleton.mp hq]
        exact ⟨h1, h2⟩
    · intro q hq hq0
      rcases List.mem_append.mp hq with hq | hq
      · exact h.claimable.free q hq hq0
      · rw [List.mem_singleton.mp hq]
        exact hfree
    · intro q hq q' hq' hq0 heq
      rcases List.mem_append.mp hq with hq | hq <;> rcases List.mem_append.mp hq' with hq' | hq'
      · exact h.claimable.once q hq q' hq' hq0 heq
      · rw [List.mem_singleton.mp hq'] at heq
        exact absurd heq (hne q hq)
      · rw [List.mem_singleton.mp hq] at heq
        exact absurd heq.symm (hne q' hq')
      · rw [List.mem_singleton.mp hq, List.mem_singleton.mp hq']
  · exact h.problems
  · exact h.suppressed
  · intro b
    show Function.update c.owner.get (f p) id b = _
    rw [blocksAt_append, blocksAt_singleton h0]
    by_cases hb : b = f p
    · rw [hb, Function.update_self, if_pos (by simp)]
    · rw [Function.update_of_ne hb, h.owner]
      exact if_congr (by simp [hb]) rfl rfl
  · exact h.dir
  · exact hv1
  · exact hv2
  · exact hv3

theorem Frame.complain (h : Frame id c₀ c) (ps : List String) (n : Nat) :
    Frame id c₀ { c with problems := ps, suppressed := n } where
  fields := by rw [h.fields]
  others := h.others
  kept := h.kept
  mine := h.mine

theorem Frame.claim (h : Frame id c₀ c) {b : Nat} (hfree : c.owner.get b = 0) :
    Frame id c₀ { c with owner := c.owner.set b id } where
  fields := by rw [h.fields]
  others := h.others
  kept B hB := by
    show Function.update c.owner.get b id B = _
    have hk := h.kept B hB
    rw [Function.update_of_ne (by rintro rfl; exact hB (hk.symm.trans hfree)), hk]
  mine B := by
    show Function.update c.owner.get b id B = _ ∨ Function.update c.owner.get b id B = _
    by_cases hB : B = b
    · rw [hB, Function.update_self]
      exact .inr rfl
    · rw [Function.update_of_ne hB]
      exact h.mine B

/-- A pointer that is no hole, claimed: it has been visited, or a problem reported. -/
theorem claim_walking (h : Walking dev sb f id isDir c₀ L D w c) (hid : id ≠ 0) {p : Pos}
    (hp : p ∉ L) (h0 : f p ≠ 0) {kind : Ptr} {index : Nat} {Q : Bool → Checker → Prop}
    (hmine : ∀ c', c'.owner.get (f p) = id → f p < sb.totalBlocks.toNat →
      Walking dev sb f id isDir c₀ (L ++ [p]) D (visit f p w) c' → Q true c')
    (hnot : ∀ c', (∀ L D w, Walking dev sb f id isDir c₀ L D w c') → Q false c') :
    (claim sb id (f p) kind index).Ends c Q E := by
  refine claim_ends h.ok hid (fun h1 h2 hfree => ?_) fun hbad ps n hps => ?_
  · refine hmine _ (Function.update_self _ _ _) h2 ⟨h.ok.claim h1 h2 hfree, h.frame.claim hfree, ?_⟩
    exact h.either.imp (fun hv => hv.claim hid h0 h1 h2 hfree) fun hf => hf
  · refine hnot _ fun L' D' w' => .failed (h.ok.complain ps n) (h.frame.complain ps n)
      hps ?_ L' D' w'
    rcases h.either with hv | ⟨-, hno⟩
    · -- were all claimable, this one would be nobody's still
      intro hall
      obtain ⟨h1, h2⟩ := hall.range p (Set.mem_univ p) h0
      have hown := hbad h1 h2
      rw [hv.owner] at hown
      by_cases hin : f p ∈ blocksAt f L
      · obtain ⟨-, q, hq, heq⟩ := mem_blocksAt.mp hin
        have := hall.once p (Set.mem_univ p) q (Set.mem_univ q) h0 heq.symm
        exact hp (this ▸ hq)
      · rw [if_neg hin] at hown
        exact hown (hall.free p (Set.mem_univ p) h0)
    · exact hno

theorem mapped_getD (m : List Nat) (i b j : Nat) :
    (mapped m i b).getD j 0 = if j = i then b else m.getD j 0 := by
  unfold mapped
  simp only [List.getD_eq_getElem?_getD, List.getElem?_set, List.length_append,
    List.length_replicate]
  by_cases hj : j = i
  · rw [if_pos hj, if_pos hj.symm, if_pos (by omega)]
    rfl
  · rw [if_neg hj, if_neg (Ne.symm hj)]
    by_cases hl : j < m.length
    · rw [List.getElem?_append_left hl]
    · rw [List.getElem?_append_right (by omega), List.getElem?_eq_none (l := m) (by omega),
        List.getElem?_replicate]
      split <;> rfl

theorem mapped_length (m : List Nat) (i b : Nat) :
    (mapped m i b).length = max m.length (i + 1) := by
  unfold mapped
  rw [List.length_set, List.length_append, List.length_replicate]
  omega

theorem mem_mapped {m : List Nat} {i b x : Nat} (h : x ∈ mapped m i b) : x = b ∨ x ∈ m ∨ x = 0 := by
  rcases List.mem_or_eq_of_mem_set h with h | h
  · rcases List.mem_append.mp h with h | h
    · exact .inr (.inl h)
    · exact .inr (.inr (List.eq_of_mem_replicate h))
  · exact .inl h

/-- A block of the inode's own in the directory's map. -/
theorem Ok.map (h : Ok dev sb c) (hid : id ≠ 0) {i b : Nat} (hi : i < 2 ^ 20)
    (hown : c.owner.get b = id) :
    Ok dev sb { c with dirBlocks := c.dirBlocks.set id (mapped (c.dirBlocks.get id) i b) } :=
  { inodeBm := h.inodeBm, blockBm := h.blockBm, inodes := h.inodes, kind := h.kind
    owner := h.owner, dirBlocks := h.dirBlocks, refs := h.refs, names := h.names
    reachable := h.reachable, owned := h.owned
    dirs := fun x B hB hB0 => by
      have hB : B ∈ Function.update c.dirBlocks.get id (mapped (c.dirBlocks.get id) i b) x := hB
      by_cases hx : x = id
      · rw [hx, Function.update_self] at hB
        rcases mem_mapped hB with rfl | hB | hB
        · exact ⟨hx ▸ hid, hown.trans hx.symm⟩
        · rw [hx]
          exact h.dirs id B hB hB0
        · exact absurd hB hB0
      · rw [Function.update_of_ne hx] at hB
        exact h.dirs x B hB hB0
    dirLength := fun x => by
      show (Function.update c.dirBlocks.get id (mapped (c.dirBlocks.get id) i b) x).length ≤ _
      have hl := h.dirLength id
      by_cases hx : x = id
      · rw [hx, Function.update_self, mapped_length]
        omega
      · rw [Function.update_of_ne hx]
        exact h.dirLength x
    reads := h.reads }

theorem Frame.map (h : Frame id c₀ c) (bs : List Nat) :
    Frame id c₀ { c with dirBlocks := c.dirBlocks.set id bs } where
  fields := by rw [h.fields]
  others x hx := by
    rw [← h.others x hx]
    exact Function.update_of_ne hx _ _
  kept := h.kept
  mine := h.mine

theorem Visited.map {i : Nat} (hd : isDir = true) (hi : i < 2 ^ 20)
    (h : Visited sb f id isDir c₀ (L ++ [.data i]) L w c) :
    Visited sb f id isDir c₀ (L ++ [.data i]) (L ++ [.data i]) w
      { c with dirBlocks := c.dirBlocks.set id (mapped (c.dirBlocks.get id) i (f (.data i))) } where
  claimable := h.claimable
  problems := h.problems
  suppressed := h.suppressed
  owner := h.owner
  dir j := by
    show (Function.update c.dirBlocks.get id _ id).getD j 0 = _
    rw [Function.update_self, mapped_getD, h.dir]
    by_cases hj : j = i
    · rw [hj, if_pos rfl, if_pos ⟨hd, hi, by simp⟩]
    · rw [if_neg hj]
      exact if_congr (by simp [hj]) rfl rfl
  owned := h.owned
  data := h.data
  «end» := h.end

/-- A file block that has no place in a map. -/
theorem Visited.unmapped {i : Nat} (hn : ¬ (isDir = true ∧ i < 2 ^ 20))
    (h : Visited sb f id isDir c₀ (L ++ [.data i]) L w c) :
    Visited sb f id isDir c₀ (L ++ [.data i]) (L ++ [.data i]) w c where
  claimable := h.claimable
  problems := h.problems
  suppressed := h.suppressed
  owner := h.owner
  dir j := by
    rw [h.dir]
    refine if_congr ?_ rfl rfl
    simp only [List.mem_append, List.mem_singleton, Pos.data.injEq]
    constructor
    · exact fun ⟨h1, h2, h3⟩ => ⟨h1, h2, .inl h3⟩
    · rintro ⟨h1, h2, h3 | rfl⟩
      · exact ⟨h1, h2, h3⟩
      · exact absurd ⟨h1, h2⟩ hn
  owned := h.owned
  data := h.data
  «end» := h.end

/-- `data`: the file block is visited. -/
theorem onData_walking (h : Walking dev sb f id isDir c₀ L L w c) (hid : id ≠ 0)
    (hlt : id < sb.inodeCount.toNat) {i : Nat}
    (hp : Pos.data i ∉ L) (h0 : f (.data i) ≠ 0) {Q : Walked → Checker → Prop}
    (hQ : ∀ w' c', Walking dev sb f id isDir c₀ (L ++ [.data i]) (L ++ [.data i]) w' c' → Q w' c') :
    (onData sb id isDir w i (f (.data i))).Ends c Q E := by
  unfold onData
  rw [Prog.ends_bind]
  refine claim_walking h hid hp h0 (fun c' hown _ hw => ?_) fun c' hw => ?_
  · by_cases hmap : isDir = true ∧ i < 2 ^ 20
    · -- the map of a directory grows, up to its bound
      rw [if_pos ⟨hmap.1, rfl, hmap.2⟩]
      show (elem Checker.dirBlocks id >>= _).Ends c' Q E
      rw [Prog.ends_bind]
      refine elem_ends (by rw [hw.ok.dirBlocks]; exact hlt) ?_
      rw [Prog.ends_bind]
      refine setDirBlocks_ends (by rw [hw.ok.dirBlocks]; exact hlt) (hQ _ _ ⟨?_, ?_, ?_⟩)
      · exact hw.ok.map hid hmap.2 hown
      · exact hw.frame.map _
      · exact hw.either.imp (fun hv => hv.map hmap.1 hmap.2) fun hf => hf
    · rw [if_neg fun hc => hmap ⟨hc.1, hc.2.2⟩]
      exact hQ _ _ ⟨hw.ok, hw.frame, hw.either.imp (fun hv => hv.unmapped hmap) fun hf => hf⟩
  · rw [if_neg fun hc => Bool.false_ne_true hc.2.1]
    exact hQ _ _ (hw _ _ _)

/-- A loop each round of which visits the positions `pos j`. -/
theorem foldlM_walking {ι : Type} {pos : ι → List Pos} {body : Walked → ι → Check Walked}
    (js : List ι) :
    ∀ {L w c}, Walking dev sb f id isDir c₀ L L w c → (L ++ js.flatMap pos).Nodup →
      (∀ j ∈ js, ∀ {L w c}, Walking dev sb f id isDir c₀ L L w c → (L ++ pos j).Nodup →
        (body w j).Ends c (Walking dev sb f id isDir c₀ (L ++ pos j) (L ++ pos j)) E) →
      (js.foldlM body w).Ends c
        (Walking dev sb f id isDir c₀ (L ++ js.flatMap pos) (L ++ js.flatMap pos)) E := by
  induction js with
  | nil =>
    intro L w c h _ _
    rw [List.flatMap_nil, List.append_nil]
    exact h
  | cons j js ih =>
    intro L w c h hnd hbody
    rw [List.flatMap_cons, ← List.append_assoc] at hnd ⊢
    rw [List.foldlM_cons, Prog.ends_bind]
    refine (hbody j (List.mem_cons_self ..) h (List.Nodup.of_append_left hnd)).mono
      (fun w' c' h' => ?_) fun _ _ hE => hE
    exact ih h' hnd fun j' hj' => hbody j' (List.mem_cons_of_mem _ hj')

/-- A loop each round of which looks at one pointer to a file block. -/
theorem data_walking {ι : Type} {g : ι → Nat} (js : List ι) {body : Walked → ι → Check Walked}
    (hid : id ≠ 0) (hlt : id < sb.inodeCount.toNat)
    (hbody : ∀ j ∈ js, ∀ w, body w j = if f (.data (g j)) ≠ 0
      then onData sb id isDir w (g j) (f (.data (g j))) else pure w)
    (h : Walking dev sb f id isDir c₀ L L w c)
    (hnd : (L ++ js.map fun j => Pos.data (g j)).Nodup) :
    (js.foldlM body w).Ends c (Walking dev sb f id isDir c₀
      (L ++ js.map fun j => Pos.data (g j)) (L ++ js.map fun j => Pos.data (g j))) E := by
  rw [← List.flatMap_singleton' (js.map _), List.flatMap_map] at hnd ⊢
  refine foldlM_walking js h hnd fun j hj {L w c} h hnd => ?_
  rw [hbody j hj]
  by_cases h0 : f (.data (g j)) = 0
  · rw [if_neg (by simpa using h0)]
    exact h.skip fun p hp => by rw [List.mem_singleton.mp hp, h0]
  · rw [if_pos h0]
    refine onData_walking h hid hlt (fun hin => ?_) h0 fun w' c' h' => h'
    exact List.disjoint_of_nodup_append hnd hin (List.mem_singleton_self _)

/-- A block read that is the inode's. -/
theorem Walking.read (h : Walking dev sb f id isDir c₀ L D w c) {b : Nat} (hid : id ≠ 0)
    (hown : c.owner.get b = id) (hb : b < dev.count.toNat) :
    Walking dev sb f id isDir c₀ L D w
      { c with reads := c.reads ++ [⟨b, .indirect id, c.owner.get b⟩] } where
  ok := h.ok.read hb fun x hx => by
    rcases hx with hx | hx
    · exact ⟨(Use.indirect.inj hx) ▸ hid, (Use.indirect.inj hx) ▸ hown⟩
    · cases hx
  frame :=
    { fields := by rw [h.frame.fields], others := h.frame.others, kept := h.frame.kept
      mine := h.frame.mine }
  either := h.either.imp (fun hv =>
    { claimable := hv.claimable, problems := hv.problems, suppressed := hv.suppressed
      owner := hv.owner, dir := hv.dir, owned := hv.owned, data := hv.data, «end» := hv.end })
    fun hf => hf

end Steps

/-! ## The pointer tree -/

/-- The file blocks below entry `j` of the double-indirect block, and the entry before them. -/
def visitSecond (j : Nat) : List Pos :=
  .second j :: (List.range 1024).map fun k => .data (12 + 1024 + j * 1024 + k)

/-- The positions in the order `check_blocks` visits them. -/
def visitList : List Pos :=
  (List.finRange 12).map (fun i => .data i.val)
    ++ (.single :: (List.range 1024).map fun j => .data (12 + j))
    ++ (.double :: (List.range 1024).flatMap visitSecond)

/-- They are those `free_all_blocks` visits, in another order. -/
theorem visitList_perm : visitList.Perm posList := by
  have hdata : ∀ js : List Nat, ∀ j, (js.map fun k => Pos.data (12 + 1024 + j * 1024 + k))
      = js.map fun k => Pos.data (1036 + 1024 * j + k) := fun js j =>
    List.map_congr_left fun k _ => congrArg Pos.data (by omega)
  unfold visitList posList visitSecond posBelowSecond
  simp only [hdata]
  generalize List.range 1024 = js
  refine List.Perm.append (List.Perm.append ?_ (List.perm_append_singleton _ _).symm)
    (List.Perm.trans (List.Perm.cons _ ?_) (List.perm_append_singleton _ _).symm)
  · refine List.Perm.of_eq (List.ext_getElem (by simp) fun i h1 h2 => ?_)
    simp
  · refine List.Perm.flatMap_left _ fun j _ => ?_
    exact (List.perm_append_singleton _ _).symm

theorem visitList_nodup : visitList.Nodup := visitList_perm.nodup_iff.mpr posList_nodup

section Tree

variable {c₀ c : Checker} {L : List Pos} {w : Walked} {E : Stop → Checker → Prop} {id : Nat}
  {isDir : Bool} {ino : Inode}

/-- Nothing below a hole. -/
theorem hole_below {blk : Nat → Block} {q : Pos} (hq : ptr blk ino q = 0) {p : Pos} {k : Nat}
    (hp : p.parent = some (q, k)) : ptr blk ino p = 0 := by
  rw [ptr_of_parent hp, if_pos hq]

theorem parent_data_second {j k : Nat} (hj : j < 1024) (hk : k < 1024) :
    (Pos.data (12 + 1024 + j * 1024 + k)).parent = some (.second j, k) := by
  rw [parent_double (by omega) (by unfold maxFileBlocks; omega)]
  exact congrArg some (Prod.ext (congrArg Pos.second (by omega)) (by show _ % 1024 = k; omega))

/-- A block of pointers. -/
theorem onPointers_walking (first : Nat) (hid : id ≠ 0) (hlt : id < sb.inodeCount.toNat) {q : Pos}
    (hq0 : ptr dev.blocks ino q ≠ 0)
    (hpar : ∀ j < 1024, (Pos.data (first + j)).parent = some (q, j))
    (h : Walking dev sb (ptr dev.blocks ino) id isDir c₀ L L w c)
    (hnd : (L ++ (List.range 1024).map fun j => Pos.data (first + j)).Nodup) :
    (onPointers sb id isDir first (dev.blocks (ptr dev.blocks ino q)) w).Ends c
      (Walking dev sb (ptr dev.blocks ino) id isDir c₀
        (L ++ (List.range 1024).map fun j => Pos.data (first + j))
        (L ++ (List.range 1024).map fun j => Pos.data (first + j))) E := by
  unfold onPointers
  have hrange : ∀ j ∈ List.range 1024, j < 1024 := fun j hj => List.mem_range.mp hj
  generalize List.range 1024 = js at hnd hrange ⊢
  refine data_walking (g := fun j => first + j) js hid hlt (fun j hj w => ?_) h hnd
  rw [ptr_of_parent (hpar j (hrange j hj)), if_neg hq0]

theorem onDirect_walking (hid : id ≠ 0) (hlt : id < sb.inodeCount.toNat)
    (h : Walking dev sb (ptr dev.blocks ino) id isDir c₀ L L w c)
    (hnd : (L ++ (List.finRange 12).map fun i => Pos.data i.val).Nodup) :
    (onDirect sb id ino isDir w).Ends c (Walking dev sb (ptr dev.blocks ino) id isDir c₀
      (L ++ (List.finRange 12).map fun i => Pos.data i.val)
      (L ++ (List.finRange 12).map fun i => Pos.data i.val)) E := by
  unfold onDirect
  refine data_walking (g := fun i : Fin 12 => i.val) _ hid hlt (fun i _ w => ?_) h hnd
  have hi : ptr dev.blocks ino (.data i.val) = (ino.direct i).toNat := by
    simp only [ptr, bmap, dif_pos i.isLt]
  rw [hi]

/-- An indirect block, and below it what `next` goes through. -/
theorem indirect_walking (hcount : sb.totalBlocks = dev.count) (hid : id ≠ 0) {q : Pos}
    (hq : q.indirect = true) {ps : List Pos} {kind : Ptr} {index : Nat}
    (hbelow : ptr dev.blocks ino q = 0 → ∀ p ∈ ps, ptr dev.blocks ino p = 0)
    {next : Block → Walked → Check Walked}
    (h : Walking dev sb (ptr dev.blocks ino) id isDir c₀ L L w c)
    (hnd : (L ++ q :: ps).Nodup)
    (hnext : ptr dev.blocks ino q ≠ 0 → ∀ {w c},
      Walking dev sb (ptr dev.blocks ino) id isDir c₀ (L ++ [q]) (L ++ [q]) w c →
      (next (dev.blocks (ptr dev.blocks ino q)) w).Ends c
        (Walking dev sb (ptr dev.blocks ino) id isDir c₀ (L ++ q :: ps) (L ++ q :: ps)) E) :
    (if ptr dev.blocks ino q = 0 then pure w
      else claim sb id (ptr dev.blocks ino q) kind index >>= fun mine =>
        if mine = true then
          read dev (ptr dev.blocks ino q) (.indirect id) >>= fun b =>
            next b { w with owned := w.owned + 1 }
        else pure { w with owned := w.owned + 1 } : Check Walked).Ends c
      (Walking dev sb (ptr dev.blocks ino) id isDir c₀ (L ++ q :: ps) (L ++ q :: ps)) E := by
  by_cases h0 : ptr dev.blocks ino q = 0
  · rw [if_pos h0]
    refine h.skip fun p hp => ?_
    rcases List.mem_cons.mp hp with rfl | hp
    · exact h0
    · exact hbelow h0 p hp
  rw [if_neg h0, Prog.ends_bind]
  have hw : visit (ptr dev.blocks ino) q w = { w with owned := w.owned + 1 } := by
    cases q with
    | data i => cases hq
    | _ => rfl
  have hqL : q ∉ L := fun hin =>
    List.disjoint_of_nodup_append hnd hin (List.mem_cons_self ..)
  refine claim_walking h hid hqL h0 (fun c' hown hlt hwalk => ?_) fun c' hfail => ?_
  · rw [if_pos rfl, Prog.ends_bind]
    rw [hw] at hwalk
    refine read_ends (by rw [← hcount]; exact hlt) ?_
    refine hnext h0 ?_
    have hD : Walking dev sb (ptr dev.blocks ino) id isDir c₀ (L ++ [q]) (L ++ [q])
        { w with owned := w.owned + 1 } c' := by
      refine ⟨hwalk.ok, hwalk.frame, hwalk.either.imp_left fun hv => ?_⟩
      refine { hv with dir := fun i => ?_ }
      rw [hv.dir]
      refine if_congr ?_ rfl rfl
      have hne : Pos.data i ≠ q := by
        rintro rfl
        cases hq
      simp [hne]
    exact hD.read hid hown (by rw [← hcount]; exact hlt)
  · rw [if_neg Bool.false_ne_true]
    exact hfail _ _ _

theorem onSingle_walking (hcount : sb.totalBlocks = dev.count) (hid : id ≠ 0)
    (hlt : id < sb.inodeCount.toNat) 
    (h : Walking dev sb (ptr dev.blocks ino) id isDir c₀ L L w c)
    (hnd : (L ++ Pos.single :: (List.range 1024).map fun j => Pos.data (12 + j)).Nodup) :
    (onSingle dev sb id ino isDir w).Ends c (Walking dev sb (ptr dev.blocks ino) id isDir c₀
      (L ++ Pos.single :: (List.range 1024).map fun j => Pos.data (12 + j))
      (L ++ Pos.single :: (List.range 1024).map fun j => Pos.data (12 + j))) E := by
  have hpar : ∀ j < 1024, (Pos.data (12 + j)).parent = some (.single, j) := fun j hj => by
    rw [parent_single (by omega) (by omega), Nat.add_sub_cancel_left]
  refine indirect_walking (q := .single) hcount hid rfl (fun h0 p hp => ?_) h hnd
    fun h0 {w c} hw => ?_
  · obtain ⟨j, hj, rfl⟩ := List.mem_map.mp hp
    exact hole_below h0 (hpar j (List.mem_range.mp hj))
  · rw [List.append_cons] at hnd ⊢
    exact onPointers_walking 12 hid hlt h0 hpar hw hnd

theorem onSecond_walking (hcount : sb.totalBlocks = dev.count) (hid : id ≠ 0)
    (hlt : id < sb.inodeCount.toNat) (hd0 : ptr dev.blocks ino .double ≠ 0) {j : Nat}
    (hj : j < 1024) (h : Walking dev sb (ptr dev.blocks ino) id isDir c₀ L L w c)
    (hnd : (L ++ visitSecond j).Nodup) :
    (onSecond dev sb id isDir (dev.blocks (ptr dev.blocks ino .double)) w j).Ends c
      (Walking dev sb (ptr dev.blocks ino) id isDir c₀ (L ++ visitSecond j) (L ++ visitSecond j))
      E := by
  have hsec : (ptrAt (dev.blocks (ptr dev.blocks ino .double)) j).toNat
      = ptr dev.blocks ino (.second j) := by
    rw [ptr_of_parent (parent_second hj), if_neg hd0]
  have hpar := fun k hk => parent_data_second hj (k := k) hk
  unfold onSecond
  rw [hsec]
  refine indirect_walking (q := .second j) hcount hid rfl (fun h0 p hp => ?_) h hnd
    fun h0 {w c} hw => ?_
  · obtain ⟨k, hk, rfl⟩ := List.mem_map.mp hp
    exact hole_below h0 (hpar k (List.mem_range.mp hk))
  · unfold visitSecond at hnd
    rw [List.append_cons] at hnd ⊢
    exact onPointers_walking (12 + 1024 + j * 1024) hid hlt h0 hpar hw hnd

theorem onDouble_walking (hcount : sb.totalBlocks = dev.count) (hid : id ≠ 0)
    (hlt : id < sb.inodeCount.toNat) 
    (h : Walking dev sb (ptr dev.blocks ino) id isDir c₀ L L w c)
    (hnd : (L ++ Pos.double :: (List.range 1024).flatMap visitSecond).Nodup) :
    (onDouble dev sb id ino isDir w).Ends c (Walking dev sb (ptr dev.blocks ino) id isDir c₀
      (L ++ Pos.double :: (List.range 1024).flatMap visitSecond)
      (L ++ Pos.double :: (List.range 1024).flatMap visitSecond)) E := by
  refine indirect_walking (q := .double) hcount hid rfl (fun h0 p hp => ?_) h hnd
    fun h0 {w c} hw => ?_
  · obtain ⟨j, hj, hp⟩ := List.mem_flatMap.mp hp
    have hj := List.mem_range.mp hj
    have hs0 := hole_below h0 (parent_second hj)
    rcases List.mem_cons.mp hp with rfl | hp
    · exact hs0
    · obtain ⟨k, hk, rfl⟩ := List.mem_map.mp hp
      exact hole_below hs0 (parent_data_second hj (List.mem_range.mp hk))
  · rw [List.append_cons] at hnd ⊢
    unfold onSeconds
    have hrange : ∀ j ∈ List.range 1024, j < 1024 := fun j hj => List.mem_range.mp hj
    generalize List.range 1024 = js at hnd hrange ⊢
    exact foldlM_walking js hw hnd fun j hj _ _ _ hw hnd =>
      onSecond_walking hcount hid hlt h0 (hrange j hj) hw hnd

/-- Every pointer of the inode. -/
theorem checkPointers_walking (hcount : sb.totalBlocks = dev.count) (hid : id ≠ 0)
    (hlt : id < sb.inodeCount.toNat) (hok : Ok dev sb c) (hempty : c.dirBlocks.get id = []) :
    (checkPointers dev sb id ino isDir).Ends c
      (Walking dev sb (ptr dev.blocks ino) id isDir c visitList visitList) E := by
  have h : Walking dev sb (ptr dev.blocks ino) id isDir c [] [] ⟨0, 0, []⟩ c := by
    refine ⟨hok, ⟨rfl, fun _ _ => rfl, fun _ _ => rfl, fun _ => .inl rfl⟩, .inl ?_⟩
    constructor
    · exact ⟨nofun, nofun, nofun⟩
    · rfl
    · rfl
    · intro b
      rw [if_neg (by simp [blocksAt])]
    · intro i
      rw [hempty]
      simp
    · rfl
    · rfl
    · intro e
      simp [dataAt]
  have hnd := visitList_nodup
  unfold visitList at hnd ⊢
  unfold checkPointers
  simp only [Prog.ends_bind]
  have hnd1 := List.Nodup.of_append_left hnd
  have hnd0 := List.Nodup.of_append_left hnd1
  refine (onDirect_walking hid hlt h hnd0).mono (fun w1 c1 h1 => ?_) fun _ _ hE => hE
  rw [List.nil_append] at h1
  refine (onSingle_walking hcount hid hlt h1 hnd1).mono (fun w2 c2 h2 => ?_) fun _ _ hE => hE
  exact onDouble_walking hcount hid hlt h2 hnd

end Tree

/-! ## The two decodings -/

/-- The checker when the inode table is loaded and nothing has been looked at. -/
def Checker.loaded (dev : Device) (sb : Superblock) : Checker :=
  { Checker.start with
    inodeBm := .load dev.blocks sb.inodeBitmapStart.toNat sb.inodeCount.toNat
    blockBm := .load dev.blocks sb.dataBitmapStart.toNat sb.totalBlocks.toNat
    inodes := ⟨sb.inodeCount.toNat,
      fun id => inodeIn (dev.blocks (sb.inodeTableStart.toNat + id / 32)) (id % 32)⟩
    kind := .assign sb.inodeCount.toNat .none
    owner := .assign sb.totalBlocks.toNat 0
    dirBlocks := .assign sb.inodeCount.toNat []
    refs := .assign sb.inodeCount.toNat 0
    names := .assign sb.inodeCount.toNat 0
    reachable := .assign sb.inodeCount.toNat false }

theorem loaded_ok (dev : Device) (sb : Superblock) : Ok dev sb (Checker.loaded dev sb) where
  inodeBm := rfl
  blockBm := rfl
  inodes := rfl
  kind := rfl
  owner := rfl
  dirBlocks := rfl
  refs := rfl
  names := rfl
  reachable := rfl
  owned _ h := absurd rfl h
  dirs _ _ h := by cases h
  dirLength _ := Nat.zero_le _
  reads _ h := by cases h

/-- The checker as `check_blocks` finds it when it comes to inode `id`: nothing has been recorded
    for it yet. -/
structure Before (dev : Device) (sb : Superblock) (id : Nat) (c : Checker) : Prop where
  ok : Ok dev sb c
  fresh : ∀ b, c.owner.get b ≠ id
  empty : c.dirBlocks.get id = []

theorem nodup_dataAt {f : Pos → Nat} {L : List Pos} (h : L.Nodup) : (dataAt f L).Nodup := by
  refine h.filterMap fun p q a hp hq => ?_
  cases p with
  | data i =>
    cases q with
    | data j =>
      simp only [Option.mem_def, Option.ite_none_left_eq_some, Option.some.injEq] at hp hq
      have := hp.2.trans hq.2.symm
      rw [(Prod.mk.inj this).1]
    | _ => simp at hq
  | _ => simp at hp

theorem mem_dataAt {f : Pos → Nat} {L : List Pos} {i b : Nat} :
    (i, b) ∈ dataAt f L ↔ Pos.data i ∈ L ∧ b ≠ 0 ∧ f (.data i) = b := by
  unfold dataAt
  rw [List.mem_filterMap]
  constructor
  · rintro ⟨p, hp, h⟩
    cases p with
    | data j =>
      simp only [Option.ite_none_left_eq_some, Option.some.injEq, Prod.mk.injEq] at h
      obtain ⟨h0, rfl, rfl⟩ := h
      exact ⟨hp, h0, rfl⟩
    | _ => simp at h
  · rintro ⟨hp, h0, rfl⟩
    exact ⟨_, hp, if_neg h0⟩

/-- `w.end` is one past the last file block there is. -/
theorem Visited.end_spec {f : Pos → Nat} {id : Nat} {isDir : Bool} {c₀ c : Checker} {L D : List Pos}
    {w : Walked} (h : Visited sb f id isDir c₀ L D w c) :
    (∀ q ∈ w.data, q.1 < w.end) ∧ (w.end = 0 ∨ ∃ q ∈ w.data, q.1 + 1 = w.end) := by
  rw [h.data]
  have hall := (h.end w.end).mp (le_refl _)
  refine ⟨hall, or_iff_not_imp_left.mpr fun h0 => ?_⟩
  by_contra hno
  push Not at hno
  have := (h.end (w.end - 1)).mpr fun q hq => by
    have h1 := hall q hq
    have h2 := hno q hq
    omega
  omega

/-- The checker's decoding and the file system's agree. Of an inode all of whose pointers are in
    range, different, and no other inode's, `check_blocks` visits each file block that `bmap_read`
    finds once and no other, ends one past the last of them, and counts and records the blocks that
    `free_all_blocks` collects. -/
theorem checkPointers_decodes {s : FileSystem} {c : Checker} {id : Nat} {ino : Inode}
    (hv : validateSuperblock sb dev.count = .ok ()) (hs : Allocator.Synced sb s)
    (hdisk : s.disk = dev.blocks) (hid : 1 ≤ id) (hlt : id < sb.inodeCount.toNat)
    (hc : Before dev sb id c) (hrange : InRange sb dev.blocks ino)
    (hinj : Set.InjOn (ptr dev.blocks ino) {p | ptr dev.blocks ino p ≠ 0})
    (hown : ∀ p, ptr dev.blocks ino p ≠ 0 →
      c.owner.get (ptr dev.blocks ino p) = 0 ∨ c.owner.get (ptr dev.blocks ino p) = id)
    (isDir : Bool) :
    (checkPointers dev sb id ino isDir).Ends c
      (fun w c' =>
        w.data.Nodup ∧
        (∀ i b, (i, b) ∈ w.data ↔ i < maxFileBlocks ∧ b ≠ 0 ∧ PointerTree.Reads sb s ino i b) ∧
        ((∀ q ∈ w.data, q.1 < w.end) ∧ (w.end = 0 ∨ ∃ q ∈ w.data, q.1 + 1 = w.end)) ∧
        ∃ L, (collectOwned sb ino).run s = some (.ok L, s) ∧ L.Nodup ∧ w.owned = L.length ∧
          ∀ b, c'.owner.get b = id ↔ b ∈ L)
      fun _ _ => False := by
  have g := regions_of_validate hv
  have hcount : sb.totalBlocks = dev.count := (validateSuperblock_eq_ok.mp hv).2.2.1
  refine (checkPointers_walking hcount (by omega) hlt hc.ok hc.empty).mono (fun w c' h => ?_)
    fun _ _ hE => hE
  -- nothing stands in the way of a claim
  have hclaim : Claimable sb c.owner.get (ptr dev.blocks ino) Set.univ :=
    ⟨fun p _ h0 => hrange p h0, fun p _ h0 => (hown p h0).resolve_right (hc.fresh _),
      fun p _ q _ h0 heq => hinj h0 (by rw [Set.mem_ofPred_eq, ← heq]; exact h0) heq⟩
  have hvis := h.either.resolve_right fun hno => hno.2 hclaim
  have hr : InRange sb (Image.of sb s.disk).blk ino := by
    have heq : ∀ p, ptr (Image.of sb s.disk).blk ino p = ptr dev.blocks ino p := by
      rw [← hdisk]
      refine ptr_congr fun q _ hq => if_pos ?_
      rw [hdisk] at hq ⊢
      exact (hrange q hq).1
    intro p hp
    rw [heq] at hp ⊢
    exact hrange p hp
  have hptr : ∀ p, ptr dev.blocks ino p = ptr (Image.of sb s.disk).blk ino p := by
    rw [← hdisk]
    exact PointerTree.ptr_disk hr
  have hbmap : ∀ i, ptr dev.blocks ino (.data i) = bmap s.disk ino i := by
    rw [← hdisk]
    exact fun i => rfl
  refine ⟨?_, fun i b => ?_, hvis.end_spec, blocksAt (ptr dev.blocks ino) posList, ?_, ?_, ?_, ?_⟩
  · rw [hvis.data]
    exact nodup_dataAt visitList_nodup
  · rw [hvis.data, mem_dataAt, hbmap]
    constructor
    · rintro ⟨-, h0, rfl⟩
      have hi : i < maxFileBlocks := by
        by_contra hge
        exact h0 (bmap_past (by omega))
      exact ⟨hi, h0, PointerTree.reads_bmap g hs hr hi⟩
    · rintro ⟨hi, h0, hread⟩
      have heq := (PointerTree.reads_bmap g hs hr hi).eq hread
      have hp : ptr dev.blocks ino (.data i) ≠ 0 := by
        rw [hbmap, heq]
        exact h0
      exact ⟨visitList_perm.mem_iff.mpr (mem_posList hp), h0, heq⟩
  · refine Prog.run_eq_ok.mpr (collectOwned_ends g ((Allocator.synced_iff g).mp hs) hr ⟨?_, rfl⟩)
    rw [funext hptr]
  · exact nodup_blocksAt hinj
  · rw [hvis.owned]
    exact ((visitList_perm.map _).filter _).length_eq
  · intro b
    rw [hvis.owner]
    have hmem : b ∈ blocksAt (ptr dev.blocks ino) visitList ↔
      b ∈ blocksAt (ptr dev.blocks ino) posList :=
      ((visitList_perm.map _).filter _).mem_iff
    rw [← hmem]
    by_cases hb : b ∈ blocksAt (ptr dev.blocks ino) visitList
    · simp [hb]
    · simp [hb, hc.fresh b]

/-- The device with a file of block 0 and, through the indirect block, block 12. -/
def grownDevice : Device := ⟨64, PointerTree.grownFile.2.disk⟩

theorem checkPointers_decodes_grown : ∃ w c',
    (checkPointers grownDevice smallLayout 2 PointerTree.grownFile.1 false).run
      (Checker.loaded grownDevice smallLayout) = some (.ok w, c') ∧
    (w.data, w.end, w.owned) = ([(0, 5), (12, 7)], 13, 3) ∧
    (∀ i b, (i, b) ∈ w.data ↔ i < maxFileBlocks ∧ b ≠ 0 ∧
      PointerTree.Reads smallLayout PointerTree.grownFile.2 PointerTree.grownFile.1 i b) ∧
    ∃ L, (collectOwned smallLayout PointerTree.grownFile.1).run PointerTree.grownFile.2
        = some (.ok L, PointerTree.grownFile.2) ∧
      w.owned = L.length ∧ ∀ b, c'.owner.get b = 2 ↔ b ∈ L := by
  obtain ⟨hs, hw, -⟩ := PointerTree.grownFile_wellFormed
  have hfresh : ∀ b, (Checker.loaded grownDevice smallLayout).owner.get b ≠ 2 := fun b => by
    show 0 ≠ 2
    decide
  have hends : (checkPointers grownDevice smallLayout 2 PointerTree.grownFile.1 false).Ends
      (Checker.loaded grownDevice smallLayout) _ _ :=
    checkPointers_decodes smallLayout_valid hs rfl (by decide) (by decide)
      ⟨loaded_ok _ _, hfresh, rfl⟩ hw.range hw.injOn (fun _ _ => .inl rfl) false
  obtain ⟨w, c', hrun, hw, -, hdata, -, L, hL, -, howned, hmem⟩ := hends.result
    (show (checkPointers grownDevice smallLayout 2 PointerTree.grownFile.1 false).result
        (fun w => (w.data, w.end, w.owned)) (Checker.loaded grownDevice smallLayout)
      = some ([(0, 5), (12, 7)], 13, 3) by decide +kernel)
  exact ⟨w, c', hrun, hw, hdata, L, hL, howned, hmem⟩

end ConcurrentFs.Fsck
