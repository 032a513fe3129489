/-
  ConcurrentFs.Allocator

  The allocator (src/alloc.cpp) over whole histories.  It keeps two copies of each
  bitmap, words in memory and bytes on the disk, and changes both at every call.
  `Synced` says that they agree at every bit; every call keeps it, whatever the
  bitmaps were when they were loaded, and what is handed out stays handed out
  until it is freed.
-/
import ConcurrentFs.Image

namespace ConcurrentFs.Allocator

open Lib

/-- The calls of `Allocator`. -/
inductive Call where
  | allocBlock
  | allocInode
  | freeBlocks (blocks : List Nat)
  | freeInode (id : Nat)

/-- The program of a call, with the number it hands out. -/
def Call.run (sb : Superblock) : Call → Fs (Option Nat)
  | allocBlock => do return some (← ConcurrentFs.allocBlock sb)
  | allocInode => do return some (← ConcurrentFs.allocInode sb)
  | freeBlocks blocks => do
    ConcurrentFs.freeBlocks sb blocks
    return none
  | freeInode id => do
    ConcurrentFs.freeInode sb id
    return none

/-- Bit `i` of the bitmap that starts at block `start`, read through the journal. -/
def regionBit (s : FileSystem) (start i : Nat) : Bool :=
  bitAt (s.disk (start + i / 32768)) (i % 32768)

/-- The bitmaps in memory are those on the disk. -/
structure Synced (sb : Superblock) (s : FileSystem) : Prop where
  inodeCount : s.inodes.nbits = sb.inodeCount.toNat
  blockCount : s.blocks.nbits = sb.totalBlocks.toNat
  inodes : ∀ i < sb.inodeCount.toNat,
    s.inodes.isSet i = some (regionBit s sb.inodeBitmapStart.toNat i)
  blocks : ∀ i < sb.totalBlocks.toNat,
    s.blocks.isSet i = some (regionBit s sb.dataBitmapStart.toNat i)

/-- What a call may do, from state `s` with image `I`: `I'` is the image after it. -/
def Call.Spec (sb : Superblock) (s : FileSystem) (I : Image) (s' : FileSystem) (I' : Image)
    (out : Except Exn (Option Nat)) : Call → Prop
  | allocBlock =>
    (∃ b, sb.dataStart.toNat ≤ b ∧ b < sb.totalBlocks.toNat ∧ I.dbit b = false ∧
      (∀ j < b, I.dbit j = true) ∧ out = .ok (some b) ∧ I' = I.putDBit b true) ∨
    ((∀ b < sb.totalBlocks.toNat, I.dbit b = true) ∧ out = .error (.fsError .enospc) ∧ s' = s) ∨
    (∃ b < sb.dataStart.toNat, I.dbit b = false ∧ (∀ j < b, I.dbit j = true) ∧
      out = .error (.fsError .eio) ∧ s' = s)
  | allocInode =>
    (∃ id, 1 ≤ id ∧ id < sb.inodeCount.toNat ∧ I.ibit id = false ∧ (∀ j < id, I.ibit j = true) ∧
      out = .ok (some id) ∧ I' = I.putIBit id true) ∨
    ((∀ i < sb.inodeCount.toNat, I.ibit i = true) ∧ out = .error (.fsError .enospc) ∧ s' = s) ∨
    (I.ibit 0 = false ∧ out = .error (.fsError .eio) ∧ s' = s)
  | freeBlocks blocks =>
    let good := blocks.Nodup ∧
      ∀ b ∈ blocks, sb.dataStart.toNat ≤ b ∧ b < sb.totalBlocks.toNat ∧ I.dbit b = true
    (good ∧ out = .ok none ∧ I' = I.clearDBits blocks) ∨
    (¬ good ∧ out = .error (.fsError .eio) ∧ s' = s)
  | freeInode id =>
    let good := 1 ≤ id ∧ id < sb.inodeCount.toNat ∧ I.ibit id = true
    (good ∧ out = .ok none ∧ I' = I.putIBit id false) ∨
    (¬ good ∧ out = .error (.fsError .eio) ∧ s' = s)

section Synced

variable {sb : Superblock} {s : FileSystem}

theorem of_ibit (g : Regions sb) {i : Nat} (hi : i < sb.inodeCount.toNat) :
    (Image.of sb s.disk).ibit i = regionBit s sb.inodeBitmapStart.toNat i := by
  have ho := g.order
  unfold regionBit Image.of
  dsimp only
  rw [decide_eq_true (by omega), Bool.true_and, g.inodeBitmap]

theorem of_dbit (g : Regions sb) {i : Nat} (hi : i < sb.totalBlocks.toNat) :
    (Image.of sb s.disk).dbit i = regionBit s sb.dataBitmapStart.toNat i := by
  have ho := g.order
  unfold regionBit Image.of
  dsimp only
  rw [decide_eq_true (by omega), Bool.true_and]

/-- To be synced is to show the image on the disk. -/
theorem synced_iff (g : Regions sb) : Synced sb s ↔ Shows sb s (Image.of sb s.disk) s.side := by
  constructor
  · intro h
    refine ⟨rfl, h.inodeCount, h.blockCount, fun i hi => ?_, fun i hi => ?_, rfl⟩
    · have := h.inodes i hi
      rw [Bitmap.isSet_of_lt (by rw [h.inodeCount]; exact hi)] at this
      rw [of_ibit g hi]
      exact Option.some.inj this
    · have := h.blocks i hi
      rw [Bitmap.isSet_of_lt (by rw [h.blockCount]; exact hi)] at this
      rw [of_dbit g hi]
      exact Option.some.inj this
  · intro h
    refine ⟨h.inodeCount, h.blockCount, fun i hi => ?_, fun i hi => ?_⟩
    · rw [Bitmap.isSet_of_lt (by rw [h.inodeCount]; exact hi), h.inodeBit i hi, of_ibit g hi]
    · rw [Bitmap.isSet_of_lt (by rw [h.blockCount]; exact hi), h.blockBit i hi, of_dbit g hi]

/-- Loading syncs, whatever is on the disk. -/
theorem synced_mounted (sb : Superblock) (disk : Nat → Block) (clock : Nat → UInt64) :
    Synced sb (.mounted sb disk clock) where
  inodeCount := rfl
  blockCount := rfl
  inodes i hi := by
    rw [Bitmap.isSet_of_lt hi]
    show some ((Bitmap.load disk _ _).bit i) = _
    rw [Bitmap.load_bit, decide_eq_true hi, Bool.true_and]
    rfl
  blocks i hi := by
    rw [Bitmap.isSet_of_lt hi]
    show some ((Bitmap.load disk _ _).bit i) = _
    rw [Bitmap.load_bit, decide_eq_true hi, Bool.true_and]
    rfl

/-- The step lemma: every call ends, does what it may, and keeps the copies in step. -/
theorem Call.step (g : Regions sb) (hs : Synced sb s) (c : Call) :
    ∃ out s', (c.run sb).run s = some (out, s') ∧ Synced sb s' ∧
      c.Spec sb s (.of sb s.disk) s' (.of sb s'.disk) out := by
  have h := (synced_iff g).mp hs
  have key : ∀ I' s', Shows sb s' I' s.side → Synced sb s' ∧ Image.of sb s'.disk = I' := by
    intro I' s' h'
    refine ⟨(synced_iff g).mpr ?_, h'.image⟩
    exact ⟨rfl, h'.inodeCount, h'.blockCount, by rw [h'.image]; exact h'.inodeBit,
      by rw [h'.image]; exact h'.blockBit, rfl⟩
  suffices hends : (c.run sb).Ends s
      (fun v s' => Synced sb s' ∧ c.Spec sb s (.of sb s.disk) s' (.of sb s'.disk) (.ok v))
      (fun e s' => Synced sb s' ∧ c.Spec sb s (.of sb s.disk) s' (.of sb s'.disk) (.error e)) by
    obtain ⟨⟨out, s'⟩, hrun, hout⟩ := Prog.ends_iff_run.mp hends
    refine ⟨out, s', hrun, ?_⟩
    cases out with
    | ok v => exact hout
    | error e => exact hout
  cases c with
  | allocBlock =>
    unfold Call.run
    rw [Prog.ends_bind]
    refine allocBlock_any g h (fun b s' h1 h2 h3 h4 h' _ => ?_) (fun b hb h1 h2 => ?_)
      fun hall => ?_
    · obtain ⟨hs', himg⟩ := key _ s' h'
      exact ⟨hs', .inl ⟨b, h1, h2, h3, h4, rfl, himg⟩⟩
    · exact ⟨hs, .inr (.inr ⟨b, hb, h1, h2, rfl, rfl⟩)⟩
    · exact ⟨hs, .inr (.inl ⟨hall, rfl, rfl⟩)⟩
  | allocInode =>
    unfold Call.run
    rw [Prog.ends_bind]
    refine allocInode_any g h (fun b s' h1 h2 h3 h4 h' _ => ?_) (fun h0 => ?_) fun hall => ?_
    · obtain ⟨hs', himg⟩ := key _ s' h'
      exact ⟨hs', .inl ⟨b, h1, h2, h3, h4, rfl, himg⟩⟩
    · exact ⟨hs, .inr (.inr ⟨h0, rfl, rfl⟩)⟩
    · exact ⟨hs, .inr (.inl ⟨hall, rfl, rfl⟩)⟩
  | freeBlocks blocks =>
    unfold Call.run
    rw [Prog.ends_bind]
    refine freeBlocks_any g h (fun h1 h2 s' h' _ => ?_) fun hbad => ?_
    · obtain ⟨hs', himg⟩ := key _ s' h'
      exact ⟨hs', .inl ⟨⟨h1, h2⟩, rfl, himg⟩⟩
    · exact ⟨hs, .inr ⟨hbad, rfl, rfl⟩⟩
  | freeInode id =>
    unfold Call.run
    rw [Prog.ends_bind]
    refine freeInode_any g h (fun h1 h2 h3 s' h' _ => ?_) fun hbad => ?_
    · obtain ⟨hs', himg⟩ := key _ s' h'
      exact ⟨hs', .inl ⟨⟨h1, h2, h3⟩, rfl, himg⟩⟩
    · exact ⟨hs, .inr ⟨hbad, rfl, rfl⟩⟩

end Synced

/-! ## Histories -/

/-- A history: the calls made one after the other, with what each returned or threw. -/
inductive Runs (sb : Superblock) :
    FileSystem → List (Call × Except Exn (Option Nat)) → FileSystem → Prop where
  | nil (s : FileSystem) : Runs sb s [] s
  | cons {s s1 s' : FileSystem} {c : Call} {out : Except Exn (Option Nat)}
    {l : List (Call × Except Exn (Option Nat))} (h : (c.run sb).run s = some (out, s1))
    (rest : Runs sb s1 l s') : Runs sb s ((c, out) :: l) s'

section Histories

variable {sb : Superblock} {s s' : FileSystem} {l : List (Call × Except Exn (Option Nat))}

/-- A history in two parts. -/
theorem Runs.split {pre post : List (Call × Except Exn (Option Nat))}
    (h : Runs sb s (pre ++ post) s') : ∃ s1, Runs sb s pre s1 ∧ Runs sb s1 post s' := by
  induction pre generalizing s with
  | nil => exact ⟨s, .nil s, h⟩
  | cons e pre ih =>
    cases h with
    | cons hc rest =>
      obtain ⟨s1, h1, h2⟩ := ih rest
      exact ⟨s1, .cons hc h1, h2⟩

/-- The first call of a history, with what it may do. -/
theorem Runs.head (g : Regions sb) (hs : Synced sb s) {c : Call} {out : Except Exn (Option Nat)}
    (h : Runs sb s ((c, out) :: l) s') :
    ∃ s1, Synced sb s1 ∧ c.Spec sb s (.of sb s.disk) s1 (.of sb s1.disk) out ∧ Runs sb s1 l s' := by
  cases h with
  | cons hc rest =>
    obtain ⟨out', s1, hrun, hs1, hspec⟩ := c.step g hs
    rw [hc] at hrun
    obtain ⟨rfl, rfl⟩ := Prod.mk.inj (Option.some.inj hrun)
    exact ⟨_, hs1, hspec, rest⟩

theorem Runs.synced (g : Regions sb) (hs : Synced sb s) (h : Runs sb s l s') : Synced sb s' := by
  induction l generalizing s with
  | nil =>
    cases h
    exact hs
  | cons e l ih =>
    obtain ⟨s1, hs1, -, rest⟩ := h.head g hs
    exact ih hs1 rest

/-- A marked block stays marked until it is freed. -/
theorem Runs.dbit_kept (g : Regions sb) (hs : Synced sb s) (h : Runs sb s l s') {b : Nat}
    (hb : (Image.of sb s.disk).dbit b = true)
    (hnot : ∀ L, (Call.freeBlocks L, Except.ok none) ∈ l → b ∉ L) :
    (Image.of sb s'.disk).dbit b = true := by
  induction l generalizing s with
  | nil =>
    cases h
    exact hb
  | cons e l ih =>
    obtain ⟨c, out⟩ := e
    obtain ⟨s1, hs1, hspec, rest⟩ := h.head g hs
    refine ih hs1 rest ?_ fun L hL => hnot L (List.mem_cons_of_mem _ hL)
    cases c with
    | allocBlock =>
      rcases hspec with ⟨b', -, -, -, -, -, himg⟩ | ⟨-, -, rfl⟩ | ⟨_, -, -, -, -, rfl⟩
      · rw [himg]
        show Function.update (Image.of sb s.disk).dbit b' true b = true
        rw [Function.update_apply]
        split
        · rfl
        · exact hb
      · exact hb
      · exact hb
    | allocInode =>
      rcases hspec with ⟨id, -, -, -, -, -, himg⟩ | ⟨-, -, rfl⟩ | ⟨-, -, rfl⟩
      · rw [himg]
        exact hb
      · exact hb
      · exact hb
    | freeBlocks L =>
      rcases hspec with ⟨-, rfl, himg⟩ | ⟨-, -, rfl⟩
      · rw [himg]
        show ((Image.of sb s.disk).dbit b && decide (b ∉ L)) = true
        rw [hb, decide_eq_true (hnot L List.mem_cons_self)]
        rfl
      · exact hb
    | freeInode id =>
      rcases hspec with ⟨-, -, himg⟩ | ⟨-, -, rfl⟩
      · rw [himg]
        exact hb
      · exact hb

/-- A marked inode stays marked until it is freed. -/
theorem Runs.ibit_kept (g : Regions sb) (hs : Synced sb s) (h : Runs sb s l s') {x : Nat}
    (hx : (Image.of sb s.disk).ibit x = true) (hnot : (Call.freeInode x, Except.ok none) ∉ l) :
    (Image.of sb s'.disk).ibit x = true := by
  induction l generalizing s with
  | nil =>
    cases h
    exact hx
  | cons e l ih =>
    obtain ⟨c, out⟩ := e
    obtain ⟨s1, hs1, hspec, rest⟩ := h.head g hs
    refine ih hs1 rest ?_ fun hm => hnot (List.mem_cons_of_mem _ hm)
    cases c with
    | allocBlock =>
      rcases hspec with ⟨b', -, -, -, -, -, himg⟩ | ⟨-, -, rfl⟩ | ⟨_, -, -, -, -, rfl⟩
      · rw [himg]
        exact hx
      · exact hx
      · exact hx
    | allocInode =>
      rcases hspec with ⟨id, -, -, -, -, -, himg⟩ | ⟨-, -, rfl⟩ | ⟨-, -, rfl⟩
      · rw [himg]
        show Function.update (Image.of sb s.disk).ibit id true x = true
        rw [Function.update_apply]
        split
        · rfl
        · exact hx
      · exact hx
      · exact hx
    | freeBlocks L =>
      rcases hspec with ⟨-, -, himg⟩ | ⟨-, -, rfl⟩
      · rw [himg]
        exact hx
      · exact hx
    | freeInode id =>
      rcases hspec with ⟨-, rfl, himg⟩ | ⟨-, -, rfl⟩
      · rw [himg]
        show Function.update (Image.of sb s.disk).ibit id false x = true
        rw [Function.update_of_ne]
        · exact hx
        · rintro rfl
          exact hnot List.mem_cons_self
      · exact hx

/-- Between two times the same block is handed out it is freed. -/
theorem Runs.block_once (g : Regions sb) (hs : Synced sb s)
    {mid post : List (Call × Except Exn (Option Nat))} {b : Nat}
    (h : Runs sb s ((.allocBlock, .ok (some b)) :: mid ++ (.allocBlock, .ok (some b)) :: post) s') :
    ∃ L, (Call.freeBlocks L, Except.ok none) ∈ mid ∧ b ∈ L := by
  by_contra hno
  obtain ⟨s1, hs1, hspec, rest⟩ := Runs.head g hs h
  obtain ⟨s2, hmid, hlast⟩ := Runs.split rest
  have hs2 := hmid.synced g hs1
  have hset : (Image.of sb s1.disk).dbit b = true := by
    rcases hspec with ⟨b', -, -, -, -, hout, himg⟩ | ⟨-, hout, -⟩ | ⟨_, -, -, -, hout, -⟩
    · obtain rfl := Option.some.inj (Except.ok.inj hout)
      rw [himg]
      exact Function.update_self _ _ _
    · exact absurd hout nofun
    · exact absurd hout nofun
  have hkept := hmid.dbit_kept g hs1 hset fun L hL hb => hno ⟨L, hL, hb⟩
  obtain ⟨s3, -, hspec2, -⟩ := hlast.head g hs2
  rcases hspec2 with ⟨b', -, -, hclear, -, hout, -⟩ | ⟨-, hout, -⟩ | ⟨_, -, -, -, hout, -⟩
  · obtain rfl := Option.some.inj (Except.ok.inj hout)
    rw [hkept] at hclear
    exact Bool.noConfusion hclear
  · exact absurd hout nofun
  · exact absurd hout nofun

/-- Between two times the same inode is handed out it is freed. -/
theorem Runs.inode_once (g : Regions sb) (hs : Synced sb s)
    {mid post : List (Call × Except Exn (Option Nat))} {x : Nat}
    (h : Runs sb s ((.allocInode, .ok (some x)) :: mid ++ (.allocInode, .ok (some x)) :: post) s') :
    (Call.freeInode x, Except.ok none) ∈ mid := by
  by_contra hno
  obtain ⟨s1, hs1, hspec, rest⟩ := Runs.head g hs h
  obtain ⟨s2, hmid, hlast⟩ := Runs.split rest
  have hs2 := hmid.synced g hs1
  have hset : (Image.of sb s1.disk).ibit x = true := by
    rcases hspec with ⟨x', -, -, -, -, hout, himg⟩ | ⟨-, hout, -⟩ | ⟨-, hout, -⟩
    · obtain rfl := Option.some.inj (Except.ok.inj hout)
      rw [himg]
      exact Function.update_self _ _ _
    · exact absurd hout nofun
    · exact absurd hout nofun
  have hkept := hmid.ibit_kept g hs1 hset hno
  obtain ⟨s3, -, hspec2, -⟩ := hlast.head g hs2
  rcases hspec2 with ⟨x', -, -, hclear, -, hout, -⟩ | ⟨-, hout, -⟩ | ⟨-, hout, -⟩
  · obtain rfl := Option.some.inj (Except.ok.inj hout)
    rw [hkept] at hclear
    exact Bool.noConfusion hclear
  · exact absurd hout nofun
  · exact absurd hout nofun

/-- After loading any bitmaps, in every history of calls: the two copies of each bitmap agree, the
    next call does what it may and nothing else, and nothing is handed out twice. -/
theorem allocator_faithful {n : UInt32} (hv : validateSuperblock sb n = .ok ())
    (disk : Nat → Block) (clock : Nat → UInt64) (h : Runs sb (.mounted sb disk clock) l s') :
    Synced sb s' ∧
    (∀ c : Call, ∃ out s'', (c.run sb).run s' = some (out, s'') ∧ Synced sb s'' ∧
      c.Spec sb s' (.of sb s'.disk) s'' (.of sb s''.disk) out) ∧
    (∀ pre mid post b, l = pre ++ ((.allocBlock, .ok (some b)) :: mid ++
        (.allocBlock, .ok (some b)) :: post) →
      ∃ L, (Call.freeBlocks L, Except.ok none) ∈ mid ∧ b ∈ L) ∧
    (∀ pre mid post x, l = pre ++ ((.allocInode, .ok (some x)) :: mid ++
        (.allocInode, .ok (some x)) :: post) →
      (Call.freeInode x, Except.ok none) ∈ mid) := by
  have g := regions_of_validate hv
  have h0 := synced_mounted sb disk clock
  have hs := h.synced g h0
  refine ⟨hs, fun c => c.step g hs, fun pre mid post b hl => ?_, fun pre mid post x hl => ?_⟩
  · rw [hl] at h
    obtain ⟨s1, hpre, hrest⟩ := h.split
    exact hrest.block_once g (hpre.synced g h0)
  · rw [hl] at h
    obtain ⟨s1, hpre, hrest⟩ := h.split
    exact hrest.inode_once g (hpre.synced g h0)

/-- What comes of the calls `cs`, one after the other. -/
def outcomes (sb : Superblock) : FileSystem → List Call →
    Option (List (Except Exn (Option Nat)) × FileSystem)
  | s, [] => some ([], s)
  | s, c :: cs => match (c.run sb).run s with
    | some (out, s') => (outcomes sb s' cs).map fun r => (out :: r.1, r.2)
    | none => none

theorem runs_outcomes {cs : List Call} {outs : List (Except Exn (Option Nat))}
    (h : outcomes sb s cs = some (outs, s')) : Runs sb s (cs.zip outs) s' := by
  induction cs generalizing s outs with
  | nil =>
    obtain ⟨rfl, rfl⟩ := Prod.mk.inj (Option.some.inj h)
    exact .nil s
  | cons c cs ih =>
    unfold outcomes at h
    split at h
    · rename_i out s1 hrun
      obtain ⟨r, hr, hl⟩ := Option.map_eq_some_iff.mp h
      obtain ⟨rfl, rfl⟩ := Prod.mk.inj hl
      exact .cons hrun (ih hr)
    · contradiction

end Histories

end ConcurrentFs.Allocator
