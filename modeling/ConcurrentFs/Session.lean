/-
  ConcurrentFs.Session

  Calls made one after the other.  `session` runs them, each alone, and what it
  leaves behind each of them is settled: no call is running, and the invariant of the
  threads holds with nobody holding anything.
-/
import ConcurrentFs.Alone

namespace ConcurrentFs

open Lib

/-- Calls made one after the other: what each answers, and what it leaves behind. -/
def session (sb : Superblock) : List Call → FileSystem → Option (List (Reply × FileSystem))
  | [], _ => some []
  | c :: cs, s =>
    match (c.run sb).run s with
    | some (.ok a, s') => (session sb cs s').map ((a, s') :: ·)
    | _ => none

/-- A file system that no call is using and that is as it should be. -/
def Settled (sb : Superblock) (s : FileSystem) : Prop :=
  ∃ W n, Body sb s W (Multiset.replicate n .empty)

section Session

variable {sb : Superblock} {disk : Nat → Block} {clock : Nat → UInt64} {n : Nat} {P : Users}
  {s : FileSystem}

theorem settled_mounted (g : Regions sb) (hc : Consistent sb (Image.of sb disk)) :
    Settled sb (.mounted sb disk clock) := ⟨_, 0, body_mounted clock g hc⟩

theorem Reached.settled (g : Regions sb) (hc : Consistent sb (Image.of sb disk))
    (h : Reached sb disk clock n P) (hP : P.Idle) : Settled sb P.state := by
  obtain ⟨W, k, hb, -⟩ := h.idle g hc hP
  exact ⟨W, k, hb⟩

theorem Settled.consistent (h : Settled sb s) : Consistent sb (Image.of sb s.disk) := by
  obtain ⟨W, k, hb⟩ := h
  rw [hb.shows.image]
  exact hb.cons

/-- The step lemma: a call returns, and leaves a settled file system. -/
theorem Settled.call (g : Regions sb) (h : Settled sb s) (c : Call) :
    ∃ a s', (c.run sb).run s = some (.ok a, s') ∧ Settled sb s' := by
  obtain ⟨W, k, hb⟩ := h
  obtain ⟨a, s', ds, W', hrun, hb', -⟩ := call_alone g hb c
  exact ⟨a, s', hrun, W', k, hb'⟩

theorem session_cons {c : Call} {cs : List Call} {a : Reply} {s' : FileSystem}
    {outs : List (Reply × FileSystem)} (hc : (c.run sb).run s = some (.ok a, s'))
    (hs : session sb cs s' = some outs) : session sb (c :: cs) s = some ((a, s') :: outs) := by
  rw [session, hc]
  dsimp only
  rw [hs]
  rfl

/-- The run lemma: all calls return, and each leaves a settled file system. -/
theorem Settled.session (g : Regions sb) (h : Settled sb s) (cs : List Call) :
    ∃ outs, session sb cs s = some outs ∧ outs.length = cs.length ∧
      ∀ o ∈ outs, Settled sb o.2 := by
  induction cs generalizing s with
  | nil => exact ⟨[], rfl, rfl, fun o ho => absurd ho List.not_mem_nil⟩
  | cons c cs ih =>
    obtain ⟨a, s', hc, h'⟩ := h.call g c
    obtain ⟨outs, hs, hlen, hall⟩ := ih h'
    exact ⟨(a, s') :: outs, session_cons hc hs, congrArg (· + 1) hlen,
      List.forall_mem_cons.mpr ⟨h', hall⟩⟩

/-- Whatever calls are made one after the other on a mounted image that satisfies the rules of
    layout.h, each returns, and the image it leaves satisfies them. -/
theorem session_consistent {blocks : UInt32} (hv : validateSuperblock sb blocks = .ok ())
    (hc : Consistent sb (Image.of sb disk)) (cs : List Call) :
    ∃ outs, session sb cs (.mounted sb disk clock) = some outs ∧ outs.length = cs.length ∧
      ∀ o ∈ outs, Consistent sb (Image.of sb o.2.disk) := by
  have g := regions_of_validate hv
  obtain ⟨outs, hs, hlen, hall⟩ := (settled_mounted g hc).session g cs
  exact ⟨outs, hs, hlen, fun o ho => (hall o ho).consistent⟩

/-- A disk with room for one directory: what fails for want of a block, and what takes the block
    that was given back. -/
theorem session_consistent_tiny : ∃ outs,
    session Mkfs.tinyLayout [newCall, .mkdir (some slashB), .rmdir (some slashA),
      .mkdir (some slashB)] (.mounted Mkfs.tinyLayout Mkfs.tinyDisk fun _ => 0) = some outs ∧
    outs.map (fun o => o.1.code) = [0, -28, 0, 0] ∧
    ∀ o ∈ outs, Consistent Mkfs.tinyLayout (Image.of Mkfs.tinyLayout o.2.disk) := by
  have hvalid : validateSuperblock Mkfs.tinyLayout 6 = .ok () := by decide
  obtain ⟨outs, hs, -, hall⟩ := session_consistent hvalid tinyDisk_consistent
    [newCall, .mkdir (some slashB), .rmdir (some slashA), .mkdir (some slashB)]
  refine ⟨outs, hs, ?_, hall⟩
  have hcodes : (session Mkfs.tinyLayout [newCall, .mkdir (some slashB), .rmdir (some slashA),
      .mkdir (some slashB)] (.mounted Mkfs.tinyLayout Mkfs.tinyDisk fun _ => 0)).map
        (fun l => l.map fun o => o.1.code) = some [0, -28, 0, 0] := by decide +kernel
  rw [hs] at hcodes
  exact Option.some.inj hcodes

/-! ## A call that fails -/

/-- Nobody opens inode 0. -/
theorem Body.balance_zero {W : World} {hs : Multiset Hands} (hb : Body sb s W hs) :
    openBalance s.opens 0 = 0 := by
  have he := hb.entry 0
  rw [he.balance, Nat.cast_eq_zero]
  refine Multiset.countP_eq_zero.mpr fun r hr ho => ?_
  have hkind := he.file r hr ho
  rw [show W.image.tree.kind 0 = none from (congrArg kindOf hb.cons.reserved.2).trans kindOf_zero]
    at hkind
  contradiction

/-- A call of any kind that returns a negative code has changed nothing: no block, neither bitmap in
    memory, not which slots are taken, and no inode's open count. -/
theorem failed_call_unchanged (g : Regions sb) (hc : Consistent sb (Image.of sb disk))
    (h : Reached sb disk clock n P) (hP : P.Idle) (c : Call) : ∃ a s',
    (c.run sb).run P.state = some (.ok a, s') ∧ (a.code < 0 →
      s'.disk = P.state.disk ∧ s'.inodes = P.state.inodes ∧ s'.blocks = P.state.blocks ∧
      (∀ fd, (s'.files fd).inUse = (P.state.files fd).inUse) ∧
      ∀ id, s'.openCount id = P.state.openCount id) := by
  obtain ⟨W, k, hb, -⟩ := h.idle g hc hP
  obtain ⟨a, s', W', hrun, hb', hfail⟩ := call_failed g hb c
  refine ⟨a, s', hrun, fun ha => ?_⟩
  obtain ⟨hdisk, hinodes, hblocks, hfiles⟩ := hfail ha
  refine ⟨hdisk, hinodes, hblocks, fun fd => ?_, fun id => ?_⟩
  · rw [Bool.eq_iff_iff, hb'.idle_inUse fd, hb.idle_inUse fd, hfiles fd]
  · rw [← Nat.cast_inj (R := Int), hb'.openCount_eq, hb.openCount_eq]
    by_cases h0 : id = 0
    · rw [h0, hb'.balance_zero, hb.balance_zero]
    · rw [hb'.idle_balance h0, hb.idle_balance h0]
      simp only [hfiles]

/-- One thread makes a file and fills the disk with it, the other makes a file that is empty. -/
def diskFull : Users :=
  Pool.play (Call.run Mkfs.tinyLayout)
    ⟨.mounted Mkfs.tinyLayout Mkfs.tinyDisk fun _ => 0, [.idle, .idle], []⟩
    (whole 0 (create slashA) ++ whole 0 (.write 0 (some fun _ => 1) 1) ++ whole 1 (create slashB))

theorem diskFull_reached : Reached Mkfs.tinyLayout Mkfs.tinyDisk (fun _ => 0) 2 diskFull :=
  Pool.Reachable.init.play _

/-- A write to the file that is empty gets no block. -/
theorem failed_call_unchanged_full : diskFull.codes = [(0, 0), (0, 1), (1, 1)] ∧ ∃ a s',
    ((Call.write 1 (some fun _ => 2) 1).run Mkfs.tinyLayout).run diskFull.state
      = some (.ok a, s') ∧ a.code = -28 ∧ diskFull.state.openCount 3 = 1 ∧
    s'.disk = diskFull.state.disk ∧ s'.inodes = diskFull.state.inodes ∧
    s'.blocks = diskFull.state.blocks ∧
    (∀ fd, (s'.files fd).inUse = (diskFull.state.files fd).inUse) ∧
    ∀ id, s'.openCount id = diskFull.state.openCount id := by
  obtain ⟨a, s', hrun, hfail⟩ := failed_call_unchanged
    (regions_of_planLayout Mkfs.tinyLayout_planned) tinyDisk_consistent diskFull_reached
    (Users.idle_of_all (by decide +kernel)) (.write 1 (some fun _ => 2) 1)
  have hcode : a.code = -28 := Prog.result_of_run hrun (by decide +kernel)
  exact ⟨by decide +kernel, a, s', hrun, hcode, by decide +kernel,
    hfail (by rw [hcode]; decide)⟩

end Session

end ConcurrentFs
