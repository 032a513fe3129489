/-
  ConcurrentFs.GroupCommitTxn

  What is in the running transaction.  When `run_commit` takes the block list, it
  lists exactly the frames whose `in_txn` is set, so that nothing it does with them
  throws.
-/
import ConcurrentFs.GroupCommitLink

namespace ConcurrentFs.GroupCommit

open BufferCache (Op Call FrameId Event Image Shape results)
open BufferCache.State

/-! ## The block list -/

/-- The frames a running commit has still to release. -/
def Stage.remaining (blocks : List Nat) : Stage → List Nat
  | begin | block _ | copy .. | sync | append | syncCommit _ => blocks
  | frames _ todo => todo
  | _ => []

namespace Thread

/-- Frames in the transaction that are not in `txn_blocks_` because of this thread. -/
def pending : Thread → List Nat
  | modify _ b joined _ => if joined then [b] else []
  | addLock _ b => [b]
  | count j | cover j => j.blocks
  | work j st => st.remaining j.blocks
  | _ => []

/-- What a commit has in hand. -/
def JobOk : Thread → Prop
  | count j | cover j => j.blocks.Nodup
  | work j st => (st.remaining j.blocks).Nodup ∧ match st with
    | .begin | .sync | .append | .syncCommit _ => j.blocks.Nodup
    | .block todo | .copy _ todo => j.blocks.Nodup ∧ ∀ b ∈ todo, b ∈ j.blocks
    | _ => True
  | threw => False
  | _ => True

theorem pending_of_idle {t : Thread} (hg : t.inGate = false) (hc : t.commits = false) :
    t.pending = [] := by
  cases t <;> first | cases hg; done | cases hc; done | rfl

end Thread

structure Flags (cache : BufferCache.State) (txnBlocks : List Nat)
    (threads : Multiset Thread) : Prop where
  nodup : txnBlocks.Nodup
  flagged : ∀ b, Flagged cache b ↔ b ∈ txnBlocks ∨ ∃ t ∈ threads, b ∈ t.pending
  jobs : ∀ t ∈ threads, t.JobOk

theorem exists_goes {P : Thread → Prop} {t : Option Thread} {rest : Multiset Thread} :
    (∃ u ∈ goes t rest, P u) ↔ (∃ u, t = some u ∧ P u) ∨ ∃ u ∈ rest, P u := by
  constructor
  · rintro ⟨u, hu, hp⟩
    rcases mem_goes.mp hu with hu | hu
    · exact Or.inl ⟨u, hu, hp⟩
    · exact Or.inr ⟨u, hu, hp⟩
  · rintro (⟨u, hu, hp⟩ | ⟨u, hu, hp⟩)
    · exact ⟨u, mem_goes.mpr (Or.inl hu), hp⟩
    · exact ⟨u, mem_goes.mpr (Or.inr hu), hp⟩

theorem exists_cons {P : Thread → Prop} {t : Thread} {rest : Multiset Thread} :
    (∃ u ∈ t ::ₘ rest, P u) ↔ P t ∨ ∃ u ∈ rest, P u := by
  refine (exists_goes (t := some t)).trans (or_congr_left ⟨?_, fun h => ⟨t, rfl, h⟩⟩)
  rintro ⟨_, ⟨⟩, hp⟩
  exact hp

namespace Flags

variable {cache cache' : BufferCache.State} {txnBlocks : List Nat} {t : Thread}
  {rest : Multiset Thread}

/-- A thread goes on with what it has in hand. -/
theorem pass (h : Flags cache txnBlocks (t ::ₘ rest)) (t' : Option Thread)
    (hf : ∀ b, Flagged cache' b ↔ Flagged cache b)
    (hp : t.pending = (t'.map Thread.pending).getD []) (hj : ∀ u, t' = some u → u.JobOk) :
    Flags cache' txnBlocks (goes t' rest) where
  nodup := h.nodup
  flagged := by
    intro b
    rw [hf, h.flagged, exists_cons, exists_goes, hp]
    refine or_congr_right (or_congr_left ?_)
    cases t' with
    | none => simp
    | some u => simp
  jobs := forall_goes h.jobs hj

/-- The frames it has in hand change with those that are flagged. -/
theorem move (h : Flags cache txnBlocks (t ::ₘ rest)) (t' : Thread) (txnBlocks' : List Nat)
    (hn : txnBlocks'.Nodup) (hj : t'.JobOk)
    (hf : ∀ b, (Flagged cache b ↔ b ∈ txnBlocks ∨ b ∈ t.pending ∨ ∃ u ∈ rest, b ∈ u.pending) →
      (Flagged cache' b ↔ b ∈ txnBlocks' ∨ b ∈ t'.pending ∨ ∃ u ∈ rest, b ∈ u.pending)) :
    Flags cache' txnBlocks' (t' ::ₘ rest) where
  nodup := hn
  flagged := by
    intro b
    rw [exists_cons]
    refine hf b ?_
    rw [h.flagged, exists_cons]
  jobs := by
    intro u hu
    rcases Multiset.mem_cons.mp hu with rfl | hu
    · exact hj
    · exact h.jobs u (Multiset.mem_cons_of_mem hu)

end Flags

def State.Flags (s : State) : Prop := GroupCommit.Flags s.cache s.txnBlocks s.threads

theorem State.Flags.of_eq {s : State} (h : s.Flags) {threads : Multiset Thread}
    (ht : s.threads = threads) : GroupCommit.Flags s.cache s.txnBlocks threads := ht ▸ h

/-- A thread goes on that has no frames in hand. -/
theorem State.Flags.idle {s : State} (h : s.Flags) {t : Thread} {rest : Multiset Thread}
    (ht : s.threads = t ::ₘ rest) (t' : Option Thread) (hp : t.pending = [])
    (hp' : (t'.map Thread.pending).getD [] = []) (hj : ∀ u, t' = some u → u.JobOk) :
    GroupCommit.Flags s.cache s.txnBlocks (goes t' rest) :=
  (h.of_eq ht).pass t' (fun _ => .rfl) (hp.trans hp'.symm) hj

/-- A call begins. -/
theorem State.Flags.start {s : State} (h : s.Flags) (t : Thread) (hp : t.pending = [])
    (hj : t.JobOk) :
    GroupCommit.Flags s.cache s.txnBlocks (t ::ₘ s.threads) where
  nodup := h.nodup
  flagged := by
    intro b
    rw [exists_cons, hp, h.flagged]
    simp
  jobs := by
    intro u hu
    rcases Multiset.mem_cons.mp hu with rfl | hu
    · exact hj
    · exact h.jobs u hu

theorem flagged_update {c c' : BufferCache.State} {f : FrameId} {g : BufferCache.Frame}
    (hframes : c'.frames = Function.update c.frames f g) (hmap : c'.map = c.map)
    (hg : g.inTxn = (c.frames f).inTxn) (b : Nat) : Flagged c' b ↔ Flagged c b := by
  refine flagged_frame c c' hmap (fun x => ?_) b
  rw [hframes]
  exact inTxn_update hg x

/-- A commit goes on and keeps what it has in hand. -/
theorem State.Flags.work {s : State} (h : s.Flags) {j : Job} {st : Stage} {rest : Multiset Thread}
    (ht : s.threads = .work j st ::ₘ rest) (st' : Stage) {cache' : BufferCache.State}
    (hf : ∀ b, Flagged cache' b ↔ Flagged s.cache b)
    (hp : st.remaining j.blocks = st'.remaining j.blocks) (hj : (Thread.work j st').JobOk) :
    GroupCommit.Flags cache' s.txnBlocks (.work j st' ::ₘ rest) :=
  (h.of_eq ht).pass (some (.work j st')) hf hp (by rintro _ ⟨⟩; exact hj)

/-- What a thread that goes on had in hand. -/
theorem State.Flags.job {s : State} (h : s.Flags) {t : Thread} {rest : Multiset Thread}
    (ht : s.threads = t ::ₘ rest) : t.JobOk :=
  h.jobs t (by rw [ht]; exact Multiset.mem_cons_self ..)

/-- What a running commit has in hand is in the transaction. -/
theorem State.Flags.flagged_of_pending {s : State} (h : s.Flags) {t : Thread}
    {rest : Multiset Thread} (ht : s.threads = t ::ₘ rest) {b : Nat} (hb : b ∈ t.pending) :
    Flagged s.cache b :=
  (h.flagged b).mpr (Or.inr ⟨t, by rw [ht]; exact Multiset.mem_cons_self .., hb⟩)

/-- While one thread commits, no other has frames in hand. -/
theorem State.Locks.pending_rest {s : State} (hl : s.Locks) {t : Thread} {rest : Multiset Thread}
    (ht : s.threads = t ::ₘ rest) (hc : t.commits = true) : ∀ u ∈ rest, u.pending = [] := by
  intro u hu
  have hq := (hl.of_eq ht).self.quiet hc
  have hl' := hl.of_eq ht
  rw [hq.2.1] at hl'
  exact Thread.pending_of_idle (hl'.not_inGate (Multiset.mem_cons_of_mem hu))
    (hl'.not_commits hc hu)

theorem State.Flags.step {capacity maxTxnBlocks : Nat} {init : Nat → Block} {s s' : State}
    (h : s.Flags) (hl : s.Locks) (hk : Linked capacity init s)
    (hs : Step capacity maxTxnBlocks s s') :
    s'.Flags := by
  have hsh := hk.run.shape
  cases hs with
  | background hb =>
    exact ⟨h.nodup, fun b => ((hb.quiet hk.run hk.memory).flagged b).trans (h.flagged b), h.jobs⟩
  | callBeginOp => exact h.start .beginLoad rfl trivial
  | callCommit => exact h.start (.commitLock _) rfl trivial
  | callCheckpoint => exact h.start (.checkpointLock _) rfl trivial
  | callCommitIfOlder => exact h.start .olderLock rfl trivial
  | beginLoad rest ht => exact h.idle ht (some (.beginTry ..)) rfl rfl (by rintro _ ⟨⟩; trivial)
  | beginTry closed g rest ht =>
    refine h.idle ht (some _) rfl ?_ ?_
    · split <;> rfl
    · split <;> (rintro _ ⟨⟩; trivial)
  | beginCas g rest ht hc hg => exact h.idle ht (some (.op _)) rfl rfl (by rintro _ ⟨⟩; trivial)
  | beginCasFails g rest ht =>
    exact h.idle ht (some (.beginTry ..)) rfl rfl
      (by rintro _ ⟨⟩; trivial)
  | beginLock rest ht hh hc => exact h.idle ht (some .beginGate) rfl rfl (by rintro _ ⟨⟩; trivial)
  | beginGate rest ht =>
    refine h.idle ht (some _) rfl ?_ ?_
    · split <;> rfl
    · split <;> (rintro _ ⟨⟩; trivial)
  | beginRoom g rest ht =>
    refine h.idle ht (some _) rfl ?_ ?_
    · split <;> rfl
    · split <;> (rintro _ ⟨⟩; trivial)
  | beginShut rest ht => exact h.idle ht (some (.close _)) rfl rfl (by rintro _ ⟨⟩; trivial)
  | beginAdd rest ht => exact h.idle ht (some (.op _)) rfl rfl (by rintro _ ⟨⟩; trivial)
  | modifyHit o fresh fn b f rest ht hm =>
    refine (h.of_eq ht).move _ s.txnBlocks h.nodup trivial fun x hx => ?_
    rw [flagged_acquireHit hsh hm, hx]
    cases hin : (s.cache.frames f).inTxn with
    | false => simp [Thread.pending, Op.inTxn, or_comm, or_left_comm]
    | true =>
      -- the frame had joined already: it is flagged, and this thread need not add it
      have hb : x = b → x ∈ s.txnBlocks ∨ x ∈ (Thread.op o).pending ∨ ∃ u ∈ rest,
          x ∈ u.pending := by
        rintro rfl
        exact hx.mp ⟨f, hm, hin⟩
      constructor
      · rintro (hx | ⟨hx, -⟩)
        · exact hx
        · exact hb hx
      · exact Or.inl
  | @modifyMiss o fresh fn b t f rest ht hm htake hmem =>
    have htk := hsh.takeFrame capacity (shardFor b)
    have hfl := flagged_takeFrame hsh capacity (shardFor b)
    rw [htake] at htk hfl
    refine (h.of_eq ht).move _ s.txnBlocks h.nodup trivial fun x hx => ?_
    rw [flagged_acquireMiss htk.shape htk.mapped (htk.map b hm), hfl, hx]
    simp [Thread.pending, Op.inTxn, or_comm, or_left_comm]
  | modifyLoad o b joined op f calls rest ht hm =>
    exact (h.of_eq ht).pass (some (.modify ..)) (flagged_update rfl rfl (by rfl)) rfl
      (by rintro _ ⟨⟩; trivial)
  | modifyBytes o b joined fresh fn f calls rest ht hm hlk hlf =>
    exact (h.of_eq ht).pass (some (.modify ..)) (flagged_update rfl rfl (by rfl)) rfl
      (by rintro _ ⟨⟩; trivial)
  | modifyLoaded o b joined fresh fn f calls rest ht hm =>
    exact (h.of_eq ht).pass (some (.modify ..)) (flagged_update rfl rfl (by rfl)) rfl
      (by rintro _ ⟨⟩; trivial)
  | modifyFinish o b joined f calls rest ht hm =>
    refine (h.of_eq ht).pass (some _) (flagged_update rfl rfl (by rfl)) ?_ ?_
    · cases joined <;> rfl
    · cases joined <;> (rintro _ ⟨⟩; trivial)
  | addOld o b rest ht hh hb =>
    refine (h.of_eq ht).move (.op o) s.txnBlocks h.nodup trivial fun x hx => ?_
    rw [hx]
    constructor
    · rintro (hx | hx | hx)
      · exact Or.inl hx
      · rw [List.mem_singleton.mp hx]
        exact Or.inl hb
      · exact Or.inr (Or.inr hx)
    · rintro (hx | hx | hx)
      · exact Or.inl hx
      · cases hx
      · exact Or.inr (Or.inr hx)
  | addNew o b rest ht hh hb =>
    refine (h.of_eq ht).move (.addStore o) (s.txnBlocks ++ [b]) ?_ trivial fun x hx => ?_
    · exact List.nodup_append.mpr ⟨h.nodup, List.nodup_singleton b, by
        rintro a ha _ hb' rfl
        simp_all⟩
    · rw [hx]
      simp [Thread.pending, or_assoc]
  | addStore o rest ht => exact h.idle ht (some (.op o)) rfl rfl (by rintro _ ⟨⟩; trivial)
  | endCount o rest ht => exact h.idle ht (some .endLeave) rfl rfl (by rintro _ ⟨⟩; trivial)
  | endLeave rest ht =>
    refine h.idle ht _ rfl ?_ ?_
    · split
      · rfl
      · split <;> rfl
    · split
      · intros; contradiction
      · split <;> (rintro _ ⟨⟩; trivial)
  | endFull rest ht =>
    refine h.idle ht _ rfl ?_ ?_
    · split <;> rfl
    · split
      · intros; contradiction
      · rintro _ ⟨⟩
        trivial
  | endLock rest ht hh =>
    refine h.idle ht _ rfl ?_ ?_
    · split <;> rfl
    · split
      · intros; contradiction
      · rintro _ ⟨⟩
        trivial
  | endGate rest go ht hgo =>
    refine h.idle ht _ rfl ?_ ?_
    · split <;> rfl
    · split
      · rintro _ ⟨⟩
        trivial
      · intros; contradiction
  | commitLock before rest ht hh =>
    exact h.idle ht (some (.commitLoop ..)) rfl rfl
      (by rintro _ ⟨⟩; trivial)
  | commitReturns before target rest ht hle =>
    exact h.idle ht (some (.commitDone before)) rfl rfl (by rintro _ ⟨⟩; trivial)
  | commitLoop before target rest ht hlt =>
    refine h.idle ht (some _) rfl ?_ ?_
    · split <;> rfl
    · split <;> (rintro _ ⟨⟩; trivial)
  | commitWait before target rest ht hh =>
    exact h.idle ht (some (.commitLoop ..)) rfl rfl (by rintro _ ⟨⟩; trivial)
  | checkpointLock before rest ht hh =>
    exact h.idle ht (some (.checkpointLoop ..)) rfl rfl (by rintro _ ⟨⟩; trivial)
  | checkpointReturns before target rest ht hle =>
    exact h.idle ht (some (.checkpointDone before)) rfl rfl (by rintro _ ⟨⟩; trivial)
  | checkpointLoop before target rest ht hlt =>
    refine h.idle ht (some _) rfl ?_ ?_
    · split <;> rfl
    · split <;> (rintro _ ⟨⟩; trivial)
  | checkpointWait before target rest ht hh =>
    exact h.idle ht (some (.checkpointLoop ..)) rfl rfl (by rintro _ ⟨⟩; trivial)
  | olderReturns rest ht hh => exact h.idle ht none rfl rfl (by intros; contradiction)
  | olderLock rest ht hh hc hb =>
    exact h.idle ht (some (.close _)) rfl rfl
      (by rintro _ ⟨⟩; trivial)
  | closeBusy caller rest ht hr =>
    refine h.idle ht caller.wait rfl ?_ ?_
    · cases caller <;> rfl
    · cases caller <;> (rintro _ ⟨⟩; try trivial)
  | close caller rest ht hr => exact h.idle ht (some (.take _)) rfl rfl (by rintro _ ⟨⟩; trivial)
  | take caller rest ht =>
    -- the list goes from txn_blocks_ into the commit's hands
    refine (h.of_eq ht).move _ [] List.nodup_nil h.nodup fun x hx => ?_
    rw [hx]
    simp [Thread.pending]
  | count j rest ht =>
    have hj := h.job ht
    exact (h.of_eq ht).pass (some (.cover j)) (fun _ => .rfl) rfl (by rintro _ ⟨⟩; exact hj)
  | cover j rest ht =>
    refine (h.of_eq ht).pass (some (.work _ .begin)) (fun _ => .rfl) rfl ?_
    rintro _ ⟨⟩
    exact ⟨h.job ht, h.job ht⟩
  | beginRecord j rest ht =>
    split
    · rename_i hj
      refine h.work ht .size (fun _ => .rfl) ?_ ⟨List.nodup_nil, trivial⟩
      exact hj
    · exact h.work ht (.block j.blocks) (fun _ => .rfl) rfl
        ⟨(h.job ht).1, (h.job ht).1, fun _ => id⟩
  | copyTxnFrame j b todo f rest ht hm hin =>
    have hj := h.job ht
    refine h.work ht (.copy f todo) (flagged_update rfl rfl (by rfl)) rfl
      ⟨hj.1, hj.2.1, fun x hx => ?_⟩
    exact hj.2.2 x (List.mem_cons_of_mem b hx)
  | copyThrows j b todo rest ht hn =>
    -- what is listed is in the transaction, so this does not happen
    obtain ⟨f, hm, hin⟩ := h.flagged_of_pending ht (b := b)
      ((h.job ht).2.2 b (List.mem_cons_self ..))
    rw [hn f hm] at hin
    cases hin
  | copied j f todo calls rest ht hc hlk =>
    have hj := h.job ht
    exact h.work ht (.block todo) (fun _ => .rfl) rfl hj
  | staged j rest ht => exact h.work ht .sync (fun _ => .rfl) rfl ⟨(h.job ht).1, (h.job ht).1⟩
  | sync j rest ht =>
    have hj := h.job ht
    exact h.work ht .append (fun _ => .rfl) rfl hj
  | append j rest ht =>
    have hj := h.job ht
    exact h.work ht (.syncCommit _) (fun _ => .rfl) rfl hj
  | syncCommit j lsn rest ht =>
    exact h.work ht (.frames lsn j.blocks) (fun _ => .rfl) rfl ⟨(h.job ht).1, trivial⟩
  | commitFrame j lsn b todo f rest ht hm hin =>
    have hj : (b :: todo).Nodup := (h.job ht).1
    have hq := (hl.of_eq ht).self.quiet rfl
    have hrest := hl.pending_rest ht rfl
    refine (h.of_eq ht).move (.work j (.frames lsn todo)) s.txnBlocks h.nodup
      ⟨(List.nodup_cons.mp hj).2, trivial⟩ fun x hx => ?_
    have hno : (∃ u ∈ rest, x ∈ u.pending) ↔ False := by
      refine iff_false_intro ?_
      rintro ⟨u, hu, hxu⟩
      rw [hrest u hu] at hxu
      cases hxu
    have hb := (List.nodup_cons.mp hj).1
    rw [flagged_commitFrame hsh hm, hx, hq.2.2, hno]
    show (x ∈ [] ∨ x ∈ b :: todo ∨ False) ∧ x ≠ b ↔ x ∈ [] ∨ x ∈ todo ∨ False
    simp only [List.mem_cons, List.not_mem_nil, false_or, or_false]
    constructor
    · rintro ⟨rfl | hx, hne⟩
      · exact absurd rfl hne
      · exact hx
    · intro hxt
      refine ⟨Or.inr hxt, ?_⟩
      rintro rfl
      exact hb hxt
  | commitThrows j lsn b todo rest ht hn =>
    obtain ⟨f, hm, hin⟩ := h.flagged_of_pending ht (b := b) (List.mem_cons_self ..)
    rw [hn f hm] at hin
    cases hin
  | framesDone j lsn rest ht => exact h.work ht .size (fun _ => .rfl) rfl ⟨List.nodup_nil, trivial⟩
  | size j full rest ht =>
    split
    · exact h.work ht .writeBack (fun _ => .rfl) rfl ⟨List.nodup_nil, trivial⟩
    · exact h.work ht (.lock false) (fun _ => .rfl) rfl ⟨List.nodup_nil, trivial⟩
  | writeBack j rest ht hp => exact h.work ht .pass (fun _ => .rfl) rfl ⟨List.nodup_nil, trivial⟩
  | passed j rest ht hp => exact h.work ht .devSync (fun _ => .rfl) rfl ⟨List.nodup_nil, trivial⟩
  | devSync j rest ht => exact h.work ht .superblock (fun _ => .rfl) rfl ⟨List.nodup_nil, trivial⟩
  | superblock j rest ht => exact h.work ht .reset (fun _ => .rfl) rfl ⟨List.nodup_nil, trivial⟩
  | reset j rest ht => exact h.work ht (.lock true) (fun _ => .rfl) rfl ⟨List.nodup_nil, trivial⟩
  | lock j checkpointed rest ht hh =>
    exact h.idle ht (some (.reopen _)) rfl rfl
      (by rintro _ ⟨⟩; trivial)
  | reopen caller rest ht =>
    refine h.idle ht caller.resume rfl ?_ ?_
    · cases caller <;> rfl
    · cases caller <;> (rintro _ ⟨⟩; try trivial)

theorem State.Flags.empty (init : Nat → Block) (durable : Nat) :
    (State.empty init durable).Flags where
  nodup := List.nodup_nil
  flagged := by
    intro b
    constructor
    · rintro ⟨f, hf, -⟩
      cases hf
    · rintro (hb | ⟨t, ht, -⟩)
      · cases hb
      · exact absurd ht (Multiset.notMem_zero t)
  jobs := fun t ht => absurd ht (Multiset.notMem_zero t)

end ConcurrentFs.GroupCommit
