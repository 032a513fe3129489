/-
  ConcurrentFs.EngineThreads

  The engine over group commit with its threads: every run of `GroupCommit`, with its
  cache, its gate and its locks, is followed by a run of the engine.  An operation
  begins, changes a block and ends where its thread does; what `run_commit` does
  section by section the engine does write by write and sync by sync; and a commit or
  checkpoint that has returned to its caller is one the engine vouches for.

  The engine takes the transaction where `write_txn` stages BEGIN: from the moment
  `run_commit` has closed the gate no operation is inside it.
-/
import ConcurrentFs.EngineCache
import ConcurrentFs.GroupCommitLimit
import ConcurrentFs.StorageCrash

namespace ConcurrentFs.Engine

open BufferCache (FrameId Shape results)
open GroupCommit (Thread Stage Job Caller Linked Sweeping goes)
open Relation (ReflTransGen)
open Lib

/-! ## What a thread knows of the engine -/

/-- The `checkpoint` call that a commit runs for: the operations ended before, and the number of
    checkpoints it waits for. -/
def askedBy : Caller → Option (Nat × Nat)
  | .checkpoint before target => some (before, target)
  | _ => none

def asks : Thread → Option (Nat × Nat)
  | .checkpointLoop before target | .checkpointWait before target => some (before, target)
  | .close caller | .take caller | .reopen caller => askedBy caller
  | .count j | .cover j | .work j _ => askedBy j.caller
  | _ => none

/-- It has returned from a `commit` or `checkpoint` that was called after so many operations had
    ended. -/
def returns : Thread → Option Nat
  | .commitDone before | .checkpointDone before => some before
  | _ => none

/-- The engine is in this commit. -/
structure In (s : Storage) (j : Job) : Prop where
  covered : s.covered = j.covered
  wanted : s.checkpointWanted = j.wanted

/-- Where the engine is while `run_commit` is at a stage of its I/O. -/
def StageShows (s : Storage) (j : Job) : Stage → Prop
  | .begin => s.phase = .idle
  | .block todo => In s j ∧ s.hist.last.blocks = j.blocks ∧ ∃ txn, s.phase = .stage txn todo
  | .copy _ todo =>
    In s j ∧ s.hist.last.blocks = j.blocks ∧ ∃ txn b, s.phase = .stage txn (b :: todo)
  | .sync => In s j ∧ s.hist.last.blocks = j.blocks ∧ ∃ txn, s.phase = .stage txn []
  | .append => In s j ∧ s.hist.last.blocks = j.blocks ∧ ∃ txn, s.phase = .barrier txn
  | .syncCommit lsn => In s j ∧ s.hist.last.blocks = j.blocks ∧ lsn = s.wal.nextLsn - 1 ∧
    ∃ txn, s.phase = .secondSync txn
  | .frames lsn todo => In s j ∧ s.phase = .frames lsn todo
  | .size | .writeBack => In s j ∧ s.phase = .logged
  | .pass => In s j ∧ (s.phase = .writeBack ∨ s.phase = .wroteBack)
  | .devSync => In s j ∧ s.phase = .wroteBack
  | .superblock => In s j ∧ s.phase = .imgSynced
  | .reset => In s j ∧ s.phase = .sbSynced
  | .lock checkpointed => In s j ∧ if checkpointed then s.phase = .reset else
    s.phase = .logged ∧ j.wanted = false

structure ThreadShows (s : Storage) (t : Thread) : Prop where
  asked : ∀ p ∈ asks t, ∃ e, p.1 ≤ e ∧ (e, p.2) ∈ s.hist.calls
  returned : ∀ n ∈ returns t, n ≤ s.hist.promised
  stage : ∀ j st, t = .work j st → StageShows s j st

/-- It does the I/O of a commit. -/
def working : Thread → Bool
  | .work _ .begin => false
  | .work .. => true
  | _ => false

/-- The engine at a state of the threads. -/
structure Shows (init : Nat → Block) (s : Storage) (g : GroupCommit.State) : Prop where
  caches : Caches init s g.cache
  nextLsn : s.wal.nextLsn = g.nextLsn
  running : g.threads.countP (Thread.isOp · = true) = s.running
  ended : s.ended = g.ended
  through : s.committedThrough = g.committedThrough
  done : s.checkpointsDone = g.checkpointsDone
  open_ : s.closing = false
  idle : (∀ t ∈ g.threads, working t = false) → s.phase = .idle
  threads : ∀ t ∈ g.threads, ThreadShows s t

/-- The engine gets to where the threads are. -/
def Follows (init : Nat → Block) (s : Storage) (g : GroupCommit.State) : Prop :=
  ∃ s', ReflTransGen Step s s' ∧ Shows init s' g

/-! ## Threads that go on -/

/-- Two states of the threads that differ in nothing the engine has. -/
structure Same (g g' : GroupCommit.State) : Prop where
  cache : g'.cache = g.cache
  nextLsn : g'.nextLsn = g.nextLsn
  ended : g'.ended = g.ended
  through : g'.committedThrough = g.committedThrough
  done : g'.checkpointsDone = g.checkpointsDone

/-- The engine is where it was in its commit. -/
structure SamePlace (s s' : Storage) : Prop where
  phase : s'.phase = s.phase
  covered : s'.covered = s.covered
  wanted : s'.checkpointWanted = s.checkpointWanted
  last : s'.hist.last = s.hist.last
  nextLsn : s'.wal.nextLsn = s.wal.nextLsn

theorem StageShows.same {s s' : Storage} {j : Job} {st : Stage} (h : StageShows s j st)
    (hs : SamePlace s s') : StageShows s' j st := by
  have hin : In s j → In s' j := fun hin =>
    ⟨hs.covered.trans hin.covered, hs.wanted.trans hin.wanted⟩
  cases st <;> simp only [StageShows, hs.phase, hs.last, hs.nextLsn] at h ⊢
  case begin => exact h
  all_goals exact ⟨hin h.1, h.2⟩

theorem ThreadShows.mono {s s' : Storage} {t : Thread} (h : ThreadShows s t)
    (hcalls : ∀ c ∈ s.hist.calls, c ∈ s'.hist.calls) (hp : s.hist.promised ≤ s'.hist.promised)
    (hs : t.commits = false ∨ SamePlace s s') : ThreadShows s' t where
  asked := by
    intro p hp
    obtain ⟨e, he, hmem⟩ := h.asked p hp
    exact ⟨e, he, hcalls _ hmem⟩
  returned := fun n hn => Nat.le_trans (h.returned n hn) hp
  stage := by
    rintro j st rfl
    rcases hs with hs | hs
    · cases hs
    · exact (h.stage j st rfl).same hs

/-- A thread that neither waits for a checkpoint, nor has returned, nor commits. -/
theorem ThreadShows.of_none {s : Storage} {t : Thread} (ha : asks t = none)
    (hr : returns t = none) (hc : t.commits = false) : ThreadShows s t where
  asked := by
    rw [ha]
    exact nofun
  returned := by
    rw [hr]
    exact nofun
  stage := by
    rintro j st rfl
    cases hc

/-- A thread goes on with the call it is in. -/
theorem ThreadShows.pass {s : Storage} {t u : Thread} (h : ThreadShows s t) (ha : asks u = asks t)
    (hr : returns u = none) (hw : ∀ j st, u ≠ .work j st) : ThreadShows s u where
  asked := by
    rw [ha]
    exact h.asked
  returned := by
    rw [hr]
    exact nofun
  stage := fun j st hu => absurd hu (hw j st)

/-- `run_commit` goes on with its I/O. -/
theorem ThreadShows.work {s s' : Storage} {t : Thread} {j : Job} {st : Stage}
    (h : ThreadShows s t) (ha : askedBy j.caller = asks t)
    (hcalls : s'.hist.calls = s.hist.calls) (hst : StageShows s' j st) :
    ThreadShows s' (.work j st) where
  asked := by
    show ∀ p ∈ askedBy j.caller, _
    rw [ha, hcalls]
    exact h.asked
  returned := nofun
  stage := by
    rintro _ _ ⟨⟩
    exact hst

section Threads

variable {init : Nat → Block} {s s' : Storage} {g g' : GroupCommit.State} {t : Thread}
  {rest : Multiset Thread}

theorem commits_of_working (h : working t = true) : t.commits = true := by
  cases t <;> first | rfl | cases h

theorem inGate_of_isOp (h : t.isOp = true) : t.inGate = true := by
  cases t <;> first | rfl | cases h

/-- While nobody commits the engine is idle. -/
theorem Shows.idle_of_open (h : Shows init s g) (hc : ∀ t ∈ g.threads, t.commits = false) :
    s.phase = .idle := by
  refine h.idle fun t ht => ?_
  by_contra hw
  have := commits_of_working (by simpa using hw)
  rw [hc t ht] at this
  cases this

theorem Shows.idle_rest (h : Shows init s g) (ht : g.threads = t ::ₘ rest) (hw : working t = false)
    (hr : ∀ u ∈ rest, working u = false) : s.phase = .idle := by
  refine h.idle fun u hu => ?_
  rw [ht] at hu
  rcases Multiset.mem_cons.mp hu with rfl | hu
  · exact hw
  · exact hr u hu

/-- A thread goes on, and the engine with it. -/
theorem Shows.move (h : Shows init s g) (ht : g.threads = t ::ₘ rest) (t' : Option Thread)
    (hthreads : g'.threads = goes t' rest) (hcaches : Caches init s' g'.cache)
    (hlsn : s'.wal.nextLsn = g'.nextLsn)
    (hrun : s'.running + t.isOp.toNat = s.running + (t'.any Thread.isOp).toNat)
    (hended : s'.ended = g'.ended) (hthrough : s'.committedThrough = g'.committedThrough)
    (hdone : s'.checkpointsDone = g'.checkpointsDone) (hopen : s'.closing = false)
    (hidle : t'.any working = false → (∀ u ∈ rest, working u = false) → s'.phase = .idle)
    (hcalls : ∀ c ∈ s.hist.calls, c ∈ s'.hist.calls) (hp : s.hist.promised ≤ s'.hist.promised)
    (hrest : (∀ u ∈ rest, u.commits = false) ∨ SamePlace s s')
    (hself : ∀ u, t' = some u → ThreadShows s' u) : Shows init s' g' where
  caches := hcaches
  nextLsn := hlsn
  running := by
    have hold := h.running
    rw [ht, GroupCommit.Room.isOp_rest] at hold
    rw [hthreads, GroupCommit.countP_goes]
    omega
  ended := hended
  through := hthrough
  done := hdone
  open_ := hopen
  idle := by
    rw [hthreads]
    intro hw
    refine hidle ?_ fun u hu => hw u (GroupCommit.mem_goes.mpr (Or.inr hu))
    cases t' with
    | none => rfl
    | some u => exact hw u (GroupCommit.mem_goes.mpr (Or.inl rfl))
  threads := by
    rw [hthreads]
    intro u hu
    rcases GroupCommit.mem_goes.mp hu with hu | hu
    · exact hself u hu
    · refine (h.threads u ?_).mono hcalls hp (hrest.imp_left fun hr => hr u hu)
      rw [ht]
      exact Multiset.mem_cons_of_mem hu

section Turn

variable {closed held committing commitRequested checkpointRequested : Bool}
  {running txnCount checkpointed : Nat} {txnBlocks : List Nat} {synced : Nat → BufferCache.Image}
  {endedOps : List GroupCommit.Operation} {txns : List GroupCommit.Txn}

/-- A thread goes on, and the engine stays where it is. -/
theorem Shows.turn (h : Shows init s g) (ht : g.threads = t ::ₘ rest) (t' : Option Thread)
    (hop : t'.any Thread.isOp = t.isOp) (hw : working t = true → t'.any working = true)
    (hself : ThreadShows s t → ∀ u, t' = some u → ThreadShows s u) :
    Shows init s { g with
      closed := closed, held := held, committing := committing
      commitRequested := commitRequested, checkpointRequested := checkpointRequested
      running := running, txnCount := txnCount, checkpointed := checkpointed
      txnBlocks := txnBlocks, synced := synced, endedOps := endedOps, txns := txns
      threads := goes t' rest } := by
  apply h.move ht t'
  · rfl
  · exact h.caches
  · exact h.nextLsn
  · rw [hop]
  · exact h.ended
  · exact h.through
  · exact h.done
  · exact h.open_
  · intro hn
    refine h.idle_rest ht ?_
    by_contra hwt
    rw [hw (by simpa using hwt)] at hn
    cases hn
  · exact fun _ => id
  · exact Nat.le_refl _
  · exact Or.inr ⟨rfl, rfl, rfl, rfl, rfl⟩
  · exact hself (h.threads t (by rw [ht]; exact Multiset.mem_cons_self ..))

/-- It goes on without I/O and with the call it is in, or has returned from one that nobody
    vouches for. -/
def GoesOn (t : Thread) : Option Thread → Prop
  | some u => u.isOp = t.isOp ∧ asks u = asks t ∧ returns u = none ∧ ∀ j st, u ≠ .work j st
  | none => t.isOp = false

/-- The same for a thread that does no I/O, before and behind. -/
theorem Shows.idly (h : Shows init s g) (ht : g.threads = t ::ₘ rest) (t' : Option Thread)
    (hw : working t = false) (hu : GoesOn t t') :
    Follows init s { g with
      closed := closed, held := held, committing := committing
      commitRequested := commitRequested, checkpointRequested := checkpointRequested
      running := running, txnCount := txnCount, checkpointed := checkpointed
      txnBlocks := txnBlocks, synced := synced, endedOps := endedOps, txns := txns
      threads := goes t' rest } := by
  have hop : t'.any Thread.isOp = t.isOp := by
    cases t' with
    | none => exact hu.symm
    | some u => exact hu.1
  refine ⟨s, .refl, h.turn ht t' hop ?_ ?_⟩
  · rw [hw]
    exact nofun
  · rintro ht u rfl
    obtain ⟨-, ha, hr, hwu⟩ := hu
    exact ht.pass ha hr hwu

end Turn

/-- A call begins. -/
theorem Shows.start (h : Shows init s g) (t : Thread) (hop : t.isOp = false)
    (hself : ThreadShows s t) : Follows init s { g with threads := t ::ₘ g.threads } := by
  refine ⟨s, .refl, { h with
    running := by
      rw [GroupCommit.Room.isOp_rest, hop]
      exact h.running
    idle := fun hw => h.idle fun u hu => hw u (Multiset.mem_cons_of_mem hu)
    threads := by
      intro u hu
      rcases Multiset.mem_cons.mp hu with rfl | hu
      · exact hself
      · exact h.threads u hu }⟩

/-! ## Operations -/

/-- While the gate is open nobody commits. -/
theorem not_commits_of_open (hl : g.Locks) (hc : g.closed = false) {u : Thread}
    (hu : u ∈ g.threads) : u.commits = false := by
  by_contra hn
  have hq := (hl.relies u hu).quiet (by simpa using hn)
  rw [hc] at hq
  cases hq.1

/-- While a thread is in the gate nobody commits. -/
theorem not_commits_of_inGate (hl : g.Locks) (ht : g.threads = t ::ₘ rest) (hg : t.inGate = true)
    {u : Thread} (hu : u ∈ g.threads) : u.commits = false := by
  by_contra hn
  have hq := (hl.relies u hu).quiet (by simpa using hn)
  have hpos := hl.running_pos (u := t) (by rw [ht]; exact Multiset.mem_cons_self ..) hg
  omega

theorem Shows.running_pos (h : Shows init s g) (ht : t ∈ g.threads) (hop : t.isOp = true) :
    0 < s.running := by
  rw [← h.running]
  exact Multiset.countP_pos.mpr ⟨t, ht, hop⟩

/-- An operation gets in. -/
theorem Shows.enter (h : Shows init s g) (hl : g.Locks) (ht : g.threads = t ::ₘ rest)
    (hop : t.isOp = false) (hc : g.closed = false) {o : GroupCommit.Operation}
    (hthreads : g'.threads = .op o ::ₘ rest) (hsame : Same g g') : Follows init s g' := by
  have hno := fun u hu => not_commits_of_open hl hc (u := u) hu
  have hidle := h.idle_of_open hno
  refine ⟨_, .single (.beginOp hidle), ?_⟩
  apply h.move ht (some (.op o)) hthreads
  · rw [hsame.cache]
    exact h.caches.engine rfl (fun _ _ => rfl) rfl rfl rfl
  · exact h.nextLsn.trans hsame.nextLsn.symm
  · rw [hop]
    rfl
  · exact h.ended.trans hsame.ended.symm
  · exact h.through.trans hsame.through.symm
  · exact h.done.trans hsame.done.symm
  · exact h.open_
  · exact fun _ _ => hidle
  · exact fun _ => id
  · exact Nat.le_refl _
  · exact Or.inr ⟨rfl, rfl, rfl, rfl, rfl⟩
  · rintro _ ⟨⟩
    exact .of_none rfl rfl rfl

/-- An operation changes the bytes of its block. -/
theorem Shows.write (h : Shows init s g) (hl : g.Locks) (ht : g.threads = t ::ₘ rest)
    (hg : t.inGate = true) (hop : t.isOp = true) {b : Nat} {fresh : Bool} {fn : Block → Block}
    {c : BufferCache.State} (hb : 1 ≤ b ∧ b < s.sb.totalBlocks.toNat)
    (hcaches : Caches init (s.write b fresh fn) c) {u : Thread} (hu : u.isOp = true)
    (hshows : ∀ s, ThreadShows s u) :
    Follows init s { g with cache := c, threads := u ::ₘ rest } := by
  have hno := fun u hu => not_commits_of_inGate hl ht hg (u := u) hu
  have hidle := h.idle_of_open hno
  have hpos := h.running_pos (t := t) (by rw [ht]; exact Multiset.mem_cons_self ..) hop
  refine ⟨_, .single (.write b fresh fn hidle hpos hb.1 hb.2), ?_⟩
  apply h.move ht (some u)
  · rfl
  · exact hcaches
  · exact h.nextLsn
  · rw [hop, Option.any_some, hu]
    rfl
  · exact h.ended
  · exact h.through
  · exact h.done
  · exact h.open_
  · exact fun _ _ => hidle
  · exact fun _ => id
  · exact Nat.le_refl _
  · refine Or.inl fun v hv => hno v ?_
    rw [ht]
    exact Multiset.mem_cons_of_mem hv
  · rintro _ ⟨⟩
    exact hshows _

/-- An operation ends. -/
theorem Shows.endOp (h : Shows init s g) (hl : g.Locks) {o : GroupCommit.Operation}
    (ht : g.threads = .op o ::ₘ rest) :
    Follows init s { g with
      ended := g.ended + 1, endedOps := g.endedOps ++ [o], threads := .endLeave ::ₘ rest } := by
  have hno := fun u hu => not_commits_of_inGate hl ht rfl (u := u) hu
  have hidle := h.idle_of_open hno
  have hpos := h.running_pos (t := .op o) (by rw [ht]; exact Multiset.mem_cons_self ..) rfl
  refine ⟨_, .single (.endOp hidle hpos), ?_⟩
  apply h.move ht (some .endLeave) rfl
  · exact h.caches.engine rfl (fun _ _ => rfl) rfl rfl rfl
  · exact h.nextLsn
  · show s.running - 1 + 1 = s.running + 0
    omega
  · exact congrArg (· + 1) h.ended
  · exact h.through
  · exact h.done
  · exact h.open_
  · exact fun _ _ => hidle
  · exact fun _ => id
  · exact Nat.le_refl _
  · refine Or.inl fun v hv => hno v ?_
    rw [ht]
    exact Multiset.mem_cons_of_mem hv
  · rintro _ ⟨⟩
    exact .of_none rfl rfl rfl

/-- A call of an operation goes on in the cache before or behind its change. -/
theorem Shows.call (h : Shows init s g) (ht : g.threads = t ::ₘ rest) {s' : Storage}
    {c : BufferCache.State} (hs : Beside s s') (hp : s'.phase = s.phase)
    (hcaches : Caches init s' c) {u : Thread} (hop : u.isOp = t.isOp) (hw : working t = false)
    (hshows : ∀ s, ThreadShows s u) :
    Follows init s { g with cache := c, threads := u ::ₘ rest } := by
  have hr := hs.rest
  refine ⟨s', hs.steps, ?_⟩
  apply h.move ht (some u)
  · rfl
  · exact hcaches
  · rw [hr]
    exact h.nextLsn
  · rw [hr, Option.any_some, hop]
  · rw [hr]
    exact h.ended
  · rw [hr]
    exact h.through
  · rw [hr]
    exact h.done
  · rw [hr]
    exact h.open_
  · exact fun _ hr => hp.trans (h.idle_rest ht hw hr)
  · rw [hr]
    exact fun _ => id
  · rw [hr]
  · refine Or.inr ⟨hp, ?_, ?_, ?_, ?_⟩ <;> rw [hr]
  · rintro _ ⟨⟩
    exact hshows _

/-! ## Beside the journal -/

/-- While the engine writes back everything, `run_commit` waits for its pass. -/
theorem Shows.of_writeBack (h : Shows init s g) (hp : s.phase = .writeBack) :
    ∃ j, .work j .pass ∈ g.threads := by
  by_contra hn
  have hidle := h.idle fun u hu => ?_
  · rw [hp] at hidle
    cases hidle
  · by_contra hw
    obtain ⟨j, st, rfl⟩ : ∃ j st, u = .work j st := by
      cases u <;> first | exact ⟨_, _, rfl⟩ | exact absurd rfl hw
    have hst := (h.threads _ hu).stage j st rfl
    -- every other stage has the engine elsewhere
    cases st <;> simp only [StageShows, hp] at hst
    case pass => exact hn ⟨j, hu⟩
    case begin => cases hst
    case block | sync | append =>
      obtain ⟨-, -, txn, hne⟩ := hst
      cases hne
    case copy =>
      obtain ⟨-, -, txn, b, hne⟩ := hst
      cases hne
    case syncCommit =>
      obtain ⟨-, -, -, txn, hne⟩ := hst
      cases hne
    case frames | size | writeBack | devSync | superblock | reset => cases hst.2
    case lock checkpointed =>
      cases checkpointed
      · cases hst.2.1
      · cases hst.2

/-- A step of a read, of an eviction or of a write-back. -/
theorem Shows.background {capacity : Nat} {c : BufferCache.State} (h : Shows init s g)
    (hi : s.Inv) (hg : GroupCommit.Inv capacity init g)
    (hg' : GroupCommit.Inv capacity init { g with cache := c })
    (hb : GroupCommit.Background capacity g.cache c)
    (hrange : ∀ b f, g.cache.map b = some f → 1 ≤ b ∧ b < s.sb.totalBlocks.toNat) :
    Follows init s { g with cache := c } := by
  have hrun : (∃ d ∈ g.cache.calls, joins d = true) → 0 < s.running := by
    rintro ⟨d, hd, hj⟩
    have hjd : GroupCommit.ofJournal d = true := by
      cases d with
      | hit op => cases op <;> first | rfl | cases hj
      | load op => cases op <;> first | rfl | cases hj
      | loaded op => cases op <;> first | rfl | cases hj
      | _ => cases hj
    obtain ⟨u, hu, huc⟩ := hg.linked.thread_of_call hd hjd
    refine h.running_pos hu ?_
    cases u with
    | modify => rfl
    | work j st =>
      cases st <;> cases huc
      cases hj
    | _ => cases huc
  have hsw : s.phase = .writeBack → Sweeping c := by
    intro hp
    obtain ⟨j, hj⟩ := h.of_writeBack hp
    exact (hg'.history.told _ hj).2.2.2
  obtain ⟨s', hs, hcaches⟩ := h.caches.background hg.linked.run hi hb hrange hrun hsw
  have hr := hs.rest
  refine ⟨s', hs.steps, hcaches, ?_, ?_, ?_, ?_, ?_, ?_, ?_, fun u hu => ?_⟩
  · rw [hr]
    exact h.nextLsn
  · rw [hr]
    exact h.running
  · rw [hr]
    exact h.ended
  · rw [hr]
    exact h.through
  · rw [hr]
    exact h.done
  · rw [hr]
    exact h.open_
  · intro hw
    have hidle := h.idle hw
    rcases hs.phase with hp | ⟨hp, -⟩
    · exact hp.trans hidle
    · rw [hp] at hidle
      cases hidle
  · have hcalls : ∀ x ∈ s.hist.calls, x ∈ s'.hist.calls := by
      rw [hr]
      exact fun _ => id
    have hprom : s.hist.promised ≤ s'.hist.promised := by
      rw [hr]
    have hsame : s'.phase = s.phase → SamePlace s s' := by
      intro hp
      refine ⟨hp, ?_, ?_, ?_, ?_⟩ <;> rw [hr]
    rcases hs.phase with hp | ⟨hp, hp'⟩
    · exact (h.threads u hu).mono hcalls hprom (Or.inr (hsame hp))
    · have hu' := h.threads u hu
      by_cases hc : u.commits = true
      · -- the committer's pass has come to its end
        obtain ⟨j, hj⟩ := h.of_writeBack hp
        obtain ⟨rest, ht⟩ := Multiset.exists_cons_of_mem hj
        have hl := hg.locks
        rw [GroupCommit.State.Locks, ht] at hl
        have hu : u = .work j .pass := by
          rw [ht] at hu
          refine (Multiset.mem_cons.mp hu).resolve_right fun hur => ?_
          rw [hl.not_commits rfl hur] at hc
          cases hc
        subst hu
        obtain ⟨hin, -⟩ := hu'.stage j .pass rfl
        refine hu'.work rfl (by rw [hr]) ⟨⟨?_, ?_⟩, Or.inr hp'⟩
        · rw [hr]
          exact hin.covered
        · rw [hr]
          exact hin.wanted
      · exact hu'.mono hcalls hprom (Or.inl (by simpa using hc))

/-! ## Callers -/

/-- A `commit` returns. -/
theorem Shows.commitReturns (h : Shows init s g) {before target : Nat}
    (ht : g.threads = .commitLoop before target ::ₘ rest) (hb : before ≤ target)
    (hd : target ≤ g.committedThrough) :
    Follows init s { g with held := false, threads := .commitDone before ::ₘ rest } := by
  have hle : target ≤ s.committedThrough := by
    rw [h.through]
    exact hd
  refine ⟨_, .single (.commitReturn target hle), ?_⟩
  apply h.move ht (some (.commitDone before)) rfl
  · exact h.caches.engine rfl (fun _ _ => rfl) rfl rfl rfl
  · exact h.nextLsn
  · rfl
  · exact h.ended
  · exact h.through
  · exact h.done
  · exact h.open_
  · exact fun _ => h.idle_rest ht rfl
  · exact fun _ => id
  · exact Nat.le_max_left ..
  · exact Or.inr ⟨rfl, rfl, rfl, rfl, rfl⟩
  · rintro _ ⟨⟩
    refine ⟨nofun, ?_, fun _ _ hu => by cases hu⟩
    rintro _ ⟨⟩
    exact Nat.le_trans hb (Nat.le_max_right ..)

/-- A `checkpoint` begins to wait. -/
theorem Shows.checkpointLock (h : Shows init s g) {before : Nat}
    (ht : g.threads = .checkpointLock before ::ₘ rest) (hb : before ≤ g.ended) :
    Follows init s { g with
      held := true
      threads := .checkpointLoop before (g.checkpointsDone + 1) ::ₘ rest } := by
  refine ⟨_, .single .checkpointCall, ?_⟩
  apply h.move ht (some (.checkpointLoop before (g.checkpointsDone + 1))) rfl
  · exact h.caches.engine rfl (fun _ _ => rfl) rfl rfl rfl
  · exact h.nextLsn
  · rfl
  · exact h.ended
  · exact h.through
  · exact h.done
  · exact h.open_
  · exact fun _ => h.idle_rest ht rfl
  · exact fun c hc => List.mem_append_left _ hc
  · exact Nat.le_refl _
  · exact Or.inr ⟨rfl, rfl, rfl, rfl, rfl⟩
  · rintro _ ⟨⟩
    refine ⟨?_, nofun, fun _ _ hu => by cases hu⟩
    rintro _ ⟨⟩
    refine ⟨s.ended, h.ended ▸ hb, List.mem_append_right _ ?_⟩
    rw [← h.done]
    exact List.mem_singleton_self _

/-- A `checkpoint` returns. -/
theorem Shows.checkpointReturns (h : Shows init s g) {before target : Nat}
    (ht : g.threads = .checkpointLoop before target ::ₘ rest) (hd : target ≤ g.checkpointsDone) :
    Follows init s { g with held := false, threads := .checkpointDone before ::ₘ rest } := by
  have hself := h.threads (.checkpointLoop before target)
    (by rw [ht]; exact Multiset.mem_cons_self ..)
  obtain ⟨e, he, hmem⟩ := hself.asked (before, target) rfl
  have hle : target ≤ s.checkpointsDone := by
    rw [h.done]
    exact hd
  refine ⟨_, .single (.checkpointReturn e target hmem hle), ?_⟩
  apply h.move ht (some (.checkpointDone before)) rfl
  · exact h.caches.engine rfl (fun _ _ => rfl) rfl rfl rfl
  · exact h.nextLsn
  · rfl
  · exact h.ended
  · exact h.through
  · exact h.done
  · exact h.open_
  · exact fun _ => h.idle_rest ht rfl
  · exact fun _ => id
  · exact Nat.le_max_left ..
  · exact Or.inr ⟨rfl, rfl, rfl, rfl, rfl⟩
  · rintro _ ⟨⟩
    refine ⟨nofun, ?_, fun _ _ hu => by cases hu⟩
    rintro _ ⟨⟩
    exact Nat.le_trans he (Nat.le_max_right ..)

/-! ## Commits -/

/-- The engine goes on with its commit. -/
structure Commits (s s' : Storage) : Prop where
  running : s'.running = s.running
  ended : s'.ended = s.ended
  through : s'.committedThrough = s.committedThrough
  done : s'.checkpointsDone = s.checkpointsDone
  closing : s'.closing = s.closing
  calls : s'.hist.calls = s.hist.calls
  promised : s'.hist.promised = s.hist.promised

/-- `run_commit` goes on with its I/O, and the engine does what it does. -/
theorem Shows.io (h : Shows init s g) (hl : g.Locks) {j : Job} {st st' : Stage}
    (ht : g.threads = .work j st ::ₘ rest) (hs : ReflTransGen Step s s') (hc : Commits s s')
    {c : BufferCache.State} {nextLsn checkpointed : Nat} {synced : Nat → BufferCache.Image}
    {txns : List GroupCommit.Txn} (hcaches : Caches init s' c) (hlsn : s'.wal.nextLsn = nextLsn)
    (hw : working (.work j st') = true) (hst : StageShows s' j st') :
    Follows init s { g with
      cache := c, nextLsn := nextLsn, checkpointed := checkpointed, synced := synced
      txns := txns, threads := .work j st' ::ₘ rest } := by
  refine ⟨s', hs, ?_⟩
  apply h.move ht (some (.work j st'))
  · rfl
  · exact hcaches
  · exact hlsn
  · rw [hc.running]
    rfl
  · exact hc.ended.trans h.ended
  · exact hc.through.trans h.through
  · exact hc.done.trans h.done
  · exact hc.closing.trans h.open_
  · intro hn
    rw [Option.any_some, hw] at hn
    cases hn
  · rw [hc.calls]
    exact fun _ => id
  · rw [hc.promised]
  · rw [GroupCommit.State.Locks, ht] at hl
    exact Or.inl fun u hu => hl.not_commits rfl hu
  · rintro _ ⟨⟩
    exact (h.threads _ (by rw [ht]; exact Multiset.mem_cons_self ..)).work rfl hc.calls hst

/-- What the engine knows of the commit that is at this stage. -/
theorem Shows.at_ (h : Shows init s g) {j : Job} {st : Stage}
    (ht : g.threads = .work j st ::ₘ rest) : StageShows s j st :=
  (h.threads _ (by rw [ht]; exact Multiset.mem_cons_self ..)).stage j st rfl

/-- The blocks a commit has taken are those the engine has. -/
theorem Shows.blocks_perm {capacity : Nat} (h : Shows init s g) (hi : s.Inv)
    (hg : GroupCommit.Inv capacity init g) {j : Job} (ht : g.threads = .work j .begin ::ₘ rest) :
    j.blocks.Perm s.txnBlocks := by
  have hl := hg.locks.of_eq ht
  have hq := hl.self.quiet rfl
  have hf := hg.flags.of_eq ht
  have hidle : s.phase = .idle := h.at_ ht
  have htxn : s.inTxnBlocks = s.txnBlocks := by
    rw [Storage.inTxnBlocks, hidle]
    rfl
  have hno : ∀ d ∈ g.cache.calls, joins d = false := by
    intro d hd
    have hin := (hg.linked.no_modify hg.locks hq.2.1 d hd).1
    cases d <;> first | exact hin | rfl
  have hnodup := hi.cache.nodup
  rw [htxn] at hnodup
  refine (List.perm_ext_iff_of_nodup (hf.jobs _ (Multiset.mem_cons_self ..)).2 hnodup).mpr
    fun b => ?_
  -- both are the blocks whose frames are in the transaction
  have hflag := hf.flagged b
  rw [hq.2.2, GroupCommit.exists_cons] at hflag
  have hb : GroupCommit.Flagged g.cache b ↔ b ∈ j.blocks := by
    refine hflag.trans ⟨?_, fun hb => Or.inr (Or.inl hb)⟩
    rintro (hn | hb | ⟨u, hu, hub⟩)
    · cases hn
    · exact hb
    · obtain ⟨hug, huc⟩ := hl.idle_of_commits rfl hu
      rw [GroupCommit.Thread.pending_of_idle hug huc] at hub
      cases hub
  rw [← hb, ← htxn, hi.cache.inTxn b]
  constructor
  · rintro ⟨f, hm, hin⟩
    exact (h.caches.frames.inTxn_iff hno hm).mp hin
  · rintro ⟨x, hx, hin⟩
    obtain ⟨f, hm, -, hs⟩ := h.caches.frames.of_cached hx
    exact ⟨f, hm, hs.inTxn hin⟩

/-- The transaction is taken, and BEGIN staged. -/
theorem Shows.beginRecord {capacity : Nat} (h : Shows init s g) (hi : s.Inv)
    (hg : GroupCommit.Inv capacity init g) {j : Job} (ht : g.threads = .work j .begin ::ₘ rest) :
    Follows init s { g with
      nextLsn := g.nextLsn + if j.blocks = [] then 0 else 1
      threads := .work j (if j.blocks = [] then .size else .block j.blocks) ::ₘ rest } := by
  have hl := hg.locks.of_eq ht
  have hq := hl.self.quiet rfl
  have hidle : s.phase = .idle := h.at_ ht
  have hrun : s.running = 0 := by
    rw [← h.running, ht]
    refine Multiset.countP_eq_zero.mpr fun u hu hop => ?_
    rw [hq.2.1] at hl
    have hug := hl.not_inGate hu
    rw [inGate_of_isOp hop] at hug
    cases hug
  have hcovered : s.ended = j.covered := by
    have htold := hg.history.told (.work j .begin) (by rw [ht]; exact Multiset.mem_cons_self ..)
    exact h.ended.trans htold.2.1.symm
  have hperm := h.blocks_perm hi hg ht
  have hstep : Step s (s.commitBegin j.blocks j.wanted false) :=
    .commitBegin j.blocks j.wanted false hidle hrun hperm nofun
  by_cases hb : j.blocks = []
  · rw [Storage.commitBegin, if_pos hb] at hstep
    rw [if_pos hb, if_pos hb]
    apply h.io hg.locks ht (.single hstep)
    · exact ⟨rfl, rfl, rfl, rfl, h.open_.symm, rfl, rfl⟩
    · exact h.caches.engine rfl (fun _ _ => rfl) rfl rfl rfl
    · exact h.nextLsn
    · rfl
    · exact ⟨⟨hcovered, rfl⟩, rfl⟩
  · rw [Storage.commitBegin, if_neg hb] at hstep
    rw [if_neg hb, if_neg hb]
    apply h.io hg.locks ht (.single hstep)
    · exact ⟨rfl, rfl, rfl, rfl, h.open_.symm, rfl, rfl⟩
    · apply h.caches.engine
      · exact History.visible_taken (h := s.hist) rfl
      · exact fun _ _ => rfl
      · rfl
      · rfl
      · exact Wal.stageRecord_durableLsn ..
    · exact (Wal.stageRecord_nextLsn ..).trans (congrArg (· + 1) h.nextLsn)
    · rfl
    · refine ⟨⟨hcovered, rfl⟩, ?_, _, rfl⟩
      refine (congrArg Txn.blocks (History.last_taken (h := s.hist) _)).trans ?_
      rw [Txn.blocks, List.map_map]
      exact List.map_id _

/-- A frame is copied, and its BLOCK record staged. -/
theorem Shows.copied {capacity : Nat} (h : Shows init s g) (hi : s.Inv)
    (hg : GroupCommit.Inv capacity init g) {j : Job} {f : FrameId} {todo : List Nat}
    {calls : Multiset BufferCache.Call} (ht : g.threads = .work j (.copy f todo) ::ₘ rest)
    (hc : g.cache.calls = .copy f ::ₘ calls) :
    Follows init s { g with
      cache := { g.cache with calls := .unpin f ::ₘ calls }
      nextLsn := g.nextLsn + 1
      threads := .work j (.block todo) ::ₘ rest } := by
  obtain ⟨hin, hlast, txn, b, hp⟩ := h.at_ ht
  -- the block is one of the transaction, so it has a frame
  have hof := hi.phase
  rw [hp] at hof
  have htxn : s.inTxnBlocks = s.hist.last.blocks := by
    rw [Storage.inTxnBlocks, hp]
    rfl
  obtain ⟨x, hx, hxin⟩ := (hi.cache.inTxn b).mp (by
    rw [htxn]
    exact hof.2.subset (List.mem_cons_self ..))
  apply h.io hg.locks ht (.single (.stageBlock txn b todo x hp hx hxin))
  · exact ⟨rfl, rfl, rfl, rfl, rfl, rfl, rfl⟩
  · have hcaches : Caches init s { g.cache with calls := .unpin f ::ₘ calls } := by
      apply h.caches.besidePass
      · apply Alike.same
        · rfl
        · rfl
        · rw [hc]
          exact .move (fun _ => rfl) (fun _ => rfl) fun hj => by cases hj
      · rfl
      · rfl
      · rfl
      · rfl
    exact hcaches.engine rfl (fun _ _ => rfl) rfl rfl (Wal.stageRecord_durableLsn ..)
  · exact (Wal.stageRecord_nextLsn ..).trans (congrArg (· + 1) h.nextLsn)
  · rfl
  · exact ⟨⟨hin.covered, hin.wanted⟩, hlast, txn, rfl⟩

/-- The log is synced, and all that has been logged is durable. -/
theorem Caches.synced (h : Caches init s g.cache) (hlsn : s.wal.nextLsn = g.nextLsn)
    (hv : s'.hist.visible = s.hist.visible)
    (himg : ∀ b, b ≠ 0 → s'.img.contents b = s.img.contents b) (hcache : s'.cache = s.cache)
    (hpass : s'.pass = s.pass) (hd : s'.wal.durableLsn = s.wal.nextLsn - 1) :
    Caches init s' { g.cache with durable := g.nextLsn - 1 } where
  spec := h.spec.trans hv.symm
  disk := fun b hb => (h.disk b hb).trans (himg b hb).symm
  frames := by
    rw [hcache]
    exact h.frames.alike (.same rfl rfl (.refl _))
  pass := hpass.trans h.pass
  ready := h.ready
  durable := by
    rw [hd, hlsn]

theorem Shows.sync (h : Shows init s g) (hl : g.Locks) {j : Job}
    (ht : g.threads = .work j .sync ::ₘ rest) :
    Follows init s { g with
      cache := { g.cache with durable := g.nextLsn - 1 }
      threads := .work j .append ::ₘ rest } := by
  obtain ⟨hin, hlast, txn, hp⟩ := h.at_ ht
  have hsteps : ReflTransGen Step s _ :=
    (ReflTransGen.single (Step.flushTxn txn hp)).tail (.firstSyncDone txn rfl)
  apply h.io hl ht hsteps
  · exact ⟨rfl, rfl, rfl, rfl, rfl, rfl, rfl⟩
  · apply h.caches.synced h.nextLsn
    · rfl
    · exact fun _ _ => rfl
    · rfl
    · rfl
    · exact congrArg (· - 1) s.wal.flush_nextLsn
  · exact s.wal.flush_nextLsn.trans h.nextLsn
  · rfl
  · exact ⟨⟨hin.covered, hin.wanted⟩, hlast, txn, rfl⟩

theorem Shows.append (h : Shows init s g) (hl : g.Locks) {j : Job}
    (ht : g.threads = .work j .append ::ₘ rest) :
    Follows init s { g with
      nextLsn := g.nextLsn + 1, threads := .work j (.syncCommit g.nextLsn) ::ₘ rest } := by
  obtain ⟨hin, hlast, txn, hp⟩ := h.at_ ht
  apply h.io hl ht (.single (.appendCommit txn hp))
  · exact ⟨rfl, rfl, rfl, rfl, rfl, rfl, rfl⟩
  · exact h.caches.engine rfl (fun _ _ => rfl) rfl rfl (Wal.append_durableLsn ..)
  · exact (Wal.append_nextLsn ..).trans (congrArg (· + 1) h.nextLsn)
  · rfl
  · refine ⟨⟨hin.covered, hin.wanted⟩, hlast, ?_, txn, rfl⟩
    show g.nextLsn = (s.wal.append .commit txn).nextLsn - 1
    rw [Wal.append_nextLsn, h.nextLsn]
    rfl

theorem Shows.syncCommit (h : Shows init s g) (hi : s.Inv) (hl : g.Locks) {j : Job} {lsn : Nat}
    (ht : g.threads = .work j (.syncCommit lsn) ::ₘ rest) :
    Follows init s { g with
      cache := { g.cache with durable := g.nextLsn - 1 }
      txns := GroupCommit.recordCommit g.txns lsn
      threads := .work j (.frames lsn j.blocks) ::ₘ rest } := by
  obtain ⟨hin, hlast, rfl, txn, hp⟩ := h.at_ ht
  -- the transaction that was taken last
  have hlogging : s.phase.logging = true := by
    rw [hp]
    rfl
  have hne : s.hist.txns ≠ [] := List.ne_nil_of_mem (hi.last_mem hlogging)
  have hget : s.hist.txns.getLast? = some s.hist.last := by
    rw [History.last, List.getLast?_eq_some_getLast hne]
    rfl
  apply h.io hl ht (.single (.secondSyncDone txn _ hp hget))
  · exact ⟨rfl, rfl, rfl, rfl, rfl, rfl, rfl⟩
  · exact h.caches.synced h.nextLsn rfl (fun _ _ => rfl) rfl rfl rfl
  · exact h.nextLsn
  · rfl
  · refine ⟨⟨hin.covered, hin.wanted⟩, ?_⟩
    rw [hlast]

theorem Shows.commitFrame {capacity : Nat} (h : Shows init s g)
    (hg : GroupCommit.Inv capacity init g) {j : Job} {lsn b : Nat} {todo : List Nat} {f : FrameId}
    (ht : g.threads = .work j (.frames lsn (b :: todo)) ::ₘ rest) (hm : g.cache.map b = some f)
    (hin : (g.cache.frames f).inTxn = true) :
    Follows init s { g with
      cache := g.cache.commitFrame b f lsn, threads := .work j (.frames lsn todo) ::ₘ rest } := by
  have hq := (hg.locks.of_eq ht).self.quiet rfl
  obtain ⟨hj, hp⟩ := h.at_ ht
  obtain ⟨x, hx, hxin, hcaches⟩ := h.caches.commitFrame hg.linked.run.shape lsn hm hin
    fun d hd => (hg.linked.no_modify hg.locks hq.2.1 d hd).1
  apply h.io hg.locks ht (.single (.commitFrame lsn b todo x hp hx hxin))
  · exact ⟨rfl, rfl, rfl, rfl, rfl, rfl, rfl⟩
  · exact hcaches.engine rfl (fun _ _ => rfl) rfl rfl rfl
  · exact h.nextLsn
  · rfl
  · exact ⟨⟨hj.covered, hj.wanted⟩, rfl⟩

theorem Shows.framesDone (h : Shows init s g) (hl : g.Locks) {j : Job} {lsn : Nat}
    (ht : g.threads = .work j (.frames lsn []) ::ₘ rest) :
    Follows init s { g with threads := .work j .size ::ₘ rest } := by
  obtain ⟨hin, hp⟩ := h.at_ ht
  apply h.io hl ht (.single (.framesDone lsn hp))
  · exact ⟨rfl, rfl, rfl, rfl, rfl, rfl, rfl⟩
  · exact h.caches.engine rfl (fun _ _ => rfl) rfl rfl rfl
  · exact h.nextLsn
  · rfl
  · exact ⟨⟨hin.covered, hin.wanted⟩, rfl⟩

/-! ## Checkpoints -/

/-- `write_back_all` begins. -/
theorem Shows.writeBack (h : Shows init s g) (hl : g.Locks) {j : Job}
    (ht : g.threads = .work j .writeBack ::ₘ rest) (hpass : g.cache.pass = none) :
    Follows init s { g with
      cache := g.cache.setPass ⟨GroupCommit.sizeMax, [], [], 0, .pick 0⟩
      threads := .work j .pass ::ₘ rest } := by
  obtain ⟨hin, hp⟩ := h.at_ ht
  have hnone : s.pass = none := by
    rw [h.caches.pass, hpass]
    rfl
  apply h.io hl ht (.single (.checkpointBegin hp hnone))
  · exact ⟨rfl, rfl, rfl, rfl, rfl, rfl, rfl⟩
  · refine ⟨h.caches.spec, h.caches.disk, h.caches.frames.alike (.same rfl rfl (.refl _)), rfl, ?_,
      h.caches.durable⟩
    rintro q ⟨⟩
    exact rfl
  · exact h.nextLsn
  · rfl
  · exact ⟨⟨hin.covered, hin.wanted⟩, Or.inl rfl⟩

/-- It is over: its pass, and so the engine's, has come to its end. -/
theorem Shows.passed (h : Shows init s g) (hi : s.Inv) (hl : g.Locks) {j : Job}
    (ht : g.threads = .work j .pass ::ₘ rest) (hpass : g.cache.pass = none) :
    Follows init s { g with threads := .work j .devSync ::ₘ rest } := by
  obtain ⟨hin, hp⟩ := h.at_ ht
  have hwrote : s.phase = .wroteBack := by
    refine hp.resolve_left fun hp => ?_
    obtain ⟨p, hps, -⟩ := hi.writeBack hp
    rw [h.caches.pass, hpass] at hps
    cases hps
  apply h.io hl ht .refl
  · exact ⟨rfl, rfl, rfl, rfl, rfl, rfl, rfl⟩
  · exact h.caches
  · exact h.nextLsn
  · rfl
  · exact ⟨hin, hwrote⟩

theorem Shows.devSync (h : Shows init s g) (hl : g.Locks) {j : Job}
    (ht : g.threads = .work j .devSync ::ₘ rest) :
    Follows init s { g with
      synced := g.cache.disk, checkpointed := g.ended
      threads := .work j .superblock ::ₘ rest } := by
  obtain ⟨hin, hp⟩ := h.at_ ht
  apply h.io hl ht (.single (.checkpointSync hp))
  · exact ⟨rfl, rfl, rfl, rfl, rfl, rfl, rfl⟩
  · exact h.caches.engine rfl (fun _ _ => rfl) rfl rfl rfl
  · exact h.nextLsn
  · rfl
  · exact ⟨⟨hin.covered, hin.wanted⟩, rfl⟩

/-- The superblock is written, and the image synced once more. -/
theorem Shows.superblock (h : Shows init s g) (hl : g.Locks) {j : Job}
    (ht : g.threads = .work j .superblock ::ₘ rest) :
    Follows init s { g with
      synced := g.cache.disk, threads := .work j .reset ::ₘ rest } := by
  obtain ⟨hin, hp⟩ := h.at_ ht
  have hsteps : ReflTransGen Step s _ :=
    (ReflTransGen.single (Step.checkpointSb hp)).tail (.checkpointSbSync rfl)
  apply h.io hl ht hsteps
  · exact ⟨rfl, rfl, rfl, rfl, rfl, rfl, rfl⟩
  · refine h.caches.engine rfl (fun b hb => ?_) rfl rfl rfl
    rw [BlockFile.contents_sync, BlockFile.contents_write]
    exact Function.update_of_ne hb ..
  · exact h.nextLsn
  · rfl
  · exact ⟨⟨hin.covered, hin.wanted⟩, rfl⟩

/-- The log is emptied. -/
theorem Shows.reset {capacity : Nat} (h : Shows init s g) (hg : GroupCommit.Inv capacity init g)
    {j : Job} (ht : g.threads = .work j .reset ::ₘ rest) :
    Follows init s { g with
      cache := { g.cache with durable := g.nextLsn - 1 }
      threads := .work j (.lock true) ::ₘ rest } := by
  obtain ⟨hin, hp⟩ := h.at_ ht
  have hsteps : ReflTransGen Step s _ :=
    (ReflTransGen.single (Step.checkpointTruncate hp)).tail (.checkpointReset rfl)
  have hpos : s.wal.nextLsn - 1 + 1 = s.wal.nextLsn := by
    have hd := hg.linked.durable
    rw [← h.nextLsn] at hd
    omega
  apply h.io hg.locks ht hsteps
  · exact ⟨rfl, rfl, rfl, rfl, rfl, rfl, rfl⟩
  · exact h.caches.synced h.nextLsn rfl (fun _ _ => rfl) rfl rfl rfl
  · exact hpos.trans h.nextLsn
  · rfl
  · exact ⟨⟨hin.covered, hin.wanted⟩, rfl⟩

/-- `run_commit` has `m_` again, and the commit is over. -/
theorem Shows.lock (h : Shows init s g) (hl : g.Locks) {j : Job} {checkpointed : Bool}
    (ht : g.threads = .work j (.lock checkpointed) ::ₘ rest) :
    Follows init s { g with
      held := true, committing := false, committedThrough := j.covered
      checkpointsDone := g.checkpointsDone + if checkpointed then 1 else 0
      threads := .reopen j.caller ::ₘ rest } := by
  obtain ⟨hin, hp⟩ := h.at_ ht
  have hself := h.threads _ (by rw [ht]; exact Multiset.mem_cons_self ..)
  have hrest : ∀ u ∈ rest, u.commits = false := by
    rw [GroupCommit.State.Locks, ht] at hl
    exact fun u hu => hl.not_commits rfl hu
  cases checkpointed with
  | false =>
    refine ⟨_, .single (.finish hp.1 (hin.wanted.trans hp.2)), ?_⟩
    apply h.move ht (some (.reopen j.caller)) rfl
    · exact h.caches.engine rfl (fun _ _ => rfl) rfl rfl rfl
    · exact h.nextLsn
    · rfl
    · exact h.ended
    · exact hin.covered
    · exact h.done
    · exact h.open_
    · exact fun _ _ => rfl
    · exact fun _ => id
    · exact Nat.le_refl _
    · exact Or.inl hrest
    · rintro _ ⟨⟩
      exact ⟨hself.asked, (fun _ hr => by cases hr), fun _ _ hu => by cases hu⟩
  | true =>
    refine ⟨_, .single (.checkpointDone hp), ?_⟩
    apply h.move ht (some (.reopen j.caller)) rfl
    · exact h.caches.engine rfl (fun _ _ => rfl) rfl rfl rfl
    · exact h.nextLsn
    · rfl
    · exact h.ended
    · exact hin.covered
    · exact congrArg (· + 1) h.done
    · exact h.open_
    · intro _ _
      show (if s.closing then _ else _ : Phase) = _
      rw [h.open_]
      rfl
    · exact fun _ => id
    · exact Nat.le_refl _
    · exact Or.inl hrest
    · rintro _ ⟨⟩
      exact ⟨hself.asked, (fun _ hr => by cases hr), fun _ _ hu => by cases hu⟩

/-! ## Steps and runs -/

/-- The engine follows every step of every thread. -/
theorem Shows.step {capacity maxTxnBlocks : Nat} (h : Shows init s g) (hi : s.Inv)
    (hg : GroupCommit.Inv capacity init g) (hg' : GroupCommit.Inv capacity init g')
    (hs : GroupCommit.Step capacity maxTxnBlocks g g')
    (hrange : ∀ b f, g.cache.map b = some f → 1 ≤ b ∧ b < s.sb.totalBlocks.toNat) :
    Follows init s g' := by
  have hsh := hg.linked.run.shape
  have htr := hg.linked.run.transparent
  have hl := hg.locks
  cases hs with
  | background hb => exact h.background hi hg hg' hb hrange
  -- calls begin
  | callBeginOp => exact h.start .beginLoad rfl (.of_none rfl rfl rfl)
  | callCommit => exact h.start (.commitLock _) rfl (.of_none rfl rfl rfl)
  | callCheckpoint => exact h.start (.checkpointLock _) rfl (.of_none rfl rfl rfl)
  | callCommitIfOlder => exact h.start .olderLock rfl (.of_none rfl rfl rfl)
  -- begin_op
  | beginLoad rest ht => exact h.idly ht (some _) rfl ⟨rfl, rfl, rfl, nofun⟩
  | beginTry closed n rest ht =>
    split
    · exact h.idly ht (some _) rfl ⟨rfl, rfl, rfl, nofun⟩
    · exact h.idly ht (some _) rfl ⟨rfl, rfl, rfl, nofun⟩
  | beginCas n rest ht hc hn => exact h.enter hl ht rfl hc rfl ⟨rfl, rfl, rfl, rfl, rfl⟩
  | beginCasFails n rest ht => exact h.idly ht (some _) rfl ⟨rfl, rfl, rfl, nofun⟩
  -- begin_op_slow
  | beginLock rest ht hh hc => exact h.idly ht (some _) rfl ⟨rfl, rfl, rfl, nofun⟩
  | beginGate rest ht =>
    split
    · exact h.idly ht (some _) rfl ⟨rfl, rfl, rfl, nofun⟩
    · exact h.idly ht (some _) rfl ⟨rfl, rfl, rfl, nofun⟩
  | beginRoom n rest ht =>
    split
    · exact h.idly ht (some _) rfl ⟨rfl, rfl, rfl, nofun⟩
    · exact h.idly ht (some _) rfl ⟨rfl, rfl, rfl, nofun⟩
  | beginShut rest ht => exact h.idly ht (some _) rfl ⟨rfl, rfl, rfl, nofun⟩
  | beginAdd rest ht =>
    exact h.enter hl ht rfl (hl.of_eq ht).self.2 rfl ⟨rfl, rfl, rfl, rfl, rfl⟩
  -- write
  | modifyHit o fresh fn b f rest ht hm =>
    exact h.call ht (.refl s) rfl h.caches.acquireHit rfl rfl fun _ => .of_none rfl rfl rfl
  | @modifyMiss o fresh fn b c f rest ht hm htake hmem =>
    obtain ⟨s', hs', hp, hcaches⟩ :=
      h.caches.takeFrame hsh hi htr capacity (BufferCache.State.shardFor b)
    have htaken := hsh.takeFrame capacity (BufferCache.State.shardFor b)
    rw [htake] at hcaches htaken
    exact h.call ht hs' hp (hcaches.acquireMiss htaken.shape htaken.mapped (htaken.map b hm)) rfl
      rfl fun _ => .of_none rfl rfl rfl
  | modifyLoad o b joined op f calls rest ht hc =>
    exact h.call ht (.refl s) rfl (h.caches.load hc) rfl rfl fun _ => .of_none rfl rfl rfl
  | modifyBytes o b joined fresh fn f calls rest ht hc hlk hfail =>
    obtain ⟨hlt, hm, hin⟩ := hsh.calls _ (by rw [hc]; exact Multiset.mem_cons_self ..)
    obtain ⟨hmapped, hbn⟩ := hm.resolve_right (htr.not_dead _)
    have hmap := (hsh.place.maps b f).mpr ⟨hlt, hmapped, hbn⟩
    have hsaw : (if fresh then BufferCache.Image.zero else (g.cache.frames f).data).bytes =
        if fresh then Bytes.zero 4096 else results init g.cache.trace b := by
      cases fresh with
      | true => rfl
      | false => exact ((htr.coherent.cached f hmapped).data hlk).trans (congrArg _ hbn)
    have hcaches := h.caches.write hsh htr fn hc rfl (fun _ => rfl) hmap
      ((hin rfl).resolve_right (htr.not_dead _)) hsaw
    exact h.write hl ht rfl rfl (hrange b f hmap) hcaches rfl fun _ => .of_none rfl rfl rfl
  | modifyLoaded o b joined fresh fn f calls rest ht hc =>
    have hmem : BufferCache.Call.loaded (.modify fresh true fn) b f ∈ g.cache.calls := by
      rw [hc]
      exact Multiset.mem_cons_self ..
    obtain ⟨hlt, -, hmapped, hbn, hin, -⟩ := hsh.calls _ hmem
    have hmap := (hsh.place.maps b f).mpr ⟨hlt, hmapped, hbn⟩
    have hcaches := h.caches.write hsh htr fn hc rfl (fun _ => rfl) hmap (hin rfl)
      (htr.coherent.loaded _ b f hmem)
    exact h.write hl ht rfl rfl (hrange b f hmap) hcaches rfl fun _ => .of_none rfl rfl rfl
  | modifyFinish o b joined f calls rest ht hc =>
    have hcaches := h.caches.finishModify hsh hc
    split <;> exact h.call ht (.refl s) rfl hcaches rfl rfl fun _ => .of_none rfl rfl rfl
  -- add_to_txn
  | addOld o b rest ht hh hb => exact h.idly ht (some _) rfl ⟨rfl, rfl, rfl, nofun⟩
  | addNew o b rest ht hh hb => exact h.idly ht (some _) rfl ⟨rfl, rfl, rfl, nofun⟩
  | addStore o rest ht => exact h.idly ht (some _) rfl ⟨rfl, rfl, rfl, nofun⟩
  -- end_op
  | endCount o rest ht => exact h.endOp hl ht
  | endLeave rest ht =>
    refine h.idly ht _ rfl ?_
    split
    · rfl
    · split <;> exact ⟨rfl, rfl, rfl, nofun⟩
  | endFull rest ht =>
    refine h.idly ht _ rfl ?_
    split
    · rfl
    · exact ⟨rfl, rfl, rfl, nofun⟩
  | endLock rest ht hh =>
    refine h.idly ht _ rfl ?_
    split
    · rfl
    · exact ⟨rfl, rfl, rfl, nofun⟩
  | endGate rest go ht hgo =>
    refine h.idly ht _ rfl ?_
    split
    · exact ⟨rfl, rfl, rfl, nofun⟩
    · rfl
  -- commit
  | commitLock before rest ht hh => exact h.idly ht (some _) rfl ⟨rfl, rfl, rfl, nofun⟩
  | commitReturns before target rest ht hd =>
    have htold := hg.history.told (.commitLoop before target)
      (by rw [ht]; exact Multiset.mem_cons_self ..)
    exact h.commitReturns ht htold hd
  | commitLoop before target rest ht hd =>
    split <;> exact h.idly ht (some _) rfl ⟨rfl, rfl, rfl, nofun⟩
  | commitWait before target rest ht hh => exact h.idly ht (some _) rfl ⟨rfl, rfl, rfl, nofun⟩
  -- checkpoint
  | checkpointLock before rest ht hh =>
    have htold := hg.history.told (.checkpointLock before)
      (by rw [ht]; exact Multiset.mem_cons_self ..)
    exact h.checkpointLock ht htold
  | checkpointReturns before target rest ht hd => exact h.checkpointReturns ht hd
  | checkpointLoop before target rest ht hd =>
    split <;> exact h.idly ht (some _) rfl ⟨rfl, rfl, rfl, nofun⟩
  | checkpointWait before target rest ht hh => exact h.idly ht (some _) rfl ⟨rfl, rfl, rfl, nofun⟩
  -- commit_if_older
  | olderReturns rest ht hh => exact h.idly ht none rfl rfl
  | olderLock rest ht hh hc hb => exact h.idly ht (some _) rfl ⟨rfl, rfl, rfl, nofun⟩
  -- run_commit
  | closeBusy caller rest ht hr =>
    refine h.idly ht caller.wait rfl ?_
    cases caller <;> first | rfl | exact ⟨rfl, rfl, rfl, nofun⟩
  | close caller rest ht hr => exact h.idly ht (some _) rfl ⟨rfl, rfl, rfl, nofun⟩
  | take caller rest ht => exact h.idly ht (some _) rfl ⟨rfl, rfl, rfl, nofun⟩
  | count j rest ht => exact h.idly ht (some _) rfl ⟨rfl, rfl, rfl, nofun⟩
  | cover j rest ht =>
    have hidle : s.phase = .idle := by
      refine h.idle_rest ht rfl fun u hu => ?_
      by_contra hw
      have hc := commits_of_working (by simpa using hw)
      rw [(hl.of_eq ht).not_commits rfl hu] at hc
      cases hc
    refine ⟨s, .refl, h.turn ht (some _) rfl nofun ?_⟩
    rintro hself _ ⟨⟩
    exact hself.work rfl rfl hidle
  -- write_txn
  | beginRecord j rest ht => exact h.beginRecord hi hg ht
  | copyTxnFrame j b todo f rest ht hm hin =>
    obtain ⟨hj, hlast, txn, hp⟩ := h.at_ ht
    exact h.io hl ht .refl ⟨rfl, rfl, rfl, rfl, rfl, rfl, rfl⟩ (h.caches.copyTxnFrame f) h.nextLsn
      rfl ⟨hj, hlast, txn, b, hp⟩
  | copyThrows j b todo rest ht hn =>
    obtain ⟨f, hm, hin⟩ := hg.flags.flagged_of_pending ht (b := b)
      ((hg.flags.job ht).2.2 b (List.mem_cons_self ..))
    rw [hn f hm] at hin
    cases hin
  | copied j f todo calls rest ht hc hlk => exact h.copied hi hg ht hc
  | staged j rest ht =>
    have hst := h.at_ ht
    exact h.io hl ht .refl ⟨rfl, rfl, rfl, rfl, rfl, rfl, rfl⟩ h.caches h.nextLsn rfl hst
  | sync j rest ht => exact h.sync hl ht
  | append j rest ht => exact h.append hl ht
  | syncCommit j lsn rest ht => exact h.syncCommit hi hl ht
  | commitFrame j lsn b todo f rest ht hm hin => exact h.commitFrame hg ht hm hin
  | commitThrows j lsn b todo rest ht hn =>
    obtain ⟨f, hm, hin⟩ := hg.flags.flagged_of_pending ht (b := b) (List.mem_cons_self ..)
    rw [hn f hm] at hin
    cases hin
  | framesDone j lsn rest ht => exact h.framesDone hl ht
  | size j full rest ht =>
    obtain ⟨hj, hp⟩ := h.at_ ht
    split
    · exact h.io hl ht .refl ⟨rfl, rfl, rfl, rfl, rfl, rfl, rfl⟩ h.caches h.nextLsn rfl ⟨hj, hp⟩
    · rename_i hw
      rw [Bool.or_eq_true, not_or] at hw
      exact h.io hl ht .refl ⟨rfl, rfl, rfl, rfl, rfl, rfl, rfl⟩ h.caches h.nextLsn rfl
        ⟨hj, hp, by simpa using hw.1⟩
  -- do_checkpoint
  | writeBack j rest ht hp => exact h.writeBack hl ht hp
  | passed j rest ht hp => exact h.passed hi hl ht hp
  | devSync j rest ht => exact h.devSync hl ht
  | superblock j rest ht => exact h.superblock hl ht
  | reset j rest ht => exact h.reset hg ht
  | lock j checkpointed rest ht hh => exact h.lock hl ht
  | reopen caller rest ht =>
    refine h.idly ht caller.resume rfl ?_
    cases caller <;> first | rfl | exact ⟨rfl, rfl, rfl, nofun⟩

end Threads

/-- The states of a run of the threads, over an image with contents `d`, whose callers use the
    blocks of the file system and no others. -/
inductive Run (capacity maxTxnBlocks : Nat) (d : Nat → Block) : GroupCommit.State → Prop where
  | opened : Run capacity maxTxnBlocks d (.empty d (superblockIn (d 0)).lastCheckpointLsn.toNat)
  | step {g g' : GroupCommit.State} : Run capacity maxTxnBlocks d g →
      GroupCommit.Step capacity maxTxnBlocks g g' →
      (∀ b f, g'.cache.map b = some f → 1 ≤ b ∧ b < (superblockIn (d 0)).totalBlocks.toNat) →
      Run capacity maxTxnBlocks d g'

section Runs

variable {capacity maxTxnBlocks : Nat} {d : Nat → Block} {s s' : Storage} {g : GroupCommit.State}

theorem Run.run (h : Run capacity maxTxnBlocks d g) :
    GroupCommit.Run capacity maxTxnBlocks d g := by
  induction h with
  | opened => exact .empty _
  | step _ hs _ ih => exact ih.step hs

theorem Run.range (h : Run capacity maxTxnBlocks d g) {b : Nat} {f : FrameId}
    (hm : g.cache.map b = some f) : 1 ≤ b ∧ b < (superblockIn (d 0)).totalBlocks.toNat := by
  cases h with
  | opened => cases hm
  | step _ _ hr => exact hr b f hm

theorem run_steps (h : Storage.Run d s) (hs : ReflTransGen Step s s') : Storage.Run d s' := by
  induction hs with
  | refl => exact h
  | tail _ hs ih => exact ih.step hs

/-- The engine opened, before anything is called. -/
theorem shows_opened (d : Nat → Block) : ∃ s, Storage.Run d s ∧
    Shows d s (.empty d (superblockIn (d 0)).lastCheckpointLsn.toNat) := by
  have hrun := (Storage.Run.opened (d := d)).step (.openWrite rfl)
  refine ⟨_, hrun.step (.openDone rfl), ?_⟩
  refine ⟨⟨rfl, fun b hb => ?_, ?_, rfl, nofun, rfl⟩, rfl, rfl, rfl, rfl, rfl, rfl, fun _ => rfl,
    fun t ht => absurd ht (Multiset.notMem_zero t)⟩
  · rw [BlockFile.contents_sync, BlockFile.contents_write]
    exact (Function.update_of_ne hb ..).symm
  · exact ⟨nofun, fun _ _ => rfl, nofun, nofun⟩

/-- **The engine is what the threads do.**  Whatever threads call, and however their steps come,
    there is a run of the engine that ends where they are. -/
theorem engine_follows (h : Run capacity maxTxnBlocks d g) :
    ∃ s, Storage.Run d s ∧ Shows d s g := by
  induction h with
  | opened => exact shows_opened d
  | @step g g' hr hs hin ih =>
    obtain ⟨s, hrun, hshows⟩ := ih
    have hfixed := congrArg Superblock.totalBlocks hrun.fixed.2
    have htotal : s.sb.totalBlocks = (superblockIn (d 0)).totalBlocks := hfixed
    have hrange : ∀ b f, g.cache.map b = some f → 1 ≤ b ∧ b < s.sb.totalBlocks.toNat := by
      intro b f hm
      rw [htotal]
      exact hr.range hm
    obtain ⟨s', hsteps, hshows'⟩ :=
      hshows.step hrun.inv hr.run.inv (hr.run.step hs).inv hs hrange
    exact ⟨s', run_steps hrun hsteps, hshows'⟩

/-- **Crashes of the threads.**  Wherever the threads are when the machine stops, opening what is
    left succeeds and shows the changes of the first transactions of the engine's run, whole and in
    order; with them is every operation that had ended when a `commit` or `checkpoint` was called
    that has returned. -/
theorem threads_crash {n : UInt32} (hv : validateSuperblock (superblockIn (d 0)) n = .ok ())
    (h : Run capacity maxTxnBlocks d g) (hlsn : g.nextLsn < 2 ^ 64) :
    ∃ s, Storage.Run d s ∧ Shows d s g ∧
      ∀ d' l', Media.CrashTo ⟨s.img, s.wal.file⟩ d' l' →
        ∃ out, mount n d' l' = .ok out ∧ ∃ k ≤ s.hist.txns.length,
          (∀ t ∈ g.threads, ∀ before ∈ returns t, ∀ need ∈ s.hist.need.take before, need ≤ k) ∧
          ∀ b, 1 ≤ b → out.media.img.contents b =
            applyChanges d ((s.hist.txns.take k).flatMap Txn.changes) b := by
  obtain ⟨s, hrun, hshows⟩ := engine_follows h
  refine ⟨s, hrun, hshows, fun d' l' hcrash => ?_⟩
  have hv' : validateSuperblock (superblockIn (d 0)).fixed n = .ok () := by
    rw [validateSuperblock_fixed]
    exact hv
  have hlsn' : s.wal.nextLsn < 2 ^ 64 := by
    rw [hshows.nextLsn]
    exact hlsn
  obtain ⟨out, hout, k, hk, hneed, hb⟩ := hrun.mount_crash hlsn' hv' hcrash
  refine ⟨out, hout, k, hk, fun t ht before hbefore need hmem => hneed need ?_, hb⟩
  -- what was called for is promised
  have hle := (hshows.threads t ht).returned before hbefore
  rw [← Nat.min_eq_left hle, ← List.take_take] at hmem
  exact List.mem_of_mem_take hmem

end Runs

end ConcurrentFs.Engine
