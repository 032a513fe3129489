/-
  ConcurrentFs.GroupCommitHistory

  What became of the operations that have ended.  All that one wrote is in one
  transaction; `committed_through_` counts only operations whose transaction is in
  the log, and a checkpoint leaves `disk.img` with all that operations wrote that had
  ended before it.
-/
import ConcurrentFs.GroupCommitTxn

namespace ConcurrentFs.GroupCommit

open BufferCache (Op Call FrameId Event Image Shape results)
open BufferCache.State
open Lib

/-! ## The history -/

/-- The part of a state that the history is about. -/
structure Hist where
  cache : BufferCache.State
  ended : Nat
  committedThrough : Nat
  checkpointsDone : Nat
  synced : Nat → Image
  endedOps : List Operation
  txns : List Txn
  checkpointed : Nat

def State.hist (s : State) : Hist :=
  ⟨s.cache, s.ended, s.committedThrough, s.checkpointsDone, s.synced, s.endedOps, s.txns,
    s.checkpointed⟩

/-- Its writes are modifies of its blocks. -/
def Operation.Wrote (o : Operation) (tr : List Event) : Prop :=
  ∀ m ∈ o.writes, ∃ b ∈ o.blocks, ∃ fresh saw after, tr[m]? = some (.modify b fresh true saw after)

/-- An operation in the running transaction. -/
structure Operation.Running (o : Operation) (x : Hist) : Prop where
  txn : o.txn = x.txns.length
  flagged : ∀ b ∈ o.blocks, Flagged x.cache b
  wrote : o.Wrote x.cache.trace

/-- An operation in a transaction that was taken. -/
structure Operation.Taken (o : Operation) (x : Hist) : Prop where
  txn : ∃ t, x.txns[o.txn]? = some t ∧ ∀ b ∈ o.blocks, b ∈ t.blocks
  wrote : o.Wrote x.cache.trace

namespace Hist

/-- A transaction that needs no COMMIT record, or has one that is synced. -/
def Logged (x : Hist) (i : Nat) : Prop :=
  ∃ t, x.txns[i]? = some t ∧ (t.blocks = [] ∨ ∃ lsn, t.commit = some lsn ∧ lsn ≤ x.cache.durable)

/-- No operation that has ended is in the running transaction. -/
def Taken (x : Hist) : Prop := ∀ o ∈ x.endedOps, o.txn < x.txns.length

/-- `checkpoint` waits for this one. -/
structure Checkpoint (x : Hist) (before target : Nat) : Prop where
  ended : before ≤ x.ended
  next : target ≤ x.checkpointsDone + 1
  done : target ≤ x.checkpointsDone → before ≤ x.checkpointed

/-- `disk.img`, at its last sync, has what the operations before the last checkpoint wrote. -/
def Synced (init : Nat → Block) (x : Hist) : Prop :=
  ∃ n, n ≤ x.cache.trace.length ∧
    (∀ b, (x.synced b).bytes = results init (x.cache.trace.take n) b) ∧
    ∀ o ∈ x.endedOps.take x.checkpointed, ∀ m ∈ o.writes, m < n

end Hist

/-- What is behind a running operation. -/
structure Past (init : Nat → Block) (x : Hist) : Prop where
  count : x.endedOps.length = x.ended
  ops : ∀ o ∈ x.endedOps, o.Running x ∨ o.Taken x
  through : x.committedThrough ≤ x.ended
  committed : ∀ o ∈ x.endedOps.take x.committedThrough, x.Logged o.txn
  checkpointed : x.checkpointed ≤ x.ended
  synced : x.Synced init

def Caller.Told (x : Hist) : Caller → Prop
  | commit before target => before ≤ target
  | checkpoint before target => x.Checkpoint before target
  | _ => True

/-- It has no COMMIT record yet. -/
def Stage.unlogged : Stage → Bool
  | begin | block _ | copy .. | sync | append | syncCommit _ => true
  | _ => false

def Stage.Told (x : Hist) : Stage → Prop
  | pass => Sweeping x.cache
  | devSync => Clean x.cache
  | superblock => Clean x.cache ∧ x.checkpointed = x.ended
  | reset => x.checkpointed = x.ended
  | lock checkpointed => checkpointed = true → x.checkpointed = x.ended
  | _ => True

/-- A commit that has taken these blocks. -/
structure Job.Told (j : Job) (x : Hist) : Prop where
  caller : j.caller.Told x
  taken : x.Taken

namespace Thread

/-- The transaction it has taken has no COMMIT record yet. -/
def unlogged : Thread → Bool
  | count _ | cover _ => true
  | work _ st => st.unlogged
  | _ => false

/-- What a thread knows of the history. -/
def Told (x : Hist) : Thread → Prop
  | op o | addLock o _ | addStore o => o.Running x
  | modify o b _ _ => o.Running x ∧ b ∈ o.blocks
  | commitLock before | checkpointLock before => before ≤ x.ended
  | commitLoop before target | commitWait before target => before ≤ target
  | commitDone before => before ≤ x.committedThrough
  | checkpointLoop before target | checkpointWait before target => x.Checkpoint before target
  | checkpointDone before => before ≤ x.checkpointed
  | close caller | take caller | reopen caller => caller.Told x
  | count j | cover j => j.Told x ∧ x.txns.getLast? = some ⟨j.blocks, none⟩
  | work j st => j.Told x ∧ j.covered = x.ended ∧
      (st.unlogged = true → x.txns.getLast? = some ⟨j.blocks, none⟩) ∧ st.Told x
  | _ => True

end Thread

structure History (init : Nat → Block) (x : Hist) (threads : Multiset Thread) : Prop where
  past : Past init x
  logged : ∀ i < x.txns.length, x.Logged i ∨
    i + 1 = x.txns.length ∧ ∃ t ∈ threads, t.unlogged = true
  told : ∀ t ∈ threads, t.Told x

/-! ## What lasts -/

/-- What is counted grows. -/
structure Grows (x x' : Hist) : Prop where
  ended : x.ended ≤ x'.ended
  through : x.committedThrough ≤ x'.committedThrough
  checkpointed : x.checkpointed ≤ x'.checkpointed
  done : x'.checkpointsDone = x.checkpointsDone ∨
    x'.checkpointsDone = x.checkpointsDone + 1 ∧ x'.checkpointed = x'.ended

/-- The running transaction grows. -/
structure Keeps (x x' : Hist) : Prop where
  txns : x'.txns = x.txns
  flagged : ∀ b, Flagged x.cache b → Flagged x'.cache b
  trace : ∃ evs, x'.cache.trace = x.cache.trace ++ evs

section Lasting

variable {x x' : Hist} {o : Operation} {t : Thread} {init : Nat → Block}

theorem Grows.cache (x : Hist) (c : BufferCache.State) : Grows x { x with cache := c } :=
  ⟨Nat.le_refl _, Nat.le_refl _, Nat.le_refl _, Or.inl rfl⟩

theorem Operation.Wrote.append {tr : List Event} (h : o.Wrote tr) (evs : List Event) :
    o.Wrote (tr ++ evs) := by
  intro m hm
  obtain ⟨b, hb, fresh, saw, after, he⟩ := h m hm
  refine ⟨b, hb, fresh, saw, after, ?_⟩
  rw [List.getElem?_append_left (List.getElem?_eq_some_iff.mp he).1]
  exact he

theorem Operation.Wrote.lt {tr : List Event} (h : o.Wrote tr) {m : Nat} (hm : m ∈ o.writes) :
    m < tr.length := by
  obtain ⟨b, hb, fresh, saw, after, he⟩ := h m hm
  exact (List.getElem?_eq_some_iff.mp he).1

theorem Operation.Running.keeps (h : o.Running x) (hk : Keeps x x') : o.Running x' where
  txn := by
    rw [hk.txns]
    exact h.txn
  flagged := fun b hb => hk.flagged b (h.flagged b hb)
  wrote := by
    obtain ⟨evs, he⟩ := hk.trace
    rw [he]
    exact h.wrote.append evs

theorem Caller.Told.grows {c : Caller} (h : c.Told x) (hg : Grows x x') : c.Told x' := by
  cases c with
  | checkpoint before target =>
    obtain ⟨he, hn, hd⟩ := h
    have h1 := hg.ended
    have h2 := hg.checkpointed
    rcases hg.done with h3 | ⟨h3, h4⟩
    · exact ⟨by omega, by omega, fun hle => by have := hd (by omega); omega⟩
    · exact ⟨by omega, by omega, fun _ => by omega⟩
  | _ => exact h

/-- What a thread knows stays true when others move that are not in its way. -/
theorem Thread.Told.beside (h : t.Told x) (hc : t.commits = false) (hg : Grows x x')
    (hk : t.inGate = true → Keeps x x') : t.Told x' := by
  cases t with
  | op o => exact Operation.Running.keeps h (hk rfl)
  | addLock o b => exact Operation.Running.keeps h (hk rfl)
  | addStore o => exact Operation.Running.keeps h (hk rfl)
  | modify o b joined c => exact ⟨h.1.keeps (hk rfl), h.2⟩
  | commitLock before => exact Nat.le_trans h hg.ended
  | checkpointLock before => exact Nat.le_trans h hg.ended
  | commitDone before => exact Nat.le_trans h hg.through
  | checkpointDone before => exact Nat.le_trans h hg.checkpointed
  | checkpointLoop before target =>
    exact Caller.Told.grows (c := .checkpoint before target) h hg
  | checkpointWait before target =>
    exact Caller.Told.grows (c := .checkpoint before target) h hg
  | close c => exact Caller.Told.grows h hg
  | take c => exact Caller.Told.grows h hg
  | reopen c => exact Caller.Told.grows h hg
  | count j => cases hc
  | cover j => cases hc
  | work j st => cases hc
  | _ => exact h

end Lasting

/-! ## What is behind -/

/-- With nothing dirty and nothing in the transaction the disk has every block as it is. -/
theorem disk_of_clean {capacity : Nat} {init : Nat → Block} {c : BufferCache.State}
    (hr : BufferCache.Run capacity false init c) (hc : Clean c) (hno : ∀ b, ¬ Flagged c b)
    (hfin : ∀ d ∈ c.calls, ∀ inTxn f, d ≠ .finish inTxn f) (b : Nat) :
    (c.disk b).bytes = results init c.trace b := by
  have hco := hr.transparent.coherent
  cases hm : c.map b with
  | none => exact hco.unmapped b hm
  | some f =>
    obtain ⟨-, hmapped, rfl⟩ := (hr.shape.place.maps b f).mp hm
    have hin : (c.frames f).inTxn = false := by
      by_contra hin
      exact hno _ ⟨f, hm, by simpa using hin⟩
    refine (hco.cached f hmapped).disk (Or.inr ⟨hc f, hin, fun hmem => ?_⟩)
    exact hfin _ hmem false f rfl

section Behind

variable {init : Nat → Block} {x : Hist}

theorem Hist.Synced.append (h : x.Synced init) {c : BufferCache.State} {evs : List Event}
    (htr : c.trace = x.cache.trace ++ evs) : ({ x with cache := c } : Hist).Synced init := by
  obtain ⟨n, hn, hb, ho⟩ := h
  refine ⟨n, ?_, ?_, ho⟩
  · show n ≤ c.trace.length
    rw [htr, List.length_append]
    omega
  · show ∀ b, _ = results init (c.trace.take n) b
    rw [htr, List.take_append_of_le_length hn]
    exact hb

theorem Hist.Logged.cache {i : Nat} (h : x.Logged i) {c : BufferCache.State}
    (hd : x.cache.durable ≤ c.durable) : ({ x with cache := c } : Hist).Logged i := by
  obtain ⟨t, ht, hb | ⟨lsn, hlsn, hle⟩⟩ := h
  · exact ⟨t, ht, Or.inl hb⟩
  · exact ⟨t, ht, Or.inr ⟨lsn, hlsn, Nat.le_trans hle hd⟩⟩

/-- The cache goes on, and what has ended stays where it is. -/
theorem Past.cache (h : Past init x) (c : BufferCache.State)
    (hf : x.Taken ∨ ∀ b, Flagged x.cache b → Flagged c b) (hd : x.cache.durable ≤ c.durable)
    (htr : ∃ evs, c.trace = x.cache.trace ++ evs) : Past init { x with cache := c } := by
  obtain ⟨evs, htr⟩ := htr
  refine ⟨h.count, fun o ho => ?_, h.through, fun o ho => (h.committed o ho).cache hd,
    h.checkpointed, h.synced.append htr⟩
  rcases h.ops o ho with hr | hr
  · rcases hf with hf | hf
    · exact absurd hr.txn (Nat.ne_of_lt (hf o ho))
    · exact Or.inl (hr.keeps ⟨rfl, hf, evs, htr⟩)
  · refine Or.inr ⟨hr.txn, ?_⟩
    show o.Wrote c.trace
    rw [htr]
    exact hr.wrote.append evs

/-- An operation counts itself. -/
theorem Past.endOp (h : Past init x) {o : Operation} (ho : o.Running x) :
    Past init { x with ended := x.ended + 1, endedOps := x.endedOps ++ [o] } := by
  have hlen := h.count
  have htake : ∀ n ≤ x.ended, (x.endedOps ++ [o]).take n = x.endedOps.take n := fun n hn =>
    List.take_append_of_le_length (by omega)
  refine ⟨?_, fun p hp => ?_, Nat.le_succ_of_le h.through, ?_, Nat.le_succ_of_le h.checkpointed, ?_⟩
  · show (x.endedOps ++ [o]).length = x.ended + 1
    rw [List.length_append, hlen]
    rfl
  · rcases List.mem_append.mp hp with hp | hp
    · rcases h.ops p hp with hr | hr
      · exact Or.inl ⟨hr.txn, hr.flagged, hr.wrote⟩
      · exact Or.inr ⟨hr.txn, hr.wrote⟩
    · rw [List.mem_singleton.mp hp]
      exact Or.inl ⟨ho.txn, ho.flagged, ho.wrote⟩
  · show ∀ p ∈ (x.endedOps ++ [o]).take x.committedThrough, _
    rw [htake _ h.through]
    exact h.committed
  · obtain ⟨n, hn, hb, hw⟩ := h.synced
    refine ⟨n, hn, hb, ?_⟩
    show ∀ p ∈ (x.endedOps ++ [o]).take x.checkpointed, _
    rw [htake _ h.checkpointed]
    exact hw

theorem Hist.Logged.append {i : Nat} (h : x.Logged i) (t : Txn) :
    ({ x with txns := x.txns ++ [t] } : Hist).Logged i := by
  obtain ⟨u, hu, hl⟩ := h
  refine ⟨u, ?_, hl⟩
  show (x.txns ++ [t])[i]? = some u
  rw [List.getElem?_append_left (List.getElem?_eq_some_iff.mp hu).1]
  exact hu

/-- The list is taken, with all that is in the transaction. -/
theorem Past.take (h : Past init x) {t : Txn} (ht : ∀ b, Flagged x.cache b → b ∈ t.blocks) :
    Past init { x with txns := x.txns ++ [t] } ∧
      ({ x with txns := x.txns ++ [t] } : Hist).Taken := by
  have hops : ∀ o ∈ x.endedOps, Operation.Taken o { x with txns := x.txns ++ [t] } := by
    intro o ho
    rcases h.ops o ho with hr | hr
    · refine ⟨⟨t, ?_, fun b hb => ht b (hr.flagged b hb)⟩, hr.wrote⟩
      show (x.txns ++ [t])[o.txn]? = some t
      rw [hr.txn, List.getElem?_concat_length]
    · obtain ⟨u, hu, hb⟩ := hr.txn
      refine ⟨⟨u, ?_, hb⟩, hr.wrote⟩
      show (x.txns ++ [t])[o.txn]? = some u
      rw [List.getElem?_append_left (List.getElem?_eq_some_iff.mp hu).1]
      exact hu
  refine ⟨⟨h.count, fun o ho => Or.inr (hops o ho), h.through,
    fun o ho => (h.committed o ho).append t, h.checkpointed, h.synced⟩, fun o ho => ?_⟩
  obtain ⟨u, hu, -⟩ := (hops o ho).txn
  exact (List.getElem?_eq_some_iff.mp hu).1

/-- The last entry as `recordCommit` leaves it. -/
theorem getElem?_recordCommit {txns : List Txn} {i : Nat} {t : Txn} (lsn : Nat)
    (ht : txns[i]? = some t) :
    ∃ u, (recordCommit txns lsn)[i]? = some u ∧ u.blocks = t.blocks ∧
      (u.commit = t.commit ∨ u.commit = some lsn) ∧
      (i + 1 = txns.length → u.commit = some lsn) := by
  rw [recordCommit, List.getElem?_modify, ht]
  by_cases hi : txns.length - 1 = i
  · exact ⟨⟨t.blocks, some lsn⟩, by simp [hi], rfl, Or.inr rfl, fun _ => rfl⟩
  · exact ⟨t, by simp [hi], rfl, Or.inl rfl, fun h => absurd (by omega) hi⟩

theorem length_recordCommit (txns : List Txn) (lsn : Nat) :
    (recordCommit txns lsn).length = txns.length := List.length_modify ..

theorem Hist.Logged.recordCommit {i lsn : Nat} (h : x.Logged i) (hlsn : lsn ≤ x.cache.durable) :
    ({ x with txns := recordCommit x.txns lsn } : Hist).Logged i := by
  obtain ⟨t, ht, hl⟩ := h
  obtain ⟨u, hu, hb, hc, -⟩ := getElem?_recordCommit lsn ht
  refine ⟨u, hu, ?_⟩
  rcases hc with hc | hc
  · rw [hb, hc]
    exact hl
  · exact Or.inr ⟨lsn, hc, hlsn⟩

/-- The COMMIT record is synced. -/
theorem Past.recordCommit (h : Past init x) {lsn : Nat} (hlsn : lsn ≤ x.cache.durable) :
    Past init { x with txns := recordCommit x.txns lsn } := by
  refine ⟨h.count, fun o ho => ?_, h.through, fun o ho => (h.committed o ho).recordCommit hlsn,
    h.checkpointed, h.synced⟩
  rcases h.ops o ho with hr | hr
  · refine Or.inl ⟨?_, hr.flagged, hr.wrote⟩
    rw [length_recordCommit]
    exact hr.txn
  · obtain ⟨t, ht, hb⟩ := hr.txn
    obtain ⟨u, hu, hub, -⟩ := getElem?_recordCommit lsn ht
    refine Or.inr ⟨⟨u, hu, ?_⟩, hr.wrote⟩
    rw [hub]
    exact hb

/-- The image is synced with nothing dirty. -/
theorem Past.sync (h : Past init x) {n : Nat} (hn : n ≤ x.ended)
    (hdisk : ∀ b, (x.cache.disk b).bytes = results init x.cache.trace b) :
    Past init { x with synced := x.cache.disk, checkpointed := n } := by
  refine ⟨h.count, fun o ho => ?_, h.through, h.committed, hn, x.cache.trace.length, Nat.le_refl _,
    fun b => ?_, fun o ho m hm => ?_⟩
  · rcases h.ops o ho with hr | hr
    · exact Or.inl ⟨hr.txn, hr.flagged, hr.wrote⟩
    · exact Or.inr ⟨hr.txn, hr.wrote⟩
  · show (x.cache.disk b).bytes = _
    rw [List.take_length]
    exact hdisk b
  · rcases h.ops o (List.mem_of_mem_take ho) with hr | hr
    · exact hr.wrote.lt hm
    · exact hr.wrote.lt hm

/-- `committed_through_` is set. -/
theorem Past.lock (h : Past init x) (hl : ∀ o ∈ x.endedOps, x.Logged o.txn) (n : Nat) :
    Past init { x with committedThrough := x.ended, checkpointsDone := n } := by
  refine ⟨h.count, fun o ho => ?_, Nat.le_refl _, fun o ho => hl o (List.mem_of_mem_take ho),
    h.checkpointed, h.synced⟩
  rcases h.ops o ho with hr | hr
  · exact Or.inl ⟨hr.txn, hr.flagged, hr.wrote⟩
  · exact Or.inr ⟨hr.txn, hr.wrote⟩

end Behind

/-! ## One thread moves -/

theorem Thread.commits_of_unlogged {t : Thread} (h : t.unlogged = true) : t.commits = true := by
  cases t <;> first | rfl | cases h

namespace Locks

variable {closed : Bool} {running : Nat} {held committing : Bool} {txnBlocks : List Nat}
  {t : Thread} {rest : Multiset Thread}

/-- While an operation is in the gate nobody commits. -/
theorem not_commits_of_inGate (h : Locks closed running held committing txnBlocks (t ::ₘ rest))
    (ht : t.inGate = true) {u : Thread} (hu : u ∈ rest) : u.commits = false := by
  by_contra hc
  have hpos := h.running_pos (Multiset.mem_cons_self t rest) ht
  have hq := (h.relies u (Multiset.mem_cons_of_mem hu)).quiet (by simpa using hc)
  exact Nat.ne_of_gt hpos hq.2.1

/-- While one thread commits, the others are neither in the gate nor do they commit. -/
theorem idle_of_commits (h : Locks closed running held committing txnBlocks (t ::ₘ rest))
    (ht : t.commits = true) {u : Thread} (hu : u ∈ rest) : 
    u.inGate = false ∧ u.commits = false := by
  have hq := h.self.quiet ht
  obtain rfl := hq.2.1
  exact ⟨h.not_inGate (Multiset.mem_cons_of_mem hu), h.not_commits ht hu⟩

end Locks

namespace History

variable {init : Nat → Block} {x : Hist} {t : Thread} {rest : Multiset Thread} {closed : Bool}
  {running : Nat} {held committing : Bool} {txnBlocks : List Nat}

theorem self (h : History init x (t ::ₘ rest)) : t.Told x := h.told t (Multiset.mem_cons_self ..)

/-- A thread goes on, and nothing of the history moves. -/
theorem idle (h : History init x (t ::ₘ rest)) (t' : Option Thread) (hu : t.unlogged = false)
    (ht : ∀ u, t' = some u → u.Told x) : History init x (goes t' rest) where
  past := h.past
  logged := by
    intro i hi
    refine (h.logged i hi).imp_right fun hlast => ⟨hlast.1, ?_⟩
    obtain ⟨u, hmem, hun⟩ := hlast.2
    rcases Multiset.mem_cons.mp hmem with rfl | hmem
    · rw [hu] at hun
      cases hun
    · exact ⟨u, mem_goes.mpr (Or.inr hmem), hun⟩
  told := forall_goes h.told ht

/-- A call begins. -/
theorem start {threads : Multiset Thread} (h : History init x threads) (ht : t.Told x) :
    History init x (t ::ₘ threads) where
  past := h.past
  logged := by
    intro i hi
    refine (h.logged i hi).imp_right fun hlast => ⟨hlast.1, ?_⟩
    obtain ⟨u, hmem, hun⟩ := hlast.2
    exact ⟨u, Multiset.mem_cons_of_mem hmem, hun⟩
  told := by
    intro u hu
    rcases Multiset.mem_cons.mp hu with rfl | hu
    · exact ht
    · exact h.told u hu

/-- With nobody on the way to its COMMIT record every transaction is logged. -/
theorem logged_of_idle {threads : Multiset Thread} (h : History init x threads)
    (hc : ∀ u ∈ threads, u.unlogged = false) : ∀ i < x.txns.length, x.Logged i := by
  intro i hi
  rcases h.logged i hi with hl | ⟨-, u, hu, hun⟩
  · exact hl
  · rw [hc u hu] at hun
    cases hun

theorem not_unlogged {u : Thread} (h : u.commits = false) : u.unlogged = false := by
  cases hu : u.unlogged with
  | false => rfl
  | true =>
    rw [Thread.commits_of_unlogged hu] at h
    cases h

/-- An operation goes on in the cache. -/
theorem operate (h : History init x (t ::ₘ rest))
    (hl : Locks closed running held committing txnBlocks (t ::ₘ rest)) (hg : t.inGate = true)
    (ht : t.commits = false) {c : BufferCache.State} {t' : Thread}
    (hf : ∀ b, Flagged x.cache b → Flagged c b) (hd : c.durable = x.cache.durable)
    (htr : ∃ evs, c.trace = x.cache.trace ++ evs)
    (ht' : Keeps x { x with cache := c } → t'.Told { x with cache := c }) :
    History init { x with cache := c } (t' ::ₘ rest) where
  past := h.past.cache c (Or.inr hf) (Nat.le_of_eq hd.symm) htr
  logged := by
    intro i hi
    refine Or.inl (Hist.Logged.cache (h.logged_of_idle (fun u hu => ?_) i hi)
      (Nat.le_of_eq hd.symm))
    rcases Multiset.mem_cons.mp hu with rfl | hu
    · exact not_unlogged ht
    · exact not_unlogged (hl.not_commits_of_inGate hg hu)
  told := by
    intro u hu
    rcases Multiset.mem_cons.mp hu with rfl | hu
    · exact ht' ⟨rfl, hf, htr⟩
    · exact (h.told u (Multiset.mem_cons_of_mem hu)).beside (hl.not_commits_of_inGate hg hu)
        (.cache x c) fun _ => ⟨rfl, hf, htr⟩

/-- An operation goes on in a frame. -/
theorem operateFrame (h : History init x (t ::ₘ rest))
    (hl : Locks closed running held committing txnBlocks (t ::ₘ rest)) (hg : t.inGate = true)
    (ht : t.commits = false) {c : BufferCache.State} {t' : Thread}
    (hf : ∀ b, Flagged c b ↔ Flagged x.cache b) (hd : c.durable = x.cache.durable)
    (htr : ∃ evs, c.trace = x.cache.trace ++ evs)
    (ht' : Keeps x { x with cache := c } → t'.Told { x with cache := c }) :
    History init { x with cache := c } (t' ::ₘ rest) :=
  h.operate hl hg ht (fun b => (hf b).mpr) hd htr ht'

/-- A thread goes on while the others neither commit nor are in the gate. -/
theorem alone {x' : Hist} (h : History init x (t ::ₘ rest))
    (hrest : ∀ u ∈ rest, u.inGate = false ∧ u.commits = false) (t' : Thread) (hp : Past init x')
    (hg : Grows x x') (ht' : t'.Told x')
    (hlog : ∀ i < x'.txns.length, x'.Logged i ∨ i + 1 = x'.txns.length ∧ t'.unlogged = true) :
    History init x' (t' ::ₘ rest) where
  past := hp
  logged := fun i hi => (hlog i hi).imp_right fun hlast =>
    ⟨hlast.1, t', Multiset.mem_cons_self .., hlast.2⟩
  told := by
    intro u hu
    rcases Multiset.mem_cons.mp hu with rfl | hu
    · exact ht'
    · refine (h.told u (Multiset.mem_cons_of_mem hu)).beside (hrest u hu).2 hg fun hin => ?_
      rw [(hrest u hu).1] at hin
      cases hin

/-- What such a thread knows of the transactions before it moves. -/
theorem logged_self (h : History init x (t ::ₘ rest))
    (hrest : ∀ u ∈ rest, u.inGate = false ∧ u.commits = false) :
    ∀ i < x.txns.length, x.Logged i ∨ i + 1 = x.txns.length ∧ t.unlogged = true := by
  intro i hi
  refine (h.logged i hi).imp_right fun hlast => ⟨hlast.1, ?_⟩
  obtain ⟨u, hu, hun⟩ := hlast.2
  rcases Multiset.mem_cons.mp hu with rfl | hu
  · exact hun
  · rw [not_unlogged (hrest u hu).2] at hun
    cases hun

/-- A commit goes on with the cache. -/
theorem work {j : Job} {st : Stage} (h : History init x (.work j st ::ₘ rest))
    (hrest : ∀ u ∈ rest, u.inGate = false ∧ u.commits = false) (st' : Stage)
    (c : BufferCache.State) (hd : x.cache.durable ≤ c.durable)
    (htr : ∃ evs, c.trace = x.cache.trace ++ evs) (hu : st'.unlogged = st.unlogged)
    (ht' : st'.Told { x with cache := c }) :
    History init { x with cache := c } (.work j st' ::ₘ rest) := by
  obtain ⟨hj, hcov, hlast, -⟩ := h.self
  refine h.alone hrest _ (h.past.cache c (Or.inl hj.taken) hd htr) (.cache x c)
    ⟨⟨hj.caller.grows (.cache x c), hj.taken⟩, hcov, fun hn => hlast (hu ▸ hn), ht'⟩ fun i hi => ?_
  refine (h.logged_self hrest i hi).imp (Hist.Logged.cache · hd) fun hn => ⟨hn.1, ?_⟩
  exact hu.trans hn.2

end History

section Operate

variable {x : Hist} {o : Operation}

theorem Operation.touch_subset (o : Operation) (b : Nat) :
    ∀ x ∈ o.blocks, x ∈ (o.touch b).blocks := by
  intro x hx
  rw [Operation.touch]
  split
  · exact hx
  · exact List.mem_append_left _ hx

theorem Operation.mem_touch (o : Operation) (b : Nat) : b ∈ (o.touch b).blocks := by
  rw [Operation.touch]
  split
  · assumption
  · exact List.mem_append_right _ (List.mem_singleton.mpr rfl)

/-- It goes to write a block, which joins the transaction. -/
theorem Operation.Running.touch (h : o.Running x) {b : Nat} (hb : Flagged x.cache b) :
    (o.touch b).Running x where
  txn := h.txn
  flagged := by
    intro y hy
    rw [Operation.touch] at hy
    split at hy
    · exact h.flagged y hy
    · rcases List.mem_append.mp hy with hy | hy
      · exact h.flagged y hy
      · rw [List.mem_singleton.mp hy]
        exact hb
  wrote := by
    intro m hm
    obtain ⟨y, hy, he⟩ := h.wrote m hm
    exact ⟨y, o.touch_subset b y hy, he⟩

/-- It writes. -/
theorem Operation.Running.write (h : o.Running x) {c : BufferCache.State} {b : Nat} {fresh : Bool}
    {saw after : Block} (hb : b ∈ o.blocks) (hk : Keeps x { x with cache := c })
    (htr : c.trace = x.cache.trace ++ [.modify b fresh true saw after]) :
    ({ o with writes := o.writes ++ [x.cache.trace.length] } : Operation).Running
      { x with cache := c } where
  txn := h.txn
  flagged := fun y hy => hk.flagged y (h.flagged y hy)
  wrote := by
    intro m hm
    show ∃ y ∈ o.blocks, ∃ fresh saw after, c.trace[m]? = some (.modify y fresh true saw after)
    rw [htr]
    rcases List.mem_append.mp hm with hm | hm
    · exact h.wrote.append _ m hm
    · rw [List.mem_singleton.mp hm, List.getElem?_concat_length]
      exact ⟨b, hb, fresh, saw, after, rfl⟩

end Operate

/-! ## Steps -/

def State.History (init : Nat → Block) (s : State) : Prop :=
  GroupCommit.History init s.hist s.threads

theorem State.History.of_eq {init : Nat → Block} {s : State} (h : s.History init)
    {threads : Multiset Thread} (ht : s.threads = threads) :
    GroupCommit.History init s.hist threads := ht ▸ h

/-- A commit with all its frames released leaves nothing in the transaction. -/
theorem State.Flags.not_flagged {s : State} (h : s.Flags) (hl : s.Locks) {j : Job} {st : Stage}
    (hu : .work j st ∈ s.threads) (hst : st.remaining j.blocks = []) (b : Nat) :
    ¬ Flagged s.cache b := by
  obtain ⟨rest, ht⟩ := Multiset.exists_cons_of_mem hu
  have hq := (hl.of_eq ht).self.quiet rfl
  rw [h.flagged, hq.2.2, ht]
  rintro (hb | ⟨u, hu, hb⟩)
  · cases hb
  · rcases Multiset.mem_cons.mp hu with rfl | hu
    · rw [Thread.pending, hst] at hb
      cases hb
    · rw [hl.pending_rest ht rfl u hu] at hb
      cases hb

/-- The cache goes on by itself. -/
theorem State.History.background {capacity : Nat} {init : Nat → Block} {s : State}
    {c : BufferCache.State} (h : s.History init) (hl : s.Locks) (hk : Linked capacity init s)
    (hf : s.Flags) (hb : Background capacity s.cache c) :
    GroupCommit.History init { s.hist with cache := c } s.threads := by
  have hq := hb.quiet hk.run hk.memory
  have hmono : ∀ b, Flagged s.cache b → Flagged c b := fun b => (hq.flagged b).mpr
  have htr : ∃ evs, c.trace = s.cache.trace ++ evs := hb.trace.imp fun _ he => he.1
  have hd : s.cache.durable ≤ c.durable := Nat.le_of_eq hb.durable.symm
  refine ⟨h.past.cache c (Or.inr hmono) hd htr, fun i hi => ?_, fun u hu => ?_⟩
  · exact (h.logged i hi).imp_left (Hist.Logged.cache · hd)
  · have hg := Grows.cache s.hist c
    have ht := h.told u hu
    cases u with
    | count j => exact ⟨⟨ht.1.caller.grows hg, ht.1.taken⟩, ht.2⟩
    | cover j => exact ⟨⟨ht.1.caller.grows hg, ht.1.taken⟩, ht.2⟩
    | work j st =>
      obtain ⟨hj, hcov, hlast, hst⟩ := ht
      refine ⟨⟨hj.caller.grows hg, hj.taken⟩, hcov, hlast, ?_⟩
      cases st with
      | pass => exact hq.sweeping (hf.not_flagged hl hu rfl) hk.lsns hst
      | devSync => exact hq.settles.clean hst
      | superblock => exact ⟨hq.settles.clean hst.1, hst.2⟩
      | _ => exact hst
    | threw => exact (hf.jobs _ hu).elim
    | _ => exact ht.beside rfl hg fun _ => ⟨rfl, hmono, htr⟩

/-- `write_back_all` begins with every dirty frame still to be picked. -/
theorem sweeping_writeBack {capacity : Nat} {init : Nat → Block} {c : BufferCache.State}
    (hr : BufferCache.Run capacity false init c) :
    Sweeping (c.setPass ⟨sizeMax, [], [], 0, .pick 0⟩) := by
  refine Or.inr ⟨_, rfl, rfl, trivial, fun f hd => Or.inl ⟨0, shardFor (c.frames f).blockNo, rfl,
    Nat.zero_le _, ?_⟩⟩
  have hm := (hr.transparent.alive f).mapped hd
  have hmap := (hr.shape.place.maps _ f).mpr
    ⟨BufferCache.Transparent.lt_count hr.shape hm, hm, rfl⟩
  exact hr.shape.place.home _ f hmap

theorem Caller.Told.wait {x : Hist} {caller : Caller} (h : caller.Told x) :
    ∀ u, caller.wait = some u → u.Told x := by
  cases caller with
  | commit before target => rintro _ ⟨⟩; exact h
  | checkpoint before target => rintro _ ⟨⟩; exact h
  | beginOp => rintro _ ⟨⟩; trivial
  | older => exact nofun
  | endOp => exact nofun

theorem Caller.Told.resume {x : Hist} {caller : Caller} (h : caller.Told x) :
    ∀ u, caller.resume = some u → u.Told x := by
  cases caller with
  | commit before target => rintro _ ⟨⟩; exact h
  | checkpoint before target => rintro _ ⟨⟩; exact h
  | beginOp => rintro _ ⟨⟩; trivial
  | older => exact nofun
  | endOp => exact nofun

theorem State.History.step {capacity maxTxnBlocks : Nat} {init : Nat → Block} {s s' : State}
    (h : s.History init) (hl : s.Locks) (hk : Linked capacity init s) (hf : s.Flags)
    (hs : Step capacity maxTxnBlocks s s') : s'.History init := by
  have hsh := hk.run.shape
  cases hs with
  | background hb => exact h.background hl hk hf hb
  | callBeginOp => exact GroupCommit.History.start (t := .beginLoad) h trivial
  | callCommit => exact GroupCommit.History.start (t := .commitLock s.ended) h (Nat.le_refl _)
  | callCheckpoint =>
    exact GroupCommit.History.start (t := .checkpointLock s.ended) h
      (Nat.le_refl _)
  | callCommitIfOlder => exact GroupCommit.History.start (t := .olderLock) h trivial
  | beginLoad rest ht => exact (h.of_eq ht).idle (some (.beginTry ..)) rfl (by rintro _ ⟨⟩; trivial)
  | beginTry closed g rest ht =>
    refine (h.of_eq ht).idle (some _) rfl ?_
    split <;> (rintro _ ⟨⟩; trivial)
  | beginCas g rest ht hc hg =>
    refine (h.of_eq ht).idle (some (.op _)) rfl ?_
    rintro _ ⟨⟩
    exact ⟨rfl, nofun, nofun⟩
  | beginCasFails g rest ht =>
    exact (h.of_eq ht).idle (some (.beginTry ..)) rfl
      (by rintro _ ⟨⟩; trivial)
  | beginLock rest ht hh hc =>
    exact (h.of_eq ht).idle (some .beginGate) rfl
      (by rintro _ ⟨⟩; trivial)
  | beginGate rest ht =>
    refine (h.of_eq ht).idle (some _) rfl ?_
    split <;> (rintro _ ⟨⟩; trivial)
  | beginRoom g rest ht =>
    refine (h.of_eq ht).idle (some _) rfl ?_
    split <;> (rintro _ ⟨⟩; trivial)
  | beginShut rest ht =>
    exact (h.of_eq ht).idle (some (.close .beginOp)) rfl
      (by rintro _ ⟨⟩; trivial)
  | beginAdd rest ht =>
    refine (h.of_eq ht).idle (some (.op _)) rfl ?_
    rintro _ ⟨⟩
    exact ⟨rfl, nofun, nofun⟩
  | modifyHit o fresh fn b f rest ht hm =>
    have hfl : ∀ y, Flagged (s.cache.acquireHit (.modify fresh true fn) b f) y ↔ _ :=
      flagged_acquireHit hsh hm
    have ho := (h.of_eq ht).self
    refine (h.of_eq ht).operate (hl.of_eq ht) rfl rfl (fun y hy => (hfl y).mpr (Or.inl hy)) rfl
      ⟨[], (List.append_nil _).symm⟩ fun hk => ?_
    exact ⟨(ho.keeps hk).touch ((hfl b).mpr (Or.inr ⟨rfl, rfl⟩)), o.mem_touch b⟩
  | @modifyMiss o fresh fn b t f rest ht hm htake hmem =>
    have htk := hsh.takeFrame capacity (shardFor b)
    have hft := flagged_takeFrame hsh capacity (shardFor b)
    have hpd := (pass_takeFrame s.cache capacity (shardFor b)).2
    have htr := trace_takeFrame s.cache capacity (shardFor b)
    rw [htake] at htk hft hpd htr
    have hfl : ∀ y, Flagged (t.acquireMiss (.modify fresh true fn) b f) y ↔ _ :=
      flagged_acquireMiss htk.shape htk.mapped (htk.map b hm)
    have ho := (h.of_eq ht).self
    refine (h.of_eq ht).operate (hl.of_eq ht) rfl rfl
      (fun y hy => (hfl y).mpr (Or.inl ((hft y).mpr hy))) hpd htr fun hk => ?_
    exact ⟨(ho.keeps hk).touch ((hfl b).mpr (Or.inr ⟨rfl, rfl⟩)), o.mem_touch b⟩
  | modifyLoad o b joined op f calls rest ht hm =>
    have ho := (h.of_eq ht).self
    exact (h.of_eq ht).operateFrame (hl.of_eq ht) rfl rfl (flagged_update rfl rfl (by rfl)) rfl
      ⟨[], (List.append_nil _).symm⟩ fun hk => ⟨ho.1.keeps hk, ho.2⟩
  | modifyBytes o b joined fresh fn f calls rest ht hm hlk hlf =>
    have ho := (h.of_eq ht).self
    exact (h.of_eq ht).operateFrame (hl.of_eq ht) rfl rfl (flagged_update rfl rfl (by rfl)) rfl
      ⟨_, rfl⟩ fun hk => ⟨ho.1.write ho.2 hk rfl, ho.2⟩
  | modifyLoaded o b joined fresh fn f calls rest ht hm =>
    have ho := (h.of_eq ht).self
    exact (h.of_eq ht).operateFrame (hl.of_eq ht) rfl rfl (flagged_update rfl rfl (by rfl)) rfl
      ⟨_, rfl⟩ fun hk => ⟨ho.1.write ho.2 hk rfl, ho.2⟩
  | modifyFinish o b joined f calls rest ht hm =>
    have ho := (h.of_eq ht).self
    refine (h.of_eq ht).operateFrame (hl.of_eq ht) rfl rfl (flagged_update rfl rfl (by rfl)) rfl
      ⟨[], (List.append_nil _).symm⟩ fun hk => ?_
    cases joined with
    | true => exact ho.1.keeps hk
    | false => exact ho.1.keeps hk
  | addOld o b rest ht hh hb =>
    have ho := (h.of_eq ht).self
    exact (h.of_eq ht).idle (some (.op o)) rfl (by rintro _ ⟨⟩; exact ho)
  | addNew o b rest ht hh hb =>
    have ho := (h.of_eq ht).self
    exact (h.of_eq ht).idle (some (.addStore o)) rfl (by rintro _ ⟨⟩; exact ho)
  | addStore o rest ht =>
    have ho := (h.of_eq ht).self
    exact (h.of_eq ht).idle (some (.op o)) rfl (by rintro _ ⟨⟩; exact ho)
  | endCount o rest ht =>
    have ho := (h.of_eq ht).self
    have hc : ∀ u ∈ rest, u.commits = false := fun u => (hl.of_eq ht).not_commits_of_inGate rfl
    refine ⟨h.past.endOp ho, fun i hi => Or.inl ?_, fun u hu => ?_⟩
    · refine (h.of_eq ht).logged_of_idle (fun u hu => ?_) i hi
      rcases Multiset.mem_cons.mp hu with rfl | hu
      · rfl
      · exact GroupCommit.History.not_unlogged (hc u hu)
    · rcases Multiset.mem_cons.mp hu with rfl | hu
      · trivial
      · refine ((h.of_eq ht).told u (Multiset.mem_cons_of_mem hu)).beside (hc u hu) ?_ fun _ => ?_
        · exact ⟨Nat.le_succ _, Nat.le_refl _, Nat.le_refl _, Or.inl rfl⟩
        · exact ⟨rfl, fun _ => id, [], (List.append_nil _).symm⟩
  | endLeave rest ht =>
    refine (h.of_eq ht).idle _ rfl ?_
    split
    · exact nofun
    · split <;> (rintro _ ⟨⟩; trivial)
  | endFull rest ht =>
    refine (h.of_eq ht).idle _ rfl ?_
    split
    · exact nofun
    · rintro _ ⟨⟩
      trivial
  | endLock rest ht hh =>
    refine (h.of_eq ht).idle _ rfl ?_
    split
    · exact nofun
    · rintro _ ⟨⟩
      trivial
  | endGate rest go ht hgo =>
    refine (h.of_eq ht).idle _ rfl ?_
    split
    · rintro _ ⟨⟩
      trivial
    · exact nofun
  | commitLock before rest ht hh =>
    have hb := (h.of_eq ht).self
    exact (h.of_eq ht).idle (some (.commitLoop before s.ended)) rfl (by rintro _ ⟨⟩; exact hb)
  | commitReturns before target rest ht hle =>
    have hb := (h.of_eq ht).self
    exact (h.of_eq ht).idle (some (.commitDone before)) rfl
      (by rintro _ ⟨⟩; exact Nat.le_trans hb hle)
  | commitLoop before target rest ht hlt =>
    have hb := (h.of_eq ht).self
    refine (h.of_eq ht).idle (some _) rfl ?_
    split <;> (rintro _ ⟨⟩; exact hb)
  | commitWait before target rest ht hh =>
    have hb := (h.of_eq ht).self
    exact (h.of_eq ht).idle (some (.commitLoop before target)) rfl (by rintro _ ⟨⟩; exact hb)
  | checkpointLock before rest ht hh =>
    have hb := (h.of_eq ht).self
    refine (h.of_eq ht).idle (some (.checkpointLoop before _)) rfl ?_
    rintro _ ⟨⟩
    exact ⟨hb, Nat.le_refl _, fun hle => absurd hle (Nat.not_succ_le_self _)⟩
  | checkpointReturns before target rest ht hle =>
    have hb := (h.of_eq ht).self
    exact (h.of_eq ht).idle (some (.checkpointDone before)) rfl (by rintro _ ⟨⟩; exact hb.done hle)
  | checkpointLoop before target rest ht hlt =>
    have hb := (h.of_eq ht).self
    refine (h.of_eq ht).idle (some _) rfl ?_
    split <;> (rintro _ ⟨⟩; exact hb)
  | checkpointWait before target rest ht hh =>
    have hb := (h.of_eq ht).self
    exact (h.of_eq ht).idle (some (.checkpointLoop before target)) rfl (by rintro _ ⟨⟩; exact hb)
  | olderReturns rest ht hh => exact (h.of_eq ht).idle none rfl nofun
  | olderLock rest ht hh hc hb =>
    exact (h.of_eq ht).idle (some (.close .older)) rfl (by rintro _ ⟨⟩; trivial)
  | closeBusy caller rest ht hr => exact (h.of_eq ht).idle caller.wait rfl (h.of_eq ht).self.wait
  | close caller rest ht hr =>
    have hc := (h.of_eq ht).self
    exact (h.of_eq ht).idle (some (.take caller)) rfl (by rintro _ ⟨⟩; exact hc)
  | take caller rest ht =>
    -- everything flagged is in the list: nobody else has frames in hand
    obtain ⟨hcm, -, hrun⟩ := (hl.of_eq ht).self
    have hl' := hl.of_eq ht
    rw [hcm, hrun] at hl'
    have hidle : ∀ u ∈ .take caller ::ₘ rest, u.inGate = false ∧ u.commits = false := fun u hu =>
      ⟨hl'.not_inGate hu, hl'.not_commits_of_free hu⟩
    have hall : ∀ b, Flagged s.cache b → b ∈ s.txnBlocks := by
      intro b hb
      rcases ((hf.of_eq ht).flagged b).mp hb with hb | ⟨u, hu, hb⟩
      · exact hb
      · rw [Thread.pending_of_idle (hidle u hu).1 (hidle u hu).2] at hb
        cases hb
    have hp := h.past.take (t := ⟨s.txnBlocks, none⟩) hall
    have hg : Grows s.hist { s.hist with txns := s.txns ++ [⟨s.txnBlocks, none⟩] } :=
      ⟨Nat.le_refl _, Nat.le_refl _, Nat.le_refl _, Or.inl rfl⟩
    refine (h.of_eq ht).alone (fun u hu => hidle u (Multiset.mem_cons_of_mem hu)) (.count _) hp.1 hg
      ⟨⟨(h.of_eq ht).self.grows hg, hp.2⟩, List.getLast?_concat⟩ fun i hi => ?_
    by_cases hlt : i < s.txns.length
    · have hlog : s.hist.Logged i := (h.of_eq ht).logged_of_idle
        (fun u hu => GroupCommit.History.not_unlogged (hidle u hu).2) i hlt
      exact Or.inl (hlog.append ⟨s.txnBlocks, none⟩)
    · refine Or.inr ⟨?_, rfl⟩
      replace hi : i < (s.txns ++ [(⟨s.txnBlocks, none⟩ : Txn)]).length := hi
      show i + 1 = (s.txns ++ [(⟨s.txnBlocks, none⟩ : Txn)]).length
      rw [List.length_append, List.length_singleton] at hi ⊢
      omega
  | count j rest ht =>
    have hrest : ∀ u ∈ rest, _ := fun u => (hl.of_eq ht).idle_of_commits rfl
    have hj := (h.of_eq ht).self
    exact (h.of_eq ht).alone hrest (.cover j) h.past (.cache s.hist s.cache) hj
      ((h.of_eq ht).logged_self hrest)
  | cover j rest ht =>
    have hrest : ∀ u ∈ rest, _ := fun u => (hl.of_eq ht).idle_of_commits rfl
    have hj := (h.of_eq ht).self
    exact (h.of_eq ht).alone hrest (.work { j with covered := s.ended } .begin) h.past
      (.cache s.hist s.cache) ⟨⟨hj.1.caller, hj.1.taken⟩, rfl, fun _ => hj.2, trivial⟩
      ((h.of_eq ht).logged_self hrest)
  | beginRecord j rest ht =>
    have hrest : ∀ u ∈ rest, _ := fun u => (hl.of_eq ht).idle_of_commits rfl
    obtain ⟨hj, hcov, hlast, -⟩ := (h.of_eq ht).self
    split
    · -- a transaction without blocks is not logged
      rename_i hb
      refine (h.of_eq ht).alone hrest (.work j .size) h.past (.cache s.hist s.cache)
        ⟨hj, hcov, nofun, trivial⟩ fun i hi => Or.inl ?_
      rcases (h.of_eq ht).logged_self hrest i hi with hlog | ⟨hi, -⟩
      · exact hlog
      · refine ⟨⟨j.blocks, none⟩, ?_, Or.inl hb⟩
        have hlen : s.txns.length - 1 = i := Nat.sub_eq_of_eq_add hi.symm
        have hl := hlast rfl
        rw [List.getLast?_eq_getElem?] at hl
        show s.txns[i]? = _
        rw [← hlen]
        exact hl
    · exact (h.of_eq ht).work hrest (.block j.blocks) s.cache (Nat.le_refl _)
        ⟨[], (List.append_nil _).symm⟩ rfl trivial
  | copyTxnFrame j b todo f rest ht hm hin =>
    exact (h.of_eq ht).work (fun u => (hl.of_eq ht).idle_of_commits rfl) (.copy f todo) _
      (Nat.le_refl _)
      ⟨[], (List.append_nil _).symm⟩ rfl trivial
  | copyThrows j b todo rest ht hn =>
    obtain ⟨f, hm, hin⟩ := hf.flagged_of_pending ht (b := b)
      ((hf.job ht).2.2 b (List.mem_cons_self ..))
    rw [hn f hm] at hin
    cases hin
  | copied j f todo calls rest ht hc hlk =>
    exact (h.of_eq ht).work (fun u => (hl.of_eq ht).idle_of_commits rfl) (.block todo) _
      (Nat.le_refl _)
      ⟨[], (List.append_nil _).symm⟩ rfl trivial
  | staged j rest ht =>
    exact (h.of_eq ht).work (fun u => (hl.of_eq ht).idle_of_commits rfl) .sync s.cache
      (Nat.le_refl _)
      ⟨[], (List.append_nil _).symm⟩ rfl trivial
  | sync j rest ht =>
    exact (h.of_eq ht).work (fun u => (hl.of_eq ht).idle_of_commits rfl) .append _
      (Nat.le_sub_one_of_lt hk.durable) ⟨[], (List.append_nil _).symm⟩ rfl trivial
  | append j rest ht =>
    exact (h.of_eq ht).work (fun u => (hl.of_eq ht).idle_of_commits rfl) (.syncCommit _) s.cache
      (Nat.le_refl _) ⟨[], (List.append_nil _).symm⟩ rfl trivial
  | syncCommit j lsn rest ht =>
    have hrest : ∀ u ∈ rest, _ := fun u => (hl.of_eq ht).idle_of_commits rfl
    obtain ⟨hj, hcov, -, -⟩ := (h.of_eq ht).self
    have hlt : lsn < s.nextLsn :=
      hk.stages (.work j (.syncCommit lsn)) (by rw [ht]; exact Multiset.mem_cons_self ..)
    have hlsn : lsn ≤ s.nextLsn - 1 := Nat.le_sub_one_of_lt hlt
    have hd : s.cache.durable ≤ s.nextLsn - 1 := Nat.le_sub_one_of_lt hk.durable
    -- first the sync, then the record it made durable
    let x : Hist := { s.hist with cache := { s.cache with durable := s.nextLsn - 1 } }
    have hp : Past init x := h.past.cache _ (Or.inl hj.taken) hd ⟨[], (List.append_nil _).symm⟩
    have hg : Grows s.hist { x with txns := recordCommit s.txns lsn } :=
      ⟨Nat.le_refl _, Nat.le_refl _, Nat.le_refl _, Or.inl rfl⟩
    refine (h.of_eq ht).alone hrest (.work j (.frames lsn j.blocks)) (hp.recordCommit hlsn) hg
      ⟨⟨hj.caller.grows hg, fun o ho => ?_⟩, hcov, nofun, trivial⟩ fun i hi => Or.inl ?_
    · show o.txn < (recordCommit s.txns lsn).length
      rw [length_recordCommit]
      exact hj.taken o ho
    · replace hi : i < (recordCommit s.txns lsn).length := hi
      rw [length_recordCommit] at hi
      rcases (h.of_eq ht).logged_self hrest i hi with hlog | ⟨hlast, -⟩
      · have hx : x.Logged i := hlog.cache hd
        exact hx.recordCommit hlsn
      · obtain ⟨u, hu, -, -, hc⟩ := getElem?_recordCommit lsn (List.getElem?_eq_getElem hi)
        exact ⟨u, hu, Or.inr ⟨lsn, hc hlast, hlsn⟩⟩
  | commitFrame j lsn b todo f rest ht hm hin =>
    exact (h.of_eq ht).work (fun u => (hl.of_eq ht).idle_of_commits rfl) (.frames lsn todo) _
      (Nat.le_refl _) ⟨_, rfl⟩ rfl trivial
  | commitThrows j lsn b todo rest ht hn =>
    obtain ⟨f, hm, hin⟩ := hf.flagged_of_pending ht (b := b) (List.mem_cons_self ..)
    rw [hn f hm] at hin
    cases hin
  | framesDone j lsn rest ht =>
    exact (h.of_eq ht).work (fun u => (hl.of_eq ht).idle_of_commits rfl) .size s.cache
      (Nat.le_refl _)
      ⟨[], (List.append_nil _).symm⟩ rfl trivial
  | size j full rest ht =>
    split
    · exact (h.of_eq ht).work (fun u => (hl.of_eq ht).idle_of_commits rfl) .writeBack s.cache
        (Nat.le_refl _) ⟨[], (List.append_nil _).symm⟩ rfl trivial
    · exact (h.of_eq ht).work (fun u => (hl.of_eq ht).idle_of_commits rfl) (.lock false) s.cache
        (Nat.le_refl _) ⟨[], (List.append_nil _).symm⟩ rfl nofun
  | writeBack j rest ht hp =>
    exact (h.of_eq ht).work (fun u => (hl.of_eq ht).idle_of_commits rfl) .pass _ (Nat.le_refl _)
      ⟨[], (List.append_nil _).symm⟩ rfl (sweeping_writeBack hk.run)
  | passed j rest ht hp =>
    obtain ⟨-, -, -, hsw⟩ := (h.of_eq ht).self
    exact (h.of_eq ht).work (fun u => (hl.of_eq ht).idle_of_commits rfl) .devSync s.cache
      (Nat.le_refl _) ⟨[], (List.append_nil _).symm⟩ rfl (Sweeping.clean hsw hp)
  | devSync j rest ht =>
    have hrest : ∀ u ∈ rest, _ := fun u => (hl.of_eq ht).idle_of_commits rfl
    obtain ⟨hj, hcov, -, hclean⟩ := (h.of_eq ht).self
    have hmem : .work j .devSync ∈ s.threads := by
      rw [ht]
      exact Multiset.mem_cons_self ..
    have hdisk := disk_of_clean hk.run hclean (hf.not_flagged hl hmem rfl) fun d hd =>
      (hk.no_modify hl ((hl.of_eq ht).self.quiet rfl).2.1 d hd).2
    have hg : Grows s.hist { s.hist with synced := s.cache.disk, checkpointed := s.ended } :=
      ⟨Nat.le_refl _, Nat.le_refl _, h.past.checkpointed, Or.inl rfl⟩
    exact (h.of_eq ht).alone hrest (.work j .superblock) (h.past.sync (Nat.le_refl _) hdisk) hg
      ⟨⟨hj.caller.grows hg, hj.taken⟩, hcov, nofun, hclean, rfl⟩ ((h.of_eq ht).logged_self hrest)
  | superblock j rest ht =>
    have hrest : ∀ u ∈ rest, _ := fun u => (hl.of_eq ht).idle_of_commits rfl
    obtain ⟨hj, hcov, -, hclean, hch⟩ := (h.of_eq ht).self
    have hmem : .work j .superblock ∈ s.threads := by
      rw [ht]
      exact Multiset.mem_cons_self ..
    have hdisk := disk_of_clean hk.run hclean (hf.not_flagged hl hmem rfl) fun d hd =>
      (hk.no_modify hl ((hl.of_eq ht).self.quiet rfl).2.1 d hd).2
    have hg : Grows s.hist { s.hist with synced := s.cache.disk } :=
      ⟨Nat.le_refl _, Nat.le_refl _, Nat.le_refl _, Or.inl rfl⟩
    exact (h.of_eq ht).alone hrest (.work j .reset) (h.past.sync h.past.checkpointed hdisk) hg
      ⟨⟨hj.caller.grows hg, hj.taken⟩, hcov, nofun, hch⟩ ((h.of_eq ht).logged_self hrest)
  | reset j rest ht =>
    obtain ⟨-, -, -, hch⟩ := (h.of_eq ht).self
    exact (h.of_eq ht).work (fun u => (hl.of_eq ht).idle_of_commits rfl) (.lock true) _
      (Nat.le_sub_one_of_lt hk.durable) ⟨[], (List.append_nil _).symm⟩ rfl fun _ => hch
  | lock j checkpointed rest ht hh =>
    have hrest : ∀ u ∈ rest, _ := fun u => (hl.of_eq ht).idle_of_commits rfl
    obtain ⟨hj, hcov, -, hch⟩ := (h.of_eq ht).self
    have hlog : ∀ i < s.txns.length, s.hist.Logged i := fun i hi =>
      ((h.of_eq ht).logged_self hrest i hi).resolve_right (fun hn => absurd hn.2 nofun)
    have hp := h.past.lock (fun o ho => hlog _ (hj.taken o ho))
      (s.checkpointsDone + if checkpointed then 1 else 0)
    have hg : Grows s.hist { s.hist with
        committedThrough := s.ended
        checkpointsDone := s.checkpointsDone + if checkpointed then 1 else 0 } := by
      refine ⟨Nat.le_refl _, h.past.through, Nat.le_refl _, ?_⟩
      cases checkpointed with
      | false => exact Or.inl rfl
      | true => exact Or.inr ⟨rfl, hch rfl⟩
    show GroupCommit.History init { s.hist with
      committedThrough := j.covered
      checkpointsDone := s.checkpointsDone + if checkpointed then 1 else 0 }
        (.reopen j.caller ::ₘ rest)
    rw [show j.covered = s.ended from hcov]
    exact (h.of_eq ht).alone hrest (.reopen j.caller) hp hg (hj.caller.grows hg) fun i hi =>
      Or.inl (hlog i hi)
  | reopen caller rest ht => exact (h.of_eq ht).idle caller.resume rfl (h.of_eq ht).self.resume

theorem State.History.empty (init : Nat → Block) (durable : Nat) :
    (State.empty init durable).History init where
  past :=
    { count := rfl
      ops := nofun
      through := Nat.le_refl _
      committed := nofun
      checkpointed := Nat.le_refl _
      synced := ⟨0, Nat.le_refl _, fun _ => rfl, nofun⟩ }
  logged := nofun
  told := fun t ht => absurd ht (Multiset.notMem_zero t)

/-! ## Whole runs -/

structure Inv (capacity : Nat) (init : Nat → Block) (s : State) : Prop where
  locks : s.Locks
  linked : Linked capacity init s
  flags : s.Flags
  history : s.History init

theorem Run.inv {capacity maxTxnBlocks : Nat} {init : Nat → Block} {s : State}
    (h : Run capacity maxTxnBlocks init s) : Inv capacity init s := by
  induction h with
  | empty durable =>
    exact ⟨.empty init durable, .empty capacity init durable, .empty init durable,
      .empty init durable⟩
  | step hr hs ih =>
    exact ⟨ih.locks.step hs, ih.linked.step ih.locks hs, ih.flags.step ih.locks ih.linked hs,
      ih.history.step ih.locks ih.linked ih.flags hs⟩

/-- The operation it is in, between `begin_op` and `end_op`. -/
def Thread.operation : Thread → Option Operation
  | op o | modify o _ _ _ | addLock o _ | addStore o => some o
  | _ => none

/-- The `m`-th event of a trace is a modify of block `b` through the journal. -/
def WriteAt (tr : List Event) (m b : Nat) : Prop :=
  ∃ fresh saw after, tr[m]? = some (.modify b fresh true saw after)

section Safety

variable {capacity : Nat} {init : Nat → Block} {s : State}

/-- About to take the list, `run_commit` is alone with it. -/
theorem Inv.take_alone (h : Inv capacity init s) {caller : Caller} (hc : .take caller ∈ s.threads) :
    ∀ t ∈ s.threads, t.inGate = false ∧ t.commits = false := by
  obtain ⟨rest, ht⟩ := Multiset.exists_cons_of_mem hc
  obtain ⟨hcm, -, hrun⟩ := (h.locks.of_eq ht).self
  have hl := h.locks
  rw [State.Locks, hcm, hrun] at hl
  exact fun t ht => ⟨hl.not_inGate ht, hl.not_commits_of_free ht⟩

theorem Inv.take_operation (h : Inv capacity init s) {caller : Caller}
    (hc : .take caller ∈ s.threads) : ∀ t ∈ s.threads, t.operation = none := by
  intro t ht
  have hg := (h.take_alone hc t ht).1
  cases t <;> first | cases hg; done | rfl

theorem Inv.take_flagged (h : Inv capacity init s) {caller : Caller}
    (hc : .take caller ∈ s.threads) (b : Nat) : b ∈ s.txnBlocks ↔ Flagged s.cache b := by
  rw [h.flags.flagged]
  refine ⟨Or.inl, ?_⟩
  rintro (hb | ⟨t, ht, hb⟩)
  · exact hb
  · have hi := h.take_alone hc t ht
    rw [Thread.pending_of_idle hi.1 hi.2] at hb
    cases hb

/-- Where the writes of an operation that has ended are. -/
theorem Inv.wrote (h : Inv capacity init s) {o : Operation} (ho : o ∈ s.endedOps) {m : Nat}
    (hm : m ∈ o.writes) : ∃ b, WriteAt s.cache.trace m b ∧
      (o.txn = s.txns.length ∧ Flagged s.cache b ∨ ∃ t, s.txns[o.txn]? = some t ∧
      b ∈ t.blocks) := by
  rcases h.history.past.ops o ho with hr | hr
  · obtain ⟨b, hb, hw⟩ := hr.wrote m hm
    exact ⟨b, hw, Or.inl ⟨hr.txn, hr.flagged b hb⟩⟩
  · obtain ⟨b, hb, hw⟩ := hr.wrote m hm
    obtain ⟨t, ht, hall⟩ := hr.txn
    exact ⟨b, hw, Or.inr ⟨t, ht, hall b hb⟩⟩

theorem Inv.committed (h : Inv capacity init s) {before : Nat} (hc : .commitDone before ∈ s.threads)
    {o : Operation} (ho : o ∈ s.endedOps.take before) {m : Nat} (hm : m ∈ o.writes) :
    ∃ b t lsn, WriteAt s.cache.trace m b ∧ s.txns[o.txn]? = some t ∧ b ∈ t.blocks ∧
      t.commit = some lsn ∧ lsn ≤ s.cache.durable := by
  have hle : before ≤ s.committedThrough := h.history.told _ hc
  have ho' : o ∈ s.endedOps.take s.committedThrough := List.take_subset_take_left _ hle ho
  obtain ⟨t, ht, hl⟩ := h.history.past.committed o ho'
  obtain ⟨b, hw, ⟨hn, -⟩ | ⟨u, hu, hb⟩⟩ := h.wrote (List.mem_of_mem_take ho) hm
  · have := (List.getElem?_eq_some_iff.mp ht).1
    exact absurd hn (Nat.ne_of_lt this)
  · obtain rfl : u = t := Option.some.inj (hu.symm.trans ht)
    rcases hl with hl | ⟨lsn, hlsn, hle⟩
    · rw [hl] at hb
      cases hb
    · exact ⟨b, u, lsn, hw, hu, hb, hlsn, hle⟩

theorem Inv.checkpointed (h : Inv capacity init s) {before : Nat}
    (hc : .checkpointDone before ∈ s.threads) :
    ∃ n, (∀ o ∈ s.endedOps.take before, ∀ m ∈ o.writes, m < n) ∧
      ∀ b, (s.synced b).bytes = results init (s.cache.trace.take n) b := by
  have hle : before ≤ s.checkpointed := h.history.told _ hc
  obtain ⟨n, -, hdisk, hall⟩ := h.history.past.synced
  exact ⟨n, fun o ho => hall o (List.take_subset_take_left _ hle ho), hdisk⟩

end Safety

/-- Group commit, in every state that any threads reach by any interleaving.

    When `run_commit` is about to take the block list nobody is in an operation, and what one
    operation wrote is in one transaction.  The list is without repetition and lists exactly the
    frames whose `in_txn` is set, and neither `copy_txn_frame` nor `commit_frame` throws.  Once
    `commit` has returned, all writes of the operations that had ended before it was called are in
    transactions whose COMMIT record is synced; once `checkpoint` has, `disk.img` at its last sync
    is the result of a prefix of all the modifies that contains those writes. -/
theorem group_commit {capacity maxTxnBlocks : Nat} {init : Nat → Block} {s : State}
    (h : Run capacity maxTxnBlocks init s) :
    ((∀ caller, .take caller ∈ s.threads → ∀ t ∈ s.threads, t.operation = none) ∧
      ∀ o ∈ s.endedOps, ∀ m ∈ o.writes, ∃ b, WriteAt s.cache.trace m b ∧
        (o.txn = s.txns.length ∧ Flagged s.cache b ∨
          ∃ t, s.txns[o.txn]? = some t ∧ b ∈ t.blocks)) ∧
    ((∀ caller, .take caller ∈ s.threads → s.txnBlocks.Nodup ∧
        ∀ b, b ∈ s.txnBlocks ↔ Flagged s.cache b) ∧ .threw ∉ s.threads) ∧
    (∀ before, .commitDone before ∈ s.threads → before ≤ s.endedOps.length ∧
      ∀ o ∈ s.endedOps.take before, ∀ m ∈ o.writes, ∃ b t lsn, WriteAt s.cache.trace m b ∧
        s.txns[o.txn]? = some t ∧ b ∈ t.blocks ∧ t.commit = some lsn ∧ lsn ≤ s.cache.durable) ∧
    (∀ before, .checkpointDone before ∈ s.threads → before ≤ s.endedOps.length ∧
      ∃ n, (∀ o ∈ s.endedOps.take before, ∀ m ∈ o.writes, m < n) ∧
        ∀ b, (s.synced b).bytes = results init (s.cache.trace.take n) b) := by
  have hi := h.inv
  have hlen : s.endedOps.length = s.ended := hi.history.past.count
  refine ⟨⟨fun caller hc => hi.take_operation hc, fun o ho m hm => hi.wrote ho hm⟩,
    ⟨fun caller hc => ⟨hi.flags.nodup, hi.take_flagged hc⟩, fun hc => hi.flags.jobs _ hc⟩,
    fun before hc => ⟨?_, fun o ho m hm => hi.committed hc ho hm⟩,
    fun before hc => ⟨?_, hi.checkpointed hc⟩⟩
  · rw [hlen]
    exact Nat.le_trans (hi.history.told _ hc) hi.history.past.through
  · rw [hlen]
    exact Nat.le_trans (hi.history.told _ hc) hi.history.past.checkpointed

/-- An operation writes block 1 and ends; `commit` is called, takes the list and returns. -/
theorem group_commit_one : ∃ s o, Run 512 192 (fun _ => Bytes.zero 4096) s ∧
    .commitDone 1 ∈ s.threads ∧ s.endedOps = [o] ∧ o.writes = [0] ∧
    ∃ b t lsn, WriteAt s.cache.trace 0 b ∧ s.txns[o.txn]? = some t ∧ b ∈ t.blocks ∧
      t.commit = some lsn ∧ lsn ≤ s.cache.durable := by
  let op : Op := .modify true true id
  have h0 : Run 512 192 (fun _ => Bytes.zero 4096) _ := .empty 0
  have h1 := (((h0.step .callBeginOp).step (.beginLoad 0 rfl)).step (.beginTry false 0 0 rfl)).step
    (.beginCas 0 0 rfl rfl rfl)
  have h2 := (((h1.step (.modifyMiss ⟨0, [], []⟩ true id 1 0 rfl rfl rfl (by decide))).step
    (.modifyLoad ⟨0, [1], []⟩ 1 true op 0 0 0 rfl rfl)).step
    (.modifyLoaded ⟨0, [1], []⟩ 1 true true id 0 0 0 rfl rfl)).step
    (.modifyFinish ⟨0, [1], [0]⟩ 1 true 0 0 0 rfl rfl)
  have h3 := (((h2.step (.addNew ⟨0, [1], [0]⟩ 1 0 rfl rfl nofun)).step
    (.addStore ⟨0, [1], [0]⟩ 0 rfl)).step (.endCount ⟨0, [1], [0]⟩ 0 rfl)).step (.endLeave 0 rfl)
  have h4 := (((h3.step (.endFull 0 rfl)).step .callCommit).step (.commitLock 1 0 rfl rfl)).step
    (.commitLoop 1 1 0 rfl (by decide))
  have h5 := (((h4.step (.close (.commit 1 1) 0 rfl rfl)).step (.take (.commit 1 1) 0 rfl)).step
    (.count ⟨.commit 1 1, false, 0, [1]⟩ 0 rfl)).step (.cover ⟨.commit 1 1, false, 0, [1]⟩ 0 rfl)
  let j : Job := ⟨.commit 1 1, false, 1, [1]⟩
  have h6 := (((h5.step (.beginRecord j 0 rfl)).step (.copyTxnFrame j 1 [] 0 0 rfl rfl rfl)).step
    (.copied j 0 [] 0 0 rfl rfl rfl)).step (.staged j 0 rfl)
  have h7 := ((((h6.step (.sync j 0 rfl)).step (.append j 0 rfl)).step (.syncCommit j 3 0 rfl)).step
    (.commitFrame j 3 1 [] 0 0 rfl rfl rfl)).step (.framesDone j 3 0 rfl)
  have h8 := (((h7.step (.size j false 0 rfl)).step (.lock j false 0 rfl rfl)).step
    (.reopen (.commit 1 1) 0 rfl)).step (.commitReturns 1 1 0 rfl (by decide))
  have hm : Thread.commitDone 1 ∈ (.commitDone 1 ::ₘ 0 : Multiset Thread) :=
    Multiset.mem_cons_self ..
  have ho : (⟨0, [1], [0]⟩ : Operation) ∈ [(⟨0, [1], [0]⟩ : Operation)] :=
    List.mem_singleton.mpr rfl
  exact ⟨_, ⟨0, [1], [0]⟩, h8, hm, rfl, rfl,
    ((group_commit h8).2.2.1 1 hm).2 ⟨0, [1], [0]⟩ ho 0 (List.mem_singleton.mpr rfl)⟩

end ConcurrentFs.GroupCommit
