/-
  ConcurrentFs.GroupCommit

  Group commit (`JournalImpl`, src/storage.cpp) with its threads, over the cache of
  `ConcurrentFs.Cache`.

  Operations pass the gate with one atomic access; everything else goes through
  `m_`.  A step is one access to `gate_`, `txn_count_` or `ended_`, one section under
  `m_` between two of those, one section of a call on the cache, or one piece of I/O.
  `m_` is explicit: `held` says whether some thread has it.  A wait on `cv_` gives it
  up and may end at any time.

  Some fields are not part of the program: `synced` is `disk.img` at its last sync,
  `endedOps` are the operations in the order in which they counted themselves in
  `ended_`, `txns` has one entry for each block list that `run_commit` took, and
  `checkpointed` says how many operations had ended at the last checkpoint.
-/
import ConcurrentFs.Cache

namespace ConcurrentFs.GroupCommit

open BufferCache (Op Call FrameId Event Image)

/-- `Journal::MAX_OP_BLOCKS`. -/
def maxOpBlocks : Nat := 64
/-- What `write_back_all` passes as its limit. -/
def sizeMax : Nat := 2 ^ 64 - 1
/-- As many frames of 4096 bytes as an address space of 2^64 bytes holds. -/
def maxFrames : Nat := 2 ^ 52

/-- An operation between `begin_op` and `end_op`. -/
structure Operation where
  /-- How many block lists had been taken when it began. -/
  txn : Nat
  /-- The blocks it has gone to write, without repetition. -/
  blocks : List Nat
  /-- Its modifies, by their places in the trace of the cache. -/
  writes : List Nat

/-- It goes to write block `b`. -/
def Operation.touch (o : Operation) (b : Nat) : Operation :=
  { o with blocks := if b ∈ o.blocks then o.blocks else o.blocks ++ [b] }

/-- Who called `run_commit`.  `before` says how many operations had ended at the call. -/
inductive Caller where
  | beginOp
  | commit (before target : Nat)
  | checkpoint (before target : Nat)
  | older
  | endOp

/-- What a running `run_commit` has in its local variables. -/
structure Job where
  caller : Caller
  /-- `checkpoint_wanted`. -/
  wanted : Bool
  covered : Nat
  blocks : List Nat

/-- How far it has got with its I/O. -/
inductive Stage where
  | begin
  /-- About to stage the BLOCK records of these. -/
  | block (todo : List Nat)
  /-- In `copy_txn_frame`. -/
  | copy (f : FrameId) (todo : List Nat)
  | sync
  | append
  | syncCommit (lsn : Nat)
  /-- About to do `commit_frame` for these. -/
  | frames (lsn : Nat) (todo : List Nat)
  | size
  | writeBack
  | pass
  | devSync
  | superblock
  | reset
  | lock (checkpointed : Bool)

/-- A thread in a call on the journal, by what it does next. -/
inductive Thread where
  -- begin_op
  | beginLoad
  | beginTry (closed : Bool) (g : Nat)
  | beginCas (g : Nat)
  -- begin_op_slow
  | beginLock
  | beginGate
  | beginRoom (g : Nat)
  | beginShut
  | beginAdd
  -- in an operation
  | op (o : Operation)
  | modify (o : Operation) (b : Nat) (joined : Bool) (c : Call)
  | addLock (o : Operation) (b : Nat)
  | addStore (o : Operation)
  -- end_op
  | endLeave
  | endFull
  | endLock
  | endGate
  -- commit
  | commitLock (before : Nat)
  | commitLoop (before target : Nat)
  | commitWait (before target : Nat)
  | commitDone (before : Nat)
  -- checkpoint
  | checkpointLock (before : Nat)
  | checkpointLoop (before target : Nat)
  | checkpointWait (before target : Nat)
  | checkpointDone (before : Nat)
  -- commit_if_older
  | olderLock
  -- run_commit
  | close (caller : Caller)
  | take (caller : Caller)
  | count (j : Job)
  | cover (j : Job)
  | work (j : Job) (st : Stage)
  | reopen (caller : Caller)
  /-- `copy_txn_frame` or `commit_frame` threw. -/
  | threw

/-- Where a caller of `run_commit` goes when that returned false: to a wait, or home. -/
def Caller.wait : Caller → Option Thread
  | beginOp => some .beginLock
  | commit before target => some (.commitWait before target)
  | checkpoint before target => some (.checkpointWait before target)
  | older | endOp => none

/-- Where it goes, with `m_`, when that returned true. -/
def Caller.resume : Caller → Option Thread
  | beginOp => some .beginGate
  | commit before target => some (.commitLoop before target)
  | checkpoint before target => some (.checkpointLoop before target)
  | older | endOp => none

/-- A thread goes on, or has returned. -/
def goes : Option Thread → Multiset Thread → Multiset Thread
  | some t, rest => t ::ₘ rest
  | none, rest => rest

/-- A block list that was taken. -/
structure Txn where
  blocks : List Nat
  /-- The lsn of its COMMIT record, once that is synced. -/
  commit : Option Nat

structure State where
  cache : BufferCache.State
  /-- `gate_`: its top bit and the rest. -/
  closed : Bool
  running : Nat
  txnCount : Nat
  ended : Nat
  held : Bool
  committing : Bool
  commitRequested : Bool
  checkpointRequested : Bool
  committedThrough : Nat
  checkpointsDone : Nat
  /-- `txn_blocks_`; `txn_set_` has the same elements. -/
  txnBlocks : List Nat
  /-- `wal_.next_lsn()`. -/
  nextLsn : Nat
  threads : Multiset Thread
  synced : Nat → Image
  endedOps : List Operation
  txns : List Txn
  checkpointed : Nat

/-- `fits`. -/
def fits (maxTxnBlocks running blocks : Nat) : Bool :=
  decide (running = 0 ∧ blocks = 0 ∨ blocks + (running + 1) * maxOpBlocks ≤ maxTxnBlocks)

/-! ## What else goes on in the cache -/

/-- A call that the journal makes.  The rest are reads, and pins about to be dropped. -/
def ofJournal : Call → Bool
  | .hit (.modify ..) _ _ | .load (.modify ..) _ _ | .loaded (.modify ..) _ _
  | .failed (.modify ..) _ _ | .finish .. | .copy .. => true
  | _ => false

/-- An event of a call of the journal. -/
def eventOfJournal : Event → Bool
  | .modify .. | .commit .. => true
  | _ => false

/-- A step of a read, of an eviction or of a write-back: nothing of the journal moves. -/
structure Background (capacity : Nat) (s t : BufferCache.State) : Prop where
  step : BufferCache.Step capacity false s t
  durable : t.durable = s.durable
  calls : t.calls.filter (ofJournal ·) = s.calls.filter (ofJournal ·)
  trace : ∃ evs, t.trace = s.trace ++ evs ∧ ∀ e ∈ evs, eventOfJournal e = false
  memory : t.count ≤ maxFrames

/-! ## Steps -/

/-- The last entry gets its COMMIT record. -/
def recordCommit (txns : List Txn) (lsn : Nat) : List Txn :=
  txns.modify (txns.length - 1) fun t => { t with commit := some lsn }

/-- One step of some thread. -/
inductive Step (capacity maxTxnBlocks : Nat) : State → State → Prop where
  | background {s : State} {t : BufferCache.State} : Background capacity s.cache t →
      Step capacity maxTxnBlocks s { s with cache := t }
  -- calls begin
  | callBeginOp {s : State} :
      Step capacity maxTxnBlocks s { s with threads := .beginLoad ::ₘ s.threads }
  | callCommit {s : State} :
      Step capacity maxTxnBlocks s { s with threads := .commitLock s.ended ::ₘ s.threads }
  | callCheckpoint {s : State} :
      Step capacity maxTxnBlocks s { s with threads := .checkpointLock s.ended ::ₘ s.threads }
  | callCommitIfOlder {s : State} :
      Step capacity maxTxnBlocks s { s with threads := .olderLock ::ₘ s.threads }
  -- begin_op
  | beginLoad {s : State} (rest : Multiset Thread) : s.threads = .beginLoad ::ₘ rest →
      Step capacity maxTxnBlocks s { s with threads := .beginTry s.closed s.running ::ₘ rest }
  | beginTry {s : State} (closed : Bool) (g : Nat) (rest : Multiset Thread) :
      s.threads = .beginTry closed g ::ₘ rest →
      Step capacity maxTxnBlocks s
        { s with
          threads :=
            (if !closed && fits maxTxnBlocks g s.txnCount then .beginCas g else
            .beginLock) ::ₘ rest }
  | beginCas {s : State} (g : Nat) (rest : Multiset Thread) : s.threads = .beginCas g ::ₘ rest →
      s.closed = false → s.running = g →
      Step capacity maxTxnBlocks s
        { s with running := g + 1, threads := .op ⟨s.txns.length, [], []⟩ ::ₘ rest }
  /-- The gate is another, or the exchange failed for no reason. -/
  | beginCasFails {s : State} (g : Nat) (rest : Multiset Thread) :
      s.threads = .beginCas g ::ₘ rest →
      Step capacity maxTxnBlocks s { s with threads := .beginTry s.closed s.running ::ₘ rest }
  -- begin_op_slow
  | beginLock {s : State} (rest : Multiset Thread) : s.threads = .beginLock ::ₘ rest →
      s.held = false → s.committing = false →
      Step capacity maxTxnBlocks s { s with held := true, threads := .beginGate ::ₘ rest }
  | beginGate {s : State} (rest : Multiset Thread) : s.threads = .beginGate ::ₘ rest →
      Step capacity maxTxnBlocks s
        { s with threads := (if s.closed then .close .beginOp else .beginRoom s.running) ::ₘ rest }
  | beginRoom {s : State} (g : Nat) (rest : Multiset Thread) : s.threads = .beginRoom g ::ₘ rest →
      Step capacity maxTxnBlocks s
        { s with threads := (if fits maxTxnBlocks g s.txnCount then .beginAdd else
        .beginShut) ::ₘ rest }
  | beginShut {s : State} (rest : Multiset Thread) : s.threads = .beginShut ::ₘ rest →
      Step capacity maxTxnBlocks s
        { s with commitRequested := true, closed := true, threads := .close .beginOp ::ₘ rest }
  | beginAdd {s : State} (rest : Multiset Thread) : s.threads = .beginAdd ::ₘ rest →
      Step capacity maxTxnBlocks s
        { s with
          running := s.running + 1, held := false, threads := .op ⟨s.txns.length, [], []⟩ ::ₘ rest }
  -- write
  | modifyHit {s : State} (o : Operation) (fresh : Bool) (fn : Block → Block)
      (b : Nat) (f : FrameId)
      (rest : Multiset Thread) : s.threads = .op o ::ₘ rest → s.cache.map b = some f →
      Step capacity maxTxnBlocks s
        { s with
          cache := s.cache.acquireHit (.modify fresh true fn) b f
          threads := .modify (o.touch b) b (!(s.cache.frames f).inTxn)
            (.hit (.modify fresh true fn) b f) ::ₘ rest }
  | modifyMiss {s : State} (o : Operation) (fresh : Bool) (fn : Block → Block) (b : Nat)
      {t : BufferCache.State} {f : FrameId} (rest : Multiset Thread) :
      s.threads = .op o ::ₘ rest → s.cache.map b = none →
      s.cache.takeFrame capacity (BufferCache.State.shardFor b) = (t, f) → t.count ≤ maxFrames →
      Step capacity maxTxnBlocks s
        { s with
          cache := t.acquireMiss (.modify fresh true fn) b f
          threads := .modify (o.touch b) b true (.load (.modify fresh true fn) b f) ::ₘ rest }
  | modifyLoad {s : State} (o : Operation) (b : Nat) (joined : Bool) (op : Op) (f : FrameId)
      (calls : Multiset Call) (rest : Multiset Thread) :
      s.threads = .modify o b joined (.load op b f) ::ₘ rest →
      s.cache.calls = .load op b f ::ₘ calls →
      Step capacity maxTxnBlocks s
        { s with
          cache := s.cache.load op b f calls
          threads := .modify o b joined (.loaded op b f) ::ₘ rest }
  | modifyBytes {s : State} (o : Operation) (b : Nat) (joined fresh : Bool) (fn : Block → Block)
      (f : FrameId) (calls : Multiset Call) (rest : Multiset Thread) :
      s.threads = .modify o b joined (.hit (.modify fresh true fn) b f) ::ₘ rest →
      s.cache.calls = .hit (.modify fresh true fn) b f ::ₘ calls →
      (s.cache.frames f).locked = false →
      (s.cache.frames f).loadFailed = false →
      Step capacity maxTxnBlocks s
        { s with
          cache := { s.cache.change b f fresh true fn
            (if fresh then .zero else (s.cache.frames f).data) with
            calls := .finish true f ::ₘ calls }
          threads := .modify { o with writes := o.writes ++ [s.cache.trace.length] } b joined
            (.finish true f) ::ₘ rest }
  | modifyLoaded {s : State} (o : Operation) (b : Nat) (joined fresh : Bool) (fn : Block → Block)
      (f : FrameId) (calls : Multiset Call) (rest : Multiset Thread) :
      s.threads = .modify o b joined (.loaded (.modify fresh true fn) b f) ::ₘ rest →
      s.cache.calls = .loaded (.modify fresh true fn) b f ::ₘ calls →
      Step capacity maxTxnBlocks s
        { s with
          cache := { s.cache.change b f fresh true fn (s.cache.frames f).data with
            calls := .finish true f ::ₘ calls }
          threads := .modify { o with writes := o.writes ++ [s.cache.trace.length] } b joined
            (.finish true f) ::ₘ rest }
  | modifyFinish {s : State} (o : Operation) (b : Nat) (joined : Bool) (f : FrameId)
      (calls : Multiset Call) (rest : Multiset Thread) :
      s.threads = .modify o b joined (.finish true f) ::ₘ rest →
      s.cache.calls = .finish true f ::ₘ calls →
      Step capacity maxTxnBlocks s
        { s with
          cache := { s.cache.finishModify f true with calls := calls }
          threads := (if joined then .addLock o b else .op o) ::ₘ rest }
  -- add_to_txn
  | addOld {s : State} (o : Operation) (b : Nat) (rest : Multiset Thread) :
      s.threads = .addLock o b ::ₘ rest → s.held = false → b ∈ s.txnBlocks →
      Step capacity maxTxnBlocks s { s with threads := .op o ::ₘ rest }
  | addNew {s : State} (o : Operation) (b : Nat) (rest : Multiset Thread) :
      s.threads = .addLock o b ::ₘ rest → s.held = false → b ∉ s.txnBlocks →
      Step capacity maxTxnBlocks s
        { s with held := true, txnBlocks := s.txnBlocks ++ [b], threads := .addStore o ::ₘ rest }
  | addStore {s : State} (o : Operation) (rest : Multiset Thread) :
      s.threads = .addStore o ::ₘ rest →
      Step capacity maxTxnBlocks s
        { s with txnCount := s.txnBlocks.length, held := false, threads := .op o ::ₘ rest }
  -- end_op
  | endCount {s : State} (o : Operation) (rest : Multiset Thread) : s.threads = .op o ::ₘ rest →
      Step capacity maxTxnBlocks s
        { s with
          ended := s.ended + 1, endedOps := s.endedOps ++ [o], threads := .endLeave ::ₘ rest }
  | endLeave {s : State} (rest : Multiset Thread) : s.threads = .endLeave ::ₘ rest →
      Step capacity maxTxnBlocks s
        { s with
          running := s.running - 1
          threads := goes (if s.running ≠ 1 then none else
            some (if s.closed then .endLock else .endFull)) rest }
  | endFull {s : State} (rest : Multiset Thread) : s.threads = .endFull ::ₘ rest →
      Step capacity maxTxnBlocks s
        { s with
          threads := goes (if s.txnCount ≤ maxTxnBlocks then none else some .endLock) rest }
  -- end_op_slow
  | endLock {s : State} (rest : Multiset Thread) : s.threads = .endLock ::ₘ rest → s.held = false →
      Step capacity maxTxnBlocks s
        { s with
          held := !s.committing
          threads := goes (if s.committing then none else some .endGate) rest }
  | endGate {s : State} (rest : Multiset Thread) (go : Bool) : s.threads = .endGate ::ₘ rest →
      go = (decide (s.running = 0) && (s.commitRequested || s.checkpointRequested ||
        decide (maxTxnBlocks < s.txnBlocks.length))) →
      Step capacity maxTxnBlocks s
        { s with held := go, threads := goes (if go then some (.close .endOp) else none) rest }
  -- commit
  | commitLock {s : State} (before : Nat) (rest : Multiset Thread) :
      s.threads = .commitLock before ::ₘ rest → s.held = false →
      Step capacity maxTxnBlocks s
        { s with held := true, threads := .commitLoop before s.ended ::ₘ rest }
  | commitReturns {s : State} (before target : Nat) (rest : Multiset Thread) :
      s.threads = .commitLoop before target ::ₘ rest → target ≤ s.committedThrough →
      Step capacity maxTxnBlocks s
        { s with held := false, threads := .commitDone before ::ₘ rest }
  | commitLoop {s : State} (before target : Nat) (rest : Multiset Thread) :
      s.threads = .commitLoop before target ::ₘ rest → s.committedThrough < target →
      Step capacity maxTxnBlocks s
        { s with
          held := !s.committing
          threads := (if s.committing then .commitWait before target
            else .close (.commit before target)) ::ₘ rest }
  | commitWait {s : State} (before target : Nat) (rest : Multiset Thread) :
      s.threads = .commitWait before target ::ₘ rest → s.held = false →
      Step capacity maxTxnBlocks s
        { s with held := true, threads := .commitLoop before target ::ₘ rest }
  -- checkpoint
  | checkpointLock {s : State} (before : Nat) (rest : Multiset Thread) :
      s.threads = .checkpointLock before ::ₘ rest → s.held = false →
      Step capacity maxTxnBlocks s
        { s with
          held := true, threads := .checkpointLoop before (s.checkpointsDone + 1) ::ₘ rest }
  | checkpointReturns {s : State} (before target : Nat) (rest : Multiset Thread) :
      s.threads = .checkpointLoop before target ::ₘ rest → target ≤ s.checkpointsDone →
      Step capacity maxTxnBlocks s
        { s with held := false, threads := .checkpointDone before ::ₘ rest }
  | checkpointLoop {s : State} (before target : Nat) (rest : Multiset Thread) :
      s.threads = .checkpointLoop before target ::ₘ rest → s.checkpointsDone < target →
      Step capacity maxTxnBlocks s
        { s with
          held := !s.committing
          checkpointRequested := s.checkpointRequested || !s.committing
          threads := (if s.committing then .checkpointWait before target
            else .close (.checkpoint before target)) ::ₘ rest }
  | checkpointWait {s : State} (before target : Nat) (rest : Multiset Thread) :
      s.threads = .checkpointWait before target ::ₘ rest → s.held = false →
      Step capacity maxTxnBlocks s
        { s with held := true, threads := .checkpointLoop before target ::ₘ rest }
  -- commit_if_older
  | olderReturns {s : State} (rest : Multiset Thread) : s.threads = .olderLock ::ₘ rest →
      s.held = false → Step capacity maxTxnBlocks s { s with threads := rest }
  | olderLock {s : State} (rest : Multiset Thread) : s.threads = .olderLock ::ₘ rest →
      s.held = false → s.committing = false → s.txnBlocks ≠ [] →
      Step capacity maxTxnBlocks s { s with held := true, threads := .close .older ::ₘ rest }
  -- run_commit
  | closeBusy {s : State} (caller : Caller) (rest : Multiset Thread) :
      s.threads = .close caller ::ₘ rest → s.running ≠ 0 →
      Step capacity maxTxnBlocks s
        { s with
          closed := true, commitRequested := true, held := false, threads := goes caller.wait rest }
  | close {s : State} (caller : Caller) (rest : Multiset Thread) :
      s.threads = .close caller ::ₘ rest → s.running = 0 →
      Step capacity maxTxnBlocks s { s with closed := true, threads := .take caller ::ₘ rest }
  | take {s : State} (caller : Caller) (rest : Multiset Thread) :
      s.threads = .take caller ::ₘ rest →
      Step capacity maxTxnBlocks s
        { s with
          committing := true, commitRequested := false, checkpointRequested := false,
            txnBlocks := []
          txns := s.txns ++ [⟨s.txnBlocks, none⟩]
          threads := .count ⟨caller, s.checkpointRequested, 0, s.txnBlocks⟩ ::ₘ rest }
  | count {s : State} (j : Job) (rest : Multiset Thread) : s.threads = .count j ::ₘ rest →
      Step capacity maxTxnBlocks s { s with txnCount := 0, threads := .cover j ::ₘ rest }
  | cover {s : State} (j : Job) (rest : Multiset Thread) : s.threads = .cover j ::ₘ rest →
      Step capacity maxTxnBlocks s
        { s with held := false, threads := .work { j with covered := s.ended } .begin ::ₘ rest }
  -- write_txn
  | beginRecord {s : State} (j : Job) (rest : Multiset Thread) :
      s.threads = .work j .begin ::ₘ rest →
      Step capacity maxTxnBlocks s
        { s with
          nextLsn := s.nextLsn + if j.blocks = [] then 0 else 1
          threads := .work j (if j.blocks = [] then .size else .block j.blocks) ::ₘ rest }
  | copyTxnFrame {s : State} (j : Job) (b : Nat) (todo : List Nat) (f : FrameId)
      (rest : Multiset Thread) : s.threads = .work j (.block (b :: todo)) ::ₘ rest →
      s.cache.map b = some f → (s.cache.frames f).inTxn = true →
      Step capacity maxTxnBlocks s
        { s with
          cache := { s.cache.setFrame f { s.cache.frames f with pins :=
            (s.cache.frames f).pins + 1 } with
            calls := .copy f ::ₘ s.cache.calls }
          threads := .work j (.copy f todo) ::ₘ rest }
  | copyThrows {s : State} (j : Job) (b : Nat) (todo : List Nat) (rest : Multiset Thread) :
      s.threads = .work j (.block (b :: todo)) ::ₘ rest →
      (∀ f, s.cache.map b = some f → (s.cache.frames f).inTxn = false) →
      Step capacity maxTxnBlocks s { s with threads := .threw ::ₘ rest }
  | copied {s : State} (j : Job) (f : FrameId) (todo : List Nat) (calls : Multiset Call)
      (rest : Multiset Thread) : s.threads = .work j (.copy f todo) ::ₘ rest →
      s.cache.calls = .copy f ::ₘ calls → (s.cache.frames f).locked = false →
      Step capacity maxTxnBlocks s
        { s with
          cache := { s.cache with calls := .unpin f ::ₘ calls }
          nextLsn := s.nextLsn + 1
          threads := .work j (.block todo) ::ₘ rest }
  | staged {s : State} (j : Job) (rest : Multiset Thread) :
      s.threads = .work j (.block []) ::ₘ rest →
      Step capacity maxTxnBlocks s { s with threads := .work j .sync ::ₘ rest }
  | sync {s : State} (j : Job) (rest : Multiset Thread) : s.threads = .work j .sync ::ₘ rest →
      Step capacity maxTxnBlocks s
        { s with
          cache := { s.cache with durable := s.nextLsn - 1 }, threads := .work j .append ::ₘ rest }
  | append {s : State} (j : Job) (rest : Multiset Thread) : s.threads = .work j .append ::ₘ rest →
      Step capacity maxTxnBlocks s
        { s with
          nextLsn := s.nextLsn + 1, threads := .work j (.syncCommit s.nextLsn) ::ₘ rest }
  | syncCommit {s : State} (j : Job) (lsn : Nat) (rest : Multiset Thread) :
      s.threads = .work j (.syncCommit lsn) ::ₘ rest →
      Step capacity maxTxnBlocks s
        { s with
          cache := { s.cache with durable := s.nextLsn - 1 }
          txns := recordCommit s.txns lsn
          threads := .work j (.frames lsn j.blocks) ::ₘ rest }
  | commitFrame {s : State} (j : Job) (lsn b : Nat) (todo : List Nat) (f : FrameId)
      (rest : Multiset Thread) : s.threads = .work j (.frames lsn (b :: todo)) ::ₘ rest →
      s.cache.map b = some f → (s.cache.frames f).inTxn = true →
      Step capacity maxTxnBlocks s
        { s with
          cache := s.cache.commitFrame b f lsn, threads := .work j (.frames lsn todo) ::ₘ rest }
  | commitThrows {s : State} (j : Job) (lsn b : Nat) (todo : List Nat) (rest : Multiset Thread) :
      s.threads = .work j (.frames lsn (b :: todo)) ::ₘ rest →
      (∀ f, s.cache.map b = some f → (s.cache.frames f).inTxn = false) →
      Step capacity maxTxnBlocks s { s with threads := .threw ::ₘ rest }
  | framesDone {s : State} (j : Job) (lsn : Nat) (rest : Multiset Thread) :
      s.threads = .work j (.frames lsn []) ::ₘ rest →
      Step capacity maxTxnBlocks s { s with threads := .work j .size ::ₘ rest }
  /-- The log may be over its limit or not. -/
  | size {s : State} (j : Job) (full : Bool) (rest : Multiset Thread) :
      s.threads = .work j .size ::ₘ rest →
      Step capacity maxTxnBlocks s
        { s with
          threads := .work j (if j.wanted || full then .writeBack else .lock false) ::ₘ rest }
  -- do_checkpoint
  | writeBack {s : State} (j : Job) (rest : Multiset Thread) :
      s.threads = .work j .writeBack ::ₘ rest →
      s.cache.pass = none →
      Step capacity maxTxnBlocks s
        { s with
          cache := s.cache.setPass ⟨sizeMax, [], [], 0, .pick 0⟩, threads :=
            .work j .pass ::ₘ rest }
  | passed {s : State} (j : Job) (rest : Multiset Thread) : s.threads = .work j .pass ::ₘ rest →
      s.cache.pass = none →
      Step capacity maxTxnBlocks s { s with threads := .work j .devSync ::ₘ rest }
  | devSync {s : State} (j : Job) (rest : Multiset Thread) : s.threads = .work j .devSync ::ₘ rest →
      Step capacity maxTxnBlocks s
        { s with
          synced := s.cache.disk, checkpointed := s.ended, threads := .work j .superblock ::ₘ rest }
  | superblock {s : State} (j : Job) (rest : Multiset Thread) :
      s.threads = .work j .superblock ::ₘ rest →
      Step capacity maxTxnBlocks s
        { s with synced := s.cache.disk, threads := .work j .reset ::ₘ rest }
  | reset {s : State} (j : Job) (rest : Multiset Thread) : s.threads = .work j .reset ::ₘ rest →
      Step capacity maxTxnBlocks s
        { s with
          cache := { s.cache with durable := s.nextLsn - 1 }
          threads := .work j (.lock true) ::ₘ rest }
  -- run_commit, with m_ again
  | lock {s : State} (j : Job) (checkpointed : Bool) (rest : Multiset Thread) :
      s.threads = .work j (.lock checkpointed) ::ₘ rest → s.held = false →
      Step capacity maxTxnBlocks s
        { s with
          held := true, committing := false, committedThrough := j.covered
          checkpointsDone := s.checkpointsDone + if checkpointed then 1 else 0
          threads := .reopen j.caller ::ₘ rest }
  | reopen {s : State} (caller : Caller) (rest : Multiset Thread) :
      s.threads = .reopen caller ::ₘ rest →
      Step capacity maxTxnBlocks s
        { s with
          closed := false, held := caller.resume.isSome, threads := goes caller.resume rest }

/-- A journal over an empty cache, as `Storage` makes it. -/
def State.empty (init : Nat → Block) (durable : Nat) : State where
  cache := .empty init durable
  closed := false
  running := 0
  txnCount := 0
  ended := 0
  held := false
  committing := false
  commitRequested := false
  checkpointRequested := false
  committedThrough := 0
  checkpointsDone := 0
  txnBlocks := []
  nextLsn := durable + 1
  threads := 0
  synced := fun b => ⟨init b, []⟩
  endedOps := []
  txns := []
  checkpointed := 0

inductive Run (capacity maxTxnBlocks : Nat) (init : Nat → Block) : State → Prop where
  | empty (durable : Nat) : Run capacity maxTxnBlocks init (.empty init durable)
  | step {s s' : State} : Run capacity maxTxnBlocks init s → Step capacity maxTxnBlocks s s' →
      Run capacity maxTxnBlocks init s'

end ConcurrentFs.GroupCommit
