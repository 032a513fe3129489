/-
  ConcurrentFs.Storage

  The storage engine (src/storage.cpp, with the parts of src/buffer_cache.cpp and
  src/wal.cpp it drives): operations change blocks in the cache, a commit logs
  the blocks of all operations since the last one, and a checkpoint brings
  disk.img up to date and empties the log.

  The engine is a step relation.  A call of an operation is one step; what a
  commit or a checkpoint does is cut at every point where a crash makes a
  difference, that is at every write and every sync.  In between, and at any
  time, blocks are read in, evicted, and written back by the flusher.  Which
  frames are evicted or picked, and when, is left open; which frames may be is
  not.  Left open is also whether the log has outgrown `checkpoint_bytes` at the
  end of a commit.  The threads and locks under this are the subject of `Cache`
  and `GroupCommit`; `EngineThreads` shows that every run of theirs is followed by
  a run of the engine.

  `History` is not part of the program.  It remembers what the image held at
  mount, what every transaction has done to the blocks since, and what callers
  have been promised.
-/
import ConcurrentFs.Cache
import ConcurrentFs.Recovery

namespace ConcurrentFs

open Lib

/-- A cached block (`BufferCache::Frame`). -/
structure Frame where
  data : Block
  dirty : Bool
  inTxn : Bool
  /-- The commit that last changed it. -/
  lsn : Nat
  /-- One more on every change. -/
  version : Nat

/-- A frame picked by a write-back pass, and its version then. -/
structure Pick where
  blockNo : Nat
  version : Nat

/-- Where a write-back pass has got to. -/
inductive PassAt where
  /-- It goes through the shards and picks. -/
  | picking
  /-- About to deal with the next pick. -/
  | loop
  /-- Has copied this frame; about to check again whether it may go. -/
  | copied (q : Pick) (v : Block)
  /-- It may not: its pin goes once the run before it is written. -/
  | leaving (q : Pick)
  /-- The run is written; these frames are still to be marked. -/
  | marking (todo : List Pick) (left : Option Pick)

/-- A write-back pass (`BufferCache::write_back`): frames picked and not yet dealt with, and the
    copies gathered for the next write. -/
structure Pass where
  picks : List Pick
  run : List (Pick × Block)
  at_ : PassAt

namespace Pass

/-- A pick that may not go and still has its pin. -/
def left (p : Pass) : List Pick :=
  match p.at_ with
  | .leaving q => [q]
  | .marking _ left => left.toList
  | _ => []

/-- The copies that are not written yet. -/
def copies (p : Pass) : List (Pick × Block) :=
  match p.at_ with
  | .copied q v => p.run ++ [(q, v)]
  | _ => p.run

/-- The frames whose copies are, and that are still to be marked. -/
def written (p : Pass) : List Pick :=
  match p.at_ with
  | .marking todo _ => todo
  | _ => []

/-- Every frame a pass holds pinned. -/
def held (p : Pass) : List Pick := p.written ++ p.copies.map Prod.fst ++ p.left ++ p.picks

/-- `joins_run`. -/
def joinsRun (p : Pass) (q : Pick) : Prop :=
  ∃ c, p.run.head? = some c ∧ p.run.length < BufferCache.runBlocks ∧
    q.blockNo = c.1.blockNo + p.run.length

end Pass

/-- Where the thread that opens, commits, checkpoints or closes has got to. -/
inductive Phase where
  /-- `Storage::Impl`: log replayed or emptied, `clean_unmount = 0` not yet written. -/
  | openSb
  | openSync
  /-- No commit is running. -/
  | idle
  /-- `write_txn`: BEGIN is staged, these blocks are still to be. -/
  | stage (txn : Nat) (todo : List Nat)
  /-- Everything is written to the log; the first sync has not completed. -/
  | firstSync (txn : Nat)
  | barrier (txn : Nat)
  /-- The COMMIT record is written; the second sync has not completed. -/
  | secondSync (txn : Nat)
  /-- The transaction is durable; these frames have still to leave it. -/
  | frames (lsn : Nat) (todo : List Nat)
  | logged
  /-- `do_checkpoint`, in its order. -/
  | writeBack
  | wroteBack
  | imgSynced
  | sbSync
  | sbSynced
  | truncated
  | reset
  /-- `JournalImpl::close` after its checkpoint. -/
  | closing
  | closeSync
  | closed
  deriving DecidableEq

/-- A `Journal::write`: `fn` is run on the bytes of a block, or on zeros. -/
structure Change where
  block : Nat
  fresh : Bool
  fn : Block → Block

/-- What it makes of the bytes of its block. -/
def Change.run (c : Change) (v : Block) : Block := c.fn (if c.fresh then Bytes.zero 4096 else v)

/-- Contents after a list of changes, first to last. -/
def applyChanges (d : Nat → Block) (cs : List Change) : Nat → Block :=
  cs.foldl (fun d c => Function.update d c.block (c.run (d c.block))) d

structure Txn where
  /-- What its operations did, in order. -/
  changes : List Change
  /-- `txn_blocks_` as the commit took it, each block with its contents then. -/
  images : List (Nat × Block)
  /-- The lsn of its BEGIN record. -/
  lsn : Nat

def Txn.blocks (t : Txn) : List Nat := t.images.map Prod.fst

structure History where
  /-- What every block held at mount. -/
  base : Nat → Block
  /-- The transactions commits have taken, in order. -/
  txns : List Txn
  /-- How many of them have their COMMIT record synced. -/
  durable : Nat
  /-- What the operations of the running transaction have done so far. -/
  cur : List Change
  /-- How many transactions had been dropped from the log at the last reset. -/
  dropped : Nat
  /-- The lsn of the first record after it. -/
  firstLsn : Nat
  /-- For each operation that has ended, how many transactions it takes to hold its changes. -/
  need : List Nat
  /-- How many operations a returned `commit`, `checkpoint` or `close` vouches for. -/
  promised : Nat
  /-- For each `checkpoint` call under way, the operations ended before it and the number of
      checkpoints it waits for. -/
  calls : List (Nat × Nat)

namespace History

variable (h : History)

/-- What the changes of the first `k` transactions make of what every block held at mount. -/
def stateAt (k : Nat) : Nat → Block := applyChanges h.base ((h.txns.take k).flatMap Txn.changes)

/-- The blocks that a durable transaction still in the log holds. -/
def Logged (b : Nat) : Prop :=
  ∃ i t, h.dropped ≤ i ∧ i < h.durable ∧ h.txns[i]? = some t ∧ b ∈ t.blocks

/-- What every block holds for those who read through the journal. -/
def visible : Nat → Block := applyChanges (h.stateAt h.txns.length) h.cur

end History

structure Storage where
  img : BlockFile 4096
  wal : Wal
  cache : Nat → Option Frame
  pass : Option Pass
  /-- The journal's own copy of the superblock. -/
  sb : Superblock
  phase : Phase
  /-- Operations between `begin_op` and `end_op`. -/
  running : Nat
  ended : Nat
  committedThrough : Nat
  checkpointsDone : Nat
  txnBlocks : List Nat
  /-- `covered`, `checkpoint_wanted` of the commit under way, and whether it is `close`'s. -/
  covered : Nat
  checkpointWanted : Bool
  closing : Bool
  hist : History

namespace Storage

variable (s : Storage)

/-- A dirty frame that may go back to the disk: no-steal and write-ahead. -/
def MayWrite (f : Frame) : Prop := f.inTxn = false ∧ f.lsn ≤ s.wal.durableLsn

/-- What a pass picks. -/
def Eligible (p : Pick) : Prop :=
  ∃ f, s.cache p.blockNo = some f ∧ f.dirty = true ∧ s.MayWrite f ∧ p.version = f.version

def Pinned (b : Nat) : Prop := ∃ p, s.pass = some p ∧ b ∈ p.held.map Pick.blockNo

/-- The frame of a block, loaded from the disk if it is not cached; `fresh` starts it from zeros
    instead. -/
def acquire (b : Nat) (fresh : Bool) : Frame :=
  (s.cache b).getD
    { data := if fresh then Bytes.zero 4096 else s.img.contents b
      dirty := false, inTxn := false, lsn := 0, version := 0 }

/-- The bytes `fn` is run on. -/
def before (b : Nat) (fresh : Bool) : Block :=
  if fresh then Bytes.zero 4096 else (s.acquire b false).data

/-- `Journal::write` of block `b`: the frame joins the running transaction and is changed in
    place. -/
def write (b : Nat) (fresh : Bool) (fn : Block → Block) : Storage :=
  let f := s.acquire b fresh
  let data := fn (s.before b fresh)
  { s with
    cache := Function.update s.cache b
      (some { f with data := data, inTxn := true, version := f.version + 1 })
    txnBlocks := if f.inTxn then s.txnBlocks else s.txnBlocks ++ [b]
    hist := { s.hist with cur := s.hist.cur ++ [⟨b, fresh, fn⟩] } }

/-- `end_op`. -/
def endOp : Storage :=
  { s with
    running := s.running - 1
    ended := s.ended + 1
    hist := { s.hist with
      need := s.hist.need ++ [s.hist.txns.length + if s.hist.cur = [] then 0 else 1] } }

/-- `run_commit` takes the transaction; with nothing to log it goes on behind `write_txn`. -/
def commitBegin (blocks : List Nat) (want closing : Bool) : Storage :=
  let taken := { s with
    txnBlocks := [], covered := s.ended, checkpointWanted := want, closing := closing }
  if blocks = [] then { taken with phase := .logged } else
  { taken with
    phase := .stage s.wal.nextLsn blocks
    wal := s.wal.stageRecord .begin s.wal.nextLsn
    hist := { s.hist with
      txns := s.hist.txns ++
        [⟨s.hist.cur, blocks.map fun b => (b, s.hist.visible b), s.wal.nextLsn⟩]
      cur := [] } }

/-- `commit_frame`. -/
def commitFrame (b lsn : Nat) (f : Frame) : Nat → Option Frame :=
  Function.update s.cache b
    (some { f with inTxn := false, lsn := lsn, version := f.version + 1, dirty := true })

/-- A frame of a run that was written is clean, unless it has changed since it was picked. -/
def markFrame (cache : Nat → Option Frame) (p : Pick) : Nat → Option Frame :=
  Function.update cache p.blockNo ((cache p.blockNo).map fun f =>
    if f.version = p.version ∧ f.dirty then { f with dirty := false } else f)

/-- `sb_.last_checkpoint_lsn = last`. -/
def newCheckpoint : Superblock := checkpointed s.sb (s.wal.nextLsn - 1)

end Storage

/-- One step of the engine. -/
inductive Step : Storage → Storage → Prop where
  -- opening
  | openWrite {s : Storage} : s.phase = .openSb →
      Step s
        { s with img := s.img.write 0 (superblockBlock s.sb), phase := .openSync }
  | openDone {s : Storage} : s.phase = .openSync →
      Step s { s with img := s.img.sync, phase := .idle }
  -- operations
  | beginOp {s : Storage} : s.phase = .idle →
      Step s { s with running := s.running + 1 }
  | write {s : Storage} (b : Nat) (fresh : Bool) (fn : Block → Block) :
      s.phase = .idle → 0 < s.running → 1 ≤ b → b < s.sb.totalBlocks.toNat →
      Step s (s.write b fresh fn)
  | endOp {s : Storage} : s.phase = .idle → 0 < s.running → Step s s.endOp
  -- the cache: loading and eviction
  | load {s : Storage} (b : Nat) : 1 ≤ b → b < s.sb.totalBlocks.toNat → s.cache b = none →
      Step s
        { s with cache := Function.update s.cache b (some (s.acquire b false)) }
  | evictClean {s : Storage} (b : Nat) (f : Frame) : s.cache b = some f → ¬ s.Pinned b →
      f.inTxn = false → f.dirty = false →
      Step s { s with cache := Function.update s.cache b none }
  | evictDirty {s : Storage} (b : Nat) (f : Frame) : s.cache b = some f → ¬ s.Pinned b →
      f.dirty = true → s.MayWrite f →
      Step s
        { s with img := s.img.write b f.data, cache := Function.update s.cache b none }
  -- write-back passes, one at a time
  | passStart {s : Storage} : s.pass = none → Step s { s with pass := some ⟨[], [], .picking⟩ }
  | passPick {s : Storage} (q : Pick) (picks : List Pick) : s.pass = some ⟨picks, [], .picking⟩ →
      s.Eligible q → q.blockNo ∉ picks.map Pick.blockNo →
      Step s { s with pass := some ⟨picks ++ [q], [], .picking⟩ }
  /-- A checkpoint's pass has no limit: it has picked all that may go. -/
  | passSort {s : Storage} (picks : List Pick) : s.pass = some ⟨picks, [], .picking⟩ →
      (s.phase = .writeBack → ∀ q, s.Eligible q → q ∈ picks) →
      Step s
        { s with
          pass := some ⟨picks.mergeSort fun a b => a.blockNo ≤ b.blockNo, [], .loop⟩ }
  | passCopy {s : Storage} (q : Pick) (picks : List Pick) (run : List (Pick × Block)) (f : Frame) :
      s.pass = some ⟨q :: picks, run, .loop⟩ → run = [] ∨ Pass.joinsRun ⟨q :: picks, run, .loop⟩ q →
      s.cache q.blockNo = some f →
      Step s { s with pass := some ⟨picks, run, .copied q f.data⟩ }
  | passJoin {s : Storage} (q : Pick) (v : Block) (picks : List Pick) (run : List (Pick × Block))
      (f : Frame) : s.pass = some ⟨picks, run, .copied q v⟩ → s.cache q.blockNo = some f →
      s.MayWrite f → Step s { s with pass := some ⟨picks, run ++ [(q, v)], .loop⟩ }
  /-- It is in the running transaction, or an operation is about to change it. -/
  | passLeave {s : Storage} (q : Pick) (v : Block) (picks : List Pick) (run : List (Pick × Block))
      (f : Frame) : s.pass = some ⟨picks, run, .copied q v⟩ → s.cache q.blockNo = some f →
      ¬ s.MayWrite f ∨ 0 < s.running → Step s { s with pass := some ⟨picks, run, .leaving q⟩ }
  /-- The run cannot go on: it is written. -/
  | passFlush {s : Storage} (p : Pass) : s.pass = some p →
      (p.at_ = .loop ∧ ∀ q ∈ p.picks.head?, ¬ p.joinsRun q) ∨ (∃ q, p.at_ = .leaving q) →
      Step s
        { s with
          img := s.img.writeAll (p.run.map fun c => (c.1.blockNo, c.2))
          pass := some ⟨p.picks, [], .marking (p.run.map Prod.fst) p.left.head?⟩ }
  | passMark {s : Storage} (q : Pick) (todo picks : List Pick) (left : Option Pick) :
      s.pass = some ⟨picks, [], .marking (q :: todo) left⟩ →
      Step s
        { s with
          cache := Storage.markFrame s.cache q
          pass := some ⟨picks, [], .marking todo left⟩ }
  | passMarked {s : Storage} (picks : List Pick) (left : Option Pick) :
      s.pass = some ⟨picks, [], .marking [] left⟩ →
      Step s { s with pass := some ⟨picks, [], .loop⟩ }
  | passEnd {s : Storage} : s.pass = some ⟨[], [], .loop⟩ → s.phase ≠ .writeBack →
      Step s { s with pass := none }
  -- commit
  /-- The blocks come in the order in which the operations recorded them. -/
  | commitBegin {s : Storage} (blocks : List Nat) (want closing : Bool) : s.phase = .idle →
      s.running = 0 → blocks.Perm s.txnBlocks → (closing = true → want = true) →
      Step s (s.commitBegin blocks want closing)
  | stageBlock {s : Storage} (txn b : Nat) (todo : List Nat) (f : Frame) :
      s.phase = .stage txn (b :: todo) → s.cache b = some f → f.inTxn = true →
      Step s
        { s with phase := .stage txn todo, wal := s.wal.stageRecord (.block b f.data) txn }
  | flushTxn {s : Storage} (txn : Nat) : s.phase = .stage txn [] →
      Step s { s with phase := .firstSync txn, wal := s.wal.flush }
  | firstSyncDone {s : Storage} (txn : Nat) : s.phase = .firstSync txn →
      Step s { s with phase := .barrier txn, wal := s.wal.syncDone }
  | appendCommit {s : Storage} (txn : Nat) : s.phase = .barrier txn →
      Step s { s with phase := .secondSync txn, wal := s.wal.append .commit txn }
  | secondSyncDone {s : Storage} (txn : Nat) (t : Txn) : s.phase = .secondSync txn →
      s.hist.txns.getLast? = some t →
      Step s
        { s with
          phase := .frames (s.wal.nextLsn - 1) t.blocks
          wal := s.wal.syncDone
          hist := { s.hist with durable := s.hist.txns.length } }
  | commitFrame {s : Storage} (lsn b : Nat) (todo : List Nat) (f : Frame) :
      s.phase = .frames lsn (b :: todo) → s.cache b = some f → f.inTxn = true →
      Step s { s with phase := .frames lsn todo, cache := s.commitFrame b lsn f }
  | framesDone {s : Storage} (lsn : Nat) : s.phase = .frames lsn [] →
      Step s { s with phase := .logged }
  | finish {s : Storage} : s.phase = .logged → s.checkpointWanted = false →
      Step s { s with phase := .idle, committedThrough := s.covered }
  -- checkpoint
  /-- It was asked for, or the log is past `checkpoint_bytes`. -/
  | checkpointBegin {s : Storage} : s.phase = .logged → s.pass = none →
      Step s { s with phase := .writeBack, pass := some ⟨[], [], .picking⟩ }
  | checkpointWrote {s : Storage} : s.phase = .writeBack → s.pass = some ⟨[], [], .loop⟩ →
      Step s { s with phase := .wroteBack, pass := none }
  | checkpointSync {s : Storage} : s.phase = .wroteBack →
      Step s { s with phase := .imgSynced, img := s.img.sync }
  | checkpointSb {s : Storage} : s.phase = .imgSynced →
      Step s
        { s with
          phase := .sbSync, sb := s.newCheckpoint
          img := s.img.write 0 (superblockBlock s.newCheckpoint) }
  | checkpointSbSync {s : Storage} : s.phase = .sbSync →
      Step s { s with phase := .sbSynced, img := s.img.sync }
  | checkpointTruncate {s : Storage} : s.phase = .sbSynced →
      Step s { s with phase := .truncated, wal := s.wal.resetIssued }
  | checkpointReset {s : Storage} : s.phase = .truncated →
      Step s
        { s with
          phase := .reset
          wal := s.wal.resetDone (s.wal.nextLsn - 1 + 1)
          hist := { s.hist with dropped := s.hist.txns.length, firstLsn := s.wal.nextLsn } }
  | checkpointDone {s : Storage} : s.phase = .reset →
      Step s
        { s with
          phase := if s.closing then .closing else .idle
          committedThrough := s.covered
          checkpointsDone := s.checkpointsDone + 1 }
  -- close, after its checkpoint
  | closeWrite {s : Storage} : s.phase = .closing →
      Step s
        { s with
          phase := .closeSync
          sb := { s.sb with cleanUnmount := 1 }
          img := s.img.write 0 (superblockBlock { s.sb with cleanUnmount := 1 }) }
  | closeDone {s : Storage} : s.phase = .closeSync →
      Step s
        { s with
          phase := .closed
          img := s.img.sync
          hist := { s.hist with promised := s.ended } }
  -- callers
  | commitReturn {s : Storage} (target : Nat) : target ≤ s.committedThrough →
      Step s
        { s with hist := { s.hist with promised := max s.hist.promised target } }
  | checkpointCall {s : Storage} :
      Step s
        { s with hist := { s.hist with
            calls := s.hist.calls ++ [(s.ended, s.checkpointsDone + 1)] } }
  | checkpointReturn {s : Storage} (e t : Nat) : (e, t) ∈ s.hist.calls → t ≤ s.checkpointsDone →
      Step s
        { s with hist := { s.hist with promised := max s.hist.promised e } }

/-- A storage just being opened on an image whose log has been replayed or emptied. -/
def Storage.opened (d : Nat → Block) (nextLsn : Nat) : Storage where
  img := .ofContents d
  wal := ⟨⟨[], []⟩, 0, nextLsn, nextLsn - 1, []⟩
  cache := fun _ => none
  pass := none
  sb := { superblockIn (d 0) with cleanUnmount := 0 }
  phase := .openSb
  running := 0
  ended := 0
  committedThrough := 0
  checkpointsDone := 0
  txnBlocks := []
  covered := 0
  checkpointWanted := false
  closing := false
  hist := ⟨d, [], 0, [], 0, nextLsn, [], 0, []⟩

/-- The states of a run of the engine on an image with contents `d`, opened with the log empty
    and the next record's lsn one past the superblock's checkpoint. -/
inductive Storage.Run (d : Nat → Block) : Storage → Prop where
  | opened : Run d (.opened d ((superblockIn (d 0)).lastCheckpointLsn.toNat + 1))
  | step {s s' : Storage} : Run d s → Step s s' → Run d s'

end ConcurrentFs
