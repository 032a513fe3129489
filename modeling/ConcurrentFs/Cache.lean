/-
  ConcurrentFs.Cache

  The block cache (src/buffer_cache.cpp) with its threads: 16 shards, each with a
  mutex, a map and an LRU list, and frames with a lock of their own.

  A thread is in at most one call, so the threads are the calls under way, each at
  a point between two of its locked sections.  A step is one section under a
  shard's mutex or under a frame's lock, or one device operation; the steps of
  different calls come in any order.  The one lock held from section to section
  is the frame lock of a call that loads a block: `locked` says it is held.

  `mods` and `trace` are not part of the program.  The trace records, in order,
  what reads and modifies saw, the commits, and every block handed to the device;
  `mods` names the transactional modifies whose effect some bytes contain, by
  their places in the trace.
-/
import ConcurrentFs.Layout
import ConcurrentFs.Lib.Durable
import Mathlib.Data.Multiset.Count
import Mathlib.Data.List.Sort

namespace ConcurrentFs.BufferCache

open Lib

/-- `BufferCache::SHARDS`. -/
def shards : Nat := 16
/-- `BufferCache::MIN_FRAMES`. -/
def minFrames : Nat := 256
/-- `BufferCache::RUN_BLOCKS`. -/
def runBlocks : Nat := 256

abbrev FrameId := Nat

/-- The bytes of a block, and the transactional modifies in them. -/
structure Image where
  bytes : Block
  mods : List Nat

def Image.zero : Image := ⟨Bytes.zero 4096, []⟩

structure Frame where
  blockNo : Nat
  /-- In the shard's map, holding `blockNo`. -/
  mapped : Bool
  dirty : Bool
  inTxn : Bool
  lsn : Nat
  version : Nat
  pins : Nat
  /-- The frame's lock is held by the call that loads it. -/
  locked : Bool
  loadFailed : Bool
  data : Image

/-- A frame as `new_frame` makes it. -/
def Frame.new : Frame := ⟨0, false, false, false, 0, 0, 0, false, false, .zero⟩

/-- What a call wants with its block. -/
inductive Op where
  | read
  | modify (fresh inTxn : Bool) (fn : Block → Block)

namespace Op

/-- `zero_fill`: the disk need not be read. -/
def fresh : Op → Bool
  | read => false
  | modify fresh _ _ => fresh

/-- `join_txn`. -/
def inTxn : Op → Bool
  | read => false
  | modify _ inTxn _ => inTxn

end Op

/-- A call under way. -/
inductive Call where
  /-- Found its block mapped and has pinned it; about to take the frame's lock. -/
  | hit (op : Op) (b : Nat) (f : FrameId)
  /-- Has mapped and pinned a frame and holds its lock; about to load it. -/
  | load (op : Op) (b : Nat) (f : FrameId)
  /-- Has loaded it and still holds its lock. -/
  | loaded (op : Op) (b : Nat) (f : FrameId)
  /-- Could not load it and has let its lock go; about to unmap it. -/
  | failed (op : Op) (b : Nat) (f : FrameId)
  /-- Has changed the bytes; about to do `finish_modify`. -/
  | finish (inTxn : Bool) (f : FrameId)
  /-- About to drop its pin and return or throw. -/
  | unpin (f : FrameId)
  /-- `copy_txn_frame`, about to copy. -/
  | copy (f : FrameId)

namespace Call

def frame : Call → FrameId
  | hit _ _ f | load _ _ f | loaded _ _ f | failed _ _ f | finish _ f | unpin f | copy f => f

/-- It mapped the frame and has not finished loading or unmapping it. -/
def owns : Call → Bool
  | load .. | loaded .. | failed .. => true
  | _ => false

/-- A transactional modify that has not got to its end. -/
def inTxn : Call → Bool
  | hit op _ _ | load op _ _ | loaded op _ _ | failed op _ _ => op.inTxn
  | finish inTxn _ => inTxn
  | _ => false

end Call

/-- A frame picked by `write_back`. -/
structure Pick where
  f : FrameId
  shard : Nat
  blockNo : Nat
  version : Nat

/-- What a pass does behind `flush_run`. -/
inductive Next where
  | copy (p : Pick)
  | drop (p : Pick)
  | done

def Next.picks : Next → List Pick
  | .copy p | .drop p => [p]
  | .done => []

/-- Where a `write_back` has got to. -/
inductive At where
  /-- About to pick from this shard. -/
  | pick (shard : Nat)
  /-- At the head of the loop over the picks. -/
  | loop
  | copy (p : Pick)
  /-- Has copied the bytes; about to check again whether they may go. -/
  | check (p : Pick) (img : Image)
  /-- In `flush_run`, about to write the run. -/
  | write (next : Next)
  /-- The run is written; these frames are still to be marked. -/
  | mark (todo : List (Pick × Image)) (next : Next)
  | drop (p : Pick)
  /-- A write failed: these pins are still to be given back. -/
  | unwind (todo : List Pick)

/-- A `write_back` under way.  There is one at a time. -/
structure Pass where
  max : Nat
  /-- Picked and not yet dealt with. -/
  picks : List Pick
  /-- Copied into `run_buf_`. -/
  run : List (Pick × Image)
  written : Nat
  at_ : At

namespace Pass

/-- The picks whose pins the pass still has. -/
def held (p : Pass) : List Pick :=
  match p.at_ with
  | .pick _ | .loop => p.run.map Prod.fst ++ p.picks
  | .copy q | .check q _ | .drop q => p.run.map Prod.fst ++ q :: p.picks
  | .write next => p.run.map Prod.fst ++ next.picks ++ p.picks
  | .mark todo next => todo.map Prod.fst ++ next.picks ++ p.picks
  | .unwind todo => todo

end Pass

inductive Event where
  | read (b : Nat) (saw : Block)
  | modify (b : Nat) (fresh inTxn : Bool) (saw after : Block)
  /-- `commit_frame` of block `b`. -/
  | commit (b lsn : Nat)
  /-- The device is handed bytes for block `b`; `durable` is `durable_lsn()` then. -/
  | device (b : Nat) (img : Image) (durable : Nat)

structure State where
  frames : FrameId → Frame
  /-- Frames made so far; they are numbered from 0. -/
  count : Nat
  map : Nat → Option FrameId
  /-- The frames of every shard. -/
  own : Nat → List FrameId
  /-- Its LRU list, most recently used first. -/
  lru : Nat → List FrameId
  dirtyCount : Nat
  calls : Multiset Call
  pass : Option Pass
  disk : Nat → Image
  /-- `durable_lsn()`. -/
  durable : Nat
  trace : List Event

namespace State

variable (s : State)

/-! ## Frames -/

def setFrame (f : FrameId) (g : Frame) : State := { s with frames := Function.update s.frames f g }

/-- `shard_for`. -/
def shardFor (b : Nat) : Nat := b % shards

/-- How many frames a shard may have. -/
def share (capacity i : Nat) : Nat :=
  let capacity := if capacity < minFrames then minFrames else capacity
  capacity / shards + if i < capacity % shards then 1 else 0

/-- `lru_unlink` and `lru_push_front`. -/
def toFront (i : Nat) (f : FrameId) : State :=
  { s with lru := Function.update s.lru i (f :: (s.lru i).erase f) }

/-- `lru_unlink` and `lru_push_back`. -/
def toBack (i : Nat) (f : FrameId) : State :=
  { s with lru := Function.update s.lru i ((s.lru i).erase f ++ [f]) }

/-- `new_frame`. -/
def newFrame (i : Nat) : State × FrameId :=
  ({ s with
    frames := Function.update s.frames s.count .new
    count := s.count + 1
    own := Function.update s.own i (s.own i ++ [s.count])
    lru := Function.update s.lru i (s.count :: s.lru i) }, s.count)

/-- The loop of `take_frame`, from the tail of the list on: the first frame that can go as it
    is, and the first on the way there that could go if it were written. -/
def victims : List FrameId → Option FrameId → Option FrameId × Option FrameId
  | [], dirty => (none, dirty)
  | f :: fs, dirty =>
    let g := s.frames f
    if g.pins > 0 ∨ g.inTxn then victims fs dirty
    else if ¬ g.mapped ∨ ¬ g.dirty then (some f, dirty)
    else victims fs (if dirty.isNone ∧ g.lsn ≤ s.durable then some f else dirty)

/-- The write of a dirty victim. -/
def writeVictim (f : FrameId) : State :=
  let g := s.frames f
  { s.setFrame f { g with dirty := false } with
    disk := Function.update s.disk g.blockNo g.data
    dirtyCount := s.dirtyCount - 1
    trace := s.trace ++ [.device g.blockNo g.data s.durable] }

/-- The write of a dirty victim fails part way. -/
def tearVictim (f : FrameId) (junk : Block) : State :=
  let g := s.frames f
  { s with
    disk := Function.update s.disk g.blockNo ⟨junk, (s.disk g.blockNo).mods ++ g.data.mods⟩
    trace := s.trace ++ [.device g.blockNo g.data s.durable] }

/-- A victim leaves the map. -/
def unmap (f : FrameId) : State :=
  let g := s.frames f
  if g.mapped then
    { s.setFrame f { g with mapped := false } with map := Function.update s.map g.blockNo none }
  else s

/-- `take_frame`, when its write succeeds. -/
def takeFrame (capacity i : Nat) : State × FrameId :=
  if (s.own i).length < share capacity i then s.newFrame i else
  match s.victims (s.lru i).reverse none with
  | (some f, _) => (s.unmap f, f)
  | (none, some f) => ((s.writeVictim f).unmap f, f)
  | (none, none) => s.newFrame i

/-- The shard section of `acquire` on a block that is mapped. -/
def acquireHit (op : Op) (b : Nat) (f : FrameId) : State :=
  let g := s.frames f
  { (s.setFrame f { g with pins := g.pins + 1, inTxn := g.inTxn || op.inTxn }).toFront
      (shardFor b) f with
    calls := .hit op b f ::ₘ s.calls }

/-- The shard section of `acquire` on a block that is not, once it has a frame. -/
def acquireMiss (op : Op) (b : Nat) (f : FrameId) : State :=
  let g := s.frames f
  { (s.setFrame f
      { g with
        blockNo := b, mapped := true, dirty := false, inTxn := op.inTxn, lsn := 0, version := 0,
        pins := 1, locked := true }).toFront (shardFor b) f with
    map := Function.update s.map b (some f)
    calls := .load op b f ::ₘ s.calls }

/-- `acquire` reads the block, or zeroes it. -/
def load (op : Op) (b : Nat) (f : FrameId) (rest : Multiset Call) : State :=
  { s.setFrame f
      { s.frames f with loadFailed := false, data := if op.fresh then .zero else s.disk b } with
    calls := .loaded op b f ::ₘ rest }

/-- A frame's bytes change under its lock: `fn` is run on what the frame holds, or on zeros. -/
def change (b : Nat) (f : FrameId) (fresh inTxn : Bool) (fn : Block → Block)
    (saw : Image) : State :=
  let g := s.frames f
  let mods := saw.mods ++ if inTxn then [s.trace.length] else []
  { s.setFrame f { g with data := ⟨fn saw.bytes, mods⟩, locked := false } with
    trace := s.trace ++ [.modify b fresh inTxn saw.bytes (fn saw.bytes)] }

/-- `unpin`. -/
def unpin (f : FrameId) : State := s.setFrame f { s.frames f with pins := (s.frames f).pins - 1 }

/-- `finish_modify`. -/
def finishModify (f : FrameId) (inTxn : Bool) : State :=
  let g := s.frames f
  let dirties := !inTxn && !g.dirty
  { s.setFrame f
      { g with version := g.version + 1, dirty := g.dirty || dirties, pins := g.pins - 1 } with
    dirtyCount := s.dirtyCount + if dirties then 1 else 0 }

/-- `commit_frame`, of a frame in the transaction. -/
def commitFrame (b : Nat) (f : FrameId) (lsn : Nat) : State :=
  let g := s.frames f
  { s.setFrame f { g with inTxn := false, lsn := lsn, version := g.version + 1, dirty := true } with
    dirtyCount := s.dirtyCount + if g.dirty then 0 else 1
    trace := s.trace ++ [.commit b lsn] }

/-! ## Write-back -/

/-- A frame that may go back to the disk: no-steal and write-ahead. -/
def mayWrite (f : FrameId) : Bool :=
  !(s.frames f).inTxn && decide ((s.frames f).lsn ≤ s.durable)

/-- What `write_back` picks from shard `i`, `have_` picks into it. -/
def pickFrom (i max have_ : Nat) : List Pick :=
  (((s.lru i).reverse.filter fun f =>
    (s.frames f).mapped && (s.frames f).dirty && s.mayWrite f).take (max - have_)).map fun f =>
      ⟨f, i, (s.frames f).blockNo, (s.frames f).version⟩

/-- One more pin for each of these frames. -/
def pinAll (fs : List FrameId) : State :=
  { s with frames := fun f => { s.frames f with pins := (s.frames f).pins + fs.count f } }

/-- `flush_run`, for one frame, once the run is written. -/
def markFrame (p : Pick) : State :=
  let g := s.frames p.f
  let cleans := decide (g.version = p.version) && g.dirty
  { s.setFrame p.f { g with dirty := g.dirty && !cleans, pins := g.pins - 1 } with
    dirtyCount := s.dirtyCount - if cleans then 1 else 0 }

/-- The run is handed to the device. -/
def writeRun (run : List (Pick × Image)) : State :=
  { s with
    disk := applyWrites s.disk (run.map fun c => (c.1.blockNo, c.2))
    trace := s.trace ++ run.map fun c => .device c.1.blockNo c.2 s.durable }

/-- `joins_run`. -/
def joinsRun (run : List (Pick × Image)) (p : Pick) : Bool :=
  match run with
  | [] => false
  | c :: _ => run.length < runBlocks && p.blockNo == c.1.blockNo + run.length

def setPass (p : Pass) : State := { s with pass := some p }

/-- Where a pass goes on behind `flush_run`. -/
def goOn (p : Pass) : Next → State
  | .copy q => s.setPass { p with at_ := .copy q }
  | .drop q => s.setPass { p with at_ := .drop q }
  | .done => { s with pass := none }

end State

open State

/-! ## Steps -/

/-- One section of a call.  `faults` says whether the device may fail.  A commit comes, as the
    journal makes sure, while no transactional modify is under way. -/
inductive Step (capacity : Nat) (faults : Bool) : State → State → Prop where
  -- acquire
  | hit {s : State} (op : Op) (b : Nat) (f : FrameId) : s.map b = some f →
      Step capacity faults s (s.acquireHit op b f)
  | miss {s : State} (op : Op) (b : Nat) : s.map b = none →
      Step capacity faults s
        ((s.takeFrame capacity (shardFor b)).1.acquireMiss op b
          (s.takeFrame capacity (shardFor b)).2)
  /-- `take_frame` cannot write its victim, and throws; the device may then hold some of what it
      held there and some of the victim. -/
  | missFails {s : State} (b : Nat) (f : FrameId) (junk : Block) : faults = true → s.map b = none →
      ¬ (s.own (shardFor b)).length < share capacity (shardFor b) →
      s.victims (s.lru (shardFor b)).reverse none = (none, some f) →
      Step capacity faults s (s.tearVictim f junk)
  -- sections under the frame's lock
  | readHit {s : State} (b : Nat) (f : FrameId) (rest : Multiset Call) :
      s.calls = .hit .read b f ::ₘ rest → (s.frames f).locked = false →
      (s.frames f).loadFailed = false →
      Step capacity faults s
        { s with
          calls := .unpin f ::ₘ rest
          trace := s.trace ++ [.read b (s.frames f).data.bytes] }
  | modifyHit {s : State} (fresh inTxn : Bool) (fn : Block → Block) (b : Nat) (f : FrameId)
      (rest : Multiset Call) :
      s.calls = .hit (.modify fresh inTxn fn) b f ::ₘ rest → (s.frames f).locked = false →
      (s.frames f).loadFailed = false →
      Step capacity faults s
        { s.change b f fresh inTxn fn (if fresh then .zero else (s.frames f).data) with
          calls := .finish inTxn f ::ₘ rest }
  /-- It finds the load failed, and throws. -/
  | throwHit {s : State} (op : Op) (b : Nat) (f : FrameId) (rest : Multiset Call) :
      s.calls = .hit op b f ::ₘ rest → (s.frames f).locked = false →
      (s.frames f).loadFailed = true →
      Step capacity faults s { s with calls := .unpin f ::ₘ rest }
  -- the call that loads
  | load {s : State} (op : Op) (b : Nat) (f : FrameId) (rest : Multiset Call) :
      s.calls = .load op b f ::ₘ rest → Step capacity faults s (s.load op b f rest)
  | loadFails {s : State} (op : Op) (b : Nat) (f : FrameId) (junk : Block) (rest : Multiset Call) :
      faults = true → s.calls = .load op b f ::ₘ rest → op.fresh = false →
      Step capacity faults s
        { s.setFrame f
            { s.frames f with loadFailed := true, locked := false, data := ⟨junk, []⟩ } with
          calls := .failed op b f ::ₘ rest }
  | unmapFailed {s : State} (op : Op) (b : Nat) (f : FrameId) (rest : Multiset Call) :
      s.calls = .failed op b f ::ₘ rest →
      Step capacity faults s
        { (s.setFrame f
            { s.frames f with
              mapped := false, inTxn := false, pins := (s.frames f).pins - 1 }).toBack
            (shardFor b) f with
          map := Function.update s.map b none
          calls := rest }
  | readLoaded {s : State} (b : Nat) (f : FrameId) (rest : Multiset Call) :
      s.calls = .loaded .read b f ::ₘ rest →
      Step capacity faults s
        { s.setFrame f { s.frames f with locked := false } with
          calls := .unpin f ::ₘ rest
          trace := s.trace ++ [.read b (s.frames f).data.bytes] }
  | modifyLoaded {s : State} (fresh inTxn : Bool) (fn : Block → Block) (b : Nat) (f : FrameId)
      (rest : Multiset Call) :
      s.calls = .loaded (.modify fresh inTxn fn) b f ::ₘ rest →
      Step capacity faults s
        { s.change b f fresh inTxn fn (s.frames f).data with calls := .finish inTxn f ::ₘ rest }
  -- ends of calls
  | finishModify {s : State} (inTxn : Bool) (f : FrameId) (rest : Multiset Call) :
      s.calls = .finish inTxn f ::ₘ rest →
      Step capacity faults s { s.finishModify f inTxn with calls := rest }
  | unpin {s : State} (f : FrameId) (rest : Multiset Call) : s.calls = .unpin f ::ₘ rest →
      Step capacity faults s { s.unpin f with calls := rest }
  -- what a commit calls
  | copyTxnFrame {s : State} (b : Nat) (f : FrameId) : s.map b = some f →
      (s.frames f).inTxn = true →
      Step capacity faults s
        { s.setFrame f { s.frames f with pins := (s.frames f).pins + 1 } with
          calls := .copy f ::ₘ s.calls }
  | copied {s : State} (f : FrameId) (rest : Multiset Call) : s.calls = .copy f ::ₘ rest →
      (s.frames f).locked = false → Step capacity faults s { s with calls := .unpin f ::ₘ rest }
  | commitFrame {s : State} (b : Nat) (f : FrameId) (lsn : Nat) : s.map b = some f →
      (s.frames f).inTxn = true → (∀ c ∈ s.calls, c.inTxn = false) →
      Step capacity faults s (s.commitFrame b f lsn)
  | durable {s : State} (lsn : Nat) : s.durable ≤ lsn →
      Step capacity faults s { s with durable := lsn }
  -- write_back
  | passStart {s : State} (max : Nat) : s.pass = none →
      Step capacity faults s (s.setPass ⟨max, [], [], 0, .pick 0⟩)
  | passPick {s : State} (p : Pass) (i : Nat) : s.pass = some p → p.at_ = .pick i →
      i < shards → p.picks.length < p.max →
      Step capacity faults s
        ((s.pinAll ((s.pickFrom i p.max p.picks.length).map Pick.f)).setPass
          { p with picks := p.picks ++ s.pickFrom i p.max p.picks.length, at_ := .pick (i + 1) })
  | passSort {s : State} (p : Pass) (i : Nat) : s.pass = some p → p.at_ = .pick i →
      ¬ (i < shards ∧ p.picks.length < p.max) →
      Step capacity faults s
        (s.setPass { p with
          picks := p.picks.mergeSort fun a b => a.blockNo ≤ b.blockNo, at_ := .loop })
  | passNext {s : State} (p : Pass) (q : Pick) (qs : List Pick) : s.pass = some p → p.at_ = .loop →
      p.picks = q :: qs →
      Step capacity faults s
        (s.setPass { p with
          picks := qs, at_ := if joinsRun p.run q then .copy q else .write (.copy q) })
  | passLast {s : State} (p : Pass) : s.pass = some p → p.at_ = .loop → p.picks = [] →
      Step capacity faults s (s.setPass { p with at_ := .write .done })
  | passCopy {s : State} (p : Pass) (q : Pick) : s.pass = some p → p.at_ = .copy q →
      (s.frames q.f).locked = false →
      Step capacity faults s (s.setPass { p with at_ := .check q (s.frames q.f).data })
  | passCheck {s : State} (p : Pass) (q : Pick) (img : Image) : s.pass = some p →
      p.at_ = .check q img →
      Step capacity faults s
        (s.setPass (if s.mayWrite q.f then { p with run := p.run ++ [(q, img)], at_ := .loop }
          else { p with at_ := .write (.drop q) }))
  | passWrite {s : State} (p : Pass) (next : Next) : s.pass = some p → p.at_ = .write next →
      Step capacity faults s
        ((s.writeRun p.run).setPass
          { p with run := [], written := p.written + p.run.length, at_ := .mark p.run next })
  | passWriteFails {s : State} (p : Pass) (next : Next) (n : Nat) : faults = true →
      s.pass = some p → p.at_ = .write next → p.run ≠ [] →
      Step capacity faults s
        ((s.writeRun (p.run.take n)).setPass
          { p with
            picks := [], run := [], at_ := .unwind (p.run.map Prod.fst ++ next.picks ++ p.picks) })
  | passMark {s : State} (p : Pass) (c : Pick × Image) (cs : List (Pick × Image)) (next : Next) :
      s.pass = some p → p.at_ = .mark (c :: cs) next →
      Step capacity faults s ((s.markFrame c.1).setPass { p with at_ := .mark cs next })
  | passMarked {s : State} (p : Pass) (next : Next) : s.pass = some p → p.at_ = .mark [] next →
      Step capacity faults s (s.goOn p next)
  | passDrop {s : State} (p : Pass) (q : Pick) : s.pass = some p → p.at_ = .drop q →
      Step capacity faults s ((s.unpin q.f).setPass { p with at_ := .loop })
  | passUnwind {s : State} (p : Pass) (q : Pick) (qs : List Pick) : s.pass = some p →
      p.at_ = .unwind (q :: qs) →
      Step capacity faults s ((s.unpin q.f).setPass { p with at_ := .unwind qs })
  | passThrow {s : State} (p : Pass) : s.pass = some p → p.at_ = .unwind [] →
      Step capacity faults s { s with pass := none }

/-- An empty cache over a device with these contents. -/
def State.empty (init : Nat → Block) (durable : Nat) : State where
  frames := fun _ => .new
  count := 0
  map := fun _ => none
  own := fun _ => []
  lru := fun _ => []
  dirtyCount := 0
  calls := 0
  pass := none
  disk := fun b => ⟨init b, []⟩
  durable := durable
  trace := []

inductive Run (capacity : Nat) (faults : Bool) (init : Nat → Block) : State → Prop where
  | empty (durable : Nat) : Run capacity faults init (.empty init durable)
  | step {s s' : State} : Run capacity faults init s → Step capacity faults s s' →
      Run capacity faults init s'

end ConcurrentFs.BufferCache
