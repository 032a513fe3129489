/-
  ConcurrentFs.CacheWriteBack

  `BufferCache::write_back` with its own variables: the picks in a vector, `next`,
  `run_start` and `run_len` into it, and the blocks copied into `run_buf_`.  The
  passes of the cache's own steps work on lists, and are what these indices stand
  for.

  Behind the variables a pass carries its history, which the program does not keep:
  what was checked, what the device was given, which frames were marked, and whose
  pins were given back.
-/
import ConcurrentFs.CacheInv

namespace ConcurrentFs.BufferCache

open Lib State

/-! ## The program -/

/-- What follows a `flush_run`. -/
inductive Behind where
  | copy
  | drop
  | done

/-- Where a `write_back` has got to. -/
inductive Point where
  /-- About to pick from this shard. -/
  | pick (shard : Nat)
  /-- At the head of the loop. -/
  | loop
  /-- About to copy `picks[next]`. -/
  | copy
  /-- Has copied it; about to see whether it may go. -/
  | check
  | flush (behind : Behind)
  /-- In `flush_run`, about to mark `picks[k]`. -/
  | mark (k : Nat) (behind : Behind)
  /-- About to unpin the pick that was left out. -/
  | drop
  /-- In the `catch`, about to unpin `picks[k]`. -/
  | unwind (k : Nat)

structure Loop where
  max : Nat
  picks : List Pick
  written : Nat
  next : Nat
  runStart : Nat
  runLen : Nat
  /-- `run_buf_`, a block each. -/
  buf : Nat → Image
  at_ : Point
  /-- The picks checked, what was copied of them, and whether it may be written. -/
  dealt : List (Pick × Image × Bool)
  /-- What `write_run` has been given, and has written. -/
  runs : List (Nat × List Image)
  marked : List Pick
  /-- Whose pins have been given back. -/
  returned : List Pick

/-- A cache and the `write_back` under way on it; those that have ended, with what they returned, if
    they did. -/
structure Worked where
  cache : State
  loop : Option Loop
  ended : List (Loop × Option Nat)

namespace Loop

variable (l : Loop)

def start (max : Nat) : Loop :=
  ⟨max, [], 0, 0, 0, 0, fun _ => .zero, .pick 0, [], [], [], []⟩

/-- `joins_run`. -/
def joinsRun (p : Pick) : Bool :=
  decide (0 < l.runLen) && decide (l.runLen < runBlocks) &&
    (l.picks[l.runStart]?).any fun c => p.blockNo == c.blockNo + l.runLen

/-- The run in `run_buf_`. -/
def bytes : List Image := (List.range l.runLen).map l.buf

/-- `picks[next]` has been checked. -/
def checked (p : Pick) (mayWrite : Bool) : Loop :=
  { l with
    next := l.next + 1
    runLen := if mayWrite then l.runLen + 1 else l.runLen
    at_ := if mayWrite then .loop else .flush .drop
    dealt := l.dealt ++ [(p, l.buf l.runLen, mayWrite)] }

end Loop

/-- Blocks one behind the other. -/
def placed (first : Nat) (imgs : List Image) : List (Nat × Image) :=
  (List.range' first imgs.length).zip imgs

/-- `BlockDevice::write_run`. -/
def State.writeBlocks (s : State) (first : Nat) (imgs : List Image) : State :=
  { s with
    disk := applyWrites s.disk (placed first imgs)
    trace := s.trace ++ (placed first imgs).map fun c => .device c.1 c.2 s.durable }

/-- `flush_run` is back. -/
def Worked.goOn (x : Worked) (l : Loop) : Behind → Worked
  | .copy => { x with loop := some { l with runStart := l.next, at_ := .copy } }
  | .drop => { x with loop := some { l with at_ := .drop } }
  | .done => { x with loop := none, ended := x.ended ++ [(l, some l.written)] }

/-- One section of a call, or one step of a `write_back`. -/
inductive WStep (capacity : Nat) (faults : Bool) : Worked → Worked → Prop where
  | other {x : Worked} {s : State} : Step capacity faults x.cache s → s.pass = none →
      WStep capacity faults x { x with cache := s }
  | start {x : Worked} (max : Nat) : x.loop = none →
      WStep capacity faults x { x with loop := some (.start max) }
  | pick {x : Worked} {l : Loop} (i : Nat) : x.loop = some l → l.at_ = .pick i → i < shards →
      l.picks.length < l.max →
      WStep capacity faults x
        { x with
          cache := x.cache.pinAll ((x.cache.pickFrom i l.max l.picks.length).map Pick.f)
          loop := some { l with
            picks := l.picks ++ x.cache.pickFrom i l.max l.picks.length
            at_ := .pick (i + 1) } }
  | sort {x : Worked} {l : Loop} (i : Nat) : x.loop = some l → l.at_ = .pick i →
      ¬ (i < shards ∧ l.picks.length < l.max) →
      WStep capacity faults x
        { x with loop := some { l with
            picks := l.picks.mergeSort fun a b => a.blockNo ≤ b.blockNo
            at_ := .loop } }
  | next {x : Worked} {l : Loop} (p : Pick) : x.loop = some l → l.at_ = .loop →
      l.picks[l.next]? = some p →
      WStep capacity faults x
        { x with loop := some { l with
            at_ := if l.joinsRun p then .copy else .flush .copy } }
  | last {x : Worked} {l : Loop} : x.loop = some l → l.at_ = .loop → l.picks.length ≤ l.next →
      WStep capacity faults x { x with loop := some { l with at_ := .flush .done } }
  | copy {x : Worked} {l : Loop} (p : Pick) : x.loop = some l → l.at_ = .copy →
      l.picks[l.next]? = some p → (x.cache.frames p.f).locked = false →
      WStep capacity faults x
        { x with loop := some { l with
            buf := Function.update l.buf l.runLen (x.cache.frames p.f).data
            at_ := .check } }
  | check {x : Worked} {l : Loop} (p : Pick) : x.loop = some l → l.at_ = .check →
      l.picks[l.next]? = some p →
      WStep capacity faults x { x with loop := some (l.checked p (x.cache.mayWrite p.f)) }
  | flushEmpty {x : Worked} {l : Loop} (behind : Behind) : x.loop = some l →
      l.at_ = .flush behind → l.runLen = 0 → WStep capacity faults x (x.goOn l behind)
  | flush {x : Worked} {l : Loop} (behind : Behind) (p : Pick) : x.loop = some l →
      l.at_ = .flush behind → l.runLen ≠ 0 → l.picks[l.runStart]? = some p →
      WStep capacity faults x
        { x with
          cache := x.cache.writeBlocks p.blockNo l.bytes
          loop := some { l with
            written := l.written + l.runLen
            at_ := .mark l.runStart behind
            runs := l.runs ++ [(p.blockNo, l.bytes)] } }
  | flushFails {x : Worked} {l : Loop} (behind : Behind) (p : Pick) (n : Nat) : faults = true →
      x.loop = some l → l.at_ = .flush behind → l.runLen ≠ 0 → l.picks[l.runStart]? = some p →
      WStep capacity faults x
        { x with
          cache := x.cache.writeBlocks p.blockNo (l.bytes.take n)
          loop := some { l with at_ := .unwind l.runStart } }
  | mark {x : Worked} {l : Loop} (k : Nat) (behind : Behind) (p : Pick) : x.loop = some l →
      l.at_ = .mark k behind → k < l.runStart + l.runLen → l.picks[k]? = some p →
      WStep capacity faults x
        { x with
          cache := x.cache.markFrame p
          loop := some { l with
            at_ := .mark (k + 1) behind
            marked := l.marked ++ [p]
            returned := l.returned ++ [p] } }
  | marked {x : Worked} {l : Loop} (k : Nat) (behind : Behind) : x.loop = some l →
      l.at_ = .mark k behind → ¬ k < l.runStart + l.runLen →
      WStep capacity faults x (x.goOn { l with runLen := 0 } behind)
  | drop {x : Worked} {l : Loop} (p : Pick) : x.loop = some l → l.at_ = .drop →
      l.picks[l.next - 1]? = some p →
      WStep capacity faults x
        { x with
          cache := x.cache.unpin p.f
          loop := some { l with
            runStart := l.next
            at_ := .loop
            returned := l.returned ++ [p] } }
  | unwind {x : Worked} {l : Loop} (k : Nat) (p : Pick) : x.loop = some l → l.at_ = .unwind k →
      l.picks[k]? = some p →
      WStep capacity faults x
        { x with
          cache := x.cache.unpin p.f
          loop := some { l with
            at_ := .unwind (k + 1)
            returned := l.returned ++ [p] } }
  | throw {x : Worked} {l : Loop} (k : Nat) : x.loop = some l → l.at_ = .unwind k →
      l.picks.length ≤ k →
      WStep capacity faults x { x with loop := none, ended := x.ended ++ [(l, none)] }

inductive WRun (capacity : Nat) (faults : Bool) (init : Nat → Block) : Worked → Prop where
  | empty (durable : Nat) : WRun capacity faults init ⟨.empty init durable, none, []⟩
  | step {x y : Worked} : WRun capacity faults init x → WStep capacity faults x y →
      WRun capacity faults init y

/-! ## The pass that the variables stand for -/

/-- The run in the buffer, with the picks it was copied from. -/
structure Loop.Holds (l : Loop) (run : List (Pick × Image)) : Prop where
  len : l.runLen = run.length
  bytes : run.map Prod.snd = l.bytes
  le : run.length ≤ runBlocks
  /-- Its blocks follow one another on the disk. -/
  row : ∀ c ∈ run.head?, run.map (fun c => c.1.blockNo) = List.range' c.1.blockNo run.length

/-- Where the pick behind the run is to be found, when the run ends before `stop`. -/
def Loop.Before (l : Loop) (stop : Nat) (rest : List Pick) : Behind → Next → Prop
  | .copy, .copy _ => l.next = stop
  | .drop, .drop _ => l.next = stop + 1
  | .done, .done => l.next = stop ∧ rest = []
  | _, _ => False

/-- Where the run lies among the picks: behind those that are done with. -/
def Loop.Lies (l : Loop) (run : List (Pick × Image)) (rest : List Pick) : Prop :=
  l.picks = l.returned ++ (run.map Prod.fst ++ rest) ∧ l.runStart = l.returned.length

/-- The next pick may be put behind the run. -/
def Joins (run : List (Pick × Image)) (q : Pick) : Prop :=
  run.length < runBlocks ∧ ∀ c ∈ run.head?, q.blockNo = c.1.blockNo + run.length

/-- The variables, and the lists they stand for. -/
def Loop.View (l : Loop) (p : Pass) : Prop :=
  match l.at_ with
  | .pick i => p = ⟨l.max, l.picks, [], l.written, .pick i⟩ ∧ l.next = 0 ∧ l.runStart = 0 ∧
      l.runLen = 0 ∧ l.returned = []
  | .loop => ∃ run rest, p = ⟨l.max, rest, run, l.written, .loop⟩ ∧ l.Holds run ∧
      l.Lies run rest ∧ l.next = l.runStart + l.runLen
  | .copy => ∃ run q rest, p = ⟨l.max, rest, run, l.written, .copy q⟩ ∧ l.Holds run ∧
      Joins run q ∧ l.Lies run (q :: rest) ∧ l.next = l.runStart + l.runLen
  | .check => ∃ run q rest, p = ⟨l.max, rest, run, l.written, .check q (l.buf l.runLen)⟩ ∧
      l.Holds run ∧ Joins run q ∧ l.Lies run (q :: rest) ∧ l.next = l.runStart + l.runLen
  | .flush behind => ∃ next run rest, p = ⟨l.max, rest, run, l.written, .write next⟩ ∧
      l.Holds run ∧ l.Lies run (next.picks ++ rest) ∧
      l.Before (l.runStart + l.runLen) rest behind next
  | .mark k behind => ∃ next todo rest, p = ⟨l.max, rest, [], l.written, .mark todo next⟩ ∧
      l.picks = l.returned ++ (todo.map Prod.fst ++ (next.picks ++ rest)) ∧
      k = l.returned.length ∧ l.runStart + l.runLen = k + todo.length ∧
      l.Before (l.runStart + l.runLen) rest behind next
  | .drop => ∃ q rest, p = ⟨l.max, rest, [], l.written, .drop q⟩ ∧ l.runLen = 0 ∧
      l.picks = l.returned ++ q :: rest ∧ l.next = l.returned.length + 1
  | .unwind k => ∃ todo, p = ⟨l.max, [], [], l.written, .unwind todo⟩ ∧
      l.picks = l.returned ++ todo ∧ k = l.returned.length

/-! ## Steps of calls beside a pass -/

section WithPass

variable {capacity : Nat} {faults : Bool} {s s' : State}

/-- The same cache, with a pass under way. -/
def State.withPass (s : State) (p : Option Pass) : State := { s with pass := p }

theorem victims_withPass (p : Option Pass) (fs : List FrameId) (dirty : Option FrameId) :
    (s.withPass p).victims fs dirty = s.victims fs dirty := by
  induction fs generalizing dirty with
  | nil => rfl
  | cons f fs ih =>
    rw [State.victims, State.victims]
    simp only [ih]
    rfl

theorem unmap_withPass (s : State) (p : Option Pass) (f : FrameId) :
    (s.withPass p).unmap f = (s.unmap f).withPass p := by
  rw [State.unmap, State.unmap]
  show (if (s.frames f).mapped = true then _ else _) = _
  split <;> rfl

theorem takeFrame_withPass (p : Option Pass) (i : Nat) :
    (s.withPass p).takeFrame capacity i =
      ((s.takeFrame capacity i).1.withPass p, (s.takeFrame capacity i).2) := by
  rw [State.takeFrame, State.takeFrame, victims_withPass]
  show (if (s.own i).length < share capacity i then _ else _) = _
  split
  · rfl
  · have hlru : (s.withPass p).lru = s.lru := rfl
    rw [hlru]
    obtain ⟨clean, dirty⟩ := s.victims (s.lru i).reverse none
    cases clean with
    | some f => exact congrArg (·, f) (unmap_withPass s p f)
    | none =>
      cases dirty with
      | some f => exact congrArg (·, f) (unmap_withPass (s.writeVictim f) p f)
      | none => rfl

theorem Step.withPass (h : Step capacity faults s s') (hs : s.pass = none) (hs' : s'.pass = none)
    (p : Option Pass) : Step capacity faults (s.withPass p) (s'.withPass p) := by
  cases h with
  | hit op b f hb => exact .hit (s := s.withPass p) op b f hb
  | miss op b hb =>
    have h : Step capacity faults (s.withPass p) _ := .miss op b hb
    rw [takeFrame_withPass] at h
    exact h
  | missFails b f junk hf hb hfull hv =>
    refine .missFails (s := s.withPass p) b f junk hf hb hfull ?_
    rw [victims_withPass]
    exact hv
  | readHit b f rest hc hl hd => exact .readHit (s := s.withPass p) b f rest hc hl hd
  | modifyHit fresh inTxn fn b f rest hc hl hd =>
    exact .modifyHit (s := s.withPass p) fresh inTxn fn b f rest hc hl hd
  | throwHit op b f rest hc hl hd => exact .throwHit (s := s.withPass p) op b f rest hc hl hd
  | load op b f rest hc => exact .load (s := s.withPass p) op b f rest hc
  | loadFails op b f junk rest hf hc hfr =>
    exact .loadFails (s := s.withPass p) op b f junk rest hf hc hfr
  | unmapFailed op b f rest hc => exact .unmapFailed (s := s.withPass p) op b f rest hc
  | readLoaded b f rest hc => exact .readLoaded (s := s.withPass p) b f rest hc
  | modifyLoaded fresh inTxn fn b f rest hc =>
    exact .modifyLoaded (s := s.withPass p) fresh inTxn fn b f rest hc
  | finishModify inTxn f rest hc => exact .finishModify (s := s.withPass p) inTxn f rest hc
  | unpin f rest hc => exact .unpin (s := s.withPass p) f rest hc
  | copyTxnFrame b f hb ht => exact .copyTxnFrame (s := s.withPass p) b f hb ht
  | copied f rest hc hl => exact .copied (s := s.withPass p) f rest hc hl
  | commitFrame b f lsn hb ht hc => exact .commitFrame (s := s.withPass p) b f lsn hb ht hc
  | durable lsn hd => exact .durable (s := s.withPass p) lsn hd
  | passStart max _ => cases hs'
  | passPick q i hq | passSort q i hq | passNext q r rs hq | passLast q hq | passCopy q r hq
  | passCheck q r img hq | passWrite q next hq | passWriteFails q next n _ hq
  | passMark q c cs next hq | passMarked q next hq | passDrop q r hq | passUnwind q r rs hq
  | passThrow q hq => exact absurd (hs.symm.trans hq) nofun

end WithPass

/-! ## Runs of blocks -/

theorem placed_cons (first : Nat) (img : Image) (imgs : List Image) :
    placed first (img :: imgs) = (first, img) :: placed (first + 1) imgs := rfl

theorem placed_take (first n : Nat) (imgs : List Image) :
    placed first (imgs.take n) = (placed first imgs).take n := by
  induction imgs generalizing first n with
  | nil => rw [List.take_nil]; exact List.take_nil.symm
  | cons img imgs ih =>
    cases n with
    | zero => rfl
    | succ n => rw [List.take_succ_cons, placed_cons, placed_cons, List.take_succ_cons, ih]

section Runs

variable {l : Loop} {run : List (Pick × Image)} {q : Pick} {img : Image} {s : State}

/-- Each block of a run lies where its pick says. -/
theorem Loop.Holds.placed_eq (h : l.Holds run) {c : Pick × Image} (hc : run.head? = some c) :
    placed c.1.blockNo l.bytes = run.map fun c => (c.1.blockNo, c.2) := by
  have hrow := h.row c hc
  have hlen : l.bytes.length = run.length := by rw [← h.bytes, List.length_map]
  rw [placed, hlen, ← hrow, ← h.bytes, List.zip_map']

/-- `write_run` writes the run, or what it gets done of it. -/
theorem Loop.Holds.writeBlocks_eq (h : l.Holds run) {c : Pick × Image} (hc : run.head? = some c)
    (n : Nat) : s.writeBlocks c.1.blockNo (l.bytes.take n) = s.writeRun (run.take n) := by
  have hp : placed c.1.blockNo (l.bytes.take n) =
      (run.take n).map fun c => (c.1.blockNo, c.2) := by
    rw [placed_take, h.placed_eq hc, List.map_take]
  rw [State.writeBlocks, State.writeRun, hp, List.map_map]
  rfl

theorem Loop.Holds.empty (l : Loop) (h : l.runLen = 0) : l.Holds [] :=
  ⟨h, by rw [Loop.bytes, h]; rfl, Nat.zero_le _, nofun⟩

theorem Loop.Holds.same (h : l.Holds run) {l' : Loop} (hlen : l'.runLen = l.runLen)
    (hbuf : l'.bytes = l.bytes) : l'.Holds run :=
  ⟨hlen.trans h.len, h.bytes.trans hbuf.symm, h.le, h.row⟩

theorem Loop.Holds.eq_nil (h : l.Holds run) (h0 : l.runLen = 0) : run = [] :=
  List.length_eq_zero_iff.mp (h.len.symm.trans h0)

/-- The pick copied last joins the run. -/
theorem Loop.Holds.concat (h : l.Holds run) (hj : Joins run q) {l' : Loop}
    (hlen : l'.runLen = l.runLen + 1) (hbuf : l'.buf = l.buf) :
    l'.Holds (run ++ [(q, l.buf l.runLen)]) where
  len := by rw [hlen, h.len, List.length_append, List.length_singleton]
  bytes := by
    rw [List.map_append, h.bytes, Loop.bytes, Loop.bytes, hlen, hbuf, List.range_succ,
      List.map_append]
    rfl
  le := by
    rw [List.length_append, List.length_singleton]
    exact hj.1
  row c hc := by
    cases run with
    | nil =>
      cases hc
      rfl
    | cons d run =>
      have hcd : d = c := Option.some_inj.mp hc
      subst hcd
      have hq := hj.2 d rfl
      rw [List.map_append, h.row d rfl, List.length_append, List.length_singleton,
        List.range'_concat, Nat.one_mul, ← hq]
      rfl

/-- `joins_run` says whether the next pick can be put behind the run. -/
theorem Loop.Holds.joinsRun_eq (h : l.Holds run) {rest : List Pick} (hl : l.Lies run rest)
    (p : Pick) : l.joinsRun p = State.joinsRun run p := by
  obtain ⟨hpicks, hstart⟩ := hl
  rw [Loop.joinsRun, h.len]
  cases run with
  | nil => rfl
  | cons c run =>
    have hget : l.picks[l.runStart]? = some c.1 := by
      rw [hpicks, hstart, List.getElem?_append_right (Nat.le_refl _), Nat.sub_self]
      rfl
    rw [hget, State.joinsRun]
    simp

end Runs

/-! ## The history of a pass -/

/-- The picks that might be written, with what was copied of them. -/
def Loop.eligible (l : Loop) : List (Pick × Image) :=
  (l.dealt.filter fun c => c.2.2).map fun c => (c.1, c.2.1)

/-- What was written, block by block. -/
def Loop.placed (l : Loop) : List (Nat × Image) :=
  l.runs.flatMap fun r => BufferCache.placed r.1 r.2

/-- Frames written and still to be marked. -/
def Pass.todo (p : Pass) : List Pick :=
  match p.at_ with
  | .mark todo _ => todo.map Prod.fst
  | _ => []

structure Loop.Tale (l : Loop) (p : Pass) : Prop where
  dealt : l.dealt.map Prod.fst = l.picks.take l.next
  len : l.next ≤ l.picks.length
  story : ∃ wrote more : List (Pick × Image), l.eligible = wrote ++ (p.run ++ more) ∧
    (more = [] ∨ ∃ k, l.at_ = .unwind k) ∧
    wrote.map (fun c => (c.1.blockNo, c.2)) = l.placed ∧
    l.marked ++ p.todo = wrote.map Prod.fst ∧ l.written = wrote.length
  runs : ∀ r ∈ l.runs, r.2 ≠ [] ∧ r.2.length ≤ runBlocks
  picking : ∀ i, l.at_ = .pick i →
    (∀ q ∈ l.picks, shardFor q.blockNo < i) ∧ (l.picks.map Pick.blockNo).Nodup
  order : (∀ i, l.at_ ≠ .pick i) → l.picks.Pairwise fun a b => a.blockNo < b.blockNo

/-- How a `write_back` has ended. -/
structure Report (l : Loop) (result : Option Nat) : Prop where
  /-- Its picks are of different blocks, in ascending order. -/
  order : l.picks.Pairwise fun a b => a.blockNo < b.blockNo
  /-- Every pin was given back, once. -/
  returned : l.returned = l.picks
  /-- The first picks were checked; all of them, if it returned. -/
  dealt : l.dealt.map Prod.fst = l.picks.take l.next
  /-- Each run went out in one write. -/
  runs : ∀ r ∈ l.runs, r.2 ≠ [] ∧ r.2.length ≤ runBlocks
  /-- The first of those that might be written were written and marked, and no other; all of them,
      if it returned, and that is how many it returned. -/
  wrote : ∃ wrote more : List (Pick × Image), l.eligible = wrote ++ more ∧
    wrote.map (fun c => (c.1.blockNo, c.2)) = l.placed ∧ l.marked = wrote.map Prod.fst ∧
    ∀ n, result = some n → more = [] ∧ l.next = l.picks.length ∧ n = wrote.length

inductive Follows : Option Loop → Option Pass → Prop where
  | idle : Follows none none
  | busy {l : Loop} {p : Pass} : l.View p → l.Tale p → Follows (some l) (some p)

structure Worked.Kept (capacity : Nat) (faults : Bool) (init : Nat → Block) (x : Worked) :
    Prop where
  free : x.cache.pass = none
  follows : ∃ p, Run capacity faults init (x.cache.withPass p) ∧ Follows x.loop p
  ended : ∀ r ∈ x.ended, Report r.1 r.2

section Follow

variable {capacity : Nat} {faults : Bool} {init : Nat → Block} {x : Worked} {l : Loop}

/-- The pass goes on, with one more step of its own. -/
theorem Worked.Kept.go (h : x.Kept capacity faults init) {c : State} {l' : Loop} {p' : Pass}
    (hc : c.pass = none) (hrun : Run capacity faults init (c.withPass (some p')))
    (hv : l'.View p') (ht : l'.Tale p') :
    Worked.Kept capacity faults init { x with cache := c, loop := some l' } :=
  ⟨hc, ⟨_, hrun, .busy hv ht⟩, h.ended⟩

theorem Worked.Kept.busy (h : x.Kept capacity faults init) (hl : x.loop = some l) :
    ∃ p, Run capacity faults init (x.cache.withPass (some p)) ∧ l.View p ∧ l.Tale p := by
  obtain ⟨p, hrun, hf⟩ := h.follows
  rw [hl] at hf
  cases hf with
  | busy hv ht => exact ⟨_, hrun, hv, ht⟩

/-- A step that adds nothing to the history. -/
theorem Loop.Tale.same {p p' : Pass} (h : l.Tale p) {l' : Loop} (hpick : ∀ i, l.at_ ≠ .pick i)
    (hunwind : ∀ k, l.at_ ≠ .unwind k) (hpick' : ∀ i, l'.at_ ≠ .pick i)
    (hpicks : l'.picks = l.picks) (hnext : l'.next = l.next) (hdealt : l'.dealt = l.dealt)
    (hruns : l'.runs = l.runs) (hmarked : l'.marked = l.marked) (hwritten : l'.written = l.written)
    (hrun : p'.run = p.run) (htodo : p'.todo = p.todo) : l'.Tale p' := by
  obtain ⟨wrote, more, heli, hmore, hplaced, hm, hw⟩ := h.story
  refine ⟨?_, ?_, ⟨wrote, more, ?_, .inl (hmore.resolve_right ?_), ?_, ?_, ?_⟩, ?_, ?_, fun _ => ?_⟩
  · rw [hdealt, hpicks, hnext]
    exact h.dealt
  · rw [hpicks, hnext]
    exact h.len
  · rw [hrun, Loop.eligible, hdealt]
    exact heli
  · rintro ⟨k, hk⟩
    exact hunwind k hk
  · rw [Loop.placed, hruns]
    exact hplaced
  · rw [hmarked, htodo]
    exact hm
  · rw [hwritten]
    exact hw
  · rw [hruns]
    exact h.runs
  · exact fun i hi => absurd hi (hpick' i)
  · rw [hpicks]
    exact h.order hpick

/-- The pick behind what is done with and the run. -/
theorem Loop.Lies.head {run : List (Pick × Image)} {rest : List Pick} {p : Pick}
    (h : l.Lies run rest) (hh : l.Holds run) (hn : l.next = l.runStart + l.runLen)
    (hp : l.picks[l.next]? = some p) : ∃ rest', rest = p :: rest' := by
  have hidx : l.next = l.returned.length + run.length := by rw [hn, h.2, hh.len]
  rw [h.1, hidx, List.getElem?_append_right (Nat.le_add_right _ _), Nat.add_sub_cancel_left,
    List.getElem?_append_right (by rw [List.length_map]), List.length_map, Nat.sub_self] at hp
  cases rest with
  | nil => cases hp
  | cons q rest =>
    cases hp
    exact ⟨rest, rfl⟩

theorem Worked.Kept.next (h : x.Kept capacity faults init) {p : Pick} (hl : x.loop = some l)
    (hat : l.at_ = .loop) (hp : l.picks[l.next]? = some p) :
    Worked.Kept capacity faults init
      { x with loop := some { l with at_ := if l.joinsRun p then .copy else .flush .copy } } := by
  obtain ⟨P, hrun, hv, ht⟩ := h.busy hl
  rw [Loop.View, hat] at hv
  obtain ⟨run, rest, rfl, hh, hlies, hnext⟩ := hv
  obtain ⟨rest, rfl⟩ := hlies.head hh hnext hp
  have hstep := hrun.step (.passNext _ p rest rfl rfl rfl)
  have hjoins := hh.joinsRun_eq hlies p
  cases hj : l.joinsRun p with
  | true =>
    rw [← hjoins, hj] at hstep
    refine h.go h.free hstep ⟨run, p, rest, rfl, hh.same rfl rfl, ?_, hlies, hnext⟩
      (ht.same (by simp [hat]) (by simp [hat]) nofun rfl rfl rfl rfl rfl rfl rfl rfl)
    rw [hjoins] at hj
    cases run with
    | nil => cases hj
    | cons c run =>
      simp only [State.joinsRun, Bool.and_eq_true, decide_eq_true_eq, beq_iff_eq] at hj
      refine ⟨hj.1, fun d hd => ?_⟩
      cases hd
      exact hj.2
  | false =>
    rw [← hjoins, hj] at hstep
    exact h.go h.free hstep ⟨.copy p, run, rest, rfl, hh.same rfl rfl, hlies, hnext⟩
      (ht.same (by simp [hat]) (by simp [hat]) nofun rfl rfl rfl rfl rfl rfl rfl rfl)

theorem Worked.Kept.last (h : x.Kept capacity faults init) (hl : x.loop = some l)
    (hat : l.at_ = .loop) (hlen : l.picks.length ≤ l.next) :
    Worked.Kept capacity faults init
      { x with loop := some { l with at_ := .flush .done } } := by
  obtain ⟨P, hrun, hv, ht⟩ := h.busy hl
  rw [Loop.View, hat] at hv
  obtain ⟨run, rest, rfl, hh, hlies, hnext⟩ := hv
  have hrest : rest = [] := by
    have hpl := congrArg List.length hlies.1
    rw [List.length_append, List.length_append, List.length_map] at hpl
    rw [hnext, hlies.2, hh.len] at hlen
    exact List.length_eq_zero_iff.mp (by omega)
  subst hrest
  exact h.go h.free (hrun.step (.passLast _ rfl rfl rfl))
    ⟨.done, run, [], rfl, hh.same rfl rfl, hlies, hnext, rfl⟩
    (ht.same (by simp [hat]) (by simp [hat]) nofun rfl rfl rfl rfl rfl rfl rfl rfl)

theorem Worked.Kept.copy (h : x.Kept capacity faults init) {p : Pick} (hl : x.loop = some l)
    (hat : l.at_ = .copy) (hp : l.picks[l.next]? = some p)
    (hlock : (x.cache.frames p.f).locked = false) :
    Worked.Kept capacity faults init
      { x with loop := some { l with
          buf := Function.update l.buf l.runLen (x.cache.frames p.f).data
          at_ := .check } } := by
  obtain ⟨P, hrun, hv, ht⟩ := h.busy hl
  rw [Loop.View, hat] at hv
  obtain ⟨run, q, rest, rfl, hh, hj, hlies, hnext⟩ := hv
  obtain ⟨rest', he⟩ := hlies.head hh hnext hp
  cases he
  have hbuf : Function.update l.buf l.runLen (x.cache.frames p.f).data l.runLen =
      (x.cache.frames p.f).data := Function.update_self ..
  refine h.go h.free (hrun.step (.passCopy _ p rfl rfl hlock))
    ⟨run, p, rest, ?_, hh.same rfl ?_, hj, hlies, hnext⟩
    (ht.same (by simp [hat]) (by simp [hat]) nofun rfl rfl rfl rfl rfl rfl rfl rfl)
  · show (_ : Pass) = ⟨l.max, rest, run, l.written,
      .check p (Function.update l.buf l.runLen _ l.runLen)⟩
    rw [hbuf]
    rfl
  · -- the copy goes behind the run
    refine List.map_congr_left fun k hk => Function.update_of_ne ?_ ..
    exact Nat.ne_of_lt (List.mem_range.mp hk)

theorem eligible_checked (l : Loop) (p : Pick) (mayWrite : Bool) :
    (l.checked p mayWrite).eligible =
      l.eligible ++ if mayWrite then [(p, l.buf l.runLen)] else [] := by
  rw [Loop.eligible, Loop.checked, List.filter_append, List.map_append]
  cases mayWrite <;> rfl

theorem Worked.Kept.check (h : x.Kept capacity faults init) {p : Pick} (hl : x.loop = some l)
    (hat : l.at_ = .check) (hp : l.picks[l.next]? = some p) :
    Worked.Kept capacity faults init
      { x with loop := some (l.checked p (x.cache.mayWrite p.f)) } := by
  obtain ⟨P, hrun, hv, ht⟩ := h.busy hl
  rw [Loop.View, hat] at hv
  obtain ⟨run, q, rest, rfl, hh, hj, hlies, hnext⟩ := hv
  obtain ⟨rest', he⟩ := hlies.head hh hnext hp
  cases he
  have hstep := hrun.step (.passCheck _ p (l.buf l.runLen) rfl rfl)
  have hdealt : (l.dealt ++ [(p, l.buf l.runLen, x.cache.mayWrite p.f)]).map Prod.fst =
      l.picks.take (l.next + 1) := by
    rw [List.map_append, ht.dealt, List.take_add_one, hp]
    rfl
  have hlen : l.next + 1 ≤ l.picks.length :=
    (List.getElem?_eq_some_iff.mp hp).1
  obtain ⟨wrote, more, heli, hmore, hplaced, hmarked, hwritten⟩ := ht.story
  replace hmore : more = [] := hmore.resolve_right (by simp [hat])
  have horder := ht.order (by simp [hat])
  have helig := eligible_checked l p (x.cache.mayWrite p.f)
  have hcond : (x.cache.withPass (some ⟨l.max, rest, run, l.written,
    .check p (l.buf l.runLen)⟩)).mayWrite p.f = x.cache.mayWrite p.f := rfl
  rw [hcond] at hstep
  cases hm : x.cache.mayWrite p.f with
  | true =>
    rw [hm] at hstep hdealt helig
    rw [if_pos rfl] at helig hstep
    refine h.go h.free hstep ⟨run ++ [(p, l.buf l.runLen)], rest, rfl, hh.concat hj rfl rfl,
      ⟨?_, hlies.2⟩, ?_⟩
      ⟨hdealt, hlen, ⟨wrote, [], ?_, .inl rfl, hplaced, hmarked, hwritten⟩, ht.runs, nofun,
        fun _ => horder⟩
    · show l.picks = _
      rw [hlies.1, List.map_append, List.append_assoc]
      rfl
    · show l.next + 1 = l.runStart + (l.runLen + 1)
      rw [hnext, Nat.add_assoc]
    · rw [helig, heli, hmore, List.append_nil, List.append_nil, List.append_assoc]
  | false =>
    rw [hm] at hstep hdealt helig
    rw [if_neg nofun] at helig hstep
    refine h.go h.free hstep ⟨.drop p, run, rest, rfl, hh.same rfl rfl, hlies, ?_⟩
      ⟨hdealt, hlen, ⟨wrote, [], ?_, .inl rfl, hplaced, hmarked, hwritten⟩, ht.runs, nofun,
        fun _ => horder⟩
    · show l.next + 1 = l.runStart + l.runLen + 1
      rw [hnext]
    · rw [helig, heli, hmore, List.append_nil, List.append_nil]

/-- `flush_run` is back, and nothing is left in the buffer. -/
theorem Worked.Kept.goOn (h : x.Kept capacity faults init) {behind : Behind} {next : Next}
    {rest : List Pick}
    (hrun : Run capacity faults init
      (x.cache.withPass (some ⟨l.max, rest, [], l.written, .mark [] next⟩)))
    (ht : l.Tale ⟨l.max, rest, [], l.written, .mark [] next⟩) (hlen : l.runLen = 0)
    (hpicks : l.picks = l.returned ++ (next.picks ++ rest))
    (hb : l.Before l.returned.length rest behind next) (hpick : ∀ i, l.at_ ≠ .pick i)
    (hunwind : ∀ k, l.at_ ≠ .unwind k) :
    Worked.Kept capacity faults init (x.goOn l behind) := by
  have hstep := hrun.step (.passMarked _ next rfl rfl)
  cases behind with
  | copy =>
    cases next with
    | copy q =>
      have hs : l.next = l.returned.length := hb
      refine h.go h.free hstep ⟨[], q, rest, rfl, (Loop.Holds.empty l hlen).same rfl rfl,
        ⟨by decide, nofun⟩, ⟨hpicks, hs⟩, ?_⟩
        (ht.same hpick hunwind nofun rfl rfl rfl rfl rfl rfl rfl rfl)
      show l.next = l.next + l.runLen
      rw [hlen, Nat.add_zero]
    | drop q => exact absurd hb id
    | done => exact absurd hb id
  | drop =>
    cases next with
    | copy q => exact absurd hb id
    | drop q =>
      exact h.go h.free hstep ⟨q, rest, rfl, hlen, hpicks, hb⟩
        (ht.same hpick hunwind nofun rfl rfl rfl rfl rfl rfl rfl rfl)
    | done => exact absurd hb id
  | done =>
    cases next with
    | copy q => exact absurd hb id
    | drop q => exact absurd hb id
    | done =>
      obtain ⟨hn, hrest⟩ := hb
      have hret : l.returned = l.picks := by
        rw [hpicks, hrest]
        exact (List.append_nil _).symm
      obtain ⟨wrote, more, heli, hmore, hplaced, hmarked, hwritten⟩ := ht.story
      replace hmore : more = [] := hmore.resolve_right fun ⟨k, hk⟩ => hunwind k hk
      refine ⟨h.free, ⟨none, hstep, .idle⟩, fun r hr => ?_⟩
      rcases List.mem_append.mp hr with hr | hr
      · exact h.ended r hr
      · cases List.mem_singleton.mp hr
        refine ⟨ht.order hpick, hret, ht.dealt, ht.runs, wrote, [], ?_, hplaced, ?_,
          fun n hn' => ?_⟩
        · rw [heli, hmore]
          rfl
        · exact (List.append_nil _).symm.trans hmarked
        · cases hn'
          exact ⟨rfl, by rw [hn, hret], hwritten⟩

theorem writeRun_nil (s : State) : s.writeRun [] = s := by
  show { s with disk := s.disk, trace := s.trace ++ [] } = s
  rw [List.append_nil]

theorem Loop.Before.same {l' : Loop} {stop stop' : Nat} {rest : List Pick} {behind : Behind}
    {next : Next} (h : l.Before stop rest behind next) (hn : l'.next = l.next)
    (hs : stop' = stop) : l'.Before stop' rest behind next := by
  subst hs
  cases behind <;> cases next <;> first | exact hn.trans h | exact ⟨hn.trans h.1, h.2⟩ | exact h

theorem Worked.Kept.flushEmpty (h : x.Kept capacity faults init) {behind : Behind}
    (hl : x.loop = some l) (hat : l.at_ = .flush behind) (hlen : l.runLen = 0) :
    Worked.Kept capacity faults init (x.goOn l behind) := by
  obtain ⟨P, hrun, hv, ht⟩ := h.busy hl
  rw [Loop.View, hat] at hv
  obtain ⟨next, run, rest, rfl, hh, hlies, hb⟩ := hv
  cases hh.eq_nil hlen
  have hstep := hrun.step (.passWrite _ next rfl rfl)
  rw [writeRun_nil] at hstep
  refine h.goOn hstep ?_ hlen hlies.1 (hb.same rfl ?_) (by simp [hat]) (by simp [hat])
  · exact ht.same (by simp [hat]) (by simp [hat]) (by simp [hat]) rfl rfl rfl rfl rfl rfl rfl rfl
  · rw [hlies.2, hlen, Nat.add_zero]

/-- The run is not empty, and its first pick is `picks[run_start]`. -/
theorem Loop.Lies.first {run : List (Pick × Image)} {rest : List Pick} {p : Pick}
    (h : l.Lies run rest) (hh : l.Holds run) (hlen : l.runLen ≠ 0)
    (hp : l.picks[l.runStart]? = some p) : ∃ img run', run = (p, img) :: run' := by
  rw [h.1, h.2, List.getElem?_append_right (Nat.le_refl _), Nat.sub_self] at hp
  cases run with
  | nil => exact absurd hh.len hlen
  | cons c run =>
    cases hp
    exact ⟨c.2, run, rfl⟩

theorem Worked.Kept.flush (h : x.Kept capacity faults init) {behind : Behind} {p : Pick}
    (hl : x.loop = some l) (hat : l.at_ = .flush behind) (hlen : l.runLen ≠ 0)
    (hp : l.picks[l.runStart]? = some p) :
    Worked.Kept capacity faults init
      { x with
        cache := x.cache.writeBlocks p.blockNo l.bytes
        loop := some { l with
          written := l.written + l.runLen
          at_ := .mark l.runStart behind
          runs := l.runs ++ [(p.blockNo, l.bytes)] } } := by
  obtain ⟨P, hrun, hv, ht⟩ := h.busy hl
  rw [Loop.View, hat] at hv
  obtain ⟨next, run, rest, rfl, hh, hlies, hb⟩ := hv
  obtain ⟨img, run', rfl⟩ := hlies.first hh hlen hp
  generalize hr : (p, img) :: run' = run at *
  have hhead : run.head? = some (p, img) := by rw [← hr]; rfl
  have hstep := hrun.step (.passWrite _ next rfl rfl)
  have hwrite := hh.writeBlocks_eq hhead run.length (s := x.cache.withPass (some
    ⟨l.max, rest, run, l.written, .write next⟩))
  have hbytes : l.bytes.length = run.length := by rw [← hh.bytes, List.length_map]
  rw [List.take_length, List.take_of_length_le (Nat.le_of_eq hbytes)] at hwrite
  rw [show (⟨l.max, rest, run, l.written, .write next⟩ : Pass).run = run from rfl, ← hwrite,
    ← hh.len] at hstep
  obtain ⟨wrote, more, heli, hmore, hplaced, hmarked, hwritten⟩ := ht.story
  replace hmore : more = [] := hmore.resolve_right (by simp [hat])
  refine h.go h.free hstep ⟨next, run, rest, rfl, hlies.1, hlies.2, ?_, hb.same rfl rfl⟩
    ⟨ht.dealt, ht.len, ⟨wrote ++ run, [], ?_, .inl rfl, ?_, ?_, ?_⟩, fun r hr' => ?_, nofun,
      fun _ => ht.order (by simp [hat])⟩
  · show l.runStart + l.runLen = l.runStart + run.length
    rw [hh.len]
  · show l.eligible = _
    rw [heli, hmore]
    simp
  · show _ = (l.runs ++ [(p.blockNo, l.bytes)]).flatMap _
    rw [List.map_append, hplaced, List.flatMap_append, ← hh.placed_eq hhead]
    simp [Loop.placed]
  · show l.marked ++ run.map Prod.fst = _
    have hm : l.marked = wrote.map Prod.fst := (List.append_nil _).symm.trans hmarked
    rw [hm, List.map_append]
  · show l.written + l.runLen = _
    rw [hwritten, hh.len, List.length_append]
  · rcases List.mem_append.mp hr' with hr' | hr'
    · exact ht.runs r hr'
    · rw [List.mem_singleton.mp hr']
      refine ⟨fun he => ?_, ?_⟩
      · have := congrArg List.length he
        rw [← hh.bytes, List.length_map, ← hh.len] at this
        exact hlen this
      · show l.bytes.length ≤ runBlocks
        rw [← hh.bytes, List.length_map]
        exact hh.le

theorem Worked.Kept.flushFails (h : x.Kept capacity faults init) {behind : Behind} {p : Pick}
    (hf : faults = true) (hl : x.loop = some l) (hat : l.at_ = .flush behind)
    (hlen : l.runLen ≠ 0) (hp : l.picks[l.runStart]? = some p) (n : Nat) :
    Worked.Kept capacity faults init
      { x with
        cache := x.cache.writeBlocks p.blockNo (l.bytes.take n)
        loop := some { l with at_ := .unwind l.runStart } } := by
  obtain ⟨P, hrun, hv, ht⟩ := h.busy hl
  rw [Loop.View, hat] at hv
  obtain ⟨next, run, rest, rfl, hh, hlies, hb⟩ := hv
  obtain ⟨img, run', rfl⟩ := hlies.first hh hlen hp
  have hstep := hrun.step (.passWriteFails _ next n hf rfl rfl nofun)
  have hwrite := hh.writeBlocks_eq (c := (p, img)) rfl n (s := x.cache.withPass (some
    ⟨l.max, rest, (p, img) :: run', l.written, .write next⟩))
  rw [show (⟨l.max, rest, (p, img) :: run', l.written, .write next⟩ : Pass).run =
    (p, img) :: run' from rfl, ← hwrite] at hstep
  obtain ⟨wrote, more, heli, hmore, hplaced, hmarked, hwritten⟩ := ht.story
  replace hmore : more = [] := hmore.resolve_right (by simp [hat])
  refine h.go h.free hstep ⟨_, rfl, ?_, hlies.2⟩
    ⟨ht.dealt, ht.len, ⟨wrote, (p, img) :: run', ?_, .inr ⟨_, rfl⟩, hplaced, hmarked, hwritten⟩,
      ht.runs, nofun, fun _ => ht.order (by simp [hat])⟩
  · rw [List.append_assoc]
    exact hlies.1
  · show l.eligible = _
    rw [heli, hmore, List.append_nil]
    rfl

theorem Worked.Kept.mark (h : x.Kept capacity faults init) {k : Nat} {behind : Behind} {p : Pick}
    (hl : x.loop = some l) (hat : l.at_ = .mark k behind) (hk : k < l.runStart + l.runLen)
    (hp : l.picks[k]? = some p) :
    Worked.Kept capacity faults init
      { x with
        cache := x.cache.markFrame p
        loop := some { l with
          at_ := .mark (k + 1) behind
          marked := l.marked ++ [p]
          returned := l.returned ++ [p] } } := by
  obtain ⟨P, hrun, hv, ht⟩ := h.busy hl
  rw [Loop.View, hat] at hv
  obtain ⟨next, todo, rest, rfl, hpicks, hkr, hstop, hb⟩ := hv
  cases todo with
  | nil => exact absurd (hstop.trans (Nat.add_zero k)) (Nat.ne_of_gt hk)
  | cons c todo =>
    have hpc : c.1 = p := by
      rw [hpicks, hkr, List.getElem?_append_right (Nat.le_refl _), Nat.sub_self] at hp
      exact Option.some_inj.mp hp
    subst hpc
    obtain ⟨wrote, more, heli, hmore, hplaced, hmarked, hwritten⟩ := ht.story
    refine h.go h.free (hrun.step (.passMark _ c todo next rfl rfl))
      ⟨next, todo, rest, rfl, ?_, ?_, ?_, hb.same rfl rfl⟩
      ⟨ht.dealt, ht.len, ⟨wrote, more, heli, .inl (hmore.resolve_right (by simp [hat])), hplaced,
        ?_, hwritten⟩, ht.runs, nofun, fun _ => ht.order (by simp [hat])⟩
    · show l.picks = l.returned ++ [c.1] ++ _
      rw [hpicks, List.append_assoc]
      rfl
    · show k + 1 = (l.returned ++ [c.1]).length
      rw [hkr, List.length_append, List.length_singleton]
    · show l.runStart + l.runLen = k + 1 + todo.length
      rw [hstop, List.length_cons]
      omega
    · show l.marked ++ [c.1] ++ todo.map Prod.fst = _
      rw [← hmarked, List.append_assoc]
      rfl

theorem Worked.Kept.marked (h : x.Kept capacity faults init) {k : Nat} {behind : Behind}
    (hl : x.loop = some l) (hat : l.at_ = .mark k behind) (hk : ¬ k < l.runStart + l.runLen) :
    Worked.Kept capacity faults init (x.goOn { l with runLen := 0 } behind) := by
  obtain ⟨P, hrun, hv, ht⟩ := h.busy hl
  rw [Loop.View, hat] at hv
  obtain ⟨next, todo, rest, rfl, hpicks, hkr, hstop, hb⟩ := hv
  have htodo : todo = [] := List.length_eq_zero_iff.mp (by omega)
  subst htodo
  refine h.goOn (l := { l with runLen := 0 }) hrun ?_ rfl hpicks (hb.same rfl ?_)
    (by simp [hat]) (by simp [hat])
  · exact ht.same (by simp [hat]) (by simp [hat]) (by simp [hat]) rfl rfl rfl rfl rfl rfl rfl rfl
  · show l.returned.length = _
    rw [hstop, ← hkr]
    rfl

theorem Worked.Kept.drop (h : x.Kept capacity faults init) {p : Pick} (hl : x.loop = some l)
    (hat : l.at_ = .drop) (hp : l.picks[l.next - 1]? = some p) :
    Worked.Kept capacity faults init
      { x with
        cache := x.cache.unpin p.f
        loop := some { l with
          runStart := l.next
          at_ := .loop
          returned := l.returned ++ [p] } } := by
  obtain ⟨P, hrun, hv, ht⟩ := h.busy hl
  rw [Loop.View, hat] at hv
  obtain ⟨q, rest, rfl, hlen, hpicks, hnext⟩ := hv
  have hqp : q = p := by
    rw [hpicks, hnext, Nat.add_sub_cancel, List.getElem?_append_right (Nat.le_refl _),
      Nat.sub_self] at hp
    exact Option.some_inj.mp hp
  subst hqp
  refine h.go h.free (hrun.step (.passDrop _ q rfl rfl))
    ⟨[], rest, rfl, (Loop.Holds.empty l hlen).same rfl rfl, ⟨?_, ?_⟩, ?_⟩
    (ht.same (by simp [hat]) (by simp [hat]) nofun rfl rfl rfl rfl rfl rfl rfl rfl)
  · show l.picks = l.returned ++ [q] ++ rest
    rw [hpicks, List.append_assoc]
    rfl
  · show l.next = (l.returned ++ [q]).length
    rw [hnext, List.length_append, List.length_singleton]
  · show l.next = l.next + l.runLen
    rw [hlen, Nat.add_zero]

theorem Worked.Kept.unwind (h : x.Kept capacity faults init) {k : Nat} {p : Pick}
    (hl : x.loop = some l) (hat : l.at_ = .unwind k) (hp : l.picks[k]? = some p) :
    Worked.Kept capacity faults init
      { x with
        cache := x.cache.unpin p.f
        loop := some { l with
          at_ := .unwind (k + 1)
          returned := l.returned ++ [p] } } := by
  obtain ⟨P, hrun, hv, ht⟩ := h.busy hl
  rw [Loop.View, hat] at hv
  obtain ⟨todo, rfl, hpicks, hk⟩ := hv
  rw [hpicks, hk, List.getElem?_append_right (Nat.le_refl _), Nat.sub_self] at hp
  cases todo with
  | nil => cases hp
  | cons q todo =>
    cases hp
    obtain ⟨wrote, more, heli, -, hplaced, hmarked, hwritten⟩ := ht.story
    refine h.go h.free (hrun.step (.passUnwind _ p todo rfl rfl)) ⟨todo, rfl, ?_, ?_⟩
      ⟨ht.dealt, ht.len, ⟨wrote, more, heli, .inr ⟨_, rfl⟩, hplaced, hmarked, hwritten⟩,
        ht.runs, nofun, fun _ => ht.order (by simp [hat])⟩
    · show l.picks = l.returned ++ [p] ++ todo
      rw [hpicks, List.append_assoc]
      rfl
    · show k + 1 = (l.returned ++ [p]).length
      rw [hk, List.length_append, List.length_singleton]

theorem Worked.Kept.throw (h : x.Kept capacity faults init) {k : Nat} (hl : x.loop = some l)
    (hat : l.at_ = .unwind k) (hk : l.picks.length ≤ k) :
    Worked.Kept capacity faults init { x with loop := none, ended := x.ended ++ [(l, none)] } := by
  obtain ⟨P, hrun, hv, ht⟩ := h.busy hl
  rw [Loop.View, hat] at hv
  obtain ⟨todo, rfl, hpicks, hkr⟩ := hv
  have htodo : todo = [] := by
    rw [hpicks, hkr, List.length_append] at hk
    exact List.length_eq_zero_iff.mp (by omega)
  subst htodo
  refine ⟨h.free, ⟨none, hrun.step (.passThrow _ rfl rfl), .idle⟩, fun r hr => ?_⟩
  rcases List.mem_append.mp hr with hr | hr
  · exact h.ended r hr
  · cases List.mem_singleton.mp hr
    obtain ⟨wrote, more, heli, -, hplaced, hmarked, -⟩ := ht.story
    refine ⟨ht.order (by simp [hat]), (List.append_nil _).symm.trans hpicks.symm, ht.dealt, ht.runs,
      wrote, more, heli, hplaced, (List.append_nil _).symm.trans hmarked, nofun⟩

/-- A frame picked from a shard holds a block of that shard. -/
theorem shardFor_pickFrom {s : State} (hs : Shape s) {i max have_ : Nat} {q : Pick}
    (hq : q ∈ s.pickFrom i max have_) : shardFor q.blockNo = i := by
  obtain ⟨hlru, hm, -, -, hb, -⟩ := Shape.mem_pickFrom hq
  have hown := (hs.place.listed i).mem_iff.mp hlru
  have hmap := (hs.place.maps q.blockNo q.f).mpr ⟨hs.place.lt i _ hown, hm, hb.symm⟩
  exact hs.place.disjoint _ _ _ (hs.place.home _ _ hmap) hown

theorem nodup_pickFrom {s : State} (hs : Shape s) (i max have_ : Nat) :
    ((s.pickFrom i max have_).map Pick.blockNo).Nodup := by
  have hlru : (s.lru i).Nodup := (hs.place.listed i).nodup_iff.mpr (hs.place.nodup i)
  rw [State.pickFrom, List.map_map]
  refine List.Nodup.map_on (fun f hf g hg he => ?_)
    (((List.nodup_reverse.mpr hlru).filter _).sublist (List.take_sublist ..))
  have mapped : ∀ {f}, f ∈ ((s.lru i).reverse.filter fun f =>
      (s.frames f).mapped && (s.frames f).dirty && s.mayWrite f).take (max - have_) →
      s.map (s.frames f).blockNo = some f := by
    intro f hf
    have hf' := List.mem_of_mem_take hf
    rw [List.mem_filter, List.mem_reverse, Bool.and_eq_true, Bool.and_eq_true] at hf'
    have hown := (hs.place.listed i).mem_iff.mp hf'.1
    exact (hs.place.maps _ f).mpr ⟨hs.place.lt i _ hown, hf'.2.1.1, rfl⟩
  have he' : (s.frames f).blockNo = (s.frames g).blockNo := he
  have hfm := mapped hf
  rw [he', mapped hg] at hfm
  exact (Option.some_inj.mp hfm).symm

/-- The picks made before are of other shards. -/
theorem nodup_picks {s : State} (hs : Shape s) {i : Nat} {picks : List Pick}
    (hshard : ∀ q ∈ picks, shardFor q.blockNo < i) (hnodup : (picks.map Pick.blockNo).Nodup)
    (max have_ : Nat) : ((picks ++ s.pickFrom i max have_).map Pick.blockNo).Nodup := by
  rw [List.map_append]
  refine List.nodup_append.mpr ⟨hnodup, nodup_pickFrom hs i max have_, ?_⟩
  intro b hb c hc
  obtain ⟨q, hq, rfl⟩ := List.mem_map.mp hb
  obtain ⟨r, hr, rfl⟩ := List.mem_map.mp hc
  intro he
  exact absurd (he ▸ shardFor_pickFrom hs hr) (Nat.ne_of_lt (hshard q hq))

theorem Worked.Kept.pick (h : x.Kept capacity faults init) {i : Nat} (hl : x.loop = some l)
    (hat : l.at_ = .pick i) (hi : i < shards) (hlen : l.picks.length < l.max) :
    Worked.Kept capacity faults init
      { x with
        cache := x.cache.pinAll ((x.cache.pickFrom i l.max l.picks.length).map Pick.f)
        loop := some { l with
          picks := l.picks ++ x.cache.pickFrom i l.max l.picks.length
          at_ := .pick (i + 1) } } := by
  obtain ⟨P, hrun, hv, ht⟩ := h.busy hl
  rw [Loop.View, hat] at hv
  obtain ⟨rfl, hnext, hstart, hrunLen, hret⟩ := hv
  obtain ⟨hshard, hnodup⟩ := ht.picking i hat
  have hs := hrun.shape
  have hstep := hrun.step
    (.passPick ⟨l.max, l.picks, [], l.written, .pick i⟩ i rfl rfl hi hlen)
  have hnew : ∀ q ∈ x.cache.pickFrom i l.max l.picks.length, shardFor q.blockNo = i :=
    fun q hq => shardFor_pickFrom hs hq
  obtain ⟨wrote, more, heli, hmore, hplaced, hmarked, hwritten⟩ := ht.story
  refine h.go h.free hstep ⟨rfl, hnext, hstart, hrunLen, hret⟩
    ⟨?_, ?_, ⟨wrote, more, heli, .inl (hmore.resolve_right (by simp [hat])), hplaced, hmarked,
      hwritten⟩, ht.runs, fun j hj => ?_, fun hno => absurd rfl (hno (i + 1))⟩
  · show l.dealt.map Prod.fst = List.take l.next _
    rw [ht.dealt, hnext]
    rfl
  · show l.next ≤ _
    rw [hnext]
    exact Nat.zero_le _
  · cases hj
    refine ⟨fun q hq => ?_, nodup_picks hs hshard hnodup l.max l.picks.length⟩
    rcases List.mem_append.mp hq with hq | hq
    · exact Nat.lt_succ_of_lt (hshard q hq)
    · exact Nat.lt_succ_of_le (Nat.le_of_eq (hnew q hq))

theorem Worked.Kept.sort (h : x.Kept capacity faults init) {i : Nat} (hl : x.loop = some l)
    (hat : l.at_ = .pick i) (hi : ¬ (i < shards ∧ l.picks.length < l.max)) :
    Worked.Kept capacity faults init
      { x with loop := some { l with
          picks := l.picks.mergeSort fun a b => a.blockNo ≤ b.blockNo
          at_ := .loop } } := by
  obtain ⟨P, hrun, hv, ht⟩ := h.busy hl
  rw [Loop.View, hat] at hv
  obtain ⟨rfl, hnext, hstart, hrunLen, hret⟩ := hv
  obtain ⟨-, hnodup⟩ := ht.picking i hat
  obtain ⟨wrote, more, heli, hmore, hplaced, hmarked, hwritten⟩ := ht.story
  have hstep : Run capacity faults init (x.cache.withPass (some ⟨l.max,
      l.picks.mergeSort fun a b => a.blockNo ≤ b.blockNo, [], l.written, .loop⟩)) :=
    hrun.step (.passSort ⟨l.max, l.picks, [], l.written, .pick i⟩ i rfl rfl hi)
  generalize hsorted : l.picks.mergeSort (fun a b => a.blockNo ≤ b.blockNo) = sorted at hstep ⊢
  have hperm : sorted.Perm l.picks := by
    rw [← hsorted]
    exact List.mergeSort_perm ..
  have hle : sorted.Pairwise fun a b => a.blockNo ≤ b.blockNo := by
    rw [← hsorted]
    refine (List.pairwise_mergeSort (fun a b c hab hbc => ?_) (fun a b => ?_) l.picks).imp
      fun hab => ?_
    · simp only [decide_eq_true_eq] at *
      exact Nat.le_trans hab hbc
    · simp only [Bool.or_eq_true, decide_eq_true_eq]
      exact Nat.le_total ..
    · exact decide_eq_true_eq.mp hab
  have hne : sorted.Pairwise fun a b => a.blockNo ≠ b.blockNo :=
    List.pairwise_map.mp ((hperm.map Pick.blockNo).nodup_iff.mpr hnodup)
  refine h.go h.free hstep
    ⟨[], sorted, rfl, (Loop.Holds.empty l hrunLen).same rfl rfl, ⟨?_, ?_⟩, ?_⟩
    ⟨?_, ?_, ⟨wrote, more, heli, .inl (hmore.resolve_right (by simp [hat])), hplaced, hmarked,
      hwritten⟩, ht.runs, nofun, fun _ => ?_⟩
  · show sorted = l.returned ++ sorted
    rw [hret]
    rfl
  · show l.runStart = l.returned.length
    rw [hstart, hret]
    rfl
  · show l.next = l.runStart + l.runLen
    rw [hnext, hstart, hrunLen]
  · show l.dealt.map Prod.fst = List.take l.next _
    rw [ht.dealt, hnext]
    rfl
  · show l.next ≤ _
    rw [hnext]
    exact Nat.zero_le _
  · exact (hle.and hne).imp fun hab => Nat.lt_of_le_of_ne hab.1 hab.2

theorem Worked.Kept.start (h : x.Kept capacity faults init) (hl : x.loop = none) (max : Nat) :
    Worked.Kept capacity faults init { x with loop := some (.start max) } := by
  obtain ⟨p, hrun, hf⟩ := h.follows
  rw [hl] at hf
  cases hf
  exact h.go h.free (hrun.step (.passStart max rfl)) ⟨rfl, rfl, rfl, rfl, rfl⟩
    ⟨rfl, Nat.le_refl _, ⟨[], [], rfl, .inl rfl, rfl, rfl, rfl⟩, nofun,
      fun i hi => ⟨nofun, List.nodup_nil⟩, fun hno => absurd rfl (hno 0)⟩

theorem Worked.Kept.step (h : x.Kept capacity faults init) {y : Worked}
    (hs : WStep capacity faults x y) : y.Kept capacity faults init := by
  cases hs with
  | other hs hfree =>
    obtain ⟨p, hrun, hf⟩ := h.follows
    exact ⟨hfree, ⟨p, hrun.step (hs.withPass h.free hfree p), hf⟩, h.ended⟩
  | start max hl => exact h.start hl max
  | pick i hl hat hi hlen => exact h.pick hl hat hi hlen
  | sort i hl hat hi => exact h.sort hl hat hi
  | next p hl hat hp => exact h.next hl hat hp
  | last hl hat hlen => exact h.last hl hat hlen
  | copy p hl hat hp hlock => exact h.copy hl hat hp hlock
  | check p hl hat hp => exact h.check hl hat hp
  | flushEmpty behind hl hat hlen => exact h.flushEmpty hl hat hlen
  | flush behind p hl hat hlen hp => exact h.flush hl hat hlen hp
  | flushFails behind p n hf hl hat hlen hp => exact h.flushFails hf hl hat hlen hp n
  | mark k behind p hl hat hk hp => exact h.mark hl hat hk hp
  | marked k behind hl hat hk => exact h.marked hl hat hk
  | drop p hl hat hp => exact h.drop hl hat hp
  | unwind k p hl hat hp => exact h.unwind hl hat hp
  | throw k hl hat hk => exact h.throw hl hat hk

theorem WRun.kept (h : WRun capacity faults init x) : x.Kept capacity faults init := by
  induction h with
  | empty durable => exact ⟨rfl, ⟨none, .empty durable, .idle⟩, nofun⟩
  | step _ hs ih => exact ih.step hs

/-- The pins that the pass still has are those of the picks behind the ones given back. -/
theorem Loop.View.held {p : Pass} (h : l.View p) : l.picks = l.returned ++ p.held := by
  rw [Loop.View] at h
  split at h
  · obtain ⟨rfl, -, -, -, hret⟩ := h
    rw [hret]
    rfl
  · obtain ⟨run, rest, rfl, -, hlies, -⟩ := h
    exact hlies.1
  · obtain ⟨run, q, rest, rfl, -, -, hlies, -⟩ := h
    exact hlies.1
  · obtain ⟨run, q, rest, rfl, -, -, hlies, -⟩ := h
    exact hlies.1
  · obtain ⟨next, run, rest, rfl, -, hlies, -⟩ := h
    rw [hlies.1, ← List.append_assoc (run.map Prod.fst)]
    rfl
  · obtain ⟨next, todo, rest, rfl, hpicks, -⟩ := h
    rw [hpicks, ← List.append_assoc (todo.map Prod.fst)]
    rfl
  · obtain ⟨q, rest, rfl, -, hpicks, -⟩ := h
    exact hpicks
  · obtain ⟨todo, rfl, hpicks, -⟩ := h
    exact hpicks

/-- The blocks of the run are among those that may be written. -/
theorem Worked.Kept.run_eligible (h : x.Kept capacity faults init) {behind : Behind} {p : Pick}
    (hl : x.loop = some l) (hat : l.at_ = .flush behind) (hlen : l.runLen ≠ 0)
    (hp : l.picks[l.runStart]? = some p) :
    ∀ w ∈ BufferCache.placed p.blockNo l.bytes, ∃ c ∈ l.eligible, w = (c.1.blockNo, c.2) := by
  obtain ⟨P, hrun, hv, ht⟩ := h.busy hl
  rw [Loop.View, hat] at hv
  obtain ⟨next, run, rest, rfl, hh, hlies, hb⟩ := hv
  obtain ⟨img, run', rfl⟩ := hlies.first hh hlen hp
  intro w hw
  rw [hh.placed_eq (c := (p, img)) rfl] at hw
  obtain ⟨c, hc, rfl⟩ := List.mem_map.mp hw
  obtain ⟨wrote, more, heli, -⟩ := ht.story
  refine ⟨c, ?_, rfl⟩
  rw [heli]
  exact List.mem_append_right _ (List.mem_append_left _ hc)

/-- What a step of a pass does to the device and to the frames. -/
structure Effect (x y : Worked) (l : Loop) (ws : List (Nat × Image)) (mark : Option Pick) :
    Prop where
  disk : y.cache.disk = applyWrites x.cache.disk ws
  eligible : ∀ w ∈ ws, ∃ c ∈ l.eligible, w = (c.1.blockNo, c.2)
  dirty : ∀ f, (y.cache.frames f).dirty = ((x.cache.frames f).dirty &&
    !mark.any fun p => decide (p.f = f ∧ (x.cache.frames f).version = p.version))
  history : ∀ l', y.loop = some l' → l'.marked = l.marked ++ mark.toList ∧
    (l'.placed = l.placed ++ ws ∨ ∃ k, l'.at_ = .unwind k)
  ended : y.loop = none → ws = [] ∧ mark = none

theorem Effect.nothing {y : Worked} (hd : y.cache.disk = x.cache.disk)
    (hf : ∀ f, (y.cache.frames f).dirty = (x.cache.frames f).dirty)
    (hl : ∀ l', y.loop = some l' → l'.marked = l.marked ∧ l'.placed = l.placed) :
    Effect x y l [] none where
  disk := hd
  eligible := nofun
  dirty f := by
    rw [hf]
    exact (Bool.and_true _).symm
  history l' hl' := by
    obtain ⟨hm, hp⟩ := hl l' hl'
    exact ⟨hm.trans (List.append_nil _).symm, .inl (hp.trans (List.append_nil _).symm)⟩
  ended _ := ⟨rfl, rfl⟩

theorem Effect.goOn (x : Worked) (l l' : Loop) (hm : l'.marked = l.marked)
    (hr : l'.runs = l.runs) (behind : Behind) : Effect x (x.goOn l' behind) l [] none := by
  have hp : l'.placed = l.placed := by rw [Loop.placed, hr]; rfl
  cases behind with
  | copy => exact .nothing rfl (fun _ => rfl) fun _ he => by cases he; exact ⟨hm, hp⟩
  | drop => exact .nothing rfl (fun _ => rfl) fun _ he => by cases he; exact ⟨hm, hp⟩
  | done => exact .nothing rfl (fun _ => rfl) nofun

theorem dirty_unpin (s : State) (f g : FrameId) :
    ((s.unpin f).frames g).dirty = (s.frames g).dirty := by
  show (Function.update s.frames f _ g).dirty = _
  by_cases hg : g = f
  · rw [hg, Function.update_self]
  · rw [Function.update_of_ne hg]

theorem Worked.Kept.effect (h : x.Kept capacity faults init) {y : Worked}
    (hs : WStep capacity faults x y) (hl : x.loop = some l) :
    (∃ s, Step capacity faults x.cache s ∧ y = { x with cache := s }) ∨
      ∃ ws mark, Effect x y l ws mark := by
  cases hs with
  | other hs _ => exact .inl ⟨_, hs, rfl⟩
  | start max hl' => exact absurd (hl.symm.trans hl') nofun
  | pick i hl' hat hi hlen =>
    cases hl.symm.trans hl'
    exact .inr ⟨[], none, .nothing rfl (fun _ => rfl) fun _ he => by cases he; exact ⟨rfl, rfl⟩⟩
  | sort i hl' hat hi =>
    cases hl.symm.trans hl'
    exact .inr ⟨[], none, .nothing rfl (fun _ => rfl) fun _ he => by cases he; exact ⟨rfl, rfl⟩⟩
  | next p hl' hat hp =>
    cases hl.symm.trans hl'
    exact .inr ⟨[], none, .nothing rfl (fun _ => rfl) fun _ he => by cases he; exact ⟨rfl, rfl⟩⟩
  | last hl' hat hlen =>
    cases hl.symm.trans hl'
    exact .inr ⟨[], none, .nothing rfl (fun _ => rfl) fun _ he => by cases he; exact ⟨rfl, rfl⟩⟩
  | copy p hl' hat hp hlock =>
    cases hl.symm.trans hl'
    exact .inr ⟨[], none, .nothing rfl (fun _ => rfl) fun _ he => by cases he; exact ⟨rfl, rfl⟩⟩
  | check p hl' hat hp =>
    cases hl.symm.trans hl'
    exact .inr ⟨[], none, .nothing rfl (fun _ => rfl) fun _ he => by cases he; exact ⟨rfl, rfl⟩⟩
  | flushEmpty behind hl' hat hlen =>
    cases hl.symm.trans hl'
    exact .inr ⟨[], none, .goOn x l l rfl rfl behind⟩
  | flush behind p hl' hat hlen hp =>
    cases hl.symm.trans hl'
    refine .inr ⟨BufferCache.placed p.blockNo l.bytes, none, rfl,
      h.run_eligible hl hat hlen hp, fun f => (Bool.and_true _).symm, fun l' he => ?_, nofun⟩
    cases he
    refine ⟨(List.append_nil _).symm, .inl ?_⟩
    show (l.runs ++ [(p.blockNo, l.bytes)]).flatMap _ = _
    rw [List.flatMap_append, List.flatMap_singleton]
    rfl
  | flushFails behind p n hf hl' hat hlen hp =>
    cases hl.symm.trans hl'
    refine .inr ⟨BufferCache.placed p.blockNo (l.bytes.take n), none, rfl, fun w hw => ?_,
      fun f => (Bool.and_true _).symm, fun l' he => ?_, nofun⟩
    · rw [placed_take] at hw
      exact h.run_eligible hl hat hlen hp w (List.mem_of_mem_take hw)
    · cases he
      exact ⟨(List.append_nil _).symm, .inr ⟨_, rfl⟩⟩
  | mark k behind p hl' hat hk hp =>
    cases hl.symm.trans hl'
    refine .inr ⟨[], some p, rfl, nofun, fun f => ?_, fun l' he => ?_, nofun⟩
    · show (Function.update x.cache.frames p.f _ f).dirty = _
      by_cases hf : f = p.f
      · subst hf
        rw [Function.update_self]
        cases hv : decide ((x.cache.frames p.f).version = p.version) <;>
          cases hd : (x.cache.frames p.f).dirty <;> simp_all
      · rw [Function.update_of_ne hf]
        simp [Ne.symm hf]
    · cases he
      exact ⟨rfl, .inl (List.append_nil _).symm⟩
  | marked k behind hl' hat hk =>
    cases hl.symm.trans hl'
    exact .inr ⟨[], none, .goOn x l { l with runLen := 0 } rfl rfl behind⟩
  | drop p hl' hat hp =>
    cases hl.symm.trans hl'
    exact .inr ⟨[], none, .nothing rfl (fun f => dirty_unpin _ _ f) fun _ he => by
      cases he; exact ⟨rfl, rfl⟩⟩
  | unwind k p hl' hat hp =>
    cases hl.symm.trans hl'
    exact .inr ⟨[], none, .nothing rfl (fun f => dirty_unpin _ _ f) fun _ he => by
      cases he; exact ⟨rfl, rfl⟩⟩
  | throw k hl' hat hk => exact .inr ⟨[], none, .nothing rfl (fun _ => rfl) nofun⟩

end Follow

/-! ## While nothing is modified -/

/-- A call that changes no block. -/
def Call.reads : Call → Prop
  | .hit op _ _ | .load op _ _ | .loaded op _ _ | .failed op _ _ => op = .read
  | .finish _ _ => False
  | .unpin _ | .copy _ => True

/-- No frame is in the transaction, and every commit is durable. -/
def Settled (s : State) : Prop :=
  ∀ f, (s.frames f).inTxn = false ∧ (s.frames f).lsn ≤ s.durable

/-- A frame that is dirty now was so before, with the same block and the same changes. -/
def Frame.Calm (g g' : Frame) : Prop :=
  g'.mapped = true → g'.dirty = true →
    g.mapped = true ∧ g.dirty = true ∧ g'.blockNo = g.blockNo ∧ g'.version = g.version

/-- What a step does while nothing is modified. -/
structure Calm (s s' : State) : Prop where
  settled : Settled s'
  count : s.count ≤ s'.count
  frames : ∀ f, (s.frames f).Calm (s'.frames f)

section Calm

variable {capacity : Nat} {faults : Bool} {s s' : State} {f : FrameId} {g : Frame}

theorem Frame.Calm.refl (g : Frame) : g.Calm g := fun hm hd => ⟨hm, hd, rfl, rfl⟩

theorem Calm.same (hs : Settled s) (hf : s'.frames = s.frames) (hc : s'.count = s.count)
    (hd : s'.durable = s.durable) : Calm s s' where
  settled f := by
    rw [hf, hd]
    exact hs f
  count := Nat.le_of_eq hc.symm
  frames f := by
    rw [hf]
    exact .refl _

/-- One frame changes. -/
theorem Calm.update (hs : Settled s) (hf : s'.frames = Function.update s.frames f g)
    (hc : s'.count = s.count) (hd : s'.durable = s.durable) (ht : g.inTxn = false)
    (hlsn : g.lsn ≤ s.durable) (hg : (s.frames f).Calm g) : Calm s s' where
  settled x := by
    rw [hf, hd]
    by_cases hx : x = f
    · rw [hx, Function.update_self]
      exact ⟨ht, hlsn⟩
    · rw [Function.update_of_ne hx]
      exact hs x
  count := Nat.le_of_eq hc.symm
  frames x := by
    rw [hf]
    by_cases hx : x = f
    · rw [hx, Function.update_self]
      exact hg
    · rw [Function.update_of_ne hx]
      exact .refl _

theorem unmap_count (s : State) (f : FrameId) : (s.unmap f).count = s.count := by
  rw [State.unmap]
  split <;> rfl

theorem unmap_durable (s : State) (f : FrameId) : (s.unmap f).durable = s.durable := by
  rw [State.unmap]
  split <;> rfl

theorem takeFrame_count (s : State) (capacity i : Nat) :
    s.count ≤ (s.takeFrame capacity i).1.count ∧
      (s.takeFrame capacity i).1.durable = s.durable := by
  rw [State.takeFrame]
  split
  · exact ⟨Nat.le_succ _, rfl⟩
  · split
    · rw [unmap_count, unmap_durable]
      exact ⟨Nat.le_refl _, rfl⟩
    · rw [unmap_count, unmap_durable]
      exact ⟨Nat.le_refl _, rfl⟩
    · exact ⟨Nat.le_succ _, rfl⟩

theorem Step.calm (h : Step capacity faults s s') (hp : s.pass = none) (hp' : s'.pass = none)
    (hr : ∀ c ∈ s.calls, c.reads) (hr' : ∀ c ∈ s'.calls, c.reads) (hs : Settled s) : Calm s s' := by
  have head : ∀ {c rest}, s.calls = c ::ₘ rest → c.reads := fun hc =>
    hr _ (by rw [hc]; exact Multiset.mem_cons_self ..)
  cases h with
  | hit op b f hb =>
    have hop : op = .read := hr' (.hit op b f) (Multiset.mem_cons_self ..)
    subst hop
    refine .update hs rfl rfl rfl ?_ (hs f).2 (.refl _)
    show ((s.frames f).inTxn || false) = false
    rw [(hs f).1]
    rfl
  | miss op b hb =>
    have hop : op = .read := hr' (.load op b _) (Multiset.mem_cons_self ..)
    subst hop
    obtain ⟨hcount, hdurable⟩ := takeFrame_count s capacity (shardFor b)
    refine ⟨fun x => ?_, hcount, fun x => ?_⟩
    · show (Function.update (_ : FrameId → Frame) _ _ x).inTxn = false ∧
        (Function.update (_ : FrameId → Frame) _ _ x).lsn ≤
          (s.takeFrame capacity (shardFor b)).1.durable
      by_cases hx : x = (s.takeFrame capacity (shardFor b)).2
      · rw [hx, Function.update_self]
        exact ⟨rfl, Nat.zero_le _⟩
      · rw [Function.update_of_ne hx, takeFrame_of_ne s capacity _ hx, hdurable]
        exact hs x
    · show (s.frames x).Calm (Function.update (_ : FrameId → Frame) _ _ x)
      by_cases hx : x = (s.takeFrame capacity (shardFor b)).2
      · rw [hx, Function.update_self]
        exact fun _ hd => absurd hd nofun
      · rw [Function.update_of_ne hx, takeFrame_of_ne s capacity _ hx]
        exact .refl _
  | modifyHit fresh inTxn fn b f rest hc => exact absurd (head hc) nofun
  | modifyLoaded fresh inTxn fn b f rest hc => exact absurd (head hc) nofun
  | finishModify inTxn f rest hc => exact absurd (head hc) id
  | commitFrame b f lsn _ ht => exact absurd ((hs f).1.symm.trans ht) nofun
  | load op b f rest hc => exact .update hs rfl rfl rfl (hs f).1 (hs f).2 (.refl _)
  | loadFails op b f junk rest _ hc => exact .update hs rfl rfl rfl (hs f).1 (hs f).2 (.refl _)
  | unmapFailed op b f rest hc => exact .update hs rfl rfl rfl rfl (hs f).2 nofun
  | readLoaded b f rest hc => exact .update hs rfl rfl rfl (hs f).1 (hs f).2 (.refl _)
  | unpin f rest hc => exact .update hs rfl rfl rfl (hs f).1 (hs f).2 (.refl _)
  | copyTxnFrame b f hb _ => exact .update hs rfl rfl rfl (hs f).1 (hs f).2 (.refl _)
  | durable lsn hd =>
    exact ⟨fun f => ⟨(hs f).1, Nat.le_trans (hs f).2 hd⟩, Nat.le_refl _, fun _ => .refl _⟩
  | missFails | readHit | throwHit | copied => exact .same hs rfl rfl rfl
  | passStart max _ => cases hp'
  | passPick q i hq | passSort q i hq | passNext q r rs hq | passLast q hq | passCopy q r hq
  | passCheck q r img hq | passWrite q next hq | passWriteFails q next n _ hq
  | passMark q c cs next hq | passMarked q next hq | passDrop q r hq | passUnwind q r rs hq
  | passThrow q hq => exact absurd (hp.symm.trans hq) nofun

end Calm

section Cover

variable {capacity : Nat} {faults : Bool} {init : Nat → Block} {x y : Worked} {l l' : Loop}

theorem WStep.calm (h : WStep capacity faults x y) (hp : x.cache.pass = none)
    (hr : ∀ c ∈ x.cache.calls, c.reads) (hr' : ∀ c ∈ y.cache.calls, c.reads)
    (hs : Settled x.cache) : Calm x.cache y.cache := by
  have goOn : ∀ l behind, (x.goOn l behind).cache = x.cache := fun l behind => by
    cases behind <;> rfl
  cases h with
  | other h hp' => exact h.calm hp hp' hr hr' hs
  | pick i hl hat hi hlen => exact ⟨hs, Nat.le_refl _, fun _ => .refl _⟩
  | mark k behind p hl hat hk hp' =>
    refine .update hs rfl rfl rfl (hs p.f).1 (hs p.f).2 fun hm hd => ⟨hm, ?_, rfl, rfl⟩
    rw [Bool.and_eq_true] at hd
    exact hd.1
  | drop p hl hat hp' => exact .update hs rfl rfl rfl (hs p.f).1 (hs p.f).2 (.refl _)
  | unwind k p hl hat hp' => exact .update hs rfl rfl rfl (hs p.f).1 (hs p.f).2 (.refl _)
  | flushEmpty behind hl hat hlen =>
    rw [goOn]
    exact .same hs rfl rfl rfl
  | marked k behind hl hat hk =>
    rw [goOn]
    exact .same hs rfl rfl rfl
  | start | sort | next | last | copy | check | flush | flushFails | throw =>
    exact .same hs rfl rfl rfl

/-- A pass is about to leave a pick out. -/
def Loop.Dropping (l : Loop) : Prop :=
  l.at_ = .drop ∨ l.at_ = .flush .drop ∨ ∃ k, l.at_ = .mark k .drop

/-- Every dirty frame will be picked, or is picked and will be marked, unless a write has failed. -/
def Covers (s : State) (l : Loop) : Prop :=
  (∃ k, l.at_ = .unwind k) ∨ ¬ l.Dropping ∧
    ∀ f, (s.frames f).mapped = true → (s.frames f).dirty = true →
      (∃ i, l.at_ = .pick i ∧ i ≤ shardFor (s.frames f).blockNo) ∨
        ∃ p ∈ l.picks.drop l.returned.length, p.f = f ∧ p.version = (s.frames f).version

/-- The pass goes on with the same picks. -/
theorem Covers.same {s s' : State} (h : Covers s l) (hc : Calm s s')
    (hunwind : ∀ k, l.at_ ≠ .unwind k) (hpick : ∀ i, l.at_ ≠ .pick i) (hd : ¬ l'.Dropping)
    (hpicks : l'.picks = l.picks) (hret : l'.returned = l.returned) : Covers s' l' := by
  rcases h with ⟨k, hk⟩ | ⟨-, h⟩
  · exact absurd hk (hunwind k)
  · refine .inr ⟨hd, fun f hm hdirty => .inr ?_⟩
    obtain ⟨hm', hd', -, hv⟩ := hc.frames f hm hdirty
    rcases h f hm' hd' with ⟨i, hi, -⟩ | hp
    · exact absurd hi (hpick i)
    · rw [hpicks, hret, hv]
      exact hp

/-- What has been picked is never more than there are frames. -/
theorem Worked.Kept.picks_length (h : x.Kept capacity faults init) {i : Nat} (hl : x.loop = some l)
    (hat : l.at_ = .pick i) (max : Nat) :
    (l.picks ++ x.cache.pickFrom i max l.picks.length).length ≤ x.cache.count := by
  obtain ⟨P, hrun, hv, ht⟩ := h.busy hl
  rw [Loop.View, hat] at hv
  obtain ⟨rfl, -⟩ := hv
  obtain ⟨hshard, hnodup⟩ := ht.picking i hat
  have hs := hrun.shape
  have held : ∀ q ∈ l.picks ++ x.cache.pickFrom i max l.picks.length,
      q.f < x.cache.count ∧ q.blockNo = (x.cache.frames q.f).blockNo := by
    intro q hq
    rcases List.mem_append.mp hq with hq | hq
    · obtain ⟨hlt, hok⟩ := hs.held q hq
      exact ⟨hlt, hok.2.symm⟩
    · obtain ⟨hlru, -, -, -, hb, -⟩ := Shape.mem_pickFrom hq
      exact ⟨hs.place.lt i _ ((hs.place.listed i).mem_iff.mp hlru), hb⟩
  have hblocks : ((l.picks ++ x.cache.pickFrom i max l.picks.length).map Pick.blockNo).Nodup :=
    nodup_picks hs hshard hnodup max l.picks.length
  generalize l.picks ++ x.cache.pickFrom i max l.picks.length = qs at held hblocks ⊢
  -- frames of different blocks are different frames
  have hframes : (qs.map Pick.f).Nodup := by
    refine List.Nodup.of_map (fun f => (x.cache.frames f).blockNo) ?_
    rw [List.map_map]
    rwa [List.map_congr_left fun q hq => (held q hq).2] at hblocks
  have hsub : qs.map Pick.f ⊆ List.range x.cache.count := by
    intro f hf
    obtain ⟨q, hq, rfl⟩ := List.mem_map.mp hf
    exact List.mem_range.mpr (held q hq).1
  have hle := (hframes.subperm hsub).length_le
  rwa [List.length_map, List.length_range] at hle

/-- A dirty frame of the shard is picked, if nothing stops the picking. -/
theorem Worked.Kept.picks_frame (h : x.Kept capacity faults init) {i : Nat} (hl : x.loop = some l)
    (hat : l.at_ = .pick i) (hset : Settled x.cache) (hcount : x.cache.count < l.max)
    {f : FrameId} (hm : (x.cache.frames f).mapped = true) (hd : (x.cache.frames f).dirty = true)
    (hi : shardFor (x.cache.frames f).blockNo = i) :
    ∃ q ∈ x.cache.pickFrom i l.max l.picks.length, q.f = f ∧
      q.version = (x.cache.frames f).version := by
  obtain ⟨P, hrun, -, -⟩ := h.busy hl
  have hs := hrun.shape
  have hlru : f ∈ x.cache.lru i := by
    have hlt : f < x.cache.count := by
      by_contra hlt
      have hnew : x.cache.frames f = .new := hs.place.new f (Nat.le_of_not_lt hlt)
      rw [hnew] at hm
      cases hm
    have hmap : x.cache.map (x.cache.frames f).blockNo = some f :=
      (hs.place.maps _ f).mpr ⟨hlt, hm, rfl⟩
    have hhome := hs.place.home _ f hmap
    rw [hi] at hhome
    exact (hs.place.listed i).mem_iff.mpr hhome
  generalize hfit : ((x.cache.lru i).reverse.filter fun f =>
    (x.cache.frames f).mapped && (x.cache.frames f).dirty && x.cache.mayWrite f) = fit
  have hmem : f ∈ fit := by
    rw [← hfit, List.mem_filter, List.mem_reverse, hm, hd, State.mayWrite, (hset f).1]
    exact ⟨hlru, decide_eq_true (hset f).2⟩
  have hroom : l.picks.length + fit.length ≤ x.cache.count := by
    have := h.picks_length hl hat (l.picks.length + fit.length)
    rwa [State.pickFrom, hfit, Nat.add_sub_cancel_left, List.take_length, List.length_append,
      List.length_map] at this
  refine ⟨⟨f, i, (x.cache.frames f).blockNo, (x.cache.frames f).version⟩, ?_, rfl, rfl⟩
  rw [State.pickFrom, hfit, List.take_of_length_le (by omega)]
  exact List.mem_map.mpr ⟨f, hmem, rfl⟩

/-- What a step makes of a pass that covers every dirty frame. -/
inductive Reached (x y : Worked) (l : Loop) : Prop where
  | under (l' : Loop) : y.loop = some l' → y.ended = x.ended → l'.max = l.max →
      Covers y.cache l' → Reached x y l
  | ended (l' : Loop) (n : Nat) : y.ended = x.ended ++ [(l', some n)] →
      (∀ f, (y.cache.frames f).mapped = true → (y.cache.frames f).dirty = false) → Reached x y l
  | failed (l' : Loop) : y.ended = x.ended ++ [(l', none)] → Reached x y l

theorem Reached.goOn {l₀ : Loop} {behind : Behind}
    (hy : (x.goOn l₀ behind).Kept capacity faults init) (hcov : Covers x.cache l)
    (hset : Settled x.cache) (hb : behind ≠ .drop) (hunwind : ∀ k, l.at_ ≠ .unwind k)
    (hpick : ∀ i, l.at_ ≠ .pick i) (hmax : l₀.max = l.max) (hpicks : l₀.picks = l.picks)
    (hret : l₀.returned = l.returned) : Reached x (x.goOn l₀ behind) l := by
  cases behind with
  | copy =>
    refine .under _ rfl rfl hmax (hcov.same (.same hset rfl rfl rfl) hunwind hpick ?_ hpicks hret)
    rintro (h | h | ⟨k, h⟩) <;> cases h
  | drop => exact absurd rfl hb
  | done =>
    have hreport := hy.ended (l₀, some l₀.written)
      (List.mem_append_right _ (List.mem_singleton_self _))
    refine .ended l₀ l₀.written rfl fun f hm => ?_
    by_contra hd
    rw [Bool.not_eq_false] at hd
    rcases hcov with ⟨k, hk⟩ | ⟨-, hcov⟩
    · exact hunwind k hk
    · rcases hcov f hm hd with ⟨i, hi, -⟩ | ⟨p, hp, -⟩
      · exact hpick i hi
      · rw [← hret, hreport.returned, hpicks, List.drop_length] at hp
        cases hp

theorem Worked.Kept.returned_nil (h : x.Kept capacity faults init) {i : Nat}
    (hl : x.loop = some l) (hat : l.at_ = .pick i) : l.returned = [] := by
  obtain ⟨P, -, hv, -⟩ := h.busy hl
  rw [Loop.View, hat] at hv
  exact hv.2.2.2.2

theorem Worked.Kept.mark_index (h : x.Kept capacity faults init) {k : Nat} {behind : Behind}
    (hl : x.loop = some l) (hat : l.at_ = .mark k behind) : k = l.returned.length := by
  obtain ⟨P, -, hv, -⟩ := h.busy hl
  rw [Loop.View, hat] at hv
  obtain ⟨next, todo, rest, -, -, hk, -⟩ := hv
  exact hk

theorem Worked.Kept.cover (h : x.Kept capacity faults init) (hs : WStep capacity faults x y)
    (hl : x.loop = some l) (hcov : Covers x.cache l) (hset : Settled x.cache)
    (hcalm : Calm x.cache y.cache) (hcount : x.cache.count < l.max) : Reached x y l := by
  have hy := h.step hs
  have nodrop : ∀ {at_ : Point}, at_ ≠ .drop → at_ ≠ .flush .drop → (∀ k, at_ ≠ .mark k .drop) →
      ¬ Loop.Dropping { l with at_ := at_ } := by
    rintro at_ h1 h2 h3 (hd | hd | ⟨k, hd⟩)
    · exact h1 hd
    · exact h2 hd
    · exact h3 k hd
  have notDrop : (∀ k, l.at_ ≠ .unwind k) → ¬ l.Dropping := fun hu =>
    (hcov.resolve_left fun ⟨k, hk⟩ => hu k hk).1
  cases hs with
  | other hs hp =>
    refine .under l hl rfl rfl ?_
    rcases hcov with hk | ⟨hd, hcov⟩
    · exact .inl hk
    · refine .inr ⟨hd, fun f hm hdirty => ?_⟩
      obtain ⟨hm', hd', hb, hv⟩ := hcalm.frames f hm hdirty
      replace hb : (_ : Frame).blockNo = (x.cache.frames f).blockNo := hb
      rw [hb, hv]
      exact hcov f hm' hd'
  | start max hl' => exact absurd (hl.symm.trans hl') nofun
  | pick i hl' hat hi hlen =>
    cases hl.symm.trans hl'
    have hret := h.returned_nil hl hat
    refine .under _ rfl rfl rfl (.inr ⟨?_, fun f hm hdirty => ?_⟩)
    · rintro (h | h | ⟨k, h⟩) <;> cases h
    · obtain ⟨-, hcov⟩ := hcov.resolve_left (by simp [hat])
      rcases hcov f hm hdirty with ⟨j, hj, hle⟩ | ⟨p, hp, hpf⟩
      · rw [hat] at hj
        cases hj
        rcases Nat.eq_or_lt_of_le hle with he | hlt
        · -- it is the turn of the frame's shard
          obtain ⟨q, hq, hqf⟩ := h.picks_frame hl hat hset hcount hm hdirty he.symm
          refine .inr ⟨q, ?_, hqf⟩
          show q ∈ List.drop l.returned.length _
          rw [hret]
          exact List.mem_append_right _ hq
        · exact .inl ⟨i + 1, rfl, hlt⟩
      · refine .inr ⟨p, ?_, hpf⟩
        show p ∈ List.drop l.returned.length _
        rw [hret] at hp ⊢
        exact List.mem_append_left _ hp
  | sort i hl' hat hi =>
    cases hl.symm.trans hl'
    have hret := h.returned_nil hl hat
    have hlen := h.picks_length hl hat 0
    rw [List.length_append] at hlen
    refine .under _ rfl rfl rfl (.inr ⟨?_, fun f hm hdirty => .inr ?_⟩)
    · rintro (h | h | ⟨k, h⟩) <;> cases h
    · obtain ⟨-, hcov⟩ := hcov.resolve_left (by simp [hat])
      rcases hcov f hm hdirty with ⟨j, hj, hle⟩ | ⟨p, hp, hpf⟩
      · -- every shard has had its turn
        rw [hat] at hj
        cases hj
        have hlt : shardFor (x.cache.frames f).blockNo < shards := Nat.mod_lt _ (by decide)
        exact absurd ⟨Nat.lt_of_le_of_lt hle hlt, by omega⟩ hi
      · refine ⟨p, ?_, hpf⟩
        show p ∈ List.drop l.returned.length _
        rw [hret] at hp ⊢
        exact (List.mergeSort_perm l.picks _).mem_iff.mpr hp
  | next p hl' hat hp =>
    cases hl.symm.trans hl'
    refine .under _ rfl rfl rfl (hcov.same hcalm (by simp [hat]) (by simp [hat]) ?_ rfl rfl)
    cases l.joinsRun p <;> exact nodrop nofun nofun nofun
  | last hl' hat hlen =>
    cases hl.symm.trans hl'
    exact .under _ rfl rfl rfl (hcov.same hcalm (by simp [hat]) (by simp [hat])
      (nodrop nofun nofun nofun) rfl rfl)
  | copy p hl' hat hp hlock =>
    cases hl.symm.trans hl'
    refine .under _ rfl rfl rfl (hcov.same hcalm (by simp [hat]) (by simp [hat]) ?_ rfl rfl)
    rintro (h | h | ⟨k, h⟩) <;> cases h
  | check p hl' hat hp =>
    cases hl.symm.trans hl'
    have hmay : x.cache.mayWrite p.f = true := by
      rw [State.mayWrite, (hset p.f).1]
      exact decide_eq_true (hset p.f).2
    rw [hmay]
    refine .under _ rfl rfl rfl (hcov.same hcalm (by simp [hat]) (by simp [hat]) ?_ rfl rfl)
    rintro (h | h | ⟨k, h⟩) <;> cases h
  | flushEmpty behind hl' hat hlen =>
    cases hl.symm.trans hl'
    refine .goOn hy hcov hset ?_ (by simp [hat]) (by simp [hat]) rfl rfl rfl
    rintro rfl
    exact notDrop (by simp [hat]) (.inr (.inl hat))
  | flush behind p hl' hat hlen hp =>
    cases hl.symm.trans hl'
    refine .under _ rfl rfl rfl (hcov.same hcalm (by simp [hat]) (by simp [hat]) ?_ rfl rfl)
    rintro (h | h | ⟨k, h⟩) <;> cases h
    exact notDrop (by simp [hat]) (.inr (.inl hat))
  | flushFails behind p n hf hl' hat hlen hp =>
    cases hl.symm.trans hl'
    exact .under _ rfl rfl rfl (.inl ⟨_, rfl⟩)
  | mark k behind p hl' hat hk hp =>
    cases hl.symm.trans hl'
    have hkr := h.mark_index hl hat
    refine .under _ rfl rfl rfl (.inr ⟨?_, fun f hm hdirty => .inr ?_⟩)
    · rintro (h | h | ⟨j, h⟩) <;> cases h
      exact notDrop (by simp [hat]) (.inr (.inr ⟨k, hat⟩))
    · obtain ⟨hm', hd', -, hv⟩ := hcalm.frames f hm hdirty
      obtain ⟨-, hcov⟩ := hcov.resolve_left (by simp [hat])
      obtain ⟨q, hq, rfl, hqv⟩ := (hcov f hm' hd').resolve_left (by simp [hat])
      obtain ⟨hklt, hpk⟩ := List.getElem?_eq_some_iff.mp hp
      rw [← hkr, List.drop_eq_getElem_cons hklt, hpk] at hq
      rcases List.mem_cons.mp hq with rfl | hq
      · -- the frame that is marked has not changed since
        replace hdirty : (Function.update x.cache.frames q.f _ q.f).dirty = true := hdirty
        rw [Function.update_self, hqv] at hdirty
        simp at hdirty
      · refine ⟨q, ?_, rfl, hqv.trans hv.symm⟩
        show q ∈ l.picks.drop (l.returned ++ [p]).length
        rw [List.length_append, List.length_singleton, ← hkr]
        exact hq
  | marked k behind hl' hat hk =>
    cases hl.symm.trans hl'
    refine .goOn hy hcov hset ?_ (by simp [hat]) (by simp [hat]) rfl rfl rfl
    rintro rfl
    exact notDrop (by simp [hat]) (.inr (.inr ⟨k, hat⟩))
  | drop p hl' hat hp =>
    cases hl.symm.trans hl'
    exact absurd (.inl hat) (notDrop (by simp [hat]))
  | unwind k p hl' hat hp =>
    cases hl.symm.trans hl'
    exact .under _ rfl rfl rfl (.inl ⟨_, rfl⟩)
  | throw k hl' hat hk => exact .failed _ rfl

/-- Steps while no call modifies a block. -/
inductive Undisturbed (capacity : Nat) (faults : Bool) : Worked → Worked → Prop where
  | refl (x : Worked) : Undisturbed capacity faults x x
  | step {x y z : Worked} : Undisturbed capacity faults x y → WStep capacity faults y z →
      (∀ c ∈ z.cache.calls, c.reads) → Undisturbed capacity faults x z

/-- How a `write_back` of everything stands. -/
inductive Flushing (max : Nat) (x y : Worked) : Prop where
  | under (l : Loop) : y.loop = some l → y.ended = x.ended → l.max = max → Covers y.cache l →
      Flushing max x y
  | clean : (∀ f, (y.cache.frames f).mapped = true → (y.cache.frames f).dirty = false) →
      Flushing max x y
  | failed (l : Loop) (more : List (Loop × Option Nat)) :
      y.ended = x.ended ++ (l, none) :: more → Flushing max x y

/-- Passes that have ended stay so. -/
theorem WStep.ended (h : WStep capacity faults x y) : ∃ more, y.ended = x.ended ++ more := by
  have goOn : ∀ l behind, ∃ more, (x.goOn l behind).ended = x.ended ++ more := by
    intro l behind
    cases behind with
    | copy => exact ⟨[], (List.append_nil _).symm⟩
    | drop => exact ⟨[], (List.append_nil _).symm⟩
    | done => exact ⟨[_], rfl⟩
  cases h with
  | flushEmpty behind _ _ _ => exact goOn _ behind
  | marked k behind _ _ _ => exact goOn _ behind
  | throw k _ _ _ => exact ⟨[_], rfl⟩
  | other | start | pick | sort | next | last | copy | check | flush | flushFails | mark | drop
  | unwind => exact ⟨[], (List.append_nil _).symm⟩

theorem Undisturbed.settled (h : Undisturbed capacity faults x y)
    (hx : x.Kept capacity faults init) (hr : ∀ c ∈ x.cache.calls, c.reads)
    (hset : Settled x.cache) :
    y.Kept capacity faults init ∧ (∀ c ∈ y.cache.calls, c.reads) ∧ Settled y.cache := by
  induction h with
  | refl => exact ⟨hx, hr, hset⟩
  | step _ hs hrz ih =>
    obtain ⟨hy, hry, hsety⟩ := ih
    exact ⟨hy.step hs, hrz, (hs.calm hy.free hry hrz hsety).settled⟩

theorem Undisturbed.flushing (h : Undisturbed capacity faults x y) {max : Nat}
    (hx : x.Kept capacity faults init) (hl : x.loop = some (.start max))
    (hr : ∀ c ∈ x.cache.calls, c.reads) (hset : Settled x.cache) (hcount : y.cache.count < max) :
    Flushing max x y := by
  induction h with
  | refl =>
    refine .under _ hl rfl rfl (.inr ⟨?_, fun f _ _ => .inl ⟨0, rfl, Nat.zero_le _⟩⟩)
    rintro (h | h | ⟨k, h⟩) <;> cases h
  | @step y z hxy hs hrz ih =>
    obtain ⟨hy, hry, hsety⟩ := hxy.settled hx hr hset
    have hcalm := hs.calm hy.free hry hrz hsety
    have hcounty := Nat.lt_of_le_of_lt hcalm.count hcount
    cases ih hcounty with
    | under l hly hended hmax hcov =>
      cases hy.cover hs hly hcov hsety hcalm (hmax ▸ hcounty) with
      | under l' hlz he hm hcovz => exact .under l' hlz (he.trans hended) (hm.trans hmax) hcovz
      | ended l' n _ hclean => exact .clean hclean
      | failed l' he => exact .failed l' [] (by rw [he, hended])
    | clean hclean =>
      refine .clean fun f hm => ?_
      by_contra hd
      rw [Bool.not_eq_false] at hd
      obtain ⟨hm', hd', -⟩ := hcalm.frames f hm hd
      exact absurd ((hclean f hm').symm.trans hd') nofun
    | failed l more he =>
      obtain ⟨more', he'⟩ := hs.ended
      exact .failed l (more ++ more') (by rw [he', he, List.append_assoc]; rfl)

end Cover

/-- `write_back` writes the right bytes once, and gives its pins back.  While it is under way it has
    the pins of the picks it is not done with, each of its steps hands the device blocks that may be
    written and marks clean what was written and has not changed; how it ends is said by `Report`.
    When it is to write everything back, nothing is in the transaction, nothing is being modified
    and every commit is durable, no dirty frame is left. -/
theorem write_back_right {capacity : Nat} {faults : Bool} {init : Nat → Block} {x : Worked}
    (h : WRun capacity faults init x) :
    (∀ r ∈ x.ended, Report r.1 r.2) ∧
    (∀ f, (x.cache.frames f).pins = x.cache.calls.countP (fun c => c.frame = f) +
      (x.loop.elim [] fun l => (l.picks.drop l.returned.length).map Pick.f).count f) ∧
    (∀ l y, x.loop = some l → WStep capacity faults x y →
      (∃ s, Step capacity faults x.cache s ∧ y = { x with cache := s }) ∨
        ∃ ws mark, Effect x y l ws mark) ∧
    ∀ max y, x.loop = none → (∀ c ∈ x.cache.calls, c.reads) → Settled x.cache →
      Undisturbed capacity faults { x with loop := some (.start max) } y → y.cache.count < max →
      ∀ l n more, y.ended = x.ended ++ (l, some n) :: more →
        ∀ f, (y.cache.frames f).mapped = true → (y.cache.frames f).dirty = false := by
  have hk := h.kept
  refine ⟨hk.ended, fun f => ?_, fun l y hl hs => hk.effect hs hl,
    fun max y hl hr hset hxy hcount l n more hended f hm => ?_⟩
  · obtain ⟨P, hrun, hf⟩ := hk.follows
    have hp := hrun.shape.pinned f
    generalize hlo : x.loop = lo at hf ⊢
    cases hf with
    | idle => exact hp
    | @busy l p hv _ =>
      refine hp.trans ?_
      show _ + (p.held.map Pick.f).count f =
        _ + ((l.picks.drop l.returned.length).map Pick.f).count f
      rw [hv.held, List.drop_left]
      rfl
  · cases hxy.flushing (hk.start hl max) rfl hr hset hcount with
    | under l' _ he _ _ =>
      have hlen : x.ended.length = (x.ended ++ (l, some n) :: more).length :=
        congrArg List.length (he.symm.trans hended)
      rw [List.length_append, List.length_cons] at hlen
      omega
    | clean hclean => exact hclean f hm
    | failed l' more' he =>
      have := List.append_cancel_left (he.symm.trans hended)
      cases this

/-- The cache once a block that it did not hold has been modified outside any transaction, in a
    shard with room for a frame. -/
def State.modified (s : State) (b : Nat) (fn : Block → Block) : State :=
  { s with
    frames := Function.update s.frames s.count
      { Frame.new with
        blockNo := b, mapped := true, dirty := true, version := 1
        data := ⟨fn (s.disk b).bytes, (s.disk b).mods⟩ }
    count := s.count + 1
    map := Function.update s.map b (some s.count)
    own := Function.update s.own (shardFor b) (s.own (shardFor b) ++ [s.count])
    lru := Function.update s.lru (shardFor b) (s.count :: s.lru (shardFor b))
    dirtyCount := s.dirtyCount + 1
    trace := s.trace ++ [.modify b false false (s.disk b).bytes (fn (s.disk b).bytes)] }

theorem WRun.modified {capacity : Nat} {faults : Bool} {init : Nat → Block} {s : State}
    (h : WRun capacity faults init ⟨s, none, []⟩) {b : Nat} (fn : Block → Block)
    (hb : s.map b = none) (hp : s.pass = none)
    (hroom : (s.own (shardFor b)).length < share capacity (shardFor b)) :
    WRun capacity faults init ⟨s.modified b fn, none, []⟩ := by
  have htake : s.takeFrame capacity (shardFor b) = s.newFrame (shardFor b) := if_pos hroom
  have h1 := h.step (.other (.miss (.modify false false fn) b hb) (by rw [htake]; exact hp))
  rw [htake] at h1
  have h2 := h1.step (.other (.load (.modify false false fn) b s.count s.calls rfl) hp)
  have h3 := h2.step (.other (.modifyLoaded false false fn b s.count s.calls rfl) hp)
  have h4 := h3.step (.other (.finishModify false s.count s.calls rfl) hp)
  refine cast ?_ h4
  congr 2
  simp [State.modified, State.finishModify, State.change, State.load, State.acquireMiss,
    State.newFrame, State.toFront, State.setFrame, Op.fresh, Op.inTxn, Frame.new]

/-- A cache that holds the dirty blocks 1, 2, 3 and 4. -/
def fourDirty : State :=
  let s := (State.empty (fun _ => Bytes.zero 4096) 0).modified 1 id
  ((s.modified 2 id).modified 3 id).modified 4 id

/-- Blocks 1 to 4 are picked.  1 and 2 go out in one write; 3 joins the transaction when it has been
    copied and is left out; 4 is written by itself. -/
theorem write_back_right_dropped : ∃ x : Worked, WRun 256 true (fun _ => Bytes.zero 4096) x ∧
    (∃ l, x.ended = [(l, some 3)] ∧ l.runs.map (fun r => (r.1, r.2.length)) = [(1, 2), (4, 1)] ∧
      Report l (some 3)) ∧
    (x.cache.frames 0).dirty = false ∧ (x.cache.frames 1).dirty = false ∧
    (x.cache.frames 2).dirty = true ∧ (x.cache.frames 3).dirty = false := by
  have r : WRun 256 true (fun _ => Bytes.zero 4096) _ := .empty 0
  have r := ((r.modified (b := 1) id rfl rfl (by decide)).modified (b := 2) id rfl rfl (by decide))
  have r := ((r.modified (b := 3) id rfl rfl (by decide)).modified (b := 4) id rfl rfl (by decide))
  have r : WRun 256 true _ ⟨fourDirty, none, []⟩ := r
  have r := r.step (.start 4 rfl)
  have r := r.step (.pick 0 rfl rfl (by decide) (by decide))
  have r : WRun 256 true _ ⟨fourDirty.pinAll [], some { Loop.start 4 with at_ := .pick 1 }, []⟩ := r
  have r := r.step (.pick 1 rfl rfl (by decide) (by decide))
  have r : WRun 256 true _ ⟨(fourDirty.pinAll []).pinAll [0],
    some { Loop.start 4 with picks := [⟨0, 1, 1, 1⟩], at_ := .pick 2 }, []⟩ := r
  have r := r.step (.pick 2 rfl rfl (by decide) (by decide))
  have r : WRun 256 true _ ⟨((fourDirty.pinAll []).pinAll [0]).pinAll [1],
    some { Loop.start 4 with picks := [⟨0, 1, 1, 1⟩, ⟨1, 2, 2, 1⟩], at_ := .pick 3 }, []⟩ := r
  have r := r.step (.pick 3 rfl rfl (by decide) (by decide))
  have r : WRun 256 true _ ⟨(((fourDirty.pinAll []).pinAll [0]).pinAll [1]).pinAll [2],
    some { Loop.start 4 with
      picks := [⟨0, 1, 1, 1⟩, ⟨1, 2, 2, 1⟩, ⟨2, 3, 3, 1⟩], at_ := .pick 4 }, []⟩ := r
  have r := r.step (.pick 4 rfl rfl (by decide) (by decide))
  have r : WRun 256 true _ ⟨((((fourDirty.pinAll []).pinAll [0]).pinAll [1]).pinAll [2]).pinAll [3],
    some { Loop.start 4 with
      picks := [⟨0, 1, 1, 1⟩, ⟨1, 2, 2, 1⟩, ⟨2, 3, 3, 1⟩, ⟨3, 4, 4, 1⟩], at_ := .pick 5 }, []⟩ := r
  have r := r.step (.sort 5 rfl rfl (by decide))
  rw [List.mergeSort_of_pairwise (by decide)] at r
  -- 1 and 2 make a run
  have r := r.step (.next ⟨0, 1, 1, 1⟩ rfl rfl rfl)
  have r := r.step (.flushEmpty .copy rfl rfl rfl)
  have r := r.step (.copy ⟨0, 1, 1, 1⟩ rfl rfl rfl rfl)
  have r := r.step (.check ⟨0, 1, 1, 1⟩ rfl rfl rfl)
  have r := r.step (.next ⟨1, 2, 2, 1⟩ rfl rfl rfl)
  have r := r.step (.copy ⟨1, 2, 2, 1⟩ rfl rfl rfl rfl)
  have r := r.step (.check ⟨1, 2, 2, 1⟩ rfl rfl rfl)
  -- 3 is left out
  have r := r.step (.next ⟨2, 3, 3, 1⟩ rfl rfl rfl)
  have r := r.step (.copy ⟨2, 3, 3, 1⟩ rfl rfl rfl rfl)
  have r := r.step (.other (.hit (.modify false true id) 3 2 rfl) rfl)
  have r := r.step (.check ⟨2, 3, 3, 1⟩ rfl rfl rfl)
  have r := r.step (.flush .drop ⟨0, 1, 1, 1⟩ rfl rfl (by decide) rfl)
  have r := r.step (.mark 0 .drop ⟨0, 1, 1, 1⟩ rfl rfl (by decide) rfl)
  have r := r.step (.mark 1 .drop ⟨1, 2, 2, 1⟩ rfl rfl (by decide) rfl)
  have r := r.step (.marked 2 .drop rfl rfl (by decide))
  have r := r.step (.drop ⟨2, 3, 3, 1⟩ rfl rfl rfl)
  -- 4 is the next run
  have r := r.step (.next ⟨3, 4, 4, 1⟩ rfl rfl rfl)
  have r := r.step (.flushEmpty .copy rfl rfl rfl)
  have r := r.step (.copy ⟨3, 4, 4, 1⟩ rfl rfl rfl rfl)
  have r := r.step (.check ⟨3, 4, 4, 1⟩ rfl rfl rfl)
  have r := r.step (.last rfl rfl (by decide))
  have r := r.step (.flush .done ⟨3, 4, 4, 1⟩ rfl rfl (by decide) rfl)
  have r := r.step (.mark 3 .done ⟨3, 4, 4, 1⟩ rfl rfl (by decide) rfl)
  have r := r.step (.marked 4 .done rfl rfl (by decide))
  have hreport := (write_back_right r).1 _ (List.mem_singleton.mpr rfl)
  exact ⟨_, r, ⟨_, rfl, rfl, hreport⟩, rfl, rfl, rfl, rfl⟩

end ConcurrentFs.BufferCache
