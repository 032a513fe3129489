/-
  ConcurrentFs.StorageInv

  What holds in every state of the engine.  The invariant comes in parts, one for
  each thing the engine keeps: the history, the phase of a commit, the cache, the
  write-back pass, disk.img, the log, block 0 and the promises to callers.
-/
import ConcurrentFs.Storage
import ConcurrentFs.WalLog

namespace ConcurrentFs

open Lib

/-! ## Changes -/

@[simp] theorem applyChanges_nil (d : Nat → Block) : applyChanges d [] = d := rfl

theorem applyChanges_append (d : Nat → Block) (cs ds : List Change) :
    applyChanges d (cs ++ ds) = applyChanges (applyChanges d cs) ds := List.foldl_append

theorem applyChanges_concat (d : Nat → Block) (cs : List Change) (c : Change) :
    applyChanges d (cs ++ [c]) =
      Function.update (applyChanges d cs) c.block (c.run (applyChanges d cs c.block)) := by
  rw [applyChanges_append]
  rfl

/-- A block that no change is about keeps its contents. -/
theorem applyChanges_of_not_mem (d : Nat → Block) (cs : List Change) {b : Nat}
    (h : ∀ c ∈ cs, c.block ≠ b) : applyChanges d cs b = d b := by
  induction cs using List.reverseRecOn with
  | nil => rfl
  | append_singleton cs c ih =>
    have hc : c.block ≠ b := h c (List.mem_append_right _ (List.mem_singleton_self c))
    rw [applyChanges_concat, Function.update_of_ne hc.symm]
    exact ih fun x hx => h x (List.mem_append_left _ hx)

/-! ## The history -/

namespace History

variable {h : History}

theorem stateAt_succ {k : Nat} {t : Txn} (ht : h.txns[k]? = some t) :
    h.stateAt (k + 1) = applyChanges (h.stateAt k) t.changes := by
  rw [stateAt, stateAt, List.take_add_one, ht, List.flatMap_append, applyChanges_append]
  simp

theorem visible_of_cur_nil (hc : h.cur = []) : h.visible = h.stateAt h.txns.length := by
  rw [visible, hc, applyChanges_nil]

/-- What readers see after one more change: what `fn` makes of what they saw before. -/
theorem visible_concat (h : History) (c : Change) :
    ({ h with cur := h.cur ++ [c] } : History).visible =
      Function.update h.visible c.block (c.run (h.visible c.block)) := applyChanges_concat ..

/-- The transactions of `h` and one more. -/
def taken (h : History) (t : Txn) : History := { h with txns := h.txns ++ [t], cur := [] }

theorem stateAt_taken {t : Txn} {k : Nat} (hk : k ≤ h.txns.length) :
    (h.taken t).stateAt k = h.stateAt k := by
  rw [stateAt, stateAt, taken, List.take_append_of_le_length hk]

theorem stateAt_taken_last {t : Txn} (ht : t.changes = h.cur) :
    (h.taken t).stateAt (h.txns.length + 1) = h.visible := by
  have hlast : (h.taken t).txns[h.txns.length]? = some t := by simp [taken]
  rw [stateAt_succ hlast, stateAt_taken (Nat.le_refl _), ht]
  rfl

theorem visible_taken {t : Txn} (ht : t.changes = h.cur) : (h.taken t).visible = h.visible := by
  rw [visible_of_cur_nil rfl, ← stateAt_taken_last ht]
  simp [taken]

/-- What is known of the transactions. -/
structure Inv (h : History) (totalBlocks : Nat) : Prop where
  changes : ∀ t ∈ h.txns, ∀ c ∈ t.changes, c.block ∈ t.blocks
  range : ∀ t ∈ h.txns, ∀ b ∈ t.blocks, b ≠ 0 ∧ b < totalBlocks
  /-- A transaction logs its blocks as they were at its end. -/
  images : ∀ i t, h.txns[i]? = some t → ∀ w ∈ t.images, w.2 = h.stateAt (i + 1) w.1
  dropped : h.dropped ≤ h.durable
  durable : h.durable ≤ h.txns.length

/-- A block no transaction from `i` on changes is still what it was then. -/
theorem Inv.stateAt_eq {totalBlocks : Nat} (hi : h.Inv totalBlocks) {i k b : Nat} (hik : i ≤ k)
    (hk : k ≤ h.txns.length)
    (hb : ∀ j t, i ≤ j → j < k → h.txns[j]? = some t → b ∉ t.blocks) :
    h.stateAt k b = h.stateAt i b := by
  induction k, hik using Nat.le_induction with
  | base => rfl
  | succ k hik ih =>
    have hlast : h.txns[k]? = some h.txns[k] := List.getElem?_eq_getElem (by omega)
    rw [stateAt_succ hlast, applyChanges_of_not_mem, ih (by omega) fun j t h1 h2 h3 =>
      hb j t h1 (by omega) h3]
    rintro c hc rfl
    exact hb k _ hik (by omega) hlast (hi.changes _ (List.getElem_mem _) c hc)

/-- Redoing transactions `i` to `k` over contents that are right wherever none of them writes. -/
theorem Inv.redo {totalBlocks : Nat} (hi : h.Inv totalBlocks) {d : Nat → Block} {i k b : Nat}
    (hik : i ≤ k) (hk : k ≤ h.txns.length)
    (hd : (∀ j t, i ≤ j → j < k → h.txns[j]? = some t → b ∉ t.blocks) → d b = h.stateAt i b) :
    applyWrites d (((h.txns.take k).drop i).flatMap Txn.images) b = h.stateAt k b := by
  induction k, hik using Nat.le_induction with
  | base =>
    rw [List.drop_of_length_le (by rw [List.length_take]; omega)]
    exact hd fun j t h1 h2 => by omega
  | succ k hik ih =>
    have hlast : h.txns[k]? = some h.txns[k] := List.getElem?_eq_getElem (by omega)
    have hsplit : (h.txns.take (k + 1)).drop i = (h.txns.take k).drop i ++ [h.txns[k]] := by
      rw [List.take_add_one, hlast, List.drop_append_of_le_length
        (by rw [List.length_take]; omega)]
      rfl
    rw [hsplit, List.flatMap_append, applyWrites_append]
    simp only [List.flatMap_cons, List.flatMap_nil, List.append_nil]
    by_cases hb : b ∈ (h.txns[k]).blocks
    · refine applyWrites_of_forall _ _ hb fun w hw hwb => ?_
      rw [hi.images k _ hlast w hw, hwb]
    · rw [applyWrites_of_not_mem _ _ hb, ih (by omega)]
      · refine (hi.stateAt_eq (Nat.le_succ k) hk fun j t h1 h2 h3 => ?_).symm
        obtain rfl : j = k := by omega
        rw [hlast] at h3
        cases h3
        exact hb
      · intro hnone
        refine hd fun j t h1 h2 h3 => ?_
        by_cases hj : j = k
        · subst hj
          rw [hlast] at h3
          cases h3
          exact hb
        · exact hnone j t h1 (by omega) h3

end History

/-! ## What the log holds of a transaction -/

namespace Txn

/-- BEGIN and the BLOCK records. -/
def head (t : Txn) : List LogEntry :=
  (.begin, t.lsn) :: t.images.map fun w => (.block w.1 w.2, t.lsn)

def entries (t : Txn) : List LogEntry := t.head ++ [(.commit, t.lsn)]

theorem length_head (t : Txn) : t.head.length = t.blocks.length + 1 := by
  simp [head, blocks]

end Txn

/-- The lsn of every transaction is that of its BEGIN record. -/
def Numbered : Nat → List Txn → Prop
  | _, [] => True
  | lsn, t :: ts => t.lsn = lsn ∧ Numbered (lsn + t.entries.length) ts

theorem numbered_concat {lsn : Nat} {ts : List Txn} {t : Txn} :
    Numbered lsn (ts ++ [t]) ↔
      Numbered lsn ts ∧ t.lsn = lsn + (ts.flatMap Txn.entries).length := by
  induction ts generalizing lsn with
  | nil => simp [Numbered]
  | cons a ts ih =>
    rw [List.cons_append, Numbered, Numbered, ih, List.flatMap_cons, List.length_append,
      ← Nat.add_assoc]
    tauto

namespace History

/-- The transaction the last commit took. -/
def last (h : History) : Txn := h.txns.getLast?.getD ⟨[], [], 0⟩

/-- The durable transactions that are still in the log. -/
def inLog (h : History) : List Txn := (h.txns.take h.durable).drop h.dropped

def logged (h : History) : List LogEntry := h.inLog.flatMap Txn.entries

end History

/-! ## Phases -/

namespace Phase

/-- A transaction is on its way to the log. -/
@[simp] def logging : Phase → Bool
  | .stage .. | .firstSync _ | .barrier _ | .secondSync _ => true
  | _ => false

/-- Records are waiting in the batch. -/
@[simp] def staging : Phase → Bool
  | .stage .. => true
  | _ => false

/-- The log is empty: everything is in disk.img. -/
@[simp] def settled : Phase → Bool
  | .openSb | .openSync | .reset | .closing | .closeSync | .closed => true
  | _ => false

/-- Between `write_back_all` and the end of a checkpoint. -/
@[simp] def wrote : Phase → Bool
  | .wroteBack | .imgSynced | .sbSync | .sbSynced | .truncated => true
  | _ => false

/-- disk.img is synced and the log not yet emptied. -/
@[simp] def flushed : Phase → Bool
  | .imgSynced | .sbSync | .sbSynced | .truncated => true
  | _ => false

/-- The superblock holds the new checkpoint. -/
@[simp] def moved : Phase → Bool
  | .sbSync | .sbSynced | .truncated => true
  | _ => false

/-- Block 0 is as the last checkpoint, or opening, left it. -/
@[simp] def plain : Phase → Bool
  | .openSb | .openSync | .sbSync | .sbSynced | .truncated | .closeSync | .closed => false
  | _ => true

/-- The image may be marked clean. -/
@[simp] def ends : Phase → Bool
  | .openSb | .openSync | .closeSync | .closed => true
  | _ => false

/-- A commit or checkpoint has taken its operations and not yet returned. -/
@[simp] def committing : Phase → Bool
  | .openSb | .openSync | .idle => false
  | _ => true

/-- What the log holds of the transaction on its way. -/
@[simp] def tail (t : Txn) : Phase → List LogEntry
  | .stage _ todo => t.head.take (t.head.length - todo.length)
  | .firstSync _ | .barrier _ => t.head
  | .secondSync _ => t.entries
  | _ => []

/-- And what of that is synced. -/
@[simp] def syncedTail (t : Txn) : Phase → List LogEntry
  | .barrier _ | .secondSync _ => t.head
  | _ => []

/-- The data a phase carries belongs to the last transaction. -/
@[simp] def Of (h : History) (durableLsn : Nat) : Phase → Prop
  | .stage txn todo => txn = h.last.lsn ∧ todo <:+ h.last.blocks
  | .firstSync txn | .barrier txn | .secondSync txn => txn = h.last.lsn
  | .frames lsn todo => lsn ≤ durableLsn ∧ ∀ b ∈ todo, h.Logged b
  | _ => True

end Phase

/-! ## The parts of the invariant -/

/-- The blocks whose frames are in a transaction: the running one, or the one being committed. -/
def Storage.inTxnBlocks (s : Storage) : List Nat :=
  if s.phase.logging then s.hist.last.blocks else
  match s.phase with
  | .frames _ todo => todo
  | _ => s.txnBlocks

/-- The cache shows what the journal's readers should see, and disk.img is as good for every
    block that has no dirty frame and none in a transaction. -/
structure CacheInv (cache : Nat → Option Frame) (disk : Nat → Block) (h : History)
    (durableLsn : Nat) (txn : List Nat) : Prop where
  data : ∀ b f, cache b = some f → f.data = h.visible b
  clean : ∀ b, b ≠ 0 → (∀ f, cache b = some f → f.dirty = false ∧ f.inTxn = false) →
    disk b = h.visible b
  dirty : ∀ b f, cache b = some f → f.dirty = true → h.Logged b ∧ f.lsn ≤ durableLsn
  inTxn : ∀ b, b ∈ txn ↔ ∃ f, cache b = some f ∧ f.inTxn = true
  nodup : txn.Nodup
  zero : cache 0 = none

/-- Every frame a pass holds is dirty.  A copy, and what was written of it, is as good as the
    frame while the version is the one that was picked. -/
structure PassInv (cache : Nat → Option Frame) (disk : Nat → Block) (p : Pass) : Prop where
  nodup : (p.held.map Pick.blockNo).Nodup
  held : ∀ q ∈ p.held, ∃ f, cache q.blockNo = some f ∧ f.dirty = true ∧ q.version ≤ f.version
  copied : ∀ c ∈ p.copies, ∀ f, cache c.1.blockNo = some f → f.version = c.1.version → f.data = c.2
  written : ∀ q ∈ p.written, ∀ f, cache q.blockNo = some f → f.version = q.version →
    disk q.blockNo = f.data

/-- A pass that leaves no frame out and, once it has picked, holds every dirty one, none of them
    changed since. -/
structure Pass.Complete (cache : Nat → Option Frame) (p : Pass) : Prop where
  left : p.left = []
  all : p.at_ ≠ .picking → ∀ b f, cache b = some f → f.dirty = true →
    ∃ q ∈ p.held, q.blockNo = b ∧ q.version = f.version

/-- What a crash can make of the superblock. -/
def OnDisk (img : BlockFile 4096) (x : Superblock) : Prop :=
  x = superblockIn (img.synced 0) ∨ ∃ v, (0, v) ∈ img.pending ∧ x = superblockIn v

/-- The superblock but for what changes after mkfs. -/
def Superblock.fixed (sb : Superblock) : Superblock :=
  { sb with cleanUnmount := 0, lastCheckpointLsn := 0 }

structure SbInv (img : BlockFile 4096) (sb : Superblock) (phase : Phase) (firstLsn nextLsn : Nat) :
    Prop where
  fixed : ∀ x, OnDisk img x → x.fixed = sb.fixed
  clean : phase.ends = false → ∀ x, OnDisk img x → x.cleanUnmount = 0
  lsn : ∀ x, OnDisk img x → x.lastCheckpointLsn = UInt64.ofNat (firstLsn - 1) ∨
    phase.moved = true ∧ x.lastCheckpointLsn = UInt64.ofNat (nextLsn - 1)
  /-- Once it is synced, only the new checkpoint can be there. -/
  new : phase = .sbSynced ∨ phase = .truncated →
    ∀ x, OnDisk img x → x.lastCheckpointLsn = UInt64.ofNat (nextLsn - 1)
  current : phase ≠ .openSb → superblockIn (img.contents 0) = sb
  ownLsn : sb.lastCheckpointLsn =
    UInt64.ofNat (if phase.moved then nextLsn - 1 else firstLsn - 1)
  ownClean : phase ≠ .closeSync → phase ≠ .closed → sb.cleanUnmount = 0

structure LogInv (wal : Wal) (h : History) (phase : Phase) : Prop where
  numbered : Numbered h.firstLsn (h.txns.drop h.dropped)
  first : 1 ≤ h.firstLsn
  holds : phase ≠ .truncated →
    wal.Holds h.firstLsn (h.logged ++ phase.syncedTail h.last) (h.logged ++ phase.tail h.last)
  batch : phase.staging = false → wal.batch = []
  truncated : phase = .truncated →
    wal.file = ⟨recordsBytes (encodeFrom h.firstLsn h.logged), [.truncate]⟩ ∧
    wal.nextLsn = h.firstLsn + h.logged.length ∧ wal.durableLsn < wal.nextLsn

structure PromiseInv (h : History) (phase : Phase)
    (ended covered committedThrough checkpointsDone : Nat) : Prop where
  counted : h.need.length = ended
  /-- The transaction that holds an operation is taken, or is the running one. -/
  need : ∀ n ∈ h.need, n ≤ h.txns.length ∨ h.cur ≠ [] ∧ n = h.txns.length + 1
  taken : phase.committing = true → covered = ended
  committed : committedThrough ≤ ended
  durable : ∀ n ∈ h.need.take committedThrough, n ≤ h.durable
  promised : h.promised ≤ committedThrough
  calls : ∀ c ∈ h.calls, c.1 ≤ ended ∧ c.2 ≤ checkpointsDone + 1 ∧
    (c.2 ≤ checkpointsDone → c.1 ≤ committedThrough)
  /-- When `close` gets to its end, everything is committed. -/
  closed : phase = .closing ∨ phase = .closeSync → committedThrough = ended

/-- What holds in every state of the engine. -/
structure Storage.Inv (s : Storage) : Prop where
  hist : s.hist.Inv s.sb.totalBlocks.toNat
  durable : s.hist.durable + s.phase.logging.toNat = s.hist.txns.length
  settled : s.phase.settled = true → s.hist.dropped = s.hist.txns.length
  /-- Nothing runs beside a commit. -/
  quiet : s.phase ≠ .idle → s.hist.cur = [] ∧ s.txnBlocks = [] ∧ s.running = 0
  phase : s.phase.Of s.hist s.wal.durableLsn
  cur : ∀ c ∈ s.hist.cur, c.block ∈ s.txnBlocks
  curRange : ∀ b ∈ s.txnBlocks, b ≠ 0 ∧ b < s.sb.totalBlocks.toNat
  cache : CacheInv s.cache s.img.contents s.hist s.wal.durableLsn s.inTxnBlocks
  pass : ∀ p, s.pass = some p → PassInv s.cache s.img.contents p
  writeBack : s.phase = .writeBack → ∃ p, s.pass = some p ∧ p.Complete s.cache
  wrote : s.phase.wrote = true → ∀ b f, s.cache b = some f → f.dirty = false
  /-- Nothing goes to disk.img that could not be redone from the log. -/
  pending : ∀ w ∈ s.img.pending, w.1 ≠ 0 → s.hist.Logged w.1
  synced : ∀ b, b ≠ 0 → ¬ s.hist.Logged b → s.img.synced b = s.hist.stateAt s.hist.dropped b
  flushed : s.phase.flushed = true → ∀ b, b ≠ 0 →
    b ∉ s.img.pending.map Prod.fst ∧ s.img.synced b = s.hist.visible b
  sb : SbInv s.img s.sb s.phase s.hist.firstLsn s.wal.nextLsn
  log : LogInv s.wal s.hist s.phase
  promise : PromiseInv s.hist s.phase s.ended s.covered s.committedThrough s.checkpointsDone

end ConcurrentFs
