/-
  ConcurrentFs.Recovery

  Crash recovery (src/recovery.cpp), run at mount when the last unmount was not
  clean: redo, in log order, every block of every transaction that has a COMMIT
  record and came after the last checkpoint, then record the new checkpoint in
  the superblock and empty the log.

  `recoverOps` is the list of things `recover` does to the two files, in order.
  A crash in the middle of recovery is a crash after some prefix of it; the write
  that was cut short is the last of the prefix, outstanding and possibly torn.
-/
import ConcurrentFs.Superblock
import ConcurrentFs.Wal
import Mathlib.Logic.Relation
import Mathlib.Data.List.Forall2

namespace ConcurrentFs

open Lib

/-! ## The two files -/

/-- `disk.img` and its log. -/
structure Media where
  img : BlockFile 4096
  log : AppendFile

namespace Media

/-- The files as they are found: nothing outstanding. -/
def found (d : Nat → Block) (l : List UInt8) : Media := ⟨.ofContents d, ⟨l, []⟩⟩

/-- What a crash may leave of the two files. -/
def CrashTo (m : Media) (d : Nat → Block) (l : List UInt8) : Prop :=
  m.img.CrashTo d ∧ m.log.CrashTo l

end Media

/-- The superblock lies inside one sector: a crash leaves it as it was at the last sync or as
    one of the later writes to block 0 made it. -/
theorem superblockIn_crash {f : BlockFile 4096} {d : Nat → Block} (hc : f.CrashTo d) :
    superblockIn (d 0) = superblockIn (f.synced 0) ∨
      ∃ v, (0, v) ∈ f.pending ∧ superblockIn (d 0) = superblockIn v := by
  have key : ∀ v : Block, (∀ i : Fin 4096, i.val / 512 = 0 → d 0 i = v i) →
      superblockIn (d 0) = superblockIn v := by
    intro v hv
    unfold superblockIn
    congr 1
    refine Bytes.ext_get fun i hi => ?_
    rw [Bytes.get_slice _ _ hi, Bytes.get_slice _ _ hi, Bytes.get_of_lt _ (by omega),
      Bytes.get_of_lt _ (by omega)]
    exact hv _ (by simp only; omega)
  rcases hc.sector 0 0 with h | ⟨v, hv, h⟩
  · exact Or.inl (key _ h)
  · exact Or.inr ⟨v, hv, key v h⟩

/-! ## What recovery does -/

structure RecoveryInfo where
  /-- The last unmount was not clean. -/
  ran : Bool
  txnsReplayed : Nat
  blocksReplayed : Nat
  /-- Found in the log without a COMMIT. -/
  txnsDiscarded : Nat

/-- The transactions with a COMMIT record in the scan. -/
def committed (records : List WalRecord) (txnId : UInt64) : Bool :=
  records.any fun r => r.header.type = walCommit ∧ r.header.txnId = txnId

/-- What the second loop of `recover` carries along. -/
structure Replay where
  lastLsn : Nat
  /-- The block writes made so far, oldest first. -/
  writes : List (Nat × Block)
  info : RecoveryInfo

/-- One turn of the second loop of `recover`. -/
def replayRecord (sb : Superblock) (done : UInt64 → Bool) (s : Replay) (r : WalRecord) : Replay :=
  let h := r.header
  let s := { s with lastLsn := max s.lastLsn h.lsn.toNat }
  -- at or before the checkpoint: already in disk.img
  if h.lsn ≤ sb.lastCheckpointLsn then s else
  let s := if h.type = walBegin then
      if done h.txnId then { s with info.txnsReplayed := s.info.txnsReplayed + 1 }
      else { s with info.txnsDiscarded := s.info.txnsDiscarded + 1 }
    else s
  if h.type = walBlock ∧ done h.txnId then
    { s with
      writes := s.writes ++ [(h.blockNo.toNat, r.payload)]
      info.blocksReplayed := s.info.blocksReplayed + 1 }
  else s

/-- Both loops of `recover`, on the records the scan found. -/
def replay (sb : Superblock) (records : List WalRecord) : Replay :=
  records.foldl (replayRecord sb (committed records))
  ⟨sb.lastCheckpointLsn.toNat, [], ⟨true, 0, 0, 0⟩⟩

/-- What `recover` does to the files. -/
inductive RecoverOp where
  | writeBlock (b : Nat) (p : Block)
  | syncImg
  | writeSuperblock (sb : Superblock)
  | truncateLog
  | syncLog

namespace RecoverOp

def run (m : Media) : RecoverOp → Media
  | writeBlock b p => { m with img := m.img.write b p }
  | syncImg => { m with img := m.img.sync }
  | writeSuperblock sb => { m with img := m.img.write 0 (superblockBlock sb) }
  | truncateLog => { m with log := m.log.issue .truncate }
  | syncLog => { m with log := m.log.sync }

end RecoverOp

/-- The files after some operations. -/
def runOps (m : Media) (ops : List RecoverOp) : Media := ops.foldl RecoverOp.run m

/-- The superblock with its new checkpoint. -/
def checkpointed (sb : Superblock) (lsn : Nat) : Superblock :=
  { sb with lastCheckpointLsn := UInt64.ofNat lsn }

/-- Everything `recover` does to the files it finds, in order.  `Wal::reset` refuses lsn 0, so
    after the very last lsn there is nothing to reset to. -/
def recoverOps (d : Nat → Block) (l : List UInt8) : List RecoverOp :=
  let sb := superblockIn (d 0)
  let s := replay sb (scan sb.totalBlocks.toNat l)
  s.writes.map (fun w => .writeBlock w.1 w.2)
    ++ [.syncImg, .writeSuperblock (checkpointed sb s.lastLsn), .syncImg]
    ++ if (s.lastLsn + 1) % 2 ^ 64 = 0 then [] else [.truncateLog, .syncLog]

structure Recovered where
  media : Media
  sb : Superblock
  /-- The lsn the next record gets. -/
  nextLsn : Nat
  info : RecoveryInfo

/-- `recover`.  The error is the one `Wal::reset` throws. -/
def recover (d : Nat → Block) (l : List UInt8) : Except String Recovered :=
  let sb := superblockIn (d 0)
  let s := replay sb (scan sb.totalBlocks.toNat l)
  if (s.lastLsn + 1) % 2 ^ 64 = 0 then .error "log: lsns start at 1" else
  .ok ⟨runOps (.found d l) (recoverOps d l), checkpointed sb s.lastLsn, s.lastLsn + 1, s.info⟩

/-! ## Which blocks are redone -/

/-- The records whose payload `recover` writes to the image. -/
def redone (sb : Superblock) (records : List WalRecord) (r : WalRecord) : Bool :=
  sb.lastCheckpointLsn < r.header.lsn ∧ r.header.type = walBlock ∧ committed records r.header.txnId

/-- The payload of the last redone record for block `b`, in log order. -/
def redoneBlock (sb : Superblock) (records : List WalRecord) (b : Nat) : Option Block :=
  ((records.filter fun r => redone sb records r ∧ r.header.blockNo.toNat = b).getLast?).map
    WalRecord.payload

/-- The largest lsn among `m` and those of some records. -/
def maxLsn (m : Nat) (rs : List WalRecord) : Nat := rs.foldl (fun m r => max m r.header.lsn.toNat) m

theorem replayRecord_writes (sb : Superblock) (done : UInt64 → Bool) (s : Replay) (r : WalRecord) :
    (replayRecord sb done s r).writes = s.writes ++
      if sb.lastCheckpointLsn < r.header.lsn ∧ r.header.type = walBlock ∧ done r.header.txnId
      then [(r.header.blockNo.toNat, r.payload)] else [] := by
  have hb : walBlock ≠ walBegin := by decide
  by_cases h1 : r.header.lsn ≤ sb.lastCheckpointLsn
  · have h1' : ¬ sb.lastCheckpointLsn < r.header.lsn := UInt64.not_lt.mpr h1
    simp [replayRecord, h1, h1']
  · have h1' : sb.lastCheckpointLsn < r.header.lsn := UInt64.not_le.mp h1
    by_cases h2 : r.header.type = walBlock ∧ done r.header.txnId = true
    · simp [replayRecord, h1, h1', h2, hb]
    · simp only [replayRecord, h1, if_false, h2, and_false, List.append_nil]
      split_ifs <;> rfl

theorem replayRecord_lastLsn (sb : Superblock) (done : UInt64 → Bool) (s : Replay) (r : WalRecord) :
    (replayRecord sb done s r).lastLsn = max s.lastLsn r.header.lsn.toNat := by
  simp only [replayRecord]
  split_ifs <;> rfl

theorem foldl_replayRecord (sb : Superblock) (done : UInt64 → Bool) (rs : List WalRecord)
    (s : Replay) :
    (rs.foldl (replayRecord sb done) s).writes = s.writes ++ (rs.filter fun r =>
        sb.lastCheckpointLsn < r.header.lsn ∧ r.header.type = walBlock ∧ done r.header.txnId).map
        (fun r => (r.header.blockNo.toNat, r.payload)) ∧
    (rs.foldl (replayRecord sb done) s).lastLsn = maxLsn s.lastLsn rs := by
  induction rs generalizing s with
  | nil => simp [maxLsn]
  | cons r rs ih =>
    obtain ⟨hw, hl⟩ := ih (replayRecord sb done s r)
    refine ⟨?_, ?_⟩
    · rw [List.foldl_cons, hw, List.filter_cons, replayRecord_writes]
      split_ifs <;> simp_all
    · rw [List.foldl_cons, hl, replayRecord_lastLsn]
      rfl

theorem replay_writes (sb : Superblock) (records : List WalRecord) :
    (replay sb records).writes = (records.filter (redone sb records)).map
      fun r => (r.header.blockNo.toNat, r.payload) :=
  (foldl_replayRecord sb (committed records) records _).1

theorem replay_lastLsn (sb : Superblock) (records : List WalRecord) :
    (replay sb records).lastLsn = maxLsn sb.lastCheckpointLsn.toNat records :=
  (foldl_replayRecord sb (committed records) records _).2

theorem le_maxLsn (rs : List WalRecord) (m : Nat) : m ≤ maxLsn m rs := by
  induction rs generalizing m with
  | nil => exact Nat.le_refl m
  | cons r rs ih => exact Nat.le_trans (Nat.le_max_left m r.header.lsn.toNat) (ih _)

theorem lsn_le_maxLsn {rs : List WalRecord} {r : WalRecord} (h : r ∈ rs) (m : Nat) :
    r.header.lsn.toNat ≤ maxLsn m rs := by
  induction rs generalizing m with
  | nil => cases h
  | cons a rs ih =>
    rcases List.mem_cons.mp h with rfl | h
    · exact Nat.le_trans (Nat.le_max_right m r.header.lsn.toNat) (le_maxLsn rs _)
    · exact ih h _

theorem maxLsn_lt {rs : List WalRecord} {m n : Nat} (hm : m < n)
    (h : ∀ r ∈ rs, r.header.lsn.toNat < n) : maxLsn m rs < n := by
  induction rs generalizing m with
  | nil => exact hm
  | cons a rs ih =>
    have ha := h a (List.mem_cons_self ..)
    exact ih (m := max m a.header.lsn.toNat) (by omega) fun r hr => h r (List.mem_cons_of_mem _ hr)

theorem maxLsn_of_le {rs : List WalRecord} {m : Nat} (h : ∀ r ∈ rs, r.header.lsn.toNat ≤ m) :
    maxLsn m rs = m :=
  Nat.le_antisymm (Nat.le_of_lt_succ (maxLsn_lt (Nat.lt_succ_self m)
    fun r hr => Nat.lt_succ_of_le (h r hr))) (le_maxLsn rs m)

/-- The result of writes in order is the last write to each block. -/
theorem applyWrites_eq_getLast {α : Type} (d : Nat → α) (rs : List (Nat × α)) (b : Nat) :
    applyWrites d rs b = (((rs.filter fun w => w.1 = b).getLast?).map Prod.snd).getD (d b) := by
  induction rs generalizing d with
  | nil => rfl
  | cons w rs ih =>
    rw [applyWrites_cons, ih, List.filter_cons]
    by_cases hw : w.1 = b
    · subst hw
      simp only [decide_true, if_true, Function.update_self]
      cases h : rs.filter fun x => x.1 = w.1 with
      | nil => simp
      | cons a as =>
        rw [List.getLast?_cons_cons]
        simp [List.getLast?_eq_some_getLast]
    · simp [hw, Function.update_of_ne (Ne.symm hw)]

theorem applyWrites_replay (d : Nat → Block) (sb : Superblock)
    (records : List WalRecord) (b : Nat) :
    applyWrites d (replay sb records).writes b = (redoneBlock sb records b).getD (d b) := by
  rw [applyWrites_eq_getLast, replay_writes, List.filter_map, List.getLast?_map, Option.map_map,
    List.filter_filter, redoneBlock]
  have : (records.filter fun r => redone sb records r ∧ r.header.blockNo.toNat = b) =
      records.filter fun r => (((fun w : Nat × Block => decide (w.1 = b)) ∘
        fun r : WalRecord => (r.header.blockNo.toNat, r.payload)) r && redone sb records r) := by
    refine List.filter_congr fun r _ => ?_
    simp [Bool.and_comm]
  rw [this]
  rfl

/-! ## One uninterrupted run -/

/-- The contents of the image when `recover` has finished. -/
def recovered (d : Nat → Block) (l : List UInt8) : Nat → Block :=
  (runOps (.found d l) (recoverOps d l)).img.contents

/-- The block writes of `recover`. -/
def recoverWrites (d : Nat → Block) (l : List UInt8) : List (Nat × Block) :=
  (replay (superblockIn (d 0)) (scan (superblockIn (d 0)).totalBlocks.toNat l)).writes

/-- The checkpoint lsn `recover` ends with. -/
def recoverLsn (d : Nat → Block) (l : List UInt8) : Nat :=
  (replay (superblockIn (d 0)) (scan (superblockIn (d 0)).totalBlocks.toNat l)).lastLsn

theorem recoverLsn_lt (d : Nat → Block) (l : List UInt8) : recoverLsn d l < 2 ^ 64 := by
  rw [recoverLsn, replay_lastLsn]
  exact maxLsn_lt (UInt64.toNat_lt _) fun r _ => UInt64.toNat_lt _

theorem runOps_append (m : Media) (xs ys : List RecoverOp) :
    runOps m (xs ++ ys) = runOps (runOps m xs) ys := List.foldl_append

theorem runOps_writes (m : Media) (ws : List (Nat × Block)) :
    runOps m (ws.map fun w => .writeBlock w.1 w.2) = { m with img := m.img.writeAll ws } := by
  induction ws generalizing m with
  | nil => simp [runOps, BlockFile.writeAll]
  | cons w ws ih =>
    have := ih (RecoverOp.run m (.writeBlock w.1 w.2))
    simp only [runOps, List.map_cons, List.foldl_cons] at this ⊢
    rw [this]
    simp [RecoverOp.run, BlockFile.write, BlockFile.writeAll]

/-- Every block the scan lets `recover` write is one of `[1, totalBlocks)`. -/
theorem mem_scanFrom_intact {totalBlocks : Nat} {rest : List UInt8} {prev : Option UInt64}
    {r : WalRecord} (h : r ∈ scanFrom totalBlocks rest prev) : r.Intact totalBlocks := by
  induction hn : rest.length using Nat.strong_induction_on generalizing rest prev with
  | _ n ih =>
    cases hr : scanRecord totalBlocks rest prev with
    | none => simp [scanFrom_none hr] at h
    | some r' =>
      rw [scanFrom_some hr, List.mem_cons] at h
      rcases h with rfl | h
      · exact (scanRecord_eq_some_iff.mp hr).2.2.1
      · have := scanRecord_length hr
        refine ih _ ?_ h rfl
        rw [List.length_drop]
        omega

theorem recoverWrites_ne_zero {d : Nat → Block} {l : List UInt8} {w : Nat × Block}
    (h : w ∈ recoverWrites d l) : w.1 ≠ 0 := by
  rw [recoverWrites, replay_writes, List.mem_map] at h
  obtain ⟨r, hr, rfl⟩ := h
  obtain ⟨hmem, hred⟩ := List.mem_filter.mp hr
  have hblock := (mem_scanFrom_intact hmem).block (by simp [redone] at hred; exact hred.2.1)
  intro h0
  exact hblock.1 (UInt32.toNat_inj.mp h0)

theorem recoverWrites_lt {d : Nat → Block} {l : List UInt8} {w : Nat × Block}
    (h : w ∈ recoverWrites d l) (h0 : (superblockIn (d 0)).totalBlocks.toNat ≠ 0) :
    w.1 < (superblockIn (d 0)).totalBlocks.toNat := by
  rw [recoverWrites, replay_writes, List.mem_map] at h
  obtain ⟨r, hr, rfl⟩ := h
  obtain ⟨hmem, hred⟩ := List.mem_filter.mp hr
  exact ((mem_scanFrom_intact hmem).block (by simp [redone] at hred; exact hred.2.1)).2 h0

/-- The files between the block writes and the end of `recover`. -/
theorem runOps_recoverOps (d : Nat → Block) (l : List UInt8) :
    runOps (.found d l) (recoverOps d l) =
      ⟨.ofContents (Function.update (applyWrites d (recoverWrites d l)) 0
          (superblockBlock (checkpointed (superblockIn (d 0)) (recoverLsn d l)))),
        ⟨if (recoverLsn d l + 1) % 2 ^ 64 = 0 then l else [], []⟩⟩ := by
  simp only [recoverOps, runOps_append]
  rw [show (replay (superblockIn (d 0)) (scan (superblockIn (d 0)).totalBlocks.toNat l)).writes
    = recoverWrites d l from rfl, runOps_writes]
  have h : (replay (superblockIn (d 0)) (scan (superblockIn (d 0)).totalBlocks.toNat l)).lastLsn
    = recoverLsn d l := rfl
  rw [h]
  split
  · simp [runOps, RecoverOp.run, Media.found, BlockFile.sync, BlockFile.ofContents,
      BlockFile.contents, BlockFile.write, BlockFile.writeAll]
  · simp [runOps, RecoverOp.run, Media.found, BlockFile.sync, BlockFile.ofContents,
      BlockFile.contents, BlockFile.write, BlockFile.writeAll, AppendFile.sync,
      AppendFile.issue, AppendFile.contents, applyOps]

theorem recovered_eq {d : Nat → Block} {l : List UInt8} {b : Nat} (hb : b ≠ 0) :
    recovered d l b = applyWrites d (recoverWrites d l) b := by
  rw [recovered, runOps_recoverOps, BlockFile.contents_ofContents, Function.update_of_ne hb]

/-! ## Interrupted runs -/

/-- `recover` found `p` and was cut short: `q` is what the crash left. -/
def Interrupted (p q : (Nat → Block) × List UInt8) : Prop :=
  ∃ n, (runOps (.found p.1 p.2) ((recoverOps p.1 p.2).take n)).CrashTo q.1 q.2

/-- The only thing later runs depend on: the log is as it was found, or empty; the superblock
    is as it was found or has the new checkpoint; and a block that the log no longer puts back
    holds its final contents already. -/
structure Interruptible (d : Nat → Block) (l : List UInt8) (d' : Nat → Block) (l' : List UInt8) :
    Prop where
  sb : superblockIn (d' 0) = superblockIn (d 0) ∨
    superblockIn (d' 0) = checkpointed (superblockIn (d 0)) (recoverLsn d l)
  log : l' = l ∨ (l' = [] ∧ superblockIn (d' 0) =
    checkpointed (superblockIn (d 0)) (recoverLsn d l))
  kept : ∀ b, b ≠ 0 → b ∉ (recoverWrites d l).map Prod.fst → d' b = d b
  done : superblockIn (d' 0) = superblockIn (d 0) ∨
    ∀ b, b ≠ 0 → d' b = applyWrites d (recoverWrites d l) b

/-- With the new checkpoint in the superblock there is nothing left to redo. -/
theorem recoverWrites_checkpointed {d d' : Nat → Block} {l l' : List UInt8}
    (hlsn : recoverLsn d l < 2 ^ 64)
    (hsb : superblockIn (d' 0) = checkpointed (superblockIn (d 0)) (recoverLsn d l))
    (hl : l' = l ∨ l' = []) :
    recoverWrites d' l' = [] ∧ recoverLsn d' l' = recoverLsn d l := by
  have hlast : (superblockIn (d' 0)).lastCheckpointLsn.toNat = recoverLsn d l := by
    rw [hsb]
    exact UInt64.toNat_ofNat_of_lt' hlsn
  have htot : (superblockIn (d' 0)).totalBlocks = (superblockIn (d 0)).totalBlocks := by
    rw [hsb]
    rfl
  have hle : ∀ r ∈ scan (superblockIn (d' 0)).totalBlocks.toNat l',
      r.header.lsn.toNat ≤ recoverLsn d l := by
    intro r hr
    rcases hl with rfl | rfl
    · rw [htot] at hr
      rw [recoverLsn, replay_lastLsn]
      exact lsn_le_maxLsn hr _
    · rw [scan, scanFrom_nil] at hr
      cases hr
  refine ⟨?_, ?_⟩
  · rw [recoverWrites, replay_writes, List.map_eq_nil_iff, List.filter_eq_nil_iff]
    intro r hr hred
    have h1 := hle r hr
    simp only [redone, decide_eq_true_eq, UInt64.lt_iff_toNat_lt, hlast] at hred
    omega
  · rw [recoverLsn, replay_lastLsn, hlast]
    exact maxLsn_of_le hle

/-- Whatever a run of `recover` is cut down to, the next one ends with the same blocks. -/
theorem recovered_of_interruptible {d d' : Nat → Block} {l l' : List UInt8}
    (hlsn : recoverLsn d l < 2 ^ 64) (h : Interruptible d l d' l') :
    recoverLsn d' l' = recoverLsn d l ∧ ∀ b, b ≠ 0 → recovered d' l' b = recovered d l b := by
  by_cases hsb : superblockIn (d' 0) = checkpointed (superblockIn (d 0)) (recoverLsn d l)
  · obtain ⟨hw, hl⟩ := recoverWrites_checkpointed hlsn hsb (h.log.imp id And.left)
    refine ⟨hl, fun b hb => ?_⟩
    rw [recovered_eq hb, recovered_eq hb, hw, applyWrites_nil]
    rcases h.done with hd | hd
    · -- the checkpoint did not move: then nothing was redone in the first place either
      have hsb' := hd.symm.trans hsb
      obtain ⟨hw0, -⟩ := recoverWrites_checkpointed hlsn hsb' (Or.inl (Eq.refl l))
      rw [hw0, applyWrites_nil]
      exact h.kept b hb (by simp [hw0])
    · exact hd b hb
  · have hs := h.sb.resolve_right hsb
    have hl : l' = l := h.log.resolve_right fun hl => hsb hl.2
    subst hl
    have hw : recoverWrites d' l' = recoverWrites d l' := by rw [recoverWrites, hs]; rfl
    refine ⟨by rw [recoverLsn, hs]; rfl, fun b hb => ?_⟩
    rw [recovered_eq hb, recovered_eq hb, hw]
    by_cases hm : b ∈ (recoverWrites d l').map Prod.fst
    · exact applyWrites_congr_of_mem _ _ _ hm
    · rw [applyWrites_of_not_mem _ _ hm, applyWrites_of_not_mem _ _ hm]
      exact h.kept b hb hm

/-- What `recover` does once the blocks are written. -/
def recoverTail (d : Nat → Block) (l : List UInt8) : List RecoverOp :=
  [.syncImg, .writeSuperblock (checkpointed (superblockIn (d 0)) (recoverLsn d l)), .syncImg]
    ++ if (recoverLsn d l + 1) % 2 ^ 64 = 0 then [] else [.truncateLog, .syncLog]

theorem recoverOps_eq (d : Nat → Block) (l : List UInt8) :
    recoverOps d l = (recoverWrites d l).map (fun w => .writeBlock w.1 w.2) ++ recoverTail d l :=
  List.append_assoc ..

/-- A crash while the blocks are being written: what is lost or torn is redone next time. -/
theorem interruptible_of_writes {d d' : Nat → Block} {l l' : List UInt8} {n : Nat}
    (h : (Media.mk ((BlockFile.ofContents d).writeAll ((recoverWrites d l).take n))
      ⟨l, []⟩).CrashTo d' l') : Interruptible d l d' l' := by
  obtain ⟨hi, hlog⟩ := h
  have hsub : ∀ b, b ∉ (recoverWrites d l).map Prod.fst →
      b ∉ (((BlockFile.ofContents d).writeAll ((recoverWrites d l).take n)).pending).map
        Prod.fst := by
    intro b hb hmem
    refine hb ?_
    simp only [BlockFile.pending_writeAll, BlockFile.ofContents, List.nil_append, List.map_take]
      at hmem
    exact List.mem_of_mem_take hmem
  have h0 : 0 ∉ (recoverWrites d l).map Prod.fst := by
    intro hm
    obtain ⟨w, hw, hw0⟩ := List.mem_map.mp hm
    exact recoverWrites_ne_zero hw hw0
  have hkeep : ∀ b, b ∉ (recoverWrites d l).map Prod.fst → d' b = d b := fun b hb =>
    hi.eq_synced (hsub b hb)
  have hsb : superblockIn (d' 0) = superblockIn (d 0) := by rw [hkeep 0 h0]
  exact ⟨Or.inl hsb, Or.inl (AppendFile.crashTo_nil hlog), fun b _ hb => hkeep b hb, Or.inl hsb⟩

/-- A crash once all blocks are synced: every block but block 0 has its final contents. -/
theorem interruptible_of_tail {d d' : Nat → Block} {l l' : List UInt8}
    (hsb : superblockIn (d' 0) = superblockIn (d 0) ∨
      superblockIn (d' 0) = checkpointed (superblockIn (d 0)) (recoverLsn d l))
    (hlog : l' = l ∨ (l' = [] ∧
      superblockIn (d' 0) = checkpointed (superblockIn (d 0)) (recoverLsn d l)))
    (hd : ∀ b, b ≠ 0 → d' b = applyWrites d (recoverWrites d l) b) :
    Interruptible d l d' l' :=
  ⟨hsb, hlog, fun b hb hm => by rw [hd b hb, applyWrites_of_not_mem _ _ hm], Or.inr hd⟩

theorem interruptible_of_interrupted {d d' : Nat → Block} {l l' : List UInt8}
    (h : Interrupted (d, l) (d', l')) : Interruptible d l d' l' := by
  obtain ⟨n, hn⟩ := h
  simp only at hn
  rw [recoverOps_eq, List.take_append, runOps_append, List.length_map] at hn
  by_cases hle : n ≤ (recoverWrites d l).length
  · rw [Nat.sub_eq_zero_of_le hle, List.take_zero, ← List.map_take, runOps_writes] at hn
    exact interruptible_of_writes hn
  · rw [List.take_of_length_le (by rw [List.length_map]; omega), runOps_writes] at hn
    have h0 : applyWrites d (recoverWrites d l) 0 = d 0 := by
      refine applyWrites_of_not_mem _ _ fun hm => ?_
      obtain ⟨w, hw, hw0⟩ := List.mem_map.mp hm
      exact recoverWrites_ne_zero hw hw0
    have hk : 0 < n - (recoverWrites d l).length := by omega
    generalize n - (recoverWrites d l).length = k at hn hk
    -- the contents once the blocks are synced, and once the superblock is
    generalize hT : applyWrites d (recoverWrites d l) = T at h0
    have hsync : ((BlockFile.ofContents d).writeAll (recoverWrites d l)).sync = .ofContents T := by
      rw [← hT]
      rfl
    generalize hS : superblockBlock (checkpointed (superblockIn (d 0)) (recoverLsn d l)) = S
    have hSsb : superblockIn S = checkpointed (superblockIn (d 0)) (recoverLsn d l) := by
      rw [← hS, superblockIn_superblockBlock]
    have htail : ∀ img log, (Media.mk img log).CrashTo d' l' →
        (img = .ofContents T ∨ img = (BlockFile.ofContents T).write 0 S) → log = ⟨l, []⟩ →
        Interruptible d l d' l' := by
      rintro img log ⟨hi, hl⟩ himg rfl
      have hl' := AppendFile.crashTo_nil hl
      rcases himg with rfl | rfl
      · have hd : ∀ b, d' b = T b := fun b => hi.eq_synced (by simp [BlockFile.ofContents])
        exact interruptible_of_tail (Or.inl (by rw [hd 0, h0])) (Or.inl hl')
          fun b _ => by rw [hd b, hT]
      · have hd : ∀ b, b ≠ 0 → d' b = T b := fun b hb =>
          hi.eq_synced (by simpa [BlockFile.ofContents] using hb)
        refine interruptible_of_tail ?_ (Or.inl hl') fun b hb => by rw [hd b hb, hT]
        rcases superblockIn_crash hi with hs | ⟨v, hv, hs⟩
        · left
          rw [hs, ← h0]
          rfl
        · right
          rw [hs, ← hSsb]
          congr 1
          simpa [BlockFile.ofContents] using hv
    have hend : ∀ img log, (Media.mk img log).CrashTo d' l' →
        img = .ofContents (Function.update T 0 S) →
        (log = ⟨l, []⟩ ∨ log = ⟨l, [.truncate]⟩ ∨ log = ⟨[], []⟩) → Interruptible d l d' l' := by
      rintro img log ⟨hi, hl⟩ rfl hlog
      have hd : ∀ b, d' b = Function.update T 0 S b := fun b =>
        hi.eq_synced (by simp [BlockFile.ofContents])
      have hsb : superblockIn (d' 0) = checkpointed (superblockIn (d 0)) (recoverLsn d l) := by
        rw [hd 0, Function.update_self, hSsb]
      refine interruptible_of_tail (Or.inr hsb) ?_ fun b hb => by
        rw [hd b, Function.update_of_ne hb, hT]
      rcases hlog with rfl | rfl | rfl
      · exact Or.inl (AppendFile.crashTo_nil hl)
      · exact (AppendFile.crashTo_truncate hl).imp id fun h => ⟨h, hsb⟩
      · exact Or.inr ⟨AppendFile.crashTo_nil hl, hsb⟩
    have hwr : (((BlockFile.ofContents d).writeAll (recoverWrites d l)).sync.write 0
        (superblockBlock (checkpointed (superblockIn (d 0)) (recoverLsn d l)))).sync
          = .ofContents (Function.update T 0 S) := by
      rw [hsync, hS]
      simp [BlockFile.sync, BlockFile.ofContents, BlockFile.contents, BlockFile.write]
    obtain _ | _ | _ | _ | _ | k := k
    · omega
    · exact htail _ _ hn (Or.inl hsync) rfl
    · exact htail _ _ hn (Or.inr (by rw [← hsync, ← hS]; rfl)) rfl
    · exact hend _ _ hn hwr (Or.inl rfl)
    · by_cases hov : (recoverLsn d l + 1) % 2 ^ 64 = 0
      · simp only [recoverTail, if_pos hov] at hn
        exact hend _ _ hn hwr (Or.inl rfl)
      · simp only [recoverTail, if_neg hov] at hn
        exact hend _ _ hn hwr (Or.inr (Or.inl rfl))
    · by_cases hov : (recoverLsn d l + 1) % 2 ^ 64 = 0
      · simp only [recoverTail, if_pos hov] at hn
        exact hend _ _ hn hwr (Or.inl rfl)
      · simp only [recoverTail, if_neg hov] at hn
        rw [List.take_of_length_le (by simp)] at hn
        exact hend _ _ hn hwr (Or.inr (Or.inr rfl))

/-- However often recovery is interrupted, what it starts from stays within reach of the same
    result. -/
theorem recovered_of_interrupted_many {d d' : Nat → Block} {l l' : List UInt8}
    (hlsn : recoverLsn d l < 2 ^ 64)
    (h : Relation.ReflTransGen Interrupted (d, l) (d', l')) :
    recoverLsn d' l' = recoverLsn d l ∧ ∀ b, b ≠ 0 → recovered d' l' b = recovered d l b := by
  suffices ∀ q, Relation.ReflTransGen Interrupted (d, l) q →
      recoverLsn q.1 q.2 = recoverLsn d l ∧ ∀ b, b ≠ 0 → recovered q.1 q.2 b = recovered d l b from
    this (d', l') h
  intro q hq
  induction hq with
  | refl => exact ⟨rfl, fun _ _ => rfl⟩
  | tail _ hstep ih =>
    obtain ⟨hl, hr⟩ := recovered_of_interruptible (by rw [ih.1]; exact hlsn)
      (interruptible_of_interrupted hstep)
    exact ⟨hl.trans ih.1, fun b hb => (hr b hb).trans (ih.2 b hb)⟩

theorem recover_ok {d : Nat → Block} {l : List UInt8} (h : recoverLsn d l + 1 < 2 ^ 64) :
    recover d l = .ok ⟨runOps (.found d l) (recoverOps d l),
      checkpointed (superblockIn (d 0)) (recoverLsn d l), recoverLsn d l + 1,
      (replay (superblockIn (d 0)) (scan (superblockIn (d 0)).totalBlocks.toNat l)).info⟩ := by
  have hne : ¬ (recoverLsn d l + 1) % 2 ^ 64 = 0 := by omega
  exact if_neg hne

/-- **Recovery redoes the committed work, and may be interrupted.**  `recover` leaves in every
    block the payload of the last record for it, in log order, among the scanned ones past the
    checkpoint whose transaction has a COMMIT in the scan, and any other block as it was; the
    log is empty, the checkpoint is the largest lsn seen and the next record gets the one after.
    Cut short anywhere, and started again from what is left, any number of times, it ends with
    the same blocks.  The lsns are those of a real log: below the last one 64 bits can hold. -/
theorem recover_redoes_committed {d : Nat → Block} {l : List UInt8}
    (hsb : (superblockIn (d 0)).lastCheckpointLsn.toNat + 1 < 2 ^ 64)
    (hlog : ∀ r ∈ scan (superblockIn (d 0)).totalBlocks.toNat l, r.header.lsn.toNat + 1 < 2 ^ 64) :
    ∃ out, recover d l = .ok out ∧
      (∀ b, 1 ≤ b → out.media.img.contents b = (redoneBlock (superblockIn (d 0))
        (scan (superblockIn (d 0)).totalBlocks.toNat l) b).getD (d b)) ∧
      out.media.log = ⟨[], []⟩ ∧ out.media.img.pending = [] ∧
      superblockIn (out.media.img.contents 0) = out.sb ∧
      out.sb.lastCheckpointLsn.toNat = maxLsn (superblockIn (d 0)).lastCheckpointLsn.toNat
        (scan (superblockIn (d 0)).totalBlocks.toNat l) ∧
      out.nextLsn = out.sb.lastCheckpointLsn.toNat + 1 ∧
      ∀ d' l', Relation.ReflTransGen Interrupted (d, l) (d', l') →
        ∃ out', recover d' l' = .ok out' ∧
          ∀ b, 1 ≤ b → out'.media.img.contents b = out.media.img.contents b := by
  have hmax : recoverLsn d l + 1 < 2 ^ 64 := by
    rw [recoverLsn, replay_lastLsn]
    have := maxLsn_lt (n := 2 ^ 64 - 1) (m := (superblockIn (d 0)).lastCheckpointLsn.toNat)
      (by omega) fun r hr => by have := hlog r hr; omega
    omega
  have hck : (checkpointed (superblockIn (d 0)) (recoverLsn d l)).lastCheckpointLsn.toNat =
      recoverLsn d l := UInt64.toNat_ofNat_of_lt' (Nat.lt_of_succ_lt hmax)
  refine ⟨_, recover_ok hmax, ?_, ?_, ?_, ?_, ?_, ?_, ?_⟩
  · intro b hb
    rw [← applyWrites_replay]
    exact recovered_eq (by omega)
  · rw [runOps_recoverOps, if_neg (by omega)]
  · rw [runOps_recoverOps]
    rfl
  · rw [runOps_recoverOps, BlockFile.contents_ofContents, Function.update_self,
      superblockIn_superblockBlock]
  · rw [hck, recoverLsn, replay_lastLsn]
  · rw [hck]
  · intro d' l' h
    obtain ⟨hl, hr⟩ := recovered_of_interrupted_many (by omega) h
    exact ⟨_, recover_ok (by rw [hl]; exact hmax), fun b hb => hr b (by omega)⟩

/-- A crashed run with one committed transaction in its log, which writes block 5. -/
def crashedImage : Nat → Block := fun b =>
  if b = 0 then superblockBlock
    { magic := magicNumber, blockSize := 4096, totalBlocks := 10, inodeCount := 32,
      inodeBitmapStart := 1, dataBitmapStart := 2, inodeTableStart := 3, dataStart := 4,
      rootInode := 1, cleanUnmount := 0, lastCheckpointLsn := 0 }
  else Bytes.zero 4096

def crashedLog : List WalRecord :=
  [encodeRecord .begin 1 1, encodeRecord (.block 5 fun _ => 7) 1 2, encodeRecord .commit 1 3]

theorem chained_crashedLog : Chained 10 none crashedLog := by
  refine ⟨encodeRecord_intact ?_ (by norm_num) (by norm_num) (by norm_num), fun _ h => (by cases h),
    encodeRecord_intact ?_ (by norm_num) (by norm_num) (by norm_num), ?_,
    encodeRecord_intact ?_ (by norm_num) (by norm_num) (by norm_num), ?_, trivial⟩
  · nofun
  · intro b p h
    cases h
    decide
  · rintro p ⟨⟩
    rfl
  · nofun
  · rintro p ⟨⟩
    rfl

/-- A torn record behind them, or none, is not read. -/
theorem scan_crashedLog (tail : List UInt8) (h : tail.length < 40) :
    scan 10 (recordsBytes crashedLog ++ tail) = crashedLog := by
  have htail : ∀ prev, scanFrom 10 tail prev = [] := fun prev => by
    apply scanFrom_none
    rw [scanRecord, if_pos h]
  have := scanFrom_recordsBytes chained_crashedLog tail
  rwa [htail, List.append_nil] at this

theorem recover_redoes_committed_crashedLog :
    ∃ out, recover crashedImage (recordsBytes crashedLog) = .ok out ∧
      out.media.img.contents 5 = (fun _ => 7) ∧ out.nextLsn = 4 := by
  have hsb : superblockIn (crashedImage 0) = _ := superblockIn_superblockBlock _
  have hscan : scan (superblockIn (crashedImage 0)).totalBlocks.toNat (recordsBytes crashedLog)
      = crashedLog := by
    rw [hsb]
    have := scan_crashedLog [] (by decide)
    rwa [List.append_nil] at this
  obtain ⟨out, hout, hb, -, -, -, hck, hnext, -⟩ :=
    recover_redoes_committed (d := crashedImage) (l := recordsBytes crashedLog)
      (by rw [hsb]; decide) (by
        rw [hscan]
        simp only [crashedLog, List.mem_cons, List.not_mem_nil, or_false]
        rintro r (rfl | rfl | rfl) <;> decide)
  refine ⟨out, hout, ?_, ?_⟩
  · rw [hb 5 (by norm_num), hscan, hsb]
    rfl
  · rw [hnext, hck, hscan, hsb]
    rfl

end ConcurrentFs
