/-
  ConcurrentFs.ScanSafe

  Recovery on a log file with any bytes in it.  What `scan` returns is the longest
  run of records at the front of the file: each intact, with lsns that count up
  one by one.  From such records `recover` writes to blocks of the disk other than
  the superblock's, and last to the superblock, where only the checkpoint moves.
-/
import ConcurrentFs.Image
import ConcurrentFs.Recovery

namespace ConcurrentFs

open Lib

/-! ## A run of records -/

/-- Records that pass every check `scan` makes, one after the other from the start of a log. -/
structure LogRun (totalBlocks : Nat) (rs : List WalRecord) : Prop where
  intact : ∀ r ∈ rs, r.Intact totalBlocks
  lsns : rs.IsChain fun a b => b.header.lsn.toNat = a.header.lsn.toNat + 1

/-- The scan's comparison is on words; behind an lsn that is not zero it is one on numbers. -/
theorem lsn_eq_add_one_iff {a b : UInt64} (hb : b ≠ 0) : b = a + 1 ↔ b.toNat = a.toNat + 1 := by
  have hb' : b.toNat ≠ 0 := fun h => hb (UInt64.toNat_inj.mp h)
  have ha := a.toNat_lt
  rw [← UInt64.toNat_inj, UInt64.toNat_add, show (1 : UInt64).toNat = 1 from rfl]
  constructor
  · intro h
    -- had the sum wrapped, `b` would be zero
    have : a.toNat + 1 < 2 ^ 64 := by
      by_contra hge
      have : a.toNat + 1 = 2 ^ 64 := by omega
      rw [this, Nat.mod_self] at h
      exact hb' h
    rw [h, Nat.mod_eq_of_lt this]
  · intro h
    have := b.toNat_lt
    rw [h, Nat.mod_eq_of_lt (by omega)]

theorem chained_cons_iff {totalBlocks : Nat} {prev : Option UInt64} {rs : List WalRecord} :
    Chained totalBlocks prev rs ↔
      (∀ r ∈ rs, r.Intact totalBlocks) ∧ (∀ r ∈ rs.head?, r.Follows prev) ∧
      rs.IsChain fun a b => b.header.lsn.toNat = a.header.lsn.toNat + 1 := by
  induction rs generalizing prev with
  | nil => simp [Chained]
  | cons r rs ih =>
    rw [Chained, ih]
    constructor
    · rintro ⟨hi, hf, his, hfs, hc⟩
      refine ⟨?_, ?_, ?_⟩
      · intro x hx
        rcases List.mem_cons.mp hx with rfl | hx
        · exact hi
        · exact his x hx
      · intro x hx
        rw [List.head?_cons, Option.mem_some_iff] at hx
        exact hx ▸ hf
      · cases rs with
        | nil => exact List.isChain_singleton r
        | cons a as =>
          refine List.isChain_cons_cons.mpr ⟨?_, hc⟩
          have ha := hfs a (by simp) r.header.lsn rfl
          exact (lsn_eq_add_one_iff (his a (by simp)).lsn).mp ha
    · rintro ⟨his, hf, hc⟩
      refine ⟨his r (by simp), hf r (by simp), fun x hx => his x (List.mem_cons_of_mem _ hx), ?_,
        hc.tail⟩
      intro x hx p hp
      cases rs with
      | nil => simp at hx
      | cons a as =>
        rw [List.head?_cons, Option.mem_some_iff] at hx
        subst hx
        rw [← Option.some.inj hp]
        exact (lsn_eq_add_one_iff (his a (by simp)).lsn).mpr (List.isChain_cons_cons.mp hc).1

/-- From the start of the file there is no lsn to follow. -/
theorem chained_none_iff {totalBlocks : Nat} {rs : List WalRecord} :
    Chained totalBlocks none rs ↔ LogRun totalBlocks rs := by
  rw [chained_cons_iff]
  constructor
  · rintro ⟨hi, -, hc⟩
    exact ⟨hi, hc⟩
  · rintro ⟨hi, hc⟩
    refine ⟨hi, ?_, hc⟩
    intro r _ p hp
    cases hp

/-! ## What the scan returns -/

theorem scanFrom_chained (totalBlocks : Nat) (rest : List UInt8) (prev : Option UInt64) :
    Chained totalBlocks prev (scanFrom totalBlocks rest prev) := by
  induction hn : rest.length using Nat.strong_induction_on generalizing rest prev with
  | _ n ih =>
    cases hr : scanRecord totalBlocks rest prev with
    | none =>
      rw [scanFrom_none hr]
      trivial
    | some r =>
      obtain ⟨hlen, -, hi, hf, -⟩ := scanRecord_eq_some_iff.mp hr
      rw [scanFrom_some hr]
      refine ⟨hi, hf, ih _ ?_ _ _ rfl⟩
      rw [List.length_drop]
      omega

theorem ofFn_frontBytes {l : List UInt8} {n : Nat} (h : n ≤ l.length) :
    List.ofFn (frontBytes l n) = l.take n := by
  apply List.ext_getElem
  · simp [h]
  · intro i h1 h2
    rw [List.length_ofFn] at h1
    rw [List.getElem_ofFn, List.getElem_take, frontBytes, List.getD_eq_getElem?_getD,
      List.getElem?_eq_getElem, Option.getD_some]

/-- The record at the front of a file is the bytes at the front of it. -/
theorem scanRecord_bytes_eq {totalBlocks : Nat} {rest : List UInt8} {prev : Option UInt64}
    {r : WalRecord} (h : scanRecord totalBlocks rest prev = some r) :
    rest = r.bytes ++ rest.drop (40 + r.header.payloadLen.toNat) := by
  obtain ⟨hlen, hr, hi, -, hpay⟩ := scanRecord_eq_some_iff.mp h
  have hp := hi.payloadLen_toNat
  have hhead : List.ofFn (WalRecordHeader.codec r.header) = rest.take 40 := by
    rw [hr, Equiv.apply_symm_apply, ofFn_frontBytes hlen]
  have hbody : (List.ofFn r.payload).take r.header.payloadLen.toNat
      = (rest.drop 40).take r.header.payloadLen.toNat := by
    by_cases ht : r.header.type = walBlock
    · obtain ⟨hfit, hpl⟩ := hpay ht
      rw [if_pos ht] at hp
      rw [hp, hpl, ofFn_frontBytes (by rw [List.length_drop]; omega), List.take_take,
        Nat.min_self]
    · rw [if_neg ht] at hp
      rw [hp, List.take_zero, List.take_zero]
  rw [WalRecord.bytes, hhead, hbody, ← List.take_add, List.take_append_drop]

theorem scanFrom_prefix (totalBlocks : Nat) (rest : List UInt8) (prev : Option UInt64) :
    recordsBytes (scanFrom totalBlocks rest prev) <+: rest := by
  induction hn : rest.length using Nat.strong_induction_on generalizing rest prev with
  | _ n ih =>
    cases hr : scanRecord totalBlocks rest prev with
    | none =>
      rw [scanFrom_none hr]
      exact List.nil_prefix
    | some r =>
      have hlen := scanRecord_length hr
      rw [scanFrom_some hr, recordsBytes_cons]
      conv => rhs; rw [scanRecord_bytes_eq hr]
      rw [List.prefix_append_right_inj]
      refine ih _ ?_ _ _ rfl
      rw [List.length_drop]
      omega

/-- No run of records at the front of the file is longer than what the scan returns. -/
theorem scan_maximal {totalBlocks : Nat} {l : List UInt8} {rs : List WalRecord}
    (h : LogRun totalBlocks rs) (hp : recordsBytes rs <+: l) : rs <+: scan totalBlocks l := by
  obtain ⟨rest, rfl⟩ := hp
  rw [scan, scanFrom_recordsBytes (chained_none_iff.mpr h)]
  exact List.prefix_append ..

theorem scan_logRun (totalBlocks : Nat) (l : List UInt8) :
    LogRun totalBlocks (scan totalBlocks l) :=
  chained_none_iff.mp (scanFrom_chained totalBlocks l none)

/-! ## What recovery writes -/

/-- The write to the image that an operation of `recover` makes, if it makes one. -/
def RecoverOp.imageWrite : RecoverOp → Option (Nat × Block)
  | .writeBlock b p => some (b, p)
  | .writeSuperblock sb => some (0, superblockBlock sb)
  | _ => none

theorem filterMap_imageWrite_writeBlock (ws : List (Nat × Block)) :
    (ws.map fun w => RecoverOp.writeBlock w.1 w.2).filterMap RecoverOp.imageWrite = ws := by
  induction ws with
  | nil => rfl
  | cons w ws ih =>
    rw [List.map_cons, List.filterMap_cons, ih]
    rfl

theorem imageWrites_recoverOps (d : Nat → Block) (l : List UInt8) :
    (recoverOps d l).filterMap RecoverOp.imageWrite = recoverWrites d l ++
      [(0, superblockBlock (checkpointed (superblockIn (d 0)) (recoverLsn d l)))] := by
  have htail : (if (recoverLsn d l + 1) % 2 ^ 64 = 0 then []
      else [RecoverOp.truncateLog, RecoverOp.syncLog]).filterMap RecoverOp.imageWrite = [] := by
    split <;> rfl
  rw [show recoverOps d l = (recoverWrites d l).map (fun w => .writeBlock w.1 w.2)
    ++ [.syncImg, .writeSuperblock (checkpointed (superblockIn (d 0)) (recoverLsn d l)), .syncImg]
    ++ if (recoverLsn d l + 1) % 2 ^ 64 = 0 then [] else [.truncateLog, .syncLog] from rfl,
    List.filterMap_append, List.filterMap_append, filterMap_imageWrite_writeBlock, htail,
    List.append_nil]
  rfl

theorem le_recoverLsn (d : Nat → Block) (l : List UInt8) :
    (superblockIn (d 0)).lastCheckpointLsn ≤ UInt64.ofNat (recoverLsn d l) := by
  rw [UInt64.le_iff_toNat_le, UInt64.toNat_ofNat_of_lt' (recoverLsn_lt d l), recoverLsn,
    replay_lastLsn]
  exact le_maxLsn _ _

/-- On a valid superblock and any bytes at all for a log, `recover` reads the longest run of
    records at its front and writes nothing but blocks of the disk, and then the superblock
    with a checkpoint that has not gone back. -/
theorem recover_safe {d : Nat → Block} {n : UInt32}
    (hv : validateSuperblock (superblockIn (d 0)) n = .ok ()) (l : List UInt8) :
    let sb := superblockIn (d 0)
    let total := sb.totalBlocks.toNat
    let records := scan total l
    LogRun total records ∧
    (∀ r ∈ records, r.header.type = walBlock →
      1 ≤ r.header.blockNo.toNat ∧ r.header.blockNo.toNat < total) ∧
    recordsBytes records <+: l ∧
    (∀ rs, LogRun total rs → recordsBytes rs <+: l → rs <+: records) ∧
    ∃ ws lsn, (recoverOps d l).filterMap RecoverOp.imageWrite =
        ws ++ [(0, superblockBlock { sb with lastCheckpointLsn := lsn })] ∧
      (∀ w ∈ ws, 1 ≤ w.1 ∧ w.1 < total) ∧ sb.lastCheckpointLsn ≤ lsn := by
  intro sb total records
  have htotal : total ≠ 0 := Nat.ne_of_gt (Nat.zero_lt_of_lt (regions_of_validate hv).room)
  have hrun := scan_logRun total l
  refine ⟨hrun, ?_, scanFrom_prefix total l none, fun rs => scan_maximal,
    recoverWrites d l, UInt64.ofNat (recoverLsn d l), imageWrites_recoverOps d l, ?_,
    le_recoverLsn d l⟩
  · intro r hr ht
    obtain ⟨h0, hlt⟩ := (hrun.intact r hr).block ht
    exact ⟨Nat.pos_of_ne_zero fun h => h0 (UInt32.toNat_inj.mp h), hlt htotal⟩
  · intro w hw
    exact ⟨Nat.pos_of_ne_zero (recoverWrites_ne_zero hw), recoverWrites_lt hw htotal⟩

/-- A committed transaction and then half a record: recovery reads the one, writes its block and
    the superblock, and does not look at the other. -/
theorem recover_safe_torn :
    ∃ l, l = recordsBytes crashedLog ++ List.replicate 20 87 ∧ scan 10 l = crashedLog ∧
      LogRun 10 crashedLog ∧ recordsBytes crashedLog <+: l ∧
      ∃ ws lsn, (recoverOps crashedImage l).filterMap RecoverOp.imageWrite =
          ws ++ [(0, superblockBlock { superblockIn (crashedImage 0) with
          lastCheckpointLsn := lsn })] ∧
        ∀ w ∈ ws, 1 ≤ w.1 ∧ w.1 < 10 := by
  have hsb : superblockIn (crashedImage 0) = _ := superblockIn_superblockBlock _
  have hv : validateSuperblock (superblockIn (crashedImage 0)) 10 = .ok () := by
    rw [hsb]
    rfl
  have htotal : (superblockIn (crashedImage 0)).totalBlocks.toNat = 10 := by
    rw [hsb]
    rfl
  have hscan : scan 10 (recordsBytes crashedLog ++ List.replicate 20 87) = crashedLog :=
    scan_crashedLog _ (by rw [List.length_replicate]; decide)
  obtain ⟨hrun, -, hpre, -, ws, lsn, hops, hin, -⟩ :=
    recover_safe hv (recordsBytes crashedLog ++ List.replicate 20 87)
  rw [htotal, hscan] at hrun hpre
  rw [htotal] at hin
  exact ⟨_, rfl, hscan, hrun, hpre, ws, lsn, hops, hin⟩

end ConcurrentFs
