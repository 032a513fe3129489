/-
  ConcurrentFs.StorageCrash

  Crash atomicity and durability of the storage engine: after a crash at any point,
  mounting again finds what the first so many transactions made of what the image
  held at the last mount, and nothing that was promised is missing.
-/
import ConcurrentFs.StorageSteps

namespace ConcurrentFs

open Lib

/-! ## Mounting -/

/-- `Storage::Impl::Impl` up to where it marks the image as in use: replay the log, or empty it. -/
def mount (deviceBlocks : UInt32) (d : Nat → Block) (l : List UInt8) : Except String Recovered := do
  let sb ← readSuperblock (d 0) deviceBlocks
  if sb.cleanUnmount = 0 then
    recover d l
  else if (sb.lastCheckpointLsn.toNat + 1) % 2 ^ 64 = 0 then
    .error "log: lsns start at 1"
  else
    return ⟨⟨.ofContents d, ⟨[], []⟩⟩, sb, sb.lastCheckpointLsn.toNat + 1, ⟨false, 0, 0, 0⟩⟩

theorem validateSuperblock_fixed (sb : Superblock) (n : UInt32) :
    validateSuperblock sb.fixed n = validateSuperblock sb n := rfl

theorem mount_of_validate {n : UInt32} {d : Nat → Block} {l : List UInt8}
    (h : validateSuperblock (superblockIn (d 0)) n = .ok ()) :
    mount n d l = if (superblockIn (d 0)).cleanUnmount = 0 then recover d l
      else if ((superblockIn (d 0)).lastCheckpointLsn.toNat + 1) % 2 ^ 64 = 0 then
        .error "log: lsns start at 1"
      else .ok ⟨⟨.ofContents d, ⟨[], []⟩⟩, superblockIn (d 0),
        (superblockIn (d 0)).lastCheckpointLsn.toNat + 1, ⟨false, 0, 0, 0⟩⟩ := by
  have hr : readSuperblock (d 0) n = .ok (superblockIn (d 0)) := readSuperblock_eq_ok.mpr ⟨rfl, h⟩
  rw [mount, hr]
  rfl

theorem validate_of_mount {n : UInt32} {d : Nat → Block} {l : List UInt8} {out : Recovered}
    (h : mount n d l = .ok out) : validateSuperblock (superblockIn (d 0)) n = .ok () := by
  cases hr : readSuperblock (d 0) n with
  | error e => simp [mount, hr, bind, Except.bind] at h
  | ok sb => exact (readSuperblock_eq_ok.mp hr).2

/-! ## What recovery redoes -/

section Redo

variable {first : Nat} {es : List LogEntry} {rs : List WalRecord} {sb : Superblock}

/-- The block writes of the entries whose transaction is done. -/
def redoEntries (done : Nat → Bool) (es : List LogEntry) : List (Nat × Block) :=
  es.filterMap fun e => match e.1 with
    | .block b p => if done e.2 then some (b, p) else none
    | _ => none

theorem redoEntries_append (done : Nat → Bool) (es fs : List LogEntry) :
    redoEntries done (es ++ fs) = redoEntries done es ++ redoEntries done fs :=
  List.filterMap_append

theorem redoEntries_head (done : Nat → Bool) (t : Txn) :
    redoEntries done t.head = if done t.lsn then t.images else [] := by
  have h : ∀ ws : List (Nat × Block), redoEntries done (ws.map fun w => (.block w.1 w.2, t.lsn)) =
      if done t.lsn then ws else [] := by
    intro ws
    induction ws with
    | nil => simp [redoEntries]
    | cons w ws ih =>
      rw [redoEntries] at ih ⊢
      cases hd : done t.lsn <;> simp_all
  exact h t.images

theorem redoEntries_entries (done : Nat → Bool) (ts : List Txn) (h : ∀ t ∈ ts, done t.lsn = true) :
    redoEntries done (ts.flatMap Txn.entries) = ts.flatMap Txn.images := by
  induction ts with
  | nil => rfl
  | cons t ts ih =>
    rw [List.flatMap_cons, List.flatMap_cons, redoEntries_append, Txn.entries, redoEntries_append,
      redoEntries_head, if_pos (h t (List.mem_cons_self ..)),
      ih fun u hu => h u (List.mem_cons_of_mem _ hu)]
    simp [redoEntries]

theorem encodeRecord_type (item : WalItem) (txnId lsn : Nat) :
    (encodeRecord item txnId lsn).header.type = item.type := rfl

/-- Redoing records that were encoded in order, all past the checkpoint. -/
theorem redone_encodeFrom {records : List WalRecord} {totalBlocks : Nat}
    (hes : BlocksBelow totalBlocks es)
    (htotal : totalBlocks ≤ 2 ^ 32) (hend : first + es.length ≤ 2 ^ 64)
    (hck : sb.lastCheckpointLsn.toNat < first) :
    ((encodeFrom first es).filter (redone sb records)).map
        (fun r => (r.header.blockNo.toNat, r.payload)) =
      redoEntries (fun id => committed records (UInt64.ofNat id)) es := by
  induction es generalizing first with
  | nil => rfl
  | cons e es ih =>
    obtain ⟨item, id⟩ := e
    rw [List.length_cons] at hend
    have hes' : BlocksBelow totalBlocks es := fun x hx => hes x (List.mem_cons_of_mem _ hx)
    have ih' := ih hes' (show first + 1 + es.length ≤ 2 ^ 64 by omega) (by omega)
    have hlsn : sb.lastCheckpointLsn < (encodeRecord item id first).header.lsn := by
      show sb.lastCheckpointLsn < UInt64.ofNat first
      rw [UInt64.lt_iff_toNat_lt, UInt64.toNat_ofNat_of_lt' (by show first < 2 ^ 64; omega)]
      exact hck
    rw [encodeFrom_cons, List.filter_cons]
    cases item with
    | begin =>
      have : redone sb records (encodeRecord .begin id first) = false := by
        simp only [redone, encodeRecord_type, WalItem.type]
        simp [walBegin, walBlock]
      rw [this, if_neg (by simp), ih']
      rfl
    | commit =>
      have : redone sb records (encodeRecord .commit id first) = false := by
        simp only [redone, encodeRecord_type, WalItem.type]
        simp [walCommit, walBlock]
      rw [this, if_neg (by simp), ih']
      rfl
    | block b p =>
      obtain ⟨-, hb⟩ := hes _ (List.mem_cons_self ..) b p rfl
      have hbno : (encodeRecord (.block b p) id first).header.blockNo.toNat = b := by
        show (UInt32.ofNat b).toNat = b
        rw [UInt32.toNat_ofNat']
        exact Nat.mod_eq_of_lt (by omega)
      have hred : redone sb records (encodeRecord (.block b p) id first) =
          committed records (UInt64.ofNat id) := by
        rw [Bool.eq_iff_iff, redone, decide_eq_true_iff]
        exact ⟨fun h => h.2.2, fun h => ⟨hlsn, rfl, h⟩⟩
      rw [hred]
      cases hd : committed records (UInt64.ofNat id) with
      | true =>
        rw [if_pos rfl, List.map_cons, hbno, ih']
        simp [redoEntries, hd, encodeRecord, WalItem.payload]
      | false =>
        rw [if_neg (by simp), ih']
        simp [redoEntries, hd]

/-- The transactions with a COMMIT record among encoded records and others behind them. -/
theorem committed_append {id : UInt64} :
    committed (encodeFrom first es ++ rs) id = true ↔
      (∃ e ∈ es, e.1 = .commit ∧ UInt64.ofNat e.2 = id) ∨
        ∃ r ∈ rs, r.header.type = walCommit ∧ r.header.txnId = id := by
  have htype : ∀ item : WalItem, item.type = walCommit ↔ item = .commit := by
    intro item
    cases item with
    | begin => exact ⟨fun h => absurd h (by decide), nofun⟩
    | block b p => exact ⟨fun h => absurd h (by simp [WalItem.type, walBlock, walCommit]), nofun⟩
    | commit => exact ⟨fun _ => rfl, fun _ => rfl⟩
  rw [committed, List.any_append, Bool.or_eq_true, List.any_eq_true, List.any_eq_true]
  refine or_congr ?_ ?_
  · induction es generalizing first with
    | nil => simp
    | cons e es ih =>
      rw [encodeFrom_cons, List.exists_mem_cons_iff, List.exists_mem_cons_iff, ih]
      refine or_congr ?_ Iff.rfl
      rw [decide_eq_true_iff, encodeRecord_type, htype]
      rfl
  · simp

end Redo

/-! ## The log after a crash -/

theorem Numbered.mem {lsn : Nat} {ts : List Txn} (h : Numbered lsn ts) {t : Txn} (ht : t ∈ ts) :
    lsn ≤ t.lsn ∧ t.lsn < lsn + (ts.flatMap Txn.entries).length := by
  induction ts generalizing lsn with
  | nil => cases ht
  | cons u ts ih =>
    obtain ⟨hu, hts⟩ := h
    rw [List.flatMap_cons, List.length_append]
    have hpos : 0 < u.entries.length := by simp [Txn.entries]
    rcases List.mem_cons.mp ht with rfl | ht
    · omega
    · have := ih hts ht
      omega

theorem exists_of_forall₂ {α β : Type} {R : α → β → Prop} {as : List α} {bs : List β}
    (h : List.Forall₂ R as bs) {b : β} (hb : b ∈ bs) : ∃ a ∈ as, R a b := by
  induction h with
  | nil => cases hb
  | cons hr _ ih =>
    rcases List.mem_cons.mp hb with rfl | hb
    · exact ⟨_, List.mem_cons_self .., hr⟩
    · obtain ⟨a, ha, har⟩ := ih hb
      exact ⟨a, List.mem_cons_of_mem _ ha, har⟩

namespace Phase

/-- What is written of the transaction on its way, and may be torn. -/
@[simp] def unsynced (t : Txn) : Phase → List LogEntry
  | .stage _ todo => t.head.take (t.head.length - todo.length)
  | .firstSync _ => t.head
  | .secondSync _ => [(.commit, t.lsn)]
  | _ => []

theorem tail_eq (t : Txn) (p : Phase) : p.tail t = p.syncedTail t ++ p.unsynced t := by
  cases p <;> simp [Txn.entries]

theorem mem_tail {t : Txn} {p : Phase} {e : LogEntry} (h : e ∈ p.tail t) :
    p.logging = true ∧ e ∈ t.entries := by
  cases p with
  | stage txn todo => exact ⟨rfl, List.mem_append_left _ (List.mem_of_mem_take h)⟩
  | firstSync txn => exact ⟨rfl, List.mem_append_left _ h⟩
  | barrier txn => exact ⟨rfl, List.mem_append_left _ h⟩
  | secondSync txn => exact ⟨rfl, h⟩
  | _ => cases h

end Phase

theorem Txn.mem_head {t : Txn} {e : LogEntry} (h : e ∈ t.head) : e.2 = t.lsn ∧ e.1 ≠ .commit := by
  rcases List.mem_cons.mp h with rfl | h
  · exact ⟨rfl, nofun⟩
  · obtain ⟨w, -, rfl⟩ := List.mem_map.mp h
    exact ⟨rfl, nofun⟩

theorem Txn.mem_entries {t : Txn} {e : LogEntry} (h : e ∈ t.entries) : e.2 = t.lsn := by
  rcases List.mem_append.mp h with h | h
  · exact (Txn.mem_head h).1
  · rw [List.mem_singleton.mp h]

theorem History.Inv.blocksBelow {h : History} {totalBlocks : Nat} (hi : h.Inv totalBlocks) {t : Txn}
    (ht : t ∈ h.txns) : BlocksBelow totalBlocks t.entries := by
  intro e he b p hb
  rcases List.mem_append.mp he with he | he
  · rcases List.mem_cons.mp he with rfl | he
    · cases hb
    · obtain ⟨w, hw, rfl⟩ := List.mem_map.mp he
      cases hb
      exact hi.range t ht w.1 (List.mem_map_of_mem hw)
  · rw [List.mem_singleton.mp he] at hb
    cases hb

theorem ofNat_inj_of_lt {a b : Nat} (ha : a < 2 ^ 64) (hb : b < 2 ^ 64)
    (h : UInt64.ofNat a = UInt64.ofNat b) : a = b := by
  have := congrArg UInt64.toNat h
  rwa [UInt64.toNat_ofNat_of_lt' ha, UInt64.toNat_ofNat_of_lt' hb] at this

namespace Storage

variable {s : Storage}

theorem Inv.last_mem (h : s.Inv) (hl : s.phase.logging = true) : s.hist.last ∈ s.hist.txns := by
  have hd := h.durable
  rw [hl] at hd
  have hn : s.hist.txns ≠ [] := fun he => by simp [he] at hd
  exact List.mem_of_getElem? (History.getElem?_last hn)

theorem mem_inLog {t : Txn} (ht : t ∈ s.hist.inLog) : t ∈ s.hist.txns :=
  List.mem_of_mem_take (List.mem_of_mem_drop ht)

theorem Inv.blocksBelow (h : s.Inv) :
    BlocksBelow s.sb.totalBlocks.toNat (s.hist.logged ++ s.phase.tail s.hist.last) := by
  intro e he
  rcases List.mem_append.mp he with he | he
  · obtain ⟨t, ht, he⟩ := List.mem_flatMap.mp he
    exact h.hist.blocksBelow (mem_inLog ht) e he
  · obtain ⟨hl, he⟩ := Phase.mem_tail he
    exact h.hist.blocksBelow (h.last_mem hl) e he

/-- The lsns of the transactions in the log. -/
theorem Inv.lsn_inLog (h : s.Inv) {t : Txn} (ht : t ∈ s.hist.inLog) :
    s.hist.firstLsn ≤ t.lsn ∧ t.lsn < s.hist.firstLsn + s.hist.logged.length := by
  have hn := h.log.numbered
  cases hl : s.phase.logging with
  | false =>
    have hd := h.durable
    rw [hl] at hd
    rw [History.drop_eq_inLog hd] at hn
    exact hn.mem ht
  | true =>
    have hd := h.durable
    rw [hl] at hd
    rw [History.drop_eq_inLog_concat hd h.hist.dropped, numbered_concat] at hn
    exact hn.1.mem ht

theorem Inv.lsn_last (h : s.Inv) (hl : s.phase.logging = true) :
    s.hist.last.lsn = s.hist.firstLsn + s.hist.logged.length := by
  have hn := h.log.numbered
  have hd := h.durable
  rw [hl] at hd
  rw [History.drop_eq_inLog_concat hd h.hist.dropped, numbered_concat] at hn
  exact hn.2

/-- A torn record among those written last. -/
theorem exists_unsynced {first n : Nat} {us : List LogEntry} {rs : List WalRecord}
    (h : List.Forall₂ WalRecord.TornFrom ((encodeFrom first us).take n) rs) {r : WalRecord}
    (hr : r ∈ rs) :
    ∃ e ∈ us, r.header.type = e.1.type ∧
      (r.header.txnId = UInt64.ofNat e.2 ∨ r.header.txnId = 0) ∧
      ∃ m, m < first + us.length ∧ r.header.lsn = UInt64.ofNat m := by
  obtain ⟨w, hw, htorn⟩ := exists_of_forall₂ h hr
  obtain ⟨e, he, m, -, hm, rfl⟩ := mem_encodeFrom (List.mem_of_mem_take hw)
  exact ⟨e, he, htorn.type, htorn.txnId, m, hm, htorn.lsn⟩

/-- Only a COMMIT record of the second sync can make the transaction on its way count. -/
theorem Inv.commit_of_last (h : s.Inv) (hlsn : s.wal.nextLsn < 2 ^ 64)
    (ht : s.phase ≠ .truncated) {first n : Nat} {rs : List WalRecord}
    (hrs : List.Forall₂ WalRecord.TornFrom
      ((encodeFrom first (s.phase.unsynced s.hist.last)).take n) rs)
    (hl : s.phase.logging = true) {id : UInt64}
    (hid : id = UInt64.ofNat s.hist.last.lsn ∨ id = 0)
    (hc : committed (encodeFrom s.hist.firstLsn (s.hist.logged ++ s.phase.syncedTail s.hist.last)
      ++ rs) id = true) :
    ∃ txn, s.phase = .secondSync txn := by
  have hnext := (h.log.holds ht).next
  rw [List.length_append] at hnext
  have hlast := h.lsn_last hl
  rcases committed_append.mp hc with ⟨e, he, hcom, heid⟩ | ⟨r, hr, hcom, -⟩
  · exfalso
    rcases List.mem_append.mp he with he | he
    · -- a COMMIT before it is of an older transaction
      obtain ⟨t, htin, he⟩ := List.mem_flatMap.mp he
      rw [Txn.mem_entries he] at heid
      obtain ⟨hlo, hhi⟩ := h.lsn_inLog htin
      have hfirst := h.log.first
      rcases hid with hid | hid
      · rw [hid] at heid
        have := ofNat_inj_of_lt (by omega) (by
          have : 0 < (s.phase.tail s.hist.last).length := by
            cases hp : s.phase with
            | stage txn todo =>
              have hof := h.phase
              rw [hp] at hof
              have := hof.2.length_le
              rw [Phase.tail, List.length_take, Txn.length_head]
              omega
            | firstSync txn => simp [Txn.length_head]
            | barrier txn => simp [Txn.length_head]
            | secondSync txn => simp [Txn.entries]
            | _ => simp [hp] at hl
          omega) heid
        omega
      · rw [hid] at heid
        have := ofNat_inj_of_lt (b := 0) (by omega) (by omega) heid
        omega
    · -- and what is synced of this one has none
      cases hp : s.phase with
      | barrier txn =>
        rw [hp] at he
        exact (Txn.mem_head he).2 hcom
      | secondSync txn =>
        rw [hp] at he
        exact (Txn.mem_head he).2 hcom
      | _ => simp [hp] at he
  · obtain ⟨e, he, htype, -⟩ := exists_unsynced hrs hr
    have hne : ∀ e ∈ s.hist.last.head, e.1.type ≠ walCommit := by
      intro e he
      rcases List.mem_cons.mp he with rfl | he
      · show walBegin ≠ walCommit
        decide
      · obtain ⟨w, -, rfl⟩ := List.mem_map.mp he
        show walBlock ≠ walCommit
        decide
    rw [hcom] at htype
    cases hp : s.phase with
    | secondSync txn => exact ⟨txn, rfl⟩
    | stage txn todo =>
      rw [hp] at he
      exact absurd htype.symm (hne e (List.mem_of_mem_take he))
    | firstSync txn =>
      rw [hp] at he
      exact absurd htype.symm (hne e he)
    | _ => simp [hp] at he

/-- What recovery redoes from the log a crash left: the durable transactions since the last
    reset, and the one on its way if its COMMIT record came through. -/
theorem Inv.crash_replay (h : s.Inv) (hlsn : s.wal.nextLsn < 2 ^ 64) (ht : s.phase ≠ .truncated)
    {l : List UInt8} (hc : s.wal.file.CrashTo l) (sb : Superblock)
    (hck : sb.lastCheckpointLsn.toNat < s.hist.firstLsn) :
    (∃ k, s.hist.durable ≤ k ∧ k ≤ s.hist.txns.length ∧
      (replay sb (scan s.sb.totalBlocks.toNat l)).writes =
        ((s.hist.txns.take k).drop s.hist.dropped).flatMap Txn.images) ∧
    ∀ r ∈ scan s.sb.totalBlocks.toNat l, r.header.lsn.toNat < s.wal.nextLsn := by
  have hholds := h.log.holds ht
  have hfirst := h.log.first
  have htotal : s.sb.totalBlocks.toNat ≤ 2 ^ 32 := Nat.le_of_lt s.sb.totalBlocks.toNat_lt
  have hbelow := h.blocksBelow
  have hnext := hholds.next
  rw [Phase.tail_eq, ← List.append_assoc] at hholds hbelow hnext
  obtain ⟨n, rs, hscan, hrs⟩ := hholds.scan_crash hc hbelow htotal (by omega) hlsn
  rw [List.length_append] at hnext
  rw [hscan]
  refine ⟨?_, ?_⟩
  · -- nothing that may be torn is redone
    have htorn : rs.filter (redone sb (encodeFrom s.hist.firstLsn
        (s.hist.logged ++ s.phase.syncedTail s.hist.last) ++ rs)) = [] := by
      rw [List.filter_eq_nil_iff]
      intro r hr hred
      simp only [redone, decide_eq_true_eq] at hred
      obtain ⟨e, he, htype, hid, -⟩ := exists_unsynced hrs hr
      obtain ⟨hl, hent⟩ := Phase.mem_tail (p := s.phase) (t := s.hist.last) (e := e)
        (by rw [Phase.tail_eq]; exact List.mem_append_right _ he)
      rw [Txn.mem_entries hent] at hid
      obtain ⟨txn, hp⟩ := h.commit_of_last hlsn ht hrs hl hid hred.2.2
      rw [hp, Phase.unsynced, List.mem_singleton] at he
      rw [he, hred.2.1] at htype
      exact absurd (show walBlock = walCommit from htype) (by decide)
    have hwrites : (replay sb (encodeFrom s.hist.firstLsn
        (s.hist.logged ++ s.phase.syncedTail s.hist.last) ++ rs)).writes =
        redoEntries (fun id => committed (encodeFrom s.hist.firstLsn
          (s.hist.logged ++ s.phase.syncedTail s.hist.last) ++ rs) (UInt64.ofNat id))
          (s.hist.logged ++ s.phase.syncedTail s.hist.last) := by
      rw [replay_writes, List.filter_append, htorn, List.append_nil]
      exact redone_encodeFrom (fun e he => hbelow e (List.mem_append_left _ he)) htotal
        (by omega) hck
    have hlogged : redoEntries (fun id => committed (encodeFrom s.hist.firstLsn
        (s.hist.logged ++ s.phase.syncedTail s.hist.last) ++ rs) (UInt64.ofNat id)) s.hist.logged =
        s.hist.inLog.flatMap Txn.images := by
      refine redoEntries_entries _ _ fun t htin => committed_append.mpr (Or.inl ?_)
      refine ⟨(.commit, t.lsn), List.mem_append_left _
        (List.mem_flatMap.mpr ⟨t, htin, ?_⟩), rfl, rfl⟩
      exact List.mem_append_right _ (List.mem_singleton.mpr rfl)
    rw [hwrites, redoEntries_append, hlogged]
    have hdur := h.durable
    by_cases hs : s.phase.syncedTail s.hist.last = s.hist.last.head ∧
        committed (encodeFrom s.hist.firstLsn
          (s.hist.logged ++ s.phase.syncedTail s.hist.last) ++ rs)
          (UInt64.ofNat s.hist.last.lsn) = true
    · -- the COMMIT record came through
      have hl : s.phase.logging = true := by
        cases hp : s.phase with
        | barrier txn => rfl
        | secondSync txn => rfl
        | _ =>
          rw [hp] at hs
          exact absurd hs.1 (by simp [Txn.head])
      rw [hl] at hdur
      refine ⟨s.hist.txns.length, by omega, Nat.le_refl _, ?_⟩
      rw [List.take_length, History.drop_eq_inLog_concat hdur h.hist.dropped, List.flatMap_append,
        hs.1, redoEntries_head, ← hs.1, if_pos hs.2]
      simp
    · refine ⟨s.hist.durable, Nat.le_refl _, h.hist.durable, ?_⟩
      have hnone : redoEntries (fun id => committed (encodeFrom s.hist.firstLsn
          (s.hist.logged ++ s.phase.syncedTail s.hist.last) ++ rs) (UInt64.ofNat id))
          (s.phase.syncedTail s.hist.last) = [] := by
        by_cases hst : s.phase.syncedTail s.hist.last = s.hist.last.head
        · have hnc := fun hcm => hs ⟨hst, hcm⟩
          rw [hst] at hnc ⊢
          rw [redoEntries_head, if_neg hnc]
        · have : s.phase.syncedTail s.hist.last = [] := by
            cases hp : s.phase with
            | barrier txn => simp [hp] at hst
            | secondSync txn => simp [hp] at hst
            | _ => rfl
          rw [this]
          rfl
      rw [hnone, List.append_nil]
      rfl
  · intro r hr
    have hlt : ∀ m, m < s.wal.nextLsn → (UInt64.ofNat m).toNat < s.wal.nextLsn := by
      intro m hm
      rw [UInt64.toNat_ofNat_of_lt' (show m < 2 ^ 64 by omega)]
      exact hm
    rcases List.mem_append.mp hr with hr | hr
    · obtain ⟨e, -, m, -, hm, rfl⟩ := mem_encodeFrom hr
      exact hlt m (by omega)
    · obtain ⟨e, -, -, -, m, hm, hml⟩ := exists_unsynced hrs hr
      rw [hml]
      exact hlt m (by omega)

/-- What no step changes: the contents at mount and the fixed part of the superblock. -/
theorem step_fixed {s' : Storage} (hs : Step s s') :
    s'.hist.base = s.hist.base ∧ s'.sb.fixed = s.sb.fixed := by
  cases hs with
  | commitBegin blocks want closing _ _ _ _ =>
    rw [Storage.commitBegin]
    split <;> exact ⟨rfl, rfl⟩
  | _ => exact ⟨rfl, rfl⟩

theorem Run.fixed {d : Nat → Block} (h : Run d s) :
    s.hist.base = d ∧ s.sb.fixed = (superblockIn (d 0)).fixed := by
  induction h with
  | opened => exact ⟨rfl, rfl⟩
  | step _ hs ih =>
    obtain ⟨h1, h2⟩ := step_fixed hs
    exact ⟨h1.trans ih.1, h2.trans ih.2⟩

/-- Every block is, after a crash, what it was at the last reset, unless the log holds it. -/
theorem Inv.crash_block (h : s.Inv) {d : Nat → Block} (hc : s.img.CrashTo d) {b : Nat} (hb : b ≠ 0)
    (hl : ¬ s.hist.Logged b) : d b = s.hist.stateAt s.hist.dropped b := by
  rw [hc.eq_synced, h.synced b hb hl]
  intro hm
  obtain ⟨w, hw, rfl⟩ := List.mem_map.mp hm
  exact hl (h.pending w hw hb)

theorem not_logged_of_settled (h : s.Inv) (hp : s.phase.settled = true) (b : Nat) :
    ¬ s.hist.Logged b := by
  rintro ⟨i, t, h1, h2, -⟩
  have := h.settled hp
  have := h.hist.durable
  omega

/-- Everything a crash can leave of a running engine, mounted again. -/
theorem Inv.mount_crash (h : s.Inv) (hlsn : s.wal.nextLsn < 2 ^ 64) {n : UInt32}
    (hv : validateSuperblock s.sb.fixed n = .ok ()) {d : Nat → Block} {l : List UInt8}
    (hc : Media.CrashTo ⟨s.img, s.wal.file⟩ d l) :
    ∃ out, mount n d l = .ok out ∧ ∃ k, s.hist.durable ≤ k ∧ k ≤ s.hist.txns.length ∧
      ∀ b, b ≠ 0 → out.media.img.contents b = s.hist.stateAt k b := by
  obtain ⟨hci, hcl⟩ := hc
  have hon : OnDisk s.img (superblockIn (d 0)) := superblockIn_crash hci
  have hfix := h.sb.fixed _ hon
  have hval : validateSuperblock (superblockIn (d 0)) n = .ok () := by
    rw [← validateSuperblock_fixed, hfix]
    exact hv
  have htot : (superblockIn (d 0)).fixed.totalBlocks = s.sb.fixed.totalBlocks := by rw [hfix]
  replace htot : (superblockIn (d 0)).totalBlocks = s.sb.totalBlocks := htot
  have hfirst := h.log.first
  have hnext : s.hist.firstLsn ≤ s.wal.nextLsn := by
    by_cases ht : s.phase = .truncated
    · have := (h.log.truncated ht).2.1
      omega
    · have := (h.log.holds ht).next
      omega
  rw [mount_of_validate hval]
  by_cases hclean : (superblockIn (d 0)).cleanUnmount = 0
  · rw [if_pos hclean]
    -- the block writes and the lsns of the recovery that runs now
    have key : ∃ k, s.hist.durable ≤ k ∧ k ≤ s.hist.txns.length ∧
        (∀ b, b ≠ 0 → applyWrites d (recoverWrites d l) b = s.hist.stateAt k b) ∧
        recoverLsn d l < s.wal.nextLsn := by
      rw [recoverWrites, recoverLsn, replay_lastLsn, htot]
      by_cases hnew : s.phase.moved = true ∧
          (superblockIn (d 0)).lastCheckpointLsn = UInt64.ofNat (s.wal.nextLsn - 1)
      · -- the new checkpoint is on disk: everything is in disk.img and nothing is redone
        obtain ⟨hm, hck⟩ := hnew
        have hckn : (superblockIn (d 0)).lastCheckpointLsn.toNat = s.wal.nextLsn - 1 := by
          rw [hck, UInt64.toNat_ofNat_of_lt' (show s.wal.nextLsn - 1 < 2 ^ 64 by omega)]
        have hfl : s.phase.flushed = true := by
          revert hm
          cases s.phase <;> simp
        have hnl : s.phase.logging = false := by
          revert hm
          cases s.phase <;> simp
        have hi : s.phase ≠ .idle := by
          rintro hi
          simp [hi] at hm
        have hdur := h.durable
        rw [hnl] at hdur
        have hle : ∀ r ∈ scan s.sb.totalBlocks.toNat l, r.header.lsn.toNat < s.wal.nextLsn := by
          by_cases ht : s.phase = .truncated
          · obtain ⟨hfile, hn, hdl⟩ := h.log.truncated ht
            rw [hfile] at hcl
            rcases AppendFile.crashTo_truncate hcl with rfl | rfl
            · have hch : Chained s.sb.totalBlocks.toNat none
                  (encodeFrom s.hist.firstLsn s.hist.logged) :=
                chained_encodeFrom (fun e he => h.blocksBelow e (List.mem_append_left _ he))
                  (Nat.le_of_lt s.sb.totalBlocks.toNat_lt) (by omega) (by omega)
                  (by intros; contradiction)
              have hsc := scanFrom_recordsBytes hch []
              rw [List.append_nil, scanFrom_nil, List.append_nil] at hsc
              intro r hr
              rw [scan, hsc] at hr
              obtain ⟨e, -, m, -, hm, rfl⟩ := mem_encodeFrom hr
              show (UInt64.ofNat m).toNat < _
              rw [UInt64.toNat_ofNat_of_lt' (show m < 2 ^ 64 by omega)]
              omega
            · intro r hr
              rw [scan, scanFrom_nil] at hr
              cases hr
          · refine (h.crash_replay hlsn ht hcl { s.sb with lastCheckpointLsn := 0 } ?_).2
            exact hfirst
        refine ⟨s.hist.txns.length, h.hist.durable, Nat.le_refl _, fun b hb => ?_, ?_⟩
        · have hnil : (replay (superblockIn (d 0))
              (scan s.sb.totalBlocks.toNat l)).writes = [] := by
            rw [replay_writes, List.map_eq_nil_iff, List.filter_eq_nil_iff]
            intro r hr hred
            have := hle r hr
            simp only [redone, decide_eq_true_eq, UInt64.lt_iff_toNat_lt, hckn] at hred
            omega
          rw [hnil, applyWrites_nil, hci.eq_synced (h.flushed hfl b hb).1, (h.flushed hfl b hb).2,
            History.visible_of_cur_nil (h.quiet hi).1]
        · exact maxLsn_lt (by omega) hle
      · -- the old checkpoint is: the log puts everything back
        have hck : (superblockIn (d 0)).lastCheckpointLsn = UInt64.ofNat (s.hist.firstLsn - 1) :=
          (h.sb.lsn _ hon).resolve_right hnew
        have ht : s.phase ≠ .truncated := by
          intro ht
          exact hnew ⟨by simp [ht], h.sb.new (Or.inr ht) _ hon⟩
        have hckn : (superblockIn (d 0)).lastCheckpointLsn.toNat = s.hist.firstLsn - 1 := by
          rw [hck, UInt64.toNat_ofNat_of_lt' (show s.hist.firstLsn - 1 < 2 ^ 64 by omega)]
        obtain ⟨⟨k, hk1, hk2, hw⟩, hle⟩ := h.crash_replay hlsn ht hcl
          (superblockIn (d 0)) (by omega)
        refine ⟨k, hk1, hk2, fun b hb => ?_, maxLsn_lt (by omega) hle⟩
        rw [hw]
        refine h.hist.redo (Nat.le_trans h.hist.dropped hk1) hk2 fun hnone => ?_
        refine h.crash_block hci hb ?_
        rintro ⟨i, t, h1, h2, h3, h4⟩
        exact hnone i t h1 (by omega) h3 h4
    obtain ⟨k, hk1, hk2, hb, hl⟩ := key
    exact ⟨_, recover_ok (by omega), k, hk1, hk2, fun b h0 => (recovered_eq h0).trans (hb b h0)⟩
  · -- a clean image: only while opening or closing, when everything is in it
    rw [if_neg hclean]
    have hends : s.phase.ends = true := by
      by_contra he
      exact hclean (h.sb.clean (by simpa using he) _ hon)
    have hset : s.phase.settled = true := by
      revert hends
      cases s.phase <;> simp
    have hmoved : s.phase.moved = false := by
      revert hends
      cases s.phase <;> simp
    have hold : (superblockIn (d 0)).lastCheckpointLsn = UInt64.ofNat (s.hist.firstLsn - 1) := by
      refine (h.sb.lsn _ hon).resolve_right fun hm => ?_
      rw [hmoved] at hm
      cases hm.1
    have hck : (superblockIn (d 0)).lastCheckpointLsn.toNat = s.hist.firstLsn - 1 := by
      rw [hold, UInt64.toNat_ofNat_of_lt' (show s.hist.firstLsn - 1 < 2 ^ 64 by omega)]
    rw [if_neg (by omega)]
    refine ⟨_, rfl, s.hist.txns.length, h.hist.durable, Nat.le_refl _, fun b hb => ?_⟩
    rw [← h.settled hset]
    exact h.crash_block hci hb (not_logged_of_settled h hset b)

/-- The same in the terms of the run: the first transactions are there, whole and in order, with
    every operation that the engine has vouched for among them. -/
theorem Run.mount_crash {n : UInt32} {d d' : Nat → Block} {l' : List UInt8} (h : Run d s)
    (hlsn : s.wal.nextLsn < 2 ^ 64)
    (hv : validateSuperblock (superblockIn (d 0)).fixed n = .ok ())
    (hc : Media.CrashTo ⟨s.img, s.wal.file⟩ d' l') :
    ∃ out, mount n d' l' = .ok out ∧ ∃ k ≤ s.hist.txns.length,
      (∀ need ∈ s.hist.need.take s.hist.promised, need ≤ k) ∧
      ∀ b, 1 ≤ b → out.media.img.contents b =
        applyChanges d ((s.hist.txns.take k).flatMap Txn.changes) b := by
  obtain ⟨hbase, hsb⟩ := h.fixed
  have hi := h.inv
  obtain ⟨out, hout, k, hk1, hk2, hb⟩ := hi.mount_crash hlsn (n := n) (by rw [hsb]; exact hv) hc
  refine ⟨out, hout, k, hk2, fun m hmem => ?_, fun b h0 => ?_⟩
  · have hpr := hi.promise
    refine Nat.le_trans (hpr.durable m ?_) hk1
    rw [← Nat.min_eq_left hpr.promised, ← List.take_take] at hmem
    exact List.mem_of_mem_take hmem
  · rw [hb b (by omega), History.stateAt, hbase]

end Storage

/-! ## Crash atomicity and durability -/

/-- A crash of an engine that was opened on contents `d` and log `l`, with `out` what opening
    makes of them: while the log is replayed or emptied, or at any point of the run after that.
    The lsns are those of a real log: below the last one 64 bits can hold. -/
inductive CrashPoint (d : Nat → Block) (l : List UInt8) (out : Recovered) :
    History → (Nat → Block) → List UInt8 → Prop where
  | replaying {d' : Nat → Block} {l' : List UInt8} : (superblockIn (d 0)).cleanUnmount = 0 →
      Interrupted (d, l) (d', l') →
      CrashPoint d l out (Storage.opened out.media.img.contents out.nextLsn).hist d' l'
  | emptying {l' : List UInt8} : (superblockIn (d 0)).cleanUnmount ≠ 0 →
      AppendFile.CrashTo ⟨l, [.truncate]⟩ l' →
      CrashPoint d l out (Storage.opened out.media.img.contents out.nextLsn).hist d l'
  | running {s : Storage} {d' : Nat → Block} {l' : List UInt8} :
      Storage.Run out.media.img.contents s → s.wal.nextLsn < 2 ^ 64 →
      Media.CrashTo ⟨s.img, s.wal.file⟩ d' l' → CrashPoint d l out s.hist d' l'

theorem recover_eq_ok {d : Nat → Block} {l : List UInt8} {out : Recovered}
    (h : recover d l = .ok out) :
    recoverLsn d l + 1 < 2 ^ 64 ∧ out.media = runOps (.found d l) (recoverOps d l) ∧
      out.nextLsn = recoverLsn d l + 1 := by
  have hlt := recoverLsn_lt d l
  by_cases hov : recoverLsn d l + 1 < 2 ^ 64
  · rw [recover_ok hov] at h
    cases h
    exact ⟨hov, rfl, rfl⟩
  · have : recover d l = .error "log: lsns start at 1" :=
      if_pos (show (recoverLsn d l + 1) % 2 ^ 64 = 0 by omega)
    rw [this] at h
    cases h

/-- What opening leaves in block 0: the run that follows starts with the next lsn it names. -/
theorem mount_superblock {n : UInt32} {d : Nat → Block} {l : List UInt8} {out : Recovered}
    (h : mount n d l = .ok out) :
    (superblockIn (out.media.img.contents 0)).fixed = (superblockIn (d 0)).fixed ∧
      out.nextLsn = (superblockIn (out.media.img.contents 0)).lastCheckpointLsn.toNat + 1 := by
  rw [mount_of_validate (validate_of_mount h)] at h
  split at h
  · obtain ⟨hlt, hmedia, hnext⟩ := recover_eq_ok h
    have hsb : superblockIn (out.media.img.contents 0) =
        checkpointed (superblockIn (d 0)) (recoverLsn d l) := by
      rw [hmedia, runOps_recoverOps, BlockFile.contents_ofContents, Function.update_self,
        superblockIn_superblockBlock]
    rw [hsb, hnext]
    refine ⟨rfl, ?_⟩
    show _ = (UInt64.ofNat (recoverLsn d l)).toNat + 1
    rw [UInt64.toNat_ofNat_of_lt' (show recoverLsn d l < 2 ^ 64 by omega)]
  · split at h
    · cases h
    · cases h
      exact ⟨rfl, rfl⟩

/-- **Crash atomicity and durability.**  Whenever the engine crashes, opening the image and its
    log again succeeds, and every block holds what the changes of the first `k` transactions,
    whole and in order, make of what it held at mount; every operation that a returned `commit`,
    `checkpoint` or `close` vouched for is among them. -/
theorem crash_atomic {n : UInt32} {d d' : Nat → Block} {l l' : List UInt8} {out : Recovered}
    {h : History} (hm : mount n d l = .ok out) (hc : CrashPoint d l out h d' l') :
    ∃ out', mount n d' l' = .ok out' ∧ ∃ k ≤ h.txns.length,
      (∀ need ∈ h.need.take h.promised, need ≤ k) ∧
      ∀ b, 1 ≤ b → out'.media.img.contents b =
        applyChanges out.media.img.contents ((h.txns.take k).flatMap Txn.changes) b := by
  have hv := validate_of_mount hm
  obtain ⟨hfix, hnext⟩ := mount_superblock hm
  rw [mount_of_validate hv] at hm
  cases hc with
  | replaying hclean hint =>
    rw [if_pos hclean] at hm
    obtain ⟨hlt, hmedia, -⟩ := recover_eq_ok hm
    have hir := interruptible_of_interrupted hint
    obtain ⟨hl, hb⟩ := recovered_of_interruptible (by omega) hir
    have hsb : (superblockIn (d' 0)).fixed = (superblockIn (d 0)).fixed ∧
        (superblockIn (d' 0)).cleanUnmount = 0 := by
      rcases hir.sb with h | h <;> rw [h] <;> exact ⟨rfl, hclean⟩
    have hv' : validateSuperblock (superblockIn (d' 0)) n = .ok () := by
      rw [← validateSuperblock_fixed, hsb.1]
      exact hv
    have hmount : mount n d' l' = recover d' l' := by rw [mount_of_validate hv', if_pos hsb.2]
    rw [hmount, recover_ok (by omega)]
    refine ⟨_, rfl, 0, Nat.le_refl 0, nofun, fun b h0 => ?_⟩
    rw [hmedia]
    exact hb b (by omega)
  | emptying hclean _ =>
    rw [if_neg hclean] at hm
    refine ⟨out, ?_, 0, Nat.le_refl 0, nofun, fun b _ => rfl⟩
    rw [mount_of_validate hv, if_neg hclean]
    exact hm
  | running hrun hlsn hcrash =>
    refine hrun.mount_crash hlsn ?_ hcrash
    rw [hfix]
    exact hv

/-- Adds one to every byte. -/
def plusOne (v : Block) : Block := fun i => v i + 1

/-- One operation changes block 5 and is committed; another has changed it again. -/
theorem run_committed {d : Nat → Block}
    (hin : 5 < (superblockIn (d 0)).fixed.totalBlocks.toNat) :
    ∃ s, Storage.Run d s ∧ s.wal.nextLsn = (superblockIn (d 0)).lastCheckpointLsn.toNat + 4 ∧
      s.wal.file.pending = [] ∧ s.hist.need = [1] ∧ s.hist.promised = 1 ∧
      s.hist.txns.map Txn.changes = [[⟨5, false, plusOne⟩]] ∧
      s.hist.cur = [⟨5, false, plusOne⟩] := by
  have hrun : Storage.Run d _ := .opened
  have hrun := ((hrun.step (.openWrite rfl)).step (.openDone rfl)).step (.beginOp rfl)
  have hrun := hrun.step (.write 5 false plusOne rfl (Nat.lt_succ_self 0) (by decide) hin)
  have hrun := hrun.step (.endOp rfl (Nat.lt_succ_self 0))
  -- commit
  have hrun := hrun.step (.commitBegin [5] false false rfl rfl (.refl _) nofun)
  have hrun := hrun.step (.stageBlock _ 5 [] _ rfl rfl rfl)
  have hrun := (hrun.step (.flushTxn _ rfl)).step (.firstSyncDone _ rfl)
  have hrun := (hrun.step (.appendCommit _ rfl)).step (.secondSyncDone _ _ rfl rfl)
  have hrun := hrun.step (.commitFrame _ 5 [] _ rfl rfl rfl)
  have hrun := ((hrun.step (.framesDone _ rfl)).step (.finish rfl rfl)).step
    (.commitReturn 1 le_rfl)
  -- change it again
  have hrun := hrun.step (.beginOp rfl)
  have hrun := hrun.step (.write 5 false plusOne rfl (Nat.lt_succ_self 0) (by decide) hin)
  refine ⟨_, hrun, ?_, rfl, rfl, rfl, rfl, rfl⟩
  simp [Storage.write, Storage.endOp, Storage.commitBegin, Storage.opened, Wal.syncDone]

/-- One operation changes block 5 and is committed, the next changes it again, and then the
    engine crashes: the first change is there, the second is not. -/
theorem crash_atomic_committed :
    ∃ out h d' l', mount 10 crashedImage [] = .ok out ∧ CrashPoint crashedImage [] out h d' l' ∧
      h.cur = [⟨5, false, plusOne⟩] ∧ h.need = [1] ∧ h.promised = 1 ∧
      ∃ out', mount 10 d' l' = .ok out' ∧
        out'.media.img.contents 5 = plusOne (Bytes.zero 4096) := by
  have hsb : superblockIn (crashedImage 0) = _ := superblockIn_superblockBlock _
  have hv : validateSuperblock (superblockIn (crashedImage 0)) 10 = .ok () := by
    rw [hsb]
    rfl
  have hscan : scan (superblockIn (crashedImage 0)).totalBlocks.toNat [] = [] := scanFrom_nil ..
  have hl : recoverLsn crashedImage [] = 0 := by
    rw [recoverLsn, hscan, hsb]
    rfl
  have hw : recoverWrites crashedImage [] = [] := by
    rw [recoverWrites, hscan]
    rfl
  have hrec := recover_ok (d := crashedImage) (l := []) (by rw [hl]; decide)
  generalize hout : (⟨runOps (.found crashedImage []) (recoverOps crashedImage []), _, _, _⟩ :
    Recovered) = out at hrec
  have hm : mount 10 crashedImage [] = .ok out := by
    rw [mount_of_validate hv, if_pos (by rw [hsb]), hrec]
  have hfive : out.media.img.contents 5 = Bytes.zero 4096 := by
    rw [← hout]
    exact (recovered_eq (by decide)).trans (by rw [hw]; rfl)
  have htot : (superblockIn (out.media.img.contents 0)).fixed.totalBlocks =
      (superblockIn (crashedImage 0)).fixed.totalBlocks := by rw [(mount_superblock hm).1]
  have hlsn : (superblockIn (out.media.img.contents 0)).lastCheckpointLsn.toNat + 1 = 1 := by
    rw [← (mount_superblock hm).2, (recover_eq_ok hrec).2.2, hl]
  have hin : 5 < (superblockIn (out.media.img.contents 0)).fixed.totalBlocks.toNat := by
    rw [htot, hsb]
    decide
  obtain ⟨s, hrun, hnext, hpend, hneed, hprom, htxns, hcur⟩ := run_committed hin
  have hfile : AppendFile.CrashTo s.wal.file s.wal.file.synced := by
    rw [AppendFile.CrashTo, hpend]
    exact .done _
  have hpoint := CrashPoint.running (d := crashedImage) (l := []) hrun (by rw [hnext]; omega)
    ⟨BlockFile.crashTo_synced _, hfile⟩
  obtain ⟨out', hm', k, hk, hle, hb⟩ := crash_atomic hm hpoint
  refine ⟨out, _, _, _, hm, hpoint, hcur, hneed, hprom, out', hm', ?_⟩
  have hlen : s.hist.txns.length = 1 := by simpa using congrArg List.length htxns
  obtain rfl : k = 1 := by
    rw [hneed, hprom] at hle
    exact Nat.le_antisymm (hlen ▸ hk) (hle 1 (by decide))
  rw [hb 5 (by decide), ← hlen, List.take_length, List.flatMap_def, htxns, ← hfive]
  rfl

end ConcurrentFs
