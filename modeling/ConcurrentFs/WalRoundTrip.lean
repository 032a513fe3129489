/-
  ConcurrentFs.WalRoundTrip

  What is written to the log is what `scan` reads back: all of it when the log is
  whole, the records that lie wholly inside when it is cut short, and nothing past the
  cut when zeros follow it.
-/
import ConcurrentFs.WalLog

namespace ConcurrentFs

open Lib Codec

/-! ## Calls on the log -/

/-- A call between `reset` and the last `flush`. -/
inductive WalCall where
  /-- `stage` or `stage_block`. -/
  | stage (e : LogEntry)
  | append (e : LogEntry)
  | flush
  | sync

/-- The record a call adds. -/
def WalCall.entry : WalCall → Option LogEntry
  | stage e | append e => some e
  | flush | sync => none

namespace Wal

def call (w : Wal) : WalCall → Wal
  | .stage e => w.stageRecord e.1 e.2
  | .append e => w.append e.1 e.2
  | .flush => w.flush
  | .sync => w.sync

def callAll (w : Wal) (cs : List WalCall) : Wal := cs.foldl call w

variable {w : Wal} {first : Nat} {ss es : List LogEntry}

theorem holds_reset_any (w : Wal) {first : Nat} (hf : first ≠ 0) :
    (w.reset first).Holds first [] [] := by
  have hc : (w.file.issue .truncate).contents = [] := AppendFile.contents_issue_truncate w.file
  refine ⟨hc, ⟨[], nofun, rfl, ?_, ?_⟩, rfl, ?_⟩
  · show 0 = (w.file.issue .truncate).contents.length + 0
    rw [hc]
    rfl
  · show (w.file.issue .truncate).contents ++ [] ++ [] = []
    rw [hc]
    rfl
  · show first - 1 < first
    omega

theorem Holds.call (h : w.Holds first ss es) (c : WalCall) :
    ∃ ss', (w.call c).Holds first ss' (es ++ c.entry.toList) := by
  cases c with
  | stage e => exact ⟨ss, h.stageRecord e.1 e.2⟩
  | append e => exact ⟨ss, (h.append e.1 e.2).1⟩
  | flush =>
    refine ⟨ss, ?_⟩
    rw [WalCall.entry, Option.toList_none, List.append_nil]
    exact h.flush.1
  | sync =>
    refine ⟨es, ?_⟩
    rw [WalCall.entry, Option.toList_none, List.append_nil]
    exact h.flush.1.syncDone h.flush.2

theorem Holds.callAll (cs : List WalCall) {w : Wal} {ss es : List LogEntry}
    (h : w.Holds first ss es) :
    ∃ ss', (w.callAll cs).Holds first ss' (es ++ cs.filterMap WalCall.entry) := by
  induction cs generalizing w ss es with
  | nil =>
    refine ⟨ss, ?_⟩
    rw [List.filterMap_nil, List.append_nil]
    exact h
  | cons c cs ih =>
    obtain ⟨ss', h'⟩ := h.call c
    obtain ⟨ss'', h''⟩ := ih h'
    refine ⟨ss'', ?_⟩
    rw [List.append_assoc] at h''
    cases hc : c.entry with
    | none =>
      rw [List.filterMap_cons_none hc]
      rw [hc] at h''
      exact h''
    | some e =>
      rw [List.filterMap_cons_some hc]
      rw [hc] at h''
      exact h''

/-- The file once everything is flushed. -/
theorem contents_callAll (w : Wal) (hf : first ≠ 0) (cs : List WalCall) :
    ((w.reset first).callAll cs).flush.file.contents =
      recordsBytes (encodeFrom first (cs.filterMap WalCall.entry)) := by
  obtain ⟨ss, h⟩ := (w.holds_reset_any hf).callAll cs
  rw [List.nil_append] at h
  exact h.flush.1.contents h.flush.2

end Wal

/-! ## A cut -/

section Cut

variable {totalBlocks : Nat} {r : WalRecord} {rs : List WalRecord} {prev : Option UInt64}

/-- The first bytes of a record are no record. -/
theorem scanRecord_take (hi : r.Intact totalBlocks) {n : Nat} (hn : n < r.bytes.length) :
    scanRecord totalBlocks (r.bytes.take n) prev = none := by
  by_contra hne
  obtain ⟨r', hr'⟩ := Option.ne_none_iff_exists'.mp hne
  obtain ⟨hlen, hh, -, -, hp⟩ := scanRecord_eq_some_iff.mp hr'
  have hbl := hi.length_bytes
  rw [List.length_take, Nat.min_eq_left (Nat.le_of_lt hn)] at hlen hp
  -- its header is there, and says what is missing
  have hhead : r'.header = r.header := by
    have hfront : frontBytes (r.bytes.take n) 40 = frontBytes r.bytes 40 := by
      funext i
      rw [frontBytes, frontBytes, List.getD_eq_getElem?_getD, List.getD_eq_getElem?_getD,
        List.getElem?_take_of_lt (Nat.lt_of_lt_of_le i.isLt hlen)]
    rw [hh, hfront, WalRecord.bytes, frontBytes_ofFn_append, Equiv.symm_apply_apply]
  have hpl := hi.payloadLen_toNat
  by_cases ht : r.header.type = walBlock
  · rw [if_pos ht] at hpl
    have := (hp (by rw [hhead]; exact ht)).1
    omega
  · rw [if_neg ht] at hpl
    omega

/-- Zeros are no record. -/
theorem scanRecord_zeros (n : Nat) : scanRecord totalBlocks (List.replicate n 0) prev = none := by
  by_contra hne
  obtain ⟨r, hr⟩ := Option.ne_none_iff_exists'.mp hne
  obtain ⟨-, hh, hi, -⟩ := scanRecord_eq_some_iff.mp hr
  have hz : frontBytes (List.replicate n 0) 40 = Bytes.zero 40 := by
    funext i
    rw [frontBytes, List.getD_eq_getElem?_getD, List.getElem?_replicate]
    split <;> rfl
  have hm := hi.magic
  rw [hh, hz, magic_of_word_zero (Bytes.ext_get fun i hi => ?_)] at hm
  · exact absurd hm (by decide)
  · rw [headerWord, Bytes.get_slice _ _ hi, Bytes.get_zero, Bytes.get_zero]

/-- How many of the records lie wholly inside the first `n` bytes. -/
def wholeRecords (n : Nat) : List WalRecord → Nat
  | [] => 0
  | r :: rs => if r.bytes.length ≤ n then wholeRecords (n - r.bytes.length) rs + 1 else 0

theorem length_take_wholeRecords (n : Nat) (rs : List WalRecord) :
    (recordsBytes (rs.take (wholeRecords n rs))).length ≤ n := by
  induction rs generalizing n with
  | nil => exact Nat.zero_le _
  | cons r rs ih =>
    rw [wholeRecords]
    split
    · have := ih (n - r.bytes.length)
      rw [List.take_succ_cons, recordsBytes_cons, List.length_append]
      omega
    · exact Nat.zero_le _

theorem wholeRecords_le (n : Nat) (rs : List WalRecord) : wholeRecords n rs ≤ rs.length := by
  induction rs generalizing n with
  | nil => exact Nat.le_refl _
  | cons r rs ih =>
    rw [wholeRecords]
    split
    · exact Nat.succ_le_succ (ih _)
    · exact Nat.zero_le _

theorem length_recordsBytes_take_mono (rs : List WalRecord) {m k : Nat} (h : m ≤ k) :
    (recordsBytes (rs.take m)).length ≤ (recordsBytes (rs.take k)).length := by
  rw [← List.take_append_drop m (rs.take k), List.take_take, Nat.min_eq_left h, recordsBytes_append,
    List.length_append]
  exact Nat.le_add_right ..

theorem le_wholeRecords {n m : Nat} (hm : m ≤ rs.length)
    (h : (recordsBytes (rs.take m)).length ≤ n) :
    m ≤ wholeRecords n rs := by
  induction rs generalizing n m with
  | nil => exact hm
  | cons r rs ih =>
    cases m with
    | zero => exact Nat.zero_le _
    | succ m =>
      rw [List.take_succ_cons, recordsBytes_cons, List.length_append] at h
      rw [wholeRecords, if_pos (by omega)]
      exact Nat.succ_le_succ (ih (Nat.le_of_succ_le_succ hm) (by omega))

/-- A log that is cut short has the records wholly inside it. -/
theorem scanFrom_take (h : Chained totalBlocks prev rs) (n : Nat) :
    scanFrom totalBlocks ((recordsBytes rs).take n) prev = rs.take (wholeRecords n rs) := by
  induction rs generalizing prev n with
  | nil =>
    rw [recordsBytes_nil, List.take_nil]
    exact scanFrom_nil ..
  | cons r rs ih =>
    rw [recordsBytes_cons, List.take_append, wholeRecords]
    split
    · rename_i hle
      rw [List.take_of_length_le hle, scanFrom_bytes h.1 h.2.1, ih h.2.2, List.take_succ_cons]
    · rename_i hlt
      have hlt : n < r.bytes.length := Nat.lt_of_not_le hlt
      rw [Nat.sub_eq_zero_of_le (Nat.le_of_lt hlt), List.take_zero, List.append_nil, List.take_zero]
      exact scanFrom_none (scanRecord_take h.1 hlt)

theorem Chained.take (h : Chained totalBlocks prev rs) (k : Nat) :
    Chained totalBlocks prev (rs.take k) := by
  induction rs generalizing prev k with
  | nil =>
    rw [List.take_nil]
    trivial
  | cons r rs ih =>
    cases k with
    | zero => trivial
    | succ k => exact ⟨h.1, h.2.1, ih h.2.2 k⟩

/-- A log that is cut at a record and goes on with zeros has the records before the cut. -/
theorem scanFrom_zeros (h : Chained totalBlocks prev rs) (n : Nat) :
    scanFrom totalBlocks (recordsBytes rs ++ List.replicate n 0) prev = rs := by
  rw [scanFrom_recordsBytes h, scanFrom_none (scanRecord_zeros n), List.append_nil]

end Cut

/-! ## Round trip -/

/-- A record says what was asked of `stage` or `append`, and has this lsn. -/
structure WalRecord.Says (r : WalRecord) (e : LogEntry) (lsn : Nat) : Prop where
  type : r.header.type = e.1.type
  txnId : r.header.txnId = UInt64.ofNat e.2
  blockNo : r.header.blockNo.toNat = e.1.blockNo
  payload : r.payload = e.1.payload
  lsn : r.header.lsn.toNat = lsn

theorem encodeRecord_says {e : LogEntry} {lsn totalBlocks : Nat} (hlsn : lsn < 2 ^ 64)
    (hb : ∀ b p, e.1 = .block b p → b ≠ 0 ∧ b < totalBlocks) (ht : totalBlocks ≤ 2 ^ 32) :
    (encodeRecord e.1 e.2 lsn).Says e lsn := by
  refine ⟨rfl, rfl, ?_, rfl, ?_⟩
  · show (UInt32.ofNat e.1.blockNo).toNat = e.1.blockNo
    rw [UInt32.toNat_ofNat']
    refine Nat.mod_eq_of_lt ?_
    obtain ⟨item, txnId⟩ := e
    cases item with
    | block b p =>
      have := (hb b p rfl).2
      show b < 2 ^ 32
      omega
    | begin => exact Nat.two_pow_pos 32
    | commit => exact Nat.two_pow_pos 32
  · show (UInt64.ofNat lsn).toNat = lsn
    rw [UInt64.toNat_ofNat']
    exact Nat.mod_eq_of_lt hlsn

theorem getElem?_encodeFrom (lsn : Nat) (es : List LogEntry) (i : Nat) :
    (encodeFrom lsn es)[i]? = es[i]?.map fun e => encodeRecord e.1 e.2 (lsn + i) := by
  induction es generalizing lsn i with
  | nil => rfl
  | cons e es ih =>
    cases i with
    | zero => rfl
    | succ i =>
      rw [encodeFrom_cons, List.getElem?_cons_succ, List.getElem?_cons_succ, ih, Nat.add_assoc,
        Nat.add_comm 1]

theorem length_encodeFrom (lsn : Nat) (es : List LogEntry) :
    (encodeFrom lsn es).length = es.length := by
  induction es generalizing lsn with
  | nil => rfl
  | cons e es ih => rw [encodeFrom_cons, List.length_cons, ih, List.length_cons]

/-- The log from `reset` on, with any records staged or appended and then flushed: `scan` returns
    them, in order, with consecutive lsns.  Of the first `n` bytes it returns the records that lie
    wholly inside, and of the first `k` records with zeros behind them those `k`. -/
theorem scan_round_trip (w : Wal) {first totalBlocks : Nat} (cs : List WalCall) (hfirst : 1 ≤ first)
    (htotal : totalBlocks < 2 ^ 32) (hblocks : BlocksBelow totalBlocks (cs.filterMap WalCall.entry))
    (hlsn : first + (cs.filterMap WalCall.entry).length ≤ 2 ^ 64) :
    ∃ rs : List WalRecord, rs.length = (cs.filterMap WalCall.entry).length ∧
      (∀ (i : Nat) (e : LogEntry), (cs.filterMap WalCall.entry)[i]? = some e →
        ∃ r : WalRecord, rs[i]? = some r ∧ r.Says e (first + i)) ∧
      ((w.reset first).callAll cs).flush.file.contents = recordsBytes rs ∧
      scan totalBlocks (recordsBytes rs) = rs ∧
      (∀ n, ∃ k, scan totalBlocks ((recordsBytes rs).take n) = rs.take k ∧ k ≤ rs.length ∧
        ∀ m ≤ rs.length, m ≤ k ↔ (recordsBytes (rs.take m)).length ≤ n) ∧
      ∀ k n, scan totalBlocks (recordsBytes (rs.take k) ++ List.replicate n 0) = rs.take k := by
  have hne : first ≠ 0 := Nat.ne_of_gt hfirst
  have hle : totalBlocks ≤ 2 ^ 32 := Nat.le_of_lt htotal
  have hc : Chained totalBlocks none (encodeFrom first (cs.filterMap WalCall.entry)) :=
    chained_encodeFrom hblocks hle hne hlsn nofun
  refine ⟨encodeFrom first (cs.filterMap WalCall.entry), length_encodeFrom .., fun i e he => ?_,
    w.contents_callAll hne cs, ?_, fun n => ?_, fun k n => scanFrom_zeros (hc.take k) n⟩
  · have hi := (List.getElem?_eq_some_iff.mp he).1
    refine ⟨encodeRecord e.1 e.2 (first + i), ?_, encodeRecord_says (by omega) ?_ hle⟩
    · rw [getElem?_encodeFrom, he]
      rfl
    · exact hblocks e (List.mem_of_getElem? he)
  · have := scanFrom_zeros hc 0
    rw [List.replicate_zero, List.append_nil] at this
    exact this
  · refine ⟨_, scanFrom_take hc n, wholeRecords_le n _, fun m hm =>
      ⟨fun hmk => ?_, le_wholeRecords hm⟩⟩
    exact Nat.le_trans (length_recordsBytes_take_mono _ hmk) (length_take_wholeRecords n _)

/-- A transaction of one block: BEGIN and BLOCK are staged, COMMIT is appended. -/
theorem scan_round_trip_txn :
    ∃ rs : List WalRecord, rs.length = 3 ∧
      (((Wal.open_ []).reset 7).callAll [.stage (.begin, 7), .stage (.block 5 (Bytes.zero 4096), 7),
        .append (.commit, 7)]).flush.file.contents = recordsBytes rs ∧
      scan 1000 (recordsBytes rs) = rs ∧
      scan 1000 (recordsBytes (rs.take 2) ++ List.replicate 512 0) = rs.take 2 := by
  have hblocks : BlocksBelow 1000 [(.begin, 7), (.block 5 (Bytes.zero 4096), 7), (.commit, 7)] := by
    intro e he b p hbp
    simp only [List.mem_cons, List.not_mem_nil, or_false] at he
    rcases he with rfl | rfl | rfl
    · cases hbp
    · cases hbp
      decide
    · cases hbp
  obtain ⟨rs, hlen, -, hfile, hscan, -, hzeros⟩ := scan_round_trip (Wal.open_ [])
    [.stage (.begin, 7), .stage (.block 5 (Bytes.zero 4096), 7), .append (.commit, 7)]
    (show 1 ≤ 7 by decide) (show 1000 < 2 ^ 32 by decide) hblocks (by decide)
  exact ⟨rs, hlen, hfile, hscan, hzeros 2 512⟩

end ConcurrentFs
