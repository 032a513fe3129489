/-
  ConcurrentFs.WalBatch

  Batching cannot be told apart from logging record by record.  A log is viewed as
  the bytes it started with and the records laid out since it was last emptied,
  whether they are in the file yet or not; every call does the same to the view of
  a log that batches and to that of one that never does, and the calls that write
  the batch out leave the two files alike.
-/
import ConcurrentFs.WalLog

namespace ConcurrentFs

open Lib

/-! ## The calls -/

/-- The arguments of `stage` and `append`. -/
structure WalRequest where
  type : UInt16
  txnId : UInt64
  blockNo : UInt32
  payload : Option Block

namespace WalRequest

/-- The check of `Wal::encode`. -/
def Legal (q : WalRequest) : Prop := q.type = walBlock ↔ q.payload.isSome

instance (q : WalRequest) : Decidable q.Legal := by
  unfold Legal
  infer_instance

def payloadLen (q : WalRequest) : UInt32 := if q.payload.isSome then 4096 else 0

/-- The record `Wal::encode` lays out. -/
def record (q : WalRequest) (lsn : Nat) : WalRecord :=
  let payload := q.payload.getD (Bytes.zero 4096)
  let h : WalRecordHeader :=
    { magic := walMagic, type := q.type, reserved := 0, blockNo := q.blockNo,
      payloadLen := q.payloadLen, lsn := UInt64.ofNat lsn, txnId := q.txnId,
        checksum := 0, pad := 0 }
  ⟨{ h with checksum := recordChecksum h payload }, payload⟩

/-- The length of the record. -/
def len (q : WalRequest) : Nat := 40 + q.payloadLen.toNat

theorem len_le (q : WalRequest) : q.len ≤ 40 + 4096 := by
  unfold len payloadLen
  split <;> decide

theorem length_bytes (q : WalRequest) (lsn : Nat) : (q.record lsn).bytes.length = q.len := by
  have hp : q.payloadLen.toNat ≤ 4096 := by
    unfold payloadLen
    split <;> decide
  rw [WalRecord.bytes, List.length_append, List.length_ofFn, List.length_take,
    List.length_ofFn, len]
  exact congrArg (40 + ·) (Nat.min_eq_left hp)

end WalRequest

/-- What a commit stages is such a request. -/
def WalItem.request (item : WalItem) (txnId : Nat) : WalRequest where
  type := item.type
  txnId := UInt64.ofNat txnId
  blockNo := UInt32.ofNat item.blockNo
  payload := match item with
    | .block _ p => some p
    | _ => none

theorem record_request (item : WalItem) (txnId lsn : Nat) :
    (item.request txnId).record lsn = encodeRecord item txnId lsn := by
  cases item <;> rfl

/-- What a call returns, or the text of what it throws. -/
inductive Answer where
  | lsn (n : Nat)
  | done
  | threw (text : String)
  deriving DecidableEq

namespace Wal

/-- `encode`, check included. -/
def encodeRequest (w : Wal) (q : WalRequest) : Wal × Answer :=
  if q.Legal then
    ({ w with batch := w.batch ++ (q.record w.nextLsn).bytes, nextLsn := w.nextLsn + 1 },
      .lsn w.nextLsn)
  else (w, .threw "log: a BLOCK record, and only a BLOCK record, has a payload")

/-- The state in which `stage_record` calls `encode`. -/
def makeRoom (w : Wal) (q : WalRequest) : Wal :=
  if 0 < w.batch.length ∧ batchBytes < w.batch.length + q.len then w.flush else w

/-- On what a commit stages this is `stageRecord`. -/
theorem makeRoom_encodeRequest (w : Wal) (item : WalItem) (txnId : Nat) :
    ((w.makeRoom (item.request txnId)).encodeRequest (item.request txnId)).1
      = w.stageRecord item txnId := by
  have hlegal : (item.request txnId).Legal := by
    cases item with
    | begin => exact iff_of_false (show walBegin ≠ walBlock by decide) Bool.false_ne_true
    | block b p => exact iff_of_true rfl rfl
    | commit => exact iff_of_false (show walCommit ≠ walBlock by decide) Bool.false_ne_true
  have hlen : (item.request txnId).len = 40 + item.payloadLen.toNat := by
    cases item <;> rfl
  rw [encodeRequest, if_pos hlegal, makeRoom, hlen, stageRecord, record_request]
  split <;> rfl

/-- A call on the log. -/
inductive Call where
  | stage (q : WalRequest)
  | stageBlock (txnId : UInt64) (blockNo : UInt32) (payload : Block)
  | append (q : WalRequest)
  | flush
  | sync
  | reset (nextLsn : UInt64)

namespace Call

/-- The record a call asks for, if it asks for one. -/
def request : Call → Option WalRequest
  | stage q => some q
  | stageBlock txnId blockNo payload => some ⟨walBlock, txnId, blockNo, some payload⟩
  | append q => some q
  | _ => none

/-- Whether a call empties the file. -/
def empties : Call → Bool
  | reset nextLsn => nextLsn ≠ 0
  | _ => false

/-- The records laid out since the file was emptied, after a call that returned `a`. -/
def lays (c : Call) (a : Answer) (rs : List WalRecord) : List WalRecord :=
  match a, c.request with
  | .lsn n, some q => rs ++ [q.record n]
  | _, _ => if c.empties then [] else rs

/-- The log and its answer after a call. -/
def run (w : Wal) : Call → Wal × Answer
  | stage q => (w.makeRoom q).encodeRequest q
  | stageBlock txnId blockNo payload =>
    let q : WalRequest := ⟨walBlock, txnId, blockNo, some payload⟩
    (w.makeRoom q).encodeRequest q
  | append q =>
    let r := w.flush.encodeRequest q
    match r.2 with
    | .threw text => (r.1, .threw text)
    | answer => (r.1.flush, answer)
  | flush => (w.flush, .done)
  | sync => (w.sync, .done)
  | reset nextLsn =>
    if nextLsn = 0 then (w, .threw "log: lsns start at 1") else (w.reset nextLsn.toNat, .done)

/-- The call with `append` in the place of `stage` and `stage_block`. -/
def recordByRecord : Call → Call
  | stage q => append q
  | stageBlock txnId blockNo payload => append ⟨walBlock, txnId, blockNo, some payload⟩
  | c => c

/-- The batch right after a call has laid its record out. -/
def laidOut (w : Wal) : Call → List UInt8
  | stage q => ((w.makeRoom q).encodeRequest q).1.batch
  | stageBlock txnId blockNo payload =>
    let q : WalRequest := ⟨walBlock, txnId, blockNo, some payload⟩
    ((w.makeRoom q).encodeRequest q).1.batch
  | append q => (w.flush.encodeRequest q).1.batch
  | _ => w.batch

end Call

/-- The log after some calls. -/
def runs (w : Wal) (cs : List Call) : Wal := cs.foldl (fun w c => (c.run w).1) w

/-- What some calls return. -/
def answers (w : Wal) : List Call → List Answer
  | [] => []
  | c :: cs => (c.run w).2 :: answers (c.run w).1 cs

/-- The records laid out since the file was emptied, each with the lsn its call returned. -/
def laid (cs : List Call) (as : List Answer) : List WalRecord :=
  (cs.zip as).foldl (fun rs ca => ca.1.lays ca.2 rs) []

/-! ## The states of the file -/

/-- The contents of the file after the write `flush` makes, if it makes one. -/
def flushStates (w : Wal) : List (List UInt8) :=
  if w.batch.length = 0 then [] else [w.flush.file.contents]

/-- The contents of the file after each write of a call. -/
def Call.states (w : Wal) : Call → List (List UInt8)
  | stage q =>
    if 0 < w.batch.length ∧ batchBytes < w.batch.length + q.len then w.flushStates else []
  | stageBlock txnId blockNo payload =>
    let q : WalRequest := ⟨walBlock, txnId, blockNo, some payload⟩
    if 0 < w.batch.length ∧ batchBytes < w.batch.length + q.len then w.flushStates else []
  | append q =>
    w.flushStates ++ if q.Legal then (w.flush.encodeRequest q).1.flushStates else []
  | flush => w.flushStates
  | sync => w.flushStates
  | reset _ => []

/-- A mark where a call empties the file. -/
def Call.emptied : Call → List (Option (List UInt8))
  | .reset nextLsn => if nextLsn = 0 then [] else [none]
  | _ => []

/-- The contents of the file after every write of some calls and after each call, with a mark
    where it was emptied. -/
def history (w : Wal) : List Call → List (Option (List UInt8))
  | [] => []
  | c :: cs =>
    (c.states w).map some ++ c.emptied ++ some (c.run w).1.file.contents :: history (c.run w).1 cs

end Wal

/-! ## The view of a log -/

/-- A log as its users see it. -/
structure LogView where
  /-- What the file held when it was opened, until it is emptied. -/
  base : List UInt8
  /-- The records laid out since. -/
  records : List WalRecord
  next : Nat
  durable : Nat

namespace LogView

/-- The bytes the log stands for. -/
def bytes (v : LogView) : List UInt8 := v.base ++ recordsBytes v.records

/-- What a record laid out does to the view. -/
def lay (v : LogView) (q : WalRequest) : LogView × Answer :=
  if q.Legal then
    ({ v with records := v.records ++ [q.record v.next], next := v.next + 1 }, .lsn v.next)
  else (v, .threw "log: a BLOCK record, and only a BLOCK record, has a payload")

/-- What a call does to the view. -/
def step (v : LogView) : Wal.Call → LogView × Answer
  | .stage q => v.lay q
  | .stageBlock txnId blockNo payload => v.lay ⟨walBlock, txnId, blockNo, some payload⟩
  | .append q => v.lay q
  | .flush => (v, .done)
  | .sync => ({ v with durable := v.next - 1 }, .done)
  | .reset nextLsn =>
    if nextLsn = 0 then (v, .threw "log: lsns start at 1")
    else (⟨[], [], nextLsn.toNat, nextLsn.toNat - 1⟩, .done)

/-- Batched or not is nothing the view shows. -/
theorem step_recordByRecord (v : LogView) (c : Wal.Call) : v.step c.recordByRecord = v.step c := by
  cases c <;> rfl

/-- The view after some calls. -/
def steps (v : LogView) (cs : List Wal.Call) : LogView := cs.foldl (fun v c => (v.step c).1) v

/-- What some calls return. -/
def answers (v : LogView) : List Wal.Call → List Answer
  | [] => []
  | c :: cs => (v.step c).2 :: answers (v.step c).1 cs

theorem steps_recordByRecord (v : LogView) (cs : List Wal.Call) :
    v.steps (cs.map Wal.Call.recordByRecord) = v.steps cs := by
  induction cs generalizing v with
  | nil => rfl
  | cons c cs ih =>
    show (v.step c.recordByRecord).1.steps _ = (v.step c).1.steps cs
    rw [step_recordByRecord, ih]

theorem answers_recordByRecord (v : LogView) (cs : List Wal.Call) :
    v.answers (cs.map Wal.Call.recordByRecord) = v.answers cs := by
  induction cs generalizing v with
  | nil => rfl
  | cons c cs ih =>
    show (v.step c.recordByRecord).2 :: (v.step c.recordByRecord).1.answers _ = _
    rw [step_recordByRecord, ih]
    rfl

/-- The records of a view are those of the calls, with the lsns these returned. -/
theorem step_records (v : LogView) (c : Wal.Call) :
    (v.step c).1.records = c.lays (v.step c).2 v.records := by
  have hlay : ∀ q : WalRequest, (v.lay q).1.records
      = match (v.lay q).2, some q with
        | .lsn n, some q => v.records ++ [q.record n]
        | _, _ => v.records := by
    intro q
    unfold LogView.lay
    by_cases hl : q.Legal
    · rw [if_pos hl]
    · rw [if_neg hl]
  cases c with
  | stage q => exact hlay q
  | stageBlock txnId blockNo payload => exact hlay _
  | append q => exact hlay q
  | flush => rfl
  | sync => rfl
  | reset nextLsn =>
    by_cases h0 : nextLsn = 0
    · rw [h0]
      rfl
    · unfold LogView.step
      dsimp only
      rw [if_neg h0]
      show [] = if decide (nextLsn ≠ 0) = true then [] else v.records
      rw [if_pos (decide_eq_true h0)]

theorem steps_records (v : LogView) (cs : List Wal.Call) : (v.steps cs).records
    = (cs.zip (v.answers cs)).foldl (fun rs ca => ca.1.lays ca.2 rs) v.records := by
  induction cs generalizing v with
  | nil => rfl
  | cons c cs ih =>
    show ((v.step c).1.steps cs).records = _
    rw [ih, step_records]
    rfl

theorem steps_base (v : LogView) (cs : List Wal.Call) :
    (v.steps cs).base = if cs.any Wal.Call.empties then [] else v.base := by
  induction cs generalizing v with
  | nil => rfl
  | cons c cs ih =>
    show ((v.step c).1.steps cs).base = _
    have hstep : (v.step c).1.base = if c.empties then [] else v.base := by
      have hlay : ∀ q : WalRequest, (v.lay q).1.base = v.base := by
        intro q
        unfold LogView.lay
        split
        · rfl
        · rfl
      cases c with
      | stage q => exact hlay q
      | stageBlock txnId blockNo payload => exact hlay _
      | append q => exact hlay q
      | flush => rfl
      | sync => rfl
      | reset nextLsn =>
        unfold LogView.step Wal.Call.empties
        by_cases h0 : nextLsn = 0
        · simp [h0]
        · simp [h0]
    rw [ih, hstep, List.any_cons]
    cases c.empties
    · rfl
    · simp

/-- The records of a view have consecutive lsns, up to the next one. -/
def Ordered (v : LogView) : Prop :=
  v.records.IsChain (fun a b => b.header.lsn = a.header.lsn + 1) ∧
    ∀ r ∈ v.records.getLast?, r.header.lsn + 1 = UInt64.ofNat v.next

theorem Ordered.lay {v : LogView} (h : v.Ordered) (q : WalRequest) : (v.lay q).1.Ordered := by
  unfold LogView.lay
  split
  · have hlsn : (q.record v.next).header.lsn = UInt64.ofNat v.next := rfl
    refine ⟨h.1.append (List.isChain_singleton _) ?_, ?_⟩
    · intro a ha b hb
      rw [List.head?_cons, Option.mem_some_iff] at hb
      rw [← hb, hlsn, h.2 a ha]
    · intro r hr
      rw [List.getLast?_concat, Option.mem_some_iff] at hr
      rw [← hr, hlsn]
      exact (UInt64.ofNat_add v.next 1).symm
  · exact h

theorem Ordered.step {v : LogView} (h : v.Ordered) (c : Wal.Call) : (v.step c).1.Ordered := by
  cases c with
  | stage q => exact h.lay q
  | stageBlock txnId blockNo payload => exact h.lay _
  | append q => exact h.lay q
  | flush => exact h
  | sync => exact h
  | reset nextLsn =>
    unfold LogView.step
    simp only
    split
    · exact h
    · exact ⟨List.isChain_nil, fun r hr => by cases hr⟩

theorem Ordered.steps {v : LogView} (h : v.Ordered) (cs : List Wal.Call) :
    (v.steps cs).Ordered := by
  induction cs generalizing v with
  | nil => exact h
  | cons c cs ih => exact ih (h.step c)

end LogView

/-! ## A log and its view -/

/-- `w` shows the view `v`. -/
structure Wal.Shows (w : Wal) (v : LogView) : Prop where
  /-- The records are whole, those in the file before those in the batch. -/
  whole : ∃ written waiting, v.records = written ++ waiting ∧
    w.file.contents = v.base ++ recordsBytes written ∧ w.batch = recordsBytes waiting
  endOff : w.endOff = w.file.contents.length
  next : w.nextLsn = v.next
  durable : w.durableLsn = v.durable
  /-- The batch has not outgrown `BATCH_BYTES`. -/
  bound : w.batch.length ≤ batchBytes

namespace Wal

variable {w : Wal} {v : LogView}

/-- File and batch together are what the view shows. -/
theorem Shows.bytes (h : w.Shows v) : w.file.contents ++ w.batch = v.bytes := by
  obtain ⟨written, waiting, hrec, hfile, hbatch⟩ := h.whole
  rw [hfile, hbatch, LogView.bytes, hrec, recordsBytes_append, List.append_assoc]

theorem flush_contents (h : w.endOff = w.file.contents.length) :
    w.flush.file.contents = w.file.contents ++ w.batch := by
  unfold flush writeOut
  split
  · rename_i h0
    rw [List.eq_nil_of_length_eq_zero h0, List.append_nil]
  · simp only [AppendFile.contents_issue_write, h, overwrite_length_self]

@[simp] theorem flush_batch (w : Wal) : w.flush.batch = [] := by
  unfold flush
  split
  · exact List.eq_nil_of_length_eq_zero ‹_›
  · rfl

theorem Shows.flush (h : w.Shows v) : w.flush.Shows v := by
  have hc := flush_contents h.endOff
  refine ⟨⟨v.records, [], (List.append_nil _).symm, ?_, flush_batch w⟩, ?_, ?_, ?_, ?_⟩
  · rw [hc, h.bytes, LogView.bytes]
  · rw [hc, List.length_append, ← h.endOff]
    unfold Wal.flush writeOut
    split
    · rename_i h0
      rw [h0, Nat.add_zero]
    · rfl
  · rw [← h.next]
    unfold Wal.flush
    split <;> rfl
  · rw [← h.durable]
    unfold Wal.flush
    split <;> rfl
  · rw [flush_batch]
    exact Nat.zero_le _

theorem Shows.makeRoom (h : w.Shows v) (q : WalRequest) :
    (w.makeRoom q).Shows v ∧ (w.makeRoom q).batch.length + q.len ≤ batchBytes := by
  have hlen := q.len_le
  have hcap : 40 + 4096 ≤ batchBytes := by decide
  unfold Wal.makeRoom
  split
  · refine ⟨h.flush, ?_⟩
    rw [flush_batch, List.length_nil]
    omega
  · have hb := h.bound
    exact ⟨h, by omega⟩

/-- Laying a record out where there is room for it. -/
theorem Shows.encodeRequest (h : w.Shows v) {q : WalRequest}
    (hroom : w.batch.length + q.len ≤ batchBytes) :
    (w.encodeRequest q).1.Shows (v.lay q).1 ∧ (w.encodeRequest q).2 = (v.lay q).2 := by
  by_cases hl : q.Legal
  · rw [Wal.encodeRequest, LogView.lay, if_pos hl, if_pos hl, h.next]
    obtain ⟨written, waiting, hrec, hfile, hbatch⟩ := h.whole
    refine ⟨⟨⟨written, waiting ++ [q.record v.next], ?_, hfile, ?_⟩, h.endOff, rfl, h.durable, ?_⟩,
      rfl⟩
    · show v.records ++ [q.record v.next] = _
      rw [hrec, List.append_assoc]
    · show w.batch ++ (q.record v.next).bytes = _
      rw [hbatch, recordsBytes_append, recordsBytes_cons, recordsBytes_nil, List.append_nil]
    · show (w.batch ++ (q.record v.next).bytes).length ≤ batchBytes
      rw [List.length_append, q.length_bytes]
      exact hroom
  · rw [Wal.encodeRequest, LogView.lay, if_neg hl, if_neg hl]
    exact ⟨h, rfl⟩

theorem Shows.sync (h : w.Shows v) : w.sync.Shows { v with durable := v.next - 1 } := by
  have hf := h.flush
  refine ⟨hf.whole, hf.endOff, hf.next, ?_, hf.bound⟩
  show w.flush.nextLsn - 1 = v.next - 1
  rw [hf.next]

theorem shows_reset (w : Wal) (n : Nat) : (w.reset n).Shows ⟨[], [], n, n - 1⟩ := by
  have hc : (w.reset n).file.contents = [] := by
    show (w.file.issue .truncate).sync.contents = []
    rw [AppendFile.contents_sync, AppendFile.contents_issue_truncate]
  refine ⟨⟨[], [], rfl, hc, rfl⟩, ?_, rfl, rfl, Nat.zero_le _⟩
  rw [hc]
  rfl

theorem Shows.stage (h : w.Shows v) (q : WalRequest) :
    ((w.makeRoom q).encodeRequest q).1.Shows (v.lay q).1 ∧
      ((w.makeRoom q).encodeRequest q).2 = (v.lay q).2 :=
  let ⟨hroom, hlen⟩ := h.makeRoom q
  hroom.encodeRequest hlen

theorem Shows.append (h : w.Shows v) (q : WalRequest) :
    (w.flush.encodeRequest q).1.Shows (v.lay q).1 ∧ (w.flush.encodeRequest q).2 = (v.lay q).2 := by
  refine h.flush.encodeRequest ?_
  have hlen := q.len_le
  have hcap : 40 + 4096 ≤ batchBytes := by decide
  rw [flush_batch, List.length_nil]
  omega

/-- Every call does to a log what it does to its view, and returns the same. -/
theorem Shows.run (h : w.Shows v) (c : Call) :
    (c.run w).1.Shows (v.step c).1 ∧ (c.run w).2 = (v.step c).2 := by
  cases c with
  | stage q => exact h.stage q
  | stageBlock txnId blockNo payload => exact h.stage _
  | append q =>
    obtain ⟨hs, ha⟩ := h.append q
    unfold Call.run LogView.step
    simp only
    rw [← ha]
    split
    · rename_i text htext
      exact ⟨hs, htext.symm⟩
    · exact ⟨hs.flush, rfl⟩
  | flush => exact ⟨h.flush, rfl⟩
  | sync => exact ⟨h.sync, rfl⟩
  | reset nextLsn =>
    unfold Call.run LogView.step
    simp only
    split
    · exact ⟨h, rfl⟩
    · exact ⟨shows_reset w nextLsn.toNat, rfl⟩

theorem Shows.runs (h : w.Shows v) (cs : List Call) :
    (w.runs cs).Shows (v.steps cs) ∧ w.answers cs = v.answers cs := by
  induction cs generalizing w v with
  | nil => exact ⟨h, rfl⟩
  | cons c cs ih =>
    obtain ⟨hc, ha⟩ := h.run c
    obtain ⟨hs, hr⟩ := ih hc
    refine ⟨hs, ?_⟩
    rw [answers, LogView.answers, ha, hr]

/-- The batch fits the buffer right after any call has laid its record out. -/
theorem Shows.laidOut (h : w.Shows v) (c : Call) : (c.laidOut w).length ≤ batchBytes := by
  cases c with
  | stage q => exact (h.stage q).1.bound
  | stageBlock txnId blockNo payload => exact (h.stage _).1.bound
  | append q => exact (h.append q).1.bound
  | flush => exact h.bound
  | sync => exact h.bound
  | reset nextLsn => exact h.bound

/-! ## Nothing waits in a log written record by record -/

theorem run_recordByRecord_batch (h : w.batch = []) (c : Call) :
    ((c.recordByRecord).run w).1.batch = [] := by
  have happend : ∀ q : WalRequest, ((Call.append q).run w).1.batch = [] := by
    intro q
    unfold Call.run encodeRequest
    simp only
    by_cases hl : q.Legal
    · simp only [if_pos hl]
      exact flush_batch _
    · simp only [if_neg hl]
      exact flush_batch _
  cases c with
  | stage q => exact happend q
  | stageBlock txnId blockNo payload => exact happend _
  | append q => exact happend q
  | flush => exact flush_batch w
  | sync => exact flush_batch w
  | reset nextLsn =>
    unfold Call.recordByRecord Call.run
    simp only
    split
    · exact h
    · rfl

theorem runs_recordByRecord_batch (h : w.batch = []) (cs : List Call) :
    (w.runs (cs.map Call.recordByRecord)).batch = [] := by
  induction cs generalizing w with
  | nil => exact h
  | cons c cs ih => exact ih (run_recordByRecord_batch h c)

/-- A call that writes the batch out leaves nothing in it. -/
theorem run_flushes {c : Call} (hc : c = .flush ∨ c = .sync) (w : Wal) :
    (c.run w).1.batch = [] := by
  rcases hc with rfl | rfl
  · exact flush_batch w
  · exact flush_batch w

/-! ## The file only grows -/

/-- Each state of the file is a prefix of the next one, where the file was not emptied. -/
def Grows (states : List (Option (List UInt8))) : Prop :=
  states.IsChain fun a b => ∀ x ∈ a, ∀ y ∈ b, x <+: y

/-- The states of the file during a call, each a prefix of the next, the last the file after it. -/
def GrowsTo (w w' : Wal) (states : List (List UInt8)) : Prop :=
  List.IsChain (· <+: ·) (w.file.contents :: states ++ [w'.file.contents])

theorem growsTo_nil {w' : Wal} (h : w'.file.contents = w.file.contents) : w.GrowsTo w' [] := by
  rw [GrowsTo, List.cons_append, List.nil_append, h]
  exact List.isChain_pair.mpr (List.prefix_refl _)

theorem growsTo_flush (h : w.endOff = w.file.contents.length) :
    w.GrowsTo w.flush w.flushStates := by
  unfold flushStates
  split
  · rename_i h0
    refine growsTo_nil ?_
    rw [flush_contents h, List.eq_nil_of_length_eq_zero h0, List.append_nil]
  · rw [GrowsTo, List.cons_append, List.singleton_append, flush_contents h]
    exact List.isChain_cons_cons.mpr ⟨List.prefix_append ..,
      List.isChain_pair.mpr (List.prefix_refl _)⟩

theorem GrowsTo.trans {w' w'' : Wal} {xs ys : List (List UInt8)} (h : w.GrowsTo w' xs)
    (h' : w'.GrowsTo w'' ys) : w.GrowsTo w'' (xs ++ ys) := by
  have hjoin : List.IsChain (· <+: ·)
      ((w.file.contents :: xs) ++ w'.file.contents :: (ys ++ [w''.file.contents])) := by
    refine List.isChain_split.mpr ⟨h, h'⟩
  rw [GrowsTo, List.cons_append, List.append_assoc, ← List.cons_append]
  exact hjoin.sublist (List.Sublist.append (List.Sublist.refl _) (List.sublist_cons_self ..))

theorem encodeRequest_file (w : Wal) (q : WalRequest) :
    (w.encodeRequest q).1.file = w.file ∧ (w.encodeRequest q).1.endOff = w.endOff := by
  unfold encodeRequest
  split <;> exact ⟨rfl, rfl⟩

theorem Shows.growsTo_stage (h : w.Shows v) (q : WalRequest) :
    w.GrowsTo ((w.makeRoom q).encodeRequest q).1
      (if 0 < w.batch.length ∧ batchBytes < w.batch.length + q.len then w.flushStates else []) := by
  have hfile := (encodeRequest_file (w.makeRoom q) q).1
  unfold GrowsTo
  rw [hfile, Wal.makeRoom]
  split
  · exact growsTo_flush h.endOff
  · exact growsTo_nil rfl

/-- Every call but a `reset` lets the file grow, write by write. -/
theorem Shows.growsTo (h : w.Shows v) {c : Call} (hc : ∀ n, c ≠ .reset n) :
    w.GrowsTo (c.run w).1 (c.states w) := by
  cases c with
  | stage q => exact h.growsTo_stage q
  | stageBlock txnId blockNo payload => exact h.growsTo_stage _
  | append q =>
    have hfirst := growsTo_flush h.endOff
    obtain ⟨hfile, hend⟩ := encodeRequest_file w.flush q
    unfold Call.run Call.states
    simp only
    by_cases hl : q.Legal
    · have hsecond : w.flush.GrowsTo (w.flush.encodeRequest q).1.flush
          (w.flush.encodeRequest q).1.flushStates := by
        have := growsTo_flush (w := (w.flush.encodeRequest q).1)
          (by rw [hend, hfile]; exact h.flush.endOff)
        unfold GrowsTo at this ⊢
        rwa [hfile] at this
      have hrun := hfirst.trans hsecond
      rw [if_pos hl]
      rw [Wal.encodeRequest, if_pos hl] at hrun ⊢
      exact hrun
    · rw [if_neg hl, List.append_nil, Wal.encodeRequest, if_neg hl]
      exact hfirst
  | flush => exact growsTo_flush h.endOff
  | sync => exact growsTo_flush h.endOff
  | reset n => exact absurd rfl (hc n)

theorem Shows.grows (h : w.Shows v) (cs : List Call) :
    Grows (some w.file.contents :: w.history cs) := by
  induction cs generalizing w v with
  | nil => exact List.isChain_singleton _
  | cons c cs ih =>
    have hrest := ih (h.run c).1
    have hcall : (∀ n, c ≠ .reset n) → Grows (some w.file.contents :: w.history (c :: cs)) := by
      intro hc
      have hempty : c.emptied = [] := by
        cases c with
        | reset n => exact absurd rfl (hc n)
        | _ => rfl
      have hmap : List.IsChain (fun a b => ∀ x ∈ a, ∀ y ∈ b, x <+: y)
          ((w.file.contents :: c.states w ++ [(c.run w).1.file.contents]).map some) := by
        rw [List.isChain_map]
        refine List.IsChain.imp ?_ (h.growsTo hc)
        intro a b hab x hx y hy
        rw [Option.mem_some_iff] at hx hy
        rwa [← hx, ← hy]
      rw [List.map_append, List.map_cons, List.map_singleton] at hmap
      rw [history, hempty, List.append_nil, ← List.cons_append]
      exact List.isChain_split.mpr ⟨hmap, hrest⟩
    cases c with
    | reset n =>
      rw [history]
      by_cases hn : n = 0
      · rw [Call.emptied, if_pos hn]
        refine List.isChain_cons_cons.mpr ⟨?_, hrest⟩
        rw [Call.run, if_pos hn]
        intro x hx y hy
        rw [Option.mem_some_iff] at hx hy
        rw [← hx, ← hy]
      · rw [Call.emptied, if_neg hn]
        refine List.isChain_cons_cons.mpr ⟨?_, List.isChain_cons_cons.mpr ⟨?_, hrest⟩⟩
        · intro x _ y hy
          cases hy
        · intro x hx
          cases hx
    | _ => exact hcall fun n hn => by cases hn

theorem shows_open (file : List UInt8) : (open_ file).Shows ⟨file, [], 1, 0⟩ :=
  ⟨⟨[], [], rfl, (List.append_nil _).symm, rfl⟩, rfl, rfl, rfl, Nat.zero_le _⟩

/-- A log that batches and one written record by record return the same, say the same of their
    lsns and have the same file whenever the batch has been written out.  The batch never
    outgrows its buffer, the file only grows until it is emptied, and the records laid out since
    then reach it one after the other, in the order of the lsns that were returned for them. -/
theorem batched_eq_recordByRecord (file : List UInt8) (cs : List Call) :
    let w := (open_ file).runs cs
    let u := (open_ file).runs (cs.map Call.recordByRecord)
    (open_ file).answers cs = (open_ file).answers (cs.map Call.recordByRecord) ∧
    w.nextLsn = u.nextLsn ∧ w.durableLsn = u.durableLsn ∧
    u.file.contents = w.file.contents ++ w.batch ∧
    (∀ c : Call, c = .flush ∨ c = .sync → (c.run w).1.file.contents = (c.run u).1.file.contents) ∧
    (∀ c : Call, (c.laidOut w).length ≤ batchBytes) ∧
    Grows (some file :: (open_ file).history cs) ∧
    (laid cs ((open_ file).answers cs)).IsChain (fun a b => b.header.lsn = a.header.lsn + 1) ∧
    ∃ written waiting, laid cs ((open_ file).answers cs) = written ++ waiting ∧
      w.file.contents = (if cs.any Call.empties then [] else file) ++ recordsBytes written ∧
      w.batch = recordsBytes waiting := by
  intro w u
  have h0 := shows_open file
  obtain ⟨hw, hwa⟩ := h0.runs cs
  obtain ⟨hu, hua⟩ := h0.runs (cs.map Call.recordByRecord)
  rw [LogView.steps_recordByRecord] at hu
  rw [LogView.answers_recordByRecord] at hua
  have hubatch : u.batch = [] := runs_recordByRecord_batch rfl cs
  refine ⟨hwa.trans hua.symm, hw.next.trans hu.next.symm, hw.durable.trans hu.durable.symm, ?_, ?_,
    hw.laidOut, h0.grows cs, ?_, ?_⟩
  · have hbytes := hu.bytes
    rw [show ((open_ file).runs (cs.map Call.recordByRecord)).batch = [] from hubatch,
      List.append_nil] at hbytes
    exact hbytes.trans hw.bytes.symm
  · intro c hc
    have hwc := (hw.run c).1.bytes
    have huc := (hu.run c).1.bytes
    rw [run_flushes hc, List.append_nil] at hwc huc
    exact hwc.trans huc.symm
  · have hordered : LogView.Ordered ⟨file, [], 1, 0⟩ :=
      ⟨List.isChain_nil, fun r hr => by cases hr⟩
    have hchain := (hordered.steps cs).1
    rwa [LogView.steps_records, ← hwa] at hchain
  · have hwhole := hw.whole
    rwa [LogView.steps_records, LogView.steps_base, ← hwa] at hwhole

end Wal

end ConcurrentFs
