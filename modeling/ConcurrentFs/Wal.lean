/-
  ConcurrentFs.Wal

  The write-ahead log (src/wal.cpp): checksummed records, how they are laid out
  in the batch and in the file, and how `scan` reads them back.

  A log file is a list of bytes.  `WalRecordHeader` has 40 bytes in five words of
  eight; a BLOCK record carries the 4096 bytes of the block after it.
-/
import ConcurrentFs.Layout
import ConcurrentFs.Crc32
import ConcurrentFs.Lib.Durable

namespace ConcurrentFs

open Lib Codec

/-- `WAL_MAGIC`: where a record starts. -/
def walMagic : UInt32 := 0x524C4157
/-- `WAL_BEGIN`. -/
def walBegin : UInt16 := 1
/-- `WAL_BLOCK`. -/
def walBlock : UInt16 := 2
/-- `WAL_COMMIT`. -/
def walCommit : UInt16 := 3
/-- `Wal::BATCH_BYTES`. -/
def batchBytes : Nat := 1048576

structure WalRecordHeader where
  magic : UInt32
  type : UInt16
  reserved : UInt16
  /-- For a BLOCK record the block it is about, else 0. -/
  blockNo : UInt32
  payloadLen : UInt32
  lsn : UInt64
  /-- The lsn of the transaction's BEGIN record. -/
  txnId : UInt64
  checksum : UInt32
  pad : UInt32
  deriving DecidableEq

structure WalRecord where
  header : WalRecordHeader
  payload : Block

namespace WalRecordHeader

/-- The 40 bytes of a header, as five words. -/
def codec : Codec WalRecordHeader 40 :=
  Equiv.trans
    { toFun := fun h => ((h.magic, h.type, h.reserved), (h.blockNo, h.payloadLen), h.lsn, h.txnId,
        h.checksum, h.pad)
      invFun := fun ((a, b, c), (d, e), f, g, i, j) => ⟨a, b, c, d, e, f, g, i, j⟩
      left_inv := fun _ => rfl
      right_inv := fun _ => rfl }
    (pair (pair u32 (pair u16 u16)) <| pair (pair u32 u32) <| pair u64 <| pair u64 (pair u32 u32))

end WalRecordHeader

/-! ## Records -/

/-- The bytes at the front of a list, zero past its end. -/
def frontBytes (l : List UInt8) (n : Nat) : Bytes n := fun i => l.getD i 0

/-- `record_checksum`: the header with a zero checksum, then the payload. -/
def recordChecksum (h : WalRecordHeader) (payload : Block) : UInt32 :=
  let copy := { h with checksum := 0 }
  let c := crc32 (List.ofFn (WalRecordHeader.codec copy)) 0
  if h.payloadLen > 0 then
    UInt32.ofBitVec (crc32 ((List.ofFn payload).take h.payloadLen.toNat) c)
  else UInt32.ofBitVec c

/-- What a record says.  A BLOCK record, and only a BLOCK record, has a payload: `Wal::encode`
    throws otherwise, and here such a record cannot be written down. -/
inductive WalItem where
  | begin
  | block (blockNo : Nat) (payload : Block)
  | commit

namespace WalItem

def type : WalItem → UInt16
  | begin => walBegin
  | block .. => walBlock
  | commit => walCommit

def blockNo : WalItem → Nat
  | block b _ => b
  | _ => 0

def payload : WalItem → Block
  | block _ p => p
  | _ => Bytes.zero 4096

def payloadLen : WalItem → UInt32
  | block .. => 4096
  | _ => 0

end WalItem

/-- The header `Wal::encode` lays out, checksum included. -/
def encodeHeader (item : WalItem) (txnId lsn : Nat) : WalRecordHeader :=
  let h : WalRecordHeader :=
    { magic := walMagic, type := item.type, reserved := 0, blockNo := UInt32.ofNat item.blockNo,
      payloadLen := item.payloadLen, lsn := UInt64.ofNat lsn, txnId := UInt64.ofNat txnId,
      checksum := 0, pad := 0 }
  { h with checksum := recordChecksum h item.payload }

/-- The record `Wal::encode` lays out. -/
def encodeRecord (item : WalItem) (txnId lsn : Nat) : WalRecord :=
  ⟨encodeHeader item txnId lsn, item.payload⟩

/-- The bytes of a record: its header, then its payload if it has one. -/
def WalRecord.bytes (r : WalRecord) : List UInt8 :=
  List.ofFn (WalRecordHeader.codec r.header) ++ (List.ofFn r.payload).take r.header.payloadLen.toNat

/-- One turn of the loop of `Wal::scan`: the record at the front of what is left of the file,
    unless one of the checks stops the scan there.  `prev` is the lsn of the record before. -/
def scanRecord (totalBlocks : Nat) (rest : List UInt8) (prev : Option UInt64) : Option WalRecord :=
  if rest.length < 40 then none else
  let h := WalRecordHeader.codec.symm (frontBytes rest 40)
  let isBlock := h.type = walBlock
  if h.magic ≠ walMagic ∨ h.reserved ≠ 0 ∨ h.pad ≠ 0 then none else
  if h.type ≠ walBegin ∧ h.type ≠ walBlock ∧ h.type ≠ walCommit then none else
  if h.payloadLen ≠ (if isBlock then 4096 else 0) then none else
  if isBlock ∧ (h.blockNo = 0 ∨ (totalBlocks ≠ 0 ∧ totalBlocks ≤ h.blockNo.toNat)) then none else
  if ¬ isBlock ∧ h.blockNo ≠ 0 then none else
  if h.lsn = 0 ∨ (∃ p ∈ prev, h.lsn ≠ p + 1) then none else
  if isBlock ∧ rest.length < 40 + 4096 then none else
  let payload := if isBlock then frontBytes (rest.drop 40) 4096 else Bytes.zero 4096
  if recordChecksum h payload ≠ h.checksum then none else
  some ⟨h, payload⟩

theorem scanRecord_length {totalBlocks : Nat} {rest : List UInt8} {prev : Option UInt64}
    {r : WalRecord} (h : scanRecord totalBlocks rest prev = some r) : 40 ≤ rest.length := by
  unfold scanRecord at h
  split at h
  · cases h
  · omega

/-- The loop of `Wal::scan`, from somewhere in the file. -/
def scanFrom (totalBlocks : Nat) (rest : List UInt8) (prev : Option UInt64) : List WalRecord :=
  match h : scanRecord totalBlocks rest prev with
  | none => []
  | some r =>
    r :: scanFrom totalBlocks (rest.drop (40 + r.header.payloadLen.toNat)) (some r.header.lsn)
termination_by rest.length
decreasing_by
  have := scanRecord_length h
  rw [List.length_drop]
  omega

/-- `Wal::scan`: every intact record from the start of the log, in order. -/
def scan (totalBlocks : Nat) (file : List UInt8) : List WalRecord := scanFrom totalBlocks file none

theorem scanFrom_none {totalBlocks : Nat} {rest : List UInt8} {prev : Option UInt64}
    (h : scanRecord totalBlocks rest prev = none) : scanFrom totalBlocks rest prev = [] := by
  rw [scanFrom]
  split
  · rfl
  · simp_all

@[simp] theorem scanFrom_nil (totalBlocks : Nat) (prev : Option UInt64) :
    scanFrom totalBlocks [] prev = [] := scanFrom_none (by simp [scanRecord])

theorem scanFrom_some {totalBlocks : Nat} {rest : List UInt8} {prev : Option UInt64} {r : WalRecord}
    (h : scanRecord totalBlocks rest prev = some r) :
    scanFrom totalBlocks rest prev =
      r :: scanFrom totalBlocks (rest.drop (40 + r.header.payloadLen.toNat))
        (some r.header.lsn) := by
  rw [scanFrom]
  split
  · simp_all
  · rename_i r' h'
    have : r' = r := by simpa [h] using h'.symm
    rw [this]

/-! ## A header, word by word -/

/-- The word of a header at `8 * w`. -/
def headerWord (f : Bytes 40) (w : Nat) : Bytes 8 := f.slice (8 * w) 8

theorem codec_symm_eq (f : Bytes 40) :
    WalRecordHeader.codec.symm f =
      let a := (pair u32 (pair u16 u16)).symm (headerWord f 0)
      let b := (pair u32 u32).symm (headerWord f 1)
      let e := (pair u32 u32).symm (headerWord f 4)
      ⟨a.1, a.2.1, a.2.2, b.1, b.2, u64.symm (headerWord f 2), u64.symm (headerWord f 3),
        e.1, e.2⟩ := by
  have h := pair_symm_apply (pair u32 (pair u16 u16))
    (pair (pair u32 u32) <| pair u64 <| pair u64 (pair u32 u32)) f
  have h1 := pair_symm_apply (pair u32 u32) (pair u64 <| pair u64 (pair u32 u32))
    (f.slice 8 32)
  have h2 := pair_symm_apply u64 (pair u64 (pair u32 u32)) ((f.slice 8 32).slice 8 24)
  have h3 := pair_symm_apply u64 (pair u32 u32) (((f.slice 8 32).slice 8 24).slice 8 16)
  simp only [WalRecordHeader.codec, Equiv.symm_trans_apply]
  rw [h, h1, h2, h3]
  simp only [Equiv.coe_fn_symm_mk, headerWord, Bytes.slice_slice, Nat.reduceLeDiff, Nat.reduceAdd,
    Nat.reduceMul]

/-- A header read from zeros where word 0 should be has no magic. -/
theorem magic_of_word_zero {f : Bytes 40} (h : headerWord f 0 = Bytes.zero 8) :
    (WalRecordHeader.codec.symm f).magic = 0 := by
  rw [codec_symm_eq]
  simp only [h]
  decide

theorem lsn_of_word_zero {f : Bytes 40} (h : headerWord f 2 = Bytes.zero 8) :
    (WalRecordHeader.codec.symm f).lsn = 0 := by
  rw [codec_symm_eq]
  simp only [h]
  decide

/-! ## What the scan accepts -/

/-- Everything `scan` checks of a record by itself. -/
structure WalRecord.Intact (totalBlocks : Nat) (r : WalRecord) : Prop where
  magic : r.header.magic = walMagic
  reserved : r.header.reserved = 0
  pad : r.header.pad = 0
  type : r.header.type = walBegin ∨ r.header.type = walBlock ∨ r.header.type = walCommit
  payloadLen : r.header.payloadLen = if r.header.type = walBlock then 4096 else 0
  block : r.header.type = walBlock →
    r.header.blockNo ≠ 0 ∧ (totalBlocks ≠ 0 → r.header.blockNo.toNat < totalBlocks)
  noBlock : r.header.type ≠ walBlock → r.header.blockNo = 0 ∧ r.payload = Bytes.zero 4096
  lsn : r.header.lsn ≠ 0
  checksum : recordChecksum r.header r.payload = r.header.checksum

/-- What `scan` checks of a record against the one before it. -/
def WalRecord.Follows (prev : Option UInt64) (r : WalRecord) : Prop :=
  ∀ p, prev = some p → r.header.lsn = p + 1

/-- The record at the front of a file passes exactly when it is intact, follows the one before
    it, and all its bytes are there. -/
theorem scanRecord_eq_some_iff {totalBlocks : Nat} {rest : List UInt8} {prev : Option UInt64}
    {r : WalRecord} :
    scanRecord totalBlocks rest prev = some r ↔
      40 ≤ rest.length ∧ r.header = WalRecordHeader.codec.symm (frontBytes rest 40) ∧
      r.Intact totalBlocks ∧ r.Follows prev ∧
      (r.header.type = walBlock →
        40 + 4096 ≤ rest.length ∧ r.payload = frontBytes (rest.drop 40) 4096) := by
  obtain ⟨rh, rp⟩ := r
  simp only [scanRecord, ne_eq, Option.ite_none_left_eq_some, Option.some.injEq, WalRecord.mk.injEq,
    not_or, not_and, not_not, not_exists]
  constructor
  · rintro ⟨hlen, ⟨hm, hr, hp⟩, ht, hpl, hb, hnb, ⟨hl, hprev⟩, hfit, hck, rfl, rfl⟩
    refine ⟨by omega, rfl, ⟨hm, hr, hp, ?_, hpl, ?_, ?_, hl, hck⟩, ?_, ?_⟩
    · tauto
    · intro h
      exact ⟨(hb h).1, fun h0 => Nat.lt_of_not_le ((hb h).2 h0)⟩
    · intro h
      exact ⟨hnb h, if_neg h⟩
    · intro p hp
      exact hprev p (by simpa using hp)
    · intro h
      exact ⟨by have := hfit h; omega, if_pos h⟩
  · rintro ⟨hlen, rfl, hi, hf, hpay⟩
    have hrp : (if (WalRecordHeader.codec.symm (frontBytes rest 40)).type = walBlock
        then frontBytes (rest.drop 40) 4096 else Bytes.zero 4096) = rp := by
      split
      · rename_i h
        exact (hpay h).2.symm
      · rename_i h
        exact (hi.noBlock h).2.symm
    refine ⟨by omega, ⟨hi.magic, hi.reserved, hi.pad⟩, ?_, hi.payloadLen, ?_, ?_, ⟨hi.lsn, ?_⟩, ?_,
      ?_, rfl, hrp⟩
    · have := hi.type
      tauto
    · intro h
      exact ⟨(hi.block h).1, fun h0 => Nat.not_le_of_lt ((hi.block h).2 h0)⟩
    · intro h
      exact (hi.noBlock h).1
    · intro p hp
      exact hf p (by simpa using hp)
    · intro h
      have := (hpay h).1
      omega
    · rw [hrp]
      exact hi.checksum

theorem WalRecord.Intact.payloadLen_toNat {totalBlocks : Nat} {r : WalRecord}
    (h : r.Intact totalBlocks) :
    r.header.payloadLen.toNat = if r.header.type = walBlock then 4096 else 0 := by
  rw [h.payloadLen]
  split <;> rfl

theorem WalRecord.Intact.length_bytes {totalBlocks : Nat} {r : WalRecord}
    (h : r.Intact totalBlocks) : r.bytes.length = 40 + r.header.payloadLen.toNat := by
  have := h.payloadLen_toNat
  simp only [WalRecord.bytes, List.length_append, List.length_ofFn, List.length_take]
  split at this <;> omega

theorem WalRecord.Intact.eight_dvd_length {totalBlocks : Nat} {r : WalRecord}
    (h : r.Intact totalBlocks) : 8 ∣ r.bytes.length := by
  have := h.payloadLen_toNat
  rw [h.length_bytes]
  split at this <;> omega

theorem frontBytes_ofFn_append {n : Nat} (b : Bytes n) (rest : List UInt8) :
    frontBytes (List.ofFn b ++ rest) n = b := by
  funext i
  rw [frontBytes, List.getD_eq_getElem?_getD, List.getElem?_append_left (by simp)]
  simp

/-- The bytes of an intact record read back as that record, whatever follows them. -/
theorem scanRecord_bytes {totalBlocks : Nat} {r : WalRecord} {prev : Option UInt64}
    (hi : r.Intact totalBlocks) (hf : r.Follows prev) (rest : List UInt8) :
    scanRecord totalBlocks (r.bytes ++ rest) prev = some r := by
  have hlen := hi.length_bytes
  rw [scanRecord_eq_some_iff]
  refine ⟨by rw [List.length_append]; omega, ?_, hi, hf, fun ht => ?_⟩
  · rw [WalRecord.bytes, List.append_assoc, frontBytes_ofFn_append, Equiv.symm_apply_apply]
  · have hp := hi.payloadLen_toNat
    rw [if_pos ht] at hp
    refine ⟨by rw [List.length_append]; omega, ?_⟩
    have : (List.ofFn r.payload).take r.header.payloadLen.toNat = List.ofFn r.payload := by
      rw [List.take_of_length_le (by rw [List.length_ofFn]; omega)]
    rw [WalRecord.bytes, this, List.append_assoc, List.drop_append_of_le_length (by simp),
      List.drop_of_length_le (by simp), List.nil_append, frontBytes_ofFn_append]

theorem scanFrom_bytes {totalBlocks : Nat} {r : WalRecord} {prev : Option UInt64}
    (hi : r.Intact totalBlocks) (hf : r.Follows prev) (rest : List UInt8) :
    scanFrom totalBlocks (r.bytes ++ rest) prev =
      r :: scanFrom totalBlocks rest (some r.header.lsn) := by
  rw [scanFrom_some (scanRecord_bytes hi hf rest), ← hi.length_bytes, List.drop_left]

/-- What `Wal::encode` lays out passes the scan's checks. -/
theorem encodeRecord_intact {totalBlocks : Nat} {item : WalItem} {txnId lsn : Nat}
    (hblock : ∀ b p, item = .block b p → b ≠ 0 ∧ b < totalBlocks) (htotal : totalBlocks ≤ 2 ^ 32)
    (hlsn : lsn ≠ 0) (hlsn' : lsn < 2 ^ 64) :
    (encodeRecord item txnId lsn).Intact totalBlocks := by
  refine ⟨rfl, rfl, rfl, ?_, ?_, ?_, ?_, ?_, rfl⟩
  · cases item
    · exact Or.inl rfl
    · exact Or.inr (Or.inl rfl)
    · exact Or.inr (Or.inr rfl)
  · cases item <;> rfl
  · intro h
    cases item with
    | begin => exact absurd (show walBegin = walBlock from h) (by decide)
    | commit => exact absurd (show walCommit = walBlock from h) (by decide)
    | block b p =>
      obtain ⟨h0, hlt⟩ := hblock b p rfl
      have hb : (UInt32.ofNat b).toNat = b := by
        rw [UInt32.toNat_ofNat']
        exact Nat.mod_eq_of_lt (by omega)
      refine ⟨fun hz => h0 ?_, fun _ => ?_⟩
      · rw [← hb]
        exact congrArg UInt32.toNat hz
      · show (UInt32.ofNat b).toNat < totalBlocks
        rw [hb]
        exact hlt
  · intro h
    cases item with
    | begin => exact ⟨rfl, rfl⟩
    | commit => exact ⟨rfl, rfl⟩
    | block b p => exact absurd rfl h
  · intro hz
    apply hlsn
    have := congrArg UInt64.toNat hz
    rw [show (encodeRecord item txnId lsn).header.lsn = UInt64.ofNat lsn from rfl,
      UInt64.toNat_ofNat', Nat.mod_eq_of_lt hlsn'] at this
    exact this

/-! ## A torn tail

A crash leaves every 8-byte word of the unsynced part of the log intact or zero.  No checksum
is needed to see what that does to a record: without its first word it has no magic, without
its third no lsn, and a BLOCK record without its second has the wrong payload length.  What
passes has the type, length, block number and lsn it was written with, and the transaction id
it was written with or none. -/

theorem frontBytes_torn {full res : List UInt8} (h : TornTail full res) (hlen : 40 ≤ full.length)
    {w : Nat} (hw : w < 5) :
    headerWord (frontBytes res 40) w = headerWord (frontBytes full 40) w ∨
      headerWord (frontBytes res 40) w = Bytes.zero 8 := by
  rcases h.word w with hk | hz
  · left
    refine Bytes.ext_get fun i hi => ?_
    rw [headerWord, headerWord, Bytes.get_slice _ _ hi, Bytes.get_slice _ _ hi,
      Bytes.get_of_lt _ (by omega), Bytes.get_of_lt _ (by omega), frontBytes, frontBytes,
      List.getD_eq_getElem?_getD, List.getD_eq_getElem?_getD]
    exact congrArg (fun o : Option UInt8 => o.getD 0) (hk i hi (by omega))
  · right
    refine Bytes.ext_get fun i hi => ?_
    rw [headerWord, Bytes.get_slice _ _ hi, Bytes.get_of_lt _ (by omega), Bytes.get_zero]
    exact hz i hi

/-- What is left of a record after a crash, if the scan still accepts it. -/
structure WalRecord.TornFrom (written read : WalRecord) : Prop where
  type : read.header.type = written.header.type
  blockNo : read.header.blockNo = written.header.blockNo
  payloadLen : read.header.payloadLen = written.header.payloadLen
  lsn : read.header.lsn = written.header.lsn
  txnId : read.header.txnId = written.header.txnId ∨ read.header.txnId = 0

theorem scanRecord_torn {totalBlocks : Nat} {w r : WalRecord} {rest res : List UInt8}
    {prev : Option UInt64} (hi : w.Intact totalBlocks) (ht : TornTail (w.bytes ++ rest) res)
    (h : scanRecord totalBlocks res prev = some r) : w.TornFrom r := by
  obtain ⟨hlen, hr, hri, hrf, -⟩ := scanRecord_eq_some_iff.mp h
  have hwl : 40 ≤ (w.bytes ++ rest).length := by
    rw [List.length_append, hi.length_bytes]
    omega
  have hw : w.header = WalRecordHeader.codec.symm (frontBytes (w.bytes ++ rest) 40) := by
    rw [WalRecord.bytes, List.append_assoc, frontBytes_ofFn_append, Equiv.symm_apply_apply]
  have hword := fun k (hk : k < 5) => frontBytes_torn ht hwl hk
  generalize frontBytes res 40 = f at hr hword
  generalize frontBytes (w.bytes ++ rest) 40 = g at hw hword
  -- the magic and the lsn say that words 0 and 2 survived
  have h0 : headerWord f 0 = headerWord g 0 := by
    refine (hword 0 (by omega)).resolve_right fun hz => ?_
    have := hri.magic
    rw [hr, magic_of_word_zero hz] at this
    exact absurd this (by decide)
  have h2 : headerWord f 2 = headerWord g 2 := by
    refine (hword 2 (by omega)).resolve_right fun hz => ?_
    have := hri.lsn
    rw [hr, lsn_of_word_zero hz] at this
    exact this rfl
  have htype : r.header.type = w.header.type := by
    rw [hr, hw, codec_symm_eq, codec_symm_eq]
    simp only [h0]
  have hlen' : r.header.payloadLen = w.header.payloadLen := by
    rw [hri.payloadLen, hi.payloadLen, htype]
  refine ⟨htype, ?_, hlen', ?_, ?_⟩
  · by_cases hb : w.header.type = walBlock
    · -- word 1 of a BLOCK record holds its payload length, which is not zero
      have h1 : headerWord f 1 = headerWord g 1 := by
        refine (hword 1 (by omega)).resolve_right fun hz => ?_
        have hpl := hri.payloadLen
        rw [if_pos (htype.trans hb), hr, codec_symm_eq] at hpl
        simp only [hz] at hpl
        exact absurd hpl (by decide)
      rw [hr, hw, codec_symm_eq, codec_symm_eq]
      simp only [h1]
    · rw [(hi.noBlock hb).1, (hri.noBlock (by rw [htype]; exact hb)).1]
  · rw [hr, hw, codec_symm_eq, codec_symm_eq]
    simp only [h2]
  · rcases hword 3 (by omega) with h3 | h3
    · left
      rw [hr, hw, codec_symm_eq, codec_symm_eq]
      simp only [h3]
    · right
      rw [hr, codec_symm_eq]
      simp only [h3]
      decide

/-- The bytes of some records, one after the other. -/
def recordsBytes (rs : List WalRecord) : List UInt8 := (rs.map WalRecord.bytes).flatten

@[simp] theorem recordsBytes_nil : recordsBytes [] = [] := rfl

@[simp] theorem recordsBytes_cons (r : WalRecord) (rs : List WalRecord) :
    recordsBytes (r :: rs) = r.bytes ++ recordsBytes rs := rfl

@[simp] theorem recordsBytes_append (rs ts : List WalRecord) :
    recordsBytes (rs ++ ts) = recordsBytes rs ++ recordsBytes ts := by
  simp [recordsBytes]

/-- Records written one after the other, from `prev` on. -/
def Chained (totalBlocks : Nat) : Option UInt64 → List WalRecord → Prop
  | _, [] => True
  | prev, r :: rs => r.Intact totalBlocks ∧ r.Follows prev ∧
      Chained totalBlocks (some r.header.lsn) rs

/-- The lsn of the last record of a list, or of the one before it. -/
def lastLsn (prev : Option UInt64) (rs : List WalRecord) : Option UInt64 :=
  (rs.getLast?.map fun r => some r.header.lsn).getD prev

@[simp] theorem lastLsn_nil (prev : Option UInt64) : lastLsn prev [] = prev := rfl

theorem lastLsn_cons (prev : Option UInt64) (r : WalRecord) (rs : List WalRecord) :
    lastLsn prev (r :: rs) = lastLsn (some r.header.lsn) rs := by
  cases rs with
  | nil => rfl
  | cons a as =>
    rw [lastLsn, lastLsn, List.getLast?_cons_cons, List.getLast?_eq_some_getLast (by simp)]
    rfl

/-- Intact records are read back, in order, and the scan goes on behind them. -/
theorem scanFrom_recordsBytes {totalBlocks : Nat} {rs : List WalRecord} {prev : Option UInt64}
    (h : Chained totalBlocks prev rs) (rest : List UInt8) :
    scanFrom totalBlocks (recordsBytes rs ++ rest) prev =
      rs ++ scanFrom totalBlocks rest (lastLsn prev rs) := by
  induction rs generalizing prev with
  | nil => rfl
  | cons r rs ih =>
    rw [recordsBytes_cons, List.append_assoc, scanFrom_bytes h.1 h.2.1, ih h.2.2, lastLsn_cons]
    rfl

/-- Behind intact records, a torn tail yields what is left of the first few records in it. -/
theorem scanFrom_torn {totalBlocks : Nat} {rs : List WalRecord} {prev : Option UInt64}
    {res : List UInt8} (h : Chained totalBlocks prev rs) (ht : TornTail (recordsBytes rs) res)
    (prev' : Option UInt64) :
    ∃ n, List.Forall₂ WalRecord.TornFrom (rs.take n) (scanFrom totalBlocks res prev') := by
  induction rs generalizing prev prev' res with
  | nil =>
    have : res = [] := by simpa using ht.length_le
    subst this
    refine ⟨0, ?_⟩
    rw [scanFrom_nil]
    exact List.Forall₂.nil
  | cons w rs ih =>
    cases hr : scanRecord totalBlocks res prev' with
    | none =>
      refine ⟨0, ?_⟩
      rw [scanFrom_none hr]
      exact List.Forall₂.nil
    | some r =>
      have htorn := scanRecord_torn h.1 ht hr
      have hlen : 40 + r.header.payloadLen.toNat = w.bytes.length := by
        rw [htorn.payloadLen, h.1.length_bytes]
      have ht' := ht.drop h.1.eight_dvd_length
      rw [recordsBytes_cons, List.drop_left] at ht'
      obtain ⟨n, hn⟩ := ih h.2.2 ht' (some r.header.lsn)
      refine ⟨n + 1, ?_⟩
      rw [scanFrom_some hr, hlen, List.take_succ_cons]
      exact List.Forall₂.cons htorn hn

/-! ## The log while the file system runs

`sync` and `reset` are two things to a crash: what they issue, and the moment the `fsync` that
follows has completed.  Each has a definition of its own. -/

structure Wal where
  file : AppendFile
  /-- `end_`, where the next write goes. -/
  endOff : Nat
  /-- `next_lsn_`. -/
  nextLsn : Nat
  /-- `durable_lsn_`, the highest lsn known to be on disk. -/
  durableLsn : Nat
  /-- `batch_`: records waiting to be written, back to back. -/
  batch : List UInt8

namespace Wal

/-- `encode`: lays a record out at the end of the batch; its lsn is the old `nextLsn`. -/
def encode (w : Wal) (item : WalItem) (txnId : Nat) : Wal :=
  { w with
    batch := w.batch ++ (encodeRecord item txnId w.nextLsn).bytes
    nextLsn := w.nextLsn + 1 }

/-- `write_out`. -/
def writeOut (w : Wal) (bytes : List UInt8) : Wal :=
  { w with file := w.file.issue (.write w.endOff bytes), endOff := w.endOff + bytes.length }

/-- `flush`: writes out what is waiting. -/
def flush (w : Wal) : Wal :=
  if w.batch.length = 0 then w else { w.writeOut w.batch with batch := [] }

/-- `append`: one record in a single write. -/
def append (w : Wal) (item : WalItem) (txnId : Nat) : Wal := ((w.flush).encode item txnId).flush

/-- `stage_record`: the record waits in the batch, which is written out first if the record
    would take it past `BATCH_BYTES`. -/
def stageRecord (w : Wal) (item : WalItem) (txnId : Nat) : Wal :=
  let len := 40 + item.payloadLen.toNat
  if 0 < w.batch.length ∧ batchBytes < w.batch.length + len then (w.flush).encode item txnId
  else w.encode item txnId

/-- The `fsync` of `sync` has completed. -/
def syncDone (w : Wal) : Wal := { w with file := w.file.sync, durableLsn := w.nextLsn - 1 }

/-- `sync`. -/
def sync (w : Wal) : Wal := w.flush.syncDone

/-- `reset` has issued its `ftruncate`. -/
def resetIssued (w : Wal) : Wal := { w with batch := [], file := w.file.issue .truncate }

/-- The `fsync` of `reset` has completed. -/
def resetDone (w : Wal) (nextLsn : Nat) : Wal :=
  { w with file := w.file.sync, endOff := 0, nextLsn := nextLsn, durableLsn := nextLsn - 1 }

/-- `reset`: empties the log; the next record gets `nextLsn`. -/
def reset (w : Wal) (nextLsn : Nat) : Wal := w.resetIssued.resetDone nextLsn

/-- `Wal::Wal` on a file with these contents. -/
def open_ (file : List UInt8) : Wal := ⟨⟨file, []⟩, file.length, 1, 0, []⟩

end Wal

end ConcurrentFs
