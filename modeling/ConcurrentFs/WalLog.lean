/-
  ConcurrentFs.WalLog

  The log while it is written: which records are in the file for good, which are
  written and not yet synced, and which still wait in the batch.

  `Wal.Holds w first ss es` says that the records `es`, numbered from lsn `first`,
  were appended since the log was last emptied, and that `ss` of them are synced.
  Every operation of the log has a lemma that says how it moves `ss` and `es`.
-/
import ConcurrentFs.Wal

namespace ConcurrentFs

open Lib

/-- What a record says, and its transaction. -/
abbrev LogEntry := WalItem × Nat

/-- Records with consecutive lsns. -/
def encodeFrom : Nat → List LogEntry → List WalRecord
  | _, [] => []
  | lsn, e :: es => encodeRecord e.1 e.2 lsn :: encodeFrom (lsn + 1) es

@[simp] theorem encodeFrom_nil (lsn : Nat) : encodeFrom lsn [] = [] := rfl

@[simp] theorem encodeFrom_cons (lsn : Nat) (e : LogEntry) (es : List LogEntry) :
    encodeFrom lsn (e :: es) = encodeRecord e.1 e.2 lsn :: encodeFrom (lsn + 1) es := rfl

theorem encodeFrom_append (lsn : Nat) (es fs : List LogEntry) :
    encodeFrom lsn (es ++ fs) = encodeFrom lsn es ++ encodeFrom (lsn + es.length) fs := by
  induction es generalizing lsn with
  | nil => rfl
  | cons e es ih =>
    rw [List.cons_append, encodeFrom_cons, ih, encodeFrom_cons, List.cons_append, List.length_cons,
      Nat.add_assoc, Nat.add_comm 1]

theorem mem_encodeFrom {lsn : Nat} {es : List LogEntry} {r : WalRecord}
    (h : r ∈ encodeFrom lsn es) :
    ∃ e ∈ es, ∃ n, lsn ≤ n ∧ n < lsn + es.length ∧ r = encodeRecord e.1 e.2 n := by
  induction es generalizing lsn with
  | nil => cases h
  | cons e es ih =>
    rcases List.mem_cons.mp h with rfl | h
    · exact ⟨e, List.mem_cons_self .., lsn, Nat.le_refl _, by simp, rfl⟩
    · obtain ⟨e', he', n, hlo, hhi, hr⟩ := ih h
      refine ⟨e', List.mem_cons_of_mem _ he', n, by omega, ?_, hr⟩
      rw [List.length_cons]
      omega

theorem eight_dvd_encodeRecord (item : WalItem) (txnId lsn : Nat) :
    8 ∣ (encodeRecord item txnId lsn).bytes.length := by
  have h : (encodeRecord item txnId lsn).header.payloadLen = item.payloadLen := rfl
  simp only [WalRecord.bytes, List.length_append, List.length_ofFn, List.length_take, h]
  cases item with
  | begin => decide
  | block b p =>
    show 8 ∣ 40 + min 4096 4096
    decide
  | commit => decide

theorem eight_dvd_encodeFrom (lsn : Nat) (es : List LogEntry) :
    8 ∣ (recordsBytes (encodeFrom lsn es)).length := by
  induction es generalizing lsn with
  | nil => simp
  | cons e es ih =>
    rw [encodeFrom_cons, recordsBytes_cons, List.length_append]
    exact Nat.dvd_add (eight_dvd_encodeRecord ..) (ih _)

/-- Entries about blocks the disk has. -/
def BlocksBelow (totalBlocks : Nat) (es : List LogEntry) : Prop :=
  ∀ e ∈ es, ∀ b p, e.1 = .block b p → b ≠ 0 ∧ b < totalBlocks

/-- Records encoded in order pass the scan, one after the other. -/
theorem chained_encodeFrom {totalBlocks lsn : Nat} {es : List LogEntry} {prev : Option UInt64}
    (hes : BlocksBelow totalBlocks es) (htotal : totalBlocks ≤ 2 ^ 32) (hlsn : lsn ≠ 0)
    (hend : lsn + es.length ≤ 2 ^ 64) (hprev : ∀ p, prev = some p → UInt64.ofNat lsn = p + 1) :
    Chained totalBlocks prev (encodeFrom lsn es) := by
  induction es generalizing lsn prev with
  | nil => trivial
  | cons e es ih =>
    rw [List.length_cons] at hend
    refine ⟨encodeRecord_intact (hes e (List.mem_cons_self ..)) htotal hlsn (by omega), hprev, ?_⟩
    refine ih (fun x hx => hes x (List.mem_cons_of_mem _ hx)) (by omega) (by omega) ?_
    rintro p ⟨⟩
    show UInt64.ofNat (lsn + 1) = UInt64.ofNat lsn + 1
    rw [UInt64.ofNat_add]
    rfl

/-! ## The state of the log -/

namespace Wal

/-- The records `es` were appended since the log was emptied, `ss` of them are synced. -/
structure Holds (w : Wal) (first : Nat) (ss es : List LogEntry) : Prop where
  synced : w.file.synced = recordsBytes (encodeFrom first ss)
  /-- What is written and what waits, in the order it was encoded. -/
  written : ∃ chunks : List (List UInt8), (∀ c ∈ chunks, c ≠ [] ∧ 8 ∣ c.length) ∧
    w.file.pending = appendOps w.file.synced.length chunks ∧
    w.endOff = w.file.synced.length + chunks.flatten.length ∧
    w.file.synced ++ chunks.flatten ++ w.batch = recordsBytes (encodeFrom first es)
  next : w.nextLsn = first + es.length
  durable : w.durableLsn < w.nextLsn

variable {w : Wal} {first : Nat} {ss es : List LogEntry}

theorem Holds.encode (h : w.Holds first ss es) (item : WalItem) (txnId : Nat) :
    (w.encode item txnId).Holds first ss (es ++ [(item, txnId)]) := by
  obtain ⟨chunks, h8, hp, he, hb⟩ := h.written
  refine ⟨h.synced, ⟨chunks, h8, hp, he, ?_⟩, ?_, Nat.lt_succ_of_lt h.durable⟩
  · show w.file.synced ++ chunks.flatten ++ (w.batch ++ _) = _
    rw [← List.append_assoc, hb, encodeFrom_append, recordsBytes_append, h.next]
    simp
  · show w.nextLsn + 1 = _
    rw [h.next, List.length_append]
    rfl

/-- The batch always holds whole records. -/
theorem Holds.eight_dvd_batch (h : w.Holds first ss es) : 8 ∣ w.batch.length := by
  obtain ⟨chunks, h8, -, -, hb⟩ := h.written
  have hs : 8 ∣ w.file.synced.length := by
    rw [h.synced]
    exact eight_dvd_encodeFrom ..
  have hc : 8 ∣ chunks.flatten.length := dvd_length_flatten fun c hc => (h8 c hc).2
  have ht := eight_dvd_encodeFrom first es
  rw [← hb, List.length_append, List.length_append] at ht
  exact (Nat.dvd_add_right (Nat.dvd_add hs hc)).mp ht

theorem Holds.flush (h : w.Holds first ss es) :
    w.flush.Holds first ss es ∧ w.flush.batch = [] := by
  by_cases hb : w.batch.length = 0
  · rw [Wal.flush, if_pos hb]
    exact ⟨h, List.eq_nil_of_length_eq_zero hb⟩
  · rw [Wal.flush, if_neg hb]
    obtain ⟨chunks, h8, hp, he, hcat⟩ := h.written
    refine ⟨⟨h.synced, ⟨chunks ++ [w.batch], ?_, ?_, ?_, ?_⟩, h.next, h.durable⟩, rfl⟩
    · intro c hc
      rcases List.mem_append.mp hc with hc | hc
      · exact h8 c hc
      · rw [List.mem_singleton.mp hc]
        exact ⟨fun he => hb (by rw [he]; rfl), h.eight_dvd_batch⟩
    · show w.file.pending ++ [.write w.endOff w.batch] = _
      rw [hp, he, ← appendOps_concat]
      rfl
    · show w.endOff + w.batch.length = w.file.synced.length + _
      rw [he, List.flatten_concat, List.length_append, Nat.add_assoc]
    · show w.file.synced ++ _ ++ [] = _
      rw [List.flatten_concat, List.append_nil, ← List.append_assoc, hcat]

theorem Holds.stageRecord (h : w.Holds first ss es) (item : WalItem) (txnId : Nat) :
    (w.stageRecord item txnId).Holds first ss (es ++ [(item, txnId)]) := by
  simp only [Wal.stageRecord]
  split
  · exact h.flush.1.encode item txnId
  · exact h.encode item txnId

theorem Holds.append (h : w.Holds first ss es) (item : WalItem) (txnId : Nat) :
    (w.append item txnId).Holds first ss (es ++ [(item, txnId)]) ∧
      (w.append item txnId).batch = [] := (h.flush.1.encode item txnId).flush

theorem Holds.contents (h : w.Holds first ss es) (hb : w.batch = []) :
    w.file.contents = recordsBytes (encodeFrom first es) := by
  obtain ⟨chunks, -, hp, -, hcat⟩ := h.written
  rw [AppendFile.contents, hp, applyOps_appendOps, ← hcat, hb, List.append_nil]

theorem Holds.syncDone (h : w.Holds first ss es) (hb : w.batch = []) :
    w.syncDone.Holds first es es := by
  have hpos := h.durable
  refine ⟨h.contents hb, ⟨[], by simp, rfl, ?_, ?_⟩, h.next, ?_⟩
  · obtain ⟨chunks, -, hp, he, hcat⟩ := h.written
    show w.endOff = w.file.contents.length + 0
    rw [he, h.contents hb, ← hcat, hb, List.append_nil, List.length_append, Nat.add_zero]
  · show w.file.contents ++ [] ++ w.batch = _
    rw [h.contents hb, hb, List.append_nil, List.append_nil]
  · show w.nextLsn - 1 < w.nextLsn
    omega

/-- With everything synced, nothing is outstanding. -/
theorem Holds.file_eq (h : w.Holds first es es) :
    w.file = ⟨recordsBytes (encodeFrom first es), []⟩ := by
  obtain ⟨chunks, h8, hp, -, hcat⟩ := h.written
  rw [h.synced, List.append_assoc, List.append_right_eq_self, List.append_eq_nil_iff,
    List.flatten_eq_nil_iff] at hcat
  have hnil : chunks = [] := List.eq_nil_iff_forall_not_mem.mpr fun c hc =>
    (h8 c hc).1 (hcat.1 c hc)
  rw [hnil, appendOps] at hp
  rw [← h.synced, ← hp]

theorem holds_reset {w : Wal} {file : List UInt8} (hf : w.file = ⟨file, [.truncate]⟩)
    (hb : w.batch = []) {n : Nat} (hn : n ≠ 0) : (w.resetDone n).Holds n [] [] := by
  have hs : w.file.contents = [] := by
    rw [hf]
    rfl
  refine ⟨hs, ⟨[], by simp, rfl, ?_, ?_⟩, rfl, ?_⟩
  · show 0 = w.file.contents.length + 0
    rw [hs]
    rfl
  · show w.file.contents ++ [] ++ w.batch = []
    rw [hs, hb]
    rfl
  · show n - 1 < n
    omega

/-- What a crash leaves of the log: the synced records, and the others with some of their words
    gone. -/
theorem Holds.crash {us : List LogEntry} {l : List UInt8} (h : w.Holds first ss (ss ++ us))
    (hc : w.file.CrashTo l) :
    ∃ res, l = recordsBytes (encodeFrom first ss) ++ res ∧
      TornTail (recordsBytes (encodeFrom (first + ss.length) us)) res := by
  obtain ⟨chunks, h8, hp, -, hcat⟩ := h.written
  have h8s : 8 ∣ w.file.synced.length := by
    rw [h.synced]
    exact eight_dvd_encodeFrom ..
  have hfile : w.file = ⟨w.file.synced, appendOps w.file.synced.length chunks⟩ := by rw [← hp]
  rw [hfile] at hc
  obtain ⟨res, hl, htorn⟩ := AppendFile.crashTo_appendOps h8s (fun c hc => (h8 c hc).2) hc
  refine ⟨res, by rw [hl, h.synced], ?_⟩
  -- what was not even issued counts as lost
  have htail : chunks.flatten ++ w.batch = recordsBytes (encodeFrom (first + ss.length) us) := by
    rw [encodeFrom_append, recordsBytes_append, ← h.synced, List.append_assoc] at hcat
    exact List.append_cancel_left hcat
  rw [← htail]
  exact htorn.append_right (dvd_length_flatten fun c hc => (h8 c hc).2) _

/-- What the scan finds in it. -/
theorem Holds.scan_crash {us : List LogEntry} {l : List UInt8} {totalBlocks : Nat}
    (h : w.Holds first ss (ss ++ us)) (hc : w.file.CrashTo l)
    (hes : BlocksBelow totalBlocks (ss ++ us)) (htotal : totalBlocks ≤ 2 ^ 32) (hfirst : first ≠ 0)
    (hlsn : w.nextLsn < 2 ^ 64) :
    ∃ n rs, scan totalBlocks l = encodeFrom first ss ++ rs ∧
      List.Forall₂ WalRecord.TornFrom ((encodeFrom (first + ss.length) us).take n) rs := by
  obtain ⟨res, rfl, htorn⟩ := h.crash hc
  have hlen := h.next
  rw [List.length_append] at hlen
  have hss : Chained totalBlocks none (encodeFrom first ss) :=
    chained_encodeFrom (fun e he => hes e (List.mem_append_left _ he)) htotal hfirst (by omega)
      (by simp)
  have hus : Chained totalBlocks none (encodeFrom (first + ss.length) us) :=
    chained_encodeFrom (fun e he => hes e (List.mem_append_right _ he)) htotal (by omega) (by omega)
      (by simp)
  obtain ⟨n, hn⟩ := scanFrom_torn hus htorn (lastLsn none (encodeFrom first ss))
  exact ⟨n, _, scanFrom_recordsBytes hss res, hn⟩

end Wal

end ConcurrentFs
