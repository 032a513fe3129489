/-
  ConcurrentFs.Lib.Durable

  Files whose writes become durable only at a sync, and what a crash leaves of
  them.

  `BlockFile` is a file of fixed-size blocks: the contents at the last completed
  sync and the block writes issued since.  After a crash every 512-byte sector
  holds what it held at the sync or what some later write put there.

  `AppendFile` is a byte file that only grows or is emptied: everything before
  the last completed sync survives, a later write survives in whole sectors, and
  the bytes that did not survive read as zeros or lie past the end of the file.
-/
import ConcurrentFs.Lib.Bytes
import Mathlib.Data.List.Basic

namespace ConcurrentFs.Lib

/-! ## Block writes -/

section Writes

variable {α : Type}

/-- Contents after a list of block writes, first to last. -/
def applyWrites (d : Nat → α) (ws : List (Nat × α)) : Nat → α :=
  ws.foldl (fun d w => Function.update d w.1 w.2) d

@[simp] theorem applyWrites_nil (d : Nat → α) : applyWrites d [] = d := rfl

@[simp] theorem applyWrites_cons (d : Nat → α) (w : Nat × α) (ws : List (Nat × α)) :
    applyWrites d (w :: ws) = applyWrites (Function.update d w.1 w.2) ws := rfl

theorem applyWrites_append (d : Nat → α) (ws vs : List (Nat × α)) :
    applyWrites d (ws ++ vs) = applyWrites (applyWrites d ws) vs := List.foldl_append

@[simp] theorem applyWrites_concat (d : Nat → α) (ws : List (Nat × α)) (b : Nat) (v : α) :
    applyWrites d (ws ++ [(b, v)]) = Function.update (applyWrites d ws) b v := by
  rw [applyWrites_append]; rfl

/-- Contents seen through a function are those after the writes seen through it. -/
theorem map_applyWrites {β : Type} (g : α → β) (d : Nat → α) (ws : List (Nat × α)) (b : Nat) :
    g (applyWrites d ws b) = applyWrites (fun b => g (d b)) (ws.map fun w => (w.1, g w.2)) b := by
  induction ws generalizing d with
  | nil => rfl
  | cons w ws ih =>
    have hd : (fun b => g (Function.update d w.1 w.2 b)) =
        Function.update (fun b => g (d b)) w.1 (g w.2) := by
      funext x
      exact Function.apply_update (fun _ => g) d w.1 w.2 x
    rw [applyWrites_cons, ih, hd]
    rfl

/-- What holds of every block and of every write holds of every block behind them. -/
theorem applyWrites_invariant {P : Nat → α → Prop} {d : Nat → α} {ws : List (Nat × α)}
    (hd : ∀ b, P b (d b)) (hw : ∀ w ∈ ws, P w.1 w.2) (b : Nat) : P b (applyWrites d ws b) := by
  induction ws generalizing d with
  | nil => exact hd b
  | cons w ws ih =>
    rw [applyWrites_cons]
    refine ih (fun c => ?_) fun v hv => hw v (List.mem_cons_of_mem _ hv)
    by_cases hc : c = w.1
    · rw [hc, Function.update_self]
      exact hw w (List.mem_cons_self ..)
    · rw [Function.update_of_ne hc]
      exact hd c

/-- A block that no write names keeps its contents. -/
theorem applyWrites_of_not_mem (d : Nat → α) (ws : List (Nat × α)) {b : Nat}
    (h : b ∉ ws.map Prod.fst) : applyWrites d ws b = d b := by
  induction ws generalizing d with
  | nil => rfl
  | cons w ws ih =>
    simp only [List.map_cons, List.mem_cons, not_or] at h
    rw [applyWrites_cons, ih _ h.2, Function.update_of_ne h.1]

/-- A block that some write names forgets what it held before. -/
theorem applyWrites_congr_of_mem (d d' : Nat → α) (ws : List (Nat × α)) {b : Nat}
    (h : b ∈ ws.map Prod.fst) : applyWrites d ws b = applyWrites d' ws b := by
  induction ws generalizing d d' with
  | nil => simp at h
  | cons w ws ih =>
    by_cases hb : b ∈ ws.map Prod.fst
    · exact ih _ _ hb
    · have hw : b = w.1 := by simpa [hb] using h
      rw [applyWrites_cons, applyWrites_cons, applyWrites_of_not_mem _ _ hb,
        applyWrites_of_not_mem _ _ hb, hw, Function.update_self, Function.update_self]

theorem applyWrites_congr (d d' : Nat → α) (ws : List (Nat × α)) {b : Nat} (h : d b = d' b) :
    applyWrites d ws b = applyWrites d' ws b := by
  by_cases hb : b ∈ ws.map Prod.fst
  · exact applyWrites_congr_of_mem d d' ws hb
  · rw [applyWrites_of_not_mem _ _ hb, applyWrites_of_not_mem _ _ hb, h]

/-- When every write puts the block at the value it should end with, so do all of them. -/
theorem applyWrites_of_forall (d : Nat → α) (ws : List (Nat × α)) {b : Nat} {v : α}
    (hb : b ∈ ws.map Prod.fst) (h : ∀ w ∈ ws, w.1 = b → w.2 = v) : applyWrites d ws b = v := by
  induction ws generalizing d with
  | nil => simp at hb
  | cons w ws ih =>
    by_cases hw : b ∈ ws.map Prod.fst
    · exact ih _ hw fun x hx => h x (List.mem_cons_of_mem _ hx)
    · have hwb : w.1 = b := by
        rw [List.map_cons, List.mem_cons] at hb
        exact (hb.resolve_right hw).symm
      rw [applyWrites_cons, applyWrites_of_not_mem _ _ hw, ← hwb, Function.update_self]
      exact h w (List.mem_cons_self ..) hwb

/-- Consecutive blocks written one after the other. -/
theorem applyWrites_region (d : Nat → α) (start n : Nat) (f : Nat → α) (b : Nat) :
    applyWrites d ((List.range n).map fun k => (start + k, f k)) b
      = if start ≤ b ∧ b < start + n then f (b - start) else d b := by
  induction n with
  | zero => rw [if_neg (by omega)]; rfl
  | succ n ih =>
    rw [List.range_succ, List.map_append, List.map_singleton, applyWrites_concat]
    by_cases hb : b = start + n
    · rw [hb, Function.update_self, if_pos (by omega), Nat.add_sub_cancel_left]
    · rw [Function.update_of_ne hb, ih]
      exact if_congr (by omega) rfl rfl

end Writes

/-! ## Block files -/

/-- A file of blocks of `n` bytes. -/
structure BlockFile (n : Nat) where
  /-- The contents at the last completed sync. -/
  synced : Nat → Bytes n
  /-- The block writes issued since, oldest first. -/
  pending : List (Nat × Bytes n)

namespace BlockFile

variable {n : Nat}

/-- What a read of the file sees. -/
def contents (f : BlockFile n) : Nat → Bytes n := applyWrites f.synced f.pending

/-- Issue one block write. -/
def write (f : BlockFile n) (b : Nat) (v : Bytes n) : BlockFile n :=
  { f with pending := f.pending ++ [(b, v)] }

/-- Issue block writes one after the other. -/
def writeAll (f : BlockFile n) (ws : List (Nat × Bytes n)) : BlockFile n :=
  { f with pending := f.pending ++ ws }

/-- A sync that completed. -/
def sync (f : BlockFile n) : BlockFile n := ⟨f.contents, []⟩

/-- A file with nothing left to sync. -/
def ofContents (d : Nat → Bytes n) : BlockFile n := ⟨d, []⟩

/-- What a crash may leave: every 512-byte sector of every block is as it was at the last
    completed sync, or as one of the later writes to that block made it. -/
def CrashTo (f : BlockFile n) (d : Nat → Bytes n) : Prop :=
  ∀ b k, ∃ v, (v = f.synced b ∨ (b, v) ∈ f.pending) ∧ ∀ i : Fin n, i.val / 512 = k → d b i = v i

@[simp] theorem contents_write (f : BlockFile n) (b : Nat) (v : Bytes n) :
    (f.write b v).contents = Function.update f.contents b v := by
  simp [contents, write]

@[simp] theorem contents_writeAll (f : BlockFile n) (ws : List (Nat × Bytes n)) :
    (f.writeAll ws).contents = applyWrites f.contents ws := applyWrites_append ..

@[simp] theorem contents_sync (f : BlockFile n) : f.sync.contents = f.contents := rfl

@[simp] theorem synced_sync (f : BlockFile n) : f.sync.synced = f.contents := rfl

@[simp] theorem pending_sync (f : BlockFile n) : f.sync.pending = [] := rfl

@[simp] theorem synced_write (f : BlockFile n) (b : Nat) (v : Bytes n) :
    (f.write b v).synced = f.synced := rfl

@[simp] theorem pending_write (f : BlockFile n) (b : Nat) (v : Bytes n) :
    (f.write b v).pending = f.pending ++ [(b, v)] := rfl

@[simp] theorem synced_writeAll (f : BlockFile n) (ws : List (Nat × Bytes n)) :
    (f.writeAll ws).synced = f.synced := rfl

@[simp] theorem pending_writeAll (f : BlockFile n) (ws : List (Nat × Bytes n)) :
    (f.writeAll ws).pending = f.pending ++ ws := rfl

@[simp] theorem contents_ofContents (d : Nat → Bytes n) : (ofContents d).contents = d := rfl

theorem contents_of_not_pending (f : BlockFile n) {b : Nat} (h : b ∉ f.pending.map Prod.fst) :
    f.contents b = f.synced b := applyWrites_of_not_mem _ _ h

/-- A crash cannot touch a block with no write outstanding. -/
theorem CrashTo.eq_synced {f : BlockFile n} {d : Nat → Bytes n} (hc : f.CrashTo d) {b : Nat}
    (h : b ∉ f.pending.map Prod.fst) : d b = f.synced b := by
  funext i
  obtain ⟨v, hv, hd⟩ := hc b (i.val / 512)
  rw [hd i rfl]
  rcases hv with rfl | hv
  · rfl
  · exact absurd (List.mem_map_of_mem hv) h

/-- The bytes of one sector are all from one write, or all from the last sync. -/
theorem CrashTo.sector {f : BlockFile n} {d : Nat → Bytes n} (hc : f.CrashTo d) (b k : Nat) :
    (∀ i : Fin n, i.val / 512 = k → d b i = f.synced b i) ∨
      ∃ v, (b, v) ∈ f.pending ∧ ∀ i : Fin n, i.val / 512 = k → d b i = v i := by
  obtain ⟨v, rfl | hv, hd⟩ := hc b k
  · exact Or.inl hd
  · exact Or.inr ⟨v, hv, hd⟩

theorem crashTo_synced (f : BlockFile n) : f.CrashTo f.synced :=
  fun b _ => ⟨f.synced b, Or.inl rfl, fun _ _ => rfl⟩

end BlockFile

/-! ## Append-only byte files -/

/-- What can be outstanding on an append-only file. -/
inductive FileOp where
  /-- `pwrite` of some bytes at an offset. -/
  | write (off : Nat) (bytes : List UInt8)
  /-- `ftruncate` to length 0. -/
  | truncate

/-- A byte file: the contents at the last completed sync and what was issued since. -/
structure AppendFile where
  synced : List UInt8
  pending : List FileOp

/-- `pwrite`: a hole before `off` reads as zeros. -/
def overwrite (f : List UInt8) (off : Nat) (bytes : List UInt8) : List UInt8 :=
  f.take off ++ List.replicate (off - f.length) 0 ++ bytes ++ f.drop (off + bytes.length)

/-- Contents after the operations have all taken effect. -/
def applyOps (f : List UInt8) (ops : List FileOp) : List UInt8 :=
  ops.foldl (fun f op => match op with
    | .write off bytes => overwrite f off bytes
    | .truncate => []) f

/-- `res` is what a crash may make of `base` when a write of `bytes` at `off` is outstanding:
    the sectors in `keep` survived, the others did not, and a byte that was never in the file
    reads as zero or lies past its end.  `phase` is where the sector boundaries fall: at
    `0` for a file that starts on one, at the start of the write if sectors are counted
    from there; record boundaries are multiples of 8, and so is it. -/
def TornWrite (base : List UInt8) (off : Nat) (bytes res : List UInt8) : Prop :=
  ∃ (phase : Nat) (keep : Nat → Prop), 8 ∣ phase ∧
    base.length ≤ res.length ∧ res.length ≤ max base.length (off + bytes.length) ∧
    (∀ p, off ≤ p → p < off + bytes.length → keep ((p + phase) / 512) →
      res[p]? = bytes[p - off]?) ∧
    (∀ p, ¬ (off ≤ p ∧ p < off + bytes.length ∧ keep ((p + phase) / 512)) →
      res.getD p 0 = base.getD p 0)

namespace AppendFile

/-- What a read of the file sees. -/
def contents (f : AppendFile) : List UInt8 := applyOps f.synced f.pending

/-- Issue an operation. -/
def issue (f : AppendFile) (op : FileOp) : AppendFile := { f with pending := f.pending ++ [op] }

/-- A sync that completed. -/
def sync (f : AppendFile) : AppendFile := ⟨f.contents, []⟩

/-- What a crash may leave of a file with these operations outstanding. -/
inductive Crash : List UInt8 → List FileOp → List UInt8 → Prop where
  | done (base : List UInt8) : Crash base [] base
  | write {base mid res : List UInt8} {off : Nat} {bytes : List UInt8} {ops : List FileOp} :
      TornWrite base off bytes mid → Crash mid ops res → Crash base (.write off bytes :: ops) res
  | truncateLost {base res : List UInt8} {ops : List FileOp} :
      Crash base ops res → Crash base (.truncate :: ops) res
  | truncateKept {base res : List UInt8} {ops : List FileOp} :
      Crash [] ops res → Crash base (.truncate :: ops) res

/-- What a crash may leave of the file. -/
def CrashTo (f : AppendFile) (res : List UInt8) : Prop := Crash f.synced f.pending res

@[simp] theorem contents_issue_write (f : AppendFile) (off : Nat) (bytes : List UInt8) :
    (f.issue (.write off bytes)).contents = overwrite f.contents off bytes := by
  simp [contents, issue, applyOps]

@[simp] theorem contents_issue_truncate (f : AppendFile) :
    (f.issue .truncate).contents = [] := by
  simp [contents, issue, applyOps]

@[simp] theorem contents_sync (f : AppendFile) : f.sync.contents = f.contents := rfl

@[simp] theorem synced_sync (f : AppendFile) : f.sync.synced = f.contents := rfl

@[simp] theorem pending_sync (f : AppendFile) : f.sync.pending = [] := rfl

/-- A file with nothing outstanding survives as it is. -/
theorem crashTo_nil {base res : List UInt8} (h : CrashTo ⟨base, []⟩ res) : res = base := by
  cases h
  rfl

/-- An outstanding truncation took place or did not. -/
theorem crashTo_truncate {base res : List UInt8} (h : CrashTo ⟨base, [.truncate]⟩ res) :
    res = base ∨ res = [] := by
  cases h with
  | truncateLost h => exact Or.inl (crashTo_nil h)
  | truncateKept h => exact Or.inr (crashTo_nil h)

end AppendFile

/-- A write at the end of the file appends. -/
@[simp] theorem overwrite_length_self (f bytes : List UInt8) :
    overwrite f f.length bytes = f ++ bytes := by
  simp [overwrite]

/-- `res` is what a crash may make of `full`, in words of 8 bytes: each is intact, or reads as
    zeros as far as the file still goes. -/
structure TornTail (full res : List UInt8) : Prop where
  length_le : res.length ≤ full.length
  word : ∀ w, (∀ i < 8, 8 * w + i < full.length → res[8 * w + i]? = full[8 * w + i]?) ∨
    (∀ i < 8, res.getD (8 * w + i) 0 = 0)

namespace TornTail

theorem refl (l : List UInt8) : TornTail l l := ⟨Nat.le_refl _, fun _ => Or.inl fun _ _ _ => rfl⟩

/-- The rest of a torn file after a whole number of words is torn too. -/
theorem drop {full res : List UInt8} (h : TornTail full res) {n : Nat} (hn : 8 ∣ n) :
    TornTail (full.drop n) (res.drop n) := by
  obtain ⟨m, rfl⟩ := hn
  refine ⟨?_, fun w => ?_⟩
  · have := h.length_le
    simp only [List.length_drop]
    omega
  · have e : ∀ i, 8 * m + (8 * w + i) = 8 * (m + w) + i := fun i => by omega
    rcases h.word (m + w) with hw | hw
    · left
      intro i hi hlt
      rw [List.length_drop] at hlt
      rw [List.getElem?_drop, List.getElem?_drop, e]
      exact hw i hi (by omega)
    · right
      intro i hi
      have := hw i hi
      rw [List.getD_eq_getElem?_getD] at this ⊢
      rw [List.getElem?_drop, e]
      exact this

end TornTail

/-- A write torn in sectors is torn in words: what lies before it is untouched, the rest is
    intact or zero word by word. -/
theorem TornTail.of_write {base bytes tail tail' res : List UInt8} {off : Nat}
    (hb : 8 ∣ base.length) (ht : 8 ∣ tail.length)
    (hoff : off = base.length + tail.length)
    (h : TornTail tail tail') (hw : TornWrite (base ++ tail') off bytes res) :
    ∃ res', res = base ++ res' ∧ TornTail (tail ++ bytes) res' := by
  obtain ⟨phase, keep, hphase, hlo, hhi, hin, hout⟩ := hw
  have hlen := h.length_le
  subst hoff
  rw [List.length_append] at hlo hhi
  refine ⟨res.drop base.length, ?_, ?_, ?_⟩
  · -- the bytes before the write are those of `base`
    apply List.ext_getElem?
    intro p
    by_cases hp : p < base.length
    · have := hout p (by omega)
      rw [List.getD_eq_getElem?_getD, List.getD_eq_getElem?_getD,
        List.getElem?_append_left hp, List.getElem?_eq_getElem (by omega),
        List.getElem?_eq_getElem hp] at this
      rw [List.getElem?_append_left hp, List.getElem?_eq_getElem (by omega),
        List.getElem?_eq_getElem hp]
      simpa using this
    · rw [List.getElem?_append_right (by omega), List.getElem?_drop]
      congr 1
      omega
  · rw [List.length_drop, List.length_append]
    omega
  · intro w
    have hres : ∀ i, (res.drop base.length)[8 * w + i]? = res[base.length + (8 * w + i)]? :=
      fun i => List.getElem?_drop ..
    by_cases hin_tail : 8 * w < tail.length
    · -- a word of the part torn before
      have hlt : ∀ i < 8, 8 * w + i < tail.length := by omega
      have hget : ∀ i < 8, res.getD (base.length + (8 * w + i)) 0 = tail'.getD (8 * w + i) 0 := by
        intro i hi
        have := hlt i hi
        rw [hout _ (by omega), List.getD_eq_getElem?_getD, List.getD_eq_getElem?_getD,
          List.getElem?_append_right (by omega)]
        congr 2
        omega
      rcases h.word w with hk | hz
      · left
        intro i hi _
        have h1 := hk i hi (hlt i hi)
        have h2 := hget i hi
        have hlt' : 8 * w + i < tail'.length := by
          have : tail[8 * w + i]? ≠ none := by simp [hlt i hi]
          rw [← h1] at this
          simpa using this
        rw [hres, List.getElem?_append_left (hlt i hi), ← h1]
        rw [List.getD_eq_getElem?_getD, List.getD_eq_getElem?_getD,
          List.getElem?_eq_getElem (by omega), List.getElem?_eq_getElem hlt'] at h2
        rw [List.getElem?_eq_getElem (by omega), List.getElem?_eq_getElem hlt']
        simpa using h2
      · right
        intro i hi
        have h2 := hget i hi
        rw [List.getD_eq_getElem?_getD, hres, ← List.getD_eq_getElem?_getD, h2]
        exact hz i hi
    · -- a word of the write: all of it lies in one sector
      have hsec : ∀ i < 8, (base.length + (8 * w + i) + phase) / 512
          = (base.length + 8 * w + phase) / 512 := by
        intro i hi
        obtain ⟨x, hx⟩ := hb
        obtain ⟨z, rfl⟩ := hphase
        omega
      by_cases hkeep : keep ((base.length + 8 * w + phase) / 512)
      · left
        intro i hi hlt
        rw [List.length_append] at hlt
        rw [hres, hin _ (by omega) (by omega) (by rw [hsec i hi]; exact hkeep),
          List.getElem?_append_right (by omega)]
        congr 1
        omega
      · right
        intro i hi
        rw [List.getD_eq_getElem?_getD, hres, ← List.getD_eq_getElem?_getD]
        rw [hout _ (by rw [hsec i hi]; tauto), List.getD_eq_getElem?_getD,
          List.getElem?_eq_none (by rw [List.length_append]; omega)]
        rfl

/-- Bytes that were never issued were lost like the rest. -/
theorem TornTail.append_right {full res : List UInt8} (h : TornTail full res)
    (hf : 8 ∣ full.length) (more : List UInt8) : TornTail (full ++ more) res := by
  have hlen := h.length_le
  refine ⟨by rw [List.length_append]; omega, fun w => ?_⟩
  by_cases hw : 8 * w < full.length
  · have hlt : ∀ i < 8, 8 * w + i < full.length := by omega
    refine (h.word w).imp (fun hk i hi _ => ?_) id
    rw [List.getElem?_append_left (hlt i hi)]
    exact hk i hi (hlt i hi)
  · right
    intro i _
    rw [List.getD_eq_getElem?_getD, List.getElem?_eq_none (by omega)]
    rfl

/-! ## A file that is only appended to -/

/-- Writes one behind the other, the first at `off`. -/
def appendOps (off : Nat) : List (List UInt8) → List FileOp
  | [] => []
  | c :: cs => .write off c :: appendOps (off + c.length) cs

theorem appendOps_concat (off : Nat) (cs : List (List UInt8)) (c : List UInt8) :
    appendOps off (cs ++ [c]) = appendOps off cs ++ [.write (off + cs.flatten.length) c] := by
  induction cs generalizing off with
  | nil => rfl
  | cons a cs ih =>
    rw [List.cons_append, appendOps, appendOps, ih, List.cons_append, List.flatten_cons,
      List.length_append, Nat.add_assoc]

theorem dvd_length_flatten {k : Nat} {cs : List (List UInt8)} (h : ∀ c ∈ cs, k ∣ c.length) :
    k ∣ cs.flatten.length := by
  induction cs with
  | nil => simp
  | cons c cs ih =>
    rw [List.flatten_cons, List.length_append]
    exact Nat.dvd_add (h c (List.mem_cons_self ..)) (ih fun x hx => h x (List.mem_cons_of_mem _ hx))

theorem applyOps_appendOps (base : List UInt8) (cs : List (List UInt8)) :
    applyOps base (appendOps base.length cs) = base ++ cs.flatten := by
  induction cs generalizing base with
  | nil => simp [applyOps, appendOps]
  | cons a cs ih =>
    have := ih (base ++ a)
    rw [List.length_append, List.append_assoc] at this
    rw [appendOps, List.flatten_cons, ← this]
    simp [applyOps]

/-- What a crash leaves of appends to a file: the file, and the appended bytes with some of
    their words gone. -/
theorem AppendFile.Crash.of_appendOps {base tail tail' res : List UInt8} {cs : List (List UInt8)}
    (hb : 8 ∣ base.length) (ht : 8 ∣ tail.length) (hcs : ∀ c ∈ cs, 8 ∣ c.length)
    (h : TornTail tail tail')
    (hc : Crash (base ++ tail') (appendOps (base.length + tail.length) cs) res) :
    ∃ res', res = base ++ res' ∧ TornTail (tail ++ cs.flatten) res' := by
  induction cs generalizing tail tail' with
  | nil =>
    cases hc
    exact ⟨tail', rfl, by rw [List.flatten_nil, List.append_nil]; exact h⟩
  | cons c cs ih =>
    rw [appendOps] at hc
    cases hc with
    | write hw hc =>
      obtain ⟨mid, rfl, hmid⟩ := TornTail.of_write hb ht rfl h hw
      rw [Nat.add_assoc, ← List.length_append] at hc
      have hc8 : 8 ∣ (tail ++ c).length := by
        rw [List.length_append]
        exact Nat.dvd_add ht (hcs c (List.mem_cons_self ..))
      obtain ⟨res', hres, htorn⟩ := ih hc8 (fun x hx => hcs x (List.mem_cons_of_mem _ hx)) hmid hc
      refine ⟨res', hres, ?_⟩
      rw [List.flatten_cons, ← List.append_assoc]
      exact htorn

theorem AppendFile.crashTo_appendOps {base res : List UInt8} {cs : List (List UInt8)}
    (hb : 8 ∣ base.length) (hcs : ∀ c ∈ cs, 8 ∣ c.length)
    (hc : CrashTo ⟨base, appendOps base.length cs⟩ res) :
    ∃ res', res = base ++ res' ∧ TornTail cs.flatten res' := by
  have hc' : Crash (base ++ []) (appendOps (base.length + 0) cs) res := by
    rw [List.append_nil]
    exact hc
  exact Crash.of_appendOps hb (show 8 ∣ ([] : List UInt8).length from Nat.dvd_zero 8) hcs
    (TornTail.refl [])
    hc'

end ConcurrentFs.Lib
