/-
  ConcurrentFs.GroupCommitLimit

  How large the running transaction gets.  `begin_op` promises MAX_OP_BLOCKS to every
  operation it lets in, and lets in as many as the limit has room for.  It reads the
  gate and `txn_count_` before it gets in, though, and does not look again: an
  operation that was let in, wrote and ended in between leaves the gate as it was and
  the count changed.  When every operation that gets in would still be let in at that
  moment, the limit holds; without that it does not.
-/
import ConcurrentFs.GroupCommitHistory

namespace ConcurrentFs.GroupCommit

open BufferCache (Op Call FrameId Event Image Shape)
open BufferCache.State
open Lib

/-- `max_txn_blocks_` over a cache that was asked for `capacity` frames. -/
def maxTxn (capacity : Nat) : Nat :=
  (if capacity < BufferCache.minFrames then BufferCache.minFrames else capacity) / 2 - maxOpBlocks

theorem maxOpBlocks_le_maxTxn (capacity : Nat) : maxOpBlocks ≤ maxTxn capacity := by
  rw [maxTxn]
  split
  · decide
  · rename_i h
    have h' : 256 ≤ capacity := Nat.le_of_not_lt h
    show 64 ≤ capacity / 2 - 64
    omega

/-! ## What the operations in the gate have gone to write -/

namespace Thread

/-- The blocks its operation has gone to write. -/
def touched (t : Thread) : List Nat := (t.operation.map Operation.blocks).getD []

def isOp (t : Thread) : Bool := t.operation.isSome

/-- The block it is about to write or to add is one of them. -/
def Touched : Thread → Prop
  | modify o b _ _ | addLock o b => b ∈ o.blocks
  | _ => True

theorem touched_of_not_isOp {t : Thread} (h : t.isOp = false) : t.touched = [] := by
  rw [isOp, Option.isSome_eq_false_iff, Option.isNone_iff_eq_none] at h
  rw [touched, h]
  rfl

end Thread

def touchedBy (threads : Multiset Thread) : Multiset Nat :=
  threads.bind fun t => (t.touched : Multiset Nat)

theorem touchedBy_cons (t : Thread) (rest : Multiset Thread) :
    touchedBy (t ::ₘ rest) = (t.touched : Multiset Nat) + touchedBy rest := Multiset.cons_bind ..

theorem touchedBy_of_nil {t : Thread} (h : t.touched = []) (rest : Multiset Thread) :
    touchedBy (t ::ₘ rest) = touchedBy rest := by
  rw [touchedBy_cons, h, Multiset.coe_nil, zero_add]

theorem mem_touchedBy_goes {t : Option Thread} {rest : Multiset Thread} {b : Nat} :
    b ∈ touchedBy (goes t rest) ↔ (∃ u, t = some u ∧ b ∈ u.touched) ∨ b ∈ touchedBy rest := by
  cases t with
  | none => simp [goes]
  | some t =>
    rw [goes, touchedBy_cons, Multiset.mem_add, Multiset.mem_coe]
    simp

/-- No operation in the gate has gone to write more than MAX_OP_BLOCKS blocks. -/
def State.Small (s : State) : Prop := ∀ t ∈ s.threads, t.touched.length ≤ maxOpBlocks

theorem card_touchedBy_le {threads : Multiset Thread}
    (h : ∀ t ∈ threads, t.touched.length ≤ maxOpBlocks) :
    (touchedBy threads).card ≤ maxOpBlocks * threads.countP (Thread.isOp · = true) := by
  induction threads using Multiset.induction with
  | empty => exact Nat.zero_le _
  | cons t rest ih =>
    have hr := ih fun u hu => h u (Multiset.mem_cons_of_mem hu)
    have ht := h t (Multiset.mem_cons_self ..)
    rw [touchedBy_cons, Multiset.card_add, Multiset.coe_card, Multiset.countP_cons]
    cases ho : t.isOp with
    | true =>
      rw [if_pos rfl, Nat.mul_add]
      omega
    | false =>
      rw [Thread.touched_of_not_isOp ho, if_neg Bool.false_ne_true]
      simpa using hr

/-- A list without repetition has no more elements in `m` than `m` has. -/
theorem countP_mem_le {l : List Nat} (hl : l.Nodup) (m : Multiset Nat) :
    l.countP (· ∈ m) ≤ m.card := by
  rw [List.countP_eq_length_filter, ← Multiset.coe_card]
  have hnd : Multiset.Nodup (l.filter (· ∈ m) : Multiset Nat) :=
    Multiset.coe_nodup.mpr (hl.filter _)
  refine Multiset.card_le_card ((Multiset.le_iff_subset hnd).mpr fun x hx => ?_)
  simpa using (List.mem_filter.mp (Multiset.mem_coe.mp hx)).2

theorem length_eq_countP_mem (l : List Nat) (m : Multiset Nat) :
    l.length = l.countP (· ∈ m) + l.countP (· ∉ m) := by
  induction l with
  | nil => rfl
  | cons b l ih =>
    rw [List.length_cons, List.countP_cons, List.countP_cons, ih]
    by_cases hb : b ∈ m
    · simp only [hb, decide_true, if_true, not_true_eq_false, decide_false,
        Bool.false_eq_true, if_false]
      omega
    · simp only [hb, decide_true, if_true, not_false_eq_true, decide_false,
        Bool.false_eq_true, if_false]
      omega

/-! ## Room for those in the gate -/

/-- `txn_count_` is behind `txn_set_` by a block that an operation is just adding, at most. -/
def Counted (txnBlocks : List Nat) (txnCount : Nat) (threads : Multiset Thread) : Prop :=
  txnBlocks.length ≤ txnCount ∨
    ∃ o l b, .addStore o ∈ threads ∧ txnBlocks = l ++ [b] ∧ b ∈ o.blocks ∧ l.length ≤ txnCount

/-- Beside the blocks of the operations in the gate there is room for MAX_OP_BLOCKS of each. -/
structure Room (max : Nat) (txnBlocks : List Nat) (txnCount : Nat) (threads : Multiset Thread) :
    Prop where
  counted : Counted txnBlocks txnCount threads
  touched : ∀ t ∈ threads, t.Touched
  room : txnBlocks.countP (· ∉ touchedBy threads) +
    maxOpBlocks * threads.countP (Thread.isOp · = true) ≤ max

namespace Room

variable {max : Nat} {txnBlocks : List Nat} {txnCount : Nat} {threads rest : Multiset Thread}
  {t : Thread}

theorem isOp_rest (t : Thread) (rest : Multiset Thread) :
    (t ::ₘ rest).countP (Thread.isOp · = true) =
    rest.countP (Thread.isOp · = true) + t.isOp.toNat := countP_goes Thread.isOp (some t) rest

/-- What nobody in the gate has touched is in `txn_count_`. -/
theorem untouched_le (h : Room max txnBlocks txnCount threads) :
    txnBlocks.countP (· ∉ touchedBy threads) ≤ txnCount := by
  rcases h.counted with hc | ⟨o, l, b, ho, rfl, hb, hl⟩
  · exact Nat.le_trans List.countP_le_length hc
  · have hm : b ∈ touchedBy threads := Multiset.mem_bind.mpr ⟨_, ho, Multiset.mem_coe.mpr hb⟩
    rw [List.countP_append, List.countP_singleton, if_neg (by simpa using hm)]
    exact Nat.le_trans List.countP_le_length hl

/-- The transaction is within its limit. -/
theorem length_le (h : Room max txnBlocks txnCount threads) (hn : txnBlocks.Nodup)
    (hs : ∀ t ∈ threads, t.touched.length ≤ maxOpBlocks) : txnBlocks.length ≤ max := by
  have hsplit := length_eq_countP_mem txnBlocks (touchedBy threads)
  have hin := countP_mem_le hn (touchedBy threads)
  have hcard := card_touchedBy_le hs
  have hroom := h.room
  omega

/-- Fewer are untouched when more are touched. -/
theorem untouched_mono {l : List Nat} {m m' : Multiset Nat} (h : ∀ b ∈ m, b ∈ m') :
    l.countP (· ∉ m') ≤ l.countP (· ∉ m) := by
  refine List.countP_mono_left fun b _ hb => ?_
  rw [decide_eq_true_eq] at hb ⊢
  exact fun hm => hb (h b hm)

theorem counted_goes (h : Counted txnBlocks txnCount (t ::ₘ rest)) (hst : ∀ o, t ≠ .addStore o)
    (t' : Option Thread) : Counted txnBlocks txnCount (goes t' rest) := by
  refine h.imp_right ?_
  rintro ⟨o, l, b, ho, hl⟩
  refine ⟨o, l, b, mem_goes.mpr (Or.inr ?_), hl⟩
  exact (Multiset.mem_cons.mp ho).resolve_left fun he => hst o he.symm

/-- A thread goes on that stays in its operation, or in none. -/
theorem move (h : Room max txnBlocks txnCount (t ::ₘ rest)) (t' : Option Thread)
    (hsub : ∀ b ∈ t.touched, ∃ u, t' = some u ∧ b ∈ u.touched) (hop : t'.any Thread.isOp = t.isOp)
    (hst : ∀ o, t ≠ .addStore o) (htu : ∀ u, t' = some u → u.Touched) :
    Room max txnBlocks txnCount (goes t' rest) where
  counted := counted_goes h.counted hst t'
  touched := forall_goes h.touched htu
  room := by
    have hroom := h.room
    have hmono : txnBlocks.countP (· ∉ touchedBy (goes t' rest)) ≤
        txnBlocks.countP (· ∉ touchedBy (t ::ₘ rest)) := by
      refine untouched_mono fun b hb => mem_touchedBy_goes.mpr ?_
      rw [touchedBy_cons, Multiset.mem_add, Multiset.mem_coe] at hb
      exact hb.imp_left (hsub b)
    rw [isOp_rest] at hroom
    rw [countP_goes, hop]
    omega

/-- A thread goes on outside. -/
theorem idle (h : Room max txnBlocks txnCount (t ::ₘ rest)) (t' : Option Thread)
    (ht : t.isOp = false)
    (ht' : t'.any Thread.isOp = false) (htu : ∀ u, t' = some u → u.Touched) :
    Room max txnBlocks txnCount (goes t' rest) := by
  refine h.move t' ?_ (ht'.trans ht.symm) ?_ htu
  · rw [Thread.touched_of_not_isOp ht]
    exact nofun
  · rintro o rfl
    cases ht

/-- A call begins. -/
theorem start (h : Room max txnBlocks txnCount threads) (ht : t.isOp = false) (htu : t.Touched) :
    Room max txnBlocks txnCount (t ::ₘ threads) where
  counted := by
    refine h.counted.imp_right ?_
    rintro ⟨o, l, b, ho, hl⟩
    exact ⟨o, l, b, Multiset.mem_cons_of_mem ho, hl⟩
  touched := by
    intro u hu
    rcases Multiset.mem_cons.mp hu with rfl | hu
    · exact htu
    · exact h.touched u hu
  room := by
    rw [touchedBy_of_nil (Thread.touched_of_not_isOp ht), isOp_rest, ht]
    exact h.room

/-- An operation gets in while it fits. -/
theorem enter {running txns : Nat} (h : Room max txnBlocks txnCount (t ::ₘ rest))
    (ht : t.isOp = false)
    (hrun : rest.countP (Thread.isOp · = true) ≤ running) (hmax : maxOpBlocks ≤ max)
    (hfit : fits max running txnCount = true) :
    Room max txnBlocks txnCount (.op ⟨txns, [], []⟩ ::ₘ rest) where
  counted := counted_goes h.counted (by rintro o rfl; cases ht) (some _)
  touched := by
    intro u hu
    rcases Multiset.mem_cons.mp hu with rfl | hu
    · trivial
    · exact h.touched u (Multiset.mem_cons_of_mem hu)
  room := by
    have hun := h.untouched_le
    rw [touchedBy_of_nil (Thread.touched_of_not_isOp ht)] at hun
    rw [touchedBy_of_nil rfl, isOp_rest]
    show _ + maxOpBlocks * (_ + 1) ≤ max
    rw [fits, decide_eq_true_eq] at hfit
    -- either nothing is there yet, or the test itself left room for one more
    rcases hfit with ⟨h0, h1⟩ | hle
    · have hz : rest.countP (Thread.isOp · = true) = 0 := Nat.le_zero.mp (h0 ▸ hrun)
      rw [hz]
      omega
    · have := Nat.mul_le_mul_left maxOpBlocks hrun
      rw [Nat.add_mul, Nat.mul_comm running] at hle
      rw [Nat.mul_add]
      omega

/-- An operation counts itself in `ended_`. -/
theorem leave {o : Operation} (h : Room max txnBlocks txnCount (.op o ::ₘ rest))
    (hn : txnBlocks.Nodup)
    (hs : o.blocks.length ≤ maxOpBlocks) : Room max txnBlocks txnCount (.endLeave ::ₘ rest) where
  counted := counted_goes h.counted nofun (some .endLeave)
  touched := by
    intro u hu
    rcases Multiset.mem_cons.mp hu with rfl | hu
    · trivial
    · exact h.touched u (Multiset.mem_cons_of_mem hu)
  room := by
    have hroom := h.room
    have hin := countP_mem_le hn (o.blocks : Multiset Nat)
    rw [touchedBy_cons, isOp_rest] at hroom
    rw [touchedBy_of_nil rfl, isOp_rest]
    -- what it alone had touched was promised to it
    have hle : txnBlocks.countP (· ∉ touchedBy rest) ≤
        txnBlocks.countP (· ∉ ((Thread.op o).touched : Multiset Nat) + touchedBy rest) +
          txnBlocks.countP (· ∈ (o.blocks : Multiset Nat)) := by
      clear hroom hin hn h
      induction txnBlocks with
      | nil => exact Nat.le_refl _
      | cons b l ih =>
        rw [List.countP_cons, List.countP_cons, List.countP_cons]
        have hb : b ∈ ((Thread.op o).touched : Multiset Nat) + touchedBy rest ↔
            b ∈ (o.blocks : Multiset Nat) ∨ b ∈ touchedBy rest := Multiset.mem_add
        simp only [hb, decide_eq_true_eq, not_or]
        split <;> split <;> split <;> first | omega | tauto
    rw [Multiset.coe_card] at hin
    have h1 : (Thread.op o).isOp.toNat = 1 := rfl
    have h0 : (Thread.endLeave).isOp.toNat = 0 := rfl
    rw [h1, Nat.mul_add] at hroom
    rw [h0, Nat.add_zero]
    omega

/-- The list is taken. -/
theorem taken (h : Room max txnBlocks txnCount (t ::ₘ rest)) (ht : t.isOp = false) (t' : Thread)
    (ht' : t'.isOp = false) (htu : t'.Touched) (txnCount' : Nat) :
    Room max [] txnCount' (t' ::ₘ rest) where
  counted := Or.inl (Nat.zero_le _)
  touched := by
    intro u hu
    rcases Multiset.mem_cons.mp hu with rfl | hu
    · exact htu
    · exact h.touched u (Multiset.mem_cons_of_mem hu)
  room := by
    have hroom := h.room
    rw [isOp_rest, ht] at hroom
    rw [isOp_rest, ht']
    exact Nat.le_trans (Nat.add_le_add_right (Nat.zero_le _) _) hroom

end Room

/-! ## Steps -/

def State.Room (max : Nat) (s : State) : Prop :=
  GroupCommit.Room max s.txnBlocks s.txnCount s.threads

theorem State.Room.of_eq {max : Nat} {s : State} (h : s.Room max) {threads : Multiset Thread}
    (ht : s.threads = threads) : GroupCommit.Room max s.txnBlocks s.txnCount threads := ht ▸ h

/-- Those in an operation are counted in the gate. -/
theorem countP_isOp_le (threads : Multiset Thread) :
    threads.countP (Thread.isOp · = true) ≤ threads.countP (Thread.inGate · = true) := by
  rw [Multiset.countP_eq_card_filter, Multiset.countP_eq_card_filter]
  refine Multiset.card_le_card (Multiset.monotone_filter_right threads fun t ht => ?_)
  cases t <;> first | rfl | cases ht

/-- Whoever gets into the gate fits at that moment. -/
def Admitted (max : Nat) (s s' : State) : Prop :=
  s.running < s'.running → fits max s.running s.txnCount = true

theorem State.Room.step {capacity max : Nat} {init : Nat → Block} {s s' : State} (h : s.Room max)
    (hi : Inv capacity init s) (hmax : maxOpBlocks ≤ max) (hsm : s.Small)
    (hs : Step capacity max s s')
    (hfit : Admitted max s s') : s'.Room max := by
  have hl := hi.locks
  cases hs with
  | background hb => exact h
  | callBeginOp => exact GroupCommit.Room.start (t := .beginLoad) h rfl trivial
  | callCommit => exact GroupCommit.Room.start (t := .commitLock s.ended) h rfl trivial
  | callCheckpoint => exact GroupCommit.Room.start (t := .checkpointLock s.ended) h rfl trivial
  | callCommitIfOlder => exact GroupCommit.Room.start (t := .olderLock) h rfl trivial
  | beginLoad rest ht =>
    exact (h.of_eq ht).idle (some (.beginTry ..)) rfl rfl
      (by rintro _ ⟨⟩; trivial)
  | beginTry closed g rest ht =>
    refine (h.of_eq ht).idle (some _) rfl ?_ ?_
    · split <;> rfl
    · split <;> (rintro _ ⟨⟩; trivial)
  | beginCas g rest ht hc hg =>
    have hrun := (hl.of_eq ht).gate_rest
    refine (h.of_eq ht).enter rfl (Nat.le_trans (countP_isOp_le rest) ?_) hmax (hfit ?_)
    · rw [← hrun]
      exact Nat.le_add_right ..
    · show s.running < g + 1
      omega
  | beginCasFails g rest ht =>
    exact (h.of_eq ht).idle (some (.beginTry ..)) rfl rfl (by rintro _ ⟨⟩; trivial)
  | beginLock rest ht hh hc =>
    exact (h.of_eq ht).idle (some .beginGate) rfl rfl
      (by rintro _ ⟨⟩; trivial)
  | beginGate rest ht =>
    refine (h.of_eq ht).idle (some _) rfl ?_ ?_
    · split <;> rfl
    · split <;> (rintro _ ⟨⟩; trivial)
  | beginRoom g rest ht =>
    refine (h.of_eq ht).idle (some _) rfl ?_ ?_
    · split <;> rfl
    · split <;> (rintro _ ⟨⟩; trivial)
  | beginShut rest ht =>
    exact (h.of_eq ht).idle (some (.close .beginOp)) rfl rfl
      (by rintro _ ⟨⟩; trivial)
  | beginAdd rest ht =>
    have hrun := (hl.of_eq ht).gate_rest
    refine (h.of_eq ht).enter rfl (Nat.le_trans (countP_isOp_le rest) ?_) hmax (hfit ?_)
    · rw [← hrun]
      exact Nat.le_add_right ..
    · exact Nat.lt_succ_self _
  | modifyHit o fresh fn b f rest ht hm =>
    refine (h.of_eq ht).move (some (.modify (o.touch b) ..)) (fun x hx => ⟨_, rfl, ?_⟩) rfl nofun ?_
    · exact o.touch_subset b x hx
    · rintro _ ⟨⟩
      exact o.mem_touch b
  | modifyMiss o fresh fn b rest ht hm htake hmem =>
    refine (h.of_eq ht).move (some (.modify (o.touch b) ..)) (fun x hx => ⟨_, rfl, ?_⟩) rfl nofun ?_
    · exact o.touch_subset b x hx
    · rintro _ ⟨⟩
      exact o.mem_touch b
  | modifyLoad o b joined op f calls rest ht hm =>
    have hb := h.touched (.modify o b joined (.load op b f))
      (by rw [ht]; exact Multiset.mem_cons_self ..)
    exact (h.of_eq ht).move (some (.modify o ..)) (fun x hx => ⟨_, rfl, hx⟩) rfl nofun
      (by rintro _ ⟨⟩; exact hb)
  | modifyBytes o b joined fresh fn f calls rest ht hm hlk hlf =>
    have hb := h.touched (.modify o b joined _) (by rw [ht]; exact Multiset.mem_cons_self ..)
    exact (h.of_eq ht).move (some (.modify ..)) (fun x hx => ⟨_, rfl, hx⟩) rfl nofun
      (by rintro _ ⟨⟩; exact hb)
  | modifyLoaded o b joined fresh fn f calls rest ht hm =>
    have hb := h.touched (.modify o b joined _) (by rw [ht]; exact Multiset.mem_cons_self ..)
    exact (h.of_eq ht).move (some (.modify ..)) (fun x hx => ⟨_, rfl, hx⟩) rfl nofun
      (by rintro _ ⟨⟩; exact hb)
  | modifyFinish o b joined f calls rest ht hm =>
    have hb := h.touched (.modify o b joined _) (by rw [ht]; exact Multiset.mem_cons_self ..)
    cases joined with
    | true =>
      exact (h.of_eq ht).move (some (.addLock o b)) (fun x hx => ⟨_, rfl, hx⟩) rfl nofun
        (by rintro _ ⟨⟩; exact hb)
    | false =>
      exact (h.of_eq ht).move (some (.op o)) (fun x hx => ⟨_, rfl, hx⟩) rfl nofun
        (by rintro _ ⟨⟩; trivial)
  | addOld o b rest ht hh hb =>
    exact (h.of_eq ht).move (some (.op o)) (fun x hx => ⟨_, rfl, hx⟩) rfl nofun
      (by rintro _ ⟨⟩; trivial)
  | addNew o b rest ht hh hb =>
    have hbo : b ∈ o.blocks := h.touched (.addLock o b)
      (by rw [ht]; exact Multiset.mem_cons_self ..)
    have hm := (h.of_eq ht).move (some (.addStore o)) (fun x hx => ⟨_, rfl, hx⟩) rfl nofun
      (by rintro _ ⟨⟩; trivial)
    refine ⟨?_, hm.touched, ?_⟩
    · -- whoever is just adding a block has m_
      refine Or.inr ⟨o, s.txnBlocks, b, Multiset.mem_cons_self .., rfl, hbo,
        h.counted.resolve_right ?_⟩
      rintro ⟨o', -, -, ho, -⟩
      have hl' : GroupCommit.Locks s.closed s.running s.held s.committing s.txnBlocks
        s.threads := hl
      rw [hh] at hl'
      have := hl'.not_holds_of_free ho
      cases this
    · have hb' : b ∈ touchedBy (.addStore o ::ₘ rest) :=
        mem_touchedBy_goes.mpr (Or.inl ⟨.addStore o, rfl, hbo⟩)
      show (s.txnBlocks ++ [b]).countP (· ∉ touchedBy (.addStore o ::ₘ rest)) + _ ≤ max
      rw [List.countP_append, List.countP_singleton, if_neg (by simpa using hb')]
      exact hm.room
  | addStore o rest ht =>
    refine ⟨Or.inl (Nat.le_refl _), fun u hu => ?_, ?_⟩
    · rcases Multiset.mem_cons.mp hu with rfl | hu
      · trivial
      · exact (h.of_eq ht).touched u (Multiset.mem_cons_of_mem hu)
    · have hroom := (h.of_eq ht).room
      rw [touchedBy_cons, GroupCommit.Room.isOp_rest] at hroom
      show s.txnBlocks.countP (· ∉ touchedBy (.op o ::ₘ rest)) +
        maxOpBlocks * (Thread.op o ::ₘ rest).countP (Thread.isOp · = true) ≤ max
      rw [touchedBy_cons, GroupCommit.Room.isOp_rest]
      exact hroom
  | endCount o rest ht =>
    have hs : o.blocks.length ≤ maxOpBlocks := hsm (.op o)
      (by rw [ht]; exact Multiset.mem_cons_self ..)
    exact (h.of_eq ht).leave hi.flags.nodup hs
  | endLeave rest ht =>
    refine (h.of_eq ht).idle _ rfl ?_ ?_
    · split
      · rfl
      · split <;> rfl
    · split
      · exact nofun
      · split <;> (rintro _ ⟨⟩; trivial)
  | endFull rest ht =>
    refine (h.of_eq ht).idle _ rfl ?_ ?_
    · split <;> rfl
    · split
      · exact nofun
      · rintro _ ⟨⟩
        trivial
  | endLock rest ht hh =>
    refine (h.of_eq ht).idle _ rfl ?_ ?_
    · split <;> rfl
    · split
      · exact nofun
      · rintro _ ⟨⟩
        trivial
  | endGate rest go ht hgo =>
    refine (h.of_eq ht).idle _ rfl ?_ ?_
    · split <;> rfl
    · split
      · rintro _ ⟨⟩
        trivial
      · exact nofun
  | commitLock before rest ht hh =>
    exact (h.of_eq ht).idle (some (.commitLoop ..)) rfl rfl (by rintro _ ⟨⟩; trivial)
  | commitReturns before target rest ht hle =>
    exact (h.of_eq ht).idle (some (.commitDone before)) rfl rfl (by rintro _ ⟨⟩; trivial)
  | commitLoop before target rest ht hlt =>
    refine (h.of_eq ht).idle (some _) rfl ?_ ?_
    · split <;> rfl
    · split <;> (rintro _ ⟨⟩; trivial)
  | commitWait before target rest ht hh =>
    exact (h.of_eq ht).idle (some (.commitLoop ..)) rfl rfl (by rintro _ ⟨⟩; trivial)
  | checkpointLock before rest ht hh =>
    exact (h.of_eq ht).idle (some (.checkpointLoop ..)) rfl rfl (by rintro _ ⟨⟩; trivial)
  | checkpointReturns before target rest ht hle =>
    exact (h.of_eq ht).idle (some (.checkpointDone before)) rfl rfl (by rintro _ ⟨⟩; trivial)
  | checkpointLoop before target rest ht hlt =>
    refine (h.of_eq ht).idle (some _) rfl ?_ ?_
    · split <;> rfl
    · split <;> (rintro _ ⟨⟩; trivial)
  | checkpointWait before target rest ht hh =>
    exact (h.of_eq ht).idle (some (.checkpointLoop ..)) rfl rfl (by rintro _ ⟨⟩; trivial)
  | olderReturns rest ht hh => exact (h.of_eq ht).idle none rfl rfl nofun
  | olderLock rest ht hh hc hb =>
    exact (h.of_eq ht).idle (some (.close .older)) rfl rfl (by rintro _ ⟨⟩; trivial)
  | closeBusy caller rest ht hr =>
    refine (h.of_eq ht).idle caller.wait rfl ?_ ?_
    · cases caller <;> rfl
    · cases caller <;> (rintro _ ⟨⟩; try trivial)
  | close caller rest ht hr =>
    exact (h.of_eq ht).idle (some (.take _)) rfl rfl
      (by rintro _ ⟨⟩; trivial)
  | take caller rest ht => exact (h.of_eq ht).taken rfl (.count _) rfl trivial _
  | count j rest ht =>
    have hb : s.txnBlocks = [] := ((hl.of_eq ht).self.quiet rfl).2.2
    show GroupCommit.Room max s.txnBlocks 0 _
    rw [hb]
    exact (h.of_eq ht).taken rfl (.cover j) rfl trivial 0
  | cover j rest ht => exact (h.of_eq ht).idle (some (.work ..)) rfl rfl (by rintro _ ⟨⟩; trivial)
  | copyThrows j b todo rest ht hn =>
    exact (h.of_eq ht).idle (some .threw) rfl rfl
      (by rintro _ ⟨⟩; trivial)
  | commitThrows j lsn b todo rest ht hn =>
    exact (h.of_eq ht).idle (some .threw) rfl rfl (by rintro _ ⟨⟩; trivial)
  | lock j checkpointed rest ht hh =>
    exact (h.of_eq ht).idle (some (.reopen _)) rfl rfl (by rintro _ ⟨⟩; trivial)
  | reopen caller rest ht =>
    refine (h.of_eq ht).idle caller.resume rfl ?_ ?_
    · cases caller <;> rfl
    · cases caller <;> (rintro _ ⟨⟩; try trivial)
  | beginRecord j rest ht =>
    exact (h.of_eq ht).idle (some (.work ..)) rfl rfl
      (by rintro _ ⟨⟩; trivial)
  | copyTxnFrame j b todo f rest ht hm hin =>
    exact (h.of_eq ht).idle (some (.work ..)) rfl rfl (by rintro _ ⟨⟩; trivial)
  | copied j f todo calls rest ht hc hlk =>
    exact (h.of_eq ht).idle (some (.work ..)) rfl rfl (by rintro _ ⟨⟩; trivial)
  | staged j rest ht => exact (h.of_eq ht).idle (some (.work ..)) rfl rfl (by rintro _ ⟨⟩; trivial)
  | sync j rest ht => exact (h.of_eq ht).idle (some (.work ..)) rfl rfl (by rintro _ ⟨⟩; trivial)
  | append j rest ht => exact (h.of_eq ht).idle (some (.work ..)) rfl rfl (by rintro _ ⟨⟩; trivial)
  | syncCommit j lsn rest ht =>
    exact (h.of_eq ht).idle (some (.work ..)) rfl rfl
      (by rintro _ ⟨⟩; trivial)
  | commitFrame j lsn b todo f rest ht hm hin =>
    exact (h.of_eq ht).idle (some (.work ..)) rfl rfl (by rintro _ ⟨⟩; trivial)
  | framesDone j lsn rest ht =>
    exact (h.of_eq ht).idle (some (.work ..)) rfl rfl
      (by rintro _ ⟨⟩; trivial)
  | size j full rest ht =>
    exact (h.of_eq ht).idle (some (.work ..)) rfl rfl
      (by rintro _ ⟨⟩; trivial)
  | writeBack j rest ht hp =>
    exact (h.of_eq ht).idle (some (.work ..)) rfl rfl
      (by rintro _ ⟨⟩; trivial)
  | passed j rest ht hp =>
    exact (h.of_eq ht).idle (some (.work ..)) rfl rfl
      (by rintro _ ⟨⟩; trivial)
  | devSync j rest ht => exact (h.of_eq ht).idle (some (.work ..)) rfl rfl (by rintro _ ⟨⟩; trivial)
  | superblock j rest ht =>
    exact (h.of_eq ht).idle (some (.work ..)) rfl rfl
      (by rintro _ ⟨⟩; trivial)
  | reset j rest ht => exact (h.of_eq ht).idle (some (.work ..)) rfl rfl (by rintro _ ⟨⟩; trivial)

/-! ## The limit -/

/-- A run in which no operation goes to write more than MAX_OP_BLOCKS blocks, and every step of
    which meets `cond`. -/
inductive SmallRun (capacity : Nat) (init : Nat → Block) (cond : State → State → Prop) :
    State → Prop where
  | empty (durable : Nat) : SmallRun capacity init cond (.empty init durable)
  | step {s s' : State} : SmallRun capacity init cond s → Step capacity (maxTxn capacity) s s' →
      s'.Small → cond s s' → SmallRun capacity init cond s'

theorem SmallRun.run {capacity : Nat} {init : Nat → Block} {cond : State → State → Prop} {s : State}
    (h : SmallRun capacity init cond s) : Run capacity (maxTxn capacity) init s := by
  induction h with
  | empty durable => exact .empty durable
  | step hr hs hsm hc ih => exact ih.step hs

theorem SmallRun.small {capacity : Nat} {init : Nat → Block}
    {cond : State → State → Prop} {s : State}
    (h : SmallRun capacity init cond s) : s.Small := by
  cases h with
  | empty durable => exact fun t ht => absurd ht (Multiset.notMem_zero t)
  | step hr hs hsm hc => exact hsm

theorem SmallRun.room {capacity : Nat} {init : Nat → Block} {s : State}
    (h : SmallRun capacity init (Admitted (maxTxn capacity)) s) : s.Room (maxTxn capacity) := by
  induction h with
  | empty durable =>
    exact ⟨Or.inl (Nat.le_refl _), fun t ht => absurd ht (Multiset.notMem_zero t), Nat.zero_le _⟩
  | step hr hs hsm hc ih => exact ih.step hr.run.inv (maxOpBlocks_le_maxTxn capacity) hr.small hs hc

/-! ## An operation that writes block after block -/

/-- An operation that has nothing under way, with blocks 1 to `n` in the transaction. -/
structure Writing (s : State) (o : Operation) (rest : Multiset Thread)
    (running n : Nat) : Prop where
  threads : s.threads = .op o ::ₘ rest
  held : s.held = false
  closed : s.closed = false
  running : s.running = running
  txnCount : s.txnCount = n
  length : s.txnBlocks.length = n
  blocks : ∀ b ∈ s.txnBlocks, b ≤ n
  touched : ∀ b ∈ o.blocks, b ≤ n
  free : ∀ b, n < b → s.cache.map b = none
  count : s.cache.count ≤ n

theorem count_takeFrame (c : BufferCache.State) (capacity i : Nat) :
    (c.takeFrame capacity i).1.count ≤ c.count + 1 := by
  have hunmap : ∀ (d : BufferCache.State) f, (d.unmap f).count = d.count := by
    intro d f
    rw [BufferCache.State.unmap]
    split <;> rfl
  rw [BufferCache.State.takeFrame]
  split
  · exact Nat.le_refl _
  · split
    · rw [hunmap]
      exact Nat.le_succ _
    · rw [hunmap]
      exact Nat.le_succ _
    · exact Nat.le_refl _

theorem Operation.length_touch_le (o : Operation) (b : Nat) :
    (o.touch b).blocks.length ≤ o.blocks.length + 1 := by
  rw [Operation.touch]
  split
  · exact Nat.le_succ _
  · rw [List.length_append]
    exact Nat.le_refl _

/-- It writes one block more. -/
theorem Writing.next {capacity : Nat} {init : Nat → Block} {cond : State → State → Prop}
    (hcond : ∀ s s', s'.running = s.running → cond s s') {s : State} {o : Operation}
    {rest : Multiset Thread} {running n : Nat} (hr : SmallRun capacity init cond s)
    (h : Writing s o rest running n) (ho : o.blocks.length < maxOpBlocks) (hn : n < maxFrames) :
    ∃ s' o', SmallRun capacity init cond s' ∧ Writing s' o' rest running (n + 1) ∧
      o'.blocks.length ≤ o.blocks.length + 1 := by
  have hmiss : s.cache.map (n + 1) = none := h.free (n + 1) (Nat.lt_succ_self n)
  have hshape := hr.run.inv.linked.run.shape
  have htk := hshape.takeFrame capacity (shardFor (n + 1))
  have hle := h.count
  have hlen : (o.touch (n + 1)).blocks.length ≤ maxOpBlocks := by
    have := o.length_touch_le (n + 1)
    omega
  have hrest : ∀ u ∈ rest, u.touched.length ≤ maxOpBlocks := fun u hu =>
    hr.small u (by rw [h.threads]; exact Multiset.mem_cons_of_mem hu)
  -- every thread this one becomes has gone to write the same blocks
  have hsmall : ∀ (s' : State) (t : Thread), s'.threads = t ::ₘ rest →
    t.touched = (o.touch (n + 1)).blocks →
      s'.Small := by
    intro s' t hs' ht u hu
    rw [hs'] at hu
    rcases Multiset.mem_cons.mp hu with rfl | hu
    · rw [ht]
      exact hlen
    · exact hrest u hu
  let op : Op := .modify true true id
  let t := (s.cache.takeFrame capacity (shardFor (n + 1))).1
  let f := (s.cache.takeFrame capacity (shardFor (n + 1))).2
  have hcount : t.count ≤ s.cache.count + 1 := count_takeFrame s.cache capacity (shardFor (n + 1))
  have h1 := hr.step (.modifyMiss o true id (n + 1) rest h.threads hmiss (t := t) (f := f) rfl
    (by show t.count ≤ maxFrames; omega)) (hsmall _ _ rfl rfl) (hcond _ _ rfl)
  have h2 := h1.step (.modifyLoad (o.touch (n + 1)) (n + 1) true op f t.calls rest rfl rfl)
    (hsmall _ _ rfl rfl) (hcond _ _ rfl)
  have h3 := h2.step (.modifyLoaded (o.touch (n + 1)) (n + 1) true true id f t.calls rest rfl rfl)
    (hsmall _ _ rfl rfl) (hcond _ _ rfl)
  have h4 := h3.step (.modifyFinish _ (n + 1) true f t.calls rest rfl rfl) (hsmall _ _ rfl rfl)
    (hcond _ _ rfl)
  have h5 := h4.step (.addNew _ (n + 1) rest rfl h.held fun hm =>
    Nat.not_succ_le_self n (h.blocks _ hm)) (hsmall _ _ rfl rfl) (hcond _ _ rfl)
  have h6 := h5.step (.addStore _ rest rfl) (hsmall _ _ rfl rfl) (hcond _ _ rfl)
  refine ⟨_, _, h6, ⟨rfl, rfl, h.closed, h.running, ?_, ?_, ?_, ?_, ?_, ?_⟩,
    o.length_touch_le (n + 1)⟩
  · show (s.txnBlocks ++ [n + 1]).length = n + 1
    rw [List.length_append, h.length]
    rfl
  · show (s.txnBlocks ++ [n + 1]).length = n + 1
    rw [List.length_append, h.length]
    rfl
  · intro b hb
    rcases List.mem_append.mp hb with hb | hb
    · exact Nat.le_succ_of_le (h.blocks b hb)
    · exact Nat.le_of_eq (List.mem_singleton.mp hb)
  · intro b hb
    replace hb : b ∈ (o.touch (n + 1)).blocks := hb
    rw [Operation.touch] at hb
    split at hb
    · exact Nat.le_succ_of_le (h.touched b hb)
    · rcases List.mem_append.mp hb with hb | hb
      · exact Nat.le_succ_of_le (h.touched b hb)
      · exact Nat.le_of_eq (List.mem_singleton.mp hb)
  · intro b hb
    show Function.update t.map (n + 1) (some f) b = none
    rw [Function.update_of_ne (Nat.ne_of_gt hb)]
    exact htk.map b (h.free b (Nat.lt_of_succ_lt hb))
  · show t.count ≤ n + 1
    omega

/-- It writes `k` blocks more. -/
theorem Writing.many {capacity : Nat} {init : Nat → Block} {cond : State → State → Prop}
    (hcond : ∀ s s', s'.running = s.running → cond s s') (o : Operation) (rest : Multiset Thread)
    (running n k : Nat) {s : State} (hr : SmallRun capacity init cond s)
    (h : Writing s o rest running n) (ho : o.blocks.length + k ≤ maxOpBlocks)
    (hn : n + k ≤ maxFrames) :
    ∃ s' o', SmallRun capacity init cond s' ∧ Writing s' o' rest running (n + k) := by
  induction k generalizing s o n with
  | zero => exact ⟨s, o, hr, h⟩
  | succ k ih =>
    obtain ⟨s', o', hr', h', ho'⟩ := h.next hcond hr (by omega) (by omega)
    obtain ⟨s'', o'', hr'', h''⟩ := ih o' (n + 1) hr' h' (by omega) (by omega)
    exact ⟨s'', o'', hr'', by rwa [Nat.add_assoc, Nat.add_comm 1] at h''⟩

/-- Threads that are in no operation yet. -/
theorem small_of_list (s : State) (l : List Thread) (hl : s.threads = l)
    (ht : ∀ t ∈ l, t.touched = []) : s.Small := by
  intro t hm
  rw [hl] at hm
  rw [ht t (Multiset.mem_coe.mp hm)]
  exact Nat.zero_le _

/-! ## Within the limit, and past it -/

/-- When everybody that gets in fits at that moment, the running transaction stays within
    `max_txn_blocks_`. -/
theorem txn_within_limit {capacity : Nat} {init : Nat → Block} {s : State}
    (h : SmallRun capacity init (Admitted (maxTxn capacity)) s) :
    s.txnBlocks.Nodup ∧ s.txnBlocks.length ≤ maxTxn capacity :=
  ⟨h.run.inv.flags.nodup, h.room.length_le h.run.inv.flags.nodup h.small⟩

/-- Over the smallest cache one operation may write 64 blocks, and then the transaction is full. -/
theorem txn_within_limit_full :
    ∃ s, SmallRun 256 (fun _ => Bytes.zero 4096) (Admitted (maxTxn 256)) s ∧
      s.txnBlocks.length = 64 ∧ s.txnBlocks.Nodup ∧ s.txnBlocks.length ≤ maxTxn 256 := by
  have hcond : ∀ s s' : State, s'.running = s.running → Admitted (maxTxn 256) s s' :=
    fun s s' he hlt => absurd hlt (by omega)
  have h0 : SmallRun 256 (fun _ => Bytes.zero 4096) (Admitted (maxTxn 256)) _ := .empty 0
  have h1 := ((h0.step .callBeginOp (small_of_list _ [.beginLoad] rfl
      (by simp [Thread.touched, Thread.operation])) (hcond _ _ rfl)).step
    (.beginLoad 0 rfl) (small_of_list _ [.beginTry false 0] rfl
      (by simp [Thread.touched, Thread.operation])) (hcond _ _ rfl)).step
    (.beginTry false 0 0 rfl) (small_of_list _ [.beginCas 0] rfl
      (by simp [Thread.touched, Thread.operation])) (hcond _ _ rfl)
  have h2 := h1.step (.beginCas 0 0 rfl rfl rfl)
    (small_of_list _ [.op ⟨0, [], []⟩] rfl (by simp [Thread.touched, Thread.operation])) fun _ =>
    rfl
  obtain ⟨s, o, hr, hw⟩ := Writing.many hcond ⟨0, [], []⟩ 0 1 0 64 h2
    ⟨rfl, rfl, rfl, rfl, rfl, rfl, nofun, nofun, fun _ _ => rfl, Nat.le_refl _⟩
    (by decide) (by decide)
  exact ⟨s, hr, hw.length, txn_within_limit hr⟩

/-- The limit of 64 blocks over the smallest cache, and 65 blocks in the transaction.  An operation
    finds the gate open and empty and nothing in the transaction; another gets in, writes 64 blocks
    and ends; then the exchange of the first succeeds, for the gate is empty again. -/
theorem txn_past_limit :
    ∃ s, SmallRun 256 (fun _ => Bytes.zero 4096) (fun _ _ => True) s ∧
      maxTxn 256 < s.txnBlocks.length := by
  -- the first has found the gate empty and room for itself
  have h0 : SmallRun 256 (fun _ => Bytes.zero 4096) (fun _ _ => True) _ := .empty 0
  have h1 := ((h0.step .callBeginOp (small_of_list _ [.beginLoad] rfl
      (by simp [Thread.touched, Thread.operation])) trivial).step
    (.beginLoad 0 rfl) (small_of_list _ [.beginTry false 0] rfl
      (by simp [Thread.touched, Thread.operation])) trivial).step
    (.beginTry false 0 0 rfl) (small_of_list _ [.beginCas 0] rfl
      (by simp [Thread.touched, Thread.operation])) trivial
  -- the second gets in and writes all it may
  have h2 := ((h1.step .callBeginOp (small_of_list _ [.beginLoad, .beginCas 0] rfl
      (by simp [Thread.touched, Thread.operation])) trivial).step
    (.beginLoad (.beginCas 0 ::ₘ 0) rfl) (small_of_list _ [.beginTry false 0, .beginCas 0] rfl
      (by simp [Thread.touched, Thread.operation])) trivial).step
    (.beginTry false 0 (.beginCas 0 ::ₘ 0) rfl) (small_of_list _ [.beginCas 0, .beginCas 0] rfl
      (by simp [Thread.touched, Thread.operation])) trivial
  have h3 := h2.step (.beginCas 0 (.beginCas 0 ::ₘ 0) rfl rfl rfl)
    (small_of_list _ [.op ⟨0, [], []⟩, .beginCas 0] rfl
      (by simp [Thread.touched, Thread.operation])) trivial
  obtain ⟨s, o, hr, hw⟩ := Writing.many (fun _ _ _ => trivial) ⟨0, [], []⟩
    (.beginCas 0 ::ₘ 0) 1 0 64 h3
    ⟨rfl, rfl, rfl, rfl, rfl, rfl, nofun, nofun, fun _ _ => rfl, Nat.le_refl _⟩
    (by decide) (by decide)
  -- and ends; the gate is empty again
  have h4 := hr.step (.endCount o _ hw.threads)
    (small_of_list _ [.endLeave, .beginCas 0] rfl 
      (by simp [Thread.touched, Thread.operation])) trivial
  have h5 := h4.step (.endLeave (.beginCas 0 ::ₘ 0) rfl) (small_of_list _ [.endFull, .beginCas 0]
    (by simp only [hw.running, hw.closed]; rfl) 
      (by simp [Thread.touched, Thread.operation])) trivial
  have h6 := h5.step (.beginCas 0 (.endFull ::ₘ 0)
    (by
      simp only [hw.running, hw.closed]
      exact Multiset.cons_swap Thread.endFull (Thread.beginCas 0) 0)
    hw.closed (by simp only [hw.running]))
    (small_of_list _ [.op ⟨s.txns.length, [], []⟩, .endFull] rfl
      (by simp [Thread.touched, Thread.operation])) trivial
  obtain ⟨s', o', hr', hw'⟩ := Writing.many (fun _ _ _ => trivial) ⟨s.txns.length, [], []⟩
    (.endFull ::ₘ 0) 1 64 1 h6
    ⟨rfl, hw.held, hw.closed, rfl, hw.txnCount, hw.length, hw.blocks, nofun, hw.free, hw.count⟩
    (show 0 + 1 ≤ 64 by decide) (by decide)
  refine ⟨s', hr', ?_⟩
  rw [hw'.length]
  decide

end ConcurrentFs.GroupCommit
