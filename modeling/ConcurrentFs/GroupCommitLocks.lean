/-
  ConcurrentFs.GroupCommitLocks

  Who may be where: one thread at most has `m_`, one at most is committing, the gate
  counts the operations inside it, and from the moment `run_commit` finds the gate
  empty until it opens it again nobody gets in.
-/
import ConcurrentFs.GroupCommit

namespace ConcurrentFs.GroupCommit

open BufferCache (Op Call FrameId Event Image)

/-! ## Where a thread is -/

namespace Thread

/-- It has `m_`. -/
def holds : Thread → Bool
  | beginGate | beginRoom _ | beginShut | beginAdd | addStore _ | endGate | commitLoop .. |
    checkpointLoop .. | close _ | take _ | count _ | cover _ | reopen _ => true
  | _ => false

/-- It is counted in the gate. -/
def inGate : Thread → Bool
  | op _ | modify .. | addLock .. | addStore _ | endLeave => true
  | _ => false

/-- It has set `committing_`. -/
def commits : Thread → Bool
  | count _ | cover _ | work .. | threw => true
  | _ => false

/-- What it relies on until it goes on. -/
def Relies (closed : Bool) (running : Nat) (committing : Bool)
    (txnBlocks : List Nat) : Thread → Prop
  | beginGate | beginShut | close _ | endGate => committing = false
  | beginRoom _ | beginAdd => committing = false ∧ closed = false
  | take _ => committing = false ∧ closed = true ∧ running = 0
  | count _ | cover _ | work .. | threw => closed = true ∧ running = 0 ∧ txnBlocks = []
  | reopen _ => committing = false ∧ closed = true ∧ running = 0 ∧ txnBlocks = []
  | _ => True

/-- One that has not `m_` and does not commit relies on nothing. -/
theorem relies_of_idle {closed : Bool} {running : Nat} {committing : Bool} {txnBlocks : List Nat}
    {t : Thread} (hh : t.holds = false) (hc : t.commits = false) :
    t.Relies closed running committing txnBlocks := by
  cases t <;> trivial

/-- One that commits, or is about to, keeps the gate shut. -/
theorem Relies.quiet {closed : Bool} {running : Nat} {committing : Bool} {txnBlocks : List Nat}
    {t : Thread} (h : t.Relies closed running committing txnBlocks) (hc : t.commits = true) :
    closed = true ∧ running = 0 ∧ txnBlocks = [] := by
  cases t <;> first | exact h | cases hc

end Thread

/-! ## Threads that move -/

theorem mem_goes {t : Option Thread} {rest : Multiset Thread} {u : Thread} :
    u ∈ goes t rest ↔ t = some u ∨ u ∈ rest := by
  cases t with
  | none => simp [goes]
  | some t =>
    rw [goes, Multiset.mem_cons]
    simp [eq_comm]

theorem countP_goes (p : Thread → Bool) (t : Option Thread) (rest : Multiset Thread) :
    (goes t rest).countP (p · = true) = rest.countP (p · = true) + (t.any p).toNat := by
  cases t with
  | none => rfl
  | some t =>
    rw [goes, Multiset.countP_cons, Option.any_some]
    cases p t <;> rfl

structure Locks (closed : Bool) (running : Nat) (held committing : Bool) (txnBlocks : List Nat)
    (threads : Multiset Thread) : Prop where
  holds : threads.countP (Thread.holds · = true) = held.toNat
  gate : threads.countP (Thread.inGate · = true) = running
  commits : threads.countP (Thread.commits · = true) = committing.toNat
  relies : ∀ t ∈ threads, t.Relies closed running committing txnBlocks

namespace Locks

variable {closed : Bool} {running : Nat} {held committing : Bool} {txnBlocks : List Nat}
  {threads rest : Multiset Thread} {t : Thread}

theorem holds_rest (h : Locks closed running held committing txnBlocks (t ::ₘ rest)) :
    rest.countP (Thread.holds · = true) + t.holds.toNat = held.toNat := by
  rw [← h.holds]
  exact (countP_goes Thread.holds (some t) rest).symm

theorem gate_rest (h : Locks closed running held committing txnBlocks (t ::ₘ rest)) :
    rest.countP (Thread.inGate · = true) + t.inGate.toNat = running := by
  rw [← h.gate]
  exact (countP_goes Thread.inGate (some t) rest).symm

theorem commits_rest (h : Locks closed running held committing txnBlocks (t ::ₘ rest)) :
    rest.countP (Thread.commits · = true) + t.commits.toNat = committing.toNat := by
  rw [← h.commits]
  exact (countP_goes Thread.commits (some t) rest).symm

theorem self (h : Locks closed running held committing txnBlocks (t ::ₘ rest)) :
    t.Relies closed running committing txnBlocks := h.relies t (Multiset.mem_cons_self ..)

theorem held_eq (h : Locks closed running held committing txnBlocks (t ::ₘ rest))
    (ht : t.holds = true) : held = true := by
  have hr := h.holds_rest
  rw [ht, Bool.toNat_true] at hr
  cases held with
  | true => rfl
  | false =>
    rw [Bool.toNat_false] at hr
    omega

/-- While one thread has `m_` no other has. -/
theorem not_holds (h : Locks closed running held committing txnBlocks (t ::ₘ rest))
    (ht : t.holds = true) {u : Thread} (hu : u ∈ rest) : u.holds = false := by
  by_contra hn
  have hr := h.holds_rest
  have hpos : 0 < rest.countP (Thread.holds · = true) :=
    Multiset.countP_pos.mpr ⟨u, hu, by simpa using hn⟩
  have hle := Bool.toNat_le held
  rw [ht, Bool.toNat_true] at hr
  omega

/-- While `m_` is free nobody has it. -/
theorem not_holds_of_free (h : Locks closed running false committing txnBlocks threads) {u : Thread}
    (hu : u ∈ threads) : u.holds = false := by
  by_contra hn
  have hpos : 0 < threads.countP (Thread.holds · = true) :=
    Multiset.countP_pos.mpr ⟨u, hu, by simpa using hn⟩
  have := h.holds
  rw [Bool.toNat_false] at this
  omega

/-- While one thread commits no other does. -/
theorem not_commits (h : Locks closed running held committing txnBlocks (t ::ₘ rest))
    (ht : t.commits = true) {u : Thread} (hu : u ∈ rest) : u.commits = false := by
  by_contra hn
  have hr := h.commits_rest
  have hpos : 0 < rest.countP (Thread.commits · = true) :=
    Multiset.countP_pos.mpr ⟨u, hu, by simpa using hn⟩
  have hle := Bool.toNat_le committing
  rw [ht, Bool.toNat_true] at hr
  omega

theorem not_commits_of_free (h : Locks closed running held false txnBlocks threads) {u : Thread}
    (hu : u ∈ threads) : u.commits = false := by
  by_contra hn
  have hpos : 0 < threads.countP (Thread.commits · = true) :=
    Multiset.countP_pos.mpr ⟨u, hu, by simpa using hn⟩
  have := h.commits
  rw [Bool.toNat_false] at this
  omega

theorem committing_of_mem (h : Locks closed running held committing txnBlocks threads) {u : Thread}
    (hu : u ∈ threads) (hc : u.commits = true) : committing = true := by
  cases committing with
  | true => rfl
  | false =>
    rw [h.not_commits_of_free hu] at hc
    cases hc

/-- With the gate empty nobody is in an operation. -/
theorem not_inGate (h : Locks closed 0 held committing txnBlocks threads) {u : Thread}
    (hu : u ∈ threads) : u.inGate = false := by
  by_contra hn
  have hpos : 0 < threads.countP (Thread.inGate · = true) :=
    Multiset.countP_pos.mpr ⟨u, hu, by simpa using hn⟩
  have := h.gate
  omega

theorem running_pos (h : Locks closed running held committing txnBlocks threads) {u : Thread}
    (hu : u ∈ threads) (hg : u.inGate = true) : 0 < running := by
  rw [← h.gate]
  exact Multiset.countP_pos.mpr ⟨u, hu, hg⟩

/-- A thread goes on to `t'`, or home. -/
theorem move (h : Locks closed running held committing txnBlocks (t ::ₘ rest)) (t' : Option Thread)
    {closed' : Bool} {running' : Nat} {held' committing' : Bool} {txnBlocks' : List Nat}
    (hh : held'.toNat + t.holds.toNat = held.toNat + (t'.any Thread.holds).toNat)
    (hg : running' + t.inGate.toNat = running + (t'.any Thread.inGate).toNat)
    (hc : committing'.toNat + t.commits.toNat = committing.toNat + (t'.any Thread.commits).toNat)
    (ht : ∀ u, t' = some u → u.Relies closed' running' committing' txnBlocks')
    (hr : ∀ u ∈ rest, u.Relies closed running committing txnBlocks →
      u.Relies closed' running' committing' txnBlocks') :
    Locks closed' running' held' committing' txnBlocks' (goes t' rest) where
  holds := by
    have := h.holds_rest
    rw [countP_goes]
    omega
  gate := by
    have := h.gate_rest
    rw [countP_goes]
    omega
  commits := by
    have := h.commits_rest
    rw [countP_goes]
    omega
  relies := by
    intro u hu
    rcases mem_goes.mp hu with hu | hu
    · exact ht u hu
    · exact hr u hu (h.relies u (Multiset.mem_cons_of_mem hu))

/-- A thread goes on, and what others rely on stays. -/
theorem pass (h : Locks closed running held committing txnBlocks (t ::ₘ rest)) (t' : Option Thread)
    {held' : Bool} (hh : held'.toNat + t.holds.toNat = held.toNat + (t'.any Thread.holds).toNat)
    (hg : t.inGate = t'.any Thread.inGate) (hc : t.commits = t'.any Thread.commits)
    (ht : ∀ u, t' = some u → u.Relies closed running committing txnBlocks) :
    Locks closed running held' committing txnBlocks (goes t' rest) :=
  h.move t' hh (by rw [hg]) (by rw [hc]) ht fun _ _ => id

/-- A thread gives `m_` up. -/
theorem release (h : Locks closed running held committing txnBlocks (t ::ₘ rest))
    (t' : Option Thread)
    (ht : t.holds = true) (hh : t'.any Thread.holds = false) (hg : t.inGate = t'.any Thread.inGate)
    (hc : t.commits = t'.any Thread.commits)
    (hr : ∀ u, t' = some u → u.Relies closed running committing txnBlocks) :
    Locks closed running false committing txnBlocks (goes t' rest) := by
  refine h.pass t' ?_ hg hc hr
  rw [h.held_eq ht, ht, hh]
  rfl

/-- A thread takes `m_`. -/
theorem acquire (h : Locks closed running held committing txnBlocks (t ::ₘ rest)) (t' : Thread)
    (hfree : held = false) (ht : t.holds = false) (hh : t'.holds = true) (hg : t.inGate = t'.inGate)
    (hc : t.commits = t'.commits) (hr : t'.Relies closed running committing txnBlocks) :
    Locks closed running true committing txnBlocks (t' ::ₘ rest) := by
  refine h.pass (some t') ?_ hg hc fun u hu => by cases hu; exact hr
  rw [hfree, ht, Option.any_some, hh]
  rfl

/-- A call begins. -/
theorem start (h : Locks closed running held committing txnBlocks threads) (t : Thread)
    (hh : t.holds = false) (hg : t.inGate = false) (hc : t.commits = false) :
    Locks closed running held committing txnBlocks (t ::ₘ threads) where
  holds := by
    rw [← h.holds]
    refine (countP_goes Thread.holds (some t) threads).trans ?_
    rw [Option.any_some, hh]
    rfl
  gate := by
    rw [← h.gate]
    refine (countP_goes Thread.inGate (some t) threads).trans ?_
    rw [Option.any_some, hg]
    rfl
  commits := by
    rw [← h.commits]
    refine (countP_goes Thread.commits (some t) threads).trans ?_
    rw [Option.any_some, hc]
    rfl
  relies := by
    intro u hu
    rcases Multiset.mem_cons.mp hu with rfl | hu
    · exact Thread.relies_of_idle hh hc
    · exact h.relies u hu

/-- A thread that has `m_` changes what others rely on: they have it not, so they do not. -/
theorem idle_rest (h : Locks closed running held committing txnBlocks (t ::ₘ rest))
    (ht : t.holds = true) (hc : committing = false) {closed' : Bool} {running' : Nat}
    {committing' : Bool} {txnBlocks' : List Nat} :
    ∀ u ∈ rest, u.Relies closed running committing txnBlocks →
      u.Relies closed' running' committing' txnBlocks' := by
  subst hc
  intro u hu _
  exact Thread.relies_of_idle (h.not_holds ht hu)
    (h.not_commits_of_free (Multiset.mem_cons_of_mem hu))

/-- The gate is shut once more, by the thread that has `m_`. -/
theorem shut_rest (h : Locks closed running held committing txnBlocks (t ::ₘ rest))
    (ht : t.holds = true) (hc : committing = false) : ∀ u ∈ rest,
    u.Relies closed running committing txnBlocks → u.Relies true running committing txnBlocks :=
  h.idle_rest ht hc

/-- Somebody gets in or out of the gate, or adds to the transaction, while it is not kept shut. -/
theorem busy_rest {closed' : Bool} {running' : Nat} {txnBlocks' : List Nat}
    (hopen : closed = false ∧ closed' = false ∨ 0 < running ∧ closed' = closed) : ∀ u ∈ rest,
    u.Relies closed running committing txnBlocks →
    u.Relies closed' running' committing txnBlocks' := by
  intro u _ hu
  have hnot : ¬ (closed = true ∧ running = 0) := by
    rintro ⟨hc, hr⟩
    rcases hopen with ⟨ho, -⟩ | ⟨hp, -⟩
    · rw [ho] at hc
      cases hc
    · exact Nat.ne_of_gt hp hr
  have hcl : closed = false → closed' = false := by
    rcases hopen with ⟨-, ho⟩ | ⟨-, he⟩
    · exact fun _ => ho
    · exact fun hc => he.trans hc
  cases u with
  | beginRoom g => exact ⟨hu.1, hcl hu.2⟩
  | beginAdd => exact ⟨hu.1, hcl hu.2⟩
  | take c => exact absurd hu.2 hnot
  | count j => exact absurd ⟨hu.1, hu.2.1⟩ hnot
  | cover j => exact absurd ⟨hu.1, hu.2.1⟩ hnot
  | work j st => exact absurd ⟨hu.1, hu.2.1⟩ hnot
  | threw => exact absurd ⟨hu.1, hu.2.1⟩ hnot
  | reopen c => exact absurd ⟨hu.2.1, hu.2.2.1⟩ hnot
  | _ => exact hu

end Locks

def State.Locks (s : State) : Prop :=
  GroupCommit.Locks s.closed s.running s.held s.committing s.txnBlocks s.threads

/-- The threads of a state, one of them named. -/
theorem State.Locks.of_eq {s : State} (h : s.Locks) {threads : Multiset Thread}
    (ht : s.threads = threads) :
    GroupCommit.Locks s.closed s.running s.held s.committing s.txnBlocks threads := ht ▸ h

theorem Caller.wait_idle (caller : Caller) : caller.wait.any Thread.holds = false ∧
    caller.wait.any Thread.inGate = false ∧ caller.wait.any Thread.commits = false := by
  cases caller <;> exact ⟨rfl, rfl, rfl⟩

theorem Caller.resume_holds (caller : Caller) :
    caller.resume.any Thread.holds = caller.resume.isSome ∧
    caller.resume.any Thread.inGate = false ∧ caller.resume.any Thread.commits = false := by
  cases caller <;> exact ⟨rfl, rfl, rfl⟩

/-- A commit goes on with its I/O. -/
theorem State.Locks.work {s : State} (h : s.Locks) {j : Job} {st st' : Stage}
    {rest : Multiset Thread}
    (ht : s.threads = .work j st ::ₘ rest) :
    GroupCommit.Locks s.closed s.running s.held s.committing s.txnBlocks (.work j st' ::ₘ rest) :=
  (h.of_eq ht).pass (some (.work j st')) rfl rfl rfl fun _ hu => by
    cases hu
    exact (h.of_eq ht).self

theorem State.Locks.step {capacity maxTxnBlocks : Nat} {s s' : State} (h : s.Locks)
    (hs : Step capacity maxTxnBlocks s s') : s'.Locks := by
  cases hs with
  | background hb => exact h
  | callBeginOp => exact GroupCommit.Locks.start h .beginLoad rfl rfl rfl
  | callCommit => exact GroupCommit.Locks.start h (.commitLock s.ended) rfl rfl rfl
  | callCheckpoint => exact GroupCommit.Locks.start h (.checkpointLock s.ended) rfl rfl rfl
  | callCommitIfOlder => exact GroupCommit.Locks.start h .olderLock rfl rfl rfl
  | beginLoad rest ht =>
    exact (h.of_eq ht).pass (some (.beginTry s.closed s.running)) rfl rfl rfl fun _ hu => by
      cases hu; trivial
  | beginTry closed g rest ht =>
    split
    · exact (h.of_eq ht).pass (some (.beginCas g)) rfl rfl rfl fun _ hu => by cases hu; trivial
    · exact (h.of_eq ht).pass (some .beginLock) rfl rfl rfl fun _ hu => by cases hu; trivial
  | beginCas g rest ht hc hg =>
    have hl := h.of_eq ht
    refine hl.move (some (.op _)) rfl ?_ rfl (fun _ hu => by cases hu; trivial)
      (Locks.busy_rest (Or.inl ⟨hc, hc⟩))
    rw [hg]
    rfl
  | beginCasFails g rest ht =>
    exact (h.of_eq ht).pass (some (.beginTry s.closed s.running)) rfl rfl rfl fun _ hu => by
      cases hu; trivial
  | beginLock rest ht hh hc =>
    refine (h.of_eq ht).pass (some .beginGate) ?_ rfl rfl fun _ hu => by cases hu; exact hc
    rw [hh]
    rfl
  | beginGate rest ht =>
    have hc : s.committing = false := (h.of_eq ht).self
    split
    · exact (h.of_eq ht).pass (some (.close .beginOp)) rfl rfl rfl fun _ hu => by cases hu; exact hc
    · rename_i hcl
      exact (h.of_eq ht).pass (some (.beginRoom s.running)) rfl rfl rfl fun _ hu => by
        cases hu
        exact ⟨hc, by simpa using hcl⟩
  | beginRoom g rest ht =>
    have hc : s.committing = false ∧ s.closed = false := (h.of_eq ht).self
    split
    · exact (h.of_eq ht).pass (some .beginAdd) rfl rfl rfl fun _ hu => by cases hu; exact hc
    · exact (h.of_eq ht).pass (some .beginShut) rfl rfl rfl fun _ hu => by cases hu; exact hc.1
  | beginShut rest ht =>
    have hl := h.of_eq ht
    have hc : s.committing = false := hl.self
    exact hl.move (some (.close .beginOp)) rfl rfl rfl (fun _ hu => by cases hu; exact hc)
      (hl.shut_rest rfl hc)
  | beginAdd rest ht =>
    have hl := h.of_eq ht
    have hc : s.committing = false ∧ s.closed = false := hl.self
    have hh := hl.holds_rest
    refine hl.move (some (.op _)) ?_ rfl rfl (fun _ hu => by cases hu; trivial)
      (Locks.busy_rest (Or.inl ⟨hc.2, hc.2⟩))
    show 0 + 1 = s.held.toNat + 0
    have := Bool.toNat_le s.held
    replace hh : rest.countP (Thread.holds · = true) + 1 = s.held.toNat := hh
    omega
  | modifyHit o fresh fn b f rest ht hm =>
    exact (h.of_eq ht).pass (some (.modify ..)) rfl rfl rfl fun _ hu => by cases hu; trivial
  | modifyMiss o fresh fn b rest ht hm =>
    exact (h.of_eq ht).pass (some (.modify ..)) rfl rfl rfl fun _ hu => by cases hu; trivial
  | modifyLoad o b joined op f calls rest ht hm =>
    exact (h.of_eq ht).pass (some (.modify ..)) rfl rfl rfl fun _ hu => by cases hu; trivial
  | modifyBytes o b joined fresh fn f calls rest ht hm =>
    exact (h.of_eq ht).pass (some (.modify ..)) rfl rfl rfl fun _ hu => by cases hu; trivial
  | modifyLoaded o b joined fresh fn f calls rest ht hm =>
    exact (h.of_eq ht).pass (some (.modify ..)) rfl rfl rfl fun _ hu => by cases hu; trivial
  | modifyFinish o b joined f calls rest ht hm =>
    show GroupCommit.Locks _ _ _ _ _ ((if joined then Thread.addLock o b else .op o) ::ₘ rest)
    split
    · exact (h.of_eq ht).pass (some (.addLock o b)) rfl rfl rfl fun _ hu => by cases hu; trivial
    · exact (h.of_eq ht).pass (some (.op o)) rfl rfl rfl fun _ hu => by cases hu; trivial
  | addOld o b rest ht hh hb =>
    exact (h.of_eq ht).pass (some (.op o)) rfl rfl rfl fun _ hu => by cases hu; trivial
  | addNew o b rest ht hh hb =>
    have hl := h.of_eq ht
    refine hl.move (some (.addStore o)) ?_ rfl rfl (fun _ hu => by cases hu; trivial)
      (Locks.busy_rest (Or.inr ⟨hl.running_pos (Multiset.mem_cons_self ..) rfl, rfl⟩))
    rw [hh]
    rfl
  | addStore o rest ht =>
    exact (h.of_eq ht).release (some (.op o)) rfl rfl rfl rfl fun _ hu => by cases hu; trivial
  | endCount o rest ht =>
    exact (h.of_eq ht).pass (some .endLeave) rfl rfl rfl fun _ hu => by cases hu; trivial
  | endLeave rest ht =>
    have hl := h.of_eq ht
    have hp := hl.running_pos (Multiset.mem_cons_self ..) rfl
    have hrest : ∀ u ∈ rest, u.Relies s.closed s.running s.committing s.txnBlocks →
        u.Relies s.closed (s.running - 1) s.committing s.txnBlocks :=
      Locks.busy_rest (Or.inr ⟨hp, rfl⟩)
    have hg : s.running - 1 + 1 = s.running + 0 := by omega
    show GroupCommit.Locks _ _ _ _ _ (goes (if s.running ≠ 1 then none else
      some (if s.closed then .endLock else .endFull)) rest)
    split
    · exact hl.move none rfl hg rfl nofun hrest
    · split
      · exact hl.move (some .endLock) rfl hg rfl (fun _ hu => by cases hu; trivial) hrest
      · exact hl.move (some .endFull) rfl hg rfl (fun _ hu => by cases hu; trivial) hrest
  | endFull rest ht =>
    split
    · exact (h.of_eq ht).pass none rfl rfl rfl nofun
    · exact (h.of_eq ht).pass (some .endLock) rfl rfl rfl fun _ hu => by cases hu; trivial
  | endLock rest ht hh =>
    have hl := h.of_eq ht
    show GroupCommit.Locks _ _ _ _ _ (goes (if s.committing then none else some .endGate) rest)
    cases hc : s.committing with
    | true =>
      rw [hc] at hl
      refine hl.pass none ?_ rfl rfl nofun
      rw [hh]
      rfl
    | false =>
      rw [hc] at hl
      exact hl.acquire .endGate hh rfl rfl rfl rfl rfl
  | endGate rest go ht hgo =>
    have hl := h.of_eq ht
    have hc : s.committing = false := hl.self
    cases go with
    | true =>
      refine hl.pass (some (.close .endOp)) ?_ rfl rfl fun _ hu => by cases hu; exact hc
      rw [hl.held_eq rfl]
      rfl
    | false => exact hl.release none rfl rfl rfl rfl nofun
  | commitLock before rest ht hh =>
    exact (h.of_eq ht).acquire (.commitLoop ..) hh rfl rfl rfl rfl trivial
  | commitReturns before target rest ht hle =>
    exact (h.of_eq ht).release (some (.commitDone before)) rfl rfl rfl rfl fun _ hu => by
      cases hu; trivial
  | commitLoop before target rest ht hlt =>
    have hl := h.of_eq ht
    show GroupCommit.Locks _ _ _ _ _ ((if s.committing then Thread.commitWait before target
      else .close (.commit before target)) ::ₘ rest)
    cases hc : s.committing with
    | true =>
      rw [hc] at hl
      exact hl.release (some (.commitWait ..)) rfl rfl rfl rfl fun _ hu => by cases hu; trivial
    | false =>
      rw [hc] at hl
      refine hl.pass (some (.close _)) ?_ rfl rfl fun _ hu => by cases hu; rfl
      rw [hl.held_eq rfl]
      rfl
  | commitWait before target rest ht hh =>
    exact (h.of_eq ht).acquire (.commitLoop ..) hh rfl rfl rfl rfl trivial
  | checkpointLock before rest ht hh =>
    exact (h.of_eq ht).acquire (.checkpointLoop ..) hh rfl rfl rfl rfl trivial
  | checkpointReturns before target rest ht hle =>
    exact (h.of_eq ht).release (some (.checkpointDone before)) rfl rfl rfl rfl fun _ hu => by
      cases hu
      trivial
  | checkpointLoop before target rest ht hlt =>
    have hl := h.of_eq ht
    show GroupCommit.Locks _ _ _ _ _ ((if s.committing then Thread.checkpointWait before target
      else .close (.checkpoint before target)) ::ₘ rest)
    cases hc : s.committing with
    | true =>
      rw [hc] at hl
      exact hl.release (some (.checkpointWait ..)) rfl rfl rfl rfl fun _ hu => by cases hu; trivial
    | false =>
      rw [hc] at hl
      refine hl.pass (some (.close _)) ?_ rfl rfl fun _ hu => by cases hu; rfl
      rw [hl.held_eq rfl]
      rfl
  | checkpointWait before target rest ht hh =>
    exact (h.of_eq ht).acquire (.checkpointLoop ..) hh rfl rfl rfl rfl trivial
  | olderReturns rest ht hh => exact (h.of_eq ht).pass none rfl rfl rfl nofun
  | olderLock rest ht hh hc hb => exact (h.of_eq ht).acquire (.close .older) hh rfl rfl rfl rfl hc
  | closeBusy caller rest ht hr =>
    have hl := h.of_eq ht
    have hc : s.committing = false := hl.self
    obtain ⟨hwh, hwg, hwc⟩ := caller.wait_idle
    refine hl.move caller.wait ?_ ?_ ?_ (fun u hu => ?_) (hl.shut_rest rfl hc)
    · rw [hl.held_eq rfl, hwh]
      rfl
    · rw [hwg]
      rfl
    · rw [hwc]
      rfl
    · rw [hu, Option.any_some] at hwh hwc
      exact Thread.relies_of_idle hwh hwc
  | close caller rest ht hr =>
    have hl := h.of_eq ht
    have hc : s.committing = false := hl.self
    exact hl.move (some (.take caller)) rfl rfl rfl (fun _ hu => by cases hu; exact ⟨hc, rfl, hr⟩)
      (hl.shut_rest rfl hc)
  | take caller rest ht =>
    have hl := h.of_eq ht
    have hc : s.committing = false ∧ s.closed = true ∧ s.running = 0 := hl.self
    refine hl.move (some (.count _)) rfl rfl ?_ 
      (fun _ hu => by cases hu; exact ⟨hc.2.1, hc.2.2, rfl⟩)
      (hl.idle_rest rfl hc.1)
    rw [hc.1]
    rfl
  | count j rest ht =>
    have hl := h.of_eq ht
    exact hl.pass (some (.cover j)) rfl rfl rfl fun _ hu => by cases hu; exact hl.self
  | cover j rest ht =>
    have hl := h.of_eq ht
    exact hl.release (some (.work ..)) rfl rfl rfl rfl fun _ hu => by cases hu; exact hl.self
  | beginRecord j rest ht => exact h.work ht
  | copyTxnFrame j b todo f rest ht hm hin => exact h.work ht
  | copyThrows j b todo rest ht hn =>
    have hl := h.of_eq ht
    exact hl.pass (some .threw) rfl rfl rfl fun _ hu => by cases hu; exact hl.self
  | copied j f todo calls rest ht hc hl => exact h.work ht
  | staged j rest ht => exact h.work ht
  | sync j rest ht => exact h.work ht
  | append j rest ht => exact h.work ht
  | syncCommit j lsn rest ht => exact h.work ht
  | commitFrame j lsn b todo f rest ht hm hin => exact h.work ht
  | commitThrows j lsn b todo rest ht hn =>
    have hl := h.of_eq ht
    exact hl.pass (some .threw) rfl rfl rfl fun _ hu => by cases hu; exact hl.self
  | framesDone j lsn rest ht => exact h.work ht
  | size j full rest ht => exact h.work ht
  | writeBack j rest ht hp => exact h.work ht
  | passed j rest ht hp => exact h.work ht
  | devSync j rest ht => exact h.work ht
  | superblock j rest ht => exact h.work ht
  | reset j rest ht => exact h.work ht
  | lock j checkpointed rest ht hh =>
    have hl := h.of_eq ht
    have hq : s.closed = true ∧ s.running = 0 ∧ s.txnBlocks = [] := hl.self
    have hcm := hl.committing_of_mem (Multiset.mem_cons_self ..) rfl
    refine hl.move (some (.reopen j.caller)) ?_ rfl ?_ (fun _ hu => by cases hu; exact ⟨rfl, hq⟩)
      fun u hu _ => ?_
    · rw [hh]
      rfl
    · rw [hcm]
      rfl
    · -- `m_` was free, and this was the thread that committed
      rw [hh] at hl
      exact Thread.relies_of_idle (hl.not_holds_of_free (Multiset.mem_cons_of_mem hu))
        (hl.not_commits rfl hu)
  | reopen caller rest ht =>
    have hl := h.of_eq ht
    have hq : s.committing = false ∧ s.closed = true ∧ s.running = 0 ∧ s.txnBlocks = [] := hl.self
    obtain ⟨hrh, hrg, hrc⟩ := caller.resume_holds
    refine hl.move caller.resume ?_ ?_ ?_ (fun u hu => ?_) (hl.idle_rest rfl hq.1)
    · rw [hl.held_eq rfl, hrh]
      exact Nat.add_comm ..
    · rw [hrg]
      rfl
    · rw [hrc]
      rfl
    · cases caller <;> cases hu
      · exact hq.1
      · trivial
      · trivial

theorem State.Locks.empty (init : Nat → Block) (durable : Nat) :
    (State.empty init durable).Locks where
  holds := rfl
  gate := rfl
  commits := rfl
  relies := fun t ht => absurd ht (Multiset.notMem_zero t)

end ConcurrentFs.GroupCommit
