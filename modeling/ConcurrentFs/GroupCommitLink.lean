/-
  ConcurrentFs.GroupCommitLink

  The journal drives the cache as the cache asks it to: what it does to it is a run of
  `ConcurrentFs.Cache`, with `commit_frame` only while no modify is under way, and
  with lsns that are synced when frames get them.
-/
import ConcurrentFs.GroupCommitFlags

namespace ConcurrentFs.GroupCommit

open BufferCache (Op Call FrameId Event Image Shape results)
open BufferCache.State

/-- The call it has under way in the cache. -/
def Thread.call : Thread → Option Call
  | modify _ _ _ c => some c
  | work _ (.copy f _) => some (.copy f)
  | _ => none

/-- The lsns it has in hand. -/
def Thread.LsnOk (nextLsn durable : Nat) : Thread → Prop
  | work _ (.syncCommit lsn) => lsn < nextLsn
  | work _ (.frames lsn _) => lsn ≤ durable
  | _ => True

structure Linked (capacity : Nat) (init : Nat → Block) (s : State) : Prop where
  run : BufferCache.Run capacity false init s.cache
  calls : s.cache.calls.filter (ofJournal ·) = s.threads.filterMap Thread.call
  memory : s.cache.count ≤ maxFrames
  durable : s.cache.durable < s.nextLsn
  lsns : ∀ f, (s.cache.frames f).lsn ≤ s.cache.durable
  stages : ∀ t ∈ s.threads, t.LsnOk s.nextLsn s.cache.durable

/-! ## Threads and their calls -/

theorem forall_goes {P : Thread → Prop} {t : Thread} {t' : Option Thread} {rest : Multiset Thread}
    (h : ∀ u ∈ t ::ₘ rest, P u) (ht : ∀ u, t' = some u → P u) : ∀ u ∈ goes t' rest, P u := by
  intro u hu
  rcases mem_goes.mp hu with hu | hu
  · exact ht u hu
  · exact h u (Multiset.mem_cons_of_mem hu)

theorem filterMap_goes (t : Option Thread) (rest : Multiset Thread) :
    (goes t rest).filterMap Thread.call =
      ((t.bind Thread.call).map (· ::ₘ rest.filterMap Thread.call)).getD
      (rest.filterMap Thread.call) := by
  cases t with
  | none => rfl
  | some t =>
    rw [goes, Option.bind_some]
    cases hc : t.call with
    | none => rw [Multiset.filterMap_cons_none _ _ hc, Option.map_none, Option.getD_none]
    | some c => rw [Multiset.filterMap_cons_some _ _ _ hc, Option.map_some, Option.getD_some]

theorem Thread.LsnOk.mono {t : Thread} {nextLsn durable nextLsn' durable' : Nat}
    (h : t.LsnOk nextLsn durable) (hn : nextLsn ≤ nextLsn') (hd : durable ≤ durable') :
    t.LsnOk nextLsn' durable' := by
  cases t with
  | work j st =>
    cases st with
    | syncCommit lsn => exact Nat.lt_of_lt_of_le h hn
    | frames lsn todo => exact Nat.le_trans h hd
    | _ => trivial
  | _ => trivial

namespace Linked

variable {capacity : Nat} {init : Nat → Block} {s : State} {t : Thread} {rest : Multiset Thread}

/-- A thread goes on beside the cache. -/
theorem pass (h : Linked capacity init s) (ht : s.threads = t ::ₘ rest) (t' : Option Thread)
    (s' : State) (hcache : s'.cache = s.cache) (hlsn : s.nextLsn ≤ s'.nextLsn)
    (hthreads : s'.threads = goes t' rest) (hcall : t.call = t'.bind Thread.call)
    (hok : ∀ u, t' = some u → u.LsnOk s'.nextLsn s.cache.durable) : Linked capacity init s' where
  run := hcache ▸ h.run
  calls := by
    rw [hcache, h.calls, ht, hthreads, filterMap_goes, ← hcall]
    exact filterMap_goes (some t) rest
  memory := hcache ▸ h.memory
  durable := by
    rw [hcache]
    exact Nat.lt_of_lt_of_le h.durable hlsn
  lsns := hcache ▸ h.lsns
  stages := by
    have hst := h.stages
    rw [ht] at hst
    rw [hthreads, hcache]
    exact forall_goes (fun u hu => (hst u hu).mono hlsn (Nat.le_refl _)) hok

/-- A thread goes on that has no business with the cache. -/
theorem idle (h : Linked capacity init s) (ht : s.threads = t ::ₘ rest) {s' : State}
    (t' : Option Thread) (hthreads : s'.threads = goes t' rest) (hcache : s'.cache = s.cache)
    (hlsn : s'.nextLsn = s.nextLsn) (hcall : t.call = none) (hcall' : t'.bind Thread.call = none)
    (hok : ∀ u, t' = some u → u.LsnOk s.nextLsn s.cache.durable) : Linked capacity init s' :=
  h.pass ht t' s' hcache (Nat.le_of_eq hlsn.symm) hthreads (hcall.trans hcall'.symm)
  (by rw [hlsn]; exact hok)

/-- A thread goes on, and its call in the cache with it. -/
theorem drive (h : Linked capacity init s) (ht : s.threads = t ::ₘ rest) (t' : Option Thread)
    (s' : State) (hlsn : s.nextLsn ≤ s'.nextLsn) (hthreads : s'.threads = goes t' rest)
    (hstep : BufferCache.Step capacity false s.cache s'.cache) (hmem : s'.cache.count ≤ maxFrames)
    (hdurable : s.cache.durable ≤ s'.cache.durable ∧ s'.cache.durable < s'.nextLsn)
    (hlsns : ∀ f, (s'.cache.frames f).lsn ≤ s'.cache.durable)
    (hcalls : ∀ js, s.cache.calls.filter (ofJournal ·) = (t.call.map (· ::ₘ js)).getD js →
      s'.cache.calls.filter (ofJournal ·) = ((t'.bind Thread.call).map (· ::ₘ js)).getD js)
    (hok : ∀ u, t' = some u → u.LsnOk s'.nextLsn s'.cache.durable) : Linked capacity init s' where
  run := h.run.step hstep
  calls := by
    rw [hthreads, filterMap_goes]
    refine hcalls _ ?_
    rw [h.calls, ht]
    exact filterMap_goes (some t) rest
  memory := hmem
  durable := hdurable.2
  lsns := hlsns
  stages := by
    have hst := h.stages
    rw [ht] at hst
    rw [hthreads]
    exact forall_goes (fun u hu => (hst u hu).mono hlsn hdurable.1) hok

/-- A call of the journal under way in the cache is one of its threads'. -/
theorem thread_of_call (h : Linked capacity init s) {c : Call} (hc : c ∈ s.cache.calls)
    (hj : ofJournal c = true) : ∃ u ∈ s.threads, u.call = some c := by
  have hm : c ∈ s.cache.calls.filter (ofJournal ·) := Multiset.mem_filter.mpr ⟨hc, hj⟩
  rw [h.calls] at hm
  exact (Multiset.mem_filterMap _ _).mp hm

/-- With no operation in the gate no modify is under way. -/
theorem no_modify (h : Linked capacity init s) (hl : s.Locks) (hr : s.running = 0) :
    ∀ c ∈ s.cache.calls, c.inTxn = false ∧ ∀ inTxn f, c ≠ .finish inTxn f := by
  intro c hc
  by_cases hj : ofJournal c = true
  · obtain ⟨u, hu, huc⟩ := h.thread_of_call hc hj
    have hng : u.inGate = false := by
      rw [State.Locks, hr] at hl
      exact hl.not_inGate hu
    cases u with
    | work j st =>
      cases st with
      | copy f todo =>
        cases huc
        exact ⟨rfl, nofun⟩
      | _ => cases huc
    | modify o b joined c' => cases hng
    | _ => cases huc
  · rw [Bool.not_eq_true] at hj
    refine ⟨?_, ?_⟩
    · cases c with
      | hit op b f => cases op with
        | read => rfl
        | modify fresh inTxn fn => cases hj
      | load op b f => cases op with
        | read => rfl
        | modify fresh inTxn fn => cases hj
      | loaded op b f => cases op with
        | read => rfl
        | modify fresh inTxn fn => cases hj
      | failed op b f => cases op with
        | read => rfl
        | modify fresh inTxn fn => cases hj
      | finish inTxn f => cases hj
      | unpin f => rfl
      | copy f => rfl
    · rintro inTxn f rfl
      cases hj

end Linked

section Calls

variable {c c' : Call} {calls js : Multiset Call}

theorem filter_cons (hc : ofJournal c = true) :
    (c ::ₘ calls).filter (ofJournal ·) = c ::ₘ calls.filter (ofJournal ·) :=
  Multiset.filter_cons_of_pos (p := fun c => ofJournal c = true) calls hc

theorem filter_drop (h : (c ::ₘ calls).filter (ofJournal ·) = c ::ₘ js) :
    ofJournal c = true ∧ calls.filter (ofJournal ·) = js := by
  have hc : ofJournal c = true := by
    have hm : c ∈ (c ::ₘ calls).filter (ofJournal ·) := by
      rw [h]
      exact Multiset.mem_cons_self ..
    exact (Multiset.mem_filter.mp hm).2
  rw [filter_cons hc] at h
  exact ⟨hc, (Multiset.cons_inj_right c).mp h⟩

theorem filter_swap (h : (c ::ₘ calls).filter (ofJournal ·) = c ::ₘ js) (hc : ofJournal c' = true) :
    (c' ::ₘ calls).filter (ofJournal ·) = c' ::ₘ js := by
  rw [filter_cons hc, (filter_drop h).2]

end Calls

theorem lsn_frame {c c' : BufferCache.State} {f : FrameId} {g : BufferCache.Frame}
    (hframes : c'.frames = Function.update c.frames f g) (hg : g.lsn = (c.frames f).lsn) {n : Nat}
    (hn : ∀ f, (c.frames f).lsn ≤ n) (x : FrameId) : (c'.frames x).lsn ≤ n := by
  rw [hframes]
  exact lsn_update hg n hn x

theorem Linked.step {capacity maxTxnBlocks : Nat} {init : Nat → Block} {s s' : State}
    (h : Linked capacity init s) (hl : s.Locks) (hs : Step capacity maxTxnBlocks s s') :
    Linked capacity init s' := by
  have hsh := h.run.shape
  have hd : s.cache.durable ≤ s.cache.durable ∧ s.cache.durable < s.nextLsn :=
    ⟨Nat.le_refl _, h.durable⟩
  have hsync : s.cache.durable ≤ s.nextLsn - 1 ∧ s.nextLsn - 1 < s.nextLsn := by
    have := h.durable
    omega
  cases hs with
  | @background t hb =>
    refine ⟨h.run.step hb.step, ?_, hb.memory, ?_, fun f => ?_, fun u hu => ?_⟩
    · rw [← h.calls]
      exact hb.calls
    · rw [show t.durable = s.cache.durable from hb.durable]
      exact h.durable
    · rw [show t.durable = s.cache.durable from hb.durable]
      exact (hb.quiet h.run h.memory).lsn _ h.lsns f
    · rw [show t.durable = s.cache.durable from hb.durable]
      exact h.stages u hu
  | callBeginOp =>
    exact { h with
      calls := h.calls.trans (filterMap_goes (some .beginLoad) s.threads).symm
      stages := fun u hu => (Multiset.mem_cons.mp hu).elim (fun he => by rw [he]; trivial)
        (h.stages u) }
  | callCommit =>
    exact { h with
      calls := h.calls.trans (filterMap_goes (some (.commitLock s.ended)) s.threads).symm
      stages := fun u hu => (Multiset.mem_cons.mp hu).elim (fun he => by rw [he]; trivial)
        (h.stages u) }
  | callCheckpoint =>
    exact { h with
      calls := h.calls.trans (filterMap_goes (some (.checkpointLock s.ended)) s.threads).symm
      stages := fun u hu => (Multiset.mem_cons.mp hu).elim (fun he => by rw [he]; trivial)
        (h.stages u) }
  | callCommitIfOlder =>
    exact { h with
      calls := h.calls.trans (filterMap_goes (some .olderLock) s.threads).symm
      stages := fun u hu => (Multiset.mem_cons.mp hu).elim (fun he => by rw [he]; trivial)
        (h.stages u) }
  | beginLoad rest ht =>
    exact h.idle ht (some (.beginTry ..)) rfl rfl rfl rfl rfl
      (by rintro _ ⟨⟩; trivial)
  | beginTry closed g rest ht =>
    split
    · exact h.idle ht (some (.beginCas g)) rfl rfl rfl rfl rfl (by rintro _ ⟨⟩; trivial)
    · exact h.idle ht (some .beginLock) rfl rfl rfl rfl rfl (by rintro _ ⟨⟩; trivial)
  | beginCas g rest ht hc hg =>
    exact h.idle ht (some (.op _)) rfl rfl rfl rfl rfl
      (by rintro _ ⟨⟩; trivial)
  | beginCasFails g rest ht =>
    exact h.idle ht (some (.beginTry ..)) rfl rfl rfl rfl rfl (by rintro _ ⟨⟩; trivial)
  | beginLock rest ht hh hc =>
    exact h.idle ht (some .beginGate) rfl rfl rfl rfl rfl
      (by rintro _ ⟨⟩; trivial)
  | beginGate rest ht =>
    split
    · exact h.idle ht (some (.close .beginOp)) rfl rfl rfl rfl rfl (by rintro _ ⟨⟩; trivial)
    · exact h.idle ht (some (.beginRoom _)) rfl rfl rfl rfl rfl (by rintro _ ⟨⟩; trivial)
  | beginRoom g rest ht =>
    split
    · exact h.idle ht (some .beginAdd) rfl rfl rfl rfl rfl (by rintro _ ⟨⟩; trivial)
    · exact h.idle ht (some .beginShut) rfl rfl rfl rfl rfl (by rintro _ ⟨⟩; trivial)
  | beginShut rest ht =>
    exact h.idle ht (some (.close _)) rfl rfl rfl rfl rfl
      (by rintro _ ⟨⟩; trivial)
  | beginAdd rest ht => exact h.idle ht (some (.op _)) rfl rfl rfl rfl rfl (by rintro _ ⟨⟩; trivial)
  | modifyHit o fresh fn b f rest ht hm =>
    refine h.drive ht (some (.modify ..)) _ (Nat.le_refl _) rfl (.hit _ b f hm) h.memory hd
      (lsn_frame rfl (by rfl) h.lsns) (fun js hjs => ?_) (by rintro _ ⟨⟩; trivial)
    exact (filter_cons rfl).trans (congrArg (_ ::ₘ ·) hjs)
  | @modifyMiss o fresh fn b t f rest ht hm htake hmem =>
    have hstep : BufferCache.Step capacity false s.cache _ := .miss (.modify fresh true fn) b hm
    have htk := hsh.takeFrame capacity (shardFor b)
    have hpd := pass_takeFrame s.cache capacity (shardFor b)
    have hlsn := lsn_takeFrame hsh capacity (shardFor b) _ h.lsns
    rw [htake] at hstep htk hpd hlsn
    refine h.drive ht (some (.modify ..)) _ (Nat.le_refl _) rfl hstep hmem ?_ (fun x => ?_)
      (fun js hjs => ?_) (by rintro _ ⟨⟩; trivial)
    · exact hpd.2.symm ▸ hd
    · show _ ≤ t.durable
      rw [hpd.2]
      exact lsn_acquireMiss hlsn x
    · refine (filter_cons rfl).trans (congrArg (_ ::ₘ ·) ?_)
      rw [htk.calls]
      exact hjs
  | modifyLoad o b joined op f calls rest ht hm =>
    refine h.drive ht (some (.modify o b joined (.loaded op b f))) _ (Nat.le_refl _) rfl
      (.load op b f calls hm) h.memory hd (lsn_frame rfl (by rfl) h.lsns) (fun js hjs => ?_)
      (by rintro _ ⟨⟩; trivial)
    rw [hm] at hjs
    refine filter_swap hjs ?_
    have := (filter_drop hjs).1
    cases op with
    | read => cases this
    | modify => rfl
  | modifyBytes o b joined fresh fn f calls rest ht hm hlk hlf =>
    refine h.drive ht (some (.modify ..)) _ (Nat.le_refl _) rfl
      (.modifyHit fresh true fn b f calls hm hlk hlf) h.memory hd (lsn_frame rfl (by rfl) h.lsns)
      (fun js hjs => ?_) (by rintro _ ⟨⟩; trivial)
    rw [hm] at hjs
    exact filter_swap hjs rfl
  | modifyLoaded o b joined fresh fn f calls rest ht hm =>
    refine h.drive ht (some (.modify ..)) _ (Nat.le_refl _) rfl
      (.modifyLoaded fresh true fn b f calls hm) h.memory hd (lsn_frame rfl (by rfl) h.lsns)
      (fun js hjs => ?_) (by rintro _ ⟨⟩; trivial)
    rw [hm] at hjs
    exact filter_swap hjs rfl
  | modifyFinish o b joined f calls rest ht hm =>
    have hstep : BufferCache.Step capacity false s.cache _ := .finishModify true f calls hm
    have hcalls : ∀ js, s.cache.calls.filter (ofJournal ·) = Call.finish true f ::ₘ js →
        calls.filter (ofJournal ·) = js := fun js hjs => (filter_drop (hm ▸ hjs)).2
    show Linked capacity init { s with
      cache := { s.cache.finishModify f true with calls := calls }
      threads := (if joined then Thread.addLock o b else .op o) ::ₘ rest }
    split
    · exact h.drive ht (some (.addLock o b)) _ (Nat.le_refl _) rfl hstep h.memory hd
        (lsn_frame rfl (by rfl) h.lsns) hcalls (by rintro _ ⟨⟩; trivial)
    · exact h.drive ht (some (.op o)) _ (Nat.le_refl _) rfl hstep h.memory hd
        (lsn_frame rfl (by rfl) h.lsns) hcalls (by rintro _ ⟨⟩; trivial)
  | addOld o b rest ht hh hb =>
    exact h.idle ht (some (.op o)) rfl rfl rfl rfl rfl
      (by rintro _ ⟨⟩; trivial)
  | addNew o b rest ht hh hb =>
    exact h.idle ht (some (.addStore o)) rfl rfl rfl rfl rfl (by rintro _ ⟨⟩; trivial)
  | addStore o rest ht =>
    exact h.idle ht (some (.op o)) rfl rfl rfl rfl rfl
      (by rintro _ ⟨⟩; trivial)
  | endCount o rest ht =>
    exact h.idle ht (some .endLeave) rfl rfl rfl rfl rfl
      (by rintro _ ⟨⟩; trivial)
  | endLeave rest ht =>
    refine h.idle ht _ rfl rfl rfl rfl ?_ ?_
    · split
      · rfl
      · split <;> rfl
    · split
      · exact nofun
      · split <;> (rintro _ ⟨⟩; trivial)
  | endFull rest ht =>
    refine h.idle ht _ rfl rfl rfl rfl ?_ ?_
    · split <;> rfl
    · split
      · exact nofun
      · rintro _ ⟨⟩
        trivial
  | endLock rest ht hh =>
    refine h.idle ht _ rfl rfl rfl rfl ?_ ?_
    · split <;> rfl
    · split
      · exact nofun
      · rintro _ ⟨⟩
        trivial
  | endGate rest go ht hgo =>
    refine h.idle ht _ rfl rfl rfl rfl ?_ ?_
    · split <;> rfl
    · split
      · rintro _ ⟨⟩
        trivial
      · exact nofun
  | commitLock before rest ht hh =>
    exact h.idle ht (some (.commitLoop ..)) rfl rfl rfl rfl rfl (by rintro _ ⟨⟩; trivial)
  | commitReturns before target rest ht hle =>
    exact h.idle ht (some (.commitDone before)) rfl rfl rfl rfl rfl (by rintro _ ⟨⟩; trivial)
  | commitLoop before target rest ht hlt =>
    refine h.idle ht (some _) rfl rfl rfl rfl ?_ ?_
    · split <;> rfl
    · split <;> (rintro _ ⟨⟩; trivial)
  | commitWait before target rest ht hh =>
    exact h.idle ht (some (.commitLoop ..)) rfl rfl rfl rfl rfl (by rintro _ ⟨⟩; trivial)
  | checkpointLock before rest ht hh =>
    exact h.idle ht (some (.checkpointLoop ..)) rfl rfl rfl rfl rfl (by rintro _ ⟨⟩; trivial)
  | checkpointReturns before target rest ht hle =>
    exact h.idle ht (some (.checkpointDone before)) rfl rfl rfl rfl rfl (by rintro _ ⟨⟩; trivial)
  | checkpointLoop before target rest ht hlt =>
    refine h.idle ht (some _) rfl rfl rfl rfl ?_ ?_
    · split <;> rfl
    · split <;> (rintro _ ⟨⟩; trivial)
  | checkpointWait before target rest ht hh =>
    exact h.idle ht (some (.checkpointLoop ..)) rfl rfl rfl rfl rfl (by rintro _ ⟨⟩; trivial)
  | olderReturns rest ht hh => exact h.idle ht none rfl rfl rfl rfl rfl nofun
  | olderLock rest ht hh hc hb =>
    exact h.idle ht (some (.close _)) rfl rfl rfl rfl rfl
      (by rintro _ ⟨⟩; trivial)
  | closeBusy caller rest ht hr =>
    refine h.idle ht caller.wait rfl rfl rfl rfl ?_ ?_
    · cases caller <;> rfl
    · cases caller <;> (rintro _ ⟨⟩; try trivial)
  | close caller rest ht hr =>
    exact h.idle ht (some (.take _)) rfl rfl rfl rfl rfl
      (by rintro _ ⟨⟩; trivial)
  | take caller rest ht =>
    exact h.idle ht (some (.count _)) rfl rfl rfl rfl rfl
      (by rintro _ ⟨⟩; trivial)
  | count j rest ht =>
    exact h.idle ht (some (.cover _)) rfl rfl rfl rfl rfl
      (by rintro _ ⟨⟩; trivial)
  | cover j rest ht =>
    exact h.idle ht (some (.work _ .begin)) rfl rfl rfl rfl rfl
      (by rintro _ ⟨⟩; trivial)
  | beginRecord j rest ht =>
    refine h.pass ht (some _) _ rfl (Nat.le_add_right ..) rfl ?_ ?_
    · split <;> rfl
    · split <;> (rintro _ ⟨⟩; trivial)
  | copyTxnFrame j b todo f rest ht hm hin =>
    refine h.drive ht (some (.work j (.copy f todo))) _ (Nat.le_refl _) rfl
      (.copyTxnFrame b f hm hin)
      h.memory hd (lsn_frame rfl (by rfl) h.lsns) (fun js hjs => ?_) (by rintro _ ⟨⟩; trivial)
    exact (filter_cons rfl).trans (congrArg (_ ::ₘ ·) hjs)
  | copyThrows j b todo rest ht hn =>
    exact h.idle ht (some .threw) rfl rfl rfl rfl rfl
      (by rintro _ ⟨⟩; trivial)
  | copied j f todo calls rest ht hc hlk =>
    refine h.drive ht (some (.work j (.block todo))) _ (Nat.le_succ _) rfl (.copied f calls hc hlk)
      h.memory ⟨hd.1, Nat.lt_succ_of_lt hd.2⟩ h.lsns (fun js hjs => ?_) (by rintro _ ⟨⟩; trivial)
    rw [hc] at hjs
    refine Eq.trans ?_ (filter_drop hjs).2
    exact Multiset.filter_cons_of_neg (p := fun c => ofJournal c = true) calls nofun
  | staged j rest ht =>
    exact h.idle ht (some (.work j .sync)) rfl rfl rfl rfl rfl
      (by rintro _ ⟨⟩; trivial)
  | sync j rest ht =>
    exact h.drive ht (some (.work j .append)) _ (Nat.le_refl _) rfl (.durable _ hsync.1)
      h.memory hsync
      (fun f => Nat.le_trans (h.lsns f) hsync.1) (fun _ => id) (by rintro _ ⟨⟩; trivial)
  | append j rest ht =>
    refine h.pass ht (some (.work j (.syncCommit s.nextLsn))) _ rfl (Nat.le_succ _) rfl rfl ?_
    rintro _ ⟨⟩
    exact Nat.lt_succ_self s.nextLsn
  | syncCommit j lsn rest ht =>
    have hlt : lsn < s.nextLsn := h.stages (.work j (.syncCommit lsn))
      (by rw [ht]; exact Multiset.mem_cons_self ..)
    refine h.drive ht (some (.work j (.frames lsn j.blocks))) _ (Nat.le_refl _) rfl
      (.durable _ hsync.1)
      h.memory hsync (fun f => Nat.le_trans (h.lsns f) hsync.1) (fun _ => id) ?_
    rintro _ ⟨⟩
    exact Nat.le_sub_one_of_lt hlt
  | commitFrame j lsn b todo f rest ht hm hin =>
    have hlsn : lsn ≤ s.cache.durable :=
      h.stages (.work j (.frames lsn (b :: todo))) (by rw [ht]; exact Multiset.mem_cons_self ..)
    have hq := (hl.of_eq ht).self.quiet rfl
    have hno := h.no_modify hl hq.2.1
    refine h.drive ht (some (.work j (.frames lsn todo))) _ (Nat.le_refl _) rfl
      (.commitFrame b f lsn hm hin fun c hc => (hno c hc).1) h.memory hd (fun x => ?_)
      (fun _ => id) ?_
    · show (Function.update s.cache.frames f _ x).lsn ≤ _
      by_cases hx : x = f
      · rw [hx, Function.update_self]
        exact hlsn
      · rw [Function.update_of_ne hx]
        exact h.lsns x
    · rintro _ ⟨⟩
      exact hlsn
  | commitThrows j lsn b todo rest ht hn =>
    exact h.idle ht (some .threw) rfl rfl rfl rfl rfl (by rintro _ ⟨⟩; trivial)
  | framesDone j lsn rest ht =>
    exact h.idle ht (some (.work j .size)) rfl rfl rfl rfl rfl (by rintro _ ⟨⟩; trivial)
  | size j full rest ht =>
    refine h.idle ht (some _) rfl rfl rfl rfl ?_ ?_
    · split <;> rfl
    · split <;> (rintro _ ⟨⟩; trivial)
  | writeBack j rest ht hp =>
    exact h.drive ht (some (.work j .pass)) _ (Nat.le_refl _) rfl
      (.passStart sizeMax hp) h.memory hd
      h.lsns (fun _ => id) (by rintro _ ⟨⟩; trivial)
  | passed j rest ht hp =>
    exact h.idle ht (some (.work j .devSync)) rfl rfl rfl rfl rfl
      (by rintro _ ⟨⟩; trivial)
  | devSync j rest ht =>
    exact h.idle ht (some (.work j .superblock)) rfl rfl rfl rfl rfl (by rintro _ ⟨⟩; trivial)
  | superblock j rest ht =>
    exact h.idle ht (some (.work j .reset)) rfl rfl rfl rfl rfl
      (by rintro _ ⟨⟩; trivial)
  | reset j rest ht =>
    exact h.drive ht (some (.work j (.lock true))) _ (Nat.le_refl _) rfl
      (.durable _ hsync.1) h.memory
      hsync (fun f => Nat.le_trans (h.lsns f) hsync.1) (fun _ => id) (by rintro _ ⟨⟩; trivial)
  | lock j checkpointed rest ht hh =>
    exact h.idle ht (some (.reopen _)) rfl rfl rfl rfl rfl (by rintro _ ⟨⟩; trivial)
  | reopen caller rest ht =>
    refine h.idle ht caller.resume rfl rfl rfl rfl ?_ ?_
    · cases caller <;> rfl
    · cases caller <;> (rintro _ ⟨⟩; try trivial)

theorem Linked.empty (capacity : Nat) (init : Nat → Block) (durable : Nat) :
    Linked capacity init (.empty init durable) where
  run := .empty durable
  calls := rfl
  memory := Nat.zero_le _
  durable := Nat.lt_succ_self durable
  lsns := fun _ => Nat.zero_le _
  stages := fun t ht => absurd ht (Multiset.notMem_zero t)

end ConcurrentFs.GroupCommit
