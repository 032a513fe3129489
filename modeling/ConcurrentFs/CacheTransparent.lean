/-
  ConcurrentFs.CacheTransparent

  The cache is transparent while the device works: every read and modify sees what
  the last modify of its block left, a frame that is clean and at rest holds what
  the device holds, and `dirty_count_` counts the dirty frames.

  `results` says what each block should hold.  The bytes of a mapped frame that is
  not being loaded are always those; the device has them too unless the frame is
  dirty, in the transaction, or has been changed by a modify that has not reached
  `finish_modify`.  A pass that writes an old copy does so to a frame that is dirty
  until the pass marks it, and it marks it clean only if no version went by.
-/
import ConcurrentFs.CacheInv
import Mathlib.Algebra.BigOperators.Group.Finset.Piecewise

namespace ConcurrentFs.BufferCache

open Lib State

/-! ## What every block should hold -/

/-- What the blocks hold after one more event. -/
def Event.result (spec : Nat → Block) : Event → Nat → Block
  | .modify b _ _ _ after => Function.update spec b after
  | _ => spec

/-- The result of the last modify of each block, from what the device held at first. -/
def results (init : Nat → Block) (tr : List Event) : Nat → Block := tr.foldl Event.result init

theorem results_concat (init : Nat → Block) (tr : List Event) (e : Event) :
    results init (tr ++ [e]) = e.result (results init tr) := by
  rw [results, List.foldl_append]
  rfl

/-- A read or modify saw what it should. -/
def Event.Sees (spec : Nat → Block) : Event → Prop
  | .read b saw => saw = spec b
  | .modify b fresh _ saw _ => saw = if fresh then Bytes.zero 4096 else spec b
  | _ => True

def Saw (init : Nat → Block) (tr : List Event) : Prop :=
  ∀ pre e post, tr = pre ++ e :: post → e.Sees (results init pre)

theorem Saw.concat {init : Nat → Block} {tr : List Event} {e : Event} (h : Saw init tr)
    (he : e.Sees (results init tr)) : Saw init (tr ++ [e]) := by
  intro pre x post hx
  cases post using List.reverseRecOn with
  | nil =>
    obtain ⟨rfl, hxe⟩ := List.append_inj' hx rfl
    cases hxe
    exact he
  | append_singleton post y =>
    rw [← List.cons_append, ← List.append_assoc] at hx
    exact h pre x post (List.append_inj' hx rfl).1

/-- The device writes of a run leave what the blocks should hold as it is. -/
theorem results_device (init : Nat → Block) (tr : List Event) (ws : List (Nat × Image)) (d : Nat) :
    results init (tr ++ ws.map fun w => .device w.1 w.2 d) = results init tr := by
  induction ws generalizing tr with
  | nil => rw [List.map_nil, List.append_nil]
  | cons w ws ih =>
    rw [List.map_cons, ← List.singleton_append, ← List.append_assoc, ih, results_concat]
    rfl

theorem Saw.device {init : Nat → Block} {tr : List Event} (h : Saw init tr)
    (ws : List (Nat × Image)) (d : Nat) : Saw init (tr ++ ws.map fun w => .device w.1 w.2 d) := by
  induction ws generalizing tr with
  | nil => rwa [List.map_nil, List.append_nil]
  | cons w ws ih =>
    rw [List.map_cons, ← List.singleton_append, ← List.append_assoc]
    exact ih (h.concat trivial)

/-! ## The parts of the invariant -/

/-- No load has failed, and only a frame that is in use is dirty. -/
structure Frame.Alive (g : Frame) : Prop where
  loadFailed : g.loadFailed = false
  mapped : g.dirty = true → g.mapped = true
  unlocked : g.dirty = true → g.locked = false

/-- A frame joins the transaction while it is being loaded only for a call still on its way. -/
def Joined (frames : FrameId → Frame) (calls : Multiset Call) : Prop :=
  ∀ f, (frames f).locked = true → (frames f).inTxn = true →
    ∃ c ∈ calls, c.frame = f ∧ c.inTxn = true

/-- The device should have this frame's bytes. -/
def Frame.Clean (g : Frame) (f : FrameId) (calls : Multiset Call) : Prop :=
  g.locked = true ∨ g.dirty = false ∧ g.inTxn = false ∧ Call.finish false f ∉ calls

/-- The bytes of a frame against `spec`. -/
structure Current (spec : Nat → Block) (disk : Nat → Image) (calls : Multiset Call) (f : FrameId)
    (g : Frame) : Prop where
  data : g.locked = false → g.data.bytes = spec g.blockNo
  disk : g.Clean f calls → (disk g.blockNo).bytes = spec g.blockNo

/-- Every copy of every block against `spec`. -/
structure Coherent (spec : Nat → Block) (frames : FrameId → Frame) (map : Nat → Option FrameId)
    (calls : Multiset Call) (disk : Nat → Image) : Prop where
  cached : ∀ f, (frames f).mapped = true → Current spec disk calls f (frames f)
  loaded : ∀ op b f, Call.loaded op b f ∈ calls →
    (frames f).data.bytes = if op.fresh then Bytes.zero 4096 else spec b
  unmapped : ∀ b, map b = none → (disk b).bytes = spec b

/-- The copies a pass holds. -/
def Pass.copies (p : Pass) : List (Pick × Image) :=
  match p.at_ with
  | .check q img => p.run ++ [(q, img)]
  | .mark todo _ => todo
  | .unwind _ => []
  | _ => p.run

/-- A copy is the newest unless the frame was changed since it was picked. -/
def CopyOk (spec : Nat → Block) (g : Frame) (calls : Multiset Call) (c : Pick × Image) : Prop :=
  g.version = c.1.version → (∀ inTxn, Call.finish inTxn c.1.f ∉ calls) →
  c.2.bytes = spec c.1.blockNo

/-- What a pass knows of the frames it holds. -/
structure Holding (spec : Nat → Block) (frames : FrameId → Frame) (calls : Multiset Call)
    (disk : Nat → Image) (p : Pass) : Prop where
  nodup : (p.held.map Pick.f).Nodup
  picking : ∀ i, p.at_ = .pick i → p.run = [] ∧ ∀ q ∈ p.picks, shardFor q.blockNo < i
  dirty : ∀ q ∈ p.held, (frames q.f).dirty = true ∧ q.version ≤ (frames q.f).version
  copies : ∀ c ∈ p.copies, CopyOk spec (frames c.1.f) calls c
  marked : ∀ todo next, p.at_ = .mark todo next →
    ∀ c ∈ todo, (disk c.1.blockNo).bytes = c.2.bytes

/-- How many of the frames are dirty. -/
def dirtyFrames (frames : FrameId → Frame) (count : Nat) : Nat :=
  ((Finset.range count).filter fun f => (frames f).dirty = true).card

structure Transparent (init : Nat → Block) (s : State) : Prop where
  alive : ∀ f, (s.frames f).Alive
  joined : Joined s.frames s.calls
  coherent : Coherent (results init s.trace) s.frames s.map s.calls s.disk
  holding : ∀ p, s.pass = some p → Holding (results init s.trace) s.frames s.calls s.disk p
  counted : s.dirtyCount = dirtyFrames s.frames s.count
  saw : Saw init s.trace

theorem Pass.mem_held_of_copies {p : Pass} {c : Pick × Image} (hc : c ∈ p.copies) :
    c.1 ∈ p.held := by
  rw [Pass.copies] at hc
  rw [Pass.held]
  have hrun : c ∈ p.run → c.1 ∈ p.run.map Prod.fst := fun h => List.mem_map_of_mem h
  cases hat : p.at_ with
  | pick i =>
    rw [hat] at hc
    exact List.mem_append_left _ (hrun hc)
  | loop =>
    rw [hat] at hc
    exact List.mem_append_left _ (hrun hc)
  | copy q =>
    rw [hat] at hc
    exact List.mem_append_left _ (hrun hc)
  | check q img =>
    rw [hat] at hc
    rcases List.mem_append.mp hc with hc | hc
    · exact List.mem_append_left _ (hrun hc)
    · rw [List.mem_singleton.mp hc]
      exact List.mem_append_right _ (List.mem_cons_self ..)
  | write next =>
    rw [hat] at hc
    exact List.mem_append_left _ (List.mem_append_left _ (hrun hc))
  | mark todo next =>
    rw [hat] at hc
    exact List.mem_append_left _ (List.mem_append_left _ (List.mem_map_of_mem hc))
  | drop q =>
    rw [hat] at hc
    exact List.mem_append_left _ (hrun hc)
  | unwind todo =>
    rw [hat] at hc
    cases hc

/-! ## One frame changes -/

/-- The calls on other frames stay. -/
def SameBut (f : FrameId) (calls calls' : Multiset Call) : Prop :=
  ∀ c, c.frame ≠ f → (c ∈ calls' ↔ c ∈ calls)

theorem SameBut.refl (f : FrameId) (calls : Multiset Call) : SameBut f calls calls :=
  fun _ _ => .rfl

theorem SameBut.cons {f : FrameId} (c : Call) (hc : c.frame = f) (calls : Multiset Call) :
    SameBut f calls (c ::ₘ calls) := by
  intro d hd
  rw [Multiset.mem_cons]
  refine ⟨fun h => h.resolve_left ?_, Or.inr⟩
  rintro rfl
  exact hd hc

theorem SameBut.uncons {f : FrameId} (c : Call) (hc : c.frame = f) (rest : Multiset Call) :
    SameBut f (c ::ₘ rest) rest := fun d hd => (SameBut.cons c hc rest d hd).symm

theorem SameBut.recall {f : FrameId} (c c' : Call) (hc : c.frame = f) (hc' : c'.frame = f)
    (rest : Multiset Call) : SameBut f (c ::ₘ rest) (c' ::ₘ rest) :=
  fun d hd => (SameBut.cons c' hc' rest d hd).trans (SameBut.cons c hc rest d hd).symm

section Frames

variable {spec : Nat → Block} {frames : FrameId → Frame} {map : Nat → Option FrameId}
  {calls calls' : Multiset Call} {disk : Nat → Image} {f : FrameId} {g : Frame}

theorem Joined.frame (h : Joined frames calls) (hs : SameBut f calls calls')
    (hj : g.locked = true → g.inTxn = true → ∃ c ∈ calls', c.frame = f ∧ c.inTxn = true) :
    Joined (Function.update frames f g) calls' := by
  intro x hl ht
  by_cases hx : x = f
  · rw [hx, Function.update_self] at hl ht
    rw [hx]
    exact hj hl ht
  · rw [Function.update_of_ne hx] at hl ht
    obtain ⟨c, hc, hcx, hct⟩ := h x hl ht
    exact ⟨c, (hs c (by rw [hcx]; exact hx)).mpr hc, hcx, hct⟩

theorem Current.other {x : FrameId} (h : Current spec disk calls x g) (hs : SameBut f calls calls')
    (hx : x ≠ f) : Current spec disk calls' x g where
  data := h.data
  disk := fun hc => h.disk (hc.imp id fun ⟨hd, ht, hm⟩ =>
    ⟨hd, ht, fun hm' => hm ((hs (.finish false x) hx).mpr hm')⟩)

theorem Coherent.frame (h : Coherent spec frames map calls disk) (hs : SameBut f calls calls')
    (hg : g.mapped = true → Current spec disk calls' f g)
    (hl : ∀ op b, .loaded op b f ∈ calls' →
      g.data.bytes = if op.fresh then Bytes.zero 4096 else spec b) :
    Coherent spec (Function.update frames f g) map calls' disk where
  cached := by
    intro x hm
    by_cases hx : x = f
    · rw [hx, Function.update_self] at hm ⊢
      exact hg hm
    · rw [Function.update_of_ne hx] at hm ⊢
      exact (h.cached x hm).other hs hx
  loaded := by
    intro op b x hc
    by_cases hx : x = f
    · rw [hx] at hc
      rw [hx, Function.update_self]
      exact hl op b hc
    · rw [Function.update_of_ne hx]
      exact h.loaded op b x ((hs (.loaded op b x) hx).mp hc)
  unmapped := h.unmapped

theorem CopyOk.frame {c : Pick × Image} (h : CopyOk spec (frames c.1.f) calls c)
    (hs : SameBut f calls calls') (hver : c.1.version ≤ (frames c.1.f).version)
    (hv : c.1.f = f → (frames f).version ≤ g.version)
    (hfin : g.version = (frames f).version → (∀ inTxn, Call.finish inTxn f ∉ calls') →
      ∀ inTxn, Call.finish inTxn f ∉ calls) :
    CopyOk spec (Function.update frames f g c.1.f) calls' c := by
  intro hvc hno
  by_cases hc : c.1.f = f
  · rw [hc, Function.update_self] at hvc
    rw [hc] at hver hno
    rw [CopyOk, hc] at h
    have := hv hc
    exact h (by omega) (hfin (by omega) hno)
  · rw [Function.update_of_ne hc] at hvc
    exact h hvc fun inTxn hm => hno inTxn ((hs (.finish inTxn c.1.f) hc).mpr hm)

theorem Holding.frame {p : Pass} (h : Holding spec frames calls disk p)
    (hs : SameBut f calls calls')
    (hq : ∀ q ∈ p.held, q.f = f → g.dirty = true ∧ (frames f).version ≤ g.version)
    (hfin : g.version = (frames f).version → (∀ inTxn, Call.finish inTxn f ∉ calls') →
      ∀ inTxn, Call.finish inTxn f ∉ calls) :
    Holding spec (Function.update frames f g) calls' disk p :=
  { h with
    dirty := by
      intro q hm
      obtain ⟨hd, hv⟩ := h.dirty q hm
      by_cases hx : q.f = f
      · obtain ⟨hd', hv'⟩ := hq q hm hx
        rw [hx] at hv
        rw [hx, Function.update_self]
        exact ⟨hd', Nat.le_trans hv hv'⟩
      · rw [Function.update_of_ne hx]
        exact ⟨hd, hv⟩
    copies := fun c hc =>
      have hm := Pass.mem_held_of_copies hc
      (h.copies c hc).frame hs (h.dirty _ hm).2 (fun he => (hq _ hm he).2) hfin }

/-- Two sums of functions that differ at one place. -/
theorem sum_add_of_agree {ι : Type} [DecidableEq ι] {s : Finset ι} {v w : ι → Nat} {i : ι}
    (hi : i ∈ s) (h : ∀ j, j ≠ i → v j = w j) : ∑ j ∈ s, v j + w i = ∑ j ∈ s, w j + v i := by
  have hrest : ∑ j ∈ s.erase i, v j = ∑ j ∈ s.erase i, w j :=
    Finset.sum_congr rfl fun j hj => h j (Finset.ne_of_mem_erase hj)
  rw [← Finset.add_sum_erase s v hi, ← Finset.add_sum_erase s w hi, hrest]
  omega

theorem dirtyFrames_update (frames : FrameId → Frame) (g : Frame) {count : Nat} (hf : f < count) :
    dirtyFrames (Function.update frames f g) count + (frames f).dirty.toNat =
      dirtyFrames frames count + g.dirty.toNat := by
  have hsum : ∀ fs : FrameId → Frame, dirtyFrames fs count =
      ∑ x ∈ Finset.range count, (fs x).dirty.toNat := by
    intro fs
    rw [dirtyFrames, Finset.card_filter]
    refine Finset.sum_congr rfl fun x _ => ?_
    cases (fs x).dirty <;> rfl
  rw [hsum, hsum]
  have := sum_add_of_agree (v := fun x => (Function.update frames f g x).dirty.toNat)
    (w := fun x => (frames x).dirty.toNat) (Finset.mem_range.mpr hf) fun x hx => by
      rw [Function.update_of_ne hx]
  rwa [Function.update_self] at this

end Frames

/-- What one changed frame must still satisfy: the frame was `g₀`, is `g`, and its calls are now
    `calls`. -/
structure Changed (init : Nat → Block) (s : State) (f : FrameId) (g : Frame)
    (calls : Multiset Call) : Prop where
  alive : g.Alive
  same : SameBut f s.calls calls
  joined : g.locked = true → g.inTxn = true → ∃ c ∈ calls, c.frame = f ∧ c.inTxn = true
  current : g.mapped = true → Current (results init s.trace) s.disk calls f g
  loaded : ∀ op b, .loaded op b f ∈ calls →
    g.data.bytes = if op.fresh then Bytes.zero 4096 else results init s.trace b
  held : ∀ q ∈ s.held, q.f = f → g.dirty = true ∧ (s.frames f).version ≤ g.version
  copies : g.version = (s.frames f).version → (∀ inTxn, Call.finish inTxn f ∉ calls) →
    ∀ inTxn, Call.finish inTxn f ∉ s.calls

namespace Transparent

variable {init : Nat → Block} {s : State}

theorem alive_update (h : ∀ f, (s.frames f).Alive) {f : FrameId} {g : Frame} (hg : g.Alive)
    (x : FrameId) : (Function.update s.frames f g x).Alive := by
  by_cases hx : x = f
  · rw [hx, Function.update_self]
    exact hg
  · rw [Function.update_of_ne hx]
    exact h x

/-- A step that changes one frame, no device block and no pass. -/
theorem frame (h : Transparent init s) {f : FrameId} (g : Frame) {calls : Multiset Call}
    (hf : f < s.count) (lru : Nat → List FrameId) (hc : Changed init s f g calls) {dirtyCount : Nat}
    (hd : dirtyCount + (s.frames f).dirty.toNat = s.dirtyCount + g.dirty.toNat)
    {trace : List Event} (hr : results init trace = results init s.trace) (hsaw : Saw init trace) :
    Transparent init { s with
      frames := Function.update s.frames f g, lru := lru, calls := calls, dirtyCount := dirtyCount
      trace := trace } where
  alive := alive_update h.alive hc.alive
  joined := h.joined.frame hc.same hc.joined
  coherent := by
    rw [hr]
    exact h.coherent.frame hc.same hc.current hc.loaded
  holding := by
    intro p hp
    rw [hr]
    refine (h.holding p hp).frame hc.same (fun q hq => hc.held q ?_) hc.copies
    rw [Shape.held_eq (s := s) hp]
    exact hq
  counted := by
    have := dirtyFrames_update s.frames g hf
    have hcounted := h.counted
    show dirtyCount = dirtyFrames (Function.update s.frames f g) s.count
    omega
  saw := hsaw

/-- A frame that stays as it is but for its pins, its lsn, and joining the transaction. -/
theorem changed_keep (h : Transparent init s) {f : FrameId} (g : Frame) {calls : Multiset Call}
    (hs : SameBut f s.calls calls) (ha : (s.frames f).Alike g) (hdata : g.data = (s.frames f).data)
    (hdirty : g.dirty = (s.frames f).dirty) (hver : g.version = (s.frames f).version)
    (ht : g.inTxn = false → (s.frames f).inTxn = false)
    (hj : g.locked = true → g.inTxn = true → ∃ c ∈ calls, c.frame = f ∧ c.inTxn = true)
    (hl : ∀ op b, .loaded op b f ∈ calls → .loaded op b f ∈ s.calls)
    (hfin : ∀ inTxn, .finish inTxn f ∈ s.calls → .finish inTxn f ∈ calls) :
    Changed init s f g calls where
  alive :=
    { loadFailed := ha.loadFailed.trans (h.alive f).loadFailed
      mapped := fun hd => ha.mapped.trans ((h.alive f).mapped (hdirty ▸ hd))
      unlocked := fun hd => ha.locked.trans ((h.alive f).unlocked (hdirty ▸ hd)) }
  same := hs
  joined := hj
  current := by
    intro hm
    have hold := h.coherent.cached f (ha.mapped ▸ hm)
    refine ⟨fun hlock => ?_, fun hc => ?_⟩
    · rw [hdata, ha.blockNo]
      exact hold.data (ha.locked ▸ hlock)
    · rw [ha.blockNo]
      refine hold.disk (hc.imp (fun hlock => ha.locked ▸ hlock) fun ⟨hd, hin, hno⟩ =>
        ⟨hdirty ▸ hd, ht hin, fun hmem => hno (hfin false hmem)⟩)
  loaded := by
    intro op b hc
    rw [hdata]
    exact h.coherent.loaded op b f (hl op b hc)
  held := by
    intro q hq hqf
    rw [State.held] at hq
    cases hp : s.pass with
    | none =>
      rw [hp] at hq
      cases hq
    | some p =>
      rw [hp] at hq
      have := ((h.holding p hp).dirty q hq).1
      rw [hqf] at this
      exact ⟨hdirty.trans this, Nat.le_of_eq hver.symm⟩
  copies := fun _ hno inTxn hmem => hno inTxn (hfin inTxn hmem)

theorem not_dead (h : Transparent init s) (f : FrameId) : ¬ (s.frames f).Dead := by
  intro hd
  have := hd.1
  rw [(h.alive f).loadFailed] at this
  cases this

theorem dirty_of_held (h : Transparent init s) {q : Pick} (hq : q ∈ s.held) :
    (s.frames q.f).dirty = true ∧ q.version ≤ (s.frames q.f).version := by
  rw [State.held] at hq
  cases hp : s.pass with
  | none =>
    rw [hp] at hq
    cases hq
  | some p =>
    rw [hp] at hq
    exact (h.holding p hp).dirty q hq

/-! Calls on a frame that is mapped already. -/

theorem acquireHit (h : Transparent init s) (hsh : Shape s) {op : Op} {b : Nat} {f : FrameId}
    (hb : s.map b = some f) : Transparent init (s.acquireHit op b f) := by
  obtain ⟨hlt, -, -⟩ := (hsh.place.maps b f).mp hb
  refine h.frame { s.frames f with
      pins := (s.frames f).pins + 1, inTxn := (s.frames f).inTxn || op.inTxn } hlt _
    (h.changed_keep _ (.cons (.hit op b f) rfl s.calls) ⟨rfl, rfl, rfl, rfl⟩ rfl rfl rfl
    (fun hin => (Bool.or_eq_false_iff.mp hin).1) (fun hl hin => ?_) (fun op' b' hc => ?_)
    fun _ hc => Multiset.mem_cons_of_mem hc) rfl rfl h.saw
  · cases hop : op.inTxn with
    | true => exact ⟨_, Multiset.mem_cons_self .., rfl, hop⟩
    | false =>
      replace hin : ((s.frames f).inTxn || op.inTxn) = true := hin
      rw [hop, Bool.or_false] at hin
      obtain ⟨c, hc, hcf⟩ := h.joined f hl hin
      exact ⟨c, Multiset.mem_cons_of_mem hc, hcf⟩
  · rcases Multiset.mem_cons.mp hc with he | hc
    · cases he
    · exact hc

theorem copyTxnFrame (h : Transparent init s) (hsh : Shape s) {b : Nat} {f : FrameId}
    (hb : s.map b = some f) :
    Transparent init { s.setFrame f { s.frames f with pins := (s.frames f).pins + 1 } with
      calls := .copy f ::ₘ s.calls } := by
  obtain ⟨hlt, -, -⟩ := (hsh.place.maps b f).mp hb
  refine h.frame { s.frames f with pins := (s.frames f).pins + 1 } hlt _
    (h.changed_keep _ (.cons (.copy f) rfl s.calls) ⟨rfl, rfl, rfl, rfl⟩ rfl rfl rfl
    id (fun hl hin => ?_) (fun op' b' hc => ?_) fun _ hc =>
    Multiset.mem_cons_of_mem hc) rfl rfl h.saw
  · obtain ⟨c, hc, hcf⟩ := h.joined f hl hin
    exact ⟨c, Multiset.mem_cons_of_mem hc, hcf⟩
  · rcases Multiset.mem_cons.mp hc with he | hc
    · cases he
    · exact hc

theorem mem_rest {c d : Call} {rest : Multiset Call} (hd : d ∈ c ::ₘ rest) (hne : d ≠ c) :
    d ∈ rest := (Multiset.mem_cons.mp hd).resolve_left hne

/-- A call looks at the bytes of a frame that is not being loaded. -/
theorem look (h : Transparent init s) (hsh : Shape s) {c : Call} {rest : Multiset Call}
    (hs : s.calls = c ::ₘ rest) (hfin : ∀ inTxn, c ≠ .finish inTxn c.frame)
    (hl : (s.frames c.frame).locked = false) {trace : List Event}
    (hr : results init trace = results init s.trace) (hsaw : Saw init trace) :
    Transparent init { s with calls := .unpin c.frame ::ₘ rest, trace := trace } := by
  have hlt := (hsh.calls c (by rw [hs]; exact Multiset.mem_cons_self ..)).1
  have hsame : SameBut c.frame s.calls (.unpin c.frame ::ₘ rest) := by
    rw [hs]
    exact .recall c (.unpin c.frame) rfl rfl rest
  have := h.frame (s.frames c.frame) hlt s.lru
    (h.changed_keep _ hsame (.refl _) rfl rfl rfl id ?_ ?_ ?_) rfl hr hsaw
  · rwa [Function.update_eq_self] at this
  · intro hl'
    rw [hl] at hl'
    cases hl'
  · intro op b hc
    rw [hs]
    exact Multiset.mem_cons_of_mem (mem_rest hc nofun)
  · intro inTxn hc
    rw [hs] at hc
    exact Multiset.mem_cons_of_mem (mem_rest hc fun he => hfin inTxn he.symm)

theorem unpin (h : Transparent init s) (hsh : Shape s) {f : FrameId} {rest : Multiset Call}
    (hs : s.calls = .unpin f ::ₘ rest) : Transparent init { s.unpin f with calls := rest } := by
  have hlt := (hsh.calls (.unpin f) (by rw [hs]; exact Multiset.mem_cons_self ..)).1
  have hsame : SameBut f s.calls rest := by
    rw [hs]
    exact .uncons (.unpin f) rfl rest
  refine h.frame { s.frames f with pins := (s.frames f).pins - 1 } hlt _
    (h.changed_keep _ hsame ⟨rfl, rfl, rfl, rfl⟩ rfl rfl rfl id ?_ ?_ ?_) rfl
    rfl h.saw
  · intro hl hin
    obtain ⟨c, hc, hcf, hct⟩ := h.joined f hl hin
    rw [hs] at hc
    refine ⟨c, mem_rest hc ?_, hcf, hct⟩
    rintro rfl
    cases hct
  · intro op b hc
    rw [hs]
    exact Multiset.mem_cons_of_mem hc
  · intro inTxn hc
    rw [hs] at hc
    exact mem_rest hc nofun

theorem finishModify (h : Transparent init s) (hsh : Shape s) {inTxn : Bool} {f : FrameId}
    {rest : Multiset Call} (hs : s.calls = .finish inTxn f ::ₘ rest) :
    Transparent init { s.finishModify f inTxn with calls := rest } := by
  obtain ⟨hlt, hm, hl, -, ht⟩ := hsh.calls (.finish inTxn f)
    (by rw [hs]; exact Multiset.mem_cons_self ..)
  replace hm : (s.frames f).mapped = true := hm
  replace hl : (s.frames f).locked = false := hl
  replace ht : inTxn = true → (s.frames f).inTxn = true := ht
  have hsame : SameBut f s.calls rest := by
    rw [hs]
    exact .uncons (.finish inTxn f) rfl rest
  refine h.frame { s.frames f with
      version := (s.frames f).version + 1
      dirty := (s.frames f).dirty || (!inTxn && !(s.frames f).dirty)
      pins := (s.frames f).pins - 1 } hlt _
    { alive := ⟨(h.alive f).loadFailed, fun _ => hm, fun _ => hl⟩
      same := hsame
      joined := fun hl' => ?_
      current := fun _ => ⟨(h.coherent.cached f hm).data, fun hc => ?_⟩
      loaded := fun op b hc => h.coherent.loaded op b f
        (by rw [hs]; exact Multiset.mem_cons_of_mem hc)
      held := fun q hq hqf => ⟨?_, Nat.le_succ _⟩
      copies := fun hv => absurd hv (Nat.succ_ne_self _) } ?_ rfl h.saw
  · replace hl' : (s.frames f).locked = true := hl'
    rw [hl] at hl'
    cases hl'
  · -- the frame is dirty now, or in the transaction
    rcases hc with hc | ⟨hd, hin, -⟩
    · rw [show (s.frames f).locked = true from hc] at hl
      cases hl
    · replace hd : ((s.frames f).dirty || (!inTxn && !(s.frames f).dirty)) = false := hd
      cases inTxn with
      | true =>
        rw [show (s.frames f).inTxn = false from hin] at ht
        cases ht rfl
      | false =>
        cases hdirty : (s.frames f).dirty <;> rw [hdirty] at hd <;> cases hd
  · have := (h.dirty_of_held hq).1
    rw [show q.f = f from hqf] at this
    show ((s.frames f).dirty || _) = true
    rw [this, Bool.true_or]
  · show s.dirtyCount + (if (!inTxn && !(s.frames f).dirty) = true then 1 else 0)
      + (s.frames f).dirty.toNat =
      s.dirtyCount + ((s.frames f).dirty || (!inTxn && !(s.frames f).dirty)).toNat
    cases inTxn <;> cases (s.frames f).dirty <;> rfl

theorem commitFrame (h : Transparent init s) (hsh : Shape s) {b : Nat} {f : FrameId} {lsn : Nat}
    (hb : s.map b = some f) (hin : (s.frames f).inTxn = true)
    (hc : ∀ c ∈ s.calls, c.inTxn = false) :
    Transparent init (s.commitFrame b f lsn) := by
  obtain ⟨hlt, hm, -⟩ := (hsh.place.maps b f).mp hb
  have hl : (s.frames f).locked = false := by
    by_contra hl
    obtain ⟨c, hmem, -, hct⟩ := h.joined f (by simpa using hl) hin
    rw [hc c hmem] at hct
    cases hct
  refine h.frame { s.frames f with
      inTxn := false, lsn := lsn, version := (s.frames f).version + 1, dirty := true } hlt _
    { alive := ⟨(h.alive f).loadFailed, fun _ => hm, fun _ => hl⟩
      same := .refl f s.calls
      joined := nofun
      current := fun _ => ⟨(h.coherent.cached f hm).data, fun hcl => ?_⟩
      loaded := fun op c hcall => h.coherent.loaded op c f hcall
      held := fun _ _ _ => ⟨rfl, Nat.le_succ _⟩
      copies := fun hv => absurd hv (Nat.succ_ne_self _) } ?_ ?_ (h.saw.concat trivial)
  · rcases hcl with hcl | ⟨hd, -⟩
    · rw [show (s.frames f).locked = true from hcl] at hl
      cases hl
    · cases hd
  · show s.dirtyCount + (if (s.frames f).dirty then 0 else 1) + (s.frames f).dirty.toNat
      = s.dirtyCount + 1
    cases (s.frames f).dirty <;> rfl
  · rw [results_concat]
    rfl

/-! The bytes of a frame change. -/

/-- Another mapped frame holds another block. -/
theorem blockNo_ne (hsh : Shape s) {b : Nat} {f x : FrameId} (hb : s.map b = some f)
    (hx : x < s.count) (hm : (s.frames x).mapped = true) (hne : x ≠ f) :
    (s.frames x).blockNo ≠ b := by
  intro he
  have := (hsh.place.maps b x).mpr ⟨hx, hm, he⟩
  rw [hb] at this
  cases this
  exact hne rfl

theorem lt_count (hsh : Shape s) {f : FrameId} (hm : (s.frames f).mapped = true) : f < s.count := by
  by_contra hn
  rw [hsh.place.new f (Nat.not_lt.mp hn)] at hm
  cases hm

theorem change (h : Transparent init s) (hsh : Shape s) {c : Call} {rest : Multiset Call}
    (hs : s.calls = c ::ₘ rest) {b : Nat} (hb : s.map b = some c.frame) {fresh inTxn : Bool}
    {fn : Block → Block} {saw : Image}
    (hsaw : saw.bytes = if fresh then Bytes.zero 4096 else results init s.trace b)
    (ht : inTxn = true → (s.frames c.frame).inTxn = true)
    (hload : ∀ op b, Call.loaded op b c.frame ∉ rest) :
    Transparent init { s.change b c.frame fresh inTxn fn saw with
      calls := .finish inTxn c.frame ::ₘ rest } := by
  obtain ⟨hlt, hm, hbn⟩ := (hsh.place.maps b c.frame).mp hb
  have hsame : SameBut c.frame s.calls (.finish inTxn c.frame ::ₘ rest) := by
    rw [hs]
    exact .recall c (.finish inTxn c.frame) rfl rfl rest
  have hres : results init (s.trace ++ [.modify b fresh inTxn saw.bytes (fn saw.bytes)]) =
      Function.update (results init s.trace) b (fn saw.bytes) := results_concat ..
  have hother : ∀ {x}, x ≠ b → Function.update (results init s.trace) b (fn saw.bytes) x =
      results init s.trace x := fun hx => Function.update_of_ne hx ..
  refine ⟨alive_update h.alive ?_, h.joined.frame hsame nofun, ?_, fun p hp => ?_, ?_,
    h.saw.concat hsaw⟩
  · exact ⟨(h.alive _).loadFailed, fun _ => hm, fun _ => rfl⟩
  · show Coherent (results init (s.trace ++ _)) _ s.map _ s.disk
    rw [hres]
    refine ⟨fun x hx => ?_, fun op b' x hc => ?_, fun b' hb' => ?_⟩
    · by_cases hxf : x = c.frame
      · subst hxf
        show Current _ _ _ _ (Function.update s.frames _ _ _)
        rw [Function.update_self]
        refine ⟨fun _ => ?_, fun hcl => ?_⟩
        · show fn saw.bytes = Function.update (results init s.trace) b (fn saw.bytes)
            (s.frames c.frame).blockNo
          rw [hbn, Function.update_self]
        · -- the modify has not reached `finish_modify`
          rcases hcl with hcl | ⟨-, hin, hno⟩
          · cases hcl
          · cases inTxn with
            | false => exact absurd (Multiset.mem_cons_self ..) hno
            | true =>
              rw [show (s.frames c.frame).inTxn = false from hin] at ht
              cases ht rfl
      · replace hx : (Function.update s.frames c.frame _ x).mapped = true := hx
        rw [Function.update_of_ne hxf] at hx
        show Current _ _ _ _ (Function.update s.frames _ _ _)
        rw [Function.update_of_ne hxf]
        have hold := (h.coherent.cached x hx).other hsame hxf
        have hne := blockNo_ne hsh hb (lt_count hsh hx) hx hxf
        refine ⟨fun hl => ?_, fun hcl => ?_⟩
        · rw [hother hne]
          exact hold.data hl
        · rw [hother hne]
          exact hold.disk hcl
    · have hmem : Call.loaded op b' x ∈ rest := mem_rest hc nofun
      have hxf : x ≠ c.frame := by
        rintro rfl
        exact hload op b' hmem
      have hmem' : Call.loaded op b' x ∈ s.calls := by
        rw [hs]
        exact Multiset.mem_cons_of_mem hmem
      obtain ⟨hxlt, -, hxm, hxb, -⟩ := hsh.calls _ hmem'
      have hne := blockNo_ne hsh hb hxlt hxm hxf
      rw [hxb] at hne
      show (Function.update s.frames c.frame _ x).data.bytes = _
      rw [Function.update_of_ne hxf, hother hne]
      exact h.coherent.loaded op b' x hmem'
    · rw [hother]
      · exact h.coherent.unmapped b' hb'
      · rintro rfl
        rw [hb] at hb'
        cases hb'
  · show Holding (results init (s.trace ++ _)) _ _ s.disk p
    rw [hres]
    have hold : Holding (results init s.trace) (Function.update s.frames c.frame
      { s.frames c.frame with
        data := ⟨fn saw.bytes, saw.mods ++ if inTxn then [s.trace.length] else []⟩,
          locked := false })
        (.finish inTxn c.frame ::ₘ rest) s.disk p := by
      refine (h.holding p hp).frame hsame (fun q hq hqf => ?_) (fun _ hno => ?_)
      · have := ((h.holding p hp).dirty q hq).1
        rw [hqf] at this
        exact ⟨this, Nat.le_refl _⟩
      · exact absurd (Multiset.mem_cons_self ..) (hno inTxn)
    refine { hold with copies := fun k hk hv hno => ?_ }
    have hkf : k.1.f ≠ c.frame := by
      intro he
      refine hno inTxn ?_
      rw [he]
      exact Multiset.mem_cons_self ..
    -- a copy of another frame is a copy of another block
    have hheld : k.1 ∈ s.held := by
      rw [Shape.held_eq (s := s) hp]
      exact Pass.mem_held_of_copies hk
    obtain ⟨hklt, hkm, hkb⟩ := hsh.held k.1 hheld
    have hne := blockNo_ne hsh hb hklt (hkm.resolve_right (h.not_dead _)) hkf
    rw [hkb] at hne
    rw [hother hne]
    exact hold.copies k hk hv hno
  · have := dirtyFrames_update s.frames { s.frames c.frame with
        data := ⟨fn saw.bytes, saw.mods ++ if inTxn then [s.trace.length] else []⟩,
          locked := false } hlt
    exact h.counted.trans (Nat.add_right_cancel this).symm

theorem modifyHit (h : Transparent init s) (hsh : Shape s) {fresh inTxn : Bool}
    {fn : Block → Block} {b : Nat} {f : FrameId} {rest : Multiset Call}
    (hs : s.calls = .hit (.modify fresh inTxn fn) b f ::ₘ rest) (hl : (s.frames f).locked = false) :
    Transparent init { s.change b f fresh inTxn fn (if fresh then .zero else (s.frames f).data) with
      calls := .finish inTxn f ::ₘ rest } := by
  obtain ⟨hlt, hm, ht⟩ := hsh.calls (.hit (.modify fresh inTxn fn) b f)
    (by rw [hs]; exact Multiset.mem_cons_self ..)
  have hmb := hm.resolve_right (h.not_dead _)
  replace ht := fun ho => (ht ho).resolve_right (h.not_dead _)
  refine h.change hsh hs ((hsh.place.maps b f).mpr ⟨hlt, hmb⟩) ?_ ht fun op b' hc => ?_
  · cases fresh with
    | true => rfl
    | false =>
      show (s.frames f).data.bytes = results init s.trace b
      rw [← hmb.2]
      exact (h.coherent.cached f hmb.1).data hl
  · have := (hsh.calls (.loaded op b' f) (by rw [hs]; exact Multiset.mem_cons_of_mem hc)).2.1
    rw [show (s.frames (Call.loaded op b' f).frame).locked = false from hl] at this
    cases this

theorem modifyLoaded (h : Transparent init s) (hsh : Shape s) {fresh inTxn : Bool}
    {fn : Block → Block} {b : Nat} {f : FrameId} {rest : Multiset Call}
    (hs : s.calls = .loaded (.modify fresh inTxn fn) b f ::ₘ rest) :
    Transparent init { s.change b f fresh inTxn fn (s.frames f).data with
      calls := .finish inTxn f ::ₘ rest } := by
  have hmem : Call.loaded (.modify fresh inTxn fn) b f ∈ s.calls := by
    rw [hs]
    exact Multiset.mem_cons_self ..
  obtain ⟨hlt, -, hm, hb, ht, -⟩ := hsh.calls _ hmem
  have hone := hsh.owned
  rw [hs] at hone
  refine h.change hsh hs ((hsh.place.maps b f).mpr ⟨hlt, hm, hb⟩) (h.coherent.loaded _ b f hmem) ht
    fun op b' hc => ?_
  cases hone.unique rfl _ hc rfl

/-! The call that loads. -/

/-- A frame that is being loaded is not held. -/
theorem not_held (h : Transparent init s) {f : FrameId} (hl : (s.frames f).locked = true) :
    ∀ q ∈ s.held, q.f ≠ f := by
  rintro q hq rfl
  have := (h.alive q.f).unlocked (h.dirty_of_held hq).1
  rw [hl] at this
  cases this

theorem load (h : Transparent init s) (hsh : Shape s) {op : Op} {b : Nat} {f : FrameId}
    {rest : Multiset Call} (hs : s.calls = .load op b f ::ₘ rest) :
    Transparent init { s.setFrame f
        { s.frames f with loadFailed := false, data := if op.fresh then .zero else s.disk b } with
      calls := .loaded op b f ::ₘ rest } := by
  obtain ⟨hlt, hl, hm, hb, ht⟩ := hsh.calls (.load op b f)
    (by rw [hs]; exact Multiset.mem_cons_self ..)
  replace hl : (s.frames f).locked = true := hl
  replace hb : (s.frames f).blockNo = b := hb
  have hone := hsh.owned
  rw [hs] at hone
  have hsame : SameBut f s.calls (.loaded op b f ::ₘ rest) := by
    rw [hs]
    exact .recall (.load op b f) (.loaded op b f) rfl rfl rest
  have hdisk := (h.coherent.cached f hm).disk (Or.inl hl)
  refine h.frame { s.frames f with
      loadFailed := false, data := if op.fresh then .zero else s.disk b } hlt _
    { alive := ⟨rfl, (h.alive f).mapped, (h.alive f).unlocked⟩
      same := hsame
      joined := fun _ hin => ?_
      current := fun _ => ⟨fun hl' => ?_, fun _ => hdisk⟩
      loaded := fun op' b' hc => ?_
      held := fun q hq hqf => absurd hqf (h.not_held hl q hq)
      copies := fun _ hno inTxn hc => ?_ } rfl rfl h.saw
  · obtain ⟨c, hc, hcf, hct⟩ := h.joined f hl hin
    rw [hs] at hc
    rcases Multiset.mem_cons.mp hc with rfl | hc
    · exact ⟨_, Multiset.mem_cons_self .., rfl, hct⟩
    · exact ⟨c, Multiset.mem_cons_of_mem hc, hcf, hct⟩
  · rw [show (s.frames f).locked = false from hl'] at hl
    cases hl
  · rcases Multiset.mem_cons.mp hc with he | hc
    · cases he
      show (if op.fresh then Image.zero else s.disk b).bytes = _
      split
      · rfl
      · rw [← hb]
        exact hdisk
    · cases hone.unique rfl _ hc rfl
  · rw [hs] at hc
    exact hno inTxn (Multiset.mem_cons_of_mem (mem_rest hc nofun))

theorem readLoaded (h : Transparent init s) (hsh : Shape s) {b : Nat} {f : FrameId}
    {rest : Multiset Call} (hs : s.calls = .loaded .read b f ::ₘ rest) :
    Transparent init { s.setFrame f { s.frames f with locked := false } with
      calls := .unpin f ::ₘ rest
      trace := s.trace ++ [.read b (s.frames f).data.bytes] } := by
  have hmem : Call.loaded .read b f ∈ s.calls := by
    rw [hs]
    exact Multiset.mem_cons_self ..
  obtain ⟨hlt, hl, hm, hb, -⟩ := hsh.calls _ hmem
  replace hl : (s.frames f).locked = true := hl
  replace hb : (s.frames f).blockNo = b := hb
  have hone := hsh.owned
  rw [hs] at hone
  have hsame : SameBut f s.calls (.unpin f ::ₘ rest) := by
    rw [hs]
    exact .recall (.loaded .read b f) (.unpin f) rfl rfl rest
  have hdata : (s.frames f).data.bytes = results init s.trace b := h.coherent.loaded .read b f hmem
  refine h.frame { s.frames f with locked := false } hlt _
    { alive := ⟨(h.alive f).loadFailed, (h.alive f).mapped, fun _ => rfl⟩
      same := hsame
      joined := nofun
      current := fun _ => ⟨fun _ => ?_, fun _ => (h.coherent.cached f hm).disk (Or.inl hl)⟩
      loaded := fun op' b' hc => ?_
      held := fun q hq hqf => absurd hqf (h.not_held hl q hq)
      copies := fun _ hno inTxn hc => ?_ } rfl ?_ (h.saw.concat hdata)
  · show (s.frames f).data.bytes = results init s.trace (s.frames f).blockNo
    rw [hb]
    exact hdata
  · cases hone.unique rfl _ (mem_rest hc nofun) rfl
  · rw [hs] at hc
    exact hno inTxn (Multiset.mem_cons_of_mem (mem_rest hc nofun))
  · rw [results_concat]
    rfl

/-! Eviction. -/

/-- Blocks of dirty frames are written. -/
theorem write (h : Transparent init s) (hsh : Shape s) (ws : List (Nat × Image))
    (hw : ∀ w ∈ ws, ∃ f, s.map w.1 = some f ∧ (s.frames f).dirty = true)
    (hm : ∀ p todo next, s.pass = some p → p.at_ = .mark todo next →
      ∀ c ∈ todo, c.1.blockNo ∉ ws.map Prod.fst) :
    Transparent init { s with
      disk := applyWrites s.disk ws
      trace := s.trace ++ ws.map fun w => .device w.1 w.2 s.durable } := by
  have hres := results_device init s.trace ws s.durable
  -- no frame that is clean, and no block that is not mapped, is written
  have hout : ∀ b, (∀ f, s.map b = some f → (s.frames f).dirty = false) →
      applyWrites s.disk ws b = s.disk b := by
    intro b hb
    refine applyWrites_of_not_mem _ _ fun hmem => ?_
    obtain ⟨w, hwm, rfl⟩ := List.mem_map.mp hmem
    obtain ⟨f, hf, hd⟩ := hw w hwm
    rw [hb f hf] at hd
    cases hd
  refine ⟨h.alive, h.joined, ?_, fun p hp => ?_, h.counted, h.saw.device ws _⟩
  · show Coherent (results init (s.trace ++ _)) s.frames s.map s.calls _
    rw [hres]
    refine ⟨fun f hfm => ⟨(h.coherent.cached f hfm).data, fun hc => ?_⟩, h.coherent.loaded,
      fun b hb => ?_⟩
    · show (applyWrites s.disk ws _).bytes = _
      rw [hout]
      · exact (h.coherent.cached f hfm).disk hc
      · intro x hx
        have hf := (hsh.place.maps _ f).mpr ⟨lt_count hsh hfm, hfm, rfl⟩
        rw [hf] at hx
        cases hx
        rcases hc with hc | hc
        · by_contra hd
          have := (h.alive f).unlocked (by simpa using hd)
          rw [hc] at this
          cases this
        · exact hc.1
    · show (applyWrites s.disk ws b).bytes = _
      rw [hout]
      · exact h.coherent.unmapped b hb
      · intro x hx
        rw [hb] at hx
        cases hx
  · show Holding (results init (s.trace ++ _)) s.frames s.calls _ p
    rw [hres]
    refine { h.holding p hp with marked := fun todo next hat c hc => ?_ }
    show (applyWrites s.disk ws _).bytes = _
    rw [applyWrites_of_not_mem _ _ (hm p todo next hp hat c hc)]
    exact (h.holding p hp).marked todo next hat c hc

theorem writeVictim (h : Transparent init s) (hsh : Shape s) {f : FrameId} (hs : (s.frames f).Spare)
    (hm : (s.frames f).mapped = true) (hd : (s.frames f).dirty = true) :
    Transparent init (s.writeVictim f) := by
  obtain ⟨hcalls, hheld, -⟩ := hsh.unused hs.pins
  have hlt := lt_count hsh hm
  have hl := (h.alive f).unlocked hd
  have hmap := (hsh.place.maps _ f).mpr ⟨hlt, hm, rfl⟩
  have hw := h.write hsh [((s.frames f).blockNo, (s.frames f).data)] (fun w hw => ?_)
    (fun p todo next hp hat c hc hmem => ?_)
  · refine hw.frame { s.frames f with dirty := false } hlt _
      { alive := ⟨(h.alive f).loadFailed, nofun, nofun⟩
        same := .refl f s.calls
        joined := fun hl' => ?_
        current := fun _ => ⟨(hw.coherent.cached f hm).data, fun _ => ?_⟩
        loaded := fun op b hc => hw.coherent.loaded op b f hc
        held := fun q hq hqf => absurd hqf (hheld q hq)
        copies := fun _ hno => hno } ?_ rfl hw.saw
    · replace hl' : (s.frames f).locked = true := hl'
      rw [hl] at hl'
      cases hl'
    · refine Eq.trans ?_ ((hw.coherent.cached f hm).data hl)
      show (Function.update s.disk (s.frames f).blockNo (s.frames f).data
        (s.frames f).blockNo).bytes = _
      rw [Function.update_self]
    · -- a dirty frame was counted
      have hup := dirtyFrames_update s.frames { s.frames f with dirty := false } hlt
      have hcounted := h.counted
      show s.dirtyCount - 1 + (s.frames f).dirty.toNat = s.dirtyCount + false.toNat
      rw [hd] at hup ⊢
      rw [Bool.toNat_true, Bool.toNat_false] at hup
      rw [Bool.toNat_true, Bool.toNat_false]
      omega
  · rw [List.mem_singleton.mp hw]
    exact ⟨f, hmap, hd⟩
  · have hcm : c.1 ∈ s.held := by
      rw [Shape.held_eq hp]
      refine Pass.mem_held_of_copies ?_
      rw [Pass.copies, hat]
      exact hc
    obtain ⟨hclt, hcok, hcb⟩ := hsh.held c.1 hcm
    refine blockNo_ne hsh hmap hclt (hcok.resolve_right (h.not_dead _)) (hheld c.1 hcm) ?_
    rw [hcb]
    exact List.mem_singleton.mp hmem

theorem unmap (h : Transparent init s) (hsh : Shape s) {f : FrameId} (hs : (s.frames f).Spare)
    (hd : (s.frames f).mapped = true → (s.frames f).dirty = false) :
    Transparent init (s.unmap f) := by
  rw [State.unmap]
  cases hm : (s.frames f).mapped with
  | false => exact h
  | true =>
    obtain ⟨hcalls, hheld, hbusy⟩ := hsh.unused hs.pins
    have hl : (s.frames f).locked = false := by
      rw [Frame.busy, Bool.or_eq_false_iff] at hbusy
      exact hbusy.1
    have hclean : (s.frames f).Clean f s.calls :=
      Or.inr ⟨hd hm, hs.inTxn, fun hc => hcalls _ hc rfl⟩
    have hf := h.frame { s.frames f with mapped := false } (lt_count hsh hm) s.lru
      { alive := ⟨(h.alive f).loadFailed, fun hd' => ?_, (h.alive f).unlocked⟩
        same := .refl f s.calls
        joined := fun hl' => ?_
        current := fun h => by cases h
        loaded := fun op b hc => absurd rfl (hcalls _ hc)
        held := fun q hq hqf => absurd hqf (hheld q hq)
        copies := fun _ hno => hno } rfl rfl h.saw
    · refine { hf with coherent := { hf.coherent with unmapped := fun b hb => ?_ } }
      by_cases hbf : b = (s.frames f).blockNo
      · rw [hbf]
        exact (h.coherent.cached f hm).disk hclean
      · replace hb : Function.update s.map (s.frames f).blockNo none b = none := hb
        rw [Function.update_of_ne hbf] at hb
        exact h.coherent.unmapped b hb
    · rw [show (s.frames f).dirty = true from hd'] at hd
      cases hd hm
    · rw [show (s.frames f).locked = true from hl'] at hl
      cases hl

theorem newFrame (h : Transparent init s) (hsh : Shape s) (i : Nat) :
    Transparent init (s.newFrame i).1 := by
  have hnew : Function.update s.frames s.count .new = s.frames := by
    rw [Function.update_eq_self_iff, hsh.place.new _ (Nat.le_refl _)]
  rw [State.newFrame, hnew]
  refine { h with counted := h.counted.trans ?_ }
  show dirtyFrames s.frames s.count = dirtyFrames s.frames (s.count + 1)
  rw [dirtyFrames, dirtyFrames, Finset.range_add_one, Finset.filter_insert, if_neg]
  rw [hsh.place.new _ (Nat.le_refl _)]
  rintro ⟨⟩

theorem takeFrame (h : Transparent init s) (hsh : Shape s) (capacity i : Nat) :
    Transparent init (s.takeFrame capacity i).1 := by
  rw [State.takeFrame]
  split
  · exact h.newFrame hsh i
  · split
    · rename_i f d hv
      obtain ⟨-, hspare, hclean⟩ := victims_clean (congrArg Prod.fst hv)
      exact h.unmap hsh hspare hclean
    · rename_i f hv
      obtain ⟨hmem, hspare, hm, hd, -⟩ := (victims_dirty (congrArg Prod.snd hv)).resolve_left
        (by rintro ⟨⟩)
      refine (h.writeVictim hsh hspare hm hd).unmap (hsh.writeVictim (lt_count hsh hm))
        ⟨?_, ?_⟩ fun _ => ?_
      · show (Function.update s.frames f _ f).pins = 0
        rw [Function.update_self]
        exact hspare.pins
      · show (Function.update s.frames f _ f).inTxn = false
        rw [Function.update_self]
        exact hspare.inTxn
      · show (Function.update s.frames f _ f).dirty = false
        rw [Function.update_self]
    · exact h.newFrame hsh i

theorem acquireMiss {t : State} (h : Transparent init t) (hsh : Shape t) {op : Op} {b : Nat}
    {f : FrameId} (hlt : f < t.count) (hpins : (t.frames f).pins = 0)
    (hm : (t.frames f).mapped = false) (hb : t.map b = none) :
    Transparent init (t.acquireMiss op b f) := by
  obtain ⟨hcalls, hheld, -⟩ := hsh.unused hpins
  have hd : (t.frames f).dirty = false := by
    by_contra hd
    have := (h.alive f).mapped (by simpa using hd)
    rw [hm] at this
    cases this
  have hf := h.frame { t.frames f with
      blockNo := b, mapped := true, dirty := false, inTxn := op.inTxn, lsn := 0, version := 0,
      pins := 1, locked := true } hlt
      (Function.update t.lru (shardFor b) (f :: (t.lru (shardFor b)).erase f))
    { alive := ⟨(h.alive f).loadFailed, nofun, nofun⟩
      same := .cons (.load op b f) rfl t.calls
      joined := fun _ hin => ⟨_, Multiset.mem_cons_self .., rfl, hin⟩
      current := fun _ => ⟨nofun, fun _ => h.coherent.unmapped b hb⟩
      loaded := fun op' b' hc => absurd rfl (hcalls _ (mem_rest hc nofun))
      held := fun q hq hqf => absurd hqf (hheld q hq)
      copies := fun _ _ _ hc => hcalls _ hc rfl }
    (show t.dirtyCount + _ = t.dirtyCount + _ by rw [hd]) rfl h.saw
  refine { hf with coherent := { hf.coherent with unmapped := fun c hc => ?_ } }
  by_cases hcb : c = b
  · replace hc : Function.update t.map b (some f) c = none := hc
    rw [hcb, Function.update_self] at hc
    cases hc
  · replace hc : Function.update t.map b (some f) c = none := hc
    rw [Function.update_of_ne hcb] at hc
    exact h.coherent.unmapped c hc

/-! Write-back. -/

theorem repass (h : Transparent init s) (p : Option Pass)
    (hp : ∀ q, p = some q → Holding (results init s.trace) s.frames s.calls s.disk q) :
    Transparent init { s with pass := p } :=
  { h with holding := hp }

/-- A pass goes on, with no copy it did not have and no pick. -/
theorem goOn (h : Transparent init s) {p : Pass} (hp : s.pass = some p) (p' : Pass)
    (hheld : p'.held.Subperm p.held) (hcopies : ∀ c ∈ p'.copies, c ∈ p.copies)
    (hpick : ∀ i, p'.at_ ≠ .pick i) (hmark : ∀ todo next, p'.at_ = .mark todo next →
      ∀ c ∈ todo, (s.disk c.1.blockNo).bytes = c.2.bytes) : Transparent init (s.setPass p') := by
  refine h.repass (some p') fun q hq => ?_
  cases hq
  have hold := h.holding p hp
  obtain ⟨l, hl, hsub⟩ := id hheld
  exact
    { nodup := (hl.map Pick.f).nodup_iff.mp (hold.nodup.sublist (hsub.map Pick.f))
      picking := fun i hi => absurd hi (hpick i)
      dirty := fun q hq => hold.dirty q (hheld.subset hq)
      copies := fun c hc => hold.copies c (hcopies c hc)
      marked := hmark }

/-- A pass gives a pin back. -/
theorem unpinHeld (h : Transparent init s) {f : FrameId} (hf : f < s.count) :
    Transparent init (s.unpin f) := by
  refine h.frame { s.frames f with pins := (s.frames f).pins - 1 } hf _
    (h.changed_keep _ (.refl f s.calls) ⟨rfl, rfl, rfl, rfl⟩ rfl rfl rfl id (h.joined f)
      (fun _ _ => id) fun _ => id) rfl rfl h.saw

theorem passPick (h : Transparent init s) (hsh : Shape s) {p : Pass} {i : Nat}
    (hp : s.pass = some p) (hat : p.at_ = .pick i) :
    Transparent init ((s.pinAll ((s.pickFrom i p.max p.picks.length).map Pick.f)).setPass
      { p with picks := p.picks ++ s.pickFrom i p.max p.picks.length, at_ := .pick (i + 1) }) := by
  have hold := h.holding p hp
  obtain ⟨hrun, hshard⟩ := hold.picking i hat
  have hnodup := hold.nodup
  have hdirty := hold.dirty
  rw [Pass.held, hat, hrun, List.map_nil, List.nil_append] at hnodup hdirty
  -- what this shard gives is in this shard
  have hnew : ∀ q ∈ s.pickFrom i p.max p.picks.length, shardFor q.blockNo = i := by
    intro q hq
    obtain ⟨hmem, hm, -, -, hb, -⟩ := Shape.mem_pickFrom hq
    have hown := (hsh.place.listed i).mem_iff.mp hmem
    have hmap := (hsh.place.maps _ q.f).mpr ⟨hsh.place.lt i _ hown, hm, rfl⟩
    rw [hb]
    exact hsh.place.disjoint _ _ _ (hsh.place.home _ _ hmap) hown
  have hone : ((s.pickFrom i p.max p.picks.length).map Pick.f).Nodup := by
    rw [State.pickFrom, List.map_map]
    show (List.map id _).Nodup
    rw [List.map_id]
    refine List.Nodup.sublist (List.take_sublist ..) (List.Nodup.filter _ ?_)
    exact List.nodup_reverse.mpr ((hsh.place.listed i).nodup_iff.mpr (hsh.place.nodup i))
  refine ⟨fun f => { h.alive f with }, h.joined, ⟨fun f hm => { h.coherent.cached f hm with },
    h.coherent.loaded, h.coherent.unmapped⟩, fun q hq => ?_, h.counted, h.saw⟩
  cases hq
  refine ⟨?_, fun j hj => ?_, fun q hq => ?_, fun c hc => ?_, fun _ _ h => by cases h⟩
  · show ((p.run.map Prod.fst ++ (p.picks ++ s.pickFrom i p.max p.picks.length)).map Pick.f).Nodup
    rw [hrun, List.map_nil, List.nil_append, List.map_append, List.nodup_append]
    refine ⟨hnodup, hone, ?_⟩
    rintro f hf f' hf' rfl
    obtain ⟨q, hq, rfl⟩ := List.mem_map.mp hf
    obtain ⟨q', hq', he⟩ := List.mem_map.mp hf'
    have hqb : q.blockNo = q'.blockNo := by
      have hqh : q ∈ s.held := by
        rw [Shape.held_eq hp, Pass.held, hat]
        exact List.mem_append_right _ hq
      rw [← (hsh.held q hqh).2.2, (Shape.mem_pickFrom hq').2.2.2.2.1, he]
    have := hshard q hq
    rw [hqb, hnew q' hq'] at this
    exact Nat.lt_irrefl _ this
  · cases hj
    refine ⟨hrun, fun q hq => ?_⟩
    rcases List.mem_append.mp hq with hq | hq
    · exact Nat.lt_succ_of_lt (hshard q hq)
    · rw [hnew q hq]
      exact Nat.lt_succ_self i
  · replace hq : q ∈ p.run.map Prod.fst ++ (p.picks ++ s.pickFrom i p.max p.picks.length) := hq
    rw [hrun, List.map_nil, List.nil_append] at hq
    rcases List.mem_append.mp hq with hq | hq
    · exact hdirty q hq
    · obtain ⟨-, -, hd, -, -, hv⟩ := Shape.mem_pickFrom hq
      exact ⟨hd, Nat.le_of_eq hv⟩
  · replace hc : c ∈ p.run := hc
    rw [hrun] at hc
    cases hc

theorem passCopy (h : Transparent init s) (hsh : Shape s) {p : Pass} {q : Pick}
    (hp : s.pass = some p) (hat : p.at_ = .copy q) (hl : (s.frames q.f).locked = false) :
    Transparent init (s.setPass { p with at_ := .check q (s.frames q.f).data }) := by
  have hold := h.holding p hp
  have hmem : q ∈ s.held := by
    rw [Shape.held_eq hp, Pass.held, hat]
    exact List.mem_append_right _ (List.mem_cons_self ..)
  obtain ⟨-, hm, hb⟩ := hsh.held q hmem
  have hheld : ({ p with at_ := .check q (s.frames q.f).data } : Pass).held = p.held := by
    rw [Pass.held, Pass.held, hat]
  have hcopies : p.copies = p.run := by rw [Pass.copies, hat]
  refine h.repass (some _) fun r hr => ?_
  cases hr
  refine ⟨?_, (fun _ h => by cases h), fun r hr => ?_, fun c hc => ?_, fun _ _ h => by cases h⟩
  · rw [hheld]
    exact hold.nodup
  · rw [hheld] at hr
    exact hold.dirty r hr
  · rcases List.mem_append.mp hc with hc | hc
    · exact hold.copies c (hcopies ▸ hc)
    · rw [List.mem_singleton.mp hc]
      intro _ _
      show (s.frames q.f).data.bytes = results init s.trace q.blockNo
      rw [← hb]
      exact (h.coherent.cached q.f (hm.resolve_right (h.not_dead _))).data hl

theorem passWrite (h : Transparent init s) (hsh : Shape s) {p : Pass} {next : Next}
    (hp : s.pass = some p) (hat : p.at_ = .write next) :
    Transparent init ((s.writeRun p.run).setPass
      { p with run := [], written := p.written + p.run.length, at_ := .mark p.run next }) := by
  have hold := h.holding p hp
  have hheld : p.held = p.run.map Prod.fst ++ next.picks ++ p.picks := by rw [Pass.held, hat]
  have hcopies : p.copies = p.run := by rw [Pass.copies, hat]
  have hmem : ∀ c ∈ p.run, c.1 ∈ s.held := by
    intro c hc
    rw [Shape.held_eq hp]
    exact Pass.mem_held_of_copies (hcopies ▸ hc)
  have hmap : ∀ c ∈ p.run, s.map c.1.blockNo = some c.1.f := by
    intro c hc
    obtain ⟨hlt, hm, hb⟩ := hsh.held c.1 (hmem c hc)
    exact (hsh.place.maps _ _).mpr ⟨hlt, hm.resolve_right (h.not_dead _), hb⟩
  -- no two copies of one block are in the run
  have hinj : ∀ c ∈ p.run, ∀ d ∈ p.run, c.1.blockNo = d.1.blockNo → c = d := by
    intro c hc d hd hb
    have hf : c.1.f = d.1.f := by
      have := hmap c hc
      rw [hb, hmap d hd] at this
      exact (Option.some.inj this).symm
    have hnodup := hold.nodup
    rw [hheld, List.map_append, List.map_append, List.map_map] at hnodup
    exact List.inj_on_of_nodup_map (List.nodup_append.mp (List.nodup_append.mp hnodup).1).1 hc hd hf
  have hw := h.write hsh (p.run.map fun c => (c.1.blockNo, c.2)) (fun w hw => ?_)
    (fun r todo nx hr hc => ?_)
  · rw [List.map_map] at hw
    refine hw.goOn hp _ ?_ (fun c hc => ?_) (fun _ h => by cases h) fun todo nx ht c hc => ?_
    · rw [hheld]
      exact List.Perm.subperm (.refl _)
    · rw [hcopies]
      exact hc
    · cases ht
      show (applyWrites s.disk (p.run.map fun c => (c.1.blockNo, c.2))
        c.1.blockNo).bytes = c.2.bytes
      rw [applyWrites_of_forall (v := c.2)]
      · rw [List.map_map]
        exact List.mem_map_of_mem hc
      · intro w hwm hwb
        obtain ⟨d, hd, rfl⟩ := List.mem_map.mp hwm
        rw [hinj d hd c hc hwb]
  · obtain ⟨c, hc, rfl⟩ := List.mem_map.mp hw
    exact ⟨c.1.f, hmap c hc, (h.dirty_of_held (hmem c hc)).1⟩
  · rw [hp] at hr
    cases hr
    rw [hat] at hc
    cases hc

theorem passMark (h : Transparent init s) (hsh : Shape s) {p : Pass} {c : Pick × Image}
    {cs : List (Pick × Image)} {next : Next} (hp : s.pass = some p)
    (hat : p.at_ = .mark (c :: cs) next) :
    Transparent init ((s.markFrame c.1).setPass { p with at_ := .mark cs next }) := by
  have hold := h.holding p hp
  have hheld : p.held = c.1 :: ({ p with at_ := .mark cs next } : Pass).held := by
    rw [Pass.held, Pass.held, hat]
    rfl
  have hcopies : p.copies = c :: cs := by rw [Pass.copies, hat]
  have hmem : c.1 ∈ s.held := by
    rw [Shape.held_eq hp, hheld]
    exact List.mem_cons_self ..
  obtain ⟨hlt, hm, hb⟩ := hsh.held c.1 hmem
  replace hm := hm.resolve_right (h.not_dead _)
  obtain ⟨hd, -⟩ := h.dirty_of_held hmem
  have hl := (h.alive c.1.f).unlocked hd
  have hnodup := hold.nodup
  rw [hheld, List.map_cons, List.nodup_cons] at hnodup
  have hrest := h.goOn hp { p with at_ := .mark cs next } ?_ (fun d hd => ?_)
    (fun _ h => by cases h)
    fun todo nx ht d hd => ?_
  · refine hrest.frame { s.frames c.1.f with
        dirty := (s.frames c.1.f).dirty &&
          !(decide ((s.frames c.1.f).version = c.1.version) && (s.frames c.1.f).dirty)
        pins := (s.frames c.1.f).pins - 1 } hlt _
      { alive := ⟨(h.alive c.1.f).loadFailed, fun _ => hm, fun _ => hl⟩
        same := .refl c.1.f s.calls
        joined := h.joined c.1.f
        current := fun _ => ⟨(h.coherent.cached c.1.f hm).data, fun hc => ?_⟩
        loaded := fun op b hc => h.coherent.loaded op b c.1.f hc
        held := fun q hq hqf => ?_
        copies := fun _ hno => hno } ?_ rfl h.saw
    · -- it is marked clean only if the copy on the device is the newest
      rcases hc with hc | ⟨hd', hin, hno⟩
      · rw [show (s.frames c.1.f).locked = true from hc] at hl
        cases hl
      · replace hd' : ((s.frames c.1.f).dirty &&
          !(decide ((s.frames c.1.f).version = c.1.version) && (s.frames c.1.f).dirty))
          = false := hd'
        rw [hd, Bool.and_true, Bool.true_and, Bool.not_eq_false', decide_eq_true_eq] at hd'
        have hcopy := hold.copies c (by rw [hcopies]; exact List.mem_cons_self ..) hd'
          fun inTxn hf => ?_
        · show (s.disk (s.frames c.1.f).blockNo).bytes
            = results init s.trace (s.frames c.1.f).blockNo
          rw [hb, ← hcopy]
          exact hold.marked _ _ hat c (List.mem_cons_self ..)
        · cases inTxn with
          | false => exact hno hf
          | true =>
            have := (hsh.calls _ hf).2.2.2.2 rfl
            rw [show (s.frames (Call.finish true c.1.f).frame).inTxn = false from hin] at this
            cases this
    · refine absurd ?_ hnodup.1
      rw [← hqf]
      exact List.mem_map_of_mem hq
    · have hup := dirtyFrames_update s.frames { s.frames c.1.f with dirty := false } hlt
      have hcounted := h.counted
      show s.dirtyCount - (if (decide ((s.frames c.1.f).version = c.1.version) &&
          (s.frames c.1.f).dirty) = true then 1 else 0) + (s.frames c.1.f).dirty.toNat
          = s.dirtyCount +
        ((s.frames c.1.f).dirty &&
          !(decide ((s.frames c.1.f).version = c.1.version) && (s.frames c.1.f).dirty)).toNat
      rw [hd, Bool.toNat_true, Bool.toNat_false] at hup
      rw [hd]
      cases decide ((s.frames c.1.f).version = c.1.version) with
      | false => rfl
      | true =>
        show s.dirtyCount - 1 + 1 = s.dirtyCount + 0
        omega
  · rw [hheld]
    exact List.Sublist.subperm (List.sublist_cons_self ..)
  · rw [hcopies]
    exact List.mem_cons_of_mem _ hd
  · cases ht
    exact hold.marked _ _ hat d (List.mem_cons_of_mem _ hd)

end Transparent

/-! ## Runs -/

theorem Transparent.step {capacity : Nat} {init : Nat → Block} {s s' : State}
    (h : Transparent init s)
    (hsh : Shape s) (hs : Step capacity false s s') : Transparent init s' := by
  cases hs with
  | hit op b f hb => exact h.acquireHit hsh hb
  | miss op b hb =>
    have ht := hsh.takeFrame capacity (shardFor b)
    exact (h.takeFrame hsh capacity (shardFor b)).acquireMiss ht.shape ht.lt ht.pins ht.mapped
      (ht.map b hb)
  | missFails b f img hf => cases hf
  | readHit b f rest hc hl hd =>
    obtain ⟨-, hm, -⟩ := hsh.calls (.hit .read b f) (by rw [hc]; exact Multiset.mem_cons_self ..)
    obtain ⟨hm, hb⟩ := hm.resolve_right (h.not_dead _)
    refine h.look hsh hc (fun _ h => by cases h) hl ?_ (h.saw.concat ?_)
    · rw [results_concat]
      rfl
    · show (s.frames f).data.bytes = results init s.trace b
      rw [← hb]
      exact (h.coherent.cached f hm).data hl
  | modifyHit fresh inTxn fn b f rest hc hl hd => exact h.modifyHit hsh hc hl
  | throwHit op b f rest hc hl hd =>
    rw [(h.alive f).loadFailed] at hd
    cases hd
  | load op b f rest hc => exact h.load hsh hc
  | loadFails op b f junk rest hf => cases hf
  | unmapFailed op b f rest hc =>
    have := (hsh.calls (.failed op b f) (by rw [hc]; exact Multiset.mem_cons_self ..)).2.1
    exact absurd this (h.not_dead _)
  | readLoaded b f rest hc => exact h.readLoaded hsh hc
  | modifyLoaded fresh inTxn fn b f rest hc => exact h.modifyLoaded hsh hc
  | finishModify inTxn f rest hc => exact h.finishModify hsh hc
  | unpin f rest hc => exact h.unpin hsh hc
  | copyTxnFrame b f hb => exact h.copyTxnFrame hsh hb
  | copied f rest hc hl => exact h.look hsh hc (fun _ h => by cases h) hl rfl h.saw
  | commitFrame b f lsn hb hin hc => exact h.commitFrame hsh hb hin hc
  | durable lsn => exact { h with }
  | passStart max hp =>
    refine h.repass (some _) fun q hq => ?_
    cases hq
    exact ⟨List.nodup_nil, fun i hi => ⟨rfl, (fun _ h => by cases h)⟩, (fun _ h => by cases h),
      (fun _ h => by cases h), fun _ _ h => by cases h⟩
  | passPick p i hp hat => exact h.passPick hsh hp hat
  | passSort p i hp hat =>
    refine h.goOn hp _ ?_ (fun c hc => ?_) (fun _ h => by cases h)
      (fun _ _ h => by cases h)
    · rw [Pass.held, Pass.held, hat]
      exact ((List.mergeSort_perm p.picks _).append_left _).subperm
    · rw [Pass.copies, hat]
      exact hc
  | passNext p q qs hp hat hq =>
    have hheld : p.held = p.run.map Prod.fst ++ q :: qs := by rw [Pass.held, hat, hq]
    have hcopies : p.copies = p.run := by rw [Pass.copies, hat]
    show Transparent init (s.setPass { p with
      picks := qs, at_ := if joinsRun p.run q then .copy q else .write (.copy q) })
    split
    · refine h.goOn hp _ ?_ (fun c hc => hcopies ▸ hc) (fun _ h => by cases h)
        (fun _ _ h => by cases h)
      rw [hheld]
      exact List.Perm.subperm (.refl _)
    · refine h.goOn hp _ ?_ (fun c hc => hcopies ▸ hc) (fun _ h => by cases h)
        (fun _ _ h => by cases h)
      rw [hheld]
      exact List.Perm.subperm (.of_eq (List.append_assoc ..))
  | passLast p hp hat hq =>
    refine h.goOn hp _ ?_ (fun c hc => ?_) (fun _ h => by cases h)
      (fun _ _ h => by cases h)
    · rw [Pass.held, Pass.held, hat]
      show (p.run.map Prod.fst ++ [] ++ p.picks).Subperm _
      rw [List.append_nil]
    · rw [Pass.copies, hat]
      exact hc
  | passCopy p q hp hat hl => exact h.passCopy hsh hp hat hl
  | passCheck p q img hp hat =>
    have hheld : p.held = p.run.map Prod.fst ++ q :: p.picks := by rw [Pass.held, hat]
    have hcopies : p.copies = p.run ++ [(q, img)] := by rw [Pass.copies, hat]
    split
    · refine h.goOn hp _ ?_ (fun c hc => hcopies ▸ hc) (fun _ h => by cases h)
        (fun _ _ h => by cases h)
      rw [hheld]
      show ((p.run ++ [(q, img)]).map Prod.fst ++ p.picks).Subperm _
      rw [List.map_append, List.append_assoc]
      exact List.Perm.subperm (.refl _)
    · refine h.goOn hp _ ?_ (fun c hc => hcopies ▸ List.mem_append_left _ hc)
        (fun _ h => by cases h)
        (fun _ _ h => by cases h)
      rw [hheld]
      exact List.Perm.subperm (.of_eq (List.append_assoc ..))
  | passWrite p next hp hat => exact h.passWrite hsh hp hat
  | passWriteFails p next n hf => cases hf
  | passMark p c cs next hp hat => exact h.passMark hsh hp hat
  | passMarked p next hp hat =>
    have hok := hsh.pass p hp
    rw [Pass.Ok, hat] at hok
    have hheld : p.held = next.picks ++ p.picks := by
      rw [Pass.held, hat]
      rfl
    cases next with
    | copy q =>
      refine h.goOn hp { p with at_ := .copy q } ?_ (fun c hc => ?_) (fun _ h => by cases h)
        (fun _ _ h => by cases h)
      · rw [hheld, Pass.held, hok.1]
        exact List.Perm.subperm (.refl _)
      · replace hc : c ∈ p.run := hc
        rw [hok.1] at hc
        cases hc
    | drop q =>
      refine h.goOn hp { p with at_ := .drop q } ?_ (fun c hc => ?_) (fun _ h => by cases h)
        (fun _ _ h => by cases h)
      · rw [hheld, Pass.held, hok.1]
        exact List.Perm.subperm (.refl _)
      · replace hc : c ∈ p.run := hc
        rw [hok.1] at hc
        cases hc
    | done => exact h.repass none (fun _ h => by cases h)
  | passDrop p q hp hat =>
    have hheld : p.held = p.run.map Prod.fst ++ q :: p.picks := by rw [Pass.held, hat]
    have hlt := (hsh.held q (by rw [Shape.held_eq hp, hheld]; simp)).1
    refine (h.unpinHeld hlt).goOn hp _ ?_ (fun c hc => ?_) (fun _ h => by cases h)
      (fun _ _ h => by cases h)
    · rw [hheld]
      exact ((List.Sublist.refl _).append (List.sublist_cons_self ..)).subperm
    · rw [Pass.copies, hat]
      exact hc
  | passUnwind p q qs hp hat =>
    have hheld : p.held = q :: qs := by rw [Pass.held, hat]
    have hlt := (hsh.held q (by rw [Shape.held_eq hp, hheld]; simp)).1
    refine (h.unpinHeld hlt).goOn hp _ ?_ (fun _ h => by cases h) (fun _ h => by cases h)
      (fun _ _ h => by cases h)
    rw [hheld]
    exact (List.sublist_cons_self ..).subperm
  | passThrow p hp hat => exact h.repass none (fun _ h => by cases h)

theorem Transparent.empty (init : Nat → Block) (durable : Nat) :
    Transparent init (.empty init durable) where
  alive := fun _ => ⟨rfl, nofun, nofun⟩
  joined := nofun
  coherent := ⟨nofun, fun _ _ _ hc => absurd hc (Multiset.notMem_zero _), fun _ _ => rfl⟩
  holding := nofun
  counted := rfl
  saw := fun pre _ _ he => by cases pre <;> cases he

theorem Run.transparent {capacity : Nat} {init : Nat → Block} {s : State}
    (h : Run capacity false init s) : Transparent init s := by
  induction h with
  | empty durable => exact .empty init durable
  | step hr hs ih => exact ih.step hr.shape hs

/-- All that `take_frame` can add to the trace is a write of its victim. -/
theorem takeFrame_trace (s : State) (capacity i : Nat) :
    ∃ ws : List (Nat × Image), (s.takeFrame capacity i).1.trace =
      s.trace ++ ws.map fun w => .device w.1 w.2 s.durable := by
  have hunmap : ∀ (t : State) f, (t.unmap f).trace = t.trace := fun t f => by
    rw [State.unmap]
    split <;> rfl
  rw [State.takeFrame]
  split
  · exact ⟨[], (List.append_nil _).symm⟩
  · split
    · exact ⟨[], (hunmap _ _).trans (List.append_nil _).symm⟩
    · exact ⟨[(_, _)], hunmap _ _⟩
    · exact ⟨[], (List.append_nil _).symm⟩

/-- A modify runs the function that its caller gave on what it saw. -/
theorem Step.ran {capacity : Nat} {faults : Bool} {s s' : State} (hs : Step capacity faults s s')
    {b : Nat} {fresh inTxn : Bool} {saw after : Block}
    (he : s'.trace = s.trace ++ [.modify b fresh inTxn saw after]) :
    ∃ fn f, (.hit (.modify fresh inTxn fn) b f ∈ s.calls ∨
      .loaded (.modify fresh inTxn fn) b f ∈ s.calls) ∧ after = fn saw := by
  have quiet : s.trace ≠ s.trace ++ [.modify b fresh inTxn saw after] := by simp
  have device : ∀ (ws : List (Nat × Image)) d, s.trace ++ ws.map (fun w => .device w.1 w.2 d) ≠
      s.trace ++ [.modify b fresh inTxn saw after] := by
    intro ws d hw
    have hws := List.append_cancel_left hw
    cases ws with
    | nil => cases hws
    | cons w ws => cases (List.cons.inj hws).1
  cases hs with
  | modifyHit _ _ fn _ f rest hc _ _ =>
    cases List.append_cancel_left he
    exact ⟨fn, f, .inl (by rw [hc]; exact Multiset.mem_cons_self ..), rfl⟩
  | modifyLoaded _ _ fn _ f rest hc =>
    cases List.append_cancel_left he
    exact ⟨fn, f, .inr (by rw [hc]; exact Multiset.mem_cons_self ..), rfl⟩
  | miss op c hc =>
    obtain ⟨ws, hws⟩ := takeFrame_trace s capacity (shardFor c)
    exact absurd (hws.symm.trans he) (device ws _)
  | missFails c f junk => exact absurd he (device [(_, _)] _)
  | passWrite p next hp hat =>
    refine absurd he ?_
    show s.trace ++ p.run.map _ ≠ _
    have := device (p.run.map fun c => (c.1.blockNo, c.2)) s.durable
    rwa [List.map_map] at this
  | passWriteFails p next n _ hp hat =>
    refine absurd he ?_
    show s.trace ++ (p.run.take n).map _ ≠ _
    have := device ((p.run.take n).map fun c => (c.1.blockNo, c.2)) s.durable
    rwa [List.map_map] at this
  | passMarked p next hp hat => cases next <;> exact absurd he quiet
  | readHit | readLoaded | commitFrame => cases List.append_cancel_left he
  | hit | throwHit | load | loadFails | unmapFailed | finishModify | unpin | copyTxnFrame | copied
  | durable | passStart | passPick | passSort | passNext | passLast | passCopy | passCheck
  | passMark | passDrop | passUnwind | passThrow => exact absurd he quiet

/-- The cache is transparent and loses no update.  The trace puts the reads and modifies of a block
    in the order in which they had its frame's lock: each sees the result of the modify before it,
    a fresh one zeros, and leaves what its function makes of that.  A frame at rest that is not
    dirty and not in the transaction holds what the device holds, and `dirty_count_` is the number
    of dirty frames. -/
theorem cache_transparent {capacity : Nat} {init : Nat → Block} {s : State}
    (h : Run capacity false init s) :
    (∀ pre b saw post, s.trace = pre ++ .read b saw :: post → saw = results init pre b) ∧
    (∀ pre b fresh inTxn saw after post, s.trace = pre ++ .modify b fresh inTxn saw after :: post →
      saw = if fresh then Bytes.zero 4096 else results init pre b) ∧
    (∀ s' b fresh inTxn saw after, Step capacity false s s' →
      s'.trace = s.trace ++ [.modify b fresh inTxn saw after] →
      ∃ fn f, (.hit (.modify fresh inTxn fn) b f ∈ s.calls ∨
        .loaded (.modify fresh inTxn fn) b f ∈ s.calls) ∧ after = fn saw) ∧
    (∀ b f, s.map b = some f → (s.frames f).pins = 0 → (s.frames f).dirty = false →
      (s.frames f).inTxn = false → (s.frames f).data.bytes = (s.disk b).bytes) ∧
    s.dirtyCount = dirtyFrames s.frames s.count := by
  have ht := h.transparent
  refine ⟨fun pre b saw post he => ht.saw pre _ post he,
    fun pre b fresh inTxn saw after post he => ht.saw pre _ post he,
    fun s' b fresh inTxn saw after hs he => hs.ran he, fun b f hb hp hd hin => ?_, ht.counted⟩
  obtain ⟨-, hm, hbn⟩ := (h.shape.place.maps b f).mp hb
  obtain ⟨hcalls, -, hbusy⟩ := h.shape.unused hp
  rw [Frame.busy, Bool.or_eq_false_iff] at hbusy
  have hcur := ht.coherent.cached f hm
  rw [hcur.data hbusy.1, ← hbn]
  exact (hcur.disk (Or.inr ⟨hd, hin, fun hc => hcalls _ hc rfl⟩)).symm

/-- A fresh block is changed outside any transaction, written back, and read. -/
theorem cache_transparent_reread :
    ∃ s pre saw f, Run 256 false (fun _ => Bytes.zero 4096) s ∧
      s.trace = pre ++ .read 1 saw :: [] ∧ saw = results (fun _ => Bytes.zero 4096) pre 1 ∧
      s.map 1 = some f ∧ (s.frames f).pins = 0 ∧ (s.frames f).dirty = false ∧
      (s.frames f).data.bytes = (s.disk 1).bytes ∧ dirtyFrames s.frames s.count = 0 := by
  let op : Op := .modify true false fun _ => Bytes.zero 4096
  let q : Pick := ⟨0, 1, 1, 1⟩
  have h0 : Run 256 false (fun _ => Bytes.zero 4096) _ := .empty 0
  have h1 := (((h0.step (.miss op 1 rfl)).step (.load op 1 0 0 rfl)).step
    (.modifyLoaded true false _ 1 0 0 rfl)).step (.finishModify false 0 0 rfl)
  have h2 := (((h1.step (.passStart 1 rfl)).step
    (.passPick ⟨1, [], [], 0, .pick 0⟩ 0 rfl rfl (by decide) (by decide))).step
    (.passPick ⟨1, [], [], 0, .pick 1⟩ 1 rfl rfl (by decide) (by decide))).step
    (.passSort ⟨1, [q], [], 0, .pick 2⟩ 2 rfl rfl (by decide))
  have h3 := (((h2.step (.passNext _ q [] rfl rfl (List.mergeSort_singleton _))).step
    (.passWrite _ _ rfl rfl)).step (.passMarked _ _ rfl rfl)).step (.passCopy _ q rfl rfl rfl)
  have h4 := ((((h3.step (.passCheck _ q _ rfl rfl)).step (.passLast _ rfl rfl rfl)).step
    (.passWrite _ _ rfl rfl)).step (.passMark _ _ _ _ rfl rfl)).step (.passMarked _ _ rfl rfl)
  have h5 := ((h4.step (.hit .read 1 0 rfl)).step (.readHit 1 0 0 rfl rfl rfl)).step
    (.unpin 0 0 rfl)
  obtain ⟨hread, -, -, hrest, hcount⟩ := cache_transparent h5
  exact ⟨_, _, _, 0, h5, rfl, hread _ _ _ _ rfl, rfl, rfl, rfl,
    hrest 1 0 rfl rfl rfl rfl, hcount.symm⟩

end ConcurrentFs.BufferCache
