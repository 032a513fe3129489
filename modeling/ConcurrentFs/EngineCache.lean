/-
  ConcurrentFs.EngineCache

  The engine over the cache with its threads.  `Storage` has a frame, and a pass,
  where `BufferCache` has frames with locks and pins, calls at many points and a
  pass at more; here is what the one shows of the other, and that the engine can
  follow what goes on in the cache beside the journal: reads, evictions and
  write-back passes, section by section.

  The engine changes a frame when its bytes change.  The cache has by then long set
  `in_txn`, when the modify got its frame, and counts the change in `version` only in
  `finish_modify`.
-/
import ConcurrentFs.StorageSteps
import ConcurrentFs.GroupCommitHistory
import Mathlib.Logic.Relation

namespace ConcurrentFs.Engine

open BufferCache (FrameId Shape results)
open GroupCommit (Background Sweeping Swept)
open Relation (ReflTransGen)
open Lib

/-! ## Frames -/

/-- A transactional modify that has its frame and has not yet changed the bytes. -/
def joins : BufferCache.Call → Bool
  | .hit op _ _ | .load op _ _ | .loaded op _ _ => op.inTxn
  | _ => false

/-- What the engine has of a frame that `late` modifies have changed and not finished. -/
structure FrameShows (g : BufferCache.Frame) (late : Nat) (x : Frame) : Prop where
  lsn : x.lsn = g.lsn
  version : x.version = g.version + late
  inTxn : x.inTxn = true → g.inTxn = true
  late : late ≠ 0 → x.inTxn = true
  /-- A pass may clean a frame that a modify has changed and not finished. -/
  dirty : x.inTxn = false → x.dirty = g.dirty

/-- A transactional modify that has changed the bytes of frame `f` and has still to finish. -/
def finishes (f : FrameId) : BufferCache.Call → Bool
  | .finish inTxn f' => inTxn && f' == f
  | _ => false

def lateOf (calls : Multiset BufferCache.Call) (f : FrameId) : Nat :=
  calls.countP (finishes f · = true)

/-- The engine has a frame for every block that is mapped and loaded. -/
structure CacheShows (c : BufferCache.State) (cache : Nat → Option Frame) : Prop where
  cached : ∀ b f, c.map b = some f → (c.frames f).locked = false →
    ∃ x, cache b = some x ∧ FrameShows (c.frames f) (lateOf c.calls f) x
  absent : ∀ b, (∀ f, c.map b = some f → (c.frames f).locked = true) → cache b = none
  /-- A frame is in the transaction once a modify has changed it, or for one that is going to. -/
  joined : ∀ b f, c.map b = some f → (c.frames f).inTxn = true →
    (∃ x, cache b = some x ∧ x.inTxn = true) ∨ ∃ d ∈ c.calls, d.frame = f ∧ joins d = true
  loading : ∀ f, (c.frames f).locked = true → (c.frames f).lsn = 0 ∧ (c.frames f).version = 0

/-- The modifies under way are as far as before, for the engine. -/
structure CallsAlike (calls calls' : Multiset BufferCache.Call) : Prop where
  late : ∀ f, lateOf calls' f = lateOf calls f
  joining : ∀ d ∈ calls, joins d = true → ∃ d' ∈ calls', d'.frame = d.frame ∧ joins d' = true

/-- Two states of the cache that differ in nothing the engine has, but for modifies that join. -/
structure Alike (c c' : BufferCache.State) : Prop where
  map : c'.map = c.map
  locked : ∀ f, (c'.frames f).locked = (c.frames f).locked
  lsn : ∀ f, (c'.frames f).lsn = (c.frames f).lsn
  version : ∀ f, (c'.frames f).version = (c.frames f).version
  dirty : ∀ f, (c'.frames f).dirty = (c.frames f).dirty
  inTxn : ∀ f, (c.frames f).inTxn = true → (c'.frames f).inTxn = true
  joined : ∀ f, (c'.frames f).inTxn = true → (c.frames f).inTxn = true ∨
    ∃ d ∈ c'.calls, d.frame = f ∧ joins d = true
  calls : CallsAlike c.calls c'.calls

section Alike

variable {c c' : BufferCache.State} {calls rest : Multiset BufferCache.Call}
  {d d' : BufferCache.Call}

theorem lateOf_cons (d : BufferCache.Call) (calls : Multiset BufferCache.Call) (f : FrameId) :
    lateOf (d ::ₘ calls) f = lateOf calls f + (finishes f d).toNat := by
  rw [lateOf, Multiset.countP_cons]
  cases finishes f d <;> rfl

theorem CallsAlike.refl (calls : Multiset BufferCache.Call) : CallsAlike calls calls :=
  ⟨fun _ => rfl, fun d hd hj => ⟨d, hd, rfl, hj⟩⟩

/-- A call begins. -/
theorem CallsAlike.start (hd : ∀ f, finishes f d = false) : CallsAlike calls (d ::ₘ calls) where
  late := by
    intro f
    rw [lateOf_cons, hd]
    rfl
  joining := fun e he hj => ⟨e, Multiset.mem_cons_of_mem he, rfl, hj⟩

/-- A call goes on, and if it was going to change its frame it still is. -/
theorem CallsAlike.move (hd : ∀ f, finishes f d = false) (hd' : ∀ f, finishes f d' = false)
    (hj : joins d = true → d'.frame = d.frame ∧ joins d' = true) :
    CallsAlike (d ::ₘ rest) (d' ::ₘ rest) where
  late := by
    intro f
    rw [lateOf_cons, lateOf_cons, hd, hd']
  joining := by
    intro e he hje
    rcases Multiset.mem_cons.mp he with rfl | he
    · exact ⟨d', Multiset.mem_cons_self .., hj hje⟩
    · exact ⟨e, Multiset.mem_cons_of_mem he, rfl, hje⟩

/-- A call ends. -/
theorem CallsAlike.stop (hd : ∀ f, finishes f d = false) (hj : joins d = false) :
    CallsAlike (d ::ₘ rest) rest where
  late := by
    intro f
    rw [lateOf_cons, hd]
    rfl
  joining := by
    intro e he hje
    rcases Multiset.mem_cons.mp he with rfl | he
    · rw [hj] at hje
      cases hje
    · exact ⟨e, he, rfl, hje⟩

/-- No frame changes. -/
theorem Alike.same (hmap : c'.map = c.map) (hframes : c'.frames = c.frames)
    (hcalls : CallsAlike c.calls c'.calls) : Alike c c' := by
  refine ⟨hmap, ?_, ?_, ?_, ?_, ?_, ?_, hcalls⟩ <;> intro f <;> rw [hframes]
  · exact id
  · exact Or.inl

/-- One frame changes, in nothing the engine has. -/
theorem Alike.frame {f : FrameId} {g : BufferCache.Frame} (hmap : c'.map = c.map)
    (hframes : c'.frames = Function.update c.frames f g) (hcalls : CallsAlike c.calls c'.calls)
    (hl : g.locked = (c.frames f).locked) (hlsn : g.lsn = (c.frames f).lsn)
    (hv : g.version = (c.frames f).version) (hd : g.dirty = (c.frames f).dirty)
    (hin : (c.frames f).inTxn = true → g.inTxn = true)
    (hj : g.inTxn = true → (c.frames f).inTxn = true ∨
      ∃ d ∈ c'.calls, d.frame = f ∧ joins d = true) : Alike c c' := by
  refine ⟨hmap, ?_, ?_, ?_, ?_, ?_, ?_, hcalls⟩ <;> intro x <;> rw [hframes] <;>
    by_cases hx : x = f
  all_goals first
    | rw [Function.update_of_ne hx]
    | rw [hx, Function.update_self]
  · exact hl
  · exact hlsn
  · exact hv
  · exact hd
  · exact hin
  · exact id
  · exact hj
  · exact Or.inl

end Alike

namespace CacheShows

variable {c c' : BufferCache.State} {cache : Nat → Option Frame}

theorem of_cached (h : CacheShows c cache) {b : Nat} {x : Frame} (hb : cache b = some x) :
    ∃ f, c.map b = some f ∧ (c.frames f).locked = false ∧
      FrameShows (c.frames f) (lateOf c.calls f) x := by
  by_cases hf : ∀ f, c.map b = some f → (c.frames f).locked = true
  · rw [h.absent b hf] at hb
    cases hb
  · push Not at hf
    obtain ⟨f, hm, hl⟩ := hf
    have hl : (c.frames f).locked = false := by simpa using hl
    obtain ⟨y, hy, hs⟩ := h.cached b f hm hl
    rw [hy] at hb
    cases hb
    exact ⟨f, hm, hl, hs⟩

theorem cached_at (h : CacheShows c cache) {b : Nat} {f : FrameId} {x : Frame}
    (hm : c.map b = some f) (hb : cache b = some x) :
    FrameShows (c.frames f) (lateOf c.calls f) x := by
  obtain ⟨f', hm', -, hs⟩ := h.of_cached hb
  rw [hm] at hm'
  cases hm'
  exact hs

theorem alike (h : CacheShows c cache) (ha : Alike c c') : CacheShows c' cache where
  cached := by
    intro b f hm hl
    rw [ha.map] at hm
    rw [ha.locked] at hl
    obtain ⟨x, hx, hs⟩ := h.cached b f hm hl
    refine ⟨x, hx, ?_, ?_, fun hin => ha.inTxn f (hs.inTxn hin), ?_, fun hin => ?_⟩
    · rw [ha.lsn]
      exact hs.lsn
    · rw [ha.version, ha.calls.late]
      exact hs.version
    · rw [ha.calls.late]
      exact hs.late
    · rw [ha.dirty]
      exact hs.dirty hin
  absent := by
    intro b hb
    refine h.absent b fun f hm => ?_
    rw [← ha.locked]
    exact hb f (by rw [ha.map]; exact hm)
  joined := by
    intro b f hm hin
    rw [ha.map] at hm
    rcases ha.joined f hin with hin | hd
    · rcases h.joined b f hm hin with hx | ⟨d, hd, hf, hj⟩
      · exact Or.inl hx
      · obtain ⟨d', hd', hf', hj'⟩ := ha.calls.joining d hd hj
        exact Or.inr ⟨d', hd', hf'.trans hf, hj'⟩
    · exact Or.inr hd
  loading := by
    intro f hl
    rw [ha.lsn, ha.version]
    exact h.loading f (by rw [← ha.locked]; exact hl)

/-- Without modifies under way the frames in the transaction are those of the engine. -/
theorem inTxn_iff (h : CacheShows c cache) (hc : ∀ d ∈ c.calls, joins d = false) {b : Nat}
    {f : FrameId} (hm : c.map b = some f) :
    (c.frames f).inTxn = true ↔ ∃ x, cache b = some x ∧ x.inTxn = true := by
  constructor
  · intro hin
    refine (h.joined b f hm hin).resolve_right ?_
    rintro ⟨d, hd, -, hj⟩
    rw [hc d hd] at hj
    cases hj
  · rintro ⟨x, hx, hin⟩
    exact (h.cached_at hm hx).inTxn hin

/-- One frame changes, and what the engine has of it. -/
theorem update (h : CacheShows c cache) (hp : Shape c) {b : Nat} {f : FrameId}
    {g : BufferCache.Frame} {x : Frame} (hm : c.map b = some f) (hmap : c'.map = c.map)
    (hframes : c'.frames = Function.update c.frames f g) (hl : g.locked = false)
    (hlate : ∀ y, y ≠ f → lateOf c'.calls y = lateOf c.calls y)
    (hx : FrameShows g (lateOf c'.calls f) x)
    (hin : g.inTxn = true → x.inTxn = true ∨ ∃ d ∈ c'.calls, d.frame = f ∧ joins d = true)
    (hjoin : ∀ d ∈ c.calls, d.frame ≠ f → joins d = true → d ∈ c'.calls) :
    CacheShows c' (Function.update cache b (some x)) := by
  -- no other block is in this frame
  have hone : ∀ y z, c.map y = some z → y ≠ b → z ≠ f := by
    rintro y z hy hne rfl
    exact hne (((hp.place.maps y z).mp hy).2.2.symm.trans ((hp.place.maps b z).mp hm).2.2)
  refine ⟨fun y z hy hz => ?_, fun y hy => ?_, fun y z hy hz => ?_, fun z hz => ?_⟩
  · rw [hmap] at hy
    rw [hframes] at hz ⊢
    by_cases hyb : y = b
    · rw [hyb, hm] at hy
      cases hy
      rw [hyb, Function.update_self, Function.update_self]
      exact ⟨x, rfl, hx⟩
    · have hzf := hone y z hy hyb
      rw [Function.update_of_ne hzf] at hz ⊢
      rw [Function.update_of_ne hyb, hlate z hzf]
      exact h.cached y z hy hz
  · rw [hmap, hframes] at hy
    by_cases hyb : y = b
    · have hlf := hy f (by rw [hyb, hm])
      rw [Function.update_self, hl] at hlf
      cases hlf
    · rw [Function.update_of_ne hyb]
      refine h.absent y fun z hz => ?_
      have hlz := hy z hz
      rw [Function.update_of_ne (hone y z hz hyb)] at hlz
      exact hlz
  · rw [hmap] at hy
    rw [hframes] at hz
    by_cases hyb : y = b
    · rw [hyb, hm] at hy
      cases hy
      rw [Function.update_self] at hz
      rw [hyb, Function.update_self]
      exact (hin hz).imp_left fun hx => ⟨x, rfl, hx⟩
    · have hzf := hone y z hy hyb
      rw [Function.update_of_ne hzf] at hz
      rw [Function.update_of_ne hyb]
      refine (h.joined y z hy hz).imp_right ?_
      rintro ⟨d, hd, hdz, hj⟩
      exact ⟨d, hjoin d hd (by rw [hdz]; exact hzf) hj, hdz, hj⟩
  · rw [hframes] at hz ⊢
    by_cases hzf : z = f
    · rw [hzf, Function.update_self, hl] at hz
      cases hz
    · rw [Function.update_of_ne hzf] at hz ⊢
      exact h.loading z hz

/-- The frame of a block leaves the map. -/
theorem evict (h : CacheShows c cache) (hp : Shape c) {b : Nat} {f : FrameId}
    {g : BufferCache.Frame} (hm : c.map b = some f) (hmap : c'.map = Function.update c.map b none)
    (hframes : c'.frames = Function.update c.frames f g) (hl : g.locked = false)
    (hcalls : c'.calls = c.calls) : CacheShows c' (Function.update cache b none) := by
  have hone : ∀ {y z}, c'.map y = some z → y ≠ b ∧ z ≠ f ∧ c.map y = some z := by
    intro y z hy
    rw [hmap] at hy
    have hyb : y ≠ b := by
      rintro rfl
      rw [Function.update_self] at hy
      cases hy
    rw [Function.update_of_ne hyb] at hy
    refine ⟨hyb, ?_, hy⟩
    rintro rfl
    exact hyb (((hp.place.maps y z).mp hy).2.2.symm.trans ((hp.place.maps b z).mp hm).2.2)
  refine ⟨fun y z hy hz => ?_, fun y hy => ?_, fun y z hy hz => ?_, fun z hz => ?_⟩
  · obtain ⟨hyb, hzf, hy⟩ := hone hy
    rw [hframes, Function.update_of_ne hzf] at hz ⊢
    rw [Function.update_of_ne hyb, hcalls]
    exact h.cached y z hy hz
  · by_cases hyb : y = b
    · rw [hyb, Function.update_self]
    · rw [Function.update_of_ne hyb]
      refine h.absent y fun z hz => ?_
      have hy' : c'.map y = some z := by rw [hmap, Function.update_of_ne hyb, hz]
      have hlz := hy z hy'
      rw [hframes, Function.update_of_ne (hone hy').2.1] at hlz
      exact hlz
  · obtain ⟨hyb, hzf, hy⟩ := hone hy
    rw [hframes, Function.update_of_ne hzf] at hz
    rw [Function.update_of_ne hyb, hcalls]
    exact h.joined y z hy hz
  · rw [hframes] at hz ⊢
    by_cases hzf : z = f
    · rw [hzf, Function.update_self, hl] at hz
      cases hz
    · rw [Function.update_of_ne hzf] at hz ⊢
      exact h.loading z hz

/-- A block gets a frame that is still to be loaded. -/
theorem acquireMiss (h : CacheShows c cache) (hp : Shape c) {op : BufferCache.Op} {b : Nat}
    {f : FrameId} (hf : (c.frames f).mapped = false) (hb : c.map b = none) :
    CacheShows (c.acquireMiss op b f) cache := by
  have hmf : ∀ {y z}, c.map y = some z → y ≠ b ∧ z ≠ f := by
    intro y z hy
    refine ⟨?_, ?_⟩
    · rintro rfl
      rw [hb] at hy
      cases hy
    · rintro rfl
      rw [((hp.place.maps y z).mp hy).2.1] at hf
      cases hf
  have hone : ∀ {y z}, (c.acquireMiss op b f).map y = some z → y = b ∧ z = f ∨
      y ≠ b ∧ z ≠ f ∧ c.map y = some z := by
    intro y z hy
    replace hy : Function.update c.map b (some f) y = some z := hy
    by_cases hyb : y = b
    · rw [hyb, Function.update_self] at hy
      cases hy
      exact Or.inl ⟨hyb, rfl⟩
    · rw [Function.update_of_ne hyb] at hy
      exact Or.inr ⟨hyb, (hmf hy).2, hy⟩
  have hself : (c.acquireMiss op b f).frames f = { c.frames f with
      blockNo := b, mapped := true, dirty := false, inTxn := op.inTxn, lsn := 0, version := 0,
      pins := 1, locked := true } := Function.update_self ..
  have hother : ∀ {z}, z ≠ f → (c.acquireMiss op b f).frames z = c.frames z :=
    fun hz => Function.update_of_ne hz ..
  have hlate : ∀ z, lateOf (c.acquireMiss op b f).calls z = lateOf c.calls z :=
    (CallsAlike.start (d := .load op b f) fun _ => rfl).late
  refine ⟨fun y z hy hz => ?_, fun y hy => ?_, fun y z hy hz => ?_, fun z hz => ?_⟩
  · rcases hone hy with ⟨-, rfl⟩ | ⟨-, hzf, hy⟩
    · rw [hself] at hz
      cases hz
    · rw [hother hzf] at hz ⊢
      rw [hlate]
      exact h.cached y z hy hz
  · refine h.absent y fun z hz => ?_
    obtain ⟨hyb, hzf⟩ := hmf hz
    have hy' : (c.acquireMiss op b f).map y = some z := by
      show Function.update c.map b (some f) y = some z
      rw [Function.update_of_ne hyb]
      exact hz
    rw [← hother hzf]
    exact hy z hy'
  · rcases hone hy with ⟨-, rfl⟩ | ⟨-, hzf, hy⟩
    · rw [hself] at hz
      exact Or.inr ⟨.load op b z, Multiset.mem_cons_self .., rfl, hz⟩
    · rw [hother hzf] at hz
      refine (h.joined y z hy hz).imp_right ?_
      rintro ⟨d, hd, hdz, hj⟩
      exact ⟨d, Multiset.mem_cons_of_mem hd, hdz, hj⟩
  · by_cases hzf : z = f
    · rw [hzf, hself]
      exact ⟨rfl, rfl⟩
    · rw [hother hzf] at hz ⊢
      exact h.loading z hz

end CacheShows

/-! ## Passes -/

/-- Copies that a pass of the cache has gathered, or their frames still to be marked. -/
abbrev Copies := List (BufferCache.Pick × BufferCache.Image)

def shownPick (q : BufferCache.Pick) : Pick := ⟨q.blockNo, q.version⟩

def shownRun (run : Copies) : List (Pick × Block) :=
  run.map fun c => (shownPick c.1, c.2.bytes)

def shownMarks (todo : Copies) : List Pick :=
  todo.map fun c => shownPick c.1

/-- The pass of the engine.  A frame that is to be copied next is still among its picks. -/
def shownPass (p : BufferCache.Pass) : Pass :=
  let picks := p.picks.map shownPick
  let run := shownRun p.run
  match p.at_ with
  | .pick _ => ⟨picks, run, .picking⟩
  | .loop => ⟨picks, run, .loop⟩
  | .copy q => ⟨shownPick q :: picks, run, .loop⟩
  | .check q img => ⟨picks, run, .copied (shownPick q) img.bytes⟩
  | .write (.copy q) => ⟨shownPick q :: picks, run, .loop⟩
  | .write (.drop q) => ⟨picks, run, .leaving (shownPick q)⟩
  | .write .done => ⟨picks, run, .loop⟩
  | .mark todo (.copy q) => ⟨shownPick q :: picks, [], .marking (shownMarks todo) none⟩
  | .mark todo (.drop q) => ⟨picks, [], .marking (shownMarks todo) (some (shownPick q))⟩
  | .mark todo .done => ⟨picks, [], .marking (shownMarks todo) none⟩
  | .drop q => ⟨picks, [], .marking [] (some (shownPick q))⟩
  | .unwind _ => ⟨[], [], .loop⟩

/-- What a pass knows of its run where it stands. -/
def PassReady (p : BufferCache.Pass) : Prop :=
  match p.at_ with
  | .pick _ | .mark .. | .drop _ => p.run = []
  | .copy q => p.run = [] ∨ BufferCache.State.joinsRun p.run q = true
  | .write (.copy q) => BufferCache.State.joinsRun p.run q = false
  | .write .done => p.picks = []
  | .unwind _ => False
  | _ => True

theorem joinsRun_iff (picks : List Pick) (run : Copies) (at_ : PassAt)
    (q : BufferCache.Pick) :
    (⟨picks, shownRun run, at_⟩ : Pass).joinsRun (shownPick q) ↔
      BufferCache.State.joinsRun run q = true := by
  cases run with
  | nil => simp [Pass.joinsRun, BufferCache.State.joinsRun, shownRun]
  | cons c run => simp [Pass.joinsRun, BufferCache.State.joinsRun, shownRun, shownPick]

/-- What the engine's pass holds, the cache's does. -/
theorem mem_held_of_shown {p : BufferCache.Pass} {q : Pick} (hq : q ∈ (shownPass p).held) :
    ∃ q' ∈ p.held, shownPick q' = q := by
  have hsub : (shownPass p).held ⊆ p.held.map shownPick := by
    intro x hx
    cases hat : p.at_ with
    | write next =>
      cases next <;> simpa [shownPass, hat, Pass.held, Pass.written, Pass.copies, Pass.left,
        shownRun, BufferCache.Pass.held, BufferCache.Next.picks] using hx
    | mark todo next =>
      cases next <;> simpa [shownPass, hat, Pass.held, Pass.written, Pass.copies, Pass.left,
        shownMarks, BufferCache.Pass.held, BufferCache.Next.picks] using hx
    | drop r =>
      have hx : x = shownPick r ∨ ∃ a ∈ p.picks, shownPick a = x := by
        simpa [shownPass, hat, Pass.held, Pass.written, Pass.copies, Pass.left] using hx
      simp only [BufferCache.Pass.held, hat, List.map_append, List.map_cons, List.mem_append,
        List.mem_cons, List.mem_map]
      exact Or.inr (hx.imp_left id)
    | unwind todo =>
      simp [shownPass, hat, Pass.held, Pass.written, Pass.copies, Pass.left] at hx
    | _ =>
      simpa [shownPass, hat, Pass.held, Pass.written, Pass.copies, Pass.left, shownRun,
        BufferCache.Pass.held] using hx
  exact List.mem_map.mp (hsub hq)

/-- No block is picked twice. -/
theorem nodup_held {capacity : Nat} {init : Nat → Block} {c : BufferCache.State}
    (hr : BufferCache.Run capacity false init c) {p : BufferCache.Pass} (hp : c.pass = some p) :
    (p.held.map BufferCache.Pick.blockNo).Nodup := by
  have hnodup := (hr.transparent.holding p hp).nodup
  have hmap : ∀ q ∈ p.held, c.map q.blockNo = some q.f := by
    intro q hq
    obtain ⟨hlt, hm, hb⟩ := hr.shape.held q (by rw [Shape.held_eq hp]; exact hq)
    exact (hr.shape.place.maps _ _).mpr ⟨hlt, hm.resolve_right (hr.transparent.not_dead _), hb⟩
  refine hnodup.of_map.map_on fun q hq r hr hqr => ?_
  have hf : q.f = r.f := by
    have hmq := hmap q hq
    rw [hqr, hmap r hr] at hmq
    exact (Option.some.inj hmq).symm
  exact List.inj_on_of_nodup_map hnodup hq hr hf

/-- A pass that picks frames one after the other. -/
theorem pickAll {s : Storage} {picks : List Pick} (qs : List Pick)
    (hp : s.pass = some ⟨picks, [], .picking⟩) (he : ∀ q ∈ qs, s.Eligible q)
    (hn : ((picks ++ qs).map Pick.blockNo).Nodup) :
    ReflTransGen Step s { s with pass := some ⟨picks ++ qs, [], .picking⟩ } := by
  induction qs generalizing s picks with
  | nil =>
    rw [List.append_nil, ← hp]
  | cons q qs ih =>
    have hsplit : picks ++ q :: qs = picks ++ [q] ++ qs := (List.append_assoc picks [q] qs).symm
    have hq : q.blockNo ∉ picks.map Pick.blockNo := by
      rw [hsplit, List.append_assoc, List.map_append, List.nodup_append] at hn
      intro hmem
      exact hn.2.2 _ hmem _ (List.mem_map_of_mem (List.mem_cons_self ..)) rfl
    have hstep := Step.passPick q picks hp (he q (List.mem_cons_self ..)) hq
    rw [hsplit] at hn ⊢
    exact .head hstep (ih rfl (fun r hr => he r (List.mem_cons_of_mem _ hr)) hn)

/-! ## The engine and the cache -/

/-- What the engine has in common with the cache, on a device that held `init` at first. -/
structure Caches (init : Nat → Block) (s : Storage) (c : BufferCache.State) : Prop where
  spec : results init c.trace = s.hist.visible
  disk : ∀ b, b ≠ 0 → (c.disk b).bytes = s.img.contents b
  frames : CacheShows c s.cache
  pass : s.pass = c.pass.map shownPass
  ready : ∀ p, c.pass = some p → PassReady p
  durable : s.wal.durableLsn = c.durable

/-- The engine goes on in what it has in common with the cache, and leaves `write_back_all` at
    most. -/
structure Beside (s s' : Storage) : Prop where
  steps : ReflTransGen Step s s'
  rest : s' = { s with img := s'.img, cache := s'.cache, pass := s'.pass, phase := s'.phase }
  phase : s'.phase = s.phase ∨ s.phase = .writeBack ∧ s'.phase = .wroteBack

namespace Beside

variable {s s' : Storage}

theorem refl (s : Storage) : Beside s s := ⟨.refl, rfl, Or.inl rfl⟩

theorem one (hs : Step s s')
    (hr : s' = { s with img := s'.img, cache := s'.cache, pass := s'.pass, phase := s'.phase })
    (hp : s'.phase = s.phase) : Beside s s' := ⟨.single hs, hr, Or.inl hp⟩

end Beside

namespace Caches

variable {capacity : Nat} {init : Nat → Block} {s s' : Storage} {c c' : BufferCache.State}

/-- The cache goes on in nothing the engine has. -/
theorem alike (h : Caches init s c) (ha : Alike c c')
    (htr : results init c'.trace = results init c.trace) (hdisk : c'.disk = c.disk)
    (hpass : c'.pass.map shownPass = c.pass.map shownPass)
    (hready : ∀ p, c'.pass = some p → PassReady p) (hd : c'.durable = c.durable) :
    Caches init s c' where
  spec := htr.trans h.spec
  disk := by
    rw [hdisk]
    exact h.disk
  frames := h.frames.alike ha
  pass := h.pass.trans hpass.symm
  ready := hready
  durable := h.durable.trans hd.symm

/-- The same, and the pass stays where it is. -/
theorem besidePass (h : Caches init s c) (ha : Alike c c')
    (htr : results init c'.trace = results init c.trace) (hdisk : c'.disk = c.disk)
    (hpass : c'.pass = c.pass) (hd : c'.durable = c.durable) : Caches init s c' :=
  h.alike ha htr hdisk (by rw [hpass]) (by rw [hpass]; exact h.ready) hd

/-- The bytes the engine has of a frame are those of the cache. -/
theorem data_eq (h : Caches init s c) (hi : s.Inv) (ht : BufferCache.Transparent init c)
    (hsh : Shape c) {b : Nat} {f : FrameId} {x : Frame} (hm : c.map b = some f)
    (hb : s.cache b = some x) : x.data = (c.frames f).data.bytes := by
  obtain ⟨-, hmap, hbn⟩ := (hsh.place.maps b f).mp hm
  obtain ⟨f', hm', hl, -⟩ := h.frames.of_cached hb
  rw [hm] at hm'
  cases hm'
  rw [(ht.coherent.cached f hmap).data hl, hbn, h.spec]
  exact hi.cache.data b x hb

/-- A frame that is not pinned is not pinned for the engine. -/
theorem not_pinned (h : Caches init s c) (hsh : Shape c) {b : Nat} {f : FrameId}
    (hm : c.map b = some f) (hp : (c.frames f).pins = 0)
    (hnd : ∀ f, ¬ (c.frames f).Dead) : ¬ s.Pinned b := by
  rintro ⟨p, hpass, hmem⟩
  rw [h.pass] at hpass
  obtain ⟨p', hp', rfl⟩ := Option.map_eq_some_iff.mp hpass
  obtain ⟨q, hq, hqb⟩ := List.mem_map.mp hmem
  obtain ⟨q', hq', rfl⟩ := mem_held_of_shown hq
  have hheld : q' ∈ c.held := by
    rw [Shape.held_eq hp']
    exact hq'
  obtain ⟨hlt, hmapped, hbn⟩ := hsh.held q' hheld
  have hmq := (hsh.place.maps _ _).mpr ⟨hlt, hmapped.resolve_right (hnd _), rfl⟩
  -- the picked frame holds this block, so it is this frame
  have hbq : (c.frames q'.f).blockNo = b := hbn.trans hqb
  rw [hbq, hm] at hmq
  cases hmq
  exact (hsh.unused hp).2.1 q' hheld rfl

/-! ## Frames are taken -/

/-- A victim leaves the map, written to the device before or not. -/
theorem victim (h : Caches init s c) (hsh : Shape c) {b : Nat} {f : FrameId}
    {g : BufferCache.Frame} (hm : c.map b = some f) (hl : g.locked = false)
    (hframes : c'.frames = Function.update c.frames f g)
    (hmap : c'.map = Function.update c.map b none) (hcalls : c'.calls = c.calls)
    (hpass : c'.pass = c.pass) (hd : c'.durable = c.durable)
    (htr : results init c'.trace = results init c.trace) {img : BlockFile 4096}
    (hdisk : ∀ b, b ≠ 0 → (c'.disk b).bytes = img.contents b) :
    Caches init { s with img := img, cache := Function.update s.cache b none } c' where
  spec := htr.trans h.spec
  disk := hdisk
  frames := h.frames.evict hsh hm hmap hframes hl hcalls
  pass := by
    rw [hpass]
    exact h.pass
  ready := by
    rw [hpass]
    exact h.ready
  durable := h.durable.trans hd.symm

theorem unmap (h : Caches init s c) (hsh : Shape c) (ht : BufferCache.Transparent init c)
    {f : FrameId} (hlt : f < c.count) (hf : (c.frames f).Spare)
    (hclean : (c.frames f).mapped = true → (c.frames f).dirty = false) :
    ∃ s', Beside s s' ∧ s'.phase = s.phase ∧ Caches init s' (c.unmap f) := by
  rw [BufferCache.State.unmap]
  split
  · rename_i hmapped
    have hm := (hsh.place.maps _ f).mpr ⟨hlt, hmapped, rfl⟩
    have hl : (c.frames f).locked = false := by
      have hb := (hsh.unused hf.pins).2.2
      rw [BufferCache.Frame.busy, Bool.or_eq_false_iff] at hb
      exact hb.1
    obtain ⟨x, hx, hs⟩ := h.frames.cached _ f hm hl
    have hin : x.inTxn = false := by
      by_contra hin
      have := hs.inTxn (by simpa using hin)
      rw [hf.inTxn] at this
      cases this
    refine ⟨{ s with cache := Function.update s.cache (c.frames f).blockNo none }, ?_, rfl, ?_⟩
    · refine .one (.evictClean _ x hx (h.not_pinned hsh hm hf.pins ht.not_dead) hin ?_) rfl rfl
      rw [hs.dirty hin]
      exact hclean hmapped
    · apply h.victim hsh hm (g := { c.frames f with mapped := false }) hl
      · rfl
      · rfl
      · rfl
      · rfl
      · rfl
      · rfl
      · exact h.disk
  · exact ⟨s, .refl s, rfl, h⟩

theorem writeVictim (h : Caches init s c) (hsh : Shape c) (hi : s.Inv)
    (ht : BufferCache.Transparent init c) {f : FrameId} (hf : (c.frames f).Spare)
    (hmapped : (c.frames f).mapped = true) (hdirty : (c.frames f).dirty = true)
    (hlsn : (c.frames f).lsn ≤ c.durable) :
    ∃ s', Beside s s' ∧ s'.phase = s.phase ∧ Caches init s' ((c.writeVictim f).unmap f) := by
  have hm := (hsh.place.maps _ f).mpr
    ⟨BufferCache.Transparent.lt_count hsh hmapped, hmapped, rfl⟩
  have hl := (ht.alive f).unlocked hdirty
  obtain ⟨x, hx, hs⟩ := h.frames.cached _ f hm hl
  have hin : x.inTxn = false := by
    by_contra hin
    have := hs.inTxn (by simpa using hin)
    rw [hf.inTxn] at this
    cases this
  have hmay : s.MayWrite x := by
    refine ⟨hin, ?_⟩
    rw [hs.lsn, h.durable]
    exact hlsn
  have hframe : (c.writeVictim f).frames f = { c.frames f with dirty := false } :=
    Function.update_self ..
  refine ⟨{ s with
      img := s.img.write (c.frames f).blockNo x.data
      cache := Function.update s.cache (c.frames f).blockNo none }, ?_, rfl, ?_⟩
  · exact .one (.evictDirty _ x hx (h.not_pinned hsh hm hf.pins ht.not_dead)
      ((hs.dirty hin).trans hdirty) hmay) rfl rfl
  · rw [BufferCache.State.unmap, hframe, if_pos hmapped]
    apply h.victim hsh hm (g := { c.frames f with dirty := false, mapped := false }) hl
    · exact Function.update_idem ..
    · rfl
    · rfl
    · rfl
    · rfl
    · exact BufferCache.results_concat ..
    · intro b hb
      rw [BlockFile.contents_write]
      show (Function.update c.disk (c.frames f).blockNo (c.frames f).data b).bytes = _
      by_cases hbf : b = (c.frames f).blockNo
      · rw [hbf, Function.update_self, Function.update_self, h.data_eq hi ht hsh hm hx]
      · rw [Function.update_of_ne hbf, Function.update_of_ne hbf, h.disk b hb]

/-- A frame is taken: the engine has evicted the victim. -/
theorem takeFrame (h : Caches init s c) (hsh : Shape c) (hi : s.Inv)
    (ht : BufferCache.Transparent init c) (capacity i : Nat) :
    ∃ s', Beside s s' ∧ s'.phase = s.phase ∧ Caches init s' (c.takeFrame capacity i).1 := by
  have hnew : Caches init s (c.newFrame i).1 := by
    refine h.besidePass (.same rfl ?_ (.refl _)) rfl rfl rfl rfl
    show Function.update c.frames c.count .new = c.frames
    rw [Function.update_eq_self_iff, hsh.place.new _ (Nat.le_refl _)]
  rw [BufferCache.State.takeFrame]
  split
  · exact ⟨s, .refl s, rfl, hnew⟩
  · split
    · rename_i f d hv
      obtain ⟨hf, hspare, hclean⟩ := BufferCache.victims_clean (congrArg Prod.fst hv)
      have hown := (hsh.place.listed i).mem_iff.mp (List.mem_reverse.mp hf)
      exact h.unmap hsh ht (hsh.place.lt i f hown) hspare hclean
    · rename_i f hv
      obtain ⟨-, hspare, hm, hd, hlsn⟩ :=
        (BufferCache.victims_dirty (congrArg Prod.snd hv)).resolve_left (by intro h; contradiction)
      exact h.writeVictim hsh hi ht hspare hm hd hlsn
    · exact ⟨s, .refl s, rfl, hnew⟩

/-! ## Calls -/

/-- A call finds its block mapped; a modify joins the transaction with it. -/
theorem acquireHit (h : Caches init s c) {op : BufferCache.Op} {b : Nat} {f : FrameId} :
    Caches init s (c.acquireHit op b f) := by
  refine h.besidePass (.frame rfl rfl (.start fun _ => rfl) rfl rfl rfl rfl ?_ ?_) rfl rfl rfl rfl
  · intro hin
    show ((c.frames f).inTxn || op.inTxn) = true
    rw [hin, Bool.true_or]
  · intro hin
    refine (Bool.or_eq_true_iff.mp hin).imp_right fun hop => ?_
    exact ⟨.hit op b f, Multiset.mem_cons_self .., rfl, hop⟩

/-- Another finds it not mapped and has taken a frame for it. -/
theorem acquireMiss (h : Caches init s c) (hsh : Shape c) {op : BufferCache.Op} {b : Nat}
    {f : FrameId} (hf : (c.frames f).mapped = false) (hb : c.map b = none) :
    Caches init s (c.acquireMiss op b f) where
  spec := h.spec
  disk := h.disk
  frames := h.frames.acquireMiss hsh hf hb
  pass := h.pass
  ready := h.ready
  durable := h.durable

/-- A call reads its block, or zeroes it: the engine has no frame for it yet. -/
theorem load (h : Caches init s c) {op : BufferCache.Op} {b : Nat} {f : FrameId}
    {rest : Multiset BufferCache.Call} (hc : c.calls = .load op b f ::ₘ rest) :
    Caches init s (c.load op b f rest) := by
  apply h.besidePass
  · apply Alike.frame (f := f)
    · rfl
    · rfl
    · rw [hc]
      exact .move (fun _ => rfl) (fun _ => rfl) fun hj => ⟨rfl, hj⟩
    · rfl
    · rfl
    · rfl
    · rfl
    · exact id
    · exact Or.inl
  · rfl
  · rfl
  · rfl
  · rfl

/-- A frame that is being loaded is clean, and no modify of it is late. -/
theorem loading (h : Caches init s c) (hsh : Shape c) (ht : BufferCache.Transparent init c)
    {f : FrameId} (hl : (c.frames f).locked = true) :
    (c.frames f).dirty = false ∧ lateOf c.calls f = 0 ∧ (c.frames f).lsn = 0 ∧
      (c.frames f).version = 0 := by
  refine ⟨?_, ?_, h.frames.loading f hl⟩
  · by_contra hd
    have := (ht.alive f).unlocked (by simpa using hd)
    rw [hl] at this
    cases this
  · refine Multiset.countP_eq_zero.mpr fun d hd hfin => ?_
    cases d with
    | finish inTxn y =>
      obtain ⟨-, hy⟩ := Bool.and_eq_true_iff.mp hfin
      obtain rfl : y = f := by simpa using hy
      have hu : (c.frames y).locked = false := (hsh.calls _ hd).2.2.1
      rw [hl] at hu
      cases hu
    | _ => cases hfin

/-- A read has loaded its block and lets the lock go: the engine loads it. -/
theorem readLoaded (h : Caches init s c) (hsh : Shape c) (ht : BufferCache.Transparent init c)
    {b : Nat} {f : FrameId} {rest : Multiset BufferCache.Call}
    (hc : c.calls = .loaded .read b f ::ₘ rest)
    (hb : 1 ≤ b ∧ b < s.sb.totalBlocks.toNat) :
    ∃ s', Beside s s' ∧ s'.phase = s.phase ∧ Caches init s'
      { c.setFrame f { c.frames f with locked := false } with
        calls := .unpin f ::ₘ rest
        trace := c.trace ++ [.read b (c.frames f).data.bytes] } := by
  obtain ⟨hlt, hl, hmapped, hbn, -⟩ :=
    hsh.calls (.loaded .read b f) (by rw [hc]; exact Multiset.mem_cons_self ..)
  replace hl : (c.frames f).locked = true := hl
  have hm := (hsh.place.maps b f).mpr ⟨hlt, hmapped, hbn⟩
  have hnone : s.cache b = none := by
    refine h.frames.absent b fun y hy => ?_
    rw [hm] at hy
    cases hy
    exact hl
  obtain ⟨hdirty, hlate, hlsn, hver⟩ := h.loading hsh ht hl
  have hsame : CallsAlike c.calls (.unpin f ::ₘ rest) := by
    rw [hc]
    exact .move (fun _ => rfl) (fun _ => rfl) fun hj => by cases hj
  have hrest : ∀ d ∈ c.calls, joins d = true → d ∈ rest := by
    intro d hd hj
    rw [hc] at hd
    refine (Multiset.mem_cons.mp hd).resolve_left ?_
    rintro rfl
    cases hj
  refine ⟨_, .one (.load b hb.1 hb.2 hnone) rfl rfl, rfl, ?_⟩
  refine ⟨(BufferCache.results_concat ..).trans h.spec, h.disk, ?_, h.pass, h.ready, h.durable⟩
  apply h.frames.update hsh hm (g := { c.frames f with locked := false })
  · rfl
  · rfl
  · rfl
  · exact fun y _ => hsame.late y
  · rw [hsame.late, hlate, Storage.acquire, hnone]
    exact ⟨hlsn.symm, hver.symm, (fun hin => by cases hin), fun h => absurd rfl h,
      fun _ => hdirty.symm⟩
  · -- a modify that has found the frame meanwhile is still on its way
    intro hin
    rcases h.frames.joined b f hm hin with ⟨x, hx, -⟩ | ⟨d, hd, hdf, hj⟩
    · rw [hnone] at hx
      cases hx
    · exact Or.inr ⟨d, Multiset.mem_cons_of_mem (hrest d hd hj), hdf, hj⟩
  · exact fun d hd _ hj => Multiset.mem_cons_of_mem (hrest d hd hj)

/-! ## What the journal does with a frame -/

/-- A modify changes the bytes of its frame: the engine writes the block. -/
theorem write (h : Caches init s c) (hsh : Shape c) (ht : BufferCache.Transparent init c)
    {b : Nat} {f : FrameId} {fresh : Bool} (fn : Block → Block) {saw : BufferCache.Image}
    {d : BufferCache.Call} {calls : Multiset BufferCache.Call} (hc : c.calls = d ::ₘ calls)
    (hdf : d.frame = f)
    (hfin : ∀ y, finishes y d = false) (hm : c.map b = some f) (hin : (c.frames f).inTxn = true)
    (hsaw : saw.bytes = if fresh then Bytes.zero 4096 else results init c.trace b) :
    Caches init (s.write b fresh fn)
      { c.change b f fresh true fn saw with calls := .finish true f ::ₘ calls } := by
  have hlate : ∀ y, lateOf (.finish true f ::ₘ calls) y =
      lateOf c.calls y + (finishes y (.finish true f)).toNat := by
    intro y
    rw [lateOf_cons, hc, lateOf_cons, hfin]
    rfl
  have hself : lateOf (.finish true f ::ₘ calls) f = lateOf c.calls f + 1 := by
    rw [hlate, show finishes f (.finish true f) = true from beq_self_eq_true f]
    rfl
  -- the frame before: the engine's own, or the one it loads
  have hold : (s.acquire b fresh).lsn = (c.frames f).lsn ∧
      (s.acquire b fresh).version = (c.frames f).version + lateOf c.calls f := by
    rw [Storage.acquire]
    cases hl : (c.frames f).locked with
    | false =>
      obtain ⟨x, hx, hs⟩ := h.frames.cached b f hm hl
      rw [hx]
      exact ⟨hs.lsn, hs.version⟩
    | true =>
      obtain ⟨-, hl0, hlsn, hver⟩ := h.loading hsh ht hl
      have hnone : s.cache b = none := by
        refine h.frames.absent b fun y hy => ?_
        rw [hm] at hy
        cases hy
        exact hl
      rw [hnone, hl0, hlsn, hver]
      exact ⟨rfl, rfl⟩
  refine ⟨?_, h.disk, ?_, h.pass, h.ready, h.durable⟩
  · show results init (c.trace ++ [_]) = _
    rw [BufferCache.results_concat, Storage.write, History.visible_concat, ← h.spec]
    show Function.update (results init c.trace) b (fn saw.bytes) =
      Function.update (results init c.trace) b
        (fn (if fresh then Bytes.zero 4096 else results init c.trace b))
    rw [hsaw]
  · apply h.frames.update hsh hm
    · rfl
    · rfl
    · rfl
    · intro y hy
      rw [hlate, show finishes y (.finish true f) = false from beq_false_of_ne hy.symm]
      rfl
    · refine ⟨hold.1, ?_, fun _ => hin, fun _ => rfl, fun hn => by cases hn⟩
      rw [hself, ← Nat.add_assoc]
      exact congrArg (· + 1) hold.2
    · exact fun _ => Or.inl rfl
    · intro e he hne _
      rw [hc] at he
      refine Multiset.mem_cons_of_mem ((Multiset.mem_cons.mp he).resolve_left ?_)
      rintro rfl
      exact hne hdf

/-- `finish_modify`: the version catches up. -/
theorem finishModify (h : Caches init s c) (hsh : Shape c) {f : FrameId}
    {calls : Multiset BufferCache.Call} (hc : c.calls = .finish true f ::ₘ calls) :
    Caches init s { c.finishModify f true with calls := calls } := by
  obtain ⟨hlt, hmapped, hl, -, -⟩ :=
    hsh.calls (.finish true f) (by rw [hc]; exact Multiset.mem_cons_self ..)
  have hm := (hsh.place.maps _ f).mpr ⟨hlt, hmapped, rfl⟩
  have hlate : ∀ y, lateOf c.calls y = lateOf calls y + (finishes y (.finish true f)).toNat := by
    intro y
    rw [hc]
    exact lateOf_cons ..
  have hself : lateOf c.calls f = lateOf calls f + 1 := by
    rw [hlate, show finishes f (.finish true f) = true from beq_self_eq_true f]
    rfl
  obtain ⟨x, hx, hs⟩ := h.frames.cached _ f hm hl
  have hin : x.inTxn = true := hs.late (by rw [hself]; exact Nat.succ_ne_zero _)
  have hsame : Function.update s.cache (c.frames f).blockNo (some x) = s.cache := by
    rw [← hx]
    exact Function.update_eq_self ..
  refine ⟨h.spec, h.disk, ?_, h.pass, h.ready, h.durable⟩
  rw [← hsame]
  apply h.frames.update hsh hm
  · rfl
  · rfl
  · exact hl
  · intro y hy
    rw [hlate, show finishes y (.finish true f) = false from beq_false_of_ne hy.symm]
    rfl
  · refine ⟨hs.lsn, ?_, hs.inTxn, fun _ => hin, fun hn => ?_⟩
    · rw [hs.version, hself]
      show _ = (c.frames f).version + 1 + lateOf calls f
      omega
    · rw [hin] at hn
      cases hn
  · exact fun _ => Or.inl hin
  · intro e he hne _
    rw [hc] at he
    refine (Multiset.mem_cons.mp he).resolve_left ?_
    rintro rfl
    exact hne rfl

/-- A frame leaves the transaction, while no modify is under way. -/
theorem commitFrame (h : Caches init s c) (hsh : Shape c) {b : Nat} (lsn : Nat) {f : FrameId}
    (hm : c.map b = some f) (hin : (c.frames f).inTxn = true)
    (hno : ∀ d ∈ c.calls, d.inTxn = false) :
    ∃ x, s.cache b = some x ∧ x.inTxn = true ∧
      Caches init { s with cache := s.commitFrame b lsn x } (c.commitFrame b f lsn) := by
  have hj : ∀ d ∈ c.calls, joins d = false := by
    intro d hd
    have := hno d hd
    cases d <;> first | exact this | rfl
  have hlate : lateOf c.calls f = 0 := by
    refine Multiset.countP_eq_zero.mpr fun d hd hfin => ?_
    have hn := hno d hd
    cases d with
    | finish inTxn y =>
      rw [show inTxn = false from hn] at hfin
      cases hfin
    | _ => cases hfin
  obtain ⟨x, hx, hxin⟩ := (h.frames.inTxn_iff hj hm).mp hin
  obtain ⟨f', hm', hl, hs⟩ := h.frames.of_cached hx
  rw [hm] at hm'
  cases hm'
  refine ⟨x, hx, hxin, (BufferCache.results_concat ..).trans h.spec, h.disk, ?_, h.pass, h.ready,
    h.durable⟩
  apply h.frames.update hsh hm
  · rfl
  · rfl
  · exact hl
  · exact fun _ _ => rfl
  · refine ⟨rfl, ?_, nofun, fun hn => absurd hlate hn, fun _ => rfl⟩
    show x.version + 1 = (c.frames f).version + 1 + lateOf c.calls f
    rw [hs.version, hlate]
  · exact nofun
  · exact fun d hd _ _ => hd

/-- `copy_txn_frame` pins a frame. -/
theorem copyTxnFrame (h : Caches init s c) (f : FrameId) :
    Caches init s
      { c.setFrame f { c.frames f with pins := (c.frames f).pins + 1 } with
        calls := .copy f ::ₘ c.calls } := by
  apply h.besidePass
  · apply Alike.frame (f := f)
    · rfl
    · rfl
    · exact .start fun _ => rfl
    · rfl
    · rfl
    · rfl
    · rfl
    · exact id
    · exact Or.inl
  · rfl
  · rfl
  · rfl
  · rfl

/-- The engine goes on in nothing it has in common with the cache. -/
theorem engine (h : Caches init s c) (hv : s'.hist.visible = s.hist.visible)
    (himg : ∀ b, b ≠ 0 → s'.img.contents b = s.img.contents b) (hcache : s'.cache = s.cache)
    (hpass : s'.pass = s.pass) (hd : s'.wal.durableLsn = s.wal.durableLsn) : Caches init s' c where
  spec := h.spec.trans hv.symm
  disk := fun b hb => (h.disk b hb).trans (himg b hb).symm
  frames := by
    rw [hcache]
    exact h.frames
  pass := hpass.trans h.pass
  ready := h.ready
  durable := hd.trans h.durable

/-! ## Write-back passes -/

/-- The pass goes on, and nothing else the engine has. -/
theorem atPass (h : Caches init s c) (ha : Alike c c') (htr : c'.trace = c.trace)
    (hdisk : c'.disk = c.disk) (hd : c'.durable = c.durable) {p : Option Pass}
    (hp : c'.pass.map shownPass = p) (hready : ∀ q, c'.pass = some q → PassReady q) :
    Caches init { s with pass := p } c' where
  spec := by
    rw [htr]
    exact h.spec
  disk := by
    rw [hdisk]
    exact h.disk
  frames := h.frames.alike ha
  pass := hp.symm
  ready := hready
  durable := h.durable.trans hd.symm

theorem pass_eq (h : Caches init s c) {p : BufferCache.Pass} (hp : c.pass = some p) :
    s.pass = some (shownPass p) := by
  rw [h.pass, hp]
  rfl

/-- What a pass holds is mapped to its block, loaded and dirty. -/
theorem held_mapped (h : Caches init s c) (hsh : Shape c) (ht : BufferCache.Transparent init c)
    {q : BufferCache.Pick} (hq : q ∈ c.held) :
    c.map q.blockNo = some q.f ∧ (c.frames q.f).locked = false ∧
      ∃ x, s.cache q.blockNo = some x ∧ FrameShows (c.frames q.f) (lateOf c.calls q.f) x := by
  obtain ⟨hlt, hm, hb⟩ := hsh.held q hq
  have hmap := (hsh.place.maps _ _).mpr ⟨hlt, hm.resolve_right (ht.not_dead _), hb⟩
  have hl := (ht.alive q.f).unlocked (ht.dirty_of_held hq).1
  exact ⟨hmap, hl, h.frames.cached _ _ hmap hl⟩

/-- A frame that may be picked may be picked by the engine. -/
theorem eligible (h : Caches init s c) (ht : BufferCache.Transparent init c) (hsh : Shape c)
    {i max have_ : Nat} {q : BufferCache.Pick} (hq : q ∈ c.pickFrom i max have_) :
    s.Eligible (shownPick q) := by
  obtain ⟨-, hm, hd, hmay, hb, hv⟩ := Shape.mem_pickFrom hq
  have hmap := (hsh.place.maps _ q.f).mpr ⟨BufferCache.Transparent.lt_count hsh hm, hm, rfl⟩
  obtain ⟨x, hx, hs⟩ := h.frames.cached _ _ hmap ((ht.alive q.f).unlocked hd)
  obtain ⟨hin, hlsn⟩ := Bool.and_eq_true_iff.mp hmay
  have hin' : x.inTxn = false := by
    by_contra hn
    rw [hs.inTxn (by simpa using hn)] at hin
    cases hin
  have hlate : lateOf c.calls q.f = 0 := by
    by_contra hn
    rw [hs.late hn] at hin'
    cases hin'
  refine ⟨x, ?_, (hs.dirty hin').trans hd, ⟨hin', ?_⟩, ?_⟩
  · rw [shownPick, hb]
    exact hx
  · rw [hs.lsn, h.durable]
    exact of_decide_eq_true hlsn
  · rw [hs.version, hlate]
    exact hv

theorem passStart (h : Caches init s c) (max : Nat) (hp : c.pass = none) :
    ∃ s', Beside s s' ∧ s'.phase = s.phase ∧
      Caches init s' (c.setPass ⟨max, [], [], 0, .pick 0⟩) := by
  have hnone : s.pass = none := by
    rw [h.pass, hp]
    rfl
  refine ⟨_, .one (.passStart hnone) rfl rfl, rfl, ?_⟩
  apply h.atPass
  · exact .same rfl rfl (.refl _)
  · rfl
  · rfl
  · rfl
  · rfl
  · rintro q ⟨⟩
    exact rfl

theorem passPick (h : Caches init s c) (hr : BufferCache.Run capacity false init c)
    {max i written : Nat} {picks : List BufferCache.Pick} {run : Copies}
    (hp : c.pass = some ⟨max, picks, run, written, .pick i⟩)
    (hr' : BufferCache.Run capacity false init
      ((c.pinAll ((c.pickFrom i max picks.length).map BufferCache.Pick.f)).setPass
        ⟨max, picks ++ c.pickFrom i max picks.length, run, written, .pick (i + 1)⟩)) :
    ∃ s', Beside s s' ∧ s'.phase = s.phase ∧ Caches init s'
      ((c.pinAll ((c.pickFrom i max picks.length).map BufferCache.Pick.f)).setPass
        ⟨max, picks ++ c.pickFrom i max picks.length, run, written, .pick (i + 1)⟩) := by
  have hrun : run = [] := h.ready _ hp
  subst hrun
  have hblocks : (((picks ++ c.pickFrom i max picks.length).map shownPick).map
      Pick.blockNo).Nodup := by
    rw [List.map_map]
    exact nodup_held hr' rfl
  rw [List.map_append] at hblocks
  have hsteps := pickAll ((c.pickFrom i max picks.length).map shownPick) (h.pass_eq hp)
    (fun q hq => by
      obtain ⟨q', hq', rfl⟩ := List.mem_map.mp hq
      exact h.eligible hr.transparent hr.shape hq') hblocks
  refine ⟨_, ⟨hsteps, rfl, Or.inl rfl⟩, rfl, ?_⟩
  apply h.atPass
  · exact ⟨rfl, fun _ => rfl, fun _ => rfl, fun _ => rfl, fun _ => rfl, fun _ => id,
      fun _ => Or.inl, .refl _⟩
  · rfl
  · rfl
  · rfl
  · rw [← List.map_append]
    rfl
  · rintro q ⟨⟩
    exact rfl

/-- A checkpoint's pass has picked all the engine could pick. -/
theorem picked_all (h : Caches init s c) (hr : BufferCache.Run capacity false init c)
    {max i written : Nat} {picks sorted : List BufferCache.Pick}
    (hp : c.pass = some ⟨max, picks, [], written, .pick i⟩)
    (hsw : Sweeping (c.setPass ⟨max, sorted, [], written, .loop⟩)) (hsort : ∀ q ∈ sorted, q ∈ picks)
    {q : Pick} (hq : s.Eligible q) : q ∈ picks.map shownPick := by
  obtain ⟨x, hx, hd, ⟨hin, -⟩, hv⟩ := hq
  obtain ⟨f, hm, -, hs⟩ := h.frames.of_cached hx
  have hdirty : (c.frames f).dirty = true := (hs.dirty hin).symm.trans hd
  have hlate : lateOf c.calls f = 0 := by
    by_contra hn
    rw [hs.late hn] at hin
    cases hin
  rcases hsw with hclean | ⟨p, hp', -, -, hall⟩
  · have hclean : (c.frames f).dirty = false := hclean f
    rw [hdirty] at hclean
    cases hclean
  · cases hp'
    rcases hall f hdirty with ⟨i, j, hat, -⟩ | ⟨q', hq', rfl, hv'⟩
    · cases hat
    · have hq' := hsort q' hq'
      obtain ⟨-, -, hb⟩ := hr.shape.held q' (by rw [Shape.held_eq hp]; exact hq')
      have hbq : q.blockNo = q'.blockNo := by
        rw [← hb]
        exact ((hr.shape.place.maps _ _).mp hm).2.2.symm
      have hvq : q.version = q'.version := by
        rw [hv, hs.version, hlate]
        exact hv'.symm
      refine List.mem_map.mpr ⟨q', hq', ?_⟩
      rw [shownPick, ← hbq, ← hvq]

theorem passSort (h : Caches init s c) (hr : BufferCache.Run capacity false init c)
    {max i written : Nat} {picks : List BufferCache.Pick} {run : Copies}
    (hp : c.pass = some ⟨max, picks, run, written, .pick i⟩)
    (hsw : s.phase = .writeBack → Sweeping
      (c.setPass ⟨max, picks.mergeSort fun a b => a.blockNo ≤ b.blockNo, run, written, .loop⟩)) :
    ∃ s', Beside s s' ∧ s'.phase = s.phase ∧ Caches init s'
      (c.setPass ⟨max, picks.mergeSort fun a b => a.blockNo ≤ b.blockNo, run, written, .loop⟩) := by
  have hrun : run = [] := h.ready _ hp
  subst hrun
  have hsort := Step.passSort (picks.map shownPick) (h.pass_eq hp) fun hph q hq =>
    h.picked_all hr hp (hsw hph) (fun r hr => List.mem_mergeSort.mp hr) hq
  refine ⟨_, .one hsort rfl rfl, rfl, ?_⟩
  apply h.atPass
  · exact .same rfl rfl (.refl _)
  · rfl
  · rfl
  · rfl
  · exact congrArg (fun l : List Pick => some (⟨l, [], .loop⟩ : Pass))
      (List.map_mergeSort fun _ _ _ _ => rfl)
  · rintro q ⟨⟩
    trivial

/-- The pass copies a frame. -/
theorem passCopy (h : Caches init s c) (hr : BufferCache.Run capacity false init c) (hi : s.Inv)
    {max written : Nat} {picks : List BufferCache.Pick} {run : Copies}
    {q : BufferCache.Pick} (hp : c.pass = some ⟨max, picks, run, written, .copy q⟩) :
    ∃ s', Beside s s' ∧ s'.phase = s.phase ∧ Caches init s'
      (c.setPass ⟨max, picks, run, written, .check q (c.frames q.f).data⟩) := by
  have hq : q ∈ c.held := by
    rw [Shape.held_eq hp]
    exact List.mem_append_right _ (List.mem_cons_self ..)
  obtain ⟨hm, -, x, hx, -⟩ := h.held_mapped hr.shape hr.transparent hq
  have hrun : shownRun run = [] ∨
      Pass.joinsRun ⟨shownPick q :: picks.map shownPick, shownRun run, .loop⟩ (shownPick q) := by
    rcases h.ready _ hp with hrun | hj
    · exact Or.inl (by rw [show run = [] from hrun]; rfl)
    · exact Or.inr ((joinsRun_iff ..).mpr hj)
  refine ⟨_, .one (.passCopy (shownPick q) _ _ x (h.pass_eq hp) hrun hx) rfl rfl, rfl, ?_⟩
  apply h.atPass
  · exact .same rfl rfl (.refl _)
  · rfl
  · rfl
  · rfl
  · rw [h.data_eq hi hr.transparent hr.shape hm hx]
    rfl
  · rintro r ⟨⟩
    trivial

/-- It looks again whether the frame may go. -/
theorem passCheck (h : Caches init s c) (hr : BufferCache.Run capacity false init c)
    (hrun : (∃ d ∈ c.calls, joins d = true) → 0 < s.running) {max written : Nat}
    {picks : List BufferCache.Pick} {run : Copies}
    {q : BufferCache.Pick} {img : BufferCache.Image}
    (hp : c.pass = some ⟨max, picks, run, written, .check q img⟩) :
    ∃ s', Beside s s' ∧ s'.phase = s.phase ∧ Caches init s'
      (c.setPass (if c.mayWrite q.f then ⟨max, picks, run ++ [(q, img)], written, .loop⟩
        else ⟨max, picks, run, written, .write (.drop q)⟩)) := by
  have hq : q ∈ c.held := by
    rw [Shape.held_eq hp]
    exact List.mem_append_right _ (List.mem_cons_self ..)
  obtain ⟨hm, -, x, hx, hs⟩ := h.held_mapped hr.shape hr.transparent hq
  cases hmay : c.mayWrite q.f with
  | true =>
    obtain ⟨hin, hlsn⟩ := Bool.and_eq_true_iff.mp hmay
    have hmay' : s.MayWrite x := by
      refine ⟨?_, ?_⟩
      · by_contra hn
        rw [hs.inTxn (by simpa using hn)] at hin
        cases hin
      · rw [hs.lsn, h.durable]
        exact of_decide_eq_true hlsn
    refine ⟨_, .one (.passJoin _ _ _ _ x (h.pass_eq hp) hx hmay') rfl rfl, rfl, ?_⟩
    apply h.atPass
    · exact .same rfl rfl (.refl _)
    · rfl
    · rfl
    · rfl
    · show some (shownPass ⟨max, picks, run ++ [(q, img)], written, .loop⟩) = _
      rw [shownPass, shownRun, List.map_append]
      rfl
    · rintro r ⟨⟩
      trivial
  | false =>
    -- it is in the transaction, for a modify that is under way or one that has been
    have hleave : ¬ s.MayWrite x ∨ 0 < s.running := by
      by_cases hin : (c.frames q.f).inTxn = true
      · rcases h.frames.joined _ _ hm hin with ⟨y, hy, hyin⟩ | ⟨d, hd, -, hj⟩
        · rw [hx] at hy
          cases hy
          refine Or.inl fun hmay' => ?_
          rw [hmay'.1] at hyin
          cases hyin
        · exact Or.inr (hrun ⟨d, hd, hj⟩)
      · refine Or.inl fun hmay' => ?_
        have hin : (c.frames q.f).inTxn = false := by simpa using hin
        have hlsn : (c.frames q.f).lsn ≤ c.durable := by
          rw [← hs.lsn, ← h.durable]
          exact hmay'.2
        rw [BufferCache.State.mayWrite, hin, decide_eq_true hlsn] at hmay
        cases hmay
    refine ⟨_, .one (.passLeave _ _ _ _ x (h.pass_eq hp) hx hleave) rfl rfl, rfl, ?_⟩
    apply h.atPass
    · exact .same rfl rfl (.refl _)
    · rfl
    · rfl
    · rfl
    · rfl
    · rintro r ⟨⟩
      trivial

/-- The run is written. -/
theorem passWrite (h : Caches init s c) {max written : Nat} {picks : List BufferCache.Pick}
    {run : Copies} {next : BufferCache.Next}
    (hp : c.pass = some ⟨max, picks, run, written, .write next⟩) :
    ∃ s', Beside s s' ∧ s'.phase = s.phase ∧ Caches init s' ((c.writeRun run).setPass
      ⟨max, picks, [], written + run.length, .mark run next⟩) := by
  obtain ⟨p, hps, hat, hrun, hleft⟩ : ∃ p : Pass, s.pass = some p ∧
      (p.at_ = .loop ∧ (∀ q ∈ p.picks.head?, ¬ p.joinsRun q) ∨ ∃ q, p.at_ = .leaving q) ∧
      p.run = shownRun run ∧
      (⟨p.picks, [], .marking (p.run.map Prod.fst) p.left.head?⟩ : Pass) =
        shownPass ⟨max, picks, [], written + run.length, .mark run next⟩ := by
    have hmarks : (shownRun run).map Prod.fst = shownMarks run := List.map_map
    refine ⟨_, h.pass_eq hp, ?_⟩
    have hready := h.ready _ hp
    cases next with
    | copy q =>
      refine ⟨Or.inl ⟨rfl, ?_⟩, rfl, ?_⟩
      · rintro _ ⟨⟩ hj
        have hj := (joinsRun_iff ..).mp hj
        rw [show BufferCache.State.joinsRun run q = false from hready] at hj
        cases hj
      · show (⟨_, [], .marking ((shownRun run).map Prod.fst) none⟩ : Pass) = _
        rw [hmarks]
        rfl
    | drop q =>
      refine ⟨Or.inr ⟨_, rfl⟩, rfl, ?_⟩
      show (⟨_, [], .marking ((shownRun run).map Prod.fst) (some (shownPick q))⟩ : Pass) = _
      rw [hmarks]
      rfl
    | done =>
      obtain rfl : picks = [] := hready
      refine ⟨Or.inl ⟨rfl, nofun⟩, rfl, ?_⟩
      show (⟨_, [], .marking ((shownRun run).map Prod.fst) none⟩ : Pass) = _
      rw [hmarks]
      rfl
  refine ⟨_, .one (.passFlush p hps hat) rfl rfl, rfl, ?_⟩
  refine ⟨?_, fun b hb => ?_, h.frames.alike (.same rfl rfl (.refl _)), congrArg some hleft, ?_,
    h.durable⟩
  · have htr := BufferCache.results_device init c.trace (run.map fun c => (c.1.blockNo, c.2))
      c.durable
    rw [List.map_map] at htr
    exact htr.trans h.spec
  · have hws : p.run.map (fun c => (c.1.blockNo, c.2)) =
        (run.map fun c => (c.1.blockNo, c.2)).map fun w => (w.1, BufferCache.Image.bytes w.2) := by
      rw [hrun, shownRun, List.map_map, List.map_map]
      rfl
    show (applyWrites c.disk (run.map fun c => (c.1.blockNo, c.2)) b).bytes = _
    rw [BlockFile.contents_writeAll, hws, map_applyWrites BufferCache.Image.bytes]
    exact applyWrites_congr _ _ _ (h.disk b hb)
  · rintro q ⟨⟩
    exact rfl

/-- A frame of the run is marked. -/
theorem passMark (h : Caches init s c) (hr : BufferCache.Run capacity false init c)
    {max written : Nat} {picks : List BufferCache.Pick} {run : Copies}
    {k : BufferCache.Pick × BufferCache.Image} {ks : Copies} {next : BufferCache.Next}
    (hp : c.pass = some ⟨max, picks, run, written, .mark (k :: ks) next⟩) :
    ∃ s', Beside s s' ∧ s'.phase = s.phase ∧ Caches init s'
      ((c.markFrame k.1).setPass ⟨max, picks, run, written, .mark ks next⟩) := by
  have hq : k.1 ∈ c.held := by
    rw [Shape.held_eq hp]
    simp [BufferCache.Pass.held]
  obtain ⟨hm, hl, x, hx, hs⟩ := h.held_mapped hr.shape hr.transparent hq
  have hready := h.ready _ hp
  -- the frame, marked by the engine
  let x' : Frame := if x.version = k.1.version ∧ x.dirty then { x with dirty := false } else x
  have hmark : Storage.markFrame s.cache (shownPick k.1) =
      Function.update s.cache k.1.blockNo (some x') := by
    rw [Storage.markFrame, shownPick, hx]
    rfl
  have hx' : x'.lsn = x.lsn ∧ x'.version = x.version ∧ x'.inTxn = x.inTxn := by
    show (if _ then _ else _ : Frame).lsn = _ ∧ (if _ then _ else _ : Frame).version = _ ∧
      (if _ then _ else _ : Frame).inTxn = _
    split <;> exact ⟨rfl, rfl, rfl⟩
  have hshow : FrameShows
      { c.frames k.1.f with
        dirty := (c.frames k.1.f).dirty &&
          !(decide ((c.frames k.1.f).version = k.1.version) && (c.frames k.1.f).dirty)
        pins := (c.frames k.1.f).pins - 1 } (lateOf c.calls k.1.f) x' := by
    refine ⟨hx'.1.trans hs.lsn, hx'.2.1.trans hs.version, fun hin => hs.inTxn (hx'.2.2 ▸ hin),
      fun hl => hx'.2.2.trans (hs.late hl), fun hin => ?_⟩
    rw [hx'.2.2] at hin
    have hlate : lateOf c.calls k.1.f = 0 := by
      by_contra hn
      rw [hs.late hn] at hin
      cases hin
    have hv : x.version = (c.frames k.1.f).version := by
      rw [hs.version, hlate]
      rfl
    have hd := hs.dirty hin
    show (if _ then _ else _ : Frame).dirty = _
    rw [hv, hd]
    by_cases hver : (c.frames k.1.f).version = k.1.version
    · cases hdk : (c.frames k.1.f).dirty with
      | true => simp [hver]
      | false => simp [hd, hdk]
    · simp [hver, hd]
  obtain ⟨qs, left, hbefore, hafter⟩ : ∃ qs left,
      shownPass ⟨max, picks, run, written, .mark (k :: ks) next⟩ =
        ⟨qs, [], .marking (shownPick k.1 :: shownMarks ks) left⟩ ∧
      shownPass ⟨max, picks, run, written, .mark ks next⟩ =
        ⟨qs, [], .marking (shownMarks ks) left⟩ := by
    cases next <;> exact ⟨_, _, rfl, rfl⟩
  refine ⟨_, .one (.passMark _ _ _ _ ((h.pass_eq hp).trans (congrArg some hbefore))) rfl rfl,
    rfl, ?_⟩
  refine ⟨h.spec, h.disk, ?_, congrArg some hafter.symm, ?_, h.durable⟩
  · show CacheShows _ (Storage.markFrame s.cache (shownPick k.1))
    rw [hmark]
    apply h.frames.update hr.shape hm
    · rfl
    · rfl
    · exact hl
    · exact fun _ _ => rfl
    · exact hshow
    · intro hin
      refine (h.frames.joined _ _ hm hin).imp_left ?_
      rintro ⟨y, hy, hyin⟩
      rw [hx] at hy
      cases hy
      exact hx'.2.2.trans hyin
    · exact fun d hd _ _ => hd
  · rintro q ⟨⟩
    exact hready

theorem passMarked (h : Caches init s c) (hsh : Shape c) {max written : Nat}
    {picks : List BufferCache.Pick} {run : Copies}
    {next : BufferCache.Next} (hp : c.pass = some ⟨max, picks, run, written, .mark [] next⟩) :
    ∃ s', Beside s s' ∧ Caches init s' (c.goOn ⟨max, picks, run, written, .mark [] next⟩ next) := by
  have hrun : run = [] := h.ready _ hp
  subst hrun
  have hps := h.pass_eq hp
  cases next with
  | copy q =>
    refine ⟨_, .one (.passMarked _ _ hps) rfl rfl, ?_⟩
    apply h.atPass
    · exact .same rfl rfl (.refl _)
    · rfl
    · rfl
    · rfl
    · rfl
    · rintro r ⟨⟩
      exact Or.inl rfl
  | drop q =>
    -- the engine gives the pin back with the last mark
    refine ⟨s, .refl s, ?_⟩
    apply h.alike
    · exact .same rfl rfl (.refl _)
    · rfl
    · rfl
    · rw [hp]
      rfl
    · rintro r ⟨⟩
      rfl
    · rfl
  | done =>
    obtain rfl : picks = [] := (hsh.pass _ hp).2 rfl
    have hmarked := Step.passMarked [] none hps
    have hnone : Caches init { s with pass := none } { c with pass := none } := by
      apply h.atPass
      · exact .same rfl rfl (.refl _)
      · rfl
      · rfl
      · rfl
      · rfl
      · exact nofun
    by_cases hph : s.phase = .writeBack
    · refine ⟨{ s with phase := .wroteBack, pass := none }, ⟨?_, rfl, Or.inr ⟨hph, rfl⟩⟩,
        ⟨hnone.spec, hnone.disk, hnone.frames, hnone.pass, hnone.ready, hnone.durable⟩⟩
      exact (ReflTransGen.single hmarked).tail (.checkpointWrote hph rfl)
    · refine ⟨{ s with pass := none }, ⟨?_, rfl, Or.inl rfl⟩, hnone⟩
      exact (ReflTransGen.single hmarked).tail (.passEnd rfl hph)

/-- A frame that was left out gives its pin back. -/
theorem passDrop (h : Caches init s c) {max written : Nat} {picks : List BufferCache.Pick}
    {run : Copies} {q : BufferCache.Pick}
    (hp : c.pass = some ⟨max, picks, run, written, .drop q⟩) :
    ∃ s', Beside s s' ∧ s'.phase = s.phase ∧ Caches init s'
      ((c.unpin q.f).setPass ⟨max, picks, run, written, .loop⟩) := by
  have hrun : run = [] := h.ready _ hp
  subst hrun
  refine ⟨_, .one (.passMarked _ _ (h.pass_eq hp)) rfl rfl, rfl, ?_⟩
  apply h.atPass
  · exact .frame rfl rfl (.refl _) rfl rfl rfl rfl id Or.inl
  · rfl
  · rfl
  · rfl
  · rfl
  · rintro r ⟨⟩
    trivial

/-! ## What goes on beside the journal -/

/-- The engine follows a step of a read, of an eviction or of a write-back. -/
theorem background {t : BufferCache.State} (h : Caches init s c)
    (hr : BufferCache.Run capacity false init c) (hi : s.Inv) (hb : Background capacity c t)
    (hrange : ∀ b f, c.map b = some f → 1 ≤ b ∧ b < s.sb.totalBlocks.toNat)
    (hrun : (∃ d ∈ c.calls, joins d = true) → 0 < s.running)
    (hsw : s.phase = .writeBack → Sweeping t) : ∃ s', Beside s s' ∧ Caches init s' t := by
  have hsh := hr.shape
  have ht := hr.transparent
  have hr' := hr.step hb.step
  cases hb.step with
  | hit op b f hm => exact ⟨s, .refl s, h.acquireHit⟩
  | miss op b hm =>
    obtain ⟨s', hs', -, h'⟩ := h.takeFrame hsh hi ht capacity (BufferCache.State.shardFor b)
    have hk := hsh.takeFrame capacity (BufferCache.State.shardFor b)
    exact ⟨s', hs', h'.acquireMiss hk.shape hk.mapped (hk.map b hm)⟩
  | missFails b f junk hf => cases hf
  | readHit b f rest hc hl hd =>
    refine ⟨s, .refl s, ?_⟩
    apply h.besidePass
    · apply Alike.same
      · rfl
      · rfl
      · rw [hc]
        exact .move (fun _ => rfl) (fun _ => rfl) nofun
    · exact BufferCache.results_concat ..
    · rfl
    · rfl
    · rfl
  | modifyHit fresh inTxn fn b f rest hc => exact absurd rfl (hb.no_modify (e := .modify ..) rfl)
  | throwHit op b f rest hc hl hd =>
    rw [(ht.alive f).loadFailed] at hd
    cases hd
  | load op b f rest hc => exact ⟨s, .refl s, h.load hc⟩
  | loadFails op b f junk rest hf => cases hf
  | unmapFailed op b f rest hc =>
    have hdead := (hsh.calls (.failed op b f) (by rw [hc]; exact Multiset.mem_cons_self ..)).2.1
    exact absurd hdead (ht.not_dead _)
  | readLoaded b f rest hc =>
    obtain ⟨hlt, -, hmapped, hbn, -⟩ :=
      hsh.calls (.loaded .read b f) (by rw [hc]; exact Multiset.mem_cons_self ..)
    obtain ⟨s', hs', -, h'⟩ :=
      h.readLoaded hsh ht hc (hrange b f ((hsh.place.maps b f).mpr ⟨hlt, hmapped, hbn⟩))
    exact ⟨s', hs', h'⟩
  | modifyLoaded fresh inTxn fn b f rest hc =>
    exact absurd rfl (hb.no_modify (e := .modify ..) rfl)
  | finishModify inTxn f rest hc =>
    have hcount := hb.countP
    rw [hc, GroupCommit.countP_journal_cons] at hcount
    exact absurd hcount (Nat.ne_of_lt (Nat.lt_succ_self _))
  | unpin f rest hc =>
    refine ⟨s, .refl s, ?_⟩
    apply h.besidePass
    · apply Alike.frame (f := f)
      · rfl
      · rfl
      · rw [hc]
        exact .stop (fun _ => rfl) rfl
      · rfl
      · rfl
      · rfl
      · rfl
      · exact id
      · exact Or.inl
    · rfl
    · rfl
    · rfl
    · rfl
  | copyTxnFrame b f hm => cases hb.start rfl
  | copied f rest hc hl =>
    have hcount := hb.countP
    rw [hc, GroupCommit.countP_journal_cons, GroupCommit.countP_journal_cons] at hcount
    exact absurd hcount (Nat.ne_of_lt (Nat.lt_succ_self _))
  | commitFrame b f lsn hm => exact absurd rfl (hb.no_modify (e := .commit ..) rfl)
  | durable lsn hl =>
    exact ⟨s, .refl s, h.besidePass (.same rfl rfl (.refl _)) rfl rfl rfl hb.durable⟩
  | passStart max hp =>
    obtain ⟨s', hs', -, h'⟩ := h.passStart max hp
    exact ⟨s', hs', h'⟩
  | passPick p i hp hat =>
    obtain ⟨max, picks, run, written, _⟩ := p
    cases hat
    obtain ⟨s', hs', -, h'⟩ := h.passPick hr hp hr'
    exact ⟨s', hs', h'⟩
  | passSort p i hp hat hend =>
    obtain ⟨max, picks, run, written, _⟩ := p
    cases hat
    obtain ⟨s', hs', -, h'⟩ := h.passSort hr hp hsw
    exact ⟨s', hs', h'⟩
  | passNext p q qs hp hat hq =>
    obtain ⟨max, picks, run, written, _⟩ := p
    cases hat
    obtain rfl : picks = q :: qs := hq
    refine ⟨s, .refl s, ?_⟩
    cases hj : BufferCache.State.joinsRun run q with
    | true =>
      apply h.alike
      · exact .same rfl rfl (.refl _)
      · rfl
      · rfl
      · rw [hp]
        rfl
      · rintro r ⟨⟩
        exact Or.inr hj
      · rfl
    | false =>
      apply h.alike
      · exact .same rfl rfl (.refl _)
      · rfl
      · rfl
      · rw [hp]
        rfl
      · rintro r ⟨⟩
        exact hj
      · rfl
  | passLast p hp hat hq =>
    obtain ⟨max, picks, run, written, _⟩ := p
    cases hat
    obtain rfl : picks = [] := hq
    refine ⟨s, .refl s, ?_⟩
    apply h.alike
    · exact .same rfl rfl (.refl _)
    · rfl
    · rfl
    · rw [hp]
      rfl
    · rintro r ⟨⟩
      rfl
    · rfl
  | passCopy p q hp hat hl =>
    obtain ⟨max, picks, run, written, _⟩ := p
    cases hat
    obtain ⟨s', hs', -, h'⟩ := h.passCopy hr hi hp
    exact ⟨s', hs', h'⟩
  | passCheck p q img hp hat =>
    obtain ⟨max, picks, run, written, _⟩ := p
    cases hat
    obtain ⟨s', hs', -, h'⟩ := h.passCheck hr hrun hp
    exact ⟨s', hs', h'⟩
  | passWrite p next hp hat =>
    obtain ⟨max, picks, run, written, _⟩ := p
    cases hat
    obtain ⟨s', hs', -, h'⟩ := h.passWrite hp
    exact ⟨s', hs', h'⟩
  | passWriteFails p next n hf => cases hf
  | passMark p k ks next hp hat =>
    obtain ⟨max, picks, run, written, _⟩ := p
    cases hat
    obtain ⟨s', hs', -, h'⟩ := h.passMark hr hp
    exact ⟨s', hs', h'⟩
  | passMarked p next hp hat =>
    obtain ⟨max, picks, run, written, _⟩ := p
    cases hat
    exact h.passMarked hsh hp
  | passDrop p q hp hat =>
    obtain ⟨max, picks, run, written, _⟩ := p
    cases hat
    obtain ⟨s', hs', -, h'⟩ := h.passDrop hp
    exact ⟨s', hs', h'⟩
  | passUnwind p q qs hp hat =>
    have hready := h.ready p hp
    rw [PassReady, hat] at hready
    exact hready.elim
  | passThrow p hp hat =>
    have hready := h.ready p hp
    rw [PassReady, hat] at hready
    exact hready.elim

end Caches

end ConcurrentFs.Engine
