/-
  ConcurrentFs.CacheWriteAhead

  No-steal and write-ahead: whatever the threads do, and whether or not the
  device fails, the bytes that reach the device contain only modifies that have
  been committed under an lsn that is durable.

  What carries it is a guard on every copy of a block's bytes: while the frame is
  out of the transaction, each modify in the copy has a commit behind it with an
  lsn up to the frame's or up to `durable_lsn()`.  A modify joins the transaction
  before it changes a byte, so a copy taken before it is still guarded after it;
  and a commit guards every copy there is.
-/
import ConcurrentFs.CacheInv

namespace ConcurrentFs.BufferCache

open Lib State

/-! ## Modifies with a commit behind them -/

/-- The event at place `m` is a transactional modify of `b`. -/
def ModifyAt (tr : List Event) (b m : Nat) : Prop :=
  ∃ fresh saw after, tr[m]? = some (.modify b fresh true saw after)

/-- Behind place `m`, `b` was committed with an lsn up to `n`. -/
def CommittedBehind (tr : List Event) (b m n : Nat) : Prop :=
  ∃ j lsn, m < j ∧ tr[j]? = some (.commit b lsn) ∧ lsn ≤ n

def Tagged (tr : List Event) (b : Nat) (img : Image) : Prop := ∀ m ∈ img.mods, ModifyAt tr b m

def Covered (tr : List Event) (b n : Nat) (img : Image) : Prop :=
  ∀ m ∈ img.mods, ModifyAt tr b m ∧ CommittedBehind tr b m n

/-- Every block handed to the device was covered by what was durable then. -/
def WriteAhead (tr : List Event) : Prop :=
  ∀ pre post b img durable, tr = pre ++ .device b img durable :: post → Covered pre b durable img

theorem getElem?_append_of_some {α : Type} {l l' : List α} {i : Nat} {a : α} (h : l[i]? = some a) :
    (l ++ l')[i]? = some a := by
  obtain ⟨hi, -⟩ := List.getElem?_eq_some_iff.mp h
  rw [List.getElem?_append_left hi, h]

theorem ModifyAt.append {tr : List Event} {b m : Nat} (h : ModifyAt tr b m) (evs : List Event) :
    ModifyAt (tr ++ evs) b m := by
  obtain ⟨fresh, saw, after, hm⟩ := h
  exact ⟨fresh, saw, after, getElem?_append_of_some hm⟩

theorem ModifyAt.lt {tr : List Event} {b m : Nat} (h : ModifyAt tr b m) : m < tr.length := by
  obtain ⟨fresh, saw, after, hm⟩ := h
  exact (List.getElem?_eq_some_iff.mp hm).1

theorem Tagged.append {tr : List Event} {b : Nat} {img : Image} (h : Tagged tr b img)
    (evs : List Event) : Tagged (tr ++ evs) b img := fun m hm => (h m hm).append evs

theorem Covered.append {tr : List Event} {b n : Nat} {img : Image} (h : Covered tr b n img)
    (evs : List Event) : Covered (tr ++ evs) b n img := by
  intro m hm
  obtain ⟨hmod, j, lsn, hj, hc, hn⟩ := h m hm
  exact ⟨hmod.append evs, j, lsn, hj, getElem?_append_of_some hc, hn⟩

theorem Covered.mono {tr : List Event} {b n n' : Nat} {img : Image} (h : Covered tr b n img)
    (hn : n ≤ n') : Covered tr b n' img := by
  intro m hm
  obtain ⟨hmod, j, lsn, hj, hc, hl⟩ := h m hm
  exact ⟨hmod, j, lsn, hj, hc, Nat.le_trans hl hn⟩

theorem Covered.tagged {tr : List Event} {b n : Nat} {img : Image} (h : Covered tr b n img) :
    Tagged tr b img := fun m hm => (h m hm).1

theorem Covered.nil {tr : List Event} {b n : Nat} {img : Image} (h : img.mods = []) :
    Covered tr b n img := by
  intro m hm
  rw [h] at hm
  cases hm

/-- A commit covers every copy there is. -/
theorem Tagged.commit {tr : List Event} {b lsn n : Nat} {img : Image} (h : Tagged tr b img)
    (hn : lsn ≤ n) : Covered (tr ++ [.commit b lsn]) b n img := by
  intro m hm
  exact ⟨(h m hm).append _, tr.length, lsn, (h m hm).lt, List.getElem?_concat_length, hn⟩

theorem WriteAhead.append {tr evs : List Event} (h : WriteAhead tr)
    (hev : ∀ b img durable, Event.device b img durable ∈ evs → Covered tr b durable img) :
    WriteAhead (tr ++ evs) := by
  intro pre post b img durable he
  rcases List.append_eq_append_iff.mp he with ⟨as, hpre, hevs⟩ | ⟨cs, htr, hcs⟩
  · -- among the new events
    rw [hpre]
    refine (hev b img durable ?_).append as
    rw [hevs]
    exact List.mem_append_right _ (List.mem_cons_self ..)
  · cases cs with
    | nil =>
      rw [List.append_nil] at htr
      rw [← htr]
      refine hev b img durable ?_
      rw [List.nil_append] at hcs
      rw [← hcs]
      exact List.mem_cons_self ..
    | cons e cs =>
      rw [List.cons_append] at hcs
      cases hcs
      exact h pre cs b img durable htr

/-! ## The guard -/

/-- A copy `img` of block `b`, made from a frame that is now `g`. -/
structure Guard (tr : List Event) (durable : Nat) (g : Frame) (b : Nat) (img : Image) : Prop where
  tagged : Tagged tr b img
  covered : g.inTxn = false → Covered tr b (max g.lsn durable) img
  dead : g.loadFailed = true → img.mods = []

theorem Guard.nil {tr : List Event} {durable : Nat} {g : Frame} {b : Nat} {img : Image}
    (h : img.mods = []) : Guard tr durable g b img :=
  ⟨(Covered.nil (n := 0) h).tagged, fun _ => .nil h, fun _ => h⟩

theorem Guard.mono {tr : List Event} {durable durable' : Nat} {g g' : Frame} {b : Nat} {img : Image}
    (h : Guard tr durable g b img) (evs : List Event) (hd : durable ≤ durable')
    (ht : g'.inTxn = false → g.inTxn = false) (hlsn : g'.lsn = g.lsn)
    (hf : g'.loadFailed = g.loadFailed) : Guard (tr ++ evs) durable' g' b img where
  tagged := h.tagged.append evs
  covered := by
    intro hin
    rw [hlsn]
    exact ((h.covered (ht hin)).append evs).mono (by omega)
  dead := by
    rw [hf]
    exact h.dead

theorem Guard.commit {tr : List Event} {durable lsn : Nat} {g g' : Frame} {b : Nat} {img : Image}
    (h : Guard tr durable g b img) (hlsn : g'.lsn = lsn) (hf : g'.loadFailed = g.loadFailed) :
    Guard (tr ++ [.commit b lsn]) durable g' b img where
  tagged := h.tagged.append _
  covered := fun _ => h.tagged.commit (by omega)
  dead := by
    rw [hf]
    exact h.dead

/-- Nobody is loading the frame, and it has bytes that somebody may copy. -/
def FrameGuard (tr : List Event) (durable : Nat) (g : Frame) : Prop :=
  g.locked = false → (g.mapped = true ∨ g.loadFailed = true) → Guard tr durable g g.blockNo g.data

structure Guarded (frames : FrameId → Frame) (calls : Multiset Call) (pass : Option Pass)
    (disk : Nat → Image) (durable : Nat) (tr : List Event) : Prop where
  cached : ∀ f, FrameGuard tr durable (frames f)
  loaded : ∀ op b f, Call.loaded op b f ∈ calls → Covered tr b durable (frames f).data
  written : ∀ b, Covered tr b durable (disk b)
  /-- What has been copied and not yet checked. -/
  check : ∀ p q img, pass = some p → p.at_ = .check q img →
    (frames q.f).locked = false ∧ Guard tr durable (frames q.f) q.blockNo img
  /-- What has been checked. -/
  run : ∀ p c, pass = some p → c ∈ p.run → Covered tr c.1.blockNo durable c.2
  trace : WriteAhead tr

def State.Guarded (s : State) : Prop :=
  BufferCache.Guarded s.frames s.calls s.pass s.disk s.durable s.trace

/-! ## Steps -/

section Frames

variable {frames : FrameId → Frame} {calls : Multiset Call} {pass : Option Pass}
  {disk : Nat → Image} {durable : Nat} {tr : List Event}

theorem FrameGuard.mono {g : Frame} (h : FrameGuard tr durable g) (evs : List Event)
    {durable' : Nat} (hd : durable ≤ durable') : FrameGuard (tr ++ evs) durable' g :=
  fun hl hm => (h hl hm).mono evs hd id rfl rfl

/-- A step that changes one frame and writes nothing. -/
theorem Guarded.frame (h : Guarded frames calls pass disk durable tr) (f : FrameId) (g : Frame)
    (calls' : Multiset Call) (evs : List Event) (hev : ∀ b img d, Event.device b img d ∉ evs)
    (hg : FrameGuard (tr ++ evs) durable g)
    (hl : ∀ op b x, .loaded op b x ∈ calls' →
      Covered tr b durable (Function.update frames f g x).data)
    (hc : ∀ p q img, pass = some p → p.at_ = .check q img → q.f = f →
      (frames f).locked = false → Guard tr durable (frames f) q.blockNo img →
      g.locked = false ∧ Guard (tr ++ evs) durable g q.blockNo img) :
    Guarded (Function.update frames f g) calls' pass disk durable (tr ++ evs) where
  cached := by
    intro x
    by_cases hx : x = f
    · rw [hx, Function.update_self]
      exact hg
    · rw [Function.update_of_ne hx]
      exact (h.cached x).mono evs (Nat.le_refl _)
  loaded := fun op b x hx => (hl op b x hx).append evs
  written := fun b => (h.written b).append evs
  check := by
    intro p q img hp hat
    obtain ⟨hlock, hguard⟩ := h.check p q img hp hat
    by_cases hx : q.f = f
    · rw [hx] at hlock hguard
      rw [hx, Function.update_self]
      exact hc p q img hp hat hx hlock hguard
    · rw [Function.update_of_ne hx]
      exact ⟨hlock, hguard.mono evs (Nat.le_refl _) id rfl rfl⟩
  run := fun p c hp hm => (h.run p c hp hm).append evs
  trace := h.trace.append fun b img d hd => absurd hd (hev b img d)

/-- The same when the frame's bytes stay as they are and nobody is loading it. -/
theorem Guarded.keep (h : Guarded frames calls pass disk durable tr) (f : FrameId) (g : Frame)
    (calls' : Multiset Call) (evs : List Event) (hev : ∀ b img d, Event.device b img d ∉ evs)
    (ha : (frames f).Alike g) (hdata : g.data = (frames f).data)
    (ht : g.inTxn = false → (frames f).inTxn = false) (hlsn : g.lsn = (frames f).lsn)
    (hl : ∀ op b x, .loaded op b x ∈ calls' → .loaded op b x ∈ calls) :
    Guarded (Function.update frames f g) calls' pass disk durable (tr ++ evs) := by
  refine h.frame f g calls' evs hev (fun hlock hm => ?_) (fun op b x hx => ?_)
    (fun p q img _ _ _ hlock hguard => ?_)
  · rw [ha.locked] at hlock
    rw [ha.mapped, ha.loadFailed] at hm
    rw [ha.blockNo, hdata]
    exact (h.cached f hlock hm).mono evs (Nat.le_refl _) ht hlsn ha.loadFailed
  · have hx' := h.loaded op b x (hl op b x hx)
    by_cases hf : x = f
    · rw [hf] at hx'
      rw [hf, Function.update_self, hdata]
      exact hx'
    · rw [Function.update_of_ne hf]
      exact hx'
  · exact ⟨ha.locked.trans hlock, hguard.mono evs (Nat.le_refl _) ht hlsn ha.loadFailed⟩

/-- A frame is changed by the call that loads it. -/
theorem Guarded.owner (h : Guarded frames calls pass disk durable tr) (f : FrameId) (g : Frame)
    (calls' : Multiset Call) (evs : List Event) (hev : ∀ b img d, Event.device b img d ∉ evs)
    (hlock : (frames f).locked = true) (hg : FrameGuard (tr ++ evs) durable g)
    (hl : ∀ op b x, .loaded op b x ∈ calls' →
      Covered tr b durable (Function.update frames f g x).data) :
    Guarded (Function.update frames f g) calls' pass disk durable (tr ++ evs) := by
  refine h.frame f g calls' evs hev hg hl fun p q img _ _ _ hl' _ => ?_
  rw [hlock] at hl'
  cases hl'

/-- The log is synced. -/
theorem Guarded.sync (h : Guarded frames calls pass disk durable tr) {durable' : Nat}
    (hd : durable ≤ durable') : Guarded frames calls pass disk durable' tr where
  cached := by
    intro f
    have := (h.cached f).mono [] hd
    rwa [List.append_nil] at this
  loaded := fun op b f hc => (h.loaded op b f hc).mono hd
  written := fun b => (h.written b).mono hd
  check := by
    intro p q img hp hat
    obtain ⟨hl, hguard⟩ := h.check p q img hp hat
    have := hguard.mono [] hd id rfl rfl
    rw [List.append_nil] at this
    exact ⟨hl, this⟩
  run := fun p c hp hc => (h.run p c hp hc).mono hd
  trace := h.trace

/-- A pass goes on. -/
theorem Guarded.repass (h : Guarded frames calls pass disk durable tr) (pass' : Option Pass)
    (hc : ∀ p q img, pass' = some p → p.at_ = .check q img →
      (frames q.f).locked = false ∧ Guard tr durable (frames q.f) q.blockNo img)
    (hr : ∀ p c, pass' = some p → c ∈ p.run → Covered tr c.1.blockNo durable c.2) :
    Guarded frames calls pass' disk durable tr :=
  { h with check := hc, run := hr }

/-- Covered bytes are written. -/
theorem Guarded.write (h : Guarded frames calls pass disk durable tr)
    (ws : List (Nat × Image)) (hw : ∀ w ∈ ws, Covered tr w.1 durable w.2) :
    Guarded frames calls pass (applyWrites disk ws) durable
      (tr ++ ws.map fun w => .device w.1 w.2 durable) where
  cached := fun f => (h.cached f).mono _ (Nat.le_refl _)
  loaded := fun op b f hm => (h.loaded op b f hm).append _
  written := fun b =>
    (applyWrites_invariant (P := fun b img => Covered tr b durable img) h.written hw b).append _
  check := by
    intro p q img hp hat
    obtain ⟨hlock, hguard⟩ := h.check p q img hp hat
    exact ⟨hlock, hguard.mono _ (Nat.le_refl _) id rfl rfl⟩
  run := fun p c hp hm => (h.run p c hp hm).append _
  trace := by
    refine h.trace.append fun b img d hd => ?_
    obtain ⟨w, hm, he⟩ := List.mem_map.mp hd
    cases he
    exact hw w hm

end Frames

theorem not_mem_nil (b : Nat) (img : Image) (d : Nat) : Event.device b img d ∉ [] := nofun

section Calls

variable {s : State}

theorem mem_held_of_check {p : Pass} {q : Pick} {img : Image} (hp : s.pass = some p)
    (hat : p.at_ = .check q img) : q ∈ s.held := by
  rw [Shape.held_eq hp, Pass.held, hat]
  exact List.mem_append_right _ (List.mem_cons_self ..)

/-- A call starts on a mapped frame. -/
theorem State.Guarded.start (h : s.Guarded) (f : FrameId) (g : Frame) (c : Call)
    (ha : (s.frames f).Alike g) (hdata : g.data = (s.frames f).data)
    (ht : g.inTxn = false → (s.frames f).inTxn = false) (hlsn : g.lsn = (s.frames f).lsn)
    (hc : c.owns = false) :
    BufferCache.Guarded (Function.update s.frames f g) (c ::ₘ s.calls) s.pass s.disk s.durable
      s.trace := by
  have := BufferCache.Guarded.keep h f g (c ::ₘ s.calls) [] not_mem_nil ha hdata ht hlsn
    fun op b x hx => ?_
  · rwa [List.append_nil] at this
  · rcases Multiset.mem_cons.mp hx with rfl | hx
    · cases hc
    · exact hx

/-- A call goes on or ends with its frame's bytes as they are. -/
theorem State.Guarded.move (h : s.Guarded) {c : Call} {rest calls : Multiset Call}
    (hs : s.calls = c ::ₘ rest) (g : Frame) (ha : (s.frames c.frame).Alike g)
    (hdata : g.data = (s.frames c.frame).data) (ht : g.inTxn = (s.frames c.frame).inTxn)
    (hlsn : g.lsn = (s.frames c.frame).lsn) (hc : ∀ d ∈ calls, d.owns = true → d ∈ rest)
    (evs : List Event) (hev : ∀ b img d, Event.device b img d ∉ evs) :
    BufferCache.Guarded (Function.update s.frames c.frame g) calls s.pass s.disk s.durable
      (s.trace ++ evs) := by
  refine BufferCache.Guarded.keep h c.frame g calls evs hev ha hdata (fun hin => ht ▸ hin) hlsn
    fun op b x hx => ?_
  rw [hs]
  exact Multiset.mem_cons_of_mem (hc _ hx rfl)

theorem owns_cons {c : Call} {rest : Multiset Call} (hc : c.owns = false) :
    ∀ d ∈ c ::ₘ rest, d.owns = true → d ∈ rest := by
  intro d hd ho
  rcases Multiset.mem_cons.mp hd with rfl | hd
  · rw [hc] at ho
    cases ho
  · exact hd

theorem State.Guarded.look (h : s.Guarded) {c : Call} {rest : Multiset Call}
    (hs : s.calls = c ::ₘ rest) (evs : List Event) (hev : ∀ b img d, Event.device b img d ∉ evs) :
    BufferCache.Guarded s.frames (.unpin c.frame ::ₘ rest) s.pass s.disk s.durable
      (s.trace ++ evs) := by
  have := h.move hs (s.frames c.frame) (.refl _) rfl rfl rfl
    (owns_cons (c := .unpin c.frame) rfl) evs hev
  rwa [Function.update_eq_self] at this

/-- The bytes of a frame change: the modify is in them, and so is its frame in the transaction. -/
theorem guard_change {tr : List Event} {durable b : Nat} {g : Frame} {fresh inTxn : Bool}
    {fn : Block → Block} {saw : Image} (hsaw : Guard tr durable g b saw)
    (ht : inTxn = true → g.inTxn = true) (hf : g.loadFailed = false) (g' : Frame)
    (ht' : g'.inTxn = g.inTxn) (hlsn : g'.lsn = g.lsn) (hf' : g'.loadFailed = g.loadFailed) :
    Guard (tr ++ [.modify b fresh inTxn saw.bytes (fn saw.bytes)]) durable g' b
      ⟨fn saw.bytes, saw.mods ++ if inTxn then [tr.length] else []⟩ := by
  have hmono : Guard (tr ++ [.modify b fresh inTxn saw.bytes (fn saw.bytes)]) durable g' b saw :=
    hsaw.mono _ (Nat.le_refl _) (fun h => ht' ▸ h) hlsn hf'
  refine ⟨fun m hm => ?_, fun hin m hm => ?_, fun hl => ?_⟩
  · rcases List.mem_append.mp hm with hm | hm
    · exact hmono.tagged m hm
    · cases inTxn with
      | false => cases hm
      | true =>
        rw [List.mem_singleton.mp hm]
        exact ⟨fresh, _, _, List.getElem?_concat_length⟩
  · -- out of the transaction it was no transactional modify
    cases inTxn with
    | false =>
      replace hm : m ∈ saw.mods ++ [] := hm
      rw [List.append_nil] at hm
      exact hmono.covered hin m hm
    | true =>
      rw [ht', ht rfl] at hin
      cases hin
  · rw [hf', hf] at hl
    cases hl

theorem State.Guarded.modifyHit (h : s.Guarded) (hsh : Shape s) {fresh inTxn : Bool}
    {fn : Block → Block} {b : Nat} {f : FrameId} {rest : Multiset Call}
    (hs : s.calls = .hit (.modify fresh inTxn fn) b f ::ₘ rest)
    (hl : (s.frames f).locked = false) (hd : (s.frames f).loadFailed = false) :
    State.Guarded { s.change b f fresh inTxn fn (if fresh then .zero else (s.frames f).data) with
      calls := .finish inTxn f ::ₘ rest } := by
  have hnd : ¬ (s.frames f).Dead := fun hdead => by
    rw [hdead.1] at hd
    cases hd
  obtain ⟨hm, ht⟩ := (hsh.calls (.hit (.modify fresh inTxn fn) b f)
    (by rw [hs]; exact Multiset.mem_cons_self ..)).2
  obtain ⟨hm, hb⟩ := hm.resolve_right hnd
  replace ht := fun ho => (ht ho).resolve_right hnd
  replace hm : (s.frames f).mapped = true := hm
  replace hb : (s.frames f).blockNo = b := hb
  have hold := h.cached f hl (Or.inl hm)
  rw [hb] at hold
  have hsaw : Guard s.trace s.durable (s.frames f) b
      (if fresh then .zero else (s.frames f).data) := by
    cases fresh with
    | false => exact hold
    | true => exact .nil rfl
  refine BufferCache.Guarded.frame h f _ _ _ (by simp) (fun _ _ => ?_) (fun op c x hx => ?_)
    (fun p q img _ _ _ _ hguard => ⟨rfl, hguard.mono _ (Nat.le_refl _) id rfl rfl⟩)
  · show Guard _ _ _ (s.frames f).blockNo _
    rw [hb]
    exact guard_change hsaw ht hd _ rfl rfl rfl
  · -- nobody is loading an unlocked frame
    have hx' : Call.loaded op c x ∈ s.calls := by
      rw [hs]
      exact Multiset.mem_cons_of_mem (owns_cons (c := .finish inTxn f) rfl _ hx rfl)
    rw [Function.update_of_ne]
    · exact h.loaded op c x hx'
    · rintro rfl
      have := (hsh.calls _ hx').2.1
      rw [show (s.frames (Call.loaded op c x).frame).locked = false from hl] at this
      cases this

/-- The calls that have loaded a frame, when the one of `f` changes. -/
theorem State.Guarded.loaded_of_ne (h : s.Guarded) {c : Call} {rest : Multiset Call}
    (hs : s.calls = c ::ₘ rest) (hf : ∀ d ∈ rest, d.frame = c.frame → d.owns = false) (g : Frame) :
    ∀ op b x, Call.loaded op b x ∈ rest →
      Covered s.trace b s.durable (Function.update s.frames c.frame g x).data := by
  intro op b x hx
  have hx' : Call.loaded op b x ∈ s.calls := by
    rw [hs]
    exact Multiset.mem_cons_of_mem hx
  rw [Function.update_of_ne]
  · exact h.loaded op b x hx'
  · intro he
    cases hf _ hx he

/-- The call that loads goes on. -/
theorem State.Guarded.moveOwner (h : s.Guarded) (hsh : Shape s) {c : Call} {rest : Multiset Call}
    (hs : s.calls = c ::ₘ rest) (c' : Call) (ho : c.owns = true)
    (hl : (s.frames c.frame).locked = true)
    (g : Frame) (hc' : ∀ op b x, c' = .loaded op b x → x = c.frame ∧
    Covered s.trace b s.durable g.data)
    (evs : List Event) (hev : ∀ b img d, Event.device b img d ∉ evs)
    (hg : FrameGuard (s.trace ++ evs) s.durable g) :
    BufferCache.Guarded (Function.update s.frames c.frame g) (c' ::ₘ rest) s.pass s.disk s.durable
      (s.trace ++ evs) := by
  have hone := hsh.owned
  rw [hs] at hone
  refine BufferCache.Guarded.owner h c.frame g _ evs hev hl hg fun op b x hx => ?_
  rcases Multiset.mem_cons.mp hx with he | hx
  · obtain ⟨rfl, hcov⟩ := hc' op b x he.symm
    rw [Function.update_self]
    exact hcov
  · exact h.loaded_of_ne hs (hone.unique ho) g op b x hx

theorem State.Guarded.load (h : s.Guarded) (hsh : Shape s) {op : Op} {b : Nat} {f : FrameId}
    {rest : Multiset Call} (hs : s.calls = .load op b f ::ₘ rest) :
    State.Guarded { s.setFrame f
        { s.frames f with loadFailed := false, data := if op.fresh then .zero else s.disk b } with
      calls := .loaded op b f ::ₘ rest } := by
  obtain ⟨hl, -⟩ := (hsh.calls _ (by rw [hs]; exact Multiset.mem_cons_self ..)).2
  replace hl : (s.frames f).locked = true := hl
  have := h.moveOwner hsh hs (.loaded op b f) rfl hl { s.frames f with
    loadFailed := false, data := if op.fresh then .zero else s.disk b } (fun op' b' x he => ?_)
      [] not_mem_nil
    (fun hl' => ?_)
  · rwa [List.append_nil] at this
  · cases he
    refine ⟨rfl, ?_⟩
    show Covered _ _ _ (if op.fresh then Image.zero else s.disk b)
    split
    · exact .nil rfl
    · exact h.written b
  · rw [hl] at hl'
    cases hl'

theorem State.Guarded.loadFails (h : s.Guarded) (hsh : Shape s) {op : Op} {b : Nat} {f : FrameId}
    {rest : Multiset Call} (hs : s.calls = .load op b f ::ₘ rest) (junk : Block) :
    State.Guarded { s.setFrame f
        { s.frames f with loadFailed := true, locked := false, data := ⟨junk, []⟩ } with
      calls := .failed op b f ::ₘ rest } := by
  obtain ⟨hl, -⟩ := (hsh.calls _ (by rw [hs]; exact Multiset.mem_cons_self ..)).2
  have := h.moveOwner hsh hs (.failed op b f) rfl hl { s.frames f with
    loadFailed := true, locked := false, data := ⟨junk, []⟩ } nofun [] not_mem_nil
    (fun _ _ => .nil rfl)
  rwa [List.append_nil] at this

theorem State.Guarded.readLoaded (h : s.Guarded) (hsh : Shape s) {op : Op} {b : Nat} {f : FrameId}
    {rest : Multiset Call} (hs : s.calls = .loaded op b f ::ₘ rest) (saw : Block) :
    State.Guarded { s.setFrame f { s.frames f with locked := false } with
      calls := .unpin f ::ₘ rest, trace := s.trace ++ [.read b saw] } := by
  have hmem : Call.loaded op b f ∈ s.calls := by rw [hs]; exact Multiset.mem_cons_self ..
  obtain ⟨hl, hm, hb, ht, hd⟩ := (hsh.calls _ hmem).2
  replace hb : (s.frames f).blockNo = b := hb
  replace hd : (s.frames f).loadFailed = false := hd
  have hcov := (h.loaded op b f hmem).append [.read b saw]
  refine h.moveOwner hsh hs (.unpin f) rfl hl _ nofun _ (by simp) fun _ _ => ?_
  refine ⟨?_, fun _ => ?_, fun hd' => ?_⟩
  · rw [hb]
    exact hcov.tagged
  · rw [hb]
    exact hcov.mono (Nat.le_max_right ..)
  · rw [show (s.frames f).loadFailed = true from hd'] at hd
    cases hd

theorem State.Guarded.modifyLoaded (h : s.Guarded) (hsh : Shape s) {fresh inTxn : Bool}
    {fn : Block → Block} {b : Nat} {f : FrameId} {rest : Multiset Call}
    (hs : s.calls = .loaded (.modify fresh inTxn fn) b f ::ₘ rest) :
    State.Guarded { s.change b f fresh inTxn fn (s.frames f).data with
      calls := .finish inTxn f ::ₘ rest } := by
  have hmem : Call.loaded (.modify fresh inTxn fn) b f ∈ s.calls := by
    rw [hs]
    exact Multiset.mem_cons_self ..
  obtain ⟨hl, hm, hb, ht, hd⟩ := (hsh.calls _ hmem).2
  replace hb : (s.frames f).blockNo = b := hb
  replace hd : (s.frames f).loadFailed = false := hd
  have hcov := h.loaded _ b f hmem
  refine h.moveOwner hsh hs (.finish inTxn f) rfl hl _ nofun _ (by simp) fun _ _ => ?_
  show Guard _ _ _ (s.frames f).blockNo _
  rw [hb]
  refine guard_change (g := s.frames f) ⟨hcov.tagged, fun _ => hcov.mono (Nat.le_max_right ..),
    fun hd' => ?_⟩ ht hd _ rfl rfl
    rfl
  rw [hd] at hd'
  cases hd'

theorem State.Guarded.unmapFailed (h : s.Guarded) (hsh : Shape s) {op : Op} {b : Nat} {f : FrameId}
    {rest : Multiset Call} (hs : s.calls = .failed op b f ::ₘ rest) :
    State.Guarded { (s.setFrame f
        { s.frames f with
          mapped := false, inTxn := false, pins := (s.frames f).pins - 1 }).toBack
            (shardFor b) f with
      map := Function.update s.map b none
      calls := rest } := by
  obtain ⟨hdead, hm, -⟩ := (hsh.calls _ (by rw [hs]; exact Multiset.mem_cons_self ..)).2
  replace hdead : (s.frames f).Dead := hdead
  have hone := hsh.owned
  rw [hs] at hone
  have hnil := (h.cached f hdead.2 (Or.inr hdead.1)).dead hdead.1
  have := BufferCache.Guarded.frame h f { s.frames f with
      mapped := false, inTxn := false, pins := (s.frames f).pins - 1 } rest [] not_mem_nil
    (fun _ _ => .nil hnil) (h.loaded_of_ne hs (hone.unique rfl) _)
    (fun p q img _ _ _ _ hguard => ⟨hdead.2, .nil (hguard.dead hdead.1)⟩)
  rwa [List.append_nil] at this

theorem State.Guarded.commitFrame (h : s.Guarded) (hsh : Shape s) {b : Nat}
    {f : FrameId} {lsn : Nat}
    (hb : s.map b = some f) : (s.commitFrame b f lsn).Guarded := by
  obtain ⟨-, hm, hbn⟩ := (hsh.place.maps b f).mp hb
  refine BufferCache.Guarded.frame h f _ _ _ (by simp) (fun hl _ => ?_) (fun op c x hx => ?_)
    (fun p q img hp hat hq hl hguard => ⟨hl, ?_⟩)
  · have hold := h.cached f hl (Or.inl hm)
    rw [hbn] at hold
    show Guard _ _ _ (s.frames f).blockNo _
    rw [hbn]
    exact hold.commit rfl rfl
  · have hold := h.loaded op c x hx
    by_cases hxf : x = f
    · rw [hxf] at hold
      rw [hxf, Function.update_self]
      exact hold
    · rw [Function.update_of_ne hxf]
      exact hold
  · -- a copy of this frame is a copy of `b`
    have hqb := (hsh.held q (mem_held_of_check hp hat)).2.2
    rw [hq, hbn] at hqb
    rw [← hqb] at hguard ⊢
    exact hguard.commit rfl rfl

end Calls

/-! ## Eviction and write-back -/

section Writes

variable {s : State}

/-- The bytes of a dirty victim may go to the device. -/
theorem State.Guarded.victim (h : s.Guarded) (hsh : Shape s) {f : FrameId}
    (hs : (s.frames f).Spare) (hm : (s.frames f).mapped = true)
    (hl : (s.frames f).lsn ≤ s.durable) :
    Covered s.trace (s.frames f).blockNo s.durable (s.frames f).data := by
  have hlock : (s.frames f).locked = false := by
    have := (hsh.unused hs.pins).2.2
    rw [Frame.busy, Bool.or_eq_false_iff] at this
    exact this.1
  have hcov := (h.cached f hlock (Or.inl hm)).covered hs.inTxn
  rwa [Nat.max_eq_right hl] at hcov

theorem State.Guarded.tearVictim (h : s.Guarded) {f : FrameId}
    (hcov : Covered s.trace (s.frames f).blockNo s.durable (s.frames f).data) (junk : Block) :
    (s.tearVictim f junk).Guarded := by
  have hw := BufferCache.Guarded.write h [((s.frames f).blockNo, (s.frames f).data)] fun w hw => by
    rw [List.mem_singleton.mp hw]
    exact hcov
  refine { hw with written := fun b => ?_ }
  by_cases hb : b = (s.frames f).blockNo
  · -- what was there before and what was handed over are both covered
    subst hb
    show Covered _ _ _ (Function.update s.disk _ _ _)
    rw [Function.update_self]
    intro m hm
    rcases List.mem_append.mp hm with hm | hm
    · exact (h.written _).append _ m hm
    · exact hcov.append _ m hm
  · show Covered _ _ _ (Function.update s.disk _ _ _)
    rw [Function.update_of_ne hb]
    exact (h.written b).append _

theorem State.Guarded.writeVictim (h : s.Guarded) (hsh : Shape s) {f : FrameId}
    (hs : (s.frames f).Spare) (hm : (s.frames f).mapped = true)
    (hl : (s.frames f).lsn ≤ s.durable) :
    (s.writeVictim f).Guarded := by
  have hcov := h.victim hsh hs hm hl
  have hw := BufferCache.Guarded.write h [((s.frames f).blockNo, (s.frames f).data)] fun w hw => by
    rw [List.mem_singleton.mp hw]
    exact hcov
  have := hw.keep f { s.frames f with dirty := false } s.calls [] not_mem_nil ⟨rfl, rfl, rfl, rfl⟩
    rfl id rfl fun _ _ _ => id
  rwa [List.append_nil] at this

theorem State.Guarded.unmap (h : s.Guarded) (f : FrameId) : (s.unmap f).Guarded := by
  rw [State.unmap]
  cases hm : (s.frames f).mapped with
  | false => exact h
  | true =>
    have := BufferCache.Guarded.frame h f { s.frames f with mapped := false } s.calls [] not_mem_nil
      (fun hl _ => (h.cached f hl (Or.inl hm)).mono [] (Nat.le_refl _) id rfl rfl)
      (fun op b x hx => ?_)
      (fun p q img _ _ _ hl hguard => ⟨hl, hguard.mono [] (Nat.le_refl _) id rfl rfl⟩)
    · rwa [List.append_nil] at this
    · have hold := h.loaded op b x hx
      by_cases hxf : x = f
      · rw [hxf] at hold
        rw [hxf, Function.update_self]
        exact hold
      · rw [Function.update_of_ne hxf]
        exact hold

theorem State.Guarded.newFrame (h : s.Guarded) (hsh : Shape s) (i : Nat) :
    (s.newFrame i).1.Guarded := by
  have hnew : Function.update s.frames s.count .new = s.frames := by
    rw [Function.update_eq_self_iff, hsh.place.new _ (Nat.le_refl _)]
  rw [State.newFrame, hnew]
  exact h

theorem State.Guarded.takeFrame (h : s.Guarded) (hsh : Shape s) (capacity i : Nat) :
    (s.takeFrame capacity i).1.Guarded := by
  rw [State.takeFrame]
  split
  · exact h.newFrame hsh i
  · split
    · exact h.unmap _
    · rename_i f hv
      obtain ⟨hmem, hspare, hm, -, hl⟩ := (victims_dirty (congrArg Prod.snd hv)).resolve_left
        (by intro h; contradiction)
      exact (h.writeVictim hsh hspare hm hl).unmap f
    · exact h.newFrame hsh i

theorem State.Guarded.acquireMiss {t : State} (h : t.Guarded) (hsh : Shape t) {op : Op} {b : Nat}
    {f : FrameId} (hpins : (t.frames f).pins = 0) : (t.acquireMiss op b f).Guarded := by
  obtain ⟨hcalls, hheld, -⟩ := hsh.unused hpins
  have := BufferCache.Guarded.frame h f { t.frames f with
      blockNo := b, mapped := true, dirty := false, inTxn := op.inTxn, lsn := 0, version := 0,
      pins := 1, locked := true } (.load op b f ::ₘ t.calls) [] not_mem_nil nofun
    (fun op' c x hx => ?_) (fun p q img hp hat hq => ?_)
  · rwa [List.append_nil] at this
  · rcases Multiset.mem_cons.mp hx with he | hx
    · cases he
    · rw [Function.update_of_ne (show x ≠ f from hcalls _ hx)]
      exact h.loaded op' c x hx
  · exact absurd hq (hheld q (mem_held_of_check hp hat))

/-- A pass goes on with its run, or with none. -/
theorem State.Guarded.goOn (h : s.Guarded) {p p' : Pass} (hp : s.pass = some p)
    (hrun : ∀ c ∈ p'.run, c ∈ p.run) (hat : ∀ q img, p'.at_ ≠ .check q img) :
    (s.setPass p').Guarded :=
  BufferCache.Guarded.repass h (some p')
    (fun r q img hr hc => by cases hr; exact absurd hc (hat q img))
    (fun r c hr hc => by cases hr; exact h.run p c hp (hrun c hc))

/-- A pass gives a pin back. -/
theorem State.Guarded.repin (h : s.Guarded) (f : FrameId) (g : Frame) (ha : (s.frames f).Alike g)
    (hdata : g.data = (s.frames f).data) (ht : g.inTxn = (s.frames f).inTxn)
    (hlsn : g.lsn = (s.frames f).lsn) (dirtyCount : Nat) :
    State.Guarded { s with frames := Function.update s.frames f g, dirtyCount := dirtyCount } := by
  have := BufferCache.Guarded.keep h f g s.calls [] not_mem_nil ha hdata (fun hin => ht ▸ hin) hlsn
    fun _ _ _ => id
  rwa [List.append_nil] at this

theorem State.Guarded.markFrame (h : s.Guarded) (p : Pick) : (s.markFrame p).Guarded :=
  h.repin p.f { s.frames p.f with
      dirty := (s.frames p.f).dirty &&
        !(decide ((s.frames p.f).version = p.version) && (s.frames p.f).dirty)
      pins := (s.frames p.f).pins - 1 } ⟨rfl, rfl, rfl, rfl⟩ rfl rfl rfl _

theorem State.Guarded.unpin (h : s.Guarded) (f : FrameId) : (s.unpin f).Guarded :=
  h.repin f { s.frames f with pins := (s.frames f).pins - 1 } ⟨rfl, rfl, rfl, rfl⟩ rfl rfl rfl _

theorem State.Guarded.pinAll (h : s.Guarded) (fs : List FrameId) : (s.pinAll fs).Guarded :=
  { h with
    cached := fun f hl hm => { h.cached f hl hm with }
    check := fun p q img hp hat =>
      ⟨(h.check p q img hp hat).1, { (h.check p q img hp hat).2 with }⟩ }

theorem State.Guarded.writeRun (h : s.Guarded) {p : Pass} (hp : s.pass = some p)
    {run : List (Pick × Image)} (hr : ∀ c ∈ run, c ∈ p.run) : (s.writeRun run).Guarded := by
  have := BufferCache.Guarded.write h (run.map fun c => (c.1.blockNo, c.2)) fun w hw => ?_
  · rwa [List.map_map] at this
  · obtain ⟨c, hc, rfl⟩ := List.mem_map.mp hw
    exact h.run p c hp (hr c hc)

theorem State.Guarded.passCopy (h : s.Guarded) (hsh : Shape s) {p : Pass} {q : Pick}
    (hp : s.pass = some p) (hat : p.at_ = .copy q) (hl : (s.frames q.f).locked = false) :
    (s.setPass { p with at_ := .check q (s.frames q.f).data }).Guarded := by
  have hmem : q ∈ s.held := by
    rw [Shape.held_eq hp, Pass.held, hat]
    exact List.mem_append_right _ (List.mem_cons_self ..)
  obtain ⟨-, hm, hb⟩ := hsh.held q hmem
  refine BufferCache.Guarded.repass h _ (fun r q' img hr hc => ?_) (fun r c hr hc => ?_)
  · cases hr
    cases hc
    refine ⟨hl, ?_⟩
    rw [← hb]
    exact h.cached q.f hl (hm.imp id fun hd => hd.1)
  · cases hr
    exact h.run p c hp hc

theorem State.Guarded.passCheck (h : s.Guarded) {p : Pass} {q : Pick} {img : Image}
    (hp : s.pass = some p) (hat : p.at_ = .check q img) :
    (s.setPass (if s.mayWrite q.f then { p with run := p.run ++ [(q, img)], at_ := .loop }
      else { p with at_ := .write (.drop q) })).Guarded := by
  split
  · rename_i hmay
    rw [State.mayWrite, Bool.and_eq_true, Bool.not_eq_true', decide_eq_true_eq] at hmay
    have hcov := (h.check p q img hp hat).2.covered hmay.1
    rw [Nat.max_eq_right hmay.2] at hcov
    refine BufferCache.Guarded.repass h _ (fun r q' img' hr hc => ?_) (fun r c hr hc => ?_)
    · cases hr
      cases hc
    · cases hr
      rcases List.mem_append.mp hc with hc | hc
      · exact h.run p c hp hc
      · rw [List.mem_singleton.mp hc]
        exact hcov
  · exact h.goOn hp (fun _ => id) nofun

end Writes

/-! ## Runs -/

theorem State.Guarded.step {capacity : Nat} {faults : Bool} {s s' : State} (h : s.Guarded)
    (hsh : Shape s) (hs : Step capacity faults s s') : s'.Guarded := by
  cases hs with
  | hit op b f hb =>
    refine h.start f _ (.hit op b f) ⟨rfl, rfl, rfl, rfl⟩ rfl (fun hin => ?_) rfl rfl
    exact (Bool.or_eq_false_iff.mp hin).1
  | miss op b hb =>
    have ht := hsh.takeFrame capacity (shardFor b)
    exact (h.takeFrame hsh capacity (shardFor b)).acquireMiss ht.shape ht.pins
  | missFails b f junk _ _ _ hv =>
    obtain ⟨-, hspare, hm, -, hl⟩ := (victims_dirty (congrArg Prod.snd hv)).resolve_left nofun
    exact h.tearVictim (h.victim hsh hspare hm hl) junk
  | readHit b f rest hc => exact h.look hc _ (by simp)
  | modifyHit fresh inTxn fn b f rest hc hl hd => exact h.modifyHit hsh hc hl hd
  | throwHit op b f rest hc =>
    have := h.look hc [] not_mem_nil
    rwa [List.append_nil] at this
  | load op b f rest hc => exact h.load hsh hc
  | loadFails op b f junk rest _ hc => exact h.loadFails hsh hc junk
  | unmapFailed op b f rest hc => exact h.unmapFailed hsh hc
  | readLoaded b f rest hc => exact h.readLoaded hsh hc _
  | modifyLoaded fresh inTxn fn b f rest hc => exact h.modifyLoaded hsh hc
  | finishModify inTxn f rest hc =>
    have := h.move hc { s.frames f with
        version := (s.frames f).version + 1
        dirty := (s.frames f).dirty || (!inTxn && !(s.frames f).dirty)
        pins := (s.frames f).pins - 1 } ⟨rfl, rfl, rfl, rfl⟩ rfl rfl rfl (fun _ hd _ => hd)
          [] not_mem_nil
    rwa [List.append_nil] at this
  | unpin f rest hc =>
    have := h.move hc { s.frames f with pins := (s.frames f).pins - 1 }
      ⟨rfl, rfl, rfl, rfl⟩ rfl rfl rfl
      (fun _ hd _ => hd) [] not_mem_nil
    rwa [List.append_nil] at this
  | copyTxnFrame b f hb => exact h.start f _ (.copy f) ⟨rfl, rfl, rfl, rfl⟩ rfl id rfl rfl
  | copied f rest hc =>
    have := h.look hc [] not_mem_nil
    rwa [List.append_nil] at this
  | commitFrame b f lsn hb _ hc => exact h.commitFrame hsh hb
  | durable lsn hl => exact BufferCache.Guarded.sync h hl
  | passStart max hp =>
    exact BufferCache.Guarded.repass h _ (fun r q img hr hc => by cases hr; cases hc)
      (fun r c hr hc => by cases hr; cases hc)
  | passPick p i hp hat => exact (h.pinAll _).goOn hp (fun _ => id) nofun
  | passSort p i hp hat => exact h.goOn hp (fun _ => id) nofun
  | passNext p q qs hp hat hq =>
    refine h.goOn hp (fun _ => id) fun r img => ?_
    show (if joinsRun p.run q then At.copy q else .write (.copy q)) ≠ .check r img
    split
    · exact nofun
    · exact nofun
  | passLast p hp hat hq => exact h.goOn hp (fun _ => id) nofun
  | passCopy p q hp hat hl => exact h.passCopy hsh hp hat hl
  | passCheck p q img hp hat => exact h.passCheck hp hat
  | passWrite p next hp hat => exact (h.writeRun hp fun _ => id).goOn hp nofun nofun
  | passWriteFails p next n _ hp hat =>
    exact (h.writeRun hp fun _ hc => List.mem_of_mem_take hc).goOn hp nofun nofun
  | passMark p c cs next hp hat =>
    exact (h.markFrame c.1).goOn hp (fun _ => id) nofun
  | passMarked p next hp hat =>
    cases next with
    | copy q => exact h.goOn hp (fun _ => id) nofun
    | drop q => exact h.goOn hp (fun _ => id) nofun
    | done => exact BufferCache.Guarded.repass h none nofun nofun
  | passDrop p q hp hat => exact (h.unpin q.f).goOn hp (fun _ => id) nofun
  | passUnwind p q qs hp hat => exact (h.unpin q.f).goOn hp (fun _ => id) nofun
  | passThrow p hp hat => exact BufferCache.Guarded.repass h none nofun nofun

theorem State.Guarded.empty (init : Nat → Block) (durable : Nat) :
    (State.empty init durable).Guarded where
  cached := fun _ _ _ => .nil rfl
  loaded := fun _ _ _ hc => absurd hc (Multiset.notMem_zero _)
  written := fun _ => .nil rfl
  check := nofun
  run := nofun
  trace := fun pre post b img d he => by cases pre <;> cases he

theorem Run.guarded {capacity : Nat} {faults : Bool} {init : Nat → Block} {s : State}
    (h : Run capacity faults init s) : s.Guarded := by
  induction h with
  | empty durable => exact .empty init durable
  | step hr hs ih => exact ih.step hr.shape hs

/-- No uncommitted byte reaches the device.  Whenever `take_frame` or `flush_run` hands over bytes
    of block `b`, every transactional modify in them was one of `b`, and is followed by a
    `commit_frame` of `b` whose lsn is durable at that moment. -/
theorem no_steal_write_ahead {capacity : Nat} {faults : Bool} {init : Nat → Block} {s : State}
    (h : Run capacity faults init s) {pre post : List Event} {b : Nat} {img : Image} {durable : Nat}
    (htr : s.trace = pre ++ .device b img durable :: post) :
    ∀ m ∈ img.mods, (∃ fresh saw after, pre[m]? = some (.modify b fresh true saw after)) ∧
      ∃ j lsn, m < j ∧ pre[j]? = some (.commit b lsn) ∧ lsn ≤ durable :=
  h.guarded.trace pre post b img durable htr

/-- A block is changed in a transaction, committed as number 5, synced, and written back. -/
theorem no_steal_write_ahead_flushed :
    ∃ s pre img, Run 256 false (fun _ => Bytes.zero 4096) s ∧
      s.trace = pre ++ .device 1 img 5 :: [] ∧ img.mods = [0] ∧
      ∀ m ∈ img.mods, (∃ fresh saw after, pre[m]? = some (.modify 1 fresh true saw after)) ∧
        ∃ j lsn, m < j ∧ pre[j]? = some (.commit 1 lsn) ∧ lsn ≤ 5 := by
  let op : Op := .modify true true id
  let q : Pick := ⟨0, 1, 1, 2⟩
  have h0 : Run 256 false (fun _ => Bytes.zero 4096) _ := .empty 0
  have h1 := ((((h0.step (.miss op 1 rfl)).step (.load op 1 0 0 rfl)).step
    (.modifyLoaded true true id 1 0 0 rfl)).step (.finishModify true 0 0 rfl)).step
    (.commitFrame 1 0 5 rfl rfl nofun)
  have h2 := ((((h1.step (.durable 5 (by decide))).step (.passStart 1 rfl)).step
    (.passPick ⟨1, [], [], 0, .pick 0⟩ 0 rfl rfl (by decide) (by decide))).step
    (.passPick ⟨1, [], [], 0, .pick 1⟩ 1 rfl rfl (by decide) (by decide))).step
    (.passSort ⟨1, [q], [], 0, .pick 2⟩ 2 rfl rfl (by decide))
  have h3 := (((h2.step (.passNext _ q [] rfl rfl (List.mergeSort_singleton _))).step
    (.passWrite _ _ rfl rfl)).step (.passMarked _ _ rfl rfl)).step (.passCopy _ q rfl rfl rfl)
  have h4 := ((h3.step (.passCheck _ q _ rfl rfl)).step (.passLast _ rfl rfl rfl)).step
    (.passWrite _ _ rfl rfl)
  exact ⟨_, _, _, h4, rfl, rfl, no_steal_write_ahead h4 rfl⟩

end ConcurrentFs.BufferCache
