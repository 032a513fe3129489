/-
  ConcurrentFs.CacheInv

  The shape of the cache in every reachable state, whether or not the device
  fails: the map and the frames agree, every shard's LRU list holds its frames,
  pins are counted, and a frame that a call or a pass uses is still the one it
  took.
-/
import ConcurrentFs.Cache

namespace ConcurrentFs.BufferCache

open Lib State

/-! ## The parts -/

/-- The map, the shards and the frames agree. -/
structure Place (frames : FrameId → Frame) (count : Nat) (map : Nat → Option FrameId)
    (own lru : Nat → List FrameId) : Prop where
  maps : ∀ b f, map b = some f ↔ f < count ∧ (frames f).mapped = true ∧ (frames f).blockNo = b
  new : ∀ f, count ≤ f → frames f = .new
  nodup : ∀ i, (own i).Nodup
  lt : ∀ i, ∀ f ∈ own i, f < count
  disjoint : ∀ i j f, f ∈ own i → f ∈ own j → i = j
  listed : ∀ i, (lru i).Perm (own i)
  home : ∀ b f, map b = some f → f ∈ own (shardFor b)

/-- A pin for each call and each pick. -/
def Pinned (frames : FrameId → Frame) (calls : Multiset Call) (held : List Pick) : Prop :=
  ∀ f, (frames f).pins = calls.countP (fun c => c.frame = f) + (held.map Pick.f).count f

/-- A frame that is being loaded, or whose load failed and that is still mapped. -/
def Frame.busy (g : Frame) : Bool := g.locked || (g.mapped && g.loadFailed)

/-- Exactly then a call has still to load or to unmap it. -/
def Owned (frames : FrameId → Frame) (calls : Multiset Call) : Prop :=
  ∀ f, calls.countP (fun c => c.owns = true ∧ c.frame = f) = (frames f).busy.toNat

/-- The load of this frame failed, and nobody will use its bytes. -/
def Frame.Dead (g : Frame) : Prop := g.loadFailed = true ∧ g.locked = false

/-- What a call knows of its frame. -/
def CallOk (g : Frame) : Call → Prop
  | .hit op b _ =>
    (g.mapped = true ∧ g.blockNo = b ∨ g.Dead) ∧ (op.inTxn = true → g.inTxn = true ∨ g.Dead)
  | .load op b _ =>
    g.locked = true ∧ g.mapped = true ∧ g.blockNo = b ∧ (op.inTxn = true → g.inTxn = true)
  | .loaded op b _ =>
    g.locked = true ∧ g.mapped = true ∧ g.blockNo = b ∧ (op.inTxn = true → g.inTxn = true) ∧
      g.loadFailed = false
  | .failed _ b _ => g.Dead ∧ g.mapped = true ∧ g.blockNo = b
  | .finish inTxn _ =>
    g.mapped = true ∧ g.locked = false ∧ g.loadFailed = false ∧ (inTxn = true → g.inTxn = true)
  | .unpin _ | .copy _ => True

/-- What a pass knows of a frame it has picked. -/
def PickOk (g : Frame) (p : Pick) : Prop := (g.mapped = true ∨ g.Dead) ∧ g.blockNo = p.blockNo

/-- The picks whose pins are held. -/
def State.held (s : State) : List Pick := (s.pass.map Pass.held).getD []

/-- Nothing is left over where a pass goes on or ends. -/
def Pass.Ok (p : Pass) : Prop :=
  match p.at_ with
  | .write .done => p.picks = []
  | .mark _ next => p.run = [] ∧ (next = .done → p.picks = [])
  | _ => True

structure Shape (s : State) : Prop where
  place : Place s.frames s.count s.map s.own s.lru
  pinned : Pinned s.frames s.calls s.held
  owned : Owned s.frames s.calls
  calls : ∀ c ∈ s.calls, c.frame < s.count ∧ CallOk (s.frames c.frame) c
  held : ∀ p ∈ s.held, p.f < s.count ∧ PickOk (s.frames p.f) p
  pass : ∀ p, s.pass = some p → p.Ok

/-! ## Frames that stay where they are -/

/-- Two states of a frame that hold the same block, or fail to. -/
structure Frame.Alike (g g' : Frame) : Prop where
  mapped : g'.mapped = g.mapped
  blockNo : g'.blockNo = g.blockNo
  locked : g'.locked = g.locked
  loadFailed : g'.loadFailed = g.loadFailed

theorem Frame.Alike.refl (g : Frame) : g.Alike g := ⟨rfl, rfl, rfl, rfl⟩

theorem Frame.Alike.dead {g g' : Frame} (h : g.Alike g') (hd : g.Dead) : g'.Dead :=
  ⟨h.loadFailed.trans hd.1, h.locked.trans hd.2⟩

theorem CallOk.alike {g g' : Frame} {c : Call} (hc : CallOk g c) (h : g.Alike g')
    (ht : c.inTxn = true → g.inTxn = true → g'.inTxn = true) : CallOk g' c := by
  cases c with
  | hit op b f =>
    refine ⟨?_, fun ho => ?_⟩
    · rw [h.mapped, h.blockNo]
      exact hc.1.imp id h.dead
    · exact (hc.2 ho).imp (ht ho) h.dead
  | load op b f =>
    exact ⟨h.locked.trans hc.1, h.mapped.trans hc.2.1, h.blockNo.trans hc.2.2.1,
      fun ho => ht ho (hc.2.2.2 ho)⟩
  | loaded op b f =>
    exact ⟨h.locked.trans hc.1, h.mapped.trans hc.2.1, h.blockNo.trans hc.2.2.1,
      fun ho => ht ho (hc.2.2.2.1 ho), h.loadFailed.trans hc.2.2.2.2⟩
  | failed op b f => exact ⟨h.dead hc.1, h.mapped.trans hc.2.1, h.blockNo.trans hc.2.2⟩
  | finish inTxn f =>
    exact ⟨h.mapped.trans hc.1, h.locked.trans hc.2.1, h.loadFailed.trans hc.2.2.1,
      fun ho => ht ho (hc.2.2.2 ho)⟩
  | unpin f => trivial
  | copy f => trivial

theorem PickOk.alike {g g' : Frame} {p : Pick} (hp : PickOk g p) (h : g.Alike g') :
    PickOk g' p := by
  rw [PickOk, h.mapped, h.blockNo]
  exact ⟨hp.1.imp id h.dead, hp.2⟩

section Update

variable {frames frames' : FrameId → Frame} {count : Nat} {map : Nat → Option FrameId}
  {own lru : Nat → List FrameId} {calls : Multiset Call}

theorem Place.alike (h : Place frames count map own lru) (ha : ∀ f, (frames f).Alike (frames' f))
    (hn : ∀ f, count ≤ f → frames' f = frames f) : Place frames' count map own lru :=
  { h with
    maps := fun b f => by rw [h.maps, (ha f).mapped, (ha f).blockNo]
    new := fun f hf => (hn f hf).trans (h.new f hf) }

theorem Owned.alike (h : Owned frames calls) (ha : ∀ f, (frames f).Alike (frames' f)) :
    Owned frames' calls := by
  intro f
  rw [h f, Frame.busy, Frame.busy, (ha f).mapped, (ha f).locked, (ha f).loadFailed]

/-- A frame's place in its LRU list does not matter. -/
theorem Place.relru (h : Place frames count map own lru) {lru' : Nat → List FrameId}
    (hl : ∀ i, (lru' i).Perm (lru i)) : Place frames count map own lru' :=
  { h with listed := fun i => (hl i).trans (h.listed i) }

theorem alike_update {f : FrameId} {g : Frame} (h : (frames f).Alike g) (x : FrameId) :
    (frames x).Alike (Function.update frames f g x) := by
  by_cases hx : x = f
  · subst hx
    rw [Function.update_self]
    exact h
  · rw [Function.update_of_ne hx]
    exact .refl _

theorem perm_toFront {lru : Nat → List FrameId} {i : Nat} {f : FrameId} (hf : f ∈ lru i) (j : Nat) :
    (Function.update lru i (f :: (lru i).erase f) j).Perm (lru j) := by
  by_cases hj : j = i
  · subst hj
    rw [Function.update_self]
    exact (List.perm_cons_erase hf).symm
  · rw [Function.update_of_ne hj]

theorem perm_toBack {lru : Nat → List FrameId} {i : Nat} {f : FrameId} (hf : f ∈ lru i) (j : Nat) :
    (Function.update lru i ((lru i).erase f ++ [f]) j).Perm (lru j) := by
  by_cases hj : j = i
  · subst hj
    rw [Function.update_self]
    exact (List.perm_append_singleton f _).trans (List.perm_cons_erase hf).symm
  · rw [Function.update_of_ne hj]

end Update

/-! ## The pins of one call or pick -/

theorem countP_cons_eq (c : Call) (calls : Multiset Call) (f : FrameId) :
    (c ::ₘ calls).countP (fun c => c.frame = f) =
      calls.countP (fun c => c.frame = f) + if c.frame = f then 1 else 0 :=
  Multiset.countP_cons ..

theorem countP_owns_cons_eq (c : Call) (calls : Multiset Call) (f : FrameId) :
    (c ::ₘ calls).countP (fun c => c.owns = true ∧ c.frame = f) =
      calls.countP (fun c => c.owns = true ∧ c.frame = f) +
        if c.owns = true ∧ c.frame = f then 1 else 0 :=
  Multiset.countP_cons ..

section Calls

variable {frames : FrameId → Frame} {calls rest : Multiset Call} {held : List Pick}

/-- A frame that a call uses is pinned. -/
theorem Pinned.pos (h : Pinned frames calls held) {c : Call} (hc : c ∈ calls) :
    0 < (frames c.frame).pins := by
  rw [h c.frame]
  have : 0 < calls.countP (fun d => d.frame = c.frame) := Multiset.countP_pos.mpr ⟨c, hc, rfl⟩
  omega

theorem Pinned.pos_held (h : Pinned frames calls held) {p : Pick} (hp : p ∈ held) :
    0 < (frames p.f).pins := by
  rw [h p.f]
  have : 0 < (held.map Pick.f).count p.f := List.count_pos_iff.mpr (List.mem_map_of_mem hp)
  omega

/-- A call starts on frame `f`. -/
theorem Pinned.cons (h : Pinned frames calls held) (c : Call) {g : Frame}
    (hg : g.pins = (frames c.frame).pins + 1) :
    Pinned (Function.update frames c.frame g) (c ::ₘ calls) held := by
  intro f
  rw [countP_cons_eq]
  by_cases hf : f = c.frame
  · subst hf
    rw [Function.update_self, hg, h c.frame, if_pos rfl]
    omega
  · rw [Function.update_of_ne hf, h f, if_neg (Ne.symm hf)]
    rfl

/-- A call ends. -/
theorem Pinned.uncons {c : Call} (h : Pinned frames (c ::ₘ rest) held) {g : Frame}
    (hg : g.pins = (frames c.frame).pins - 1) :
    Pinned (Function.update frames c.frame g) rest held := by
  intro f
  have hf' := h f
  rw [countP_cons_eq] at hf'
  by_cases hf : f = c.frame
  · subst hf
    rw [if_pos rfl] at hf'
    rw [Function.update_self, hg, hf']
    omega
  · rw [if_neg (Ne.symm hf)] at hf'
    rw [Function.update_of_ne hf, hf']
    rfl

/-- A call goes on to its next section. -/
theorem Pinned.recall {c c' : Call} (h : Pinned frames (c ::ₘ rest) held)
    (hc : c'.frame = c.frame) {frames' : FrameId → Frame}
    (hp : ∀ f, (frames' f).pins = (frames f).pins) :
    Pinned frames' (c' ::ₘ rest) held := by
  intro f
  rw [hp, h f, countP_cons_eq, countP_cons_eq, hc]

theorem Owned.cons {calls : Multiset Call} (h : Owned frames calls) {c : Call}
    (hc : c.owns = false) : Owned frames (c ::ₘ calls) := by
  intro f
  have hn : ¬ (c.owns = true ∧ c.frame = f) := by simp [hc]
  rw [countP_owns_cons_eq, h f, if_neg hn]
  rfl

theorem Owned.uncons {c : Call} (h : Owned frames (c ::ₘ rest)) (hc : c.owns = false) :
    Owned frames rest := by
  intro f
  have hn : ¬ (c.owns = true ∧ c.frame = f) := by simp [hc]
  rw [← h f, countP_owns_cons_eq, if_neg hn]
  rfl

/-- The one call that loads a frame. -/
theorem Owned.unique {c : Call} (h : Owned frames (c ::ₘ rest)) (hc : c.owns = true) :
    ∀ d ∈ rest, d.frame = c.frame → d.owns = false := by
  intro d hd hf
  by_contra ho
  rw [Bool.not_eq_false] at ho
  have h1 := h c.frame
  rw [countP_owns_cons_eq, if_pos ⟨hc, rfl⟩] at h1
  have h2 : 0 < rest.countP (fun d => d.owns = true ∧ d.frame = c.frame) :=
    Multiset.countP_pos.mpr ⟨d, hd, ho, hf⟩
  have h3 := Bool.toNat_le (frames c.frame).busy
  omega

end Calls

/-- A pass gives a pin back. -/
theorem Pinned.unhold {frames : FrameId → Frame} {calls : Multiset Call} {held held' : List Pick}
    (h : Pinned frames calls held) {p : Pick} (hp : held.Perm (p :: held')) {g : Frame}
    (hg : g.pins = (frames p.f).pins - 1) :
    Pinned (Function.update frames p.f g) calls held' := by
  intro f
  have hf' := h f
  rw [(hp.map Pick.f).count_eq, List.map_cons, List.count_cons] at hf'
  by_cases hf : f = p.f
  · subst hf
    rw [if_pos (by simp)] at hf'
    rw [Function.update_self, hg, hf']
    omega
  · rw [if_neg (by simpa using Ne.symm hf)] at hf'
    rw [Function.update_of_ne hf, hf']
    rfl

theorem Pinned.rehold {frames : FrameId → Frame} {calls : Multiset Call} {held held' : List Pick}
    (h : Pinned frames calls held) (hp : held'.Perm held) : Pinned frames calls held' := by
  intro f
  rw [h f, (hp.map Pick.f).count_eq]

/-! ## Steps -/

/-- A step that moves no frame. -/
theorem Shape.alike {s s' : State} (h : Shape s) (ha : ∀ f, (s.frames f).Alike (s'.frames f))
    (hn : ∀ f, s.count ≤ f → s'.frames f = s.frames f) (hcount : s'.count = s.count)
    (hmap : s'.map = s.map) (hown : s'.own = s.own) (hlru : ∀ i, (s'.lru i).Perm (s.lru i))
    (hp : Pinned s'.frames s'.calls s'.held) (ho : Owned s.frames s'.calls)
    (hc : ∀ c ∈ s'.calls, c.frame < s.count ∧ CallOk (s'.frames c.frame) c)
    (hh : ∀ p ∈ s'.held, p.f < s.count ∧ PickOk (s.frames p.f) p)
    (hpass : ∀ p, s'.pass = some p → p.Ok) : Shape s' := by
  refine ⟨?_, hp, ho.alike ha, ?_, ?_, hpass⟩
  · rw [hcount, hmap, hown]
    exact (h.place.alike ha hn).relru hlru
  · rw [hcount]
    exact hc
  · rw [hcount]
    exact fun p hp => ⟨(hh p hp).1, (hh p hp).2.alike (ha p.f)⟩

namespace Shape

variable {s : State}

theorem mem_lru (h : Shape s) {b : Nat} {f : FrameId} (hb : s.map b = some f) :
    f ∈ s.lru (shardFor b) := (h.place.listed _).mem_iff.mpr (h.place.home b f hb)

theorem update_new {f : FrameId} (hf : f < s.count) (g : Frame) (x : FrameId) (hx : s.count ≤ x) :
    Function.update s.frames f g x = s.frames x :=
  Function.update_of_ne (Nat.ne_of_gt (Nat.lt_of_lt_of_le hf hx)) ..

/-- A call starts on a mapped frame. -/
theorem start (h : Shape s) {b : Nat} {f : FrameId} (hb : s.map b = some f) (c : Call) (g : Frame)
    (hcf : c.frame = f) (hco : c.owns = false) (hg : (s.frames f).Alike g)
    (hpins : g.pins = (s.frames f).pins + 1) (ht : (s.frames f).inTxn = true → g.inTxn = true)
    (hok : CallOk g c) {lru : Nat → List FrameId} (hlru : ∀ i, (lru i).Perm (s.lru i)) :
    Shape { s with
      frames := Function.update s.frames f g, lru := lru, calls := c ::ₘ s.calls } := by
  obtain ⟨hlt, -, -⟩ := (h.place.maps b f).mp hb
  subst hcf
  refine h.alike (alike_update hg) (update_new hlt g) rfl rfl rfl hlru (h.pinned.cons c hpins)
    (h.owned.cons hco) (fun d hd => ?_) h.held h.pass
  rcases Multiset.mem_cons.mp hd with rfl | hd
  · refine ⟨hlt, ?_⟩
    show CallOk (Function.update s.frames _ g _) d
    rw [Function.update_self]
    exact hok
  · refine ⟨(h.calls d hd).1, (h.calls d hd).2.alike (alike_update hg _) fun _ hin => ?_⟩
    show (Function.update s.frames c.frame g d.frame).inTxn = true
    by_cases hdf : d.frame = c.frame
    · rw [hdf, Function.update_self]
      rw [hdf] at hin
      exact ht hin
    · rw [Function.update_of_ne hdf]
      exact hin

/-- A call goes on, and its frame stays where it is. -/
theorem move (h : Shape s) {c : Call} {rest : Multiset Call} (hs : s.calls = c ::ₘ rest)
    (c' : Call) (g : Frame) (hcf : c'.frame = c.frame) (hco : c.owns = false)
    (hco' : c'.owns = false) (hg : (s.frames c.frame).Alike g)
    (hpins : g.pins = (s.frames c.frame).pins)
    (ht : g.inTxn = (s.frames c.frame).inTxn) (hok : CallOk g c') (trace : List Event) :
    Shape { s with
      frames := Function.update s.frames c.frame g, calls := c' ::ₘ rest, trace := trace } := by
  have hmem : c ∈ s.calls := by rw [hs]; exact Multiset.mem_cons_self c rest
  have hlt := (h.calls c hmem).1
  have hp := h.pinned
  have ho := h.owned
  rw [hs] at hp ho
  refine h.alike (alike_update hg) (update_new hlt g) rfl rfl rfl (fun _ => .refl _)
    (hp.recall hcf fun f => ?_) ((ho.uncons hco).cons hco') (fun d hd => ?_) h.held h.pass
  · show (Function.update s.frames c.frame g f).pins = _
    by_cases hf : f = c.frame
    · rw [hf, Function.update_self, hpins]
    · rw [Function.update_of_ne hf]
  · rcases Multiset.mem_cons.mp hd with rfl | hd
    · rw [hcf]
      refine ⟨hlt, ?_⟩
      show CallOk (Function.update s.frames _ g _) d
      rw [Function.update_self]
      exact hok
    · have hd' : d ∈ s.calls := by rw [hs]; exact Multiset.mem_cons_of_mem hd
      refine ⟨(h.calls d hd').1, (h.calls d hd').2.alike (alike_update hg _) fun _ hin => ?_⟩
      show (Function.update s.frames c.frame g d.frame).inTxn = true
      by_cases hdf : d.frame = c.frame
      · rw [hdf, Function.update_self, ht, ← hdf]
        exact hin
      · rw [Function.update_of_ne hdf]
        exact hin

/-- A call ends. -/
theorem stop (h : Shape s) {c : Call} {rest : Multiset Call} (hs : s.calls = c ::ₘ rest)
    (g : Frame) (hco : c.owns = false) (hg : (s.frames c.frame).Alike g)
    (hpins : g.pins = (s.frames c.frame).pins - 1) (ht : g.inTxn = (s.frames c.frame).inTxn)
    (dirtyCount : Nat) :
    Shape { s with
      frames := Function.update s.frames c.frame g, calls := rest, dirtyCount := dirtyCount } := by
  have hmem : c ∈ s.calls := by rw [hs]; exact Multiset.mem_cons_self c rest
  have hlt := (h.calls c hmem).1
  have hp := h.pinned
  have ho := h.owned
  rw [hs] at hp ho
  refine h.alike (alike_update hg) (update_new hlt g) rfl rfl rfl (fun _ => .refl _)
    (hp.uncons hpins) (ho.uncons hco) (fun d hd => ?_) h.held h.pass
  have hd' : d ∈ s.calls := by rw [hs]; exact Multiset.mem_cons_of_mem hd
  refine ⟨(h.calls d hd').1, (h.calls d hd').2.alike (alike_update hg _) fun _ hin => ?_⟩
  show (Function.update s.frames c.frame g d.frame).inTxn = true
  by_cases hdf : d.frame = c.frame
  · rw [hdf, Function.update_self, ht, ← hdf]
    exact hin
  · rw [Function.update_of_ne hdf]
    exact hin

theorem acquireHit (h : Shape s) {op : Op} {b : Nat} {f : FrameId} (hb : s.map b = some f) :
    Shape (s.acquireHit op b f) := by
  obtain ⟨-, hm, hbn⟩ := (h.place.maps b f).mp hb
  refine h.start hb (.hit op b f)
    { s.frames f with pins := (s.frames f).pins + 1, inTxn := (s.frames f).inTxn || op.inTxn }
    rfl rfl ⟨rfl, rfl, rfl, rfl⟩ rfl (fun hin => ?_) ⟨Or.inl ⟨hm, hbn⟩, fun ho => ?_⟩
    (perm_toFront (h.mem_lru hb))
  · show ((s.frames f).inTxn || op.inTxn) = true
    rw [hin]
    rfl
  · left
    show ((s.frames f).inTxn || op.inTxn) = true
    rw [ho, Bool.or_true]

theorem copyTxnFrame (h : Shape s) {b : Nat} {f : FrameId} (hb : s.map b = some f) :
    Shape { s.setFrame f { s.frames f with pins := (s.frames f).pins + 1 } with
      calls := .copy f ::ₘ s.calls } :=
  h.start hb (.copy f) { s.frames f with pins := (s.frames f).pins + 1 } rfl rfl
    ⟨rfl, rfl, rfl, rfl⟩ rfl id trivial fun _ => .refl _

/-- A call that only looks at the bytes. -/
theorem look (h : Shape s) {c : Call} {rest : Multiset Call} (hs : s.calls = c ::ₘ rest)
    (hco : c.owns = false) (trace : List Event) :
    Shape { s with calls := .unpin c.frame ::ₘ rest, trace := trace } := by
  have hm := h.move hs (.unpin c.frame) (s.frames c.frame) rfl hco rfl (.refl _) rfl
    rfl trivial trace
  rwa [Function.update_eq_self] at hm

theorem modifyHit (h : Shape s) {fresh inTxn : Bool} {fn : Block → Block} {b : Nat} {f : FrameId}
    {rest : Multiset Call} (hs : s.calls = .hit (.modify fresh inTxn fn) b f ::ₘ rest)
    (hl : (s.frames f).locked = false) (hd : (s.frames f).loadFailed = false) (saw : Image) :
    Shape { s.change b f fresh inTxn fn saw with calls := .finish inTxn f ::ₘ rest } := by
  have hnd : ¬ (s.frames f).Dead := fun hdead => by
    rw [hdead.1] at hd
    cases hd
  obtain ⟨hm, ht⟩ := (h.calls (.hit (.modify fresh inTxn fn) b f)
    (by rw [hs]; exact Multiset.mem_cons_self ..)).2
  exact h.move hs (.finish inTxn f) { s.frames f with
      data := ⟨fn saw.bytes, saw.mods ++ if inTxn then [s.trace.length] else []⟩, locked := false }
    rfl rfl rfl ⟨rfl, rfl, hl.symm, rfl⟩ rfl rfl
    ⟨(hm.resolve_right hnd).1, rfl, hd, fun ho => (ht ho).resolve_right hnd⟩ _

theorem finishModify (h : Shape s) {inTxn : Bool} {f : FrameId} {rest : Multiset Call}
    (hs : s.calls = .finish inTxn f ::ₘ rest) :
    Shape { s.finishModify f inTxn with calls := rest } :=
  h.stop hs { s.frames f with
      version := (s.frames f).version + 1
      dirty := (s.frames f).dirty || (!inTxn && !(s.frames f).dirty)
      pins := (s.frames f).pins - 1 }
    rfl ⟨rfl, rfl, rfl, rfl⟩ rfl rfl _

theorem unpin (h : Shape s) {f : FrameId} {rest : Multiset Call}
    (hs : s.calls = .unpin f ::ₘ rest) : Shape { s.unpin f with calls := rest } :=
  h.stop hs { s.frames f with pins := (s.frames f).pins - 1 } rfl ⟨rfl, rfl, rfl, rfl⟩ rfl rfl _

theorem commitFrame (h : Shape s) {b : Nat} {f : FrameId} {lsn : Nat} (hb : s.map b = some f)
    (hc : ∀ c ∈ s.calls, c.inTxn = false) : Shape (s.commitFrame b f lsn) := by
  obtain ⟨hlt, -, -⟩ := (h.place.maps b f).mp hb
  have hg : (s.frames f).Alike { s.frames f with
      inTxn := false, lsn := lsn, version := (s.frames f).version + 1, dirty := true } :=
    ⟨rfl, rfl, rfl, rfl⟩
  refine h.alike (alike_update hg) (update_new hlt _) rfl rfl rfl (fun _ => .refl _) (fun x => ?_)
    h.owned (fun d hd => ⟨(h.calls d hd).1, (h.calls d hd).2.alike (alike_update hg _)
      fun hin => ?_⟩) h.held h.pass
  · refine Eq.trans ?_ (h.pinned x)
    show (Function.update s.frames f _ x).pins = _
    by_cases hx : x = f
    · rw [hx, Function.update_self]
    · rw [Function.update_of_ne hx]
  · -- no transactional modify is under way
    rw [hc d hd] at hin
    cases hin

/-! The call that loads a frame: while it holds the frame's lock nobody else is past it. -/

/-- The loading call goes on; its frame still holds the same block. -/
theorem moveOwner (h : Shape s) {c : Call} {rest : Multiset Call} (hs : s.calls = c ::ₘ rest)
    (c' : Call) (g : Frame) (hcf : c'.frame = c.frame) (hco : c.owns = true)
    (hl : (s.frames c.frame).locked = true) (hm : g.mapped = (s.frames c.frame).mapped)
    (hb : g.blockNo = (s.frames c.frame).blockNo) (hpins : g.pins = (s.frames c.frame).pins)
    (ht : g.inTxn = (s.frames c.frame).inTxn)
    (hco' : c'.owns = g.busy)
    (hok : CallOk g c') (trace : List Event) :
    Shape { s with
      frames := Function.update s.frames c.frame g, calls := c' ::ₘ rest, trace := trace } := by
  have hmem : c ∈ s.calls := by rw [hs]; exact Multiset.mem_cons_self c rest
  have hlt := (h.calls c hmem).1
  have hp := h.pinned
  have ho := h.owned
  rw [hs] at hp ho
  have hnd : ¬ (s.frames c.frame).Dead := fun hd => by
    rw [hd.2] at hl
    cases hl
  have hother : ∀ {x}, x ≠ c.frame → Function.update s.frames c.frame g x = s.frames x :=
    fun hx => Function.update_of_ne hx ..
  refine ⟨⟨fun b x => ?_, fun x hx => ?_, h.place.nodup, h.place.lt, h.place.disjoint,
    h.place.listed, h.place.home⟩, hp.recall hcf fun x => ?_, fun x => ?_, fun d hd => ?_,
    fun p hp => ?_, h.pass⟩
  · rw [h.place.maps]
    show _ ↔ x < s.count ∧ (Function.update s.frames c.frame g x).mapped = true ∧
      (Function.update s.frames c.frame g x).blockNo = b
    by_cases hx : x = c.frame
    · rw [hx, Function.update_self, hm, hb]
    · rw [hother hx]
  · exact (update_new hlt g x hx).trans (h.place.new x hx)
  · show (Function.update s.frames c.frame g x).pins = _
    by_cases hx : x = c.frame
    · rw [hx, Function.update_self, hpins]
    · rw [hother hx]
  · show (c' ::ₘ rest).countP _ = (Function.update s.frames c.frame g x).busy.toNat
    have hx' := ho x
    rw [countP_owns_cons_eq] at hx' ⊢
    by_cases hx : x = c.frame
    · rw [hx, Function.update_self, ← hco']
      rw [hx, if_pos ⟨hco, rfl⟩] at hx'
      have := Bool.toNat_le (s.frames c.frame).busy
      cases hown : c'.owns with
      | true =>
        rw [if_pos ⟨rfl, hcf⟩, Bool.toNat_true]
        omega
      | false =>
        rw [if_neg nofun, Bool.toNat_false]
        omega
    · rw [if_neg fun hn => hx hn.2.symm] at hx'
      rw [hother hx, if_neg fun hn => hx (hn.2.symm.trans hcf)]
      exact hx'
  · rcases Multiset.mem_cons.mp hd with rfl | hd
    · rw [hcf]
      refine ⟨hlt, ?_⟩
      show CallOk (Function.update s.frames _ g _) d
      rw [Function.update_self]
      exact hok
    · have hd' : d ∈ s.calls := by rw [hs]; exact Multiset.mem_cons_of_mem hd
      obtain ⟨hdlt, hdok⟩ := h.calls d hd'
      refine ⟨hdlt, ?_⟩
      show CallOk (Function.update s.frames c.frame g d.frame) d
      by_cases hdf : d.frame = c.frame
      · have hdo := ho.unique hco d hd hdf
        rw [hdf] at hdok
        rw [hdf, Function.update_self]
        cases d with
        | hit op b x =>
          exact ⟨Or.inl (by rw [hm, hb]; exact hdok.1.resolve_right hnd),
            fun hop => Or.inl (by rw [ht]; exact (hdok.2 hop).resolve_right hnd)⟩
        | finish inTxn x =>
          have := hdok.2.1
          rw [hl] at this
          cases this
        | unpin x => trivial
        | copy x => trivial
        | load op b x => cases hdo
        | loaded op b x => cases hdo
        | failed op b x => cases hdo
      · rw [hother hdf]
        exact hdok
  · obtain ⟨hplt, hpok⟩ := h.held p hp
    refine ⟨hplt, ?_⟩
    show PickOk (Function.update s.frames c.frame g p.f) p
    by_cases hpf : p.f = c.frame
    · rw [hpf] at hpok
      rw [hpf, Function.update_self]
      refine ⟨Or.inl ?_, hb.trans hpok.2⟩
      rw [hm]
      exact hpok.1.resolve_right hnd
    · rw [hother hpf]
      exact hpok

theorem load (h : Shape s) {op : Op} {b : Nat} {f : FrameId} {rest : Multiset Call}
    (hs : s.calls = .load op b f ::ₘ rest) (img : Image) :
    Shape { s.setFrame f { s.frames f with loadFailed := false, data := img } with
      calls := .loaded op b f ::ₘ rest } := by
  obtain ⟨hl, hm, hb, ht⟩ := (h.calls (.load op b f)
    (by rw [hs]; exact Multiset.mem_cons_self ..)).2
  refine h.moveOwner hs (.loaded op b f) 
    { s.frames f with loadFailed := false, data := img } rfl rfl
    hl rfl rfl rfl rfl ?_ ⟨hl, hm, hb, ht, rfl⟩ _
  show true = ((s.frames f).locked || _)
  rw [show (s.frames f).locked = true from hl, Bool.true_or]

theorem loadFails (h : Shape s) {op : Op} {b : Nat} {f : FrameId} {rest : Multiset Call}
    (hs : s.calls = .load op b f ::ₘ rest) (img : Image) :
    Shape { s.setFrame f
        { s.frames f with loadFailed := true, locked := false, data := img } with
      calls := .failed op b f ::ₘ rest } := by
  obtain ⟨hl, hm, hb, ht⟩ := (h.calls (.load op b f)
    (by rw [hs]; exact Multiset.mem_cons_self ..)).2
  refine h.moveOwner hs (.failed op b f)
    { s.frames f with loadFailed := true, locked := false, data := img } rfl rfl
    hl rfl rfl rfl rfl ?_ ⟨⟨rfl, rfl⟩, hm, hb⟩ _
  show true = (false || ((s.frames f).mapped && true))
  rw [show (s.frames f).mapped = true from hm]
  rfl

theorem readLoaded (h : Shape s) {op : Op} {b : Nat} {f : FrameId} {rest : Multiset Call}
    (hs : s.calls = .loaded op b f ::ₘ rest) (trace : List Event) :
    Shape { s.setFrame f { s.frames f with locked := false } with
      calls := .unpin f ::ₘ rest, trace := trace } := by
  obtain ⟨hl, hm, hb, ht, hd⟩ :=
    (h.calls (.loaded op b f) (by rw [hs]; exact Multiset.mem_cons_self ..)).2
  refine h.moveOwner hs (.unpin f) { s.frames f with locked := false } rfl rfl
    hl rfl rfl rfl rfl ?_ trivial _
  show false = (false || ((s.frames f).mapped && (s.frames f).loadFailed))
  rw [show (s.frames f).loadFailed = false from hd, Bool.and_false, Bool.false_or]

theorem modifyLoaded (h : Shape s) {fresh inTxn : Bool} {fn : Block → Block} {b : Nat} {f : FrameId}
    {rest : Multiset Call} (hs : s.calls = .loaded (.modify fresh inTxn fn) b f ::ₘ rest)
    (saw : Image) :
    Shape { s.change b f fresh inTxn fn saw with calls := .finish inTxn f ::ₘ rest } := by
  obtain ⟨hl, hm, hb, ht, hd⟩ := (h.calls (.loaded (.modify fresh inTxn fn) b f)
    (by rw [hs]; exact Multiset.mem_cons_self ..)).2
  refine h.moveOwner hs (.finish inTxn f) { s.frames f with
      data := ⟨fn saw.bytes, saw.mods ++ if inTxn then [s.trace.length] else []⟩, locked := false }
    rfl rfl hl rfl rfl rfl rfl ?_ ⟨hm, rfl, hd, ht⟩ _
  show false = (false || ((s.frames f).mapped && (s.frames f).loadFailed))
  rw [show (s.frames f).loadFailed = false from hd, Bool.and_false, Bool.false_or]

/-- The frame of a failed load leaves the map; the others that pinned it will find it dead. -/
theorem unmapFailed (h : Shape s) {op : Op} {b : Nat} {f : FrameId} {rest : Multiset Call}
    (hs : s.calls = .failed op b f ::ₘ rest) :
    Shape { (s.setFrame f
        { s.frames f with
          mapped := false, inTxn := false, pins := (s.frames f).pins - 1 }).toBack
            (shardFor b) f with
      map := Function.update s.map b none
      calls := rest } := by
  have hmem : Call.failed op b f ∈ s.calls := by rw [hs]; exact Multiset.mem_cons_self ..
  obtain ⟨hlt, hdead, hm, hb⟩ := h.calls _ hmem
  replace hlt : f < s.count := hlt
  replace hdead : (s.frames f).Dead := hdead
  have hp := h.pinned
  have ho := h.owned
  rw [hs] at hp ho
  have hmap : s.map b = some f := (h.place.maps b f).mpr ⟨hlt, hm, hb⟩
  generalize hg : ({ s.frames f with
    mapped := false, inTxn := false, pins := (s.frames f).pins - 1 } : Frame) = g
  have hother : ∀ {x}, x ≠ f → Function.update s.frames f g x = s.frames x :=
    fun hx => Function.update_of_ne hx ..
  have hgd : g.Dead := by rw [← hg]; exact hdead
  have hgm : g.mapped = false := by rw [← hg]
  refine ⟨⟨fun c x => ?_, fun x hx => ?_, h.place.nodup, h.place.lt, h.place.disjoint, fun i => ?_,
    fun c x hx => ?_⟩, hp.uncons (c := .failed op b f) (by rw [← hg]; rfl), fun x => ?_,
    fun d hd => ?_, fun p hp => ?_, h.pass⟩
  · show Function.update s.map b none c = some x ↔ x < s.count ∧
      (Function.update s.frames f g x).mapped = true ∧ (Function.update s.frames f g x).blockNo = c
    by_cases hx : x = f
    · subst hx
      rw [Function.update_self, hgm]
      refine ⟨fun hc => ?_, fun hn => by cases hn.2.1⟩
      by_cases hcb : c = b
      · rw [hcb, Function.update_self] at hc
        cases hc
      · rw [Function.update_of_ne hcb] at hc
        exact absurd (((h.place.maps c x).mp hc).2.2.symm.trans hb) hcb
    · rw [hother hx]
      by_cases hcb : c = b
      · subst hcb
        rw [Function.update_self]
        refine ⟨nofun, fun hn => ?_⟩
        have := (h.place.maps c x).mpr hn
        rw [hmap] at this
        cases this
        exact absurd rfl hx
      · rw [Function.update_of_ne hcb]
        exact h.place.maps c x
  · exact (update_new hlt g x hx).trans (h.place.new x hx)
  · exact (perm_toBack (h.mem_lru hmap) i).trans (h.place.listed i)
  · refine h.place.home c x ?_
    by_cases hcb : c = b
    · replace hx : Function.update s.map b none c = some x := hx
      rw [hcb, Function.update_self] at hx
      cases hx
    · replace hx : Function.update s.map b none c = some x := hx
      rwa [Function.update_of_ne hcb] at hx
  · show rest.countP _ = (Function.update s.frames f g x).busy.toNat
    have hx' := ho x
    rw [countP_owns_cons_eq] at hx'
    by_cases hx : x = f
    · subst hx
      rw [if_pos ⟨rfl, rfl⟩] at hx'
      have := Bool.toNat_le (s.frames x).busy
      rw [Function.update_self, Frame.busy, hgm, hgd.2]
      show _ = 0
      omega
    · rw [if_neg fun hn => hx hn.2.symm] at hx'
      rw [hother hx]
      exact hx'
  · have hd' : d ∈ s.calls := by rw [hs]; exact Multiset.mem_cons_of_mem hd
    obtain ⟨hdlt, hdok⟩ := h.calls d hd'
    refine ⟨hdlt, ?_⟩
    show CallOk (Function.update s.frames f g d.frame) d
    by_cases hdf : d.frame = f
    · have hdo := ho.unique rfl d hd hdf
      rw [hdf] at hdok
      rw [hdf, Function.update_self]
      cases d with
      | hit op b x => exact ⟨Or.inr hgd, fun _ => Or.inr hgd⟩
      | finish inTxn x =>
        have := hdok.2.2.1
        rw [hdead.1] at this
        cases this
      | unpin x => trivial
      | copy x => trivial
      | load op b x => cases hdo
      | loaded op b x => cases hdo
      | failed op b x => cases hdo
    · rw [hother hdf]
      exact hdok
  · obtain ⟨hplt, hpok⟩ := h.held p hp
    refine ⟨hplt, ?_⟩
    show PickOk (Function.update s.frames f g p.f) p
    by_cases hpf : p.f = f
    · rw [hpf] at hpok
      rw [hpf, Function.update_self]
      refine ⟨Or.inr hgd, ?_⟩
      rw [← hg]
      exact hpok.2
    · rw [hother hpf]
      exact hpok

/-! Write-back: picks come and go, frames stay. -/

/-- A pass goes on with the same picks. -/
theorem repass (h : Shape s) (p : Option Pass) (hp : ((p.map Pass.held).getD []).Perm s.held)
    (hok : ∀ q, p = some q → q.Ok) (disk : Nat → Image) (trace : List Event) :
    Shape { s with pass := p, disk := disk, trace := trace } :=
  { h with
    pinned := h.pinned.rehold hp
    held := fun q hq => h.held q (hp.mem_iff.mp hq)
    pass := hok }

/-- A pass gives up one pick. -/
theorem unhold (h : Shape s) {q : Pick} (g : Frame) (p : Pass) (hp : s.held.Perm (q :: p.held))
    (hg : (s.frames q.f).Alike g) (hpins : g.pins = (s.frames q.f).pins - 1)
    (ht : g.inTxn = (s.frames q.f).inTxn) (hok : p.Ok) (dirtyCount : Nat) :
    Shape { s with
      frames := Function.update s.frames q.f g, dirtyCount := dirtyCount, pass := some p } := by
  have hmem : q ∈ s.held := hp.mem_iff.mpr (List.mem_cons_self ..)
  have hlt := (h.held q hmem).1
  refine h.alike (alike_update hg) (update_new hlt g) rfl rfl rfl (fun _ => .refl _)
    (h.pinned.unhold hp hpins) h.owned (fun d hd => ?_)
    (fun r hr => h.held r (hp.mem_iff.mpr (List.mem_cons_of_mem _ hr)))
    (fun r hr => by cases hr; exact hok)
  refine ⟨(h.calls d hd).1, (h.calls d hd).2.alike (alike_update hg _) fun _ hin => ?_⟩
  show (Function.update s.frames q.f g d.frame).inTxn = true
  by_cases hdf : d.frame = q.f
  · rw [hdf, Function.update_self, ht, ← hdf]
    exact hin
  · rw [Function.update_of_ne hdf]
    exact hin

theorem held_eq {p : Pass} (hp : s.pass = some p) : s.held = p.held := by
  rw [State.held, hp]
  rfl

theorem mem_pickFrom {i max have_ : Nat} {q : Pick} (hq : q ∈ s.pickFrom i max have_) :
    q.f ∈ s.lru i ∧ (s.frames q.f).mapped = true ∧ (s.frames q.f).dirty = true ∧
      s.mayWrite q.f = true ∧ q.blockNo = (s.frames q.f).blockNo ∧
      q.version = (s.frames q.f).version := by
  obtain ⟨f, hf, rfl⟩ := List.mem_map.mp hq
  have hf' := List.mem_of_mem_take hf
  rw [List.mem_filter, List.mem_reverse, Bool.and_eq_true, Bool.and_eq_true] at hf'
  exact ⟨hf'.1, hf'.2.1.1, hf'.2.1.2, hf'.2.2, rfl, rfl⟩

theorem passPick (h : Shape s) {p : Pass} {i : Nat} (hp : s.pass = some p) (hat : p.at_ = .pick i) :
    Shape ((s.pinAll ((s.pickFrom i p.max p.picks.length).map Pick.f)).setPass
      { p with picks := p.picks ++ s.pickFrom i p.max p.picks.length, at_ := .pick (i + 1) }) := by
  have hheld : s.held = p.run.map Prod.fst ++ p.picks := by rw [held_eq hp, Pass.held, hat]
  have hnew : ∀ q ∈ s.pickFrom i p.max p.picks.length, q.f < s.count ∧ PickOk (s.frames q.f) q := by
    intro q hq
    obtain ⟨hmem, hm, -, -, hb, -⟩ := mem_pickFrom hq
    exact ⟨h.place.lt i _ ((h.place.listed i).mem_iff.mp hmem), Or.inl hm, hb.symm⟩
  refine h.alike (fun _ => ⟨rfl, rfl, rfl, rfl⟩) (fun f hf => ?_) rfl rfl rfl (fun _ => .refl _)
    (fun f => ?_) h.owned (fun d hd => ⟨(h.calls d hd).1,
    (h.calls d hd).2.alike ⟨rfl, rfl, rfl, rfl⟩
      fun _ => id⟩) (fun q hq => ?_) (fun q hq => by cases hq; trivial)
  · -- no frame yet to be made was picked
    have : ((s.pickFrom i p.max p.picks.length).map Pick.f).count f = 0 := by
      rw [List.count_eq_zero, List.mem_map]
      rintro ⟨q, hq, rfl⟩
      exact Nat.not_lt.mpr hf (hnew q hq).1
    have hadd : (s.frames f).pins + ((s.pickFrom i p.max p.picks.length).map Pick.f).count f =
        (s.frames f).pins := by rw [this, Nat.add_zero]
    show Frame.mk _ _ _ _ _ _ ((s.frames f).pins + _) _ _ _ = s.frames f
    rw [hadd]
  · show (s.frames f).pins + _ = s.calls.countP _ +
      ((p.run.map Prod.fst ++ (p.picks ++ s.pickFrom i p.max p.picks.length)).map Pick.f).count f
    rw [h.pinned f, hheld, ← List.append_assoc, Nat.add_assoc, ← List.count_append,
      ← List.map_append]
  · replace hq : q ∈ p.run.map Prod.fst ++ (p.picks ++ s.pickFrom i p.max p.picks.length) := hq
    rw [← List.append_assoc, ← hheld] at hq
    rcases List.mem_append.mp hq with hq | hq
    · exact h.held q hq
    · exact hnew q hq

end Shape

/-! ## Taking a frame for a block that is not cached -/

/-- A frame that `take_frame` may choose. -/
structure Frame.Spare (g : Frame) : Prop where
  pins : g.pins = 0
  inTxn : g.inTxn = false

theorem victims_clean {s : State} {fs : List FrameId} {dirty : Option FrameId} {f : FrameId}
    (h : (s.victims fs dirty).1 = some f) :
    f ∈ fs ∧ (s.frames f).Spare ∧ ((s.frames f).mapped = true → (s.frames f).dirty = false) := by
  induction fs generalizing dirty with
  | nil => cases h
  | cons x fs ih =>
    rw [State.victims] at h
    split at h
    · obtain ⟨hm, hrest⟩ := ih h
      exact ⟨List.mem_cons_of_mem _ hm, hrest⟩
    · rename_i hfree
      rw [not_or, Nat.not_lt, Bool.not_eq_true] at hfree
      split at h
      · rename_i hclean
        cases h
        refine ⟨List.mem_cons_self .., ⟨Nat.le_zero.mp hfree.1, hfree.2⟩, fun hm => ?_⟩
        rcases hclean with hc | hc
        · exact absurd hm hc
        · simpa using hc
      · obtain ⟨hm, hrest⟩ := ih h
        exact ⟨List.mem_cons_of_mem _ hm, hrest⟩

theorem victims_dirty {s : State} {fs : List FrameId} {dirty : Option FrameId} {f : FrameId}
    (h : (s.victims fs dirty).2 = some f) :
    dirty = some f ∨ f ∈ fs ∧ (s.frames f).Spare ∧ (s.frames f).mapped = true ∧
      (s.frames f).dirty = true ∧ (s.frames f).lsn ≤ s.durable := by
  induction fs generalizing dirty with
  | nil => exact Or.inl h
  | cons x fs ih =>
    rw [State.victims] at h
    split at h
    · exact (ih h).imp id fun ⟨hm, hrest⟩ => ⟨List.mem_cons_of_mem _ hm, hrest⟩
    · rename_i hfree
      rw [not_or, Nat.not_lt, Bool.not_eq_true] at hfree
      split at h
      · exact Or.inl h
      · rename_i hclean
        rcases ih h with hd | ⟨hm, hrest⟩
        · split at hd
          · rename_i hlsn
            cases hd
            simp only [Bool.not_eq_true, not_or, Bool.not_eq_false] at hclean
            exact Or.inr ⟨List.mem_cons_self .., ⟨Nat.le_zero.mp hfree.1, hfree.2⟩,
              hclean.1, hclean.2,
              hlsn.2⟩
          · exact Or.inl hd
        · exact Or.inr ⟨List.mem_cons_of_mem _ hm, hrest⟩

namespace Shape

variable {s : State}

/-- Nobody uses a frame without pins. -/
theorem unused (h : Shape s) {f : FrameId} (hp : (s.frames f).pins = 0) :
    (∀ c ∈ s.calls, c.frame ≠ f) ∧ (∀ p ∈ s.held, p.f ≠ f) ∧ (s.frames f).busy = false := by
  have hc : ∀ c ∈ s.calls, c.frame ≠ f := by
    rintro c hc rfl
    exact absurd hp (Nat.ne_of_gt (h.pinned.pos hc))
  refine ⟨hc, ?_, ?_⟩
  · rintro p hm rfl
    exact absurd hp (Nat.ne_of_gt (h.pinned.pos_held hm))
  · have ho := h.owned f
    have h0 : s.calls.countP (fun c => c.owns = true ∧ c.frame = f) = 0 :=
      Multiset.countP_eq_zero.mpr fun c hm hcf => hc c hm hcf.2
    rw [h0] at ho
    cases hb : (s.frames f).busy with
    | false => rfl
    | true =>
      rw [hb] at ho
      cases ho

theorem newFrame (h : Shape s) (i : Nat) : Shape (s.newFrame i).1 := by
  have hnew : Function.update s.frames s.count .new = s.frames := by
    rw [Function.update_eq_self_iff, h.place.new _ (Nat.le_refl _)]
  have hfresh : ∀ j, s.count ∉ s.own j := fun j hj => Nat.lt_irrefl _ (h.place.lt j _ hj)
  have hown : ∀ j x, x ∈ Function.update s.own i (s.own i ++ [s.count]) j ↔
      x ∈ s.own j ∨ j = i ∧ x = s.count := by
    intro j x
    by_cases hj : j = i
    · subst hj
      rw [Function.update_self, List.mem_append, List.mem_singleton]
      simp
    · rw [Function.update_of_ne hj]
      simp [hj]
  rw [State.newFrame, hnew]
  refine ⟨⟨fun b x => ?_, fun x hx => h.place.new x (Nat.le_of_succ_le hx), fun j => ?_,
    fun j x hx => ?_, fun j k x hj hk => ?_, fun j => ?_, fun b x hx => ?_⟩, h.pinned,
      h.owned, ?_, ?_,
    h.pass⟩
  · show s.map b = some x ↔ x < s.count + 1 ∧ _
    rw [h.place.maps]
    refine and_congr_left fun hm => ⟨Nat.lt_succ_of_lt, fun hx => ?_⟩
    refine Nat.lt_of_le_of_ne (Nat.le_of_lt_succ hx) fun he => ?_
    rw [he, h.place.new _ (Nat.le_refl _)] at hm
    cases hm.1
  · show (Function.update s.own i (s.own i ++ [s.count]) j).Nodup
    by_cases hj : j = i
    · subst hj
      rw [Function.update_self]
      refine List.nodup_append.mpr ⟨h.place.nodup j, List.nodup_singleton _, ?_⟩
      rintro x hx y hy rfl
      exact hfresh j (List.mem_singleton.mp hy ▸ hx)
    · rw [Function.update_of_ne hj]
      exact h.place.nodup j
  · rcases (hown j x).mp hx with hx | ⟨-, rfl⟩
    · exact Nat.lt_succ_of_lt (h.place.lt j x hx)
    · exact Nat.lt_succ_self _
  · rcases (hown j x).mp hj with hj | ⟨rfl, rfl⟩
    · rcases (hown k x).mp hk with hk | ⟨-, rfl⟩
      · exact h.place.disjoint j k x hj hk
      · exact absurd hj (hfresh j)
    · rcases (hown k _).mp hk with hk | ⟨rfl, -⟩
      · exact absurd hk (hfresh k)
      · rfl
  · show (Function.update s.lru i (s.count :: s.lru i) j).Perm
      (Function.update s.own i (s.own i ++ [s.count]) j)
    by_cases hj : j = i
    · subst hj
      rw [Function.update_self, Function.update_self]
      exact ((h.place.listed j).cons _).trans (List.perm_append_singleton _ _).symm
    · rw [Function.update_of_ne hj, Function.update_of_ne hj]
      exact h.place.listed j
  · exact (hown _ x).mpr (Or.inl (h.place.home b x hx))
  · exact fun c hc => ⟨Nat.lt_succ_of_lt (h.calls c hc).1, (h.calls c hc).2⟩
  · exact fun p hp => ⟨Nat.lt_succ_of_lt (h.held p hp).1, (h.held p hp).2⟩

theorem writeVictim (h : Shape s) {f : FrameId} (hf : f < s.count) : Shape (s.writeVictim f) := by
  have hg : (s.frames f).Alike { s.frames f with dirty := false } := ⟨rfl, rfl, rfl, rfl⟩
  refine h.alike (alike_update hg) (update_new hf _) rfl rfl rfl (fun _ => .refl _) (fun x => ?_)
    h.owned (fun d hd => ⟨(h.calls d hd).1, (h.calls d hd).2.alike (alike_update hg _)
      fun _ hin => ?_⟩) h.held h.pass
  · refine Eq.trans ?_ (h.pinned x)
    show (Function.update s.frames f _ x).pins = _
    by_cases hx : x = f
    · rw [hx, Function.update_self]
    · rw [Function.update_of_ne hx]
  · show (Function.update s.frames f _ d.frame).inTxn = true
    by_cases hx : d.frame = f
    · rw [hx, Function.update_self, ← hx]
      exact hin
    · rw [Function.update_of_ne hx]
      exact hin

theorem unmap (h : Shape s) {f : FrameId} (hf : f < s.count) (hp : (s.frames f).pins = 0) :
    Shape (s.unmap f) := by
  obtain ⟨hcalls, hheld, hbusy⟩ := h.unused hp
  rw [State.unmap]
  cases hm : (s.frames f).mapped with
  | false => exact h
  | true =>
    generalize hg : ({ s.frames f with mapped := false } : Frame) = g
    have hother : ∀ {x}, x ≠ f → Function.update s.frames f g x = s.frames x :=
      fun hx => Function.update_of_ne hx ..
    have hmap : s.map (s.frames f).blockNo = some f := (h.place.maps _ f).mpr ⟨hf, hm, rfl⟩
    have hold : ∀ c x, Function.update s.map (s.frames f).blockNo none c = some x →
        s.map c = some x := by
      intro c x hx
      by_cases hcb : c = (s.frames f).blockNo
      · rw [hcb, Function.update_self] at hx
        cases hx
      · rwa [Function.update_of_ne hcb] at hx
    refine ⟨⟨fun c x => ?_, fun x hx => (update_new hf g x hx).trans (h.place.new x hx),
      h.place.nodup, h.place.lt, h.place.disjoint, h.place.listed,
      fun c x hx => h.place.home c x (hold c x hx)⟩, fun x => ?_, fun x => ?_, fun c hc => ?_,
      fun p hp => ?_, h.pass⟩
    · show Function.update s.map (s.frames f).blockNo none c = some x ↔ x < s.count ∧
        (Function.update s.frames f g x).mapped = true ∧
        (Function.update s.frames f g x).blockNo = c
      by_cases hx : x = f
      · subst hx
        rw [Function.update_self, ← hg]
        refine ⟨fun hc => ?_, fun hn => by cases hn.2.1⟩
        by_cases hcb : c = (s.frames x).blockNo
        · rw [hcb, Function.update_self] at hc
          cases hc
        · exact absurd ((h.place.maps c x).mp (hold c x hc)).2.2.symm hcb
      · rw [hother hx, ← h.place.maps]
        refine ⟨hold c x, fun hc => ?_⟩
        rw [Function.update_of_ne, hc]
        rintro rfl
        rw [hmap] at hc
        cases hc
        exact hx rfl
    · refine Eq.trans ?_ (h.pinned x)
      show (Function.update s.frames f g x).pins = _
      by_cases hx : x = f
      · rw [hx, Function.update_self, ← hg]
      · rw [hother hx]
    · refine (h.owned x).trans ?_
      show _ = (Function.update s.frames f g x).busy.toNat
      by_cases hx : x = f
      · rw [hx, Function.update_self, hbusy, ← hg]
        rw [Frame.busy, Bool.or_eq_false_iff] at hbusy
        simp [Frame.busy, hbusy.1]
      · rw [hother hx]
    · show _ ∧ CallOk (Function.update s.frames f g c.frame) c
      rw [hother (hcalls c hc)]
      exact h.calls c hc
    · show _ ∧ PickOk (Function.update s.frames f g p.f) p
      rw [hother (hheld p hp)]
      exact h.held p hp

/-- What `take_frame` comes back with. -/
structure Taken (s t : State) (i : Nat) (f : FrameId) : Prop where
  shape : Shape t
  lt : f < t.count
  home : f ∈ t.own i
  pins : (t.frames f).pins = 0
  mapped : (t.frames f).mapped = false
  map : ∀ b, s.map b = none → t.map b = none
  calls : t.calls = s.calls
  pass : t.pass = s.pass

theorem unmap_taken (h : Shape s) {i : Nat} {f : FrameId} (hi : f ∈ s.lru i)
    (hp : (s.frames f).pins = 0) : Taken s (s.unmap f) i f := by
  have hown := (h.place.listed i).mem_iff.mp hi
  have hlt := h.place.lt i f hown
  refine ⟨h.unmap hlt hp, ?_, ?_, ?_, ?_, fun b hb => ?_, ?_, ?_⟩ <;> rw [State.unmap] <;>
    cases hm : (s.frames f).mapped
  · exact hlt
  · exact hlt
  · exact hown
  · exact hown
  · exact hp
  · show (Function.update s.frames f _ f).pins = 0
    rw [Function.update_self]
    exact hp
  · exact hm
  · show (Function.update s.frames f _ f).mapped = false
    rw [Function.update_self]
  · exact hb
  · show Function.update s.map _ none b = none
    by_cases hbf : b = (s.frames f).blockNo
    · rw [hbf, Function.update_self]
    · rw [Function.update_of_ne hbf]
      exact hb
  · rfl
  · rfl
  · rfl
  · rfl

theorem newFrame_taken (h : Shape s) (i : Nat) : Taken s (s.newFrame i).1 i (s.newFrame i).2 := by
  refine ⟨h.newFrame i, Nat.lt_succ_self _, ?_, ?_, ?_, fun _ => id, rfl, rfl⟩
  · show s.count ∈ Function.update s.own i (s.own i ++ [s.count]) i
    rw [Function.update_self]
    exact List.mem_append_right _ (List.mem_singleton.mpr rfl)
  · show (Function.update s.frames s.count .new s.count).pins = 0
    rw [Function.update_self]
    rfl
  · show (Function.update s.frames s.count .new s.count).mapped = false
    rw [Function.update_self]
    rfl

theorem acquireMiss {t : State} (h : Shape t) {op : Op} {b : Nat} {f : FrameId} (hlt : f < t.count)
    (hhome : f ∈ t.own (shardFor b)) (hpins : (t.frames f).pins = 0)
    (hm : (t.frames f).mapped = false) (hb : t.map b = none) : Shape (t.acquireMiss op b f) := by
  obtain ⟨hcalls, hheld, hbusy⟩ := h.unused hpins
  generalize hg : ({ t.frames f with
    blockNo := b, mapped := true, dirty := false, inTxn := op.inTxn, lsn := 0, version := 0,
    pins := 1, locked := true } : Frame) = g
  have hother : ∀ {x}, x ≠ f → Function.update t.frames f g x = t.frames x :=
    fun hx => Function.update_of_ne hx ..
  have hgp : g.pins = (t.frames f).pins + 1 := by rw [← hg, hpins]
  have hp := h.pinned.cons (.load op b f) hgp
  rw [State.acquireMiss]
  simp only [hg]
  refine ⟨⟨fun c x => ?_, fun x hx => (update_new hlt g x hx).trans (h.place.new x hx),
    h.place.nodup, h.place.lt, h.place.disjoint, fun i => ?_, fun c x hx => ?_⟩, hp, fun x => ?_,
    fun c hc => ?_, fun p hp => ?_, h.pass⟩
  · show Function.update t.map b (some f) c = some x ↔ x < t.count ∧
      (Function.update t.frames f g x).mapped = true ∧ (Function.update t.frames f g x).blockNo = c
    by_cases hx : x = f
    · subst hx
      rw [Function.update_self, ← hg]
      refine ⟨fun hc => ⟨hlt, rfl, ?_⟩, fun hn => ?_⟩
      · by_contra hcb
        rw [Function.update_of_ne (Ne.symm hcb), h.place.maps, hm] at hc
        cases hc.2.1
      · rw [← hn.2.2, Function.update_self]
    · rw [hother hx, ← h.place.maps]
      by_cases hcb : c = b
      · rw [hcb, Function.update_self, hb]
        simp [Ne.symm hx]
      · rw [Function.update_of_ne hcb]
  · exact (perm_toFront ((h.place.listed _).mem_iff.mpr hhome) i).trans (h.place.listed i)
  · replace hx : Function.update t.map b (some f) c = some x := hx
    by_cases hcb : c = b
    · rw [hcb, Function.update_self] at hx
      cases hx
      rw [hcb]
      exact hhome
    · rw [Function.update_of_ne hcb] at hx
      exact h.place.home c x hx
  · show (Call.load op b f ::ₘ t.calls).countP _ = (Function.update t.frames f g x).busy.toNat
    rw [countP_owns_cons_eq, h.owned x]
    by_cases hx : x = f
    · rw [hx, if_pos ⟨rfl, rfl⟩, Function.update_self, hbusy, ← hg]
      rfl
    · rw [if_neg fun hn => hx hn.2.symm, hother hx]
      rfl
  · show c.frame < t.count ∧ CallOk (Function.update t.frames f g c.frame) c
    rcases Multiset.mem_cons.mp hc with rfl | hc
    · refine ⟨hlt, ?_⟩
      show CallOk (Function.update t.frames f g f) _
      rw [Function.update_self, ← hg]
      exact ⟨rfl, rfl, rfl, id⟩
    · rw [hother (hcalls c hc)]
      exact h.calls c hc
  · show p.f < t.count ∧ PickOk (Function.update t.frames f g p.f) p
    rw [hother (hheld p hp)]
    exact h.held p hp

theorem takeFrame (h : Shape s) (capacity i : Nat) :
    Taken s (s.takeFrame capacity i).1 i (s.takeFrame capacity i).2 := by
  rw [State.takeFrame]
  split
  · exact h.newFrame_taken i
  · split
    · rename_i f d hv
      obtain ⟨hmem, hspare, -⟩ := victims_clean (congrArg Prod.fst hv)
      exact h.unmap_taken (List.mem_reverse.mp hmem) hspare.pins
    · rename_i f hv
      obtain ⟨hmem, hspare, -⟩ := (victims_dirty (congrArg Prod.snd hv)).resolve_left
        (by intro h; contradiction)
      have hlru := List.mem_reverse.mp hmem
      have hlt := h.place.lt i f ((h.place.listed i).mem_iff.mp hlru)
      have hp : ((s.writeVictim f).frames f).pins = 0 := by
        show (Function.update s.frames f _ f).pins = 0
        rw [Function.update_self]
        exact hspare.pins
      -- the write changes nothing that the rest of `take_frame` looks at
      exact { (h.writeVictim hlt).unmap_taken hlru hp with }
    · exact h.newFrame_taken i

end Shape

theorem takeFrame_of_ne (s : State) (capacity i : Nat) {x : FrameId}
    (hne : x ≠ (s.takeFrame capacity i).2) :
    (s.takeFrame capacity i).1.frames x = s.frames x := by
  have hunmap : ∀ (t : State) (g : FrameId), x ≠ g → (t.unmap g).frames x = t.frames x := by
    intro t g hg
    rw [State.unmap]
    split
    · exact Function.update_of_ne hg ..
    · rfl
  revert hne
  rw [State.takeFrame]
  split
  · exact fun hne => Function.update_of_ne hne ..
  · split
    · exact fun hne => hunmap s _ hne
    · exact fun hne => (hunmap _ _ hne).trans (Function.update_of_ne hne ..)
    · exact fun hne => Function.update_of_ne hne ..

/-- A frame that is taken had no pin and no part in the transaction. -/
theorem takeFrame_spare {s : State} (hs : Shape s) (capacity i : Nat) :
    (s.frames (s.takeFrame capacity i).2).Spare := by
  have hnew : (s.frames s.count).Spare := by
    rw [hs.place.new _ (Nat.le_refl _)]
    exact ⟨rfl, rfl⟩
  rw [State.takeFrame]
  split
  · exact hnew
  · split
    · rename_i hv
      exact (victims_clean (congrArg Prod.fst hv)).2.1
    · rename_i hv
      exact ((victims_dirty (congrArg Prod.snd hv)).resolve_left nofun).2.1
    · exact hnew

/-! ## Runs -/

theorem Shape.passMarked {s : State} (h : Shape s) {p : Pass} {next : Next} (hp : s.pass = some p)
    (hat : p.at_ = .mark [] next) : Shape (s.goOn p next) := by
  have hheld : s.held = next.picks ++ p.picks := by
    rw [held_eq hp, Pass.held, hat]
    rfl
  have hok := h.pass p hp
  rw [Pass.Ok, hat] at hok
  cases next with
  | copy q =>
    refine h.repass (some { p with at_ := .copy q }) ?_ (fun _ hq => by cases hq; trivial) _ _
    show (p.run.map Prod.fst ++ q :: p.picks).Perm s.held
    rw [hheld, hok.1]
    rfl
  | drop q =>
    refine h.repass (some { p with at_ := .drop q }) ?_ (fun _ hq => by cases hq; trivial) _ _
    show (p.run.map Prod.fst ++ q :: p.picks).Perm s.held
    rw [hheld, hok.1]
    rfl
  | done =>
    refine h.repass none ?_ nofun _ _
    rw [hheld, hok.2 rfl]
    rfl

theorem Shape.step {capacity : Nat} {faults : Bool} {s s' : State} (h : Shape s)
    (hs : Step capacity faults s s') : Shape s' := by
  cases hs with
  | hit op b f hb => exact h.acquireHit hb
  | miss op b hb =>
    have ht := h.takeFrame capacity (shardFor b)
    exact ht.shape.acquireMiss ht.lt ht.home ht.pins ht.mapped (ht.map b hb)
  | missFails b f img => exact { h with }
  | readHit b f rest hc => exact h.look hc rfl _
  | modifyHit fresh inTxn fn b f rest hc hl hd => exact h.modifyHit hc hl hd _
  | throwHit op b f rest hc => exact h.look hc rfl _
  | load op b f rest hc => exact h.load hc _
  | loadFails op b f junk rest _ hc => exact h.loadFails hc _
  | unmapFailed op b f rest hc => exact h.unmapFailed hc
  | readLoaded b f rest hc => exact h.readLoaded hc _
  | modifyLoaded fresh inTxn fn b f rest hc => exact h.modifyLoaded hc _
  | finishModify inTxn f rest hc => exact h.finishModify hc
  | unpin f rest hc => exact h.unpin hc
  | copyTxnFrame b f hb => exact h.copyTxnFrame hb
  | copied f rest hc => exact h.look hc rfl _
  | commitFrame b f lsn hb _ hc => exact h.commitFrame hb hc
  | durable lsn => exact { h with }
  | passStart max hp =>
    refine h.repass (some ⟨max, [], [], 0, .pick 0⟩) ?_ (fun _ hq => by cases hq; trivial) _ _
    rw [State.held, hp]
    rfl
  | passPick p i hp hat => exact h.passPick hp hat
  | passSort p i hp hat =>
    refine h.repass (some { p with
      picks := p.picks.mergeSort fun a b => a.blockNo ≤ b.blockNo, at_ := .loop })
      ?_ (fun _ hq => by cases hq; trivial) _ _
    rw [held_eq hp, Pass.held, hat]
    exact (List.mergeSort_perm p.picks _).append_left _
  | passNext p q qs hp hat hq =>
    refine h.repass (some { p with
      picks := qs, at_ := if joinsRun p.run q then .copy q else .write (.copy q) })
      ?_ (fun _ hq => ?_) _ _
    · rw [held_eq hp, Pass.held, hat]
      show (Pass.held { p with
        picks := qs, at_ := if joinsRun p.run q then .copy q else .write (.copy q) }).Perm _
      rw [hq]
      split
      · exact .refl _
      · exact .of_eq (List.append_assoc ..)
    · cases hq
      split <;> trivial
  | passLast p hp hat hq =>
    refine h.repass (some { p with at_ := .write .done }) ?_ (fun _ hr => by cases hr; exact hq) _ _
    rw [held_eq hp, Pass.held, hat]
    show (p.run.map Prod.fst ++ [] ++ p.picks).Perm _
    rw [List.append_nil]
  | passCopy p q hp hat =>
    refine h.repass (some { p with at_ := .check q (s.frames q.f).data }) ?_
      (fun _ hq => by cases hq; trivial) _ _
    rw [held_eq hp, Pass.held, hat]
    exact .refl _
  | passCheck p q img hp hat =>
    split
    · refine h.repass (some { p with run := p.run ++ [(q, img)], at_ := .loop }) ?_
        (fun _ hq => by cases hq; trivial) _ _
      rw [held_eq hp, Pass.held, hat]
      show ((p.run ++ [(q, img)]).map Prod.fst ++ p.picks).Perm _
      rw [List.map_append, List.append_assoc]
      exact .refl _
    · refine h.repass (some { p with at_ := .write (.drop q) }) ?_
        (fun _ hq => by cases hq; trivial) _ _
      rw [held_eq hp, Pass.held, hat]
      exact .of_eq (List.append_assoc ..)
  | passWrite p next hp hat =>
    refine h.repass (some { p with
      run := [], written := p.written + p.run.length, at_ := .mark p.run next })
      ?_ (fun _ hq => ?_) _ _
    · rw [held_eq hp, Pass.held, hat]
      exact .refl _
    · cases hq
      refine ⟨rfl, fun hn => ?_⟩
      have hok := h.pass p hp
      rw [Pass.Ok, hat, hn] at hok
      exact hok
  | passWriteFails p next n _ hp hat =>
    refine h.repass (some { p with
      picks := [], run := [], at_ := .unwind (p.run.map Prod.fst ++ next.picks ++ p.picks) })
      ?_ (fun _ hq => by cases hq; trivial) _ _
    rw [held_eq hp, Pass.held, hat]
    exact .refl _
  | passMark p c cs next hp hat =>
    refine h.unhold { s.frames c.1.f with
        dirty := (s.frames c.1.f).dirty &&
          !(decide ((s.frames c.1.f).version = c.1.version) && (s.frames c.1.f).dirty)
        pins := (s.frames c.1.f).pins - 1 } { p with at_ := .mark cs next } ?_
      ⟨rfl, rfl, rfl, rfl⟩ rfl rfl ?_ _
    · rw [held_eq hp, Pass.held, hat]
      exact .refl _
    · have hok := h.pass p hp
      rw [Pass.Ok, hat] at hok
      exact hok
  | passMarked p next hp hat => exact h.passMarked hp hat
  | passDrop p q hp hat =>
    refine h.unhold { s.frames q.f with pins := (s.frames q.f).pins - 1 } { p with at_ := .loop } ?_
      ⟨rfl, rfl, rfl, rfl⟩ rfl rfl trivial _
    rw [held_eq hp, Pass.held, hat]
    exact List.perm_middle
  | passUnwind p q qs hp hat =>
    refine h.unhold { s.frames q.f with pins := (s.frames q.f).pins - 1 }
      { p with at_ := .unwind qs } ?_
      ⟨rfl, rfl, rfl, rfl⟩ rfl rfl trivial _
    rw [held_eq hp, Pass.held, hat]
    exact .refl _
  | passThrow p hp hat =>
    refine h.repass none ?_ nofun _ _
    rw [held_eq hp, Pass.held, hat]
    exact .refl _

theorem Shape.empty (init : Nat → Block) (durable : Nat) : Shape (.empty init durable) where
  place :=
    { maps := fun _ f => ⟨nofun, fun h => absurd h.1 (Nat.not_lt_zero f)⟩
      new := fun _ _ => rfl
      nodup := fun _ => List.nodup_nil
      lt := nofun
      disjoint := nofun
      listed := fun _ => .refl _
      home := nofun }
  pinned := fun _ => rfl
  owned := fun _ => rfl
  calls := fun c hc => absurd hc (Multiset.notMem_zero c)
  held := nofun
  pass := nofun

theorem Run.shape {capacity : Nat} {faults : Bool} {init : Nat → Block} {s : State}
    (h : Run capacity faults init s) : Shape s := by
  induction h with
  | empty durable => exact .empty init durable
  | step _ hs ih => exact ih.step hs

end ConcurrentFs.BufferCache
