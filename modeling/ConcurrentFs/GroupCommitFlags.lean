/-
  ConcurrentFs.GroupCommitFlags

  What the journal knows of the cache.  The calls it has under way in the cache are
  those of its threads, so a commit finds no modify under way; and the frames whose
  `in_txn` is set are those of `txn_blocks_`, those that a thread has still to add to
  it, and those that a running commit has still to release.
-/
import ConcurrentFs.GroupCommitLocks
import ConcurrentFs.CacheTransparent

namespace ConcurrentFs.GroupCommit

open BufferCache (Op Call FrameId Event Image Shape results)
open BufferCache.State

/-! ## Frames in the transaction -/

/-- Block `b` is cached, and its frame is in the transaction. -/
def Flagged (c : BufferCache.State) (b : Nat) : Prop :=
  ∃ f, c.map b = some f ∧ (c.frames f).inTxn = true

section Flags

variable {c : BufferCache.State}

/-- A frame changes, but not whether it is in the transaction. -/
theorem flagged_frame (c c' : BufferCache.State) (hmap : c'.map = c.map)
    (hin : ∀ f, (c'.frames f).inTxn = (c.frames f).inTxn) (b : Nat) : Flagged c' b ↔
    Flagged c b := by
  rw [Flagged, Flagged, hmap]
  simp only [hin]

theorem inTxn_update {f : FrameId} {g : BufferCache.Frame} (hg : g.inTxn = (c.frames f).inTxn)
    (x : FrameId) : (Function.update c.frames f g x).inTxn = (c.frames x).inTxn := by
  by_cases hx : x = f
  · rw [hx, Function.update_self, hg]
  · rw [Function.update_of_ne hx]

theorem flagged_acquireHit (h : Shape c) {op : Op} {b : Nat} {f : FrameId} (hb : c.map b = some f)
    (x : Nat) : Flagged (c.acquireHit op b f) x ↔ Flagged c x ∨ x = b ∧ op.inTxn = true := by
  constructor
  · rintro ⟨y, hy, hin⟩
    replace hy : c.map x = some y := hy
    replace hin : (Function.update c.frames f _ y).inTxn = true := hin
    by_cases hyf : y = f
    · rw [hyf, Function.update_self] at hin
      rcases Bool.or_eq_true_iff.mp hin with hin | hin
      · exact Or.inl ⟨y, hy, hyf ▸ hin⟩
      · refine Or.inr ⟨?_, hin⟩
        rw [hyf] at hy
        rw [← ((h.place.maps x f).mp hy).2.2, ← ((h.place.maps b f).mp hb).2.2]
    · rw [Function.update_of_ne hyf] at hin
      exact Or.inl ⟨y, hy, hin⟩
  · rintro (⟨y, hy, hin⟩ | ⟨rfl, hop⟩)
    · refine ⟨y, hy, ?_⟩
      show (Function.update c.frames f _ y).inTxn = true
      by_cases hyf : y = f
      · rw [hyf] at hin
        rw [hyf, Function.update_self]
        exact Bool.or_eq_true_iff.mpr (Or.inl hin)
      · rw [Function.update_of_ne hyf]
        exact hin
    · refine ⟨f, hb, ?_⟩
      show (Function.update c.frames f _ f).inTxn = true
      rw [Function.update_self]
      exact Bool.or_eq_true_iff.mpr (Or.inr hop)

theorem flagged_unmap (h : Shape c) {f : FrameId} (hin : (c.frames f).inTxn = false) (x : Nat) :
    Flagged (c.unmap f) x ↔ Flagged c x := by
  rw [BufferCache.State.unmap]
  cases hm : (c.frames f).mapped with
  | false => rfl
  | true =>
    have hsame : ∀ y, (Function.update c.frames f { c.frames f with mapped := false } y).inTxn =
      (c.frames y).inTxn := inTxn_update rfl
    constructor
    · rintro ⟨y, hy, hyin⟩
      replace hy : Function.update c.map (c.frames f).blockNo none x = some y := hy
      replace hyin : (Function.update c.frames f _ y).inTxn = true := hyin
      rw [hsame] at hyin
      by_cases hx : x = (c.frames f).blockNo
      · rw [hx, Function.update_self] at hy
        cases hy
      · rw [Function.update_of_ne hx] at hy
        exact ⟨y, hy, hyin⟩
    · rintro ⟨y, hy, hyin⟩
      refine ⟨y, ?_, (hsame y).trans hyin⟩
      show Function.update c.map (c.frames f).blockNo none x = some y
      rw [Function.update_of_ne, hy]
      rintro rfl
      -- the frame of a flagged block is no victim
      obtain ⟨hlt, -, -⟩ := (h.place.maps _ _).mp hy
      have hf := (h.place.maps (c.frames f).blockNo f).mpr
        ⟨BufferCache.Transparent.lt_count h hm, hm, rfl⟩
      rw [hy] at hf
      cases hf
      rw [hin] at hyin
      cases hyin

theorem flagged_newFrame (h : Shape c) (i x : Nat) : Flagged (c.newFrame i).1 x ↔ Flagged c x := by
  have hnew : Function.update c.frames c.count .new = c.frames := by
    rw [Function.update_eq_self_iff, h.place.new _ (Nat.le_refl _)]
  rw [BufferCache.State.newFrame, hnew]
  rfl

theorem flagged_takeFrame (h : Shape c) (capacity i x : Nat) :
    Flagged (c.takeFrame capacity i).1 x ↔ Flagged c x := by
  rw [BufferCache.State.takeFrame]
  split
  · exact flagged_newFrame h i x
  · split
    · rename_i f d hv
      obtain ⟨-, hspare, -⟩ := BufferCache.victims_clean (congrArg Prod.fst hv)
      exact flagged_unmap h hspare.inTxn x
    · rename_i f hv
      obtain ⟨-, hspare, hm, -⟩ :=
        (BufferCache.victims_dirty (congrArg Prod.snd hv)).resolve_left (by intro h; contradiction)
      have hlt := BufferCache.Transparent.lt_count h hm
      have hsame : ∀ y, ((c.writeVictim f).frames y).inTxn = (c.frames y).inTxn := inTxn_update rfl
      rw [flagged_unmap (h.writeVictim hlt) ((hsame f).trans hspare.inTxn)]
      exact flagged_frame c (c.writeVictim f) rfl hsame x
    · exact flagged_newFrame h i x

theorem flagged_acquireMiss (h : Shape c) {op : Op} {b : Nat} {f : FrameId}
    (hm : (c.frames f).mapped = false) (hb : c.map b = none) (x : Nat) :
    Flagged (c.acquireMiss op b f) x ↔ Flagged c x ∨ x = b ∧ op.inTxn = true := by
  have hne : ∀ {y}, c.map x = some y → x ≠ b ∧ y ≠ f := by
    intro y hy
    refine ⟨?_, ?_⟩
    · rintro rfl
      rw [hb] at hy
      cases hy
    · rintro rfl
      rw [((h.place.maps x y).mp hy).2.1] at hm
      cases hm
  constructor
  · rintro ⟨y, hy, hin⟩
    replace hy : Function.update c.map b (some f) x = some y := hy
    replace hin : (Function.update c.frames f _ y).inTxn = true := hin
    by_cases hx : x = b
    · rw [hx, Function.update_self] at hy
      cases hy
      rw [Function.update_self] at hin
      exact Or.inr ⟨hx, hin⟩
    · rw [Function.update_of_ne hx] at hy
      rw [Function.update_of_ne (hne hy).2] at hin
      exact Or.inl ⟨y, hy, hin⟩
  · rintro (⟨y, hy, hin⟩ | ⟨rfl, hop⟩)
    · refine ⟨y, ?_, ?_⟩
      · show Function.update c.map b (some f) x = some y
        rw [Function.update_of_ne (hne hy).1, hy]
      · show (Function.update c.frames f _ y).inTxn = true
        rw [Function.update_of_ne (hne hy).2]
        exact hin
    · refine ⟨f, ?_, ?_⟩
      · show Function.update c.map x (some f) x = some f
        rw [Function.update_self]
      · show (Function.update c.frames f _ f).inTxn = true
        rw [Function.update_self]
        exact hop

theorem flagged_commitFrame (h : Shape c) {b : Nat} {f : FrameId} {lsn : Nat}
    (hb : c.map b = some f)
    (x : Nat) : Flagged (c.commitFrame b f lsn) x ↔ Flagged c x ∧ x ≠ b := by
  constructor
  · rintro ⟨y, hy, hin⟩
    replace hy : c.map x = some y := hy
    replace hin : (Function.update c.frames f _ y).inTxn = true := hin
    have hyf : y ≠ f := by
      rintro rfl
      rw [Function.update_self] at hin
      cases hin
    rw [Function.update_of_ne hyf] at hin
    refine ⟨⟨y, hy, hin⟩, ?_⟩
    rintro rfl
    rw [hb] at hy
    cases hy
    exact hyf rfl
  · rintro ⟨⟨y, hy, hin⟩, hx⟩
    refine ⟨y, hy, ?_⟩
    show (Function.update c.frames f _ y).inTxn = true
    rw [Function.update_of_ne]
    · exact hin
    · rintro rfl
      refine hx ?_
      rw [← ((h.place.maps x y).mp hy).2.2, ← ((h.place.maps b y).mp hb).2.2]

end Flags

/-! ## Steps that are not the journal's -/

section Background

variable {capacity : Nat} {c t : BufferCache.State}

/-- A call of the journal is under way as it was. -/
theorem Background.countP (h : Background capacity c t) :
    t.calls.countP (ofJournal · = true) = c.calls.countP (ofJournal · = true) := by
  rw [Multiset.countP_eq_card_filter, Multiset.countP_eq_card_filter]
  exact congrArg Multiset.card h.calls

theorem Background.no_modify (h : Background capacity c t) {e : Event}
    (he : eventOfJournal e = true) :
    t.trace ≠ c.trace ++ [e] := by
  intro htr
  obtain ⟨evs, hevs, hall⟩ := h.trace
  rw [hevs, List.append_cancel_left_eq] at htr
  rw [hall e (by rw [htr]; exact List.mem_singleton.mpr rfl)] at he
  cases he

theorem countP_journal_cons (d : Call) (calls : Multiset Call) :
    (d ::ₘ calls).countP (ofJournal · = true) =
      calls.countP (ofJournal · = true) + (ofJournal d).toNat := by
  rw [Multiset.countP_cons]
  cases ofJournal d <;> rfl

/-- A call that starts is none of the journal's. -/
theorem Background.start (h : Background capacity c t) {d : Call} (hd : t.calls = d ::ₘ c.calls) :
    ofJournal d = false := by
  have hcount := h.countP
  rw [hd, countP_journal_cons] at hcount
  cases hj : ofJournal d with
  | false => rfl
  | true =>
    rw [hj, Bool.toNat_true] at hcount
    omega

end Background

/-! ## A write-back of everything -/

/-- Nothing is dirty. -/
def Clean (c : BufferCache.State) : Prop := ∀ f, (c.frames f).dirty = false

/-- A pass that leaves no frame out. -/
def NoDrop (p : BufferCache.Pass) : Prop :=
  match p.at_ with
  | .drop _ | .write (.drop _) | .mark _ (.drop _) | .unwind _ => False
  | _ => True

/-- The pass has still to get to frame `f`, or holds it as it is. -/
def Swept (c : BufferCache.State) (p : BufferCache.Pass) (f : FrameId) : Prop :=
  (∃ i j, p.at_ = .pick i ∧ i ≤ j ∧ f ∈ c.own j) ∨
    ∃ q ∈ p.held, q.f = f ∧ q.version = (c.frames f).version

/-- Nothing is dirty but what the pass under way will write. -/
def Sweeping (c : BufferCache.State) : Prop :=
  Clean c ∨ ∃ p, c.pass = some p ∧ p.max = sizeMax ∧ NoDrop p ∧
    ∀ f, (c.frames f).dirty = true → Swept c p f

theorem Sweeping.clean {c : BufferCache.State} (h : Sweeping c) (hp : c.pass = none) : Clean c := by
  rcases h with h | ⟨p, hpass, -⟩
  · exact h
  · rw [hp] at hpass
    cases hpass

/-- No frame becomes dirty, none that is dirty changes, and no frame goes. -/
structure Settles (c t : BufferCache.State) : Prop where
  dirty : ∀ f, (t.frames f).dirty = true → (c.frames f).dirty = true ∧
    (t.frames f).version = (c.frames f).version
  own : ∀ j f, f ∈ c.own j → f ∈ t.own j

theorem Settles.refl (c : BufferCache.State) : Settles c c := ⟨fun _ h => ⟨h, rfl⟩, fun _ _ => id⟩

theorem Settles.trans {c t u : BufferCache.State} (h : Settles c t) (h' : Settles t u) :
    Settles c u where
  dirty := fun f hd =>
    have hu := h'.dirty f hd
    have ht := h.dirty f hu.1
    ⟨ht.1, hu.2.trans ht.2⟩
  own := fun j f hf => h'.own j f (h.own j f hf)

theorem Settles.clean {c t : BufferCache.State} (h : Settles c t) (hc : Clean c) : Clean t := by
  intro f
  by_contra hd
  have := (h.dirty f (by simpa using hd)).1
  rw [hc f] at this
  cases this

theorem settles_update {c : BufferCache.State} {f : FrameId} {g : BufferCache.Frame}
    (hg : g.dirty = true → (c.frames f).dirty = true ∧
    g.version = (c.frames f).version) (x : FrameId)
    (hx : (Function.update c.frames f g x).dirty = true) :
    (c.frames x).dirty = true ∧ (Function.update c.frames f g x).version
    = (c.frames x).version := by
  by_cases hxf : x = f
  · rw [hxf, Function.update_self] at hx
    rw [hxf, Function.update_self]
    exact hg hx
  · rw [Function.update_of_ne hxf] at hx
    rw [Function.update_of_ne hxf]
    exact ⟨hx, rfl⟩

theorem lsn_update {c : BufferCache.State} {f : FrameId} {g : BufferCache.Frame}
    (hg : g.lsn = (c.frames f).lsn) (n : Nat) (h : ∀ f, (c.frames f).lsn ≤ n) (x : FrameId) :
    (Function.update c.frames f g x).lsn ≤ n := by
  by_cases hx : x = f
  · rw [hx, Function.update_self, hg]
    exact h f
  · rw [Function.update_of_ne hx]
    exact h x

theorem settles_takeFrame {c : BufferCache.State} (h : Shape c) (capacity i : Nat) :
    Settles c (c.takeFrame capacity i).1 := by
  have hunmap : ∀ (d : BufferCache.State) f, Settles d (d.unmap f) := by
    intro d f
    rw [BufferCache.State.unmap]
    split
    · exact ⟨settles_update fun hd => ⟨hd, rfl⟩, fun _ _ => id⟩
    · exact .refl d
  have hnew : Settles c (c.newFrame i).1 := by
    refine ⟨fun f hd => ?_, fun j f hf => ?_⟩
    · have hnew : Function.update c.frames c.count .new = c.frames := by
        rw [Function.update_eq_self_iff, h.place.new _ (Nat.le_refl _)]
      replace hd : (Function.update c.frames c.count .new f).dirty = true := hd
      show _ ∧ (Function.update c.frames c.count .new f).version = _
      rw [hnew] at hd ⊢
      exact ⟨hd, rfl⟩
    · show f ∈ Function.update c.own i (c.own i ++ [c.count]) j
      by_cases hj : j = i
      · rw [hj] at hf
        rw [hj, Function.update_self]
        exact List.mem_append_left _ hf
      · rw [Function.update_of_ne hj]
        exact hf
  rw [BufferCache.State.takeFrame]
  split
  · exact hnew
  · split
    · exact hunmap c _
    · rename_i f hv
      have hw : Settles c (c.writeVictim f) := ⟨settles_update (by intros; contradiction),
        fun _ _ => id⟩
      exact hw.trans (hunmap _ f)
    · exact hnew

theorem lsn_takeFrame {c : BufferCache.State} (h : Shape c) (capacity i n : Nat)
    (hn : ∀ f, (c.frames f).lsn ≤ n) (x : FrameId) :
    ((c.takeFrame capacity i).1.frames x).lsn ≤ n := by
  have hunmap : ∀ (d : BufferCache.State) f, (∀ f, (d.frames f).lsn ≤ n) →
      ((d.unmap f).frames x).lsn ≤ n := by
    intro d f hd
    rw [BufferCache.State.unmap]
    split
    · exact lsn_update (g := { d.frames f with mapped := false }) rfl n hd x
    · exact hd x
  have hnew : ((c.newFrame i).1.frames x).lsn ≤ n := by
    have hnew : Function.update c.frames c.count .new = c.frames := by
      rw [Function.update_eq_self_iff, h.place.new _ (Nat.le_refl _)]
    show (Function.update c.frames c.count .new x).lsn ≤ n
    rw [hnew]
    exact hn x
  rw [BufferCache.State.takeFrame]
  split
  · exact hnew
  · split
    · exact hunmap c _ hn
    · rename_i f hv
      exact hunmap _ f (lsn_update (g := { c.frames f with dirty := false }) rfl n hn)
    · exact hnew

theorem lsn_acquireMiss {c : BufferCache.State} {op : Op} {b : Nat} {f : FrameId} {n : Nat}
    (hn : ∀ f, (c.frames f).lsn ≤ n) (x : FrameId) : ((c.acquireMiss op b f).frames x).lsn ≤ n := by
  show (Function.update c.frames f _ x).lsn ≤ n
  by_cases hx : x = f
  · rw [hx, Function.update_self]
    exact Nat.zero_le n
  · rw [Function.update_of_ne hx]
    exact hn x

theorem pass_takeFrame (c : BufferCache.State) (capacity i : Nat) :
    (c.takeFrame capacity i).1.pass = c.pass ∧ (c.takeFrame capacity i).1.durable = c.durable := by
  have hunmap : ∀ (d : BufferCache.State) f, (d.unmap f).pass = d.pass ∧
      (d.unmap f).durable = d.durable := by
    intro d f
    rw [BufferCache.State.unmap]
    split <;> exact ⟨rfl, rfl⟩
  rw [BufferCache.State.takeFrame]
  split
  · exact ⟨rfl, rfl⟩
  · split
    · exact hunmap c _
    · exact hunmap (c.writeVictim _) _
    · exact ⟨rfl, rfl⟩

/-- All that `take_frame` adds to the trace is the write of its victim. -/
theorem trace_takeFrame (c : BufferCache.State) (capacity i : Nat) :
    ∃ evs, (c.takeFrame capacity i).1.trace = c.trace ++ evs := by
  have hunmap : ∀ (d : BufferCache.State) f, (d.unmap f).trace = d.trace := by
    intro d f
    rw [BufferCache.State.unmap]
    split <;> rfl
  rw [BufferCache.State.takeFrame]
  split
  · exact ⟨[], (List.append_nil _).symm⟩
  · split
    · exact ⟨[], (hunmap c _).trans (List.append_nil _).symm⟩
    · exact ⟨_, hunmap (c.writeVictim _) _⟩
    · exact ⟨[], (List.append_nil _).symm⟩

/-- A step beside the pass. -/
theorem Sweeping.beside {c t : BufferCache.State} (h : Sweeping c) (hs : Settles c t)
    (hp : t.pass = c.pass) : Sweeping t := by
  rcases h with h | ⟨p, hpass, hmax, hnd, hall⟩
  · exact Or.inl (hs.clean h)
  · refine Or.inr ⟨p, hp.trans hpass, hmax, hnd, fun f hd => ?_⟩
    obtain ⟨hcd, hv⟩ := hs.dirty f hd
    rcases hall f hcd with ⟨i, j, hat, hij, hf⟩ | ⟨q, hq, hqf, hqv⟩
    · exact Or.inl ⟨i, j, hat, hij, hs.own j f hf⟩
    · exact Or.inr ⟨q, hq, hqf, hqv.trans hv.symm⟩

/-! What a background step leaves alone. -/

structure Quiet (c t : BufferCache.State) : Prop where
  flagged : ∀ b, Flagged t b ↔ Flagged c b
  lsn : ∀ n, (∀ f, (c.frames f).lsn ≤ n) → ∀ f, (t.frames f).lsn ≤ n
  settles : Settles c t
  sweeping : (∀ b, ¬ Flagged c b) → (∀ f, (c.frames f).lsn ≤ c.durable) → Sweeping c → Sweeping t

/-- One frame changes beside the pass, and none of what matters here. -/
theorem Quiet.frame {c : BufferCache.State} (t : BufferCache.State) (f : FrameId)
    (g : BufferCache.Frame)
    (hframes : t.frames = Function.update c.frames f g) (hmap : t.map = c.map)
    (hown : t.own = c.own)
    (hpass : t.pass = c.pass) (hin : g.inTxn = (c.frames f).inTxn) (hlsn : g.lsn = (c.frames f).lsn)
    (hdirty : g.dirty = (c.frames f).dirty) (hver : g.version = (c.frames f).version) :
    Quiet c t := by
  have hs : Settles c t := by
    refine ⟨fun x hx => ?_, fun j x hx => ?_⟩
    · rw [hframes] at hx ⊢
      exact settles_update (fun hd => ⟨hdirty ▸ hd, hver⟩) x hx
    · rw [hown]
      exact hx
  refine ⟨flagged_frame c t hmap fun x => ?_, fun n hn x => ?_, hs, fun _ _ hsw =>
    hsw.beside hs hpass⟩
  · rw [hframes]
    exact inTxn_update hin x
  · rw [hframes]
    exact lsn_update hlsn n hn x

/-- No frame changes, and the pass does not. -/
theorem Quiet.same {c : BufferCache.State} (t : BufferCache.State) (hframes : t.frames = c.frames)
    (hmap : t.map = c.map) (hown : t.own = c.own) (hpass : t.pass = c.pass) : Quiet c t := by
  refine .frame t 0 (c.frames 0) ?_ hmap hown hpass rfl rfl rfl rfl
  rw [Function.update_eq_self]
  exact hframes

/-- The pass goes on past its picks with the frames it holds. -/
theorem Sweeping.goOn {c t : BufferCache.State} (h : Sweeping c) (hs : Settles c t)
    {p p' : BufferCache.Pass} (hp : c.pass = some p) (hp' : t.pass = some p')
    (hmax : p'.max = p.max)
    (hnp : ∀ i, p.at_ ≠ .pick i) (hnd : NoDrop p → NoDrop p')
    (hheld : ∀ q ∈ p.held, (t.frames q.f).dirty = true → q.version = (c.frames q.f).version →
    q ∈ p'.held) :
    Sweeping t := by
  rcases h with h | ⟨r, hpass, hrmax, hrnd, hall⟩
  · exact Or.inl (hs.clean h)
  · rw [hp] at hpass
    cases hpass
    refine Or.inr ⟨p', hp', hmax.trans hrmax, hnd hrnd, fun f hd => ?_⟩
    obtain ⟨hcd, hv⟩ := hs.dirty f hd
    rcases hall f hcd with ⟨i, j, hat, -⟩ | ⟨q, hq, hqf, hqv⟩
    · exact absurd hat (hnp i)
    · subst hqf
      exact Or.inr ⟨q, hheld q hq hd hqv, rfl, hqv.trans hv.symm⟩

/-- The pass goes on and no frame changes. -/
theorem Quiet.goOn {c : BufferCache.State} {p : BufferCache.Pass} (hp : c.pass = some p)
    (p' : BufferCache.Pass) (disk : Nat → Image) (trace : List Event) (hmax : p'.max = p.max)
    (hnp : ∀ i, p.at_ ≠ .pick i) (hnd : NoDrop p → NoDrop p') (hheld : ∀ q ∈ p.held, q ∈ p'.held) :
    Quiet c { c with pass := some p', disk := disk, trace := trace } where
  flagged := fun _ => .rfl
  lsn := fun _ => id
  settles := ⟨fun _ hd => ⟨hd, rfl⟩, fun _ _ => id⟩
  sweeping := fun _ _ hsw =>
    hsw.goOn ⟨fun _ hd => ⟨hd, rfl⟩, fun _ _ => id⟩ hp rfl hmax hnp hnd fun q hq _ _ => hheld q hq

section Pass

variable {capacity : Nat} {init : Nat → Block} {c : BufferCache.State} {p : BufferCache.Pass}

/-- Without transaction and behind the log every mapped frame may be written. -/
theorem mayWrite_of_quiet (h : Shape c) (hno : ∀ b, ¬ Flagged c b)
    (hl : ∀ f, (c.frames f).lsn ≤ c.durable) {f : FrameId} (hm : (c.frames f).mapped = true) :
    c.mayWrite f = true := by
  have hin : (c.frames f).inTxn = false := by
    by_contra hin
    have hmap := (h.place.maps _ f).mpr ⟨BufferCache.Transparent.lt_count h hm, hm, rfl⟩
    exact hno _ ⟨f, hmap, by simpa using hin⟩
  rw [BufferCache.State.mayWrite, hin, decide_eq_true (hl f)]
  rfl

theorem length_le_of_nodup {l : List Nat} {n : Nat} (hl : l.Nodup) (hn : ∀ x ∈ l, x < n) :
    l.length ≤ n := by
  have := (hl.subperm fun x hx => List.mem_range.mpr (hn x hx)).length_le
  rwa [List.length_range] at this

theorem quiet_passPick (h : BufferCache.Run capacity false init c) {i : Nat} (hp : c.pass = some p)
    (hat : p.at_ = .pick i) (hmem : c.count ≤ maxFrames) :
    Quiet c ((c.pinAll ((c.pickFrom i p.max p.picks.length).map BufferCache.Pick.f)).setPass
      { p with picks := p.picks ++ c.pickFrom i p.max p.picks.length, at_ := .pick (i + 1) }) := by
  have hsh := h.shape
  have hs : Settles c ((c.pinAll ((c.pickFrom i p.max p.picks.length).map
    BufferCache.Pick.f)).setPass
      { p with picks := p.picks ++ c.pickFrom i p.max p.picks.length, at_ := .pick (i + 1) }) :=
    ⟨fun _ hd => ⟨hd, rfl⟩, fun _ _ => id⟩
  refine ⟨fun _ => .rfl, fun _ => id, hs, fun hno hl hsw => ?_⟩
  rcases hsw with hsw | ⟨r, hpass, hmax, -, hall⟩
  · exact Or.inl (hs.clean hsw)
  · rw [hp] at hpass
    cases hpass
    refine Or.inr ⟨_, rfl, hmax, trivial, fun f hd => ?_⟩
    replace hd : (c.frames f).dirty = true := hd
    have hm := (h.transparent.alive f).mapped hd
    rcases hall f hd with ⟨i', j, hat', hij, hf⟩ | ⟨q, hq, hqf, hqv⟩
    · rw [hat] at hat'
      cases hat'
      by_cases hj : i = j
      · -- this shard: everything dirty in it is picked, for there is room
        subst hj
        have hlen : ((c.lru i).reverse.filter fun f =>
            (c.frames f).mapped && (c.frames f).dirty && c.mayWrite f).length ≤
              p.max - p.picks.length := by
          have hnew : ((c.lru i).reverse.filter fun f =>
              (c.frames f).mapped && (c.frames f).dirty && c.mayWrite f).length ≤ c.count := by
            refine length_le_of_nodup (List.Nodup.filter _ ?_) fun x hx => ?_
            · exact List.nodup_reverse.mpr ((hsh.place.listed i).nodup_iff.mpr (hsh.place.nodup i))
            · have hx' := List.mem_reverse.mp (List.mem_filter.mp hx).1
              exact hsh.place.lt i x ((hsh.place.listed i).mem_iff.mp hx')
          have hold : p.picks.length ≤ c.count := by
            have hnodup := (h.transparent.holding p hp).nodup
            rw [BufferCache.Pass.held, hat, List.map_append] at hnodup
            rw [← List.length_map (f := BufferCache.Pick.f)]
            refine length_le_of_nodup (List.nodup_append.mp hnodup).2.1 fun x hx => ?_
            obtain ⟨q, hq, rfl⟩ := List.mem_map.mp hx
            refine (hsh.held q ?_).1
            rw [Shape.held_eq hp, BufferCache.Pass.held, hat]
            exact List.mem_append_right _ hq
          have hroom : 2 * maxFrames ≤ sizeMax := by decide
          omega
        refine Or.inr ⟨⟨f, i, (c.frames f).blockNo, (c.frames f).version⟩, ?_, rfl, rfl⟩
        show _ ∈ p.run.map Prod.fst ++ (p.picks ++ c.pickFrom i p.max p.picks.length)
        refine List.mem_append_right _ (List.mem_append_right _ ?_)
        rw [BufferCache.State.pickFrom, List.take_of_length_le hlen]
        refine List.mem_map.mpr ⟨f, List.mem_filter.mpr ⟨?_, ?_⟩, rfl⟩
        · rw [List.mem_reverse]
          exact (hsh.place.listed i).mem_iff.mpr hf
        · rw [hm, hd, mayWrite_of_quiet hsh hno hl hm]
          rfl
      · exact Or.inl ⟨i + 1, j, rfl, by omega, hf⟩
    · refine Or.inr ⟨q, ?_, hqf, hqv⟩
      rw [BufferCache.Pass.held, hat] at hq
      show q ∈ p.run.map Prod.fst ++ (p.picks ++ c.pickFrom i p.max p.picks.length)
      rw [← List.append_assoc]
      exact List.mem_append_left _ hq

/-- Behind the last shard every dirty frame is held. -/
theorem quiet_passSort (h : BufferCache.Run capacity false init c) {i : Nat} (hp : c.pass = some p)
    (hat : p.at_ = .pick i) (hend : ¬ (i < BufferCache.shards ∧ p.picks.length < p.max))
    (hmem : c.count ≤ maxFrames) (p' : BufferCache.Pass) (hat' : p'.at_ = .loop)
    (hmax : p'.max = p.max) (hrun : p'.run = p.run) (hpicks : ∀ q ∈ p.picks, q ∈ p'.picks) :
    Quiet c (c.setPass p') := by
  have hsh := h.shape
  refine ⟨fun _ => .rfl, fun _ => id, ⟨fun _ hd => ⟨hd, rfl⟩, fun _ _ => id⟩, fun hno hl hsw => ?_⟩
  rcases hsw with hsw | ⟨r, hpass, hrmax, -, hall⟩
  · exact Or.inl hsw
  · rw [hp] at hpass
    cases hpass
    refine Or.inr ⟨p', rfl, hmax.trans hrmax, ?_, fun f hd => ?_⟩
    · rw [NoDrop, hat']
      trivial
    · rcases hall f hd with ⟨i', j, hat'', hij, hf⟩ | ⟨q, hq, hqf, hqv⟩
      · rw [hat] at hat''
        cases hat''
        exfalso
        -- the limit was not reached, so this was behind the last shard, where no frame is
        have hlen : p.picks.length < p.max := by
          have hold : p.picks.length ≤ c.count := by
            have hnodup := (h.transparent.holding p hp).nodup
            rw [BufferCache.Pass.held, hat, List.map_append] at hnodup
            rw [← List.length_map (f := BufferCache.Pick.f)]
            refine length_le_of_nodup (List.nodup_append.mp hnodup).2.1 fun x hx => ?_
            obtain ⟨q, hq, rfl⟩ := List.mem_map.mp hx
            refine (hsh.held q ?_).1
            rw [Shape.held_eq hp, BufferCache.Pass.held, hat]
            exact List.mem_append_right _ hq
          have hroom : 2 * maxFrames ≤ sizeMax := by decide
          have hpos : 0 < maxFrames := by decide
          omega
        have hm := (h.transparent.alive f).mapped hd
        have hmap := (hsh.place.maps _ f).mpr ⟨BufferCache.Transparent.lt_count hsh hm, hm, rfl⟩
        have hj := hsh.place.disjoint _ _ _ (hsh.place.home _ _ hmap) hf
        have hlt : shardFor (c.frames f).blockNo < BufferCache.shards :=
          Nat.mod_lt _ (by decide)
        rw [hj] at hlt
        exact hend ⟨Nat.lt_of_le_of_lt hij hlt, hlen⟩
      · refine Or.inr ⟨q, ?_, hqf, hqv⟩
        rw [BufferCache.Pass.held, hat] at hq
        rw [BufferCache.Pass.held, hat', hrun]
        rcases List.mem_append.mp hq with hq | hq
        · exact List.mem_append_left _ hq
        · exact List.mem_append_right _ (hpicks q hq)

/-- A pin is given back where the pass has left a frame out: not while everything is swept. -/
theorem quiet_unpinHeld {q : BufferCache.Pick} (hp : c.pass = some p)
    (hdrop : ¬ NoDrop p) (p' : BufferCache.Pass) : Quiet c ((c.unpin q.f).setPass p') := by
  have hs : Settles c ((c.unpin q.f).setPass p') :=
    ⟨settles_update fun hd => ⟨hd, rfl⟩, fun _ _ => id⟩
  refine ⟨flagged_frame c _ rfl (inTxn_update rfl), lsn_update rfl, hs, fun _ _ hsw => ?_⟩
  rcases hsw with hsw | ⟨r, hpass, -, hnd, -⟩
  · exact Or.inl (hs.clean hsw)
  · rw [hp] at hpass
    cases hpass
    exact absurd hnd hdrop

theorem quiet_passMark {k : BufferCache.Pick × Image}
    {ks : List (BufferCache.Pick × Image)} {next : BufferCache.Next} (hp : c.pass = some p)
    (hat : p.at_ = .mark (k :: ks) next) :
    Quiet c ((c.markFrame k.1).setPass { p with at_ := .mark ks next }) := by
  have hheld : p.held = k.1 :: ({ p with at_ := .mark ks next } : BufferCache.Pass).held := by
    rw [BufferCache.Pass.held, BufferCache.Pass.held, hat]
    rfl
  have hs : Settles c ((c.markFrame k.1).setPass { p with at_ := .mark ks next }) := by
    refine ⟨settles_update fun hd => ⟨?_, rfl⟩, fun _ _ => id⟩
    exact (Bool.and_eq_true_iff.mp hd).1
  refine ⟨flagged_frame c _ rfl (inTxn_update rfl), lsn_update rfl, hs, fun _ _ hsw => ?_⟩
  refine hsw.goOn hs hp rfl rfl (fun i => by rw [hat]; intro h; contradiction) (fun hnd => ?_)
    fun q hq hd hv => ?_
  · rw [NoDrop, hat] at hnd
    cases next with
    | drop q => exact hnd
    | copy q => trivial
    | done => trivial
  · rw [hheld] at hq
    rcases List.mem_cons.mp hq with rfl | hq
    · -- a frame that is as it was picked is clean now
      exfalso
      replace hd : (Function.update c.frames k.1.f _ k.1.f).dirty = true := hd
      rw [Function.update_self] at hd
      obtain ⟨hd, hn⟩ := Bool.and_eq_true_iff.mp hd
      rw [hd, hv] at hn
      simp at hn
    · exact hq

end Pass

theorem Background.quiet {capacity : Nat} {init : Nat → Block} {c t : BufferCache.State}
    (hr : BufferCache.Run capacity false init c) (hmem : c.count ≤ maxFrames)
    (h : Background capacity c t) : Quiet c t := by
  have hsh := hr.shape
  cases h.step with
  | hit op b f hb =>
    have hop : op = .read := by
      have := h.start rfl
      cases op with
      | read => rfl
      | modify => cases this
    subst hop
    refine .frame _ f _ rfl rfl rfl rfl ?_ rfl rfl rfl
    exact Bool.or_false _
  | miss op b hb =>
    have ht := hsh.takeFrame capacity (shardFor b)
    have hop : op = .read := by
      have := h.start (congrArg (Call.load op b _ ::ₘ ·) ht.calls)
      cases op with
      | read => rfl
      | modify => cases this
    subst hop
    have hst := settles_takeFrame hsh capacity (shardFor b)
    have hs : Settles c ((c.takeFrame capacity (shardFor b)).1.acquireMiss .read b
        (c.takeFrame capacity (shardFor b)).2) := hst.trans
        ⟨settles_update (by intros; contradiction), fun _ _ => id⟩
    refine ⟨fun x => ?_, fun n hn => ?_, hs, fun _ _ hsw => hsw.beside hs (pass_takeFrame c ..).1⟩
    · rw [flagged_acquireMiss ht.shape ht.mapped (ht.map b hb), flagged_takeFrame hsh]
      simp [Op.inTxn]
    · exact lsn_acquireMiss (lsn_takeFrame hsh capacity (shardFor b) n hn)
  | readHit b f rest hc => exact .same _ rfl rfl rfl rfl
  | modifyHit fresh inTxn fn b f rest hc => exact absurd rfl (h.no_modify (e := .modify ..) rfl)
  | throwHit op b f rest hc => exact .same _ rfl rfl rfl rfl
  | load op b f rest hc => exact .frame _ f _ rfl rfl rfl rfl rfl rfl rfl rfl
  | missFails b f junk hf => cases hf
  | loadFails op b f junk rest hf => cases hf
  | unmapFailed op b f rest hc =>
    have := (hsh.calls (.failed op b f) (by rw [hc]; exact Multiset.mem_cons_self ..)).2.1
    exact absurd this (hr.transparent.not_dead _)
  | readLoaded b f rest hc => exact .frame _ f _ rfl rfl rfl rfl rfl rfl rfl rfl
  | modifyLoaded fresh inTxn fn b f rest hc => exact absurd rfl (h.no_modify (e := .modify ..) rfl)
  | finishModify inTxn f rest hc =>
    have hcount := h.countP
    rw [hc, countP_journal_cons] at hcount
    exact absurd hcount (Nat.ne_of_lt (Nat.lt_succ_self _))
  | unpin f rest hc => exact .frame _ f _ rfl rfl rfl rfl rfl rfl rfl rfl
  | copyTxnFrame b f hb => cases h.start rfl
  | copied f rest hc hl =>
    have hcount := h.countP
    rw [hc, countP_journal_cons, countP_journal_cons] at hcount
    exact absurd hcount (Nat.ne_of_lt (Nat.lt_succ_self _))
  | commitFrame b f lsn hb => exact absurd rfl (h.no_modify (e := .commit ..) rfl)
  | durable lsn hl => exact .same _ rfl rfl rfl rfl
  | passStart max hp =>
    refine ⟨fun _ => .rfl, fun _ => id, ⟨fun _ hd => ⟨hd, rfl⟩, fun _ _ => id⟩,
      fun _ _ hsw => Or.inl ?_⟩
    exact hsw.clean hp
  | passPick p i hp hat => exact quiet_passPick hr hp hat hmem
  | passSort p i hp hat hend =>
    exact quiet_passSort hr hp hat hend hmem _ rfl rfl rfl fun q hq => List.mem_mergeSort.mpr hq
  | passNext p q qs hp hat hq =>
    have hheld : p.held = p.run.map Prod.fst ++ q :: qs := by rw [BufferCache.Pass.held, hat, hq]
    show Quiet c (c.setPass { p with
      picks := qs, at_ := if joinsRun p.run q then .copy q else .write (.copy q) })
    split
    · exact .goOn hp _ c.disk c.trace rfl (by rw [hat]; rintro _ ⟨⟩) (fun _ => trivial)
          fun r hr => by
        rw [hheld] at hr
        exact hr
    · exact .goOn hp _ c.disk c.trace rfl (by rw [hat]; rintro _ ⟨⟩) (fun _ => trivial)
          fun r hr => by
        rw [hheld] at hr
        show r ∈ p.run.map Prod.fst ++ [q] ++ qs
        rw [List.append_assoc]
        exact hr
  | passLast p hp hat hq =>
    refine .goOn hp _ c.disk c.trace rfl (by rw [hat]; rintro _ ⟨⟩) (fun _ => trivial)
      fun r hr => ?_
    rw [BufferCache.Pass.held, hat] at hr
    show r ∈ p.run.map Prod.fst ++ [] ++ p.picks
    rw [List.append_nil]
    exact hr
  | passCopy p q hp hat hl =>
    refine .goOn hp _ c.disk c.trace rfl (by rw [hat]; rintro _ ⟨⟩) (fun _ => trivial)
      fun r hr => ?_
    rw [BufferCache.Pass.held, hat] at hr
    exact hr
  | passCheck p q img hp hat =>
    have hheld : p.held = p.run.map Prod.fst ++ q :: p.picks := by rw [BufferCache.Pass.held, hat]
    split
    · refine .goOn hp _ c.disk c.trace rfl (by rw [hat]; rintro _ ⟨⟩) (fun _ => trivial)
        fun r hr => ?_
      rw [hheld] at hr
      show r ∈ (p.run ++ [(q, img)]).map Prod.fst ++ p.picks
      rw [List.map_append, List.append_assoc]
      exact hr
    · rename_i hmay
      refine ⟨fun _ => .rfl, fun _ => id, ⟨fun _ hd => ⟨hd, rfl⟩, fun _ _ => id⟩,
        fun hno hl hsw => ?_⟩
      -- a frame that was picked may still be written
      have hq : q ∈ c.held := by
        rw [Shape.held_eq hp, hheld]
        exact List.mem_append_right _ (List.mem_cons_self ..)
      have hm := (hsh.held q hq).2.1.resolve_right (hr.transparent.not_dead _)
      exact absurd (mayWrite_of_quiet hsh hno hl hm) hmay
  | passWrite p next hp hat =>
    refine .goOn hp _ _ _ rfl (by rw [hat]; rintro _ ⟨⟩) (fun hnd => ?_) fun r hr => ?_
    · rw [NoDrop, hat] at hnd
      cases next with
      | drop q => exact hnd
      | copy q => trivial
      | done => trivial
    · rw [BufferCache.Pass.held, hat] at hr
      exact hr
  | passWriteFails p next n hf => cases hf
  | passMark p k ks next hp hat => exact quiet_passMark hp hat
  | passMarked p next hp hat =>
    have hok := hsh.pass p hp
    rw [BufferCache.Pass.Ok, hat] at hok
    have hheld : p.held = next.picks ++ p.picks := by
      rw [BufferCache.Pass.held, hat]
      rfl
    cases next with
    | copy q =>
      refine .goOn hp { p with at_ := .copy q } c.disk c.trace rfl (by rw [hat]; rintro _ ⟨⟩)
        (fun _ => trivial) fun r hr => ?_
      rw [hheld] at hr
      rw [BufferCache.Pass.held, hok.1]
      exact hr
    | drop q =>
      refine .goOn hp { p with at_ := .drop q } c.disk c.trace rfl (by rw [hat]; rintro _ ⟨⟩)
        (fun hnd => ?_) fun r hr => ?_
      · rw [NoDrop, hat] at hnd
        exact hnd
      · rw [hheld] at hr
        rw [BufferCache.Pass.held, hok.1]
        exact hr
    | done =>
      refine ⟨fun _ => .rfl, fun _ => id, ⟨fun _ hd => ⟨hd, rfl⟩, fun _ _ => id⟩,
        fun _ _ hsw => Or.inl ?_⟩
      rcases hsw with hsw | ⟨r, hpass, -, -, hall⟩
      · exact hsw
      · -- nothing is held any more, so nothing is dirty
        intro f
        by_contra hd
        replace hd : ¬ (c.frames f).dirty = false := hd
        rw [hp] at hpass
        cases hpass
        rcases hall f (by simpa using hd) with ⟨i, j, hat', -⟩ | ⟨q, hq, -⟩
        · rw [hat] at hat'
          cases hat'
        · rw [hheld, hok.2 rfl] at hq
          cases hq
  | passDrop p q hp hat => exact quiet_unpinHeld hp (by rw [NoDrop, hat]; exact id) _
  | passUnwind p q qs hp hat =>
    exact quiet_unpinHeld hp (by rw [NoDrop, hat]; exact id) _
  | passThrow p hp hat =>
    refine ⟨fun _ => .rfl, fun _ => id, ⟨fun _ hd => ⟨hd, rfl⟩, fun _ _ => id⟩,
      fun _ _ hsw => Or.inl ?_⟩
    rcases hsw with hsw | ⟨r, hpass, -, hnd, -⟩
    · exact hsw
    · rw [hp] at hpass
      cases hpass
      rw [NoDrop, hat] at hnd
      exact hnd.elim

end ConcurrentFs.GroupCommit
