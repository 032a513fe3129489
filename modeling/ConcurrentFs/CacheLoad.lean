/-
  ConcurrentFs.CacheLoad

  A block that cannot be read.  The call that was to load it lets its frame's lock
  go, and only then unmaps the frame; in between, and after, calls that found the
  frame mapped come to its lock, see that the load failed, and throw.

  The cache is taken here with the part of the journal that works on it:
  `JournalImpl::write` records a block in the running transaction if `modify` says
  that its frame has joined it, and a commit asks only for blocks recorded there.
-/
import ConcurrentFs.CacheInv

namespace ConcurrentFs.BufferCache

open Lib State

/-! ## The journal over the cache -/

/-- The cache with `JournalImpl::write` over it. -/
structure Journaled where
  cache : State
  /-- The calls under way, each with its `joined_now`. -/
  joined : Multiset (Call × Bool)
  /-- Blocks of `write`s that are back from `modify` with `joined` set. -/
  adding : Multiset Nat
  /-- `txn_set_`. -/
  txn : Finset Nat

/-- What `acquire` makes of `joined_now`. -/
def joinedNow (s : State) : Call → Bool
  | .hit op _ f => op.inTxn && !(s.frames f).inTxn
  | .load op _ _ => op.inTxn
  | _ => false

/-- The block `write` is to record once a call has ended.  Only a modify that got past the check of
    `load_failed` has set `*joined`. -/
def toRecord (s : State) : Call → Bool → Multiset Nat
  | .finish true f, true => {(s.frames f).blockNo}
  | _, _ => 0

/-- One section of a call, or of what the journal does around it.  `copy_txn_frame` and
    `commit_frame` are called for blocks in the transaction, and a commit waits until every
    operation has ended. -/
inductive JStep (capacity : Nat) (faults : Bool) : Journaled → Journaled → Prop where
  /-- A call gets its frame. -/
  | start {x : Journaled} {s : State} (c : Call) : Step capacity faults x.cache s →
      s.calls = c ::ₘ x.cache.calls →
      (∀ f, c = .copy f → ∃ b ∈ x.txn, x.cache.map b = some f) →
      JStep capacity faults x
        { x with cache := s, joined := (c, joinedNow x.cache c) ::ₘ x.joined }
  | move {x : Journaled} {s : State} (c c' : Call) (rest : Multiset Call) (j : Bool)
      (joined : Multiset (Call × Bool)) : Step capacity faults x.cache s →
      x.cache.calls = c ::ₘ rest → s.calls = c' ::ₘ rest → c ≠ c' → x.joined = (c, j) ::ₘ joined →
      JStep capacity faults x { x with cache := s, joined := (c', j) ::ₘ joined }
  /-- A call ends. -/
  | stop {x : Journaled} {s : State} (c : Call) (j : Bool) (joined : Multiset (Call × Bool)) :
      Step capacity faults x.cache s → x.cache.calls = c ::ₘ s.calls →
      x.joined = (c, j) ::ₘ joined →
      JStep capacity faults x
        { x with cache := s, joined := joined, adding := toRecord x.cache c j + x.adding }
  /-- `add_to_txn`. -/
  | add {x : Journaled} (b : Nat) (rest : Multiset Nat) : x.adding = b ::ₘ rest →
      JStep capacity faults x { x with adding := rest, txn := insert b x.txn }
  | commit {x : Journaled} (b : Nat) (f : FrameId) (lsn : Nat) :
      Step capacity faults x.cache (x.cache.commitFrame b f lsn) → x.cache.map b = some f →
      b ∈ x.txn → x.adding = 0 →
      JStep capacity faults x
        { x with cache := x.cache.commitFrame b f lsn, txn := x.txn.erase b }
  | other {x : Journaled} {s : State} : Step capacity faults x.cache s → s.calls = x.cache.calls →
      (∀ b f lsn, s ≠ x.cache.commitFrame b f lsn) →
      JStep capacity faults x { x with cache := s }

inductive JRun (capacity : Nat) (faults : Bool) (init : Nat → Block) : Journaled → Prop where
  | empty (durable : Nat) : JRun capacity faults init ⟨.empty init durable, 0, 0, ∅⟩
  | step {x y : Journaled} : JRun capacity faults init x → JStep capacity faults x y →
      JRun capacity faults init y

theorem JStep.run {capacity : Nat} {faults : Bool} {init : Nat → Block} {x y : Journaled}
    (h : JStep capacity faults x y) (hr : Run capacity faults init x.cache) :
    Run capacity faults init y.cache := by
  cases h with
  | start c hs => exact hr.step hs
  | move c c' rest j joined hs => exact hr.step hs
  | stop c j joined hs => exact hr.step hs
  | add b rest => exact hr
  | commit b f lsn hs => exact hr.step hs
  | other hs => exact hr.step hs

theorem JRun.cache {capacity : Nat} {faults : Bool} {init : Nat → Block} {x : Journaled}
    (h : JRun capacity faults init x) : Run capacity faults init x.cache := by
  induction h with
  | empty durable => exact .empty durable
  | step _ hs ih => exact hs.run ih

/-! ## What a step does to one frame -/

section Acts

variable {capacity : Nat} {faults : Bool} {s s' : State} {f : FrameId}

/-- The calls that work on a frame. -/
def onFrame (calls : Multiset Call) (f : FrameId) : Multiset Call := calls.filter (·.frame = f)

theorem onFrame_cons_ne {c : Call} (calls : Multiset Call) (h : c.frame ≠ f) :
    onFrame (c ::ₘ calls) f = onFrame calls f := Multiset.filter_cons_of_neg _ h

/-- A frame keeps its block, its lock and its place in or out of the transaction. -/
structure Frame.Kept (g g' : Frame) : Prop where
  alike : g.Alike g'
  inTxn : g'.inTxn = g.inTxn

/-- Somebody is at work on the bytes of the frame, or a pass on the frame. -/
def Used (f : FrameId) (s : State) : Prop :=
  (∃ op b, .hit op b f ∈ s.calls ∧ (s.frames f).locked = false ∧ (s.frames f).loadFailed = false) ∨
    (∃ inTxn, .finish inTxn f ∈ s.calls) ∨ .copy f ∈ s.calls ∨ (∃ p ∈ s.held, p.f = f) ∨
    (s.frames f).mapped = true ∧ (s.frames f).dirty = true

/-- The ways a step can bear on a frame. -/
inductive Acts (f : FrameId) (s s' : State) : Prop where
  | quiet : s'.frames f = s.frames f → onFrame s'.calls f = onFrame s.calls f → Acts f s s'
  | hit (op : Op) (b : Nat) : s.map b = some f → s' = s.acquireHit op b f → Acts f s s'
  /-- It is taken for another block. -/
  | taken (op : Op) (b : Nat) : s.map b = none → (s.frames f).Spare →
      s'.calls = .load op b f ::ₘ s.calls → Acts f s s'
  | throwHit (op : Op) (b : Nat) (rest : Multiset Call) : s.calls = .hit op b f ::ₘ rest →
      (s.frames f).Dead → s' = { s with calls := .unpin f ::ₘ rest } → Acts f s s'
  | load (op : Op) (b : Nat) (rest : Multiset Call) : s.calls = .load op b f ::ₘ rest →
      s' = s.load op b f rest → Acts f s s'
  | loadFails (op : Op) (b : Nat) (junk : Block) (rest : Multiset Call) :
      s.calls = .load op b f ::ₘ rest →
      s' = { s.setFrame f
          { s.frames f with loadFailed := true, locked := false, data := ⟨junk, []⟩ } with
        calls := .failed op b f ::ₘ rest } → Acts f s s'
  | unmapFailed (op : Op) (b : Nat) (rest : Multiset Call) : s.calls = .failed op b f ::ₘ rest →
      s' = { (s.setFrame f
            { s.frames f with
              mapped := false, inTxn := false, pins := (s.frames f).pins - 1 }).toBack
            (shardFor b) f with
          map := Function.update s.map b none
          calls := rest } → Acts f s s'
  | loaded (op : Op) (b : Nat) : .loaded op b f ∈ s.calls → Acts f s s'
  | unpin (rest : Multiset Call) : s.calls = .unpin f ::ₘ rest →
      s' = { s.unpin f with calls := rest } → Acts f s s'
  | copyTxnFrame (b : Nat) : s.map b = some f → s'.calls = .copy f ::ₘ s.calls →
      (s.frames f).Kept (s'.frames f) → Acts f s s'
  | commitFrame (b lsn : Nat) : s.map b = some f → s' = s.commitFrame b f lsn → Acts f s s'
  | used : Used f s → (s.frames f).Kept (s'.frames f) → Acts f s s'

namespace Acts

theorem start (c : Call) (hne : c.frame ≠ f) (hf : s'.frames f = s.frames f)
    (hc : s'.calls = c ::ₘ s.calls) : Acts f s s' :=
  .quiet hf (by rw [hc, onFrame_cons_ne _ hne])

theorem move {c c' : Call} {rest : Multiset Call} (hs : s.calls = c ::ₘ rest)
    (hc : s'.calls = c' ::ₘ rest) (hcc : c'.frame = c.frame) (hne : c.frame ≠ f)
    (hf : s'.frames f = s.frames f) : Acts f s s' :=
  .quiet hf (by rw [hc, hs, onFrame_cons_ne _ hne, onFrame_cons_ne _ (hcc ▸ hne)])

theorem stop {c : Call} (hs : s.calls = c ::ₘ s'.calls) (hne : c.frame ≠ f)
    (hf : s'.frames f = s.frames f) : Acts f s s' :=
  .quiet hf (by rw [hs, onFrame_cons_ne _ hne])

/-- A step that leaves the calls alone, and changes nothing but the pins and the dirt of a frame. -/
theorem pass {x : FrameId} {g : Frame} (hf : s'.frames = Function.update s.frames x g)
    (hc : s'.calls = s.calls) (hg : (s.frames x).Kept g) (hu : x = f → Used f s) : Acts f s s' := by
  by_cases hx : x = f
  · subst hx
    refine .used (hu rfl) ?_
    rw [hf, Function.update_self]
    exact hg
  · exact .quiet (by rw [hf, Function.update_of_ne (Ne.symm hx)]) (by rw [hc])

end Acts

theorem Step.acts (h : Step capacity faults s s') (hs : Shape s) (f : FrameId) : Acts f s s' := by
  cases h with
  | hit op b x hb =>
    by_cases hx : x = f
    · subst hx
      exact .hit op b hb rfl
    · exact .start (.hit op b x) hx (Function.update_of_ne (Ne.symm hx) ..) rfl
  | miss op b hb =>
    have ht := hs.takeFrame capacity (shardFor b)
    by_cases hx : (s.takeFrame capacity (shardFor b)).2 = f
    · refine .taken op b hb ?_ ?_
      · rw [← hx]
        exact takeFrame_spare hs capacity (shardFor b)
      · show Call.load op b _ ::ₘ (s.takeFrame capacity (shardFor b)).1.calls = _
        rw [ht.calls, hx]
    · refine .start (.load op b (s.takeFrame capacity (shardFor b)).2) hx ?_ ?_
      · exact (Function.update_of_ne (Ne.symm hx) ..).trans
          (takeFrame_of_ne s capacity _ (Ne.symm hx))
      · show _ ::ₘ (s.takeFrame capacity (shardFor b)).1.calls = _
        rw [ht.calls]
  | readHit b x rest hc hl hd =>
    by_cases hx : x = f
    · subst hx
      exact .used (Or.inl ⟨_, _, by rw [hc]; exact Multiset.mem_cons_self .., hl, hd⟩)
        ⟨.refl _, rfl⟩
    · exact .move hc rfl rfl hx rfl
  | modifyHit fresh inTxn fn b x rest hc hl hd =>
    by_cases hx : x = f
    · subst hx
      refine .used (Or.inl ⟨_, _, by rw [hc]; exact Multiset.mem_cons_self .., hl, hd⟩) ?_
      show (s.frames x).Kept (Function.update s.frames x _ x)
      rw [Function.update_self]
      exact ⟨⟨rfl, rfl, hl.symm, rfl⟩, rfl⟩
    · exact .move hc rfl rfl hx (Function.update_of_ne (Ne.symm hx) ..)
  | throwHit op b x rest hc hl hd =>
    by_cases hx : x = f
    · subst hx
      exact .throwHit op b rest hc ⟨hd, hl⟩ rfl
    · exact .move hc rfl rfl hx rfl
  | load op b x rest hc =>
    by_cases hx : x = f
    · subst hx
      exact .load op b rest hc rfl
    · exact .move hc rfl rfl hx (Function.update_of_ne (Ne.symm hx) ..)
  | loadFails op b x junk rest _ hc =>
    by_cases hx : x = f
    · subst hx
      exact .loadFails op b junk rest hc rfl
    · exact .move hc rfl rfl hx (Function.update_of_ne (Ne.symm hx) ..)
  | unmapFailed op b x rest hc =>
    by_cases hx : x = f
    · subst hx
      exact .unmapFailed op b rest hc rfl
    · exact .stop hc hx (Function.update_of_ne (Ne.symm hx) ..)
  | readLoaded b x rest hc =>
    by_cases hx : x = f
    · subst hx
      exact .loaded .read b (by rw [hc]; exact Multiset.mem_cons_self ..)
    · exact .move hc rfl rfl hx (Function.update_of_ne (Ne.symm hx) ..)
  | modifyLoaded fresh inTxn fn b x rest hc =>
    by_cases hx : x = f
    · subst hx
      exact .loaded _ b (by rw [hc]; exact Multiset.mem_cons_self ..)
    · exact .move hc rfl rfl hx (Function.update_of_ne (Ne.symm hx) ..)
  | finishModify inTxn x rest hc =>
    by_cases hx : x = f
    · subst hx
      refine .used (Or.inr (Or.inl ⟨inTxn, by rw [hc]; exact Multiset.mem_cons_self ..⟩)) ?_
      show (s.frames x).Kept (Function.update s.frames x _ x)
      rw [Function.update_self]
      exact ⟨⟨rfl, rfl, rfl, rfl⟩, rfl⟩
    · exact .stop hc hx (Function.update_of_ne (Ne.symm hx) ..)
  | unpin x rest hc =>
    by_cases hx : x = f
    · subst hx
      exact .unpin rest hc rfl
    · exact .stop hc hx (Function.update_of_ne (Ne.symm hx) ..)
  | copyTxnFrame b x hb =>
    by_cases hx : x = f
    · subst hx
      refine .copyTxnFrame b hb rfl ?_
      show (s.frames x).Kept (Function.update s.frames x _ x)
      rw [Function.update_self]
      exact ⟨⟨rfl, rfl, rfl, rfl⟩, rfl⟩
    · exact .start (.copy x) hx (Function.update_of_ne (Ne.symm hx) ..) rfl
  | copied x rest hc =>
    by_cases hx : x = f
    · subst hx
      exact .used (Or.inr (Or.inr (Or.inl (by rw [hc]; exact Multiset.mem_cons_self ..))))
        ⟨.refl _, rfl⟩
    · exact .move hc rfl rfl hx rfl
  | commitFrame b x lsn hb =>
    by_cases hx : x = f
    · subst hx
      exact .commitFrame b lsn hb rfl
    · exact .quiet (Function.update_of_ne (Ne.symm hx) ..) rfl
  | passPick p i hp hat =>
    by_cases hx : f ∈ (s.pickFrom i p.max p.picks.length).map Pick.f
    · obtain ⟨q, hq, rfl⟩ := List.mem_map.mp hx
      obtain ⟨-, hm, hd, -⟩ := Shape.mem_pickFrom hq
      exact .used (Or.inr (Or.inr (Or.inr (Or.inr ⟨hm, hd⟩)))) ⟨⟨rfl, rfl, rfl, rfl⟩, rfl⟩
    · refine .quiet ?_ rfl
      show ({ s.frames f with pins := (s.frames f).pins + _ } : Frame) = s.frames f
      rw [List.count_eq_zero.mpr hx]
      rfl
  | passMark p c cs next hp hat =>
    refine .pass rfl rfl ⟨⟨rfl, rfl, rfl, rfl⟩, rfl⟩ fun hx =>
      Or.inr (Or.inr (Or.inr (Or.inl ⟨c.1, ?_, hx⟩)))
    rw [Shape.held_eq hp, Pass.held, hat]
    exact List.mem_cons_self ..
  | passDrop p q hp hat =>
    refine .pass rfl rfl ⟨⟨rfl, rfl, rfl, rfl⟩, rfl⟩ fun hx =>
      Or.inr (Or.inr (Or.inr (Or.inl ⟨q, ?_, hx⟩)))
    rw [Shape.held_eq hp, Pass.held, hat]
    exact List.mem_append_right _ (List.mem_cons_self ..)
  | passUnwind p q qs hp hat =>
    refine .pass rfl rfl ⟨⟨rfl, rfl, rfl, rfl⟩, rfl⟩ fun hx =>
      Or.inr (Or.inr (Or.inr (Or.inl ⟨q, ?_, hx⟩)))
    rw [Shape.held_eq hp, Pass.held, hat]
    exact List.mem_cons_self ..
  | passMarked p next hp hat => cases next <;> exact .quiet rfl rfl
  | missFails b x img => exact .quiet rfl rfl
  | durable lsn => exact .quiet rfl rfl
  | passStart max hp => exact .quiet rfl rfl
  | passSort p i hp hat => exact .quiet rfl rfl
  | passNext p q qs hp hat hq => exact .quiet rfl rfl
  | passLast p hp hat hq => exact .quiet rfl rfl
  | passCopy p q hp hat => exact .quiet rfl rfl
  | passCheck p q img hp hat => exact .quiet rfl rfl
  | passWrite p next hp hat => exact .quiet rfl rfl
  | passWriteFails p next n _ hp hat => exact .quiet rfl rfl
  | passThrow p hp hat => exact .quiet rfl rfl

/-- A pass picks dirty frames only. -/
theorem Step.held_sub (h : Step capacity faults s s') (hs : Shape s) :
    ∀ p ∈ s'.held, p ∈ s.held ∨ (s.frames p.f).mapped = true ∧ (s.frames p.f).dirty = true := by
  -- what a pass goes on with is among what it had
  have sub : ∀ {p p' : Pass}, s.pass = some p → s'.pass = some p' → (∀ q ∈ p'.held, q ∈ p.held) →
      ∀ q ∈ s'.held, q ∈ s.held ∨ (s.frames q.f).mapped = true ∧ (s.frames q.f).dirty = true := by
    intro p p' hp hp' hsub q hq
    rw [Shape.held_eq hp'] at hq
    rw [Shape.held_eq hp]
    exact .inl (hsub q hq)
  cases h with
  | miss op b hb =>
    intro p hp
    have hpass := (hs.takeFrame capacity (shardFor b)).pass
    have hsame : ((s.takeFrame capacity (shardFor b)).1.acquireMiss op b
      (s.takeFrame capacity (shardFor b)).2).pass = s.pass := hpass
    rw [State.held, hsame] at hp
    exact .inl hp
  | passStart max hp =>
    intro q hq
    cases hq
  | passPick p i hp hat =>
    intro q hq
    replace hq : q ∈ p.run.map Prod.fst ++ (p.picks ++ s.pickFrom i p.max p.picks.length) := hq
    rw [Shape.held_eq hp, Pass.held, hat]
    rw [← List.append_assoc] at hq
    rcases List.mem_append.mp hq with hq | hq
    · exact .inl hq
    · obtain ⟨-, hm, hd, -⟩ := Shape.mem_pickFrom hq
      exact .inr ⟨hm, hd⟩
  | passSort p i hp hat =>
    refine sub hp rfl fun q hq => ?_
    rw [Pass.held, hat]
    exact ((List.mergeSort_perm p.picks _).append_left _).mem_iff.mp hq
  | passNext p q qs hp hat hq =>
    refine sub hp rfl fun r hr => ?_
    cases hj : joinsRun p.run q <;> simp_all [Pass.held, Next.picks]
  | passLast p hp hat hq =>
    refine sub hp rfl fun q hq => ?_
    simpa [Pass.held, hat, Next.picks] using hq
  | passCopy p q hp hat =>
    refine sub hp rfl fun r hr => ?_
    simpa [Pass.held, hat] using hr
  | passCheck p q img hp hat =>
    refine sub hp rfl fun r hr => ?_
    cases hm : s.mayWrite q.f <;> simp_all [Pass.held, Next.picks]
  | passWrite p next hp hat =>
    refine sub hp rfl fun r hr => ?_
    simpa [Pass.held, hat] using hr
  | passWriteFails p next n _ hp hat =>
    refine sub hp rfl fun r hr => ?_
    simpa [Pass.held, hat] using hr
  | passMark p c cs next hp hat =>
    refine sub hp rfl fun r hr => ?_
    rw [Pass.held, hat]
    exact List.mem_cons_of_mem _ hr
  | passMarked p next hp hat =>
    have hok := hs.pass p hp
    rw [Pass.Ok, hat] at hok
    cases next with
    | copy q =>
      refine sub hp (show (s.goOn p (.copy q)).pass = some { p with at_ := .copy q } from rfl)
        fun r hr => ?_
      simpa [Pass.held, hat, hok.1, Next.picks] using hr
    | drop q =>
      refine sub hp (show (s.goOn p (.drop q)).pass = some { p with at_ := .drop q } from rfl)
        fun r hr => ?_
      simpa [Pass.held, hat, hok.1, Next.picks] using hr
    | done =>
      intro q hq
      cases hq
  | passDrop p q hp hat =>
    refine sub hp rfl fun r hr => ?_
    rw [Pass.held, hat]
    replace hr : r ∈ p.run.map Prod.fst ++ p.picks := hr
    exact List.mem_append.mpr ((List.mem_append.mp hr).imp id (List.mem_cons_of_mem _))
  | passUnwind p q qs hp hat =>
    refine sub hp rfl fun r hr => ?_
    rw [Pass.held, hat]
    exact List.mem_cons_of_mem _ hr
  | passThrow p hp hat =>
    intro q hq
    cases hq
  | hit | missFails | readHit | modifyHit | throwHit | load | loadFails | unmapFailed | readLoaded
  | modifyLoaded | finishModify | unpin | copyTxnFrame | copied | commitFrame | durable =>
    exact fun _ => .inl

/-- The ways a call can start. -/
theorem Step.starts (h : Step capacity faults s s') (hs : Shape s) :
    Multiset.card s'.calls ≤ Multiset.card s.calls ∨
      (∃ op b f, s.map b = some f ∧ s'.calls = .hit op b f ::ₘ s.calls) ∨
      (∃ op b f, s'.calls = .load op b f ::ₘ s.calls) ∨ ∃ f, s'.calls = .copy f ::ₘ s.calls := by
  have move : ∀ {c c' : Call} {rest : Multiset Call}, s.calls = c ::ₘ rest →
      Multiset.card (c' ::ₘ rest) ≤ Multiset.card s.calls := fun hc => by
    rw [hc, Multiset.card_cons, Multiset.card_cons]
  have stop : ∀ {c : Call} {rest : Multiset Call}, s.calls = c ::ₘ rest →
      Multiset.card rest ≤ Multiset.card s.calls := fun hc => by
    rw [hc, Multiset.card_cons]
    exact Nat.le_succ _
  cases h with
  | hit op b f hb => exact .inr (.inl ⟨op, b, f, hb, rfl⟩)
  | miss op b hb =>
    refine .inr (.inr (.inl ⟨op, b, (s.takeFrame capacity (shardFor b)).2, ?_⟩))
    show Call.load op b _ ::ₘ (s.takeFrame capacity (shardFor b)).1.calls = _
    rw [(hs.takeFrame capacity (shardFor b)).calls]
  | copyTxnFrame b f hb _ => exact .inr (.inr (.inr ⟨f, rfl⟩))
  | readHit b f rest hc | throwHit op b f rest hc | modifyHit fresh inTxn fn b f rest hc
  | load op b f rest hc | loadFails op b f junk rest _ hc | readLoaded b f rest hc
  | modifyLoaded fresh inTxn fn b f rest hc | copied f rest hc => exact .inl (move hc)
  | unmapFailed op b f rest hc | finishModify inTxn f rest hc | unpin f rest hc =>
    exact .inl (stop hc)
  | passMarked p next _ _ => cases next <;> exact .inl (Nat.le_refl _)
  | missFails | commitFrame | durable | passStart | passPick | passSort | passNext | passLast
  | passCopy | passCheck | passWrite | passWriteFails | passMark | passDrop | passUnwind
  | passThrow => exact .inl (Nat.le_refl _)

end Acts

/-! ## What the journal has recorded -/

/-- A block that is recorded, or about to be, is cached in a frame that was loaded. -/
def Noted (x : Journaled) : Prop :=
  ∀ b, b ∈ x.adding ∨ b ∈ x.txn → ∃ f, x.cache.map b = some f ∧
    (x.cache.frames f).inTxn = true ∧ (x.cache.frames f).locked = false ∧
      (x.cache.frames f).loadFailed = false

section Noted

variable {capacity : Nat} {faults : Bool} {init : Nat → Block} {s s' : State} {x y : Journaled}

/-- A mapped frame that stays alike stays where it is. -/
theorem Shape.map_alike (hs : Shape s) (hs' : Shape s') {b : Nat} {f : FrameId}
    (hb : s.map b = some f) (hk : (s.frames f).Alike (s'.frames f)) : s'.map b = some f := by
  obtain ⟨-, hm, hbn⟩ := (hs.place.maps b f).mp hb
  have hm' : (s'.frames f).mapped = true := hk.mapped.trans hm
  refine (hs'.place.maps b f).mpr ⟨?_, hm', hk.blockNo.trans hbn⟩
  by_contra hlt
  rw [hs'.place.new f (Nat.le_of_not_lt hlt)] at hm'
  cases hm'

/-- Only a commit takes a loaded frame out of the transaction, and nothing takes it from its
    block. -/
theorem Step.noted (h : Step capacity faults s s') (hs : Shape s) {b : Nat} {f : FrameId}
    (hb : s.map b = some f) (ht : (s.frames f).inTxn = true) (hl : (s.frames f).locked = false)
    (hd : (s.frames f).loadFailed = false) :
    (∃ lsn, s' = s.commitFrame b f lsn) ∨ s'.map b = some f ∧ (s'.frames f).inTxn = true ∧
      (s'.frames f).locked = false ∧ (s'.frames f).loadFailed = false := by
  have hs' := hs.step h
  have kept : (s.frames f).Kept (s'.frames f) → s'.map b = some f ∧ (s'.frames f).inTxn = true ∧
      (s'.frames f).locked = false ∧ (s'.frames f).loadFailed = false := fun hk =>
    ⟨hs.map_alike hs' hb hk.alike, hk.inTxn.trans ht, hk.alike.locked.trans hl,
      hk.alike.loadFailed.trans hd⟩
  have owner : ∀ {c}, c ∈ s.calls → c.owns = true → c.frame = f → False := by
    rintro c hc ho rfl
    obtain ⟨-, hok⟩ := hs.calls c hc
    cases c with
    | load op b' f => exact absurd (hl.symm.trans hok.1) nofun
    | loaded op b' f => exact absurd (hl.symm.trans hok.1) nofun
    | failed op b' f => exact absurd (hd.symm.trans hok.1.1) nofun
    | hit | finish | unpin | copy => cases ho
  cases h.acts hs f with
  | quiet hf _ => exact .inr (kept (by rw [hf]; exact ⟨.refl _, rfl⟩))
  | hit op b' hb' he =>
    refine .inr ?_
    rw [he]
    show s.map b = some f ∧ (Function.update s.frames f _ f).inTxn = true ∧
      (Function.update s.frames f _ f).locked = false ∧
        (Function.update s.frames f _ f).loadFailed = false
    rw [Function.update_self, ht]
    exact ⟨hb, rfl, hl, hd⟩
  | taken op b' _ hspare => exact absurd (ht.symm.trans hspare.inTxn) nofun
  | throwHit op b' rest _ hdead => exact absurd (hd.symm.trans hdead.1) nofun
  | load op b' rest hc => exact (owner (by rw [hc]; exact Multiset.mem_cons_self ..) rfl rfl).elim
  | loadFails op b' junk rest hc =>
    exact (owner (by rw [hc]; exact Multiset.mem_cons_self ..) rfl rfl).elim
  | unmapFailed op b' rest hc =>
    exact (owner (by rw [hc]; exact Multiset.mem_cons_self ..) rfl rfl).elim
  | loaded op b' hc => exact (owner hc rfl rfl).elim
  | unpin rest hc he =>
    refine .inr (kept ?_)
    rw [he]
    show (s.frames f).Kept (Function.update s.frames f _ f)
    rw [Function.update_self]
    exact ⟨⟨rfl, rfl, rfl, rfl⟩, rfl⟩
  | copyTxnFrame b' _ _ hk => exact .inr (kept hk)
  | commitFrame b' lsn hb' he =>
    have hbb := ((hs.place.maps b' f).mp hb').2.2.symm.trans ((hs.place.maps b f).mp hb).2.2
    exact .inl ⟨lsn, hbb ▸ he⟩
  | used _ hk => exact .inr (kept hk)

theorem commitFrame_inj {b b' : Nat} {f f' : FrameId} {lsn lsn' : Nat}
    (h : s.commitFrame b f lsn = s.commitFrame b' f' lsn') : b = b' := by
  have ht : s.trace ++ [Event.commit b lsn] = s.trace ++ [Event.commit b' lsn'] :=
    congrArg State.trace h
  have := List.append_cancel_left ht
  simp only [List.cons.injEq, Event.commit.injEq] at this
  exact this.1.1

theorem cons_ne_self (c : Call) (calls : Multiset Call) : c ::ₘ calls ≠ calls := by
  intro h
  have := congrArg Multiset.card h
  rw [Multiset.card_cons] at this
  omega

/-- A commit is of a block recorded in the transaction, and nothing is on its way there. -/
theorem JStep.commit_mem (h : JStep capacity faults x y) {b : Nat} {f : FrameId} {lsn : Nat}
    (he : y.cache = x.cache.commitFrame b f lsn) :
    b ∈ x.txn ∧ x.adding = 0 ∧ y.adding = x.adding ∧ y.txn = x.txn.erase b := by
  have hc : y.cache.calls = x.cache.calls := by rw [he]; rfl
  cases h with
  | start c _ hcalls => exact absurd (hcalls.symm.trans hc) (cons_ne_self c _)
  | move c c' rest j joined _ hx hy hne =>
    rw [hx] at hc
    exact absurd ((Multiset.cons_inj_left rest).mp (hy.symm.trans hc)).symm hne
  | stop c j joined _ hx => exact absurd (hx.symm.trans hc.symm) (cons_ne_self c _)
  | add b' rest =>
    exact absurd (congrArg (List.length ∘ State.trace) he) (by simp [State.commitFrame])
  | commit b' f' lsn' _ _ hmem hadd =>
    rw [← commitFrame_inj he]
    exact ⟨hmem, hadd, rfl, rfl⟩
  | other _ _ hno => exact absurd he (hno b f lsn)

theorem JStep.cache (h : JStep capacity faults x y) :
    Step capacity faults x.cache y.cache ∨ y.cache = x.cache := by
  cases h with
  | start c hs => exact .inl hs
  | move c c' rest j joined hs => exact .inl hs
  | stop c j joined hs => exact .inl hs
  | add b rest => exact .inr rfl
  | commit b f lsn hs => exact .inl hs
  | other hs => exact .inl hs

theorem mem_toRecord {c : Call} {j : Bool} {b : Nat} (h : b ∈ toRecord s c j) :
    ∃ f, c = .finish true f ∧ (s.frames f).blockNo = b := by
  unfold toRecord at h
  split at h
  next f => exact ⟨f, rfl, (Multiset.mem_singleton.mp h).symm⟩
  next => cases Multiset.notMem_zero b h

/-- What is newly recorded is the block of a modify that has changed it. -/
theorem JStep.newly (h : JStep capacity faults x y) {b : Nat} (hb : b ∈ y.adding ∨ b ∈ y.txn) :
    b ∈ x.adding ∨ b ∈ x.txn ∨
      ∃ f, .finish true f ∈ x.cache.calls ∧ (x.cache.frames f).blockNo = b := by
  cases h with
  | start c _ _ _ => exact hb.imp id .inl
  | move c c' rest j joined _ _ _ _ _ => exact hb.imp id .inl
  | stop c j joined _ hc _ =>
    rcases hb with hb | hb
    · rcases Multiset.mem_add.mp hb with hb | hb
      · obtain ⟨f, rfl, hbn⟩ := mem_toRecord hb
        rw [hc]
        exact .inr (.inr ⟨f, Multiset.mem_cons_self .., hbn⟩)
      · exact .inl hb
    · exact .inr (.inl hb)
  | add b' rest hadd =>
    rw [hadd]
    rcases hb with hb | hb
    · exact .inl (Multiset.mem_cons_of_mem hb)
    · rcases Finset.mem_insert.mp hb with rfl | hb
      · exact .inl (Multiset.mem_cons_self ..)
      · exact .inr (.inl hb)
  | commit b' f lsn _ _ _ _ => exact hb.imp id fun hb => .inl (Finset.mem_of_mem_erase hb)
  | other _ _ _ => exact hb.imp id .inl

theorem JStep.noted (h : JStep capacity faults x y) (hs : Shape x.cache) (hn : Noted x) :
    Noted y := by
  intro b hb
  have hold : ∃ f, x.cache.map b = some f ∧ (x.cache.frames f).inTxn = true ∧
      (x.cache.frames f).locked = false ∧ (x.cache.frames f).loadFailed = false := by
    rcases h.newly hb with hb | hb | ⟨f, hf, hbn⟩
    · exact hn b (.inl hb)
    · exact hn b (.inr hb)
    · obtain ⟨hlt, hm, hl, hd, ht⟩ := hs.calls _ hf
      exact ⟨f, (hs.place.maps b f).mpr ⟨hlt, hm, hbn⟩, ht rfl, hl, hd⟩
  obtain ⟨f, hm, ht, hl, hd⟩ := hold
  rcases h.cache with hstep | he
  · rcases hstep.noted hs hm ht hl hd with ⟨lsn, he⟩ | hkept
    · -- a commit leaves `b` neither in the transaction nor on its way there
      obtain ⟨-, hadd, hadd', htxn⟩ := h.commit_mem he
      rw [hadd', hadd, htxn] at hb
      rcases hb with hb | hb
      · cases Multiset.notMem_zero b hb
      · exact absurd rfl (Finset.ne_of_mem_erase hb)
    · exact ⟨f, hkept⟩
  · rw [he]
    exact ⟨f, hm, ht, hl, hd⟩

theorem JRun.noted (h : JRun capacity faults init x) : Noted x := by
  induction h with
  | empty durable =>
    rintro b (hb | hb)
    · cases Multiset.notMem_zero b hb
    · cases Finset.notMem_empty b hb
  | step hx hs ih => exact hs.noted hx.cache.shape ih

end Noted

/-! ## A load that does not succeed -/

/-- A call has missed on `b` and taken frame `f`; its load has not succeeded, and no other call has
    taken the frame. -/
inductive Attempt (capacity : Nat) (faults : Bool) (init : Nat → Block) (op : Op) (b : Nat)
    (f : FrameId) : Journaled → Prop where
  | miss {x y : Journaled} : JRun capacity faults init x → JStep capacity faults x y →
      x.cache.map b = none → (x.cache.takeFrame capacity (shardFor b)).2 = f →
      y.cache = (x.cache.takeFrame capacity (shardFor b)).1.acquireMiss op b f →
      Attempt capacity faults init op b f y
  | step {y z : Journaled} : Attempt capacity faults init op b f y → JStep capacity faults y z →
      (∀ op' b', z.cache.calls ≠ .load op' b' f ::ₘ y.cache.calls) →
      .loaded op b f ∉ z.cache.calls → Attempt capacity faults init op b f z

/-- The calls on a frame are waiting for its lock, or, if `ended`, about to throw, but for one. -/
def Waits (b : Nat) (f : FrameId) (calls : Multiset Call) (but : Call → Prop) (ended : Bool) :
    Prop :=
  ∀ c ∈ calls, c.frame = f → but c ∨ (∃ op, c = .hit op b f) ∨ ended = true ∧ c = .unpin f

/-- How far an attempt has got. -/
inductive Stage (op : Op) (b : Nat) (f : FrameId) (s : State) : Prop where
  | loading : .load op b f ∈ s.calls → Waits b f s.calls (· = .load op b f) false → Stage op b f s
  | failed : .failed op b f ∈ s.calls → Waits b f s.calls (· = .failed op b f) true → Stage op b f s
  | gone : (s.frames f).Dead → (s.frames f).mapped = false → (s.frames f).inTxn = false →
      Waits b f s.calls (fun _ => False) true → Stage op b f s

structure Trying (op : Op) (b : Nat) (f : FrameId) (s : State) : Prop where
  stage : Stage op b f s
  clean : (s.frames f).dirty = false
  held : ∀ p ∈ s.held, p.f ≠ f

/-- What a step can do to the frame of an attempt, and to the calls on it. -/
inductive Goes (op : Op) (b : Nat) (f : FrameId) (x y : Journaled) : Prop where
  | quiet : y.cache.frames f = x.cache.frames f →
      onFrame y.cache.calls f = onFrame x.cache.calls f → Goes op b f x y
  /-- One more call finds the block mapped. -/
  | joins (op' : Op) : x.cache.map b = some f → y.cache = x.cache.acquireHit op' b f →
      Goes op b f x y
  | loads (rest : Multiset Call) : x.cache.calls = .load op b f ::ₘ rest →
      y.cache = x.cache.load op b f rest → Goes op b f x y
  | fails (junk : Block) (rest : Multiset Call) : x.cache.calls = .load op b f ::ₘ rest →
      y.cache = { x.cache.setFrame f
          { x.cache.frames f with loadFailed := true, locked := false, data := ⟨junk, []⟩ } with
        calls := .failed op b f ::ₘ rest } → Goes op b f x y
  /-- A call comes to the frame's lock, finds the load failed, and will throw. -/
  | throws (op' : Op) (rest : Multiset Call) : x.cache.calls = .hit op' b f ::ₘ rest →
      (x.cache.frames f).Dead → y.cache = { x.cache with calls := .unpin f ::ₘ rest } →
      Goes op b f x y
  | unpins (rest : Multiset Call) : x.cache.calls = .unpin f ::ₘ rest →
      y.cache = { x.cache.unpin f with calls := rest } → Goes op b f x y
  | unmaps (rest : Multiset Call) : x.cache.calls = .failed op b f ::ₘ rest →
      y.cache = { (x.cache.setFrame f
            { x.cache.frames f with
              mapped := false, inTxn := false, pins := (x.cache.frames f).pins - 1 }).toBack
            (shardFor b) f with
          map := Function.update x.cache.map b none
          calls := rest } → Goes op b f x y
  /-- The frame is taken for another attempt, when no call is left on it. -/
  | retaken (op' : Op) (b' : Nat) : onFrame x.cache.calls f = 0 → (x.cache.frames f).pins = 0 →
      y.cache.calls = .load op' b' f ::ₘ x.cache.calls → Goes op b f x y

section Trying

variable {capacity : Nat} {faults : Bool} {init : Nat → Block} {op : Op} {b : Nat} {f : FrameId}
  {s : State} {x y z : Journaled}

theorem Trying.calls (h : Trying op b f s) {c : Call} (hc : c ∈ s.calls) (hf : c.frame = f) :
    c = .load op b f ∨ c = .failed op b f ∨ (∃ op', c = .hit op' b f) ∨ c = .unpin f := by
  cases h.stage with
  | loading _ hw =>
    rcases hw c hc hf with he | hh | ⟨hn, -⟩
    · exact .inl he
    · exact .inr (.inr (.inl hh))
    · cases hn
  | failed _ hw =>
    rcases hw c hc hf with he | hh | ⟨-, hu⟩
    · exact .inr (.inl he)
    · exact .inr (.inr (.inl hh))
    · exact .inr (.inr (.inr hu))
  | gone _ _ _ hw =>
    rcases hw c hc hf with hn | hh | ⟨-, hu⟩
    · cases hn
    · exact .inr (.inr (.inl hh))
    · exact .inr (.inr (.inr hu))

/-- The frame is locked or dead. -/
theorem Trying.not_loaded (h : Trying op b f s) (hs : Shape s) (hl : (s.frames f).locked = false)
    (hd : (s.frames f).loadFailed = false) : False := by
  cases h.stage with
  | loading hc _ => exact absurd (hl.symm.trans (hs.calls _ hc).2.1) nofun
  | failed hc _ => exact absurd (hd.symm.trans (hs.calls _ hc).2.1.1) nofun
  | gone hdead => exact absurd (hd.symm.trans hdead.1) nofun

theorem Trying.not_used (h : Trying op b f s) (hs : Shape s) : ¬ Used f s := by
  rintro (⟨op', b', hc, hl, hd⟩ | ⟨inTxn, hc⟩ | hc | ⟨p, hp, hpf⟩ | ⟨-, hdirty⟩)
  · exact h.not_loaded hs hl hd
  · rcases h.calls hc rfl with he | he | ⟨op', he⟩ | he <;> cases he
  · rcases h.calls hc rfl with he | he | ⟨op', he⟩ | he <;> cases he
  · exact h.held p hp hpf
  · exact absurd (h.clean.symm.trans hdirty) nofun

/-- A commit asks for no copy of the frame and takes it not for committed. -/
theorem Trying.not_noted (h : Trying op b f x.cache) (hs : Shape x.cache) (hn : Noted x) {b' : Nat}
    (hm : x.cache.map b' = some f) : ¬ (b' ∈ x.adding ∨ b' ∈ x.txn) := by
  intro hb
  obtain ⟨f', hm', -, hl, hd⟩ := hn b' hb
  rw [hm] at hm'
  cases hm'
  exact h.not_loaded hs hl hd

/-- A frame is copied for a block recorded in the transaction. -/
theorem JStep.copy_mem (h : JStep capacity faults x y)
    (hc : y.cache.calls = .copy f ::ₘ x.cache.calls) : ∃ b ∈ x.txn, x.cache.map b = some f := by
  cases h with
  | start c _ hy hcopy => exact hcopy f ((Multiset.cons_inj_left _).mp (hy.symm.trans hc))
  | move c c' rest j joined _ hx hy =>
    have hcard := congrArg Multiset.card (hy.symm.trans hc)
    rw [hx, Multiset.card_cons, Multiset.card_cons, Multiset.card_cons] at hcard
    omega
  | stop c j joined _ hx =>
    rw [hx] at hc
    have hcard := congrArg Multiset.card hc
    simp only [Multiset.card_cons] at hcard
    omega
  | add b rest => exact absurd hc.symm (cons_ne_self _ _)
  | commit b f' lsn _ _ _ _ => exact absurd hc.symm (cons_ne_self _ _)
  | other _ hy => exact absurd (hc.symm.trans hy) (cons_ne_self _ _)

theorem Trying.goes (h : Trying op b f x.cache) (hs : Shape x.cache) (hn : Noted x)
    (hj : JStep capacity faults x y) : Goes op b f x y := by
  rcases hj.cache with hstep | he
  swap
  · exact .quiet (by rw [he]) (by rw [he])
  have head : ∀ {c rest}, x.cache.calls = c ::ₘ rest → c ∈ x.cache.calls := fun hc => by
    rw [hc]
    exact Multiset.mem_cons_self ..
  cases hstep.acts hs f with
  | quiet hf hc => exact .quiet hf hc
  | hit op' b' hm he =>
    cases h.stage with
    | loading hc _ =>
      obtain ⟨-, -, -, hbn, -⟩ := hs.calls _ hc
      cases hbn.symm.trans ((hs.place.maps b' f).mp hm).2.2
      exact .joins op' hm he
    | failed hc _ =>
      obtain ⟨-, -, -, hbn⟩ := hs.calls _ hc
      cases hbn.symm.trans ((hs.place.maps b' f).mp hm).2.2
      exact .joins op' hm he
    | gone _ hunmapped => exact absurd (hunmapped.symm.trans ((hs.place.maps b' f).mp hm).2.1) nofun
  | taken op' b' _ hspare hc =>
    refine .retaken op' b' ?_ hspare.pins hc
    exact Multiset.filter_eq_nil.mpr (hs.unused hspare.pins).1
  | throwHit op' b' rest hc hd he =>
    rcases h.calls (head hc) rfl with hcall | hcall | ⟨op'', hcall⟩ | hcall <;> cases hcall
    exact .throws op' rest hc hd he
  | load op' b' rest hc he =>
    rcases h.calls (head hc) rfl with hcall | hcall | ⟨op'', hcall⟩ | hcall <;> cases hcall
    exact .loads rest hc he
  | loadFails op' b' junk rest hc he =>
    rcases h.calls (head hc) rfl with hcall | hcall | ⟨op'', hcall⟩ | hcall <;> cases hcall
    exact .fails junk rest hc he
  | unmapFailed op' b' rest hc he =>
    rcases h.calls (head hc) rfl with hcall | hcall | ⟨op'', hcall⟩ | hcall <;> cases hcall
    exact .unmaps rest hc he
  | loaded op' b' hc =>
    rcases h.calls hc rfl with hcall | hcall | ⟨op'', hcall⟩ | hcall <;> cases hcall
  | unpin rest hc he => exact .unpins rest hc he
  | copyTxnFrame b' hm hc =>
    obtain ⟨b'', hb, hm'⟩ := hj.copy_mem hc
    exact absurd (.inr hb) (h.not_noted hs hn hm')
  | commitFrame b' lsn hm he =>
    exact absurd (.inr (hj.commit_mem he).1) (h.not_noted hs hn hm)
  | used hu _ => exact absurd hu (h.not_used hs)

section Waits

variable {calls calls' : Multiset Call} {but : Call → Prop} {ended : Bool}

theorem Waits.mono (h : Waits b f calls but ended)
    (hc : ∀ c ∈ calls', c.frame = f → c ∈ calls) : Waits b f calls' but ended :=
  fun c hm hf => h c (hc c hm hf) hf

theorem Waits.hit (h : Waits b f calls but ended) (op' : Op) :
    Waits b f (.hit op' b f ::ₘ calls) but ended := by
  intro c hm hf
  rcases Multiset.mem_cons.mp hm with rfl | hm
  · exact .inr (.inl ⟨op', rfl⟩)
  · exact h c hm hf

theorem Waits.unpin (h : Waits b f calls but true) : Waits b f (.unpin f ::ₘ calls) but true := by
  intro c hm hf
  rcases Multiset.mem_cons.mp hm with rfl | hm
  · exact .inr (.inr ⟨rfl, rfl⟩)
  · exact h c hm hf

end Waits

/-- Another call on the frame throws or ends. -/
theorem Stage.throws {rest calls' : Multiset Call} {c : Call} (h : Stage op b f s)
    (hc : s.calls = c ::ₘ rest) (hdead : (s.frames f).Dead) (hs : Shape s) (hno : c.owns = false)
    (hsub : ∀ d ∈ calls', d = .unpin f ∨ d ∈ rest) (hrest : ∀ d ∈ rest, d ∈ calls')
    {t : State} (ht : t.calls = calls') (hk : (s.frames f).Kept (t.frames f)) : Stage op b f t := by
  have waits : ∀ {but}, Waits b f s.calls but true → Waits b f t.calls but true := by
    intro but hw d hd hf
    rw [ht] at hd
    rcases hsub d hd with rfl | hd
    · exact .inr (.inr ⟨rfl, rfl⟩)
    · exact hw d (by rw [hc]; exact Multiset.mem_cons_of_mem hd) hf
  cases h with
  | loading hl _ => exact absurd (hdead.2.symm.trans (hs.calls _ hl).2.1) nofun
  | failed hl hw =>
    refine .failed ?_ (waits hw)
    rw [hc] at hl
    rw [ht]
    rcases Multiset.mem_cons.mp hl with rfl | hl
    · cases hno
    · exact hrest _ hl
  | gone _ hm hin hw =>
    exact .gone (hk.alike.dead hdead) (hk.alike.mapped.trans hm) (hk.inTxn.trans hin) (waits hw)

theorem Trying.next (h : Trying op b f x.cache) (hs : Shape x.cache)
    (hj : JStep capacity faults x y) (hg : Goes op b f x y)
    (hno : ∀ op' b', y.cache.calls ≠ .load op' b' f ::ₘ x.cache.calls)
    (hl : .loaded op b f ∉ y.cache.calls) : Trying op b f y.cache := by
  have held : ∀ p ∈ y.cache.held, p.f ≠ f := by
    intro p hp hpf
    rcases hj.cache with hstep | he
    · rcases hstep.held_sub hs p hp with hp | ⟨-, hd⟩
      · exact h.held p hp hpf
      · rw [hpf, h.clean] at hd
        cases hd
    · rw [he] at hp
      exact h.held p hp hpf
  suffices hsuf : Stage op b f y.cache ∧ (y.cache.frames f).dirty = false from
    ⟨hsuf.1, hsuf.2, held⟩
  cases hg with
  | quiet hf hc =>
    have hmem : ∀ c : Call, c.frame = f → (c ∈ y.cache.calls ↔ c ∈ x.cache.calls) := by
      intro c hcf
      have := congrArg (c ∈ ·) hc
      simpa [onFrame, hcf] using this
    have hsub : ∀ c ∈ y.cache.calls, c.frame = f → c ∈ x.cache.calls :=
      fun c hm hcf => (hmem c hcf).mp hm
    rw [hf]
    refine ⟨?_, h.clean⟩
    cases h.stage with
    | loading hc hw => exact .loading ((hmem _ rfl).mpr hc) (hw.mono hsub)
    | failed hc hw => exact .failed ((hmem _ rfl).mpr hc) (hw.mono hsub)
    | gone hd hm hin hw =>
      refine .gone ?_ ?_ ?_ (hw.mono hsub) <;> rw [hf]
      · exact hd
      · exact hm
      · exact hin
  | joins op' hm he =>
    rw [he]
    refine ⟨?_, ?_⟩
    · cases h.stage with
      | loading hc hw => exact .loading (Multiset.mem_cons_of_mem hc) (hw.hit op')
      | failed hc hw => exact .failed (Multiset.mem_cons_of_mem hc) (hw.hit op')
      | gone _ hunmapped =>
        exact absurd (hunmapped.symm.trans ((hs.place.maps b f).mp hm).2.1) nofun
    · show (Function.update x.cache.frames f _ f).dirty = false
      rw [Function.update_self]
      exact h.clean
  | loads rest _ he =>
    rw [he] at hl
    exact absurd (Multiset.mem_cons_self ..) hl
  | fails junk rest hc he =>
    rw [he]
    refine ⟨.failed (Multiset.mem_cons_self ..) fun c hm hf => ?_, ?_⟩
    · rcases Multiset.mem_cons.mp hm with rfl | hm
      · exact .inl rfl
      · have hown := hs.owned
        rw [hc] at hown
        have hno := hown.unique rfl c hm hf
        have hmem : c ∈ x.cache.calls := by
          rw [hc]
          exact Multiset.mem_cons_of_mem hm
        rcases h.calls hmem hf with rfl | rfl | hh | rfl
        · cases hno
        · cases hno
        · exact .inr (.inl hh)
        · exact .inr (.inr ⟨rfl, rfl⟩)
    · show (Function.update x.cache.frames f _ f).dirty = false
      rw [Function.update_self]
      exact h.clean
  | throws op' rest hc hd he =>
    refine ⟨h.stage.throws hc hd hs rfl (fun d hd => Multiset.mem_cons.mp hd)
      (fun d hd => Multiset.mem_cons_of_mem hd) (by rw [he]) (by rw [he]; exact ⟨.refl _, rfl⟩), ?_⟩
    rw [he]
    exact h.clean
  | unpins rest hc he =>
    have hd : (x.cache.frames f).Dead := by
      have hmem : Call.unpin f ∈ x.cache.calls := by
        rw [hc]
        exact Multiset.mem_cons_self ..
      cases h.stage with
      | loading _ hw => rcases hw _ hmem rfl with he | ⟨op', he⟩ | ⟨he, -⟩ <;> cases he
      | failed hc _ => exact (hs.calls _ hc).2.1
      | gone hd => exact hd
    have hf : y.cache.frames f = { x.cache.frames f with pins := (x.cache.frames f).pins - 1 } := by
      rw [he]
      exact Function.update_self ..
    refine ⟨h.stage.throws hc hd hs rfl (fun d hd => .inr hd) (fun d hd => hd) (by rw [he]) ?_, ?_⟩
    · rw [hf]
      exact ⟨⟨rfl, rfl, rfl, rfl⟩, rfl⟩
    · rw [hf]
      exact h.clean
  | unmaps rest hc he =>
    have hmem : Call.failed op b f ∈ x.cache.calls := by
      rw [hc]
      exact Multiset.mem_cons_self ..
    have hf : y.cache.frames f = { x.cache.frames f with
        mapped := false, inTxn := false, pins := (x.cache.frames f).pins - 1 } := by
      rw [he]
      exact Function.update_self ..
    refine ⟨.gone ?_ ?_ ?_ fun c hm hcf => ?_, ?_⟩
    · rw [hf]
      exact (hs.calls _ hmem).2.1
    · rw [hf]
    · rw [hf]
    · have hown := hs.owned
      rw [hc] at hown
      rw [he] at hm
      have hno := hown.unique rfl c hm hcf
      rcases h.calls (by rw [hc]; exact Multiset.mem_cons_of_mem hm) hcf with rfl | rfl | hh | rfl
      · cases hno
      · cases hno
      · exact .inr (.inl hh)
      · exact .inr (.inr ⟨rfl, rfl⟩)
    · rw [hf]
      exact h.clean
  | retaken op' b' _ _ hc => exact absurd hc (hno op' b')

theorem Trying.miss {t : State} (ht : Shape t) (hpins : (t.frames f).pins = 0) :
    Trying op b f (t.acquireMiss op b f) := by
  obtain ⟨hcalls, hheld, -⟩ := ht.unused hpins
  refine ⟨.loading (Multiset.mem_cons_self ..) fun c hc hf => ?_, ?_, hheld⟩
  · rcases Multiset.mem_cons.mp hc with rfl | hc
    · exact .inl rfl
    · exact absurd hf (hcalls c hc)
  · show (Function.update t.frames f _ f).dirty = false
    rw [Function.update_self]

theorem Attempt.jrun (h : Attempt capacity faults init op b f z) : JRun capacity faults init z := by
  induction h with
  | miss hx hj _ _ _ => exact hx.step hj
  | step _ hj _ _ ih => exact ih.step hj

theorem Attempt.trying (h : Attempt capacity faults init op b f z) : Trying op b f z.cache := by
  induction h with
  | miss hx _ _ hf he =>
    have ht := hx.cache.shape.takeFrame capacity (shardFor b)
    rw [hf] at ht
    rw [he]
    exact .miss ht.shape ht.pins
  | step hy hj hno hl ih =>
    have hrun := hy.jrun
    exact ih.next hrun.cache.shape hj (ih.goes hrun.cache.shape hrun.noted hj) hno hl

/-- A call on the frame that goes on or ends has nothing recorded. -/
theorem Trying.unrecorded (h : Trying op b f x.cache) (hj : JStep capacity faults x y)
    (hne : onFrame y.cache.calls f ≠ onFrame x.cache.calls f) :
    y.adding = x.adding ∧ y.txn = x.txn := by
  cases hj with
  | start c _ _ _ => exact ⟨rfl, rfl⟩
  | move c c' rest j joined _ _ _ _ _ => exact ⟨rfl, rfl⟩
  | stop c j joined _ hc _ =>
    refine ⟨?_, rfl⟩
    have hf : c.frame = f := by
      by_contra hf
      rw [hc, onFrame_cons_ne _ hf] at hne
      exact hne rfl
    have hmem : c ∈ x.cache.calls := by
      rw [hc]
      exact Multiset.mem_cons_self ..
    show toRecord x.cache c j + x.adding = x.adding
    rcases h.calls hmem hf with rfl | rfl | ⟨op', rfl⟩ | rfl <;> exact Multiset.zero_add _
  | add b rest _ => exact absurd rfl hne
  | commit b f' lsn _ _ _ _ => exact absurd rfl hne
  | other _ hc _ => exact absurd (by rw [hc]) hne

/-- Nobody comes to a frame through a block that is not mapped. -/
theorem JStep.not_hit (hj : JStep capacity faults x y) (hs : Shape x.cache)
    (hm : x.cache.map b = none) (op' : Op) (f' : FrameId) :
    y.cache.calls ≠ .hit op' b f' ::ₘ x.cache.calls := by
  intro hc
  rcases hj.cache with hstep | he
  · rcases hstep.starts hs with hle | ⟨op'', b', f'', hm', hc'⟩ | ⟨op'', b', f'', hc'⟩ | ⟨f'', hc'⟩
    · rw [hc, Multiset.card_cons] at hle
      omega
    · cases (Multiset.cons_inj_left _).mp (hc'.symm.trans hc)
      rw [hm] at hm'
      cases hm'
    · cases (Multiset.cons_inj_left _).mp (hc'.symm.trans hc)
    · cases (Multiset.cons_inj_left _).mp (hc'.symm.trans hc)
  · rw [he] at hc
    exact cons_ne_self _ _ hc.symm

/-- A failed load harms nobody.  Whatever comes between, the calls that share the frame wait while
    the device is read, and once the read has failed they throw: until the frame is taken again,
    with no call left on it, its bytes are not touched, nothing that they do is recorded in the
    transaction, and the block is not there for a later call to find. -/
theorem failed_load_harmless (h : Attempt capacity faults init op b f z) :
    (.load op b f ∈ z.cache.calls → (z.cache.frames f).locked = true ∧
      Waits b f z.cache.calls (· = .load op b f) false) ∧
    (.load op b f ∉ z.cache.calls → (z.cache.frames f).Dead ∧
      Waits b f z.cache.calls (· = .failed op b f) true) ∧
    (∀ w, JStep capacity faults z w → Goes op b f z w ∧
      (onFrame w.cache.calls f ≠ onFrame z.cache.calls f → w.adding = z.adding ∧ w.txn = z.txn)) ∧
    (.load op b f ∉ z.cache.calls → .failed op b f ∉ z.cache.calls →
      z.cache.map b ≠ some f ∧ (z.cache.frames f).mapped = false ∧
      (z.cache.frames f).inTxn = false ∧ (z.cache.frames f).dirty = false ∧
      (z.cache.frames f).pins = Multiset.card (onFrame z.cache.calls f)) ∧
    (b ∈ z.adding ∨ b ∈ z.txn → ∃ f', f' ≠ f ∧ z.cache.map b = some f' ∧
      (z.cache.frames f').loadFailed = false) ∧
    (z.cache.map b = none → ∀ w, JStep capacity faults z w → ∀ op' f',
      w.cache.calls ≠ .hit op' b f' ::ₘ z.cache.calls) := by
  have hrun := h.jrun
  have hs := hrun.cache.shape
  have ht := h.trying
  refine ⟨fun hl => ⟨(hs.calls _ hl).2.1, ?_⟩, fun hl => ?_,
    fun w hj => ⟨ht.goes hs hrun.noted hj, ht.unrecorded hj⟩, fun hl hf => ?_, fun hb => ?_,
    fun hm w hj op' f' => hj.not_hit hs hm op' f'⟩
  · cases ht.stage with
    | loading _ hw => exact hw
    | failed hc _ => exact absurd ((hs.calls _ hl).2.1.symm.trans (hs.calls _ hc).2.1.2) nofun
    | gone hd => exact absurd ((hs.calls _ hl).2.1.symm.trans hd.2) nofun
  · cases ht.stage with
    | loading hc _ => exact absurd hc hl
    | failed hc hw => exact ⟨(hs.calls _ hc).2.1, hw⟩
    | gone hd _ _ hw => exact ⟨hd, fun c hc hcf => .inr ((hw c hc hcf).resolve_left id)⟩
  · cases ht.stage with
    | loading hc _ => exact absurd hc hl
    | failed hc _ => exact absurd hc hf
    | gone _ hm hin _ =>
      refine ⟨fun hmap => ?_, hm, hin, ht.clean, ?_⟩
      · exact absurd (hm.symm.trans ((hs.place.maps b f).mp hmap).2.1) nofun
      · have hnone : (z.cache.held.map Pick.f).count f = 0 := by
          rw [List.count_eq_zero, List.mem_map]
          rintro ⟨p, hp, hpf⟩
          exact ht.held p hp hpf
        rw [hs.pinned f, hnone, onFrame, Multiset.countP_eq_card_filter]
        rfl
  · obtain ⟨f', hm, -, -, hd⟩ := hrun.noted b hb
    refine ⟨f', ?_, hm, hd⟩
    rintro rfl
    exact ht.not_noted hs hrun.noted hm hb

/-- A read misses on block 0; a modify in the transaction finds the frame and waits; then the device
    fails. -/
theorem failed_load_harmless_waiter : ∃ z : Journaled,
    .hit (.modify false true id) 0 0 ∈ z.cache.calls ∧ .failed .read 0 0 ∈ z.cache.calls ∧
      (z.cache.frames 0).Dead ∧ Waits 0 0 z.cache.calls (· = .failed .read 0 0) true := by
  let s₀ : State := .empty (fun _ => Bytes.zero 4096) 0
  let s₁ := (s₀.takeFrame 256 (shardFor 0)).1.acquireMiss .read 0 0
  let s₂ := s₁.acquireHit (.modify false true id) 0 0
  let s₃ : State := { s₂.setFrame 0 { s₂.frames 0 with
      loadFailed := true, locked := false, data := ⟨Bytes.zero 4096, []⟩ } with
    calls := .failed .read 0 0 ::ₘ .hit (.modify false true id) 0 0 ::ₘ 0 }
  have h₁ : JStep 256 true ⟨s₀, 0, 0, ∅⟩ ⟨s₁, (.load .read 0 0, false) ::ₘ 0, 0, ∅⟩ :=
    .start (.load .read 0 0) (.miss .read 0 rfl) rfl nofun
  have a₁ : Attempt 256 true (fun _ => Bytes.zero 4096) .read 0 0 _ :=
    .miss (.empty 0) h₁ rfl rfl rfl
  have h₂ : JStep 256 true ⟨s₁, (.load .read 0 0, false) ::ₘ 0, 0, ∅⟩
      ⟨s₂, (.hit (.modify false true id) 0 0, true) ::ₘ (.load .read 0 0, false) ::ₘ 0, 0, ∅⟩ :=
    .start (.hit (.modify false true id) 0 0) (.hit (.modify false true id) 0 0 rfl) rfl nofun
  have c₂ : s₂.calls = .load .read 0 0 ::ₘ .hit (.modify false true id) 0 0 ::ₘ 0 :=
    show Call.hit (.modify false true id) 0 0 ::ₘ .load .read 0 0 ::ₘ 0 = _ from
      Multiset.cons_swap ..
  have a₂ := a₁.step h₂ (fun op' b' hc => ?_) ?_
  · have h₃ : JStep 256 true
        ⟨s₂, (.hit (.modify false true id) 0 0, true) ::ₘ (.load .read 0 0, false) ::ₘ 0, 0, ∅⟩
        ⟨s₃, (.failed .read 0 0, false) ::ₘ (.hit (.modify false true id) 0 0, true) ::ₘ 0, 0, ∅⟩ :=
      .move (s := s₃) (.load .read 0 0) (.failed .read 0 0) _ false _
        (.loadFails .read 0 0 (Bytes.zero 4096) _ rfl c₂ rfl) c₂ rfl nofun
        (Multiset.cons_swap (Call.hit (.modify false true id) 0 0, true)
          (Call.load .read 0 0, false) 0)
    have a₃ := a₂.step h₃ (fun op' b' hc => ?_) ?_
    · have hn : Call.load .read 0 0 ∉ s₃.calls := by simp [s₃]
      exact ⟨_, by simp [s₃], by simp [s₃], (failed_load_harmless a₃).2.1 hn⟩
    · exact absurd (congrArg Multiset.card hc) (by rw [c₂]; simp [s₃])
    · simp [s₃]
  · replace hc : Call.hit (.modify false true id) 0 0 ::ₘ s₁.calls =
      .load op' b' 0 ::ₘ s₁.calls := hc
    cases (Multiset.cons_inj_left _).mp hc
  · rw [c₂]
    simp

end Trying

end ConcurrentFs.BufferCache
