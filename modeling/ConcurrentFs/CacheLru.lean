/-
  ConcurrentFs.CacheLru

  The shards' LRU lists as the program keeps them: links in the frames, mended by
  `lru_unlink`, `lru_push_front` and `lru_push_back`, and walked by `take_frame` from
  the tail.  `State.lru` is what they spell out.

  Blocks acquired are listed, latest first, so that a frame's place among the mapped
  ones can be compared with when its block was last asked for.
-/
import ConcurrentFs.CacheInv
import ConcurrentFs.Lib.Links

namespace ConcurrentFs.BufferCache

open Lib State

/-! ## The cache with its links -/

structure Linked where
  cache : State
  links : Links Nat FrameId
  /-- Blocks, latest first. -/
  acquired : List Nat

namespace Linked

variable (x : Linked)

/-- The loop of `take_frame` over the links, for a number of rounds. -/
def scan : Nat → Option FrameId → Option FrameId → Option (Option FrameId × Option FrameId)
  | _, none, dirty => some (none, dirty)
  | 0, some _, _ => none
  | n + 1, some f, dirty =>
    let g := x.cache.frames f
    if g.pins > 0 ∨ g.inTxn then scan n (x.links.prev f) dirty
    else if ¬ g.mapped ∨ ¬ g.dirty then some (some f, dirty)
    else scan n (x.links.prev f)
      (if dirty.isNone ∧ g.lsn ≤ x.cache.durable then some f else dirty)

/-- What the loop of `take_frame` finds in a shard.  It goes round once for each frame at most. -/
def search (i : Nat) : Option (Option FrameId × Option FrameId) :=
  x.scan (x.cache.own i).length (x.links.tail i) none

/-- `new_frame`. -/
def newFrame (i : Nat) : Linked × FrameId :=
  ({ x with
    cache := (x.cache.newFrame i).1
    links := x.links.pushFront i x.cache.count }, x.cache.count)

/-- `take_frame`, when its write succeeds. -/
def takeFrame (capacity i : Nat) : Option (Linked × FrameId) :=
  if (x.cache.own i).length < share capacity i then some (x.newFrame i) else
  match x.search i with
  | none => none
  | some (some f, _) => some ({ x with cache := x.cache.unmap f }, f)
  | some (none, some f) => some ({ x with cache := (x.cache.writeVictim f).unmap f }, f)
  | some (none, none) => some (x.newFrame i)

/-- `lru_unlink` and `lru_push_front`. -/
def toFront (i : Nat) (f : FrameId) : Links Nat FrameId := (x.links.unlink i f).pushFront i f

/-- `lru_unlink` and `lru_push_back`. -/
def toBack (i : Nat) (f : FrameId) : Links Nat FrameId := (x.links.unlink i f).pushBack i f

end Linked

/-- One section of a call, with what it does to the links. -/
inductive LStep (capacity : Nat) (faults : Bool) : Linked → Linked → Prop where
  | hit {x : Linked} (op : Op) (b : Nat) (f : FrameId) : x.cache.map b = some f →
      LStep capacity faults x
        ⟨x.cache.acquireHit op b f, x.toFront (shardFor b) f, b :: x.acquired⟩
  | miss {x y : Linked} (op : Op) (b : Nat) (f : FrameId) : x.cache.map b = none →
      x.takeFrame capacity (shardFor b) = some (y, f) →
      LStep capacity faults x
        ⟨y.cache.acquireMiss op b f, y.toFront (shardFor b) f, b :: x.acquired⟩
  /-- `take_frame` cannot write its victim, and throws; what the device then holds there nobody
      can say. -/
  | victimFails {x : Linked} (b : Nat) (f : FrameId) (img : Image) : faults = true →
      x.cache.map b = none → ¬ (x.cache.own (shardFor b)).length < share capacity (shardFor b) →
      x.search (shardFor b) = some (none, some f) →
      LStep capacity faults x
        { x with
          cache := { x.cache with
            disk := Function.update x.cache.disk (x.cache.frames f).blockNo img } }
  | unmapFailed {x : Linked} (op : Op) (b : Nat) (f : FrameId) (rest : Multiset Call) :
      x.cache.calls = .failed op b f ::ₘ rest →
      LStep capacity faults x
        { x with
          cache := { (x.cache.setFrame f
              { x.cache.frames f with
                mapped := false, inTxn := false, pins := (x.cache.frames f).pins - 1 }).toBack
              (shardFor b) f with
            map := Function.update x.cache.map b none
            calls := rest }
          links := x.toBack (shardFor b) f }
  /-- A step that is not one of an `acquire` leaves the links alone. -/
  | other {x : Linked} {s : State} : Step capacity faults x.cache s →
      (∀ op b f, s.calls ≠ .hit op b f ::ₘ x.cache.calls) →
      (∀ op b f, s.calls ≠ .load op b f ::ₘ x.cache.calls) →
      (∀ op b f, x.cache.calls ≠ .failed op b f ::ₘ s.calls) →
      LStep capacity faults x { x with cache := s }

inductive LRun (capacity : Nat) (faults : Bool) (init : Nat → Block) : Linked → Prop where
  | empty (durable : Nat) :
      LRun capacity faults init
        ⟨.empty init durable, ⟨fun _ => none, fun _ => none, fun _ => none, fun _ => none⟩, []⟩
  | step {x y : Linked} : LRun capacity faults init x → LStep capacity faults x y →
      LRun capacity faults init y

/-! ## Steps that leave the lists alone -/

/-- A frame that stays mapped or unmapped, and does not join the transaction. -/
structure Frame.Still (g g' : Frame) : Prop where
  mapped : g'.mapped = g.mapped
  blockNo : g'.blockNo = g.blockNo
  inTxn : g'.inTxn = true → g.inTxn = true

theorem still_update {frames : FrameId → Frame} {f : FrameId} {g : Frame}
    (h : (frames f).Still g) (x : FrameId) : (frames x).Still (Function.update frames f g x) := by
  by_cases hx : x = f
  · subst hx
    rw [Function.update_self]
    exact h
  · rw [Function.update_of_ne hx]
    exact ⟨rfl, rfl, id⟩

theorem Step.still {capacity : Nat} {faults : Bool} {s s' : State} (h : Step capacity faults s s')
    (hs : Shape s) (hhit : ∀ op b f, s'.calls ≠ .hit op b f ::ₘ s.calls)
    (hload : ∀ op b f, s'.calls ≠ .load op b f ::ₘ s.calls)
    (hfailed : ∀ op b f, s.calls ≠ .failed op b f ::ₘ s'.calls) :
    s'.lru = s.lru ∧ ∀ f, (s.frames f).Still (s'.frames f) := by
  have refl : ∀ f, (s.frames f).Still (s.frames f) := fun _ => ⟨rfl, rfl, id⟩
  cases h with
  | hit op b f _ => exact absurd rfl (hhit op b f)
  | miss op b _ =>
    refine absurd ?_ (hload op b (s.takeFrame capacity (shardFor b)).2)
    show Call.load op b _ ::ₘ (s.takeFrame capacity (shardFor b)).1.calls = _
    rw [(hs.takeFrame capacity (shardFor b)).calls]
  | unmapFailed op b f rest hc => exact absurd hc (hfailed op b f)
  | modifyHit | load | loadFails | readLoaded | modifyLoaded | finishModify | unpin | copyTxnFrame
  | passMark | passDrop | passUnwind => exact ⟨rfl, still_update ⟨rfl, rfl, id⟩⟩
  | commitFrame => exact ⟨rfl, still_update ⟨rfl, rfl, nofun⟩⟩
  | passPick => exact ⟨rfl, fun _ => ⟨rfl, rfl, id⟩⟩
  | passMarked p next _ _ => cases next <;> exact ⟨rfl, refl⟩
  | missFails | readHit | throwHit | copied | durable | passStart | passSort | passNext | passLast
  | passCopy | passCheck | passWrite | passWriteFails | passThrow => exact ⟨rfl, refl⟩

/-! ## The order of a list -/

/-- `f` may stand before `g`: no unmapped frame before a mapped one, and of two mapped ones first
    the one whose block was acquired last. -/
def Recent (frames : FrameId → Frame) (acquired : List Nat) (f g : FrameId) : Prop :=
  (frames g).mapped = true → (frames f).mapped = true ∧
    acquired.idxOf (frames f).blockNo < acquired.idxOf (frames g).blockNo

section Order

variable {frames frames' : FrameId → Frame} {acquired : List Nat} {f : FrameId} {b : Nat}
  {fs : List FrameId}

/-- Another block is acquired. -/
theorem Recent.acquire {x y : FrameId} (h : Recent frames acquired x y)
    (hx : frames' x = frames x) (hy : frames' y = frames y)
    (hne : ∀ z, z = x ∨ z = y → (frames z).mapped = true → (frames z).blockNo ≠ b) :
    Recent frames' (b :: acquired) x y := by
  intro hm
  rw [hy] at hm
  obtain ⟨hmx, hlt⟩ := h hm
  rw [hx, hy]
  refine ⟨hmx, ?_⟩
  rw [List.idxOf_cons_ne _ (Ne.symm (hne x (.inl rfl) hmx)),
    List.idxOf_cons_ne _ (Ne.symm (hne y (.inr rfl) hm))]
  omega

/-- Frames that are not the acquired one keep their order. -/
theorem pairwise_acquire (h : fs.Pairwise (Recent frames acquired)) (hf : f ∉ fs)
    (hsame : ∀ x, x ≠ f → frames' x = frames x)
    (hne : ∀ x, x ≠ f → (frames x).mapped = true → (frames x).blockNo ≠ b) :
    fs.Pairwise (Recent frames' (b :: acquired)) := by
  have other : ∀ x ∈ fs, x ≠ f := by
    rintro x hx rfl
    exact hf hx
  refine h.imp_of_mem fun {x y} hx hy hr =>
    hr.acquire (hsame x (other x hx)) (hsame y (other y hy)) ?_
  rintro z (rfl | rfl) hm
  · exact hne z (other z hx) hm
  · exact hne z (other z hy) hm

/-- The acquired one goes to the front. -/
theorem pairwise_front (h : fs.Pairwise (Recent frames acquired)) (hf : f ∉ fs)
    (hsame : ∀ x, x ≠ f → frames' x = frames x)
    (hne : ∀ x, x ≠ f → (frames x).mapped = true → (frames x).blockNo ≠ b)
    (hm : (frames' f).mapped = true) (hb : (frames' f).blockNo = b) :
    (f :: fs).Pairwise (Recent frames' (b :: acquired)) := by
  refine List.pairwise_cons.mpr ⟨fun y hy hmy => ⟨hm, ?_⟩, pairwise_acquire h hf hsame hne⟩
  have hyf : y ≠ f := by
    rintro rfl
    exact hf hy
  rw [hsame y hyf] at hmy ⊢
  rw [hb, List.idxOf_cons_self, List.idxOf_cons_ne _ (Ne.symm (hne y hyf hmy))]
  omega

/-- An unmapped one goes to the end. -/
theorem pairwise_back (h : fs.Pairwise (Recent frames acquired)) (hf : f ∉ fs)
    (hsame : ∀ x, x ≠ f → frames' x = frames x) (hm : (frames' f).mapped = false) :
    (fs ++ [f]).Pairwise (Recent frames' acquired) := by
  have other : ∀ x ∈ fs, x ≠ f := by
    rintro x hx rfl
    exact hf hx
  refine List.pairwise_append.mpr ⟨h.imp_of_mem fun {x y} hx hy hr => ?_,
    List.pairwise_singleton .., fun x _ y hy hmy => ?_⟩
  · rw [Recent, hsame x (other x hx), hsame y (other y hy)]
    exact hr
  · rw [List.mem_singleton.mp hy, hm] at hmy
    cases hmy

theorem Recent.still {x y : FrameId} (h : Recent frames acquired x y)
    (hs : ∀ x, (frames x).Still (frames' x)) : Recent frames' acquired x y := by
  intro hm
  rw [(hs y).mapped] at hm
  rw [(hs x).mapped, (hs x).blockNo, (hs y).blockNo]
  exact h hm

end Order

/-! ## What holds in every state -/

theorem Shape.map_mapped {s : State} (h : Shape s) {f : FrameId} {b : Nat}
    (hm : (s.frames f).mapped = true) (hb : (s.frames f).blockNo = b) : s.map b = some f := by
  refine (h.place.maps b f).mpr ⟨?_, hm, hb⟩
  by_contra hlt
  rw [h.place.new f (Nat.le_of_not_lt hlt)] at hm
  cases hm

structure Linked.Kept (x : Linked) : Prop where
  shape : Shape x.cache
  lists : x.links.Lists x.cache.lru
  order : ∀ i, (x.cache.lru i).Pairwise (Recent x.cache.frames x.acquired)
  seen : ∀ f, (x.cache.frames f).mapped = true → (x.cache.frames f).blockNo ∈ x.acquired
  spare : ∀ f, (x.cache.frames f).mapped = false → (x.cache.frames f).inTxn = false

namespace Linked.Kept

variable {capacity : Nat} {faults : Bool} {x y : Linked} {f : FrameId} {b i : Nat}

theorem notMem_erase (h : x.Kept) (j : Nat) : f ∉ (x.cache.lru j).erase f :=
  (h.lists.nodup j).not_mem_erase

/-- Frame `f` has come to hold block `b`, and goes to the front of its list; `fs` is what the lists
    hold beside. -/
theorem acquire {s : State} {l : Links Nat FrameId} (h : x.Kept) (hs : Shape s)
    (hl : l.Lists s.lru) (hsame : ∀ g, g ≠ f → s.frames g = x.cache.frames g)
    (hne : ∀ g, g ≠ f → (x.cache.frames g).mapped = true → (x.cache.frames g).blockNo ≠ b)
    (hm : (s.frames f).mapped = true) (hb : (s.frames f).blockNo = b)
    (hfront : ∃ fs, s.lru i = f :: fs ∧ fs.Sublist (x.cache.lru i))
    (hrest : ∀ j, j ≠ i → s.lru j = x.cache.lru j) :
    Linked.Kept ⟨s, l, b :: x.acquired⟩ where
  shape := hs
  lists := hl
  order j := by
    show (s.lru j).Pairwise (Recent s.frames (b :: x.acquired))
    obtain ⟨fs, hi, hsub⟩ := hfront
    have hnodup := hl.nodup i
    rw [hi, List.nodup_cons] at hnodup
    by_cases hj : j = i
    · subst hj
      rw [hi]
      exact pairwise_front ((h.order j).sublist hsub) hnodup.1 hsame hne hm hb
    · rw [hrest j hj]
      refine pairwise_acquire (h.order j) (fun hf => hj ?_) hsame hne
      refine hl.disjoint j i f (by rw [hrest j hj]; exact hf) ?_
      rw [hi]
      exact List.mem_cons_self ..
  seen g hg := by
    by_cases hgf : g = f
    · subst hgf
      show (s.frames g).blockNo ∈ _
      rw [hb]
      exact List.mem_cons_self ..
    · replace hg : (s.frames g).mapped = true := hg
      show (s.frames g).blockNo ∈ _
      rw [hsame g hgf] at hg ⊢
      exact List.mem_cons_of_mem _ (h.seen g hg)
  spare g hg := by
    by_cases hgf : g = f
    · subst hgf
      exact absurd (hm.symm.trans hg) nofun
    · replace hg : (s.frames g).mapped = false := hg
      show (s.frames g).inTxn = false
      rw [hsame g hgf] at hg ⊢
      exact h.spare g hg

theorem hit (h : x.Kept) (op : Op) (hb : x.cache.map b = some f) :
    Linked.Kept ⟨x.cache.acquireHit op b f, x.toFront (shardFor b) f, b :: x.acquired⟩ := by
  obtain ⟨-, hm, hbn⟩ := (h.shape.place.maps b f).mp hb
  have hmem := h.shape.mem_lru hb
  refine h.acquire (h.shape.acquireHit hb) (h.lists.toFront hmem)
    (fun g hg => Function.update_of_ne hg ..) (fun g hg hmg hbg => hg ?_) ?_ ?_
    ⟨(x.cache.lru (shardFor b)).erase f, Function.update_self .., List.erase_sublist⟩
    fun j hj => Function.update_of_ne hj ..
  · -- no other frame holds `b`
    have := h.shape.map_mapped hmg hbg
    rw [hb] at this
    cases this
    rfl
  · show (Function.update x.cache.frames f _ f).mapped = true
    rw [Function.update_self]
    exact hm
  · show (Function.update x.cache.frames f _ f).blockNo = b
    rw [Function.update_self]
    exact hbn

end Linked.Kept

/-! ## Taking a frame -/

section Take

variable {capacity : Nat} {x y : Linked} {f : FrameId} {i : Nat}

/-- The loop over the links sees the list from its end. -/
theorem Linked.scan_eq {xs : List FrameId} (ys : List FrameId) (h : x.links.IsList i (xs ++ ys))
    {n : Nat} (hn : xs.length ≤ n) (dirty : Option FrameId) :
    x.scan n xs.getLast? dirty = some (x.cache.victims xs.reverse dirty) := by
  induction xs using List.reverseRecOn generalizing ys n dirty with
  | nil => cases n <;> rfl
  | append_singleton xs f ih =>
    rw [List.length_append, List.length_singleton] at hn
    obtain ⟨n, rfl⟩ := Nat.exists_eq_add_of_le' (Nat.le_of_add_left_le hn)
    rw [List.append_assoc] at h
    have hprev : x.links.prev f = xs.getLast? := h.links.1
    have hle : xs.length ≤ n := Nat.le_of_succ_le_succ hn
    rw [List.getLast?_concat, List.reverse_append, List.reverse_singleton, List.singleton_append,
      Linked.scan, State.victims, hprev]
    simp only [ih _ h hle]
    split
    · rfl
    · split <;> rfl

theorem Linked.Kept.search_eq (h : x.Kept) (i : Nat) :
    x.search i = some (x.cache.victims (x.cache.lru i).reverse none) := by
  have hl := h.lists.isList i
  rw [Linked.search, hl.2.1]
  refine Linked.scan_eq [] (by rw [List.append_nil]; exact hl) ?_ none
  exact Nat.le_of_eq (h.shape.place.listed i).length_eq

theorem Linked.Kept.newFrame_lists (h : x.Kept) (i : Nat) :
    (x.newFrame i).1.links.Lists (x.newFrame i).1.cache.lru :=
  h.lists.pushFront fun j hj =>
    Nat.lt_irrefl _ (h.shape.place.lt j _ ((h.shape.place.listed j).mem_iff.mp hj))

theorem unmap_lru (s : State) (f : FrameId) : (s.unmap f).lru = s.lru := by
  rw [State.unmap]
  split <;> rfl

/-- `take_frame` comes to an end, and takes over the links what it takes over the lists. -/
theorem Linked.Kept.takeFrame_eq (h : x.Kept) (capacity i : Nat) :
    ∃ l, x.takeFrame capacity i =
        some (⟨(x.cache.takeFrame capacity i).1, l, x.acquired⟩,
          (x.cache.takeFrame capacity i).2) ∧
      l.Lists (x.cache.takeFrame capacity i).1.lru := by
  rw [Linked.takeFrame, State.takeFrame, h.search_eq i]
  split
  · exact ⟨_, rfl, h.newFrame_lists i⟩
  · obtain ⟨clean, dirty⟩ := x.cache.victims (x.cache.lru i).reverse none
    cases clean with
    | some f =>
      refine ⟨_, rfl, ?_⟩
      show x.links.Lists (x.cache.unmap f).lru
      rw [unmap_lru]
      exact h.lists
    | none =>
      cases dirty with
      | some f =>
        refine ⟨_, rfl, ?_⟩
        show x.links.Lists ((x.cache.writeVictim f).unmap f).lru
        rw [unmap_lru]
        exact h.lists
      | none => exact ⟨_, rfl, h.newFrame_lists i⟩

/-- What stands behind the frame once it is at the front. -/
theorem takeFrame_lru (s : State) (capacity i : Nat) :
    (((s.takeFrame capacity i).1.lru i).erase (s.takeFrame capacity i).2).Sublist (s.lru i) ∧
      ∀ j, j ≠ i → (s.takeFrame capacity i).1.lru j = s.lru j := by
  have hnew : (((s.newFrame i).1.lru i).erase s.count).Sublist (s.lru i) ∧
      ∀ j, j ≠ i → (s.newFrame i).1.lru j = s.lru j := by
    refine ⟨?_, fun j hj => Function.update_of_ne hj ..⟩
    show ((Function.update s.lru i (s.count :: s.lru i) i).erase s.count).Sublist _
    rw [Function.update_self, List.erase_cons_head]
  rw [State.takeFrame]
  split
  · exact hnew
  · split
    · rw [unmap_lru]
      exact ⟨List.erase_sublist, fun _ _ => rfl⟩
    · rw [unmap_lru]
      exact ⟨List.erase_sublist, fun _ _ => rfl⟩
    · exact hnew

theorem Linked.Kept.miss (h : x.Kept) (op : Op) {b : Nat} (hb : x.cache.map b = none)
    (hy : x.takeFrame capacity (shardFor b) = some (y, f)) :
    Linked.Kept ⟨y.cache.acquireMiss op b f, y.toFront (shardFor b) f, b :: x.acquired⟩ := by
  obtain ⟨l, htake, hl⟩ := h.takeFrame_eq capacity (shardFor b)
  cases htake.symm.trans hy
  have ht := h.shape.takeFrame capacity (shardFor b)
  obtain ⟨hsub, hrest⟩ := takeFrame_lru x.cache capacity (shardFor b)
  refine h.acquire (i := shardFor b)
    (ht.shape.acquireMiss ht.lt ht.home ht.pins ht.mapped (ht.map b hb))
    (hl.toFront ((ht.shape.place.listed _).mem_iff.mpr ht.home)) (fun g hg => ?_)
    (fun g hg hm hbg => ?_) ?_ ?_ ⟨_, Function.update_self .., hsub⟩ fun j hj => ?_
  · exact (Function.update_of_ne hg ..).trans (takeFrame_of_ne x.cache capacity _ hg)
  · have := h.shape.map_mapped hm hbg
    rw [hb] at this
    cases this
  · show (Function.update (_ : FrameId → Frame) _ _ _).mapped = true
    rw [Function.update_self]
  · show (Function.update (_ : FrameId → Frame) _ _ _).blockNo = b
    rw [Function.update_self]
  · exact (Function.update_of_ne hj ..).trans (hrest j hj)

theorem Linked.Kept.unmapFailed (h : x.Kept) {op : Op} {b : Nat} {rest : Multiset Call}
    (hc : x.cache.calls = .failed op b f ::ₘ rest) :
    Linked.Kept { x with
      cache := { (x.cache.setFrame f
          { x.cache.frames f with
            mapped := false, inTxn := false, pins := (x.cache.frames f).pins - 1 }).toBack
          (shardFor b) f with
        map := Function.update x.cache.map b none
        calls := rest }
      links := x.toBack (shardFor b) f } := by
  obtain ⟨hlt, hdead, hm, hb⟩ := h.shape.calls (.failed op b f)
    (by rw [hc]; exact Multiset.mem_cons_self ..)
  have hmem : f ∈ x.cache.lru (shardFor b) := h.shape.mem_lru (h.shape.map_mapped hm hb)
  have hlists := h.lists.toBack hmem
  generalize hg : ({ x.cache.frames f with
    mapped := false, inTxn := false, pins := (x.cache.frames f).pins - 1 } : Frame) = g
  have hgm : g.mapped = false := by rw [← hg]
  have hgt : g.inTxn = false := by rw [← hg]
  have hother : ∀ y, y ≠ f → Function.update x.cache.frames f g y = x.cache.frames y :=
    fun y hy => Function.update_of_ne hy ..
  refine ⟨hg ▸ h.shape.unmapFailed hc, hlists, fun j => ?_, fun y hy => ?_, fun y hy => ?_⟩
  · show (Function.update x.cache.lru (shardFor b) _ j).Pairwise
      (Recent (Function.update x.cache.frames f g) x.acquired)
    by_cases hj : j = shardFor b
    · subst hj
      rw [Function.update_self]
      refine pairwise_back ((h.order _).sublist List.erase_sublist)
        (h.lists.nodup _).not_mem_erase hother ?_
      rw [Function.update_self]
      exact hgm
    · rw [Function.update_of_ne hj]
      refine (h.order j).imp_of_mem fun {u v} hu hv hr => ?_
      have hne : ∀ w ∈ x.cache.lru j, w ≠ f := by
        rintro w hw rfl
        exact hj (h.lists.disjoint j (shardFor b) w hw hmem)
      rw [Recent, hother u (hne u hu), hother v (hne v hv)]
      exact hr
  · replace hy : (Function.update x.cache.frames f g y).mapped = true := hy
    show (Function.update x.cache.frames f g y).blockNo ∈ x.acquired
    by_cases hyf : y = f
    · rw [hyf, Function.update_self, hgm] at hy
      cases hy
    · rw [hother y hyf] at hy ⊢
      exact h.seen y hy
  · replace hy : (Function.update x.cache.frames f g y).mapped = false := hy
    show (Function.update x.cache.frames f g y).inTxn = false
    by_cases hyf : y = f
    · rw [hyf, Function.update_self]
      exact hgt
    · rw [hother y hyf] at hy ⊢
      exact h.spare y hy

/-- Frames that stay mapped or unmapped keep their order. -/
theorem Linked.Kept.still (h : x.Kept) {s : State} (hs : Shape s) (hl : s.lru = x.cache.lru)
    (hf : ∀ f, (x.cache.frames f).Still (s.frames f)) : Linked.Kept { x with cache := s } where
  shape := hs
  lists := by
    rw [hl]
    exact h.lists
  order j := by
    rw [hl]
    exact (h.order j).imp fun hr => hr.still hf
  seen f hm := by
    have hm' := (hf f).mapped.symm.trans hm
    show (s.frames f).blockNo ∈ x.acquired
    rw [(hf f).blockNo]
    exact h.seen f hm'
  spare f hm := by
    have hm' := (hf f).mapped.symm.trans hm
    by_contra ht
    rw [Bool.not_eq_false] at ht
    exact absurd ((h.spare f hm').symm.trans ((hf f).inTxn ht)) nofun

theorem Linked.Kept.step {faults : Bool} (h : x.Kept) (hs : LStep capacity faults x y) :
    y.Kept := by
  cases hs with
  | hit op b f hb => exact h.hit op hb
  | miss op b f hb hy => exact h.miss op hb hy
  | victimFails b f img _ _ _ _ =>
    exact h.still { h.shape with } rfl fun _ => ⟨rfl, rfl, id⟩
  | unmapFailed op b f rest hc => exact h.unmapFailed hc
  | other hs hhit hload hfailed =>
    obtain ⟨hl, hf⟩ := hs.still h.shape hhit hload hfailed
    exact h.still (h.shape.step hs) hl hf

theorem LRun.kept {faults : Bool} {init : Nat → Block} (h : LRun capacity faults init x) :
    x.Kept := by
  induction h with
  | empty durable =>
    exact ⟨.empty init durable, ⟨fun _ => ⟨rfl, rfl, trivial⟩, fun _ => List.nodup_nil, nofun⟩,
      fun _ => .nil, nofun, fun _ _ => rfl⟩
  | step _ hs ih => exact ih.step hs

end Take

/-! ## Which frame is taken -/

section Choice

variable (x : Linked) (i : Nat) (f : FrameId)

/-- Unmapped and unpinned. -/
def Linked.Unused : Prop :=
  f ∈ x.cache.own i ∧ (x.cache.frames f).mapped = false ∧ (x.cache.frames f).pins = 0

/-- Could be evicted as it is. -/
def Linked.Clean : Prop :=
  f ∈ x.cache.own i ∧ (x.cache.frames f).mapped = true ∧ (x.cache.frames f).pins = 0 ∧
    (x.cache.frames f).inTxn = false ∧ (x.cache.frames f).dirty = false

/-- Could be evicted once it is written. -/
def Linked.Writable : Prop :=
  f ∈ x.cache.own i ∧ (x.cache.frames f).mapped = true ∧ (x.cache.frames f).pins = 0 ∧
    (x.cache.frames f).inTxn = false ∧ (x.cache.frames f).dirty = true ∧
      (x.cache.frames f).lsn ≤ x.cache.durable

/-- The least recently used of these frames. -/
def Linked.Oldest (among : FrameId → Prop) : Prop :=
  among f ∧ ∀ g, among g → g ≠ f →
    x.acquired.idxOf (x.cache.frames g).blockNo < x.acquired.idxOf (x.cache.frames f).blockNo

/-- What `take_frame` is to do in a shard that has its share. -/
inductive Linked.Takes : Linked → FrameId → Prop where
  | unused (f : FrameId) : x.Unused i f → Linked.Takes x f
  | clean (f : FrameId) : (∀ g, ¬ x.Unused i g) → x.Oldest f (x.Clean i) →
      Linked.Takes { x with cache := x.cache.unmap f } f
  | writable (f : FrameId) : (∀ g, ¬ x.Unused i g) → (∀ g, ¬ x.Clean i g) →
      x.Oldest f (x.Writable i) →
      Linked.Takes { x with cache := (x.cache.writeVictim f).unmap f } f
  | new : (∀ g, ¬ x.Unused i g) → (∀ g, ¬ x.Clean i g) → (∀ g, ¬ x.Writable i g) →
      Linked.Takes (x.newFrame i).1 (x.newFrame i).2

end Choice

/-- Of the frames in a list that are fit, the last comes after all the others. -/
theorem last_of_find {α : Type} {r : α → α → Prop} {p : α → Bool} {xs : List α} {a : α}
    (hr : xs.Pairwise r) (h : xs.reverse.find? p = some a) :
    p a = true ∧ a ∈ xs ∧ ∀ c ∈ xs, p c = true → c ≠ a → r c a := by
  obtain ⟨hp, as, bs, heq, has⟩ := List.find?_eq_some_iff_append.mp h
  have hxs : xs = bs.reverse ++ a :: as.reverse := by
    rw [← List.reverse_reverse xs, heq, List.reverse_append, List.reverse_cons, List.append_assoc,
      List.singleton_append]
  rw [hxs] at hr ⊢
  refine ⟨hp, List.mem_append_right _ (List.mem_cons_self ..), fun c hc hpc hca => ?_⟩
  rcases List.mem_append.mp hc with hc | hc
  · exact (List.pairwise_append.mp hr).2.2 c hc a (List.mem_cons_self ..)
  · rcases List.mem_cons.mp hc with rfl | hc
    · exact absurd rfl hca
    · have := has c (List.mem_reverse.mp hc)
      rw [hpc] at this
      cases this

namespace State

variable (s : State)

/-- Can go as it is. -/
def goes (f : FrameId) : Bool :=
  (s.frames f).pins == 0 && !(s.frames f).inTxn && (!(s.frames f).mapped || !(s.frames f).dirty)

/-- Can go if it is written. -/
def goesWritten (f : FrameId) : Bool :=
  (s.frames f).pins == 0 && !(s.frames f).inTxn && (s.frames f).mapped && (s.frames f).dirty &&
    decide ((s.frames f).lsn ≤ s.durable)

theorem victims_eq (fs : List FrameId) (dirty : Option FrameId) :
    (s.victims fs dirty).1 = fs.find? s.goes ∧
      (fs.find? s.goes = none → (s.victims fs dirty).2 = dirty.or (fs.find? s.goesWritten)) := by
  induction fs generalizing dirty with
  | nil => exact ⟨rfl, fun _ => (Option.or_none ..).symm⟩
  | cons f fs ih =>
    rw [State.victims, List.find?_cons, List.find?_cons]
    split
    · -- in use, or in the transaction
      rename_i hused
      have hgoes : s.goes f = false := by
        rcases hused with hp | ht
        · simp [goes, Nat.ne_of_gt hp]
        · simp [goes, ht]
      have hwritten : s.goesWritten f = false := by
        rcases hused with hp | ht
        · simp [goesWritten, Nat.ne_of_gt hp]
        · simp [goesWritten, ht]
      rw [hgoes, hwritten]
      exact ih dirty
    · rename_i hfree
      rw [not_or, Nat.not_lt, Nat.le_zero, Bool.not_eq_true] at hfree
      split
      · rename_i hclean
        have hgoes : s.goes f = true := by
          simpa [goes, hfree.1, hfree.2] using hclean
        rw [hgoes]
        exact ⟨rfl, (by intros; contradiction)⟩
      · rename_i hdirty
        simp only [Bool.not_eq_true, not_or, Bool.not_eq_false] at hdirty
        have hgoes : s.goes f = false := by simp [goes, hdirty.1, hdirty.2]
        have hwritten : s.goesWritten f = decide ((s.frames f).lsn ≤ s.durable) := by
          simp [goesWritten, hfree.1, hfree.2, hdirty.1, hdirty.2]
        rw [hgoes, hwritten]
        refine ⟨(ih _).1, fun hnone => ((ih _).2 hnone).trans ?_⟩
        cases dirty with
        | some d => rfl
        | none =>
          by_cases hlsn : (s.frames f).lsn ≤ s.durable
          · simp [hlsn]
          · simp [hlsn]

end State

namespace Linked.Kept

variable {capacity : Nat} {x : Linked} {i : Nat} {f : FrameId}

theorem mem_lru (h : x.Kept) (i : Nat) (f : FrameId) : f ∈ x.cache.lru i ↔ f ∈ x.cache.own i :=
  (h.shape.place.listed i).mem_iff

theorem goes_iff (h : x.Kept) (hf : f ∈ x.cache.lru i) :
    x.cache.goes f = true ↔ x.Unused i f ∨ x.Clean i f := by
  have hown := (h.mem_lru i f).mp hf
  cases hm : (x.cache.frames f).mapped with
  | false => simp [goes, Linked.Unused, Linked.Clean, hown, hm, h.spare f hm]
  | true => simp [goes, Linked.Unused, Linked.Clean, hown, hm, and_assoc]

theorem goesWritten_iff (h : x.Kept) (hf : f ∈ x.cache.lru i) :
    x.cache.goesWritten f = true ↔ x.Writable i f := by
  have hown := (h.mem_lru i f).mp hf
  simp only [goesWritten, Linked.Writable, hown, true_and, Bool.and_eq_true, beq_iff_eq,
    Bool.not_eq_true', decide_eq_true_eq]
  tauto

theorem takes (h : x.Kept) (hfull : ¬ (x.cache.own i).length < share capacity i) :
    ∃ y f, x.takeFrame capacity i = some (y, f) ∧ x.Takes i y f := by
  obtain ⟨hclean, hdirty⟩ := x.cache.victims_eq (x.cache.lru i).reverse none
  rw [Linked.takeFrame, if_neg hfull, h.search_eq i]
  generalize x.cache.victims (x.cache.lru i).reverse none = v at hclean hdirty
  obtain ⟨clean, dirty⟩ := v
  cases clean with
  | some f =>
    obtain ⟨hgoes, hmem, hlast⟩ := last_of_find (h.order i) hclean.symm
    refine ⟨_, _, rfl, ?_⟩
    rcases (h.goes_iff hmem).mp hgoes with hu | hc
    · have hsame : x.cache.unmap f = x.cache := by
        rw [State.unmap, hu.2.1]
        rfl
      rw [hsame]
      exact .unused f hu
    · refine .clean f (fun g hg => ?_) ⟨hc, fun g hg hne => ?_⟩
      · -- an unmapped frame would stand behind `f`
        have hgmem := (h.mem_lru i g).mpr hg.1
        have hne : g ≠ f := by
          rintro rfl
          exact absurd (hg.2.1.symm.trans hc.2.1) (by intro h; contradiction)
        have := (hlast g hgmem ((h.goes_iff hgmem).mpr (.inl hg)) hne hc.2.1).1
        exact absurd (hg.2.1.symm.trans this) (by intro h; contradiction)
      · have hgmem := (h.mem_lru i g).mpr hg.1
        exact (hlast g hgmem ((h.goes_iff hgmem).mpr (.inr hg)) hne hc.2.1).2
  | none =>
    have hnone := List.find?_eq_none.mp hclean.symm
    have hno : ∀ g, ¬ (x.Unused i g ∨ x.Clean i g) := by
      intro g hg
      have hgmem : g ∈ x.cache.lru i := (h.mem_lru i g).mpr (hg.elim (·.1) (·.1))
      exact hnone g (List.mem_reverse.mpr hgmem) ((h.goes_iff hgmem).mpr hg)
    have hunused : ∀ g, ¬ x.Unused i g := fun g hg => hno g (.inl hg)
    have hcleans : ∀ g, ¬ x.Clean i g := fun g hg => hno g (.inr hg)
    replace hdirty : dirty = (x.cache.lru i).reverse.find? x.cache.goesWritten :=
      (hdirty hclean.symm).trans (Option.none_or ..)
    cases dirty with
    | some f =>
      obtain ⟨hwritten, hmem, hlast⟩ := last_of_find (h.order i) hdirty.symm
      have hw := (h.goesWritten_iff hmem).mp hwritten
      refine ⟨_, _, rfl, .writable f hunused hcleans ⟨hw, fun g hg hne => ?_⟩⟩
      have hgmem := (h.mem_lru i g).mpr hg.1
      exact (hlast g hgmem ((h.goesWritten_iff hgmem).mpr hg) hne hw.2.1).2
    | none =>
      refine ⟨_, _, rfl, .new hunused hcleans fun g hg => ?_⟩
      have hgmem := (h.mem_lru i g).mpr hg.1
      exact List.find?_eq_none.mp hdirty.symm g (List.mem_reverse.mpr hgmem)
        ((h.goesWritten_iff hgmem).mpr hg)

end Linked.Kept

/-- The shards keep their structure in every state, and the frame taken for a block is the one it
    should be. -/
theorem lru_order {capacity : Nat} {faults : Bool} {init : Nat → Block} {x : Linked}
    (h : LRun capacity faults init x) :
    (∀ i, x.links.IsList i (x.cache.lru i) ∧ (x.cache.lru i).Nodup ∧
      ∀ f, f ∈ x.cache.lru i ↔ f ∈ x.cache.own i) ∧
    (∀ b f, x.cache.map b = some f ↔ f ∈ x.cache.own (shardFor b) ∧
      (x.cache.frames f).mapped = true ∧ (x.cache.frames f).blockNo = b) ∧
    (∀ f g, (x.cache.frames f).mapped = true → (x.cache.frames g).mapped = true →
      (x.cache.frames f).blockNo = (x.cache.frames g).blockNo → f = g) ∧
    (∀ f, (x.cache.frames f).mapped = true → (x.cache.frames f).blockNo ∈ x.acquired) ∧
    (∀ i, (x.cache.lru i).Pairwise (Recent x.cache.frames x.acquired)) ∧
    ∀ i, ¬ (x.cache.own i).length < share capacity i →
      ∃ y f, x.takeFrame capacity i = some (y, f) ∧ x.Takes i y f := by
  have hk := h.kept
  refine ⟨fun i => ⟨hk.lists.isList i, hk.lists.nodup i, hk.mem_lru i⟩, fun b f => ⟨fun hm => ?_,
    fun hm => hk.shape.map_mapped hm.2.1 hm.2.2⟩, fun f g hf hg hb => ?_, hk.seen, hk.order,
    fun i hfull => hk.takes hfull⟩
  · exact ⟨hk.shape.place.home b f hm, ((hk.shape.place.maps b f).mp hm).2⟩
  · have := hk.shape.map_mapped hf hb
    rw [hk.shape.map_mapped hg rfl] at this
    cases this
    rfl

/-- The cache once a block that it did not hold has been read, in a shard with room for a frame. -/
def State.readIn (s : State) (b : Nat) : State :=
  { s with
    frames := Function.update s.frames s.count
      { Frame.new with blockNo := b, mapped := true, data := s.disk b }
    count := s.count + 1
    map := Function.update s.map b (some s.count)
    own := Function.update s.own (shardFor b) (s.own (shardFor b) ++ [s.count])
    lru := Function.update s.lru (shardFor b) (s.count :: s.lru (shardFor b))
    trace := s.trace ++ [.read b (s.disk b).bytes] }

/-- A call goes on; none comes and none goes. -/
theorem LRun.goesOn {capacity : Nat} {faults : Bool} {init : Nat → Block} {x : Linked} {s : State}
    {c d : Call} (h : LRun capacity faults init x) (hs : Step capacity faults x.cache s)
    (hc : x.cache.calls = {c}) (hd : s.calls = {d}) :
    LRun capacity faults init { x with cache := s } := by
  have two : ∀ {c d e : Call}, ({c} : Multiset Call) ≠ d ::ₘ {e} := fun {c d e} he => by
    have := congrArg Multiset.card he
    rw [Multiset.card_singleton, Multiset.card_cons, Multiset.card_singleton] at this
    contradiction
  apply h.step (.other hs ?_ ?_ ?_)
  all_goals
    rw [hc, hd]
    exact fun _ _ _ => two

theorem LRun.readIn {capacity : Nat} {faults : Bool} {init : Nat → Block} {s : State}
    {l : Links Nat FrameId} {acquired : List Nat} (h : LRun capacity faults init ⟨s, l, acquired⟩)
    {b : Nat} (hb : s.map b = none) (hc : s.calls = 0)
    (hroom : (s.own (shardFor b)).length < share capacity (shardFor b)) :
    ∃ l', LRun capacity faults init ⟨s.readIn b, l', b :: acquired⟩ := by
  have one : ∀ {c : Call}, c ::ₘ s.calls = {c} := by
    rw [hc]
    exact rfl
  have h1 := h.step (.miss .read b s.count hb (if_pos hroom))
  have h2 := h1.goesOn (.load .read b s.count s.calls rfl) one one
  have h3 := h2.goesOn (.readLoaded b s.count s.calls rfl) one one
  have h4 := h3.step (.other (.unpin s.count s.calls rfl) ?_ ?_ ?_)
  · let x : Linked := ⟨s, l, acquired⟩
    refine ⟨(x.newFrame (shardFor b)).1.toFront (shardFor b) s.count, cast ?_ h4⟩
    congr 2
    simp [State.readIn, State.unpin, State.load, State.acquireMiss, State.newFrame,
      State.toFront, State.setFrame, Op.fresh, Op.inTxn, Frame.new]
  all_goals simp [hc]

/-- Shard 0 with the blocks 0, 16 and so on. -/
def filled : Nat → State
  | 0 => .empty (fun _ => Bytes.zero 4096) 0
  | n + 1 => (filled n).readIn (16 * n)

theorem filled_calls (n : Nat) : (filled n).calls = 0 := by
  induction n with
  | zero => rfl
  | succ n ih => exact ih

theorem filled_run : ∀ n, n ≤ 16 → ∃ l, LRun 256 true (fun _ => Bytes.zero 4096)
    ⟨filled n, l, (List.range n).reverse.map (16 * ·)⟩
  | 0, _ => ⟨_, .empty 0⟩
  | n + 1, hn => by
    have hfits : ∀ n < 16, (filled n).map (16 * n) = none ∧
      ((filled n).own (shardFor (16 * n))).length < share 256 (shardFor (16 * n)) := by
        decide +kernel
    obtain ⟨l, h⟩ := filled_run n (by omega)
    obtain ⟨hb, hroom⟩ := hfits n hn
    rw [List.range_succ, List.reverse_append]
    exact h.readIn hb (filled_calls n) hroom

/-- The shard has its share of frames, and the one whose block was read first goes. -/
theorem lru_order_evicts : ∃ x y : Linked, LRun 256 true (fun _ => Bytes.zero 4096) x ∧
    (x.cache.own 0).length = share 256 0 ∧ x.cache.map 0 = some 0 ∧
    x.takeFrame 256 0 = some (y, 0) ∧ x.Takes 0 y 0 ∧ y.cache.map 0 = none := by
  obtain ⟨l, h⟩ := filled_run 16 (Nat.le_refl _)
  have hown : ((filled 16).own 0).length = share 256 0 := by decide +kernel
  have hmap : (filled 16).map 0 = some 0 := by decide +kernel
  have hgone : ((filled 16).unmap 0).map 0 = none := by decide +kernel
  have hsearch : (filled 16).victims ((filled 16).lru 0).reverse none = (some 0, none) := by
    decide +kernel
  have hfull : ¬ ((filled 16).own 0).length < share 256 0 := by
    rw [hown]
    exact Nat.lt_irrefl _
  obtain ⟨y, f, htake, htakes⟩ := (lru_order h).2.2.2.2.2 0 hfull
  have := htake
  rw [Linked.takeFrame, if_neg hfull, h.kept.search_eq 0, hsearch] at this
  cases this
  exact ⟨_, _, h, hown, hmap, htake, htakes, hgone⟩

end ConcurrentFs.BufferCache
