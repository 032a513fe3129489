/-
  ConcurrentFs.MountGate

  Mount, unmount and the calls in between (`MountGate`, `CallScope`, `with_fs`,
  `vfs_mount` and `vfs_unmount`, src/vfs.cpp).

  A call adds itself to a slot and then looks at `closed_`; unmount sets `closed_` and
  then looks at every slot.  A step is one access to `closed_` or to a slot, or what a
  thread does to `g_fs`.  All of them are sequentially consistent, so a run is a
  sequence of steps; the steps of different threads come in any order.

  `drained` is not part of the program: it says that nothing has been mounted yet, or
  that `close_and_drain` has returned and `open` has not been called since.
-/
import Mathlib.Data.Multiset.Count
import Mathlib.Data.Fintype.Basic

namespace ConcurrentFs.MountGate

/-- `MountGate::SLOTS`. -/
def slots : Nat := 64

abbrev Slot := Fin slots

/-- A thread in a call, by what it does next.  File systems are numbered as they are made. -/
inductive Thread where
  -- CallScope
  | enter (i : Slot)
  /-- Has added itself; about to load `closed_`. -/
  | look (i : Slot)
  /-- Found it set; about to take itself off again. -/
  | back (i : Slot)
  /-- `enter` returned true; about to form `*g_fs`. -/
  | entered (i : Slot)
  /-- In the body of the call, which uses this file system. -/
  | body (i : Slot) (fs : Nat)
  | leave (i : Slot)
  -- vfs_mount
  | mountLock
  | mountTest
  /-- About to make the file system. -/
  | mountMake
  | mountOpen
  -- vfs_unmount
  | unmountLock
  | unmountTest
  | unmountClose
  /-- In the loop over the slots, about to load this one. -/
  | drain (k : Nat)
  /-- `close_and_drain` has returned. -/
  | unmountTake
  /-- Has moved the file system out of `g_fs`; about to close and destroy it. -/
  | unmountDestroy (fs : Nat)
  /-- About to let `change` go. -/
  | unlock

structure State where
  n : Slot → Int
  closed : Bool
  /-- `change` is held. -/
  changing : Bool
  /-- `g_fs`. -/
  fs : Option Nat
  /-- File systems made so far. -/
  made : Nat
  drained : Bool
  threads : Multiset Thread

/-- `fetch_add` on a slot. -/
def State.add (s : State) (i : Slot) (d : Int) : State :=
  { s with n := Function.update s.n i (s.n i + d) }

inductive Step : State → State → Prop where
  -- calls begin
  | call {s : State} (i : Slot) : Step s { s with threads := .enter i ::ₘ s.threads }
  | callMount {s : State} : Step s { s with threads := .mountLock ::ₘ s.threads }
  | callUnmount {s : State} : Step s { s with threads := .unmountLock ::ₘ s.threads }
  -- enter
  | enter {s : State} (i : Slot) (rest : Multiset Thread) : s.threads = .enter i ::ₘ rest →
      Step s { s.add i 1 with threads := .look i ::ₘ rest }
  | look {s : State} (i : Slot) (rest : Multiset Thread) : s.threads = .look i ::ₘ rest →
      Step s { s with threads := (if s.closed then .back i else .entered i) ::ₘ rest }
  | back {s : State} (i : Slot) (rest : Multiset Thread) : s.threads = .back i ::ₘ rest →
      Step s { s.add i (-1) with threads := rest }
  -- the body
  | body {s : State} (i : Slot) (fs : Nat) (rest : Multiset Thread) :
      s.threads = .entered i ::ₘ rest → s.fs = some fs →
      Step s { s with threads := .body i fs ::ₘ rest }
  | bodyEnds {s : State} (i : Slot) (fs : Nat) (rest : Multiset Thread) :
      s.threads = .body i fs ::ₘ rest → Step s { s with threads := .leave i ::ₘ rest }
  | leave {s : State} (i : Slot) (rest : Multiset Thread) : s.threads = .leave i ::ₘ rest →
      Step s { s.add i (-1) with threads := rest }
  -- vfs_mount
  | mountLock {s : State} (rest : Multiset Thread) : s.threads = .mountLock ::ₘ rest →
      s.changing = false → Step s { s with changing := true, threads := .mountTest ::ₘ rest }
  /-- EBUSY, or an argument that is refused. -/
  | mountRefuses {s : State} (rest : Multiset Thread) : s.threads = .mountTest ::ₘ rest →
      Step s { s with threads := .unlock ::ₘ rest }
  | mountTest {s : State} (rest : Multiset Thread) : s.threads = .mountTest ::ₘ rest → s.fs = none →
      Step s { s with threads := .mountMake ::ₘ rest }
  | mountThrows {s : State} (rest : Multiset Thread) : s.threads = .mountMake ::ₘ rest →
      Step s { s with threads := .unlock ::ₘ rest }
  | mountMake {s : State} (rest : Multiset Thread) : s.threads = .mountMake ::ₘ rest →
      Step s { s with fs := some s.made, made := s.made + 1, threads := .mountOpen ::ₘ rest }
  | mountOpen {s : State} (rest : Multiset Thread) : s.threads = .mountOpen ::ₘ rest →
      Step s { s with closed := false, drained := false, threads := .unlock ::ₘ rest }
  -- vfs_unmount
  | unmountLock {s : State} (rest : Multiset Thread) : s.threads = .unmountLock ::ₘ rest →
      s.changing = false → Step s { s with changing := true, threads := .unmountTest ::ₘ rest }
  | unmountTest {s : State} (rest : Multiset Thread) : s.threads = .unmountTest ::ₘ rest →
      Step s { s with threads := (if s.fs.isSome then .unmountClose else .unlock) ::ₘ rest }
  | unmountClose {s : State} (rest : Multiset Thread) : s.threads = .unmountClose ::ₘ rest →
      Step s { s with closed := true, threads := .drain 0 ::ₘ rest }
  /-- The slot does not read zero: it is loaded again. -/
  | drainWaits {s : State} (i : Slot) (rest : Multiset Thread) : s.threads = .drain i ::ₘ rest →
      s.n i ≠ 0 → Step s s
  | drain {s : State} (i : Slot) (rest : Multiset Thread) :
      s.threads = .drain i ::ₘ rest → s.n i = 0 →
      Step s { s with threads := .drain (i + 1) ::ₘ rest }
  | drained {s : State} (rest : Multiset Thread) : s.threads = .drain slots ::ₘ rest →
      Step s { s with drained := true, threads := .unmountTake ::ₘ rest }
  | unmountTake {s : State} (fs : Nat) (rest : Multiset Thread) :
      s.threads = .unmountTake ::ₘ rest →
      s.fs = some fs → Step s { s with fs := none, threads := .unmountDestroy fs ::ₘ rest }
  | unmountDestroy {s : State} (fs : Nat) (rest : Multiset Thread) :
      s.threads = .unmountDestroy fs ::ₘ rest → Step s { s with threads := .unlock ::ₘ rest }
  | unlock {s : State} (rest : Multiset Thread) : s.threads = .unlock ::ₘ rest →
      Step s { s with changing := false, threads := rest }

/-- A program that has mounted nothing. -/
def State.start : State := ⟨fun _ => 0, true, false, none, 0, true, 0⟩

inductive Run : State → Prop where
  | start : Run .start
  | step {s s' : State} : Run s → Step s s' → Run s'

/-! ## The invariant -/

namespace Thread

/-- The slot it is counted in. -/
def slot : Thread → Option Slot
  | look i | back i | entered i | body i _ | leave i => some i
  | _ => none

/-- The slot of a call between an `enter` that returned true and its `leave`. -/
def inside : Thread → Option Slot
  | entered i | body i _ | leave i => some i
  | _ => none

/-- It has `change`. -/
def changes : Thread → Bool
  | mountTest | mountMake | mountOpen | unmountTest | unmountClose | drain _ | unmountTake
  | unmountDestroy _ | unlock => true
  | _ => false

end Thread

/-- Nobody is inside through this slot. -/
def Empty (threads : Multiset Thread) (i : Slot) : Prop := ∀ t ∈ threads, t.inside ≠ some i

/-- What the thread that has `change` relies on. -/
def Thread.Relies (closed drained : Bool) (fs : Option Nat)
    (threads : Multiset Thread) : Thread → Prop
  | mountMake | unmountDestroy _ => fs = none
  | mountOpen | unmountClose => fs.isSome = true
  | drain k => fs.isSome = true ∧ closed = true ∧ ∀ i : Slot, i < k → Empty threads i
  | unmountTake => fs.isSome = true ∧ drained = true
  | _ => True

structure Inv (s : State) : Prop where
  counted : ∀ i, s.n i = s.threads.countP (Thread.slot · = some i)
  changes : s.threads.countP (Thread.changes · = true) = s.changing.toNat
  drained : s.drained = true → s.closed = true ∧ ∀ i, Empty s.threads i
  unmounted : s.fs = none → s.drained = true
  uses : ∀ i fs, .body i fs ∈ s.threads → s.fs = some fs
  relies : ∀ t ∈ s.threads, t.Relies s.closed s.drained s.fs s.threads

section Threads

variable {t : Thread} {rest threads threads' : Multiset Thread} {i : Slot}

theorem countP_slot (t : Thread) (rest : Multiset Thread) (i : Slot) :
    (t ::ₘ rest).countP (Thread.slot · = some i) =
      rest.countP (Thread.slot · = some i) + if t.slot = some i then 1 else 0 :=
      Multiset.countP_cons ..

theorem countP_changes (t : Thread) (rest : Multiset Thread) :
    (t ::ₘ rest).countP (Thread.changes · = true) =
      rest.countP (Thread.changes · = true) + t.changes.toNat := by
  rw [Multiset.countP_cons]
  cases t.changes <;> rfl

theorem Thread.slot_of_inside (h : t.inside = some i) : t.slot = some i := by
  cases t <;> first | exact h | cases h

/-- A slot that reads zero has nobody inside. -/
theorem empty_of_zero (h : threads.countP (Thread.slot · = some i) = 0) : Empty threads i := by
  intro t ht hin
  have hpos : 0 < threads.countP (Thread.slot · = some i) :=
    Multiset.countP_pos.mpr ⟨t, ht, Thread.slot_of_inside hin⟩
  omega

theorem Empty.cons (h : Empty rest i) (ht : t.inside ≠ some i) : Empty (t ::ₘ rest) i := by
  intro u hu
  rcases Multiset.mem_cons.mp hu with rfl | hu
  · exact ht
  · exact h u hu

theorem Empty.of_cons (h : Empty (t ::ₘ rest) i) : Empty rest i :=
  fun u hu => h u (Multiset.mem_cons_of_mem hu)

theorem Thread.relies_of_not_changes (h : t.changes = false) {closed drained : Bool}
    {fs : Option Nat} :
    t.Relies closed drained fs threads := by
  cases t <;> trivial

theorem Thread.Relies.mono {closed drained : Bool} {fs : Option Nat}
    (h : t.Relies closed drained fs threads)
    (he : closed = true → ∀ i, Empty threads i → Empty threads' i) :
    t.Relies closed drained fs threads' := by
  cases t with
  | drain k => exact ⟨h.1, h.2.1, fun i hi => he h.2.1 i (h.2.2 i hi)⟩
  | _ => exact h

end Threads

namespace Inv

variable {s : State} {t : Thread} {rest : Multiset Thread}

/-- While one thread has `change` no other has. -/
theorem not_changes (h : Inv s) (ht : s.threads = t ::ₘ rest) (hc : t.changes = true) {u : Thread}
    (hu : u ∈ rest) : u.changes = false := by
  by_contra hn
  have hcount := h.changes
  rw [ht, countP_changes, hc] at hcount
  have hpos : 0 < rest.countP (Thread.changes · = true) :=
    Multiset.countP_pos.mpr ⟨u, hu, by simpa using hn⟩
  have hle := Bool.toNat_le s.changing
  rw [Bool.toNat_true] at hcount
  omega

theorem self (h : Inv s) (ht : s.threads = t ::ₘ rest) :
    t.Relies s.closed s.drained s.fs s.threads :=
  h.relies t (by rw [ht]; exact Multiset.mem_cons_self ..)

/-- A thread goes on that is inside as before, or no longer, in the same slot. -/
theorem pass (h : Inv s) (ht : s.threads = t ::ₘ rest) (t' : Thread) (changing : Bool)
    (hslot : t'.slot = t.slot) 
    (hc : changing.toNat + t.changes.toNat = s.changing.toNat + t'.changes.toNat)
    (hin : t'.inside = t.inside ∨ t'.inside = none ∨ s.closed = false)
    (huse : ∀ i fs, t' = .body i fs → s.fs = some fs)
    (hrel : t'.Relies s.closed s.drained s.fs (t' ::ₘ rest)) :
    Inv { s with changing := changing, threads := t' ::ₘ rest } := by
  have hempty : s.closed = true → ∀ i, Empty s.threads i → Empty (t' ::ₘ rest) i := by
    intro hcl i he
    rw [ht] at he
    refine he.of_cons.cons ?_
    rcases hin with hin | hin | hin
    · rw [hin]
      exact he t (Multiset.mem_cons_self ..)
    · rw [hin]
      exact nofun
    · rw [hcl] at hin
      cases hin
  refine ⟨fun i => ?_, ?_, fun hd => ?_, h.unmounted, fun i fs hm => ?_, fun u hu => ?_⟩
  · rw [countP_slot, hslot, ← countP_slot, ← ht]
    exact h.counted i
  · have := h.changes
    rw [ht, countP_changes] at this
    rw [countP_changes]
    show _ = changing.toNat
    omega
  · exact ⟨(h.drained hd).1, fun i => hempty (h.drained hd).1 i ((h.drained hd).2 i)⟩
  · rcases Multiset.mem_cons.mp hm with he | hm
    · exact huse i fs he.symm
    · exact h.uses i fs (by rw [ht]; exact Multiset.mem_cons_of_mem hm)
  · rcases Multiset.mem_cons.mp hu with rfl | hu
    · exact hrel
    · exact (h.relies u (by rw [ht]; exact Multiset.mem_cons_of_mem hu)).mono hempty

/-- A call begins. -/
theorem start (h : Inv s) (t : Thread) (hslot : t.slot = none) (hc : t.changes = false) :
    Inv { s with threads := t ::ₘ s.threads } := by
  have hin : ∀ i, t.inside ≠ some i := fun i hi => by
    rw [Thread.slot_of_inside hi] at hslot
    cases hslot
  refine ⟨fun i => ?_, ?_, fun hd => ?_, h.unmounted, fun i fs hm => ?_, fun u hu => ?_⟩
  · rw [countP_slot, hslot]
    exact h.counted i
  · rw [countP_changes, hc]
    exact h.changes
  · exact ⟨(h.drained hd).1, fun i => ((h.drained hd).2 i).cons (hin i)⟩
  · rcases Multiset.mem_cons.mp hm with rfl | hm
    · cases hslot
    · exact h.uses i fs hm
  · rcases Multiset.mem_cons.mp hu with rfl | hu
    · exact Thread.relies_of_not_changes hc
    · exact (h.relies u hu).mono fun _ i he => he.cons (hin i)

/-- A thread is counted in its slot and about to look. -/
theorem enter (h : Inv s) {i : Slot} (ht : s.threads = .enter i ::ₘ rest) :
    Inv { s.add i 1 with threads := .look i ::ₘ rest } := by
  have hempty : ∀ j, Empty s.threads j → Empty (.look i ::ₘ rest) j := by
    intro j he
    rw [ht] at he
    exact he.of_cons.cons nofun
  refine ⟨fun j => ?_, ?_, fun hd => ?_, h.unmounted, fun j fs hm => ?_, fun u hu => ?_⟩
  · have hn := h.counted j
    rw [ht, countP_slot] at hn
    show Function.update s.n i (s.n i + 1) j = _
    rw [countP_slot]
    by_cases hj : j = i
    · subst hj
      rw [Function.update_self, hn]
      simp [Thread.slot]
    · rw [Function.update_of_ne hj, hn]
      simp [Thread.slot, Ne.symm hj]
  · have := h.changes
    rw [ht, countP_changes] at this
    rw [countP_changes]
    exact this
  · exact ⟨(h.drained hd).1, fun j => hempty j ((h.drained hd).2 j)⟩
  · rcases Multiset.mem_cons.mp hm with hm | hm
    · cases hm
    · exact h.uses j fs (by rw [ht]; exact Multiset.mem_cons_of_mem hm)
  · rcases Multiset.mem_cons.mp hu with rfl | hu
    · trivial
    · exact (h.relies u (by rw [ht]; exact Multiset.mem_cons_of_mem hu)).mono fun _ => hempty

/-- A thread takes itself off its slot and returns. -/
theorem exit (h : Inv s) {i : Slot} (ht : s.threads = t ::ₘ rest) (hslot : t.slot = some i)
    (hc : t.changes = false) : Inv { s.add i (-1) with threads := rest } := by
  have hempty : ∀ j, Empty s.threads j → Empty rest j := by
    intro j he
    rw [ht] at he
    exact he.of_cons
  refine ⟨fun j => ?_, ?_, fun hd => ?_, h.unmounted, fun j fs hm => ?_, fun u hu => ?_⟩
  · have hn := h.counted j
    rw [ht, countP_slot, hslot] at hn
    show Function.update s.n i (s.n i + -1) j = _
    by_cases hj : j = i
    · subst hj
      rw [Function.update_self, hn, if_pos rfl]
      push_cast
      exact Int.add_neg_cancel_right ..
    · rw [Function.update_of_ne hj, hn]
      simp [Ne.symm hj]
  · have := h.changes
    rw [ht, countP_changes, hc] at this
    exact this
  · exact ⟨(h.drained hd).1, fun j => hempty j ((h.drained hd).2 j)⟩
  · exact h.uses j fs (by rw [ht]; exact Multiset.mem_cons_of_mem hm)
  · exact (h.relies u (by rw [ht]; exact Multiset.mem_cons_of_mem hu)).mono fun _ => hempty

/-- The thread that has `change` changes what it protects. -/
theorem change (h : Inv s) (ht : s.threads = t ::ₘ rest) (t' : Thread) (hslot : t.slot = none)
    (hslot' : t'.slot = none) (hc : t.changes = true) (hc' : t'.changes = true)
    (closed drained : Bool)
    (fs : Option Nat) (made : Nat)
    (hd : drained = true → closed = true ∧ ∀ i, Empty rest i)
    (hun : fs = none → drained = true)
    (huse : ∀ i x, .body i x ∈ rest → s.fs = some x → fs = some x)
    (hrel : t'.Relies closed drained fs (t' ::ₘ rest)) :
    Inv { s with
      closed := closed, drained := drained, fs := fs, made := made, threads := t' ::ₘ rest } := by
  have hin : ∀ i, t'.inside ≠ some i := fun i hi => by
    rw [Thread.slot_of_inside hi] at hslot'
    cases hslot'
  refine ⟨fun i => ?_, ?_, fun hdr => ?_, hun, fun i x hm => ?_, fun u hu => ?_⟩
  · rw [countP_slot, hslot', ← hslot, ← countP_slot, ← ht]
    exact h.counted i
  · have := h.changes
    rw [ht, countP_changes, hc] at this
    rw [countP_changes, hc']
    exact this
  · exact ⟨(hd hdr).1, fun i => ((hd hdr).2 i).cons (hin i)⟩
  · rcases Multiset.mem_cons.mp hm with rfl | hm
    · cases hslot'
    · exact huse i x hm (h.uses i x (by rw [ht]; exact Multiset.mem_cons_of_mem hm))
  · rcases Multiset.mem_cons.mp hu with rfl | hu
    · exact hrel
    · exact Thread.relies_of_not_changes (h.not_changes ht hc hu)

/-- With nothing mounted nobody is inside. -/
theorem empty_of_unmounted (h : Inv s) (hfs : s.fs = none) (i : Slot) : Empty s.threads i :=
  (h.drained (h.unmounted hfs)).2 i

theorem step {s' : State} (h : Inv s) (hs : Step s s') : Inv s' := by
  cases hs with
  | call i => exact h.start (.enter i) rfl rfl
  | callMount => exact h.start .mountLock rfl rfl
  | callUnmount => exact h.start .unmountLock rfl rfl
  | enter i rest ht => exact h.enter ht
  | look i rest ht =>
    split
    · exact h.pass ht (.back i) s.changing rfl rfl (Or.inr (Or.inl rfl)) nofun trivial
    · rename_i hcl
      have hopen : s.closed = false := by simpa using hcl
      exact h.pass ht (.entered i) s.changing rfl rfl (Or.inr (Or.inr hopen)) nofun trivial
  | back i rest ht => exact h.exit ht rfl rfl
  | body i fs rest ht hfs =>
    refine h.pass ht (.body i fs) s.changing rfl rfl (Or.inl rfl) ?_ trivial
    rintro j fs ⟨⟩
    exact hfs
  | bodyEnds i fs rest ht =>
    exact h.pass ht (.leave i) s.changing rfl rfl (Or.inl rfl) nofun trivial
  | leave i rest ht => exact h.exit ht rfl rfl
  | mountLock rest ht hc =>
    exact h.pass ht .mountTest true rfl (by rw [hc]; rfl) (Or.inl rfl) nofun trivial
  | mountRefuses rest ht => exact h.pass ht .unlock s.changing rfl rfl (Or.inl rfl) nofun trivial
  | mountTest rest ht hfs => exact h.pass ht .mountMake s.changing rfl rfl (Or.inl rfl) nofun hfs
  | mountThrows rest ht => exact h.pass ht .unlock s.changing rfl rfl (Or.inl rfl) nofun trivial
  | mountMake rest ht =>
    have hfs : s.fs = none := h.self ht
    have hall := h.drained (h.unmounted hfs)
    have hrest : ∀ i, Empty rest i := fun i => by
      have := hall.2 i
      rw [ht] at this
      exact this.of_cons
    refine h.change ht .mountOpen rfl rfl rfl rfl s.closed s.drained _ _
      (fun _ => ⟨hall.1, hrest⟩) nofun (fun i x hm hx => ?_) rfl
    rw [hfs] at hx
    cases hx
  | mountOpen rest ht =>
    have hfs := h.self ht
    refine h.change ht .unlock rfl rfl rfl rfl false false s.fs s.made nofun (fun hn => ?_)
      (fun _ _ _ => id) trivial
    rw [Thread.Relies, hn] at hfs
    cases hfs
  | unmountLock rest ht hc =>
    exact h.pass ht .unmountTest true rfl (by rw [hc]; rfl) (Or.inl rfl) nofun trivial
  | unmountTest rest ht =>
    split
    · rename_i hfs
      exact h.pass ht .unmountClose s.changing rfl rfl (Or.inl rfl) nofun hfs
    · exact h.pass ht .unlock s.changing rfl rfl (Or.inl rfl) nofun trivial
  | unmountClose rest ht =>
    refine h.change ht (.drain 0) rfl rfl rfl rfl true s.drained s.fs s.made
      (fun hd => ⟨rfl, fun i => ?_⟩)
      h.unmounted (fun _ _ _ => id) ⟨h.self ht, rfl, fun i hi => absurd hi (Nat.not_lt_zero _)⟩
    have := (h.drained hd).2 i
    rw [ht] at this
    exact this.of_cons
  | drainWaits i rest ht hn => exact h
  | drain i rest ht hn =>
    obtain ⟨hfs, hcl, hall⟩ := h.self ht
    have hz : Empty s.threads i := empty_of_zero (by have := h.counted i; omega)
    refine h.pass ht (.drain (i + 1)) s.changing rfl rfl (Or.inl rfl) nofun
      ⟨hfs, hcl, fun j hj => ?_⟩
    have hj' : Empty s.threads j := by
      rcases Nat.lt_or_eq_of_le (Nat.le_of_lt_succ hj) with hlt | heq
      · exact hall j hlt
      · rw [Fin.ext heq]
        exact hz
    rw [ht] at hj'
    exact hj'.of_cons.cons nofun
  | drained rest ht =>
    obtain ⟨hfs, hcl, hall⟩ := h.self ht
    refine h.change ht .unmountTake rfl rfl rfl rfl s.closed true s.fs s.made
      (fun _ => ⟨hcl, fun i => ?_⟩) (fun _ => rfl) (fun _ _ _ => id) ⟨hfs, rfl⟩
    have := hall i i.isLt
    rw [ht] at this
    exact this.of_cons
  | unmountTake fs rest ht hfs =>
    have hall := h.drained (h.self ht).2
    have hrest : ∀ i, Empty rest i := fun i => by
      have := hall.2 i
      rw [ht] at this
      exact this.of_cons
    refine h.change ht (.unmountDestroy fs) rfl rfl rfl rfl s.closed s.drained none s.made
      (fun _ => ⟨hall.1, hrest⟩) (fun _ => (h.self ht).2) (fun i x hm => ?_) rfl
    exact absurd rfl (hrest i _ hm)
  | unmountDestroy fs rest ht =>
    exact h.pass ht .unlock s.changing rfl rfl
      (Or.inl rfl) nofun trivial
  | unlock rest ht =>
    have hc := h.changes
    rw [ht, countP_changes] at hc
    have hempty : ∀ j, Empty s.threads j → Empty rest j := by
      intro j he
      rw [ht] at he
      exact he.of_cons
    refine ⟨fun j => ?_, ?_, fun hd => ⟨(h.drained hd).1, fun j => hempty j ((h.drained hd).2 j)⟩,
      h.unmounted, fun j fs hm => ?_, fun u hu => ?_⟩
    · have hn := h.counted j
      rw [ht, countP_slot] at hn
      exact hn
    · have hle := Bool.toNat_le s.changing
      have h1 : Thread.unlock.changes.toNat = 1 := rfl
      show rest.countP (Thread.changes · = true) = 0
      omega
    · exact h.uses j fs (by rw [ht]; exact Multiset.mem_cons_of_mem hm)
    · exact (h.relies u (by rw [ht]; exact Multiset.mem_cons_of_mem hu)).mono fun _ => hempty

theorem init : Inv .start where
  counted := fun _ => rfl
  changes := rfl
  drained := fun _ => ⟨rfl, fun _ t ht => absurd ht (Multiset.notMem_zero t)⟩
  unmounted := fun _ => rfl
  uses := fun _ _ ht => absurd ht (Multiset.notMem_zero _)
  relies := fun t ht => absurd ht (Multiset.notMem_zero t)

end Inv

theorem Run.inv {s : State} (h : Run s) : Inv s := by
  induction h with
  | start => exact .init
  | step hr hs ih => exact ih.step hs

/-- `g_fs` is set or cleared only where nobody is inside. -/
theorem Inv.empty_of_change {s s' : State} (h : Inv s) (hs : Step s s')
    (hfs : s'.fs ≠ s.fs) (i : Slot) :
    Empty s.threads i := by
  cases hs with
  | mountMake rest ht => exact h.empty_of_unmounted (h.self ht) i
  | unmountTake fs rest ht hf => exact (h.drained (h.self ht).2).2 i
  | _ => exact absurd rfl hfs

/-- Nobody is inside any slot. -/
theorem inside_eq_none {threads : Multiset Thread} (h : ∀ i, Empty threads i) :
    ∀ t ∈ threads, t.inside = none := by
  intro t ht
  cases hi : t.inside with
  | none => rfl
  | some i => exact absurd hi (h i t ht)

/-- No call slips past unmount.  From the moment `close_and_drain` has returned until the next
    `open` nobody is inside; `g_fs` is set, cleared or destroyed only while nobody is, so that what
    a body uses is what is mounted; and every slot counts the calls in it or on their way. -/
theorem no_call_past_unmount {s : State} (h : Run s) :
    (s.drained = true → ∀ t ∈ s.threads, t.inside = none) ∧
    (∀ s', Step s s' → s'.fs ≠ s.fs → ∀ t ∈ s.threads, t.inside = none) ∧
    (∀ fs, .unmountDestroy fs ∈ s.threads → ∀ t ∈ s.threads, t.inside = none) ∧
    (∀ i, .entered i ∈ s.threads → s.fs.isSome = true) ∧
    (∀ i fs, .body i fs ∈ s.threads → s.fs = some fs) ∧
    ∀ i, 0 ≤ s.n i ∧ s.n i = s.threads.countP (Thread.slot · = some i) := by
  have hi := h.inv
  refine ⟨fun hd => inside_eq_none (hi.drained hd).2,
    fun s' hs hfs => inside_eq_none (hi.empty_of_change hs hfs),
    fun fs hm => inside_eq_none (hi.empty_of_unmounted (hi.relies _ hm)),
    fun i hm => ?_, hi.uses, fun i => ⟨?_, hi.counted i⟩⟩
  · rw [Option.isSome_iff_ne_none]
    intro hn
    exact hi.empty_of_unmounted hn i _ hm rfl
  · rw [hi.counted i]
    exact Int.natCast_nonneg _

/-- A file system is mounted, and while a call is in its body another thread has begun to unmount:
    it waits at the first slot. -/
theorem no_call_past_unmount_waiting :
    ∃ s i, Run s ∧ .drain 0 ∈ s.threads ∧ .body i 0 ∈ s.threads ∧ s.fs = some 0 ∧ s.n i = 1 := by
  let i : Slot := ⟨0, by decide⟩
  have h1 := ((((Run.start.step .callMount).step (.mountLock 0 rfl rfl)).step
    (.mountTest 0 rfl rfl)).step (.mountMake 0 rfl)).step (.mountOpen 0 rfl)
  have h2 := ((((h1.step (.unlock 0 rfl)).step (.call i)).step (.enter i 0 rfl)).step
    (.look i 0 rfl)).step (.body i 0 0 rfl rfl)
  have h3 := (((h2.step .callUnmount).step (.unmountLock (.body i 0 ::ₘ 0) rfl rfl)).step
    (.unmountTest (.body i 0 ::ₘ 0) rfl)).step (.unmountClose (.body i 0 ::ₘ 0) rfl)
  have hd : Thread.drain 0 ∈ (.drain 0 ::ₘ .body i 0 ::ₘ 0 : Multiset Thread) :=
    Multiset.mem_cons_self ..
  have hb : Thread.body i 0 ∈ (.drain 0 ::ₘ .body i 0 ::ₘ 0 : Multiset Thread) :=
    Multiset.mem_cons_of_mem (Multiset.mem_cons_self ..)
  refine ⟨_, i, h3, hd, hb, (no_call_past_unmount h3).2.2.2.2.1 i 0 hb, ?_⟩
  rw [((no_call_past_unmount h3).2.2.2.2.2 i).2]
  decide

end ConcurrentFs.MountGate
