/-
  ConcurrentFs.Locks

  The lock manager under the invariant: what taking and giving back a reference, a
  lock or an open count does to the grips, for any number of threads.
-/
import ConcurrentFs.Holders

namespace ConcurrentFs

open Lib

/-! ## One lock entry -/

section Entry

variable {I : Image} {id : Nat} {entry : Option Entry} {e : Entry} {n : Int} {F : Multiset Grip}
  {p : EntryPtr} {o : Bool}

theorem Hold.Valid.congr {H : Hold} {F' : Multiset Grip} (h : H.Valid I id F)
    (hF : (∀ r ∈ F, r.opened = false) → ∀ r ∈ F', r.opened = false) : H.Valid I id F' where
  known := h.known
  unopened hu := ⟨(h.unopened hu).1, hF (h.unopened hu).2⟩

/-- An entry that somebody has a grip on is there. -/
theorem EntryOk.exists_entry {r : Grip} (h : EntryOk I id entry n (r ::ₘ F)) :
    ∃ e, entry = some e ∧ e.addr = r.ptr.addr ∧ Counted e (r ::ₘ F) := by
  cases he : entry with
  | none => exact absurd (h.gone he) (Multiset.cons_ne_zero)
  | some e =>
    obtain ⟨-, hc⟩ := h.there e he
    exact ⟨e, rfl, (hc.addr r (Multiset.mem_cons_self _ _)).symm, hc⟩

/-- `acquire`: one more grip. -/
theorem EntryOk.acquire (h : EntryOk I id entry n F) (a : Nat) :
    EntryOk I id (some { entry.getD (.new a) with refs := (entry.getD (.new a)).refs + 1 }) n
      (⟨⟨id, (entry.getD (.new a)).addr⟩, false, none⟩ ::ₘ F) := by
  have hc : Counted (entry.getD (.new a)) F := by
    cases he : entry with
    | none =>
      rw [h.gone he]
      exact ⟨rfl, fun r hr => absurd hr (Multiset.notMem_zero _), rfl, rfl, rfl, fun _ => rfl⟩
    | some e => exact (h.there e he).2
  have hcopy : (entry.getD (.new a)).inodeValid = true →
      (entry.getD (.new a)).inode = I.inode id ∧ I.tree.kind id = some .file := by
    cases he : entry with
    | none => exact nofun
    | some e => exact h.copy e he
  have hopen : ∀ r ∈ (⟨⟨id, (entry.getD (.new a)).addr⟩, false, none⟩ ::ₘ F : Multiset Grip),
      r.opened = true → r ∈ F := by
    intro r hr ho
    rcases Multiset.mem_cons.mp hr with rfl | hr
    · exact absurd ho Bool.false_ne_true
    · exact hr
  refine ⟨nofun, fun e he => ⟨Multiset.cons_ne_zero, ?_⟩, fun e he hv => ?_, fun r hr H hH => ?_,
    fun r hr ho => h.file r (hopen r hr ho) ho, ?_⟩
  · obtain rfl := Option.some.inj he
    refine ⟨?_, fun r hr => ?_, ?_, ?_, ?_, hc.apart⟩
    · rw [Multiset.card_cons, ← hc.refs]
    · rcases Multiset.mem_cons.mp hr with rfl | hr
      · rfl
      · exact hc.addr r hr
    · rw [openedIn_cons]
      exact hc.opened
    · rw [sharedIn_cons]
      exact hc.readers
    · rw [exclusiveIn_cons]
      exact hc.writer
  · obtain rfl := Option.some.inj he
    exact hcopy hv
  · rcases Multiset.mem_cons.mp hr with rfl | hr
    · exact absurd hH nofun
    · refine (h.holds r hr H hH).congr fun hF r' hr' => ?_
      rcases Multiset.mem_cons.mp hr' with rfl | hr'
      · rfl
      · exact hF r' hr'
  · rw [openedIn_cons]
    exact h.balance

/-- `release`: one grip less; the last one takes the entry with it. -/
theorem EntryOk.release (h : EntryOk I id (some e) n (⟨p, false, none⟩ ::ₘ F)) :
    EntryOk I id (if e.refs - 1 = 0 then none else some { e with refs := e.refs - 1 }) n F := by
  obtain ⟨-, hc⟩ := h.there e rfl
  have hrefs := hc.refs
  rw [Multiset.card_cons] at hrefs
  have hopened := hc.opened
  have hreaders := hc.readers
  have hwriter := hc.writer
  have hbal := h.balance
  rw [openedIn_cons] at hopened hbal
  rw [sharedIn_cons] at hreaders
  rw [exclusiveIn_cons] at hwriter
  have hmem : ∀ r ∈ F, r ∈ (⟨p, false, none⟩ ::ₘ F : Multiset Grip) := fun r hr =>
    Multiset.mem_cons_of_mem hr
  refine ⟨fun hn => ?_, fun e' he' => ?_, fun e' he' hv => ?_, fun r hr H hH => ?_,
    fun r hr ho => h.file r (hmem r hr) ho, hbal⟩
  · by_cases h0 : e.refs - 1 = 0
    · exact Multiset.card_eq_zero.mp (by omega)
    · rw [if_neg h0] at hn
      exact absurd hn nofun
  · by_cases h0 : e.refs - 1 = 0
    · rw [if_pos h0] at he'
      exact absurd he' nofun
    · rw [if_neg h0] at he'
      obtain rfl := Option.some.inj he'
      refine ⟨fun hF => h0 ?_, ?_, fun r hr => hc.addr r (hmem r hr), hopened, hreaders,
        hwriter, hc.apart⟩
      · rw [hF] at hrefs
        rw [hrefs]
        rfl
      · show e.refs - 1 = _
        omega
  · by_cases h0 : e.refs - 1 = 0
    · rw [if_pos h0] at he'
      exact absurd he' nofun
    · rw [if_neg h0] at he'
      obtain rfl := Option.some.inj he'
      exact h.copy e rfl hv
  · exact (h.holds r (hmem r hr) H hH).congr fun hF r' hr' => hF r' (hmem r' hr')

/-- The entry and one of its grips change, and the grip keeps its place. -/
theorem EntryOk.alter {e' : Entry} {m : Int} {r r' : Grip}
    (h : EntryOk I id (some e) n (r ::ₘ F)) (hc : Counted e (r ::ₘ F) → Counted e' (r' ::ₘ F))
    (hcopy : e'.inodeValid = true → e'.inode = e.inode ∧ e.inodeValid = true)
    (hhold : ∀ H, r'.hold = some H → H.Valid I id (r' ::ₘ F))
    (hothers : r'.opened = true → r.opened = false → ∀ u ∈ F, ∀ H, u.hold = some H →
      H.unopened = false)
    (hfile : r'.opened = true → I.tree.kind id = some .file)
    (hbal : m = openedIn (r' ::ₘ F)) :
    EntryOk I id (some e') m (r' ::ₘ F) := by
  refine ⟨nofun, fun e1 he1 => ?_, fun e1 he1 hv => ?_, fun u hu H hH => ?_,
    fun u hu ho => ?_, hbal⟩
  · obtain rfl := Option.some.inj he1
    exact ⟨Multiset.cons_ne_zero, hc (h.there e rfl).2⟩
  · obtain rfl := Option.some.inj he1
    obtain ⟨h1, h2⟩ := hcopy hv
    rw [h1]
    exact h.copy e rfl h2
  · rcases Multiset.mem_cons.mp hu with rfl | hu'
    · exact hhold H hH
    · have hv := h.holds u (Multiset.mem_cons_of_mem hu') H hH
      refine ⟨hv.known, fun hun => ⟨(hv.unopened hun).1, fun v hvm => ?_⟩⟩
      have hall := (hv.unopened hun).2
      rcases Multiset.mem_cons.mp hvm with rfl | hvm
      · by_contra ho
        rw [Bool.not_eq_false] at ho
        have := hothers ho (hall r (Multiset.mem_cons_self _ _)) u hu' H hH
        rw [hun] at this
        exact Bool.noConfusion this
      · exact hall v (Multiset.mem_cons_of_mem hvm)
  · rcases Multiset.mem_cons.mp hu with rfl | hu
    · exact hfile ho
    · exact h.file u (Multiset.mem_cons_of_mem hu) ho

/-- The counts after a grip has changed: what it adds has changed with it. -/
theorem Counted.alter {e' : Entry} {r r' : Grip} (hc : Counted e (r ::ₘ F)) (hptr : r'.ptr = r.ptr)
    (haddr : e'.addr = e.addr) (hrefs : e'.refs = e.refs)
    (hopened : e'.openCount + r.opened.toNat = e.openCount + r'.opened.toNat)
    (hreaders : e'.readers + r.shared.toNat = e.readers + r'.shared.toNat)
    (hwriter : e'.writer.toNat + r.exclusive.toNat = e.writer.toNat + r'.exclusive.toNat)
    (hapart : e'.writer = true → e'.readers = 0) : Counted e' (r' ::ₘ F) := by
  have h1 := hc.refs
  have h2 := hc.opened
  have h3 := hc.readers
  have h4 := hc.writer
  rw [Multiset.card_cons] at h1
  rw [openedIn_cons] at h2
  rw [sharedIn_cons] at h3
  rw [exclusiveIn_cons] at h4
  refine ⟨?_, fun u hu => ?_, ?_, ?_, ?_, hapart⟩
  · rw [Multiset.card_cons]
    omega
  · rw [haddr]
    rcases Multiset.mem_cons.mp hu with rfl | hu
    · rw [hptr]
      exact hc.addr r (Multiset.mem_cons_self _ _)
    · exact hc.addr u (Multiset.mem_cons_of_mem hu)
  · rw [openedIn_cons]
    omega
  · rw [sharedIn_cons]
    omega
  · rw [exclusiveIn_cons]
    omega

/-- What one grip adds to the counts. -/
theorem Counted.ge {r : Grip} (hc : Counted e (r ::ₘ F)) :
    r.opened.toNat ≤ e.openCount ∧ r.shared.toNat ≤ e.readers ∧
      r.exclusive.toNat ≤ e.writer.toNat := by
  have h2 := hc.opened
  have h3 := hc.readers
  have h4 := hc.writer
  rw [openedIn_cons] at h2
  rw [sharedIn_cons] at h3
  rw [exclusiveIn_cons] at h4
  omega

/-- The lock is taken. -/
theorem EntryOk.lock {H : Hold} (h : EntryOk I id (some e) n (⟨p, o, none⟩ ::ₘ F))
    (hfree : e.free H.exclusive = true) (hH : H.Valid I id (⟨p, o, some H⟩ ::ₘ F)) :
    EntryOk I id (some (if H.exclusive then { e with writer := true }
      else { e with readers := e.readers + 1 })) n (⟨p, o, some H⟩ ::ₘ F) := by
  unfold Entry.free at hfree
  simp only [Bool.and_eq_true, Bool.not_eq_true', Bool.or_eq_true, beq_iff_eq] at hfree
  have hbal := h.balance
  rw [openedIn_cons] at hbal
  refine h.alter (fun hc => ?_) (fun hv => ?_) (fun H' hH' => ?_) (fun h1 h2 => ?_)
    (fun ho => ?_) ?_
  · cases hx : H.exclusive with
    | true =>
      rw [hx] at hfree
      refine hc.alter rfl rfl rfl rfl ?_ ?_ fun _ => hfree.2.resolve_left nofun
      · simp [Grip.shared, hx]
      · simp [Grip.exclusive, hx, hfree.1]
    | false =>
      refine hc.alter rfl rfl rfl rfl ?_ ?_ fun hw => ?_
      · simp [Grip.shared, hx]
      · simp [Grip.exclusive, hx]
      · exact absurd (hfree.1.symm.trans hw) Bool.false_ne_true
  · split at hv
    · exact ⟨by rw [if_pos (by assumption)], hv⟩
    · exact ⟨by rw [if_neg (by assumption)], hv⟩
  · obtain rfl := Option.some.inj hH'
    exact hH
  · exact absurd (h2.symm.trans h1) Bool.false_ne_true
  · exact h.file ⟨p, o, none⟩ (Multiset.mem_cons_self _ _) ho
  · rw [openedIn_cons]
    exact hbal

/-- The lock is let go. -/
theorem EntryOk.unlock {H : Hold} (h : EntryOk I id (some e) n (⟨p, o, some H⟩ ::ₘ F)) :
    EntryOk I id (some (if H.exclusive then { e with writer := false }
      else { e with readers := e.readers - 1 })) n (⟨p, o, none⟩ ::ₘ F) := by
  have hbal := h.balance
  rw [openedIn_cons] at hbal
  refine h.alter (fun hc => ?_) (fun hv => ?_) (fun H' hH' => ?_) (fun h1 h2 => ?_)
    (fun ho => ?_) ?_
  · obtain ⟨-, hge2, hge3⟩ := hc.ge
    cases hx : H.exclusive with
    | true =>
      simp only [Grip.exclusive, Option.any_some, hx, Bool.toNat_true] at hge3
      refine hc.alter rfl rfl rfl rfl ?_ ?_ nofun
      · simp [Grip.shared, hx]
      · have : e.writer.toNat ≤ 1 := Bool.toNat_le _
        simp [Grip.exclusive, hx]
        omega
    | false =>
      simp only [Grip.shared, Option.any_some, hx, Bool.not_false, Bool.toNat_true] at hge2
      refine hc.alter rfl rfl rfl rfl ?_ ?_ fun hw => ?_
      · simp [Grip.shared, hx]
        omega
      · simp [Grip.exclusive, hx]
      · have := hc.apart hw
        show e.readers - 1 = 0
        omega
  · split at hv
    · exact ⟨by rw [if_pos (by assumption)], hv⟩
    · exact ⟨by rw [if_neg (by assumption)], hv⟩
  · exact absurd hH' nofun
  · exact absurd (h2.symm.trans h1) Bool.false_ne_true
  · exact h.file ⟨p, o, some H⟩ (Multiset.mem_cons_self _ _) ho
  · rw [openedIn_cons]
    exact hbal

/-- Beside an exclusive holder nobody holds the lock. -/
theorem EntryOk.alone {r : Grip} (h : EntryOk I id (some e) n (r ::ₘ F)) (hx : r.exclusive = true) :
    ∀ u ∈ F, u.hold = none := by
  obtain ⟨-, hc⟩ := h.there e rfl
  have h3 := hc.readers
  have h4 := hc.writer
  have hw1 : e.writer.toNat ≤ 1 := Bool.toNat_le _
  rw [sharedIn_cons] at h3
  rw [exclusiveIn_cons, hx, Bool.toNat_true] at h4
  have hw : e.writer = true := by
    by_contra hw
    rw [Bool.not_eq_true] at hw
    rw [hw] at h4
    simp at h4
  have h5 := hc.apart hw
  intro u hu
  obtain ⟨F', rfl⟩ := Multiset.exists_cons_of_mem hu
  rw [sharedIn_cons] at h3
  rw [exclusiveIn_cons] at h4
  cases hh : u.hold with
  | none => rfl
  | some H =>
    cases hxx : H.exclusive with
    | true =>
      have : u.exclusive.toNat = 1 := by simp [Grip.exclusive, hh, hxx]
      omega
    | false =>
      have : u.shared.toNat = 1 := by simp [Grip.shared, hh, hxx]
      omega

/-- Where somebody holds the lock, nobody else holds it exclusive. -/
theorem EntryOk.no_exclusive {r : Grip} (h : EntryOk I id (some e) n (r ::ₘ F))
    (hh : r.hold ≠ none) : ∀ u ∈ F, u.exclusive = false := by
  intro u hu
  obtain ⟨F', rfl⟩ := Multiset.exists_cons_of_mem hu
  by_contra hx
  rw [Bool.not_eq_false] at hx
  rw [Multiset.cons_swap] at h
  exact hh (h.alone hx r (Multiset.mem_cons_self _ _))

/-- An open is registered, under the lock. -/
theorem EntryOk.register {H : Hold} (h : EntryOk I id (some e) n
    (⟨p, false, none⟩ ::ₘ ⟨p, o, some H⟩ ::ₘ F))
    (hH : H.unopened = false) (hfile : I.tree.kind id = some .file) :
    EntryOk I id (some { e with openCount := e.openCount + 1 }) (n + 1)
      (⟨p, true, none⟩ ::ₘ ⟨p, o, some H⟩ ::ₘ F) := by
  have hbal := h.balance
  rw [openedIn_cons] at hbal
  refine h.alter (fun hc => ?_) (fun hv => ⟨rfl, hv⟩) (fun H' hH' => absurd hH' nofun)
    (fun _ _ u hu H' hH' => ?_) (fun _ => hfile) ?_
  · exact hc.alter rfl rfl rfl rfl rfl rfl hc.apart
  · rcases Multiset.mem_cons.mp hu with rfl | hu
    · obtain rfl := Option.some.inj hH'
      exact hH
    · -- nobody else holds the lock exclusive
      have h' := h
      rw [Multiset.cons_swap] at h'
      have hx := h'.no_exclusive (by exact nofun) u (Multiset.mem_cons_of_mem hu)
      by_contra hun
      rw [Bool.not_eq_false] at hun
      have := ((h.holds u (Multiset.mem_cons_of_mem (Multiset.mem_cons_of_mem hu)) H'
        hH').unopened hun).1
      rw [show u.exclusive = H'.exclusive by simp [Grip.exclusive, hH'], this] at hx
      exact Bool.noConfusion hx
  · rw [openedIn_cons, hbal]
    simp

/-- An open is given back. -/
theorem EntryOk.giveBack (h : EntryOk I id (some e) n (⟨p, true, none⟩ ::ₘ F)) :
    EntryOk I id (some { e with openCount := e.openCount - 1 }) (n - 1)
    (⟨p, false, none⟩ ::ₘ F) := by
  have hbal := h.balance
  rw [openedIn_cons] at hbal
  refine h.alter (fun hc => ?_) (fun hv => ⟨rfl, hv⟩) (fun H' hH' => absurd hH' nofun)
    nofun nofun ?_
  · have := hc.ge.1
    refine hc.alter rfl rfl rfl ?_ rfl rfl hc.apart
    simp only [Bool.toNat_true, Bool.toNat_false] at this ⊢
    omega
  · rw [openedIn_cons, hbal]
    simp

end Entry

/-! ## Hands -/

section Hands

variable {G : Multiset Grip} {t : Option Token} {v : Option (Nat × Option (Nat × UInt32))}
  {r r' : Grip}

theorem Hands.Ok.addGrip (h : Hands.Ok ⟨G, t, v⟩) (hr : r.opened = false) :
    Hands.Ok ⟨r ::ₘ G, t, v⟩ where
  opened u hu ho := by
    rcases Multiset.mem_cons.mp hu with rfl | hu
    · exact absurd (hr.symm.trans ho) Bool.false_ne_true
    · exact h.opened u hu ho
  token t' p flags off ht hl := by
    obtain ⟨u, hu, hrest⟩ := h.token t' p flags off ht hl
    exact ⟨u, Multiset.mem_cons_of_mem hu, hrest⟩
  dead := h.dead
  resv fd x flags hv := by
    rcases h.resv fd x flags hv with ⟨u, hu, hrest⟩ | ⟨u, hu, hrest⟩
    · exact .inl ⟨u, Multiset.mem_cons_of_mem hu, hrest⟩
    · exact .inr ⟨u, Multiset.mem_cons_of_mem hu, hrest⟩

theorem Hands.Ok.dropGrip (h : Hands.Ok ⟨r ::ₘ G, t, v⟩) (hr : r.opened = false)
    (hh : r.hold = none) : Hands.Ok ⟨G, t, v⟩ where
  opened u hu ho := h.opened u (Multiset.mem_cons_of_mem hu) ho
  token t' p flags off ht hl := by
    obtain ⟨u, hu, ho, hp⟩ := h.token t' p flags off ht hl
    rcases Multiset.mem_cons.mp hu with rfl | hu
    · exact absurd (hr.symm.trans ho) Bool.false_ne_true
    · exact ⟨u, hu, ho, hp⟩
  dead := h.dead
  resv fd x flags hv := by
    rcases h.resv fd x flags hv with ⟨u, hu, ho, hp⟩ | ⟨u, hu, H, K, hH, hrest⟩
    · rcases Multiset.mem_cons.mp hu with rfl | hu
      · exact absurd (hr.symm.trans ho) Bool.false_ne_true
      · exact .inl ⟨u, hu, ho, hp⟩
    · rcases Multiset.mem_cons.mp hu with rfl | hu
      · exact absurd (hh.symm.trans hH) nofun
      · exact .inr ⟨u, hu, H, K, hH, hrest⟩

/-- A grip changes its hold.  If that is what keeps a file just made, its grip must be there
    already. -/
theorem Hands.Ok.alterHold (h : Hands.Ok ⟨r ::ₘ G, t, v⟩) (hp : r'.ptr = r.ptr)
    (ho : r'.opened = r.opened)
    (hdue : r.hold = none ∨ ∀ fd x flags, v = some (fd, some (x, flags)) →
      ∃ u ∈ G, u.opened = true ∧ u.ptr.id = x) : Hands.Ok ⟨r' ::ₘ G, t, v⟩ where
  opened u hu hop := by
    rcases Multiset.mem_cons.mp hu with rfl | hu
    · rw [hp]
      exact h.opened r (Multiset.mem_cons_self _ _) (ho.symm.trans hop)
    · exact h.opened u (Multiset.mem_cons_of_mem hu) hop
  token t' p flags off ht hl := by
    obtain ⟨u, hu, hop, hpt⟩ := h.token t' p flags off ht hl
    rcases Multiset.mem_cons.mp hu with rfl | hu
    · exact ⟨r', Multiset.mem_cons_self _ _, ho.trans hop, hp.trans hpt⟩
    · exact ⟨u, Multiset.mem_cons_of_mem hu, hop, hpt⟩
  dead := h.dead
  resv fd x flags hv := by
    rcases h.resv fd x flags hv with ⟨u, hu, hop, hpt⟩ | ⟨u, hu, H, K, hH, hrest⟩
    · rcases Multiset.mem_cons.mp hu with rfl | hu
      · exact .inl ⟨r', Multiset.mem_cons_self _ _, ho.trans hop, by rw [hp]; exact hpt⟩
      · exact .inl ⟨u, Multiset.mem_cons_of_mem hu, hop, hpt⟩
    · rcases Multiset.mem_cons.mp hu with rfl | hu
      · rcases hdue with h0 | hdue
        · exact absurd (h0.symm.trans hH) nofun
        · obtain ⟨w, hw, hop, hpt⟩ := hdue fd x flags hv
          exact .inl ⟨w, Multiset.mem_cons_of_mem hw, hop, hpt⟩
      · exact .inr ⟨u, Multiset.mem_cons_of_mem hu, H, K, hH, hrest⟩

end Hands

/-! ## The steps -/

section Steps

variable {sb : Superblock} {s s' : FileSystem} {W : World} {κ α δ β : Type}
  {legal : World → κ → Deed δ α World → Prop} {fin : κ → α → List (Deed δ α World) → Prop}
  {D : Diary κ α δ World} {G : Multiset Grip} {t : Option Token}
  {v : Option (Nat × Option (Nat × UInt32))} {rest : Multiset Hands}
  {U : Unit → Ghost Hands κ α δ World → Prop} {E : Exn → Ghost Hands κ α δ World → Prop}

theorem Shows.still {I : Image} {r : Side} (h : Shows sb s I r) (hd : s'.disk = s.disk)
    (hi : s'.inodes = s.inodes) (hb : s'.blocks = s.blocks) : Shows sb s' I s'.side where
  image := by rw [hd]; exact h.image
  inodeCount := by rw [hi]; exact h.inodeCount
  blockCount := by rw [hb]; exact h.blockCount
  inodeBit := by rw [hi]; exact h.inodeBit
  blockBit := by rw [hb]; exact h.blockBit
  side := rfl

theorem FileSystem.entryAt_of {p : EntryPtr} {e : Entry} (he : s.entries p.id = some e)
    (ha : e.addr = p.addr) : s.entryAt p = some e := by
  unfold FileSystem.entryAt
  rw [he, Option.filter_some, if_pos (by simp [ha])]

theorem FileSystem.mapEntry_of {p : EntryPtr} {e : Entry} (he : s.entries p.id = some e)
    (ha : e.addr = p.addr) (f : Entry → Entry) : s.mapEntry p f = s.setEntry p.id (some (f e)) := by
  unfold FileSystem.mapEntry
  rw [FileSystem.entryAt_of he ha]

/-- The entry under a grip. -/
theorem Body.exists_entry {r : Grip} (hb : Body sb s W (⟨r ::ₘ G, t, v⟩ ::ₘ rest)) :
    ∃ e R, s.entries r.ptr.id = some e ∧ e.addr = r.ptr.addr ∧
      EntryOk W.image r.ptr.id (some e) (openBalance s.opens r.ptr.id)
        (r ::ₘ (on r.ptr.id G + R)) := by
  have he := hb.entry r.ptr.id
  rw [allGrips_cons, on_add, on_cons_self rfl, Multiset.cons_add] at he
  obtain ⟨e, h1, h2, -⟩ := he.exists_entry
  rw [h1] at he
  exact ⟨e, _, h1, h2, he⟩

/-- One grip and the entry under it change; nothing else does. -/
theorem Body.alter {r r' : Grip} (hb : Body sb s W (⟨r ::ₘ G, t, v⟩ ::ₘ rest))
    (hshow : Shows sb s' W.image s'.side) (hfiles : s'.files = s.files)
    (hopens : ∀ j, j ≠ r.ptr.id → openBalance s'.opens j = openBalance s.opens j)
    (hptr : r'.ptr = r.ptr)
    (hentry : ∀ e R, s.entries r.ptr.id = some e → EntryOk W.image r.ptr.id (some e)
        (openBalance s.opens r.ptr.id) (r ::ₘ (on r.ptr.id G + R)) →
      ∃ e', s'.entries = Function.update s.entries r.ptr.id (some e') ∧
        EntryOk W.image r.ptr.id (some e') (openBalance s'.opens r.ptr.id)
          (r' ::ₘ (on r.ptr.id G + R)))
    (hok : Hands.Ok ⟨r ::ₘ G, t, v⟩ → Hands.Ok ⟨r' ::ₘ G, t, v⟩) :
    Body sb s' W (⟨r' ::ₘ G, t, v⟩ ::ₘ rest) := by
  obtain ⟨e, R, he, -, hR⟩ := hb.exists_entry
  obtain ⟨e', hupd, -⟩ := hentry e R he hR
  refine hb.regrip r.ptr.id hshow hfiles (fun j hj => ⟨?_, hopens j hj⟩) rfl rfl (fun j hj => ?_)
    (fun R' hR' => ?_) hok
  · rw [hupd, Function.update_of_ne hj]
  · show on j (r' ::ₘ G) = on j (r ::ₘ G)
    rw [on_cons_other (fun h0 => hj (by rw [← h0, hptr])), on_cons_other (Ne.symm hj)]
  · rw [show on r.ptr.id (r ::ₘ G) = r ::ₘ on r.ptr.id G from on_cons_self rfl, Multiset.cons_add,
      he] at hR'
    obtain ⟨e'', hupd', hfin⟩ := hentry e R' he hR'
    rw [show on r.ptr.id (r' ::ₘ G) = r' ::ₘ on r.ptr.id G from on_cons_self (by rw [hptr]),
      Multiset.cons_add, hupd', Function.update_self]
    exact hfin

/-- `LockManager::acquire`. -/
theorem acquire_safe {id : Nat} {Q : EntryPtr → Ghost Hands κ α δ World → Prop}
    (hQ : ∀ a, Q ⟨id, a⟩ ⟨⟨⟨⟨id, a⟩, false, none⟩ ::ₘ G, t, v⟩, D⟩) :
    (acquire id).Safe (shared (Body sb) legal fin) ⟨⟨G, t, v⟩, D⟩ Q E := by
  refine safe_step fun s W rest hb => ⟨.inl rfl, fun _ => ?_⟩
  refine Shift.quiet ?_ (hQ (s.entryOrNew id).addr)
  refine hb.regrip id (hb.shows.still rfl rfl rfl) rfl (fun j hj => ⟨?_, rfl⟩) rfl rfl
    (fun j hj => ?_)
    (fun R hR => ?_) fun hok => hok.addGrip rfl
  · exact Function.update_of_ne hj _ _
  · exact on_cons_other (Ne.symm hj)
  · rw [show on id (⟨⟨id, (s.entryOrNew id).addr⟩, false, none⟩ ::ₘ G)
      = ⟨⟨id, (s.entryOrNew id).addr⟩, false, none⟩ ::ₘ on id G from on_cons_self rfl,
      Multiset.cons_add]
    rw [show (s.acquired id).entries id
      = some { s.entryOrNew id with refs := (s.entryOrNew id).refs + 1 } from
        Function.update_self _ _ _]
    exact hR.acquire s.made

/-- `LockManager::release`. -/
theorem release_safe {p : EntryPtr} (hU : U () ⟨⟨G, t, v⟩, D⟩) :
    (release p.id).Safe (shared (Body sb) legal fin) ⟨⟨⟨p, false, none⟩ ::ₘ G, t, v⟩, D⟩ U E := by
  refine safe_step fun s W rest hb => ⟨.inl rfl, fun _ => ?_⟩
  refine Shift.quiet ?_ hU
  obtain ⟨e, R, he, -, hR⟩ := hb.exists_entry
  dsimp only at he hR
  have hrel : s.released p.id
      = s.setEntry p.id (if e.refs - 1 = 0 then none else some { e with refs := e.refs - 1 }) := by
    unfold FileSystem.released
    rw [he]
  rw [hrel]
  refine hb.regrip p.id (hb.shows.still rfl rfl rfl) rfl (fun j hj => ⟨?_, rfl⟩) rfl rfl
    (fun j hj => ?_)
    (fun R' hR' => ?_) fun hok => hok.dropGrip rfl rfl
  · exact Function.update_of_ne hj _ _
  · exact (on_cons_other (r := ⟨p, false, none⟩) (Ne.symm hj)).symm
  · rw [show on p.id (⟨p, false, none⟩ ::ₘ G) = ⟨p, false, none⟩ ::ₘ on p.id G from
      on_cons_self rfl,
      Multiset.cons_add, he] at hR'
    rw [show (s.setEntry p.id (if e.refs - 1 = 0 then none else some
      { e with refs := e.refs - 1 })).entries
      p.id = _ from Function.update_self _ _ _]
    exact hR'.release

/-- A descriptor that nobody is using holds no lock. -/
theorem hold_of_idle {files : Nat → OpenFile} {r : Grip} (hr : r ∈ idleGrips files) :
    r.hold = none ∧ r.opened = true ∧
      ∃ fd, fd < maxOpen ∧ (files fd).op = false ∧ (files fd).lock = some r.ptr := by
  unfold idleGrips at hr
  obtain ⟨fd, hfd, hr⟩ := Multiset.mem_sum.mp hr
  unfold OpenFile.idleGrips at hr
  cases hop : (files fd).op with
  | true =>
    rw [hop, if_pos rfl] at hr
    exact absurd hr (Multiset.notMem_zero _)
  | false =>
    rw [hop, if_neg Bool.false_ne_true] at hr
    cases hl : (files fd).lock with
    | none =>
      rw [hl] at hr
      exact absurd hr (Multiset.notMem_zero _)
    | some p =>
      rw [hl] at hr
      obtain rfl := Multiset.mem_singleton.mp hr
      exact ⟨rfl, rfl, fd, Finset.mem_range.mp hfd, hop, hl⟩

/-- A lock that nobody holds can be taken. -/
theorem EntryOk.free_of {I : Image} {id : Nat} {e : Entry} {n : Int} {F : Multiset Grip}
    (h : EntryOk I id (some e) n F) (hF : ∀ r ∈ F, r.hold = none) (exclusive : Bool) :
    e.free exclusive = true := by
  obtain ⟨-, hc⟩ := h.there e rfl
  have hr : e.readers = 0 := by
    rw [hc.readers]
    refine Multiset.countP_eq_zero.mpr fun r hr => ?_
    simp [Grip.shared, hF r hr]
  have hw : e.writer.toNat = 0 := by
    rw [hc.writer]
    refine Multiset.countP_eq_zero.mpr fun r hr => ?_
    simp [Grip.exclusive, hF r hr]
  have hw' : e.writer = false := by
    by_contra h1
    rw [Bool.not_eq_false] at h1
    rw [h1] at hw
    exact absurd hw (by decide)
  simp [Entry.free, hr, hw']

/-- Taking a lock: the inode has a place, of which `P` is true, and the thread does not hold its
    lock already. -/
theorem lockEntry_safe {p : EntryPtr} {o exclusive : Bool} {P : Known → Prop}
    (hself : ∀ r ∈ G, r.ptr.id = p.id → r.hold = none)
    (hat : ∀ s W rest, Body sb s W (⟨⟨p, o, none⟩ ::ₘ G, t, v⟩ ::ₘ rest) →
      ∃ path, W.image.tree.At path p.id ∧ P (W.image.known p.id path) ∧
        Ranked.rank (⟨G, t, v⟩ : Hands) ≤ ((1 + path.length : Nat) : ℕ∞))
    (hU : ∀ K, P K →
      U () ⟨⟨⟨p, o, some ⟨exclusive, some K, false⟩⟩ ::ₘ G, t, v⟩, D⟩) :
    (lockEntry p exclusive).Safe (shared (Body sb) legal fin)
    ⟨⟨⟨p, o, none⟩ ::ₘ G, t, v⟩, D⟩ U E := by
  refine safe_step fun s W rest hb => ?_
  obtain ⟨e, R, he, ha, hR⟩ := hb.exists_entry
  dsimp only at he ha hR
  rw [FileSystem.entryAt_of he ha]
  obtain ⟨path, hpath, hP, hrank⟩ := hat s W rest hb
  refine ⟨?_, fun hr => ?_⟩
  · by_cases hfree : e.free exclusive = true
    · exact .inl hfree
    · -- somebody has the lock, and it is further down than all the thread holds
      refine .inr ?_
      obtain ⟨r, hr, hheld⟩ : ∃ r ∈ on p.id (allGrips s.files
        (⟨⟨p, o, none⟩ ::ₘ G, t, v⟩ ::ₘ rest)),
          r.hold ≠ none := by
        by_contra hno
        push Not at hno
        have hF := hb.entry p.id
        rw [he] at hF
        exact hfree (hF.free_of hno exclusive)
      obtain ⟨H, hH⟩ := Option.ne_none_iff_exists'.mp hheld
      have hvalid := (hb.entry p.id).holds r hr H hH
      obtain ⟨hmem, hid⟩ := mem_on.mp hr
      rcases mem_allGrips.mp hmem with ⟨h', hh', hr'⟩ | hidle
      · rcases Multiset.mem_cons.mp hh' with rfl | hh'
        · rcases Multiset.mem_cons.mp hr' with rfl | hr'
          · cases hH
          · exact absurd (hself r hr' hid) hheld
        · refine ⟨h', hh', lt_of_lt_of_le (lt_of_le_of_lt
            (b := ((1 + path.length : Nat) : ℕ∞)) ?_ ?_) (le_rank hr')⟩
          · refine rank_le (le_trans ?_ hrank) fun u hu => ?_
            · exact le_sup_left
            · rcases Multiset.mem_cons.mp hu with rfl | hu
              · exact bot_le
              · exact (le_rank (h := ⟨G, t, v⟩) hu).trans hrank
          · rw [Grip.depth, hH]
            show _ < H.depth
            cases hK : H.known with
            | none =>
              rw [Hold.depth, hK]
              exact ENat.natCast_lt_top _
            | some K =>
              obtain ⟨-, -, hat'⟩ := hvalid.known K hK
              have hrules : W.image.tree.Rules := hb.cons.tree
              rw [Hold.depth, hK]
              show ((1 + path.length : Nat) : ℕ∞) < ((2 + K.path.length : Nat) : ℕ∞)
              rw [hrules.at_injective hat' hpath, Nat.cast_lt]
              omega
      · exact absurd (hold_of_idle hidle).1 hheld
  · refine Shift.quiet (g := ⟨⟨p, o, some ⟨exclusive, some (W.image.known p.id path),
      false⟩⟩ ::ₘ G, t, v⟩) ?_ (hU _ hP)
    rw [FileSystem.mapEntry_of he ha]
    refine hb.alter (hb.shows.still rfl rfl rfl) rfl (fun _ _ => rfl) rfl (fun e' R' he' hR' => ?_)
      fun hok => hok.alterHold rfl rfl (.inl rfl)
    obtain rfl := Option.some.inj (he.symm.trans he')
    refine ⟨_, rfl, ?_⟩
    exact hR'.lock (H := ⟨exclusive, some (W.image.known p.id path), false⟩) hr
      ⟨fun K hK => by
        obtain rfl := Option.some.inj hK
        exact ⟨rfl, rfl, hpath⟩, by intros; contradiction⟩

/-- Letting go of a lock. -/
theorem unlockEntry_safe {p : EntryPtr} {o exclusive : Bool} {H : Hold}
    (hx : H.exclusive = exclusive)
    (hdue : ∀ fd x flags, v = some (fd, some (x, flags)) → ∃ u ∈ G, u.opened = true ∧ u.ptr.id = x)
    (hU : U () ⟨⟨⟨p, o, none⟩ ::ₘ G, t, v⟩, D⟩) :
    (unlockEntry p exclusive).Safe (shared (Body sb) legal fin)
      ⟨⟨⟨p, o, some H⟩ ::ₘ G, t, v⟩, D⟩ U E := by
  refine safe_step fun s W rest hb => ⟨.inl rfl, fun _ => ?_⟩
  obtain ⟨e, R, he, ha, hR⟩ := hb.exists_entry
  dsimp only at he ha hR
  rw [FileSystem.entryAt_of he ha]
  refine Shift.quiet ?_ hU
  rw [FileSystem.mapEntry_of he ha, ← hx]
  refine hb.alter (hb.shows.still rfl rfl rfl) rfl (fun _ _ => rfl) rfl (fun e' R' he' hR' => ?_)
    fun hok => hok.alterHold rfl rfl (.inr hdue)
  obtain rfl := Option.some.inj (he.symm.trans he')
  exact ⟨_, rfl, hR'.unlock⟩

/-- The constructor of `InodeLock`. -/
theorem lockInode_safe {id : Nat} {exclusive : Bool} (P : Known → Prop)
    {Q : InodeLock → Ghost Hands κ α δ World → Prop}
    (hself : ∀ r ∈ G, r.ptr.id = id → r.hold = none)
    (hat : ∀ a s W rest, Body sb s W (⟨⟨⟨id, a⟩, false, none⟩ ::ₘ G, t, v⟩ ::ₘ rest) →
      ∃ path, W.image.tree.At path id ∧ P (W.image.known id path) ∧
        Ranked.rank (⟨G, t, v⟩ : Hands) ≤ ((1 + path.length : Nat) : ℕ∞))
    (hQ : ∀ a K, P K →
      Q ⟨⟨id, a⟩, exclusive⟩ ⟨⟨⟨⟨id, a⟩, false, some ⟨exclusive, some K, false⟩⟩ ::ₘ G, t, v⟩, D⟩) :
    (lockInode id exclusive).Safe (shared (Body sb) legal fin) ⟨⟨G, t, v⟩, D⟩ Q E := by
  refine Prog.Safe.bind _ (acquire_safe fun a => ?_)
  refine Prog.Safe.bind _ (lockEntry_safe (p := ⟨id, a⟩) hself (hat a) fun K hK => ?_)
  exact hQ a K hK

/-- `InodeLock::drop`. -/
theorem dropLock_safe {l : InodeLock} {H : Hold} (hx : H.exclusive = l.exclusive)
    (hdue : ∀ fd x flags, v = some (fd, some (x, flags)) → ∃ u ∈ G, u.opened = true ∧ u.ptr.id = x)
    (hU : U () ⟨⟨G, t, v⟩, D⟩) :
    (dropLock l).Safe (shared (Body sb) legal fin)
      ⟨⟨⟨l.entry, false, some H⟩ ::ₘ G, t, v⟩, D⟩ U E :=
  Prog.Safe.bind _ (unlockEntry_safe hx hdue (release_safe hU))

/-- What a thread knows under a lock is true. -/
theorem Body.known {p : EntryPtr} {o : Bool} {H : Hold} {K : Known}
    (hb : Body sb s W (⟨⟨p, o, some H⟩ ::ₘ G, t, v⟩ ::ₘ rest)) (hK : H.known = some K) :
    K.ino = W.image.inode p.id ∧ K.ents = W.image.tree.entry p.id ∧
    W.image.tree.At K.path p.id := by
  obtain ⟨e, R, he, ha, hR⟩ := hb.exists_entry
  exact (hR.holds _ (Multiset.mem_cons_self _ _) H rfl).known K hK

end Steps

end ConcurrentFs
