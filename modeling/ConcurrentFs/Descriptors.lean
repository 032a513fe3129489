/-
  ConcurrentFs.Descriptors

  The open file table under the invariant, for any number of threads: taking and
  giving back a slot, holding its mutex, filling it in, emptying it, and moving its
  offset, with the open counts that go with it.
-/
import ConcurrentFs.Lookup

namespace ConcurrentFs

open Lib

/-! ## Deeds -/

section Deeds

variable {sb : Superblock} {s : FileSystem} {W W' : World} {rest : Multiset Hands} {c : Call}
  {a : Reply} {h : Hands} {D D' D'' : Diary Call Reply Act World} {act : Act}
  {R : Ghost Hands Call Reply Act World → Prop} {ph ph' : Phase Call Reply}

theorem Went.refl (hp : D.phase = ph) : Went D [] ph D := ⟨rfl, hp, (List.append_nil _).symm⟩

theorem Went.trans {acts acts' : List Act} (h : Went D acts ph D') (h' : Went D' acts' ph' D'') :
    Went D (acts ++ acts') ph' D'' where
  thread := h'.thread.trans h.thread
  phase := h'.phase
  acts := by rw [h'.acts, h.acts, List.append_assoc]

/-- A deed that settles nothing. -/
theorem Shift.note (act : Act) (W' : World) (hb : Body sb s W' (h ::ₘ rest))
    (hp : D.phase.call = some c)
    (hd : act.Does sb W W') (habs : W'.abs = W.abs)
    (hR : ∀ D', Went D [act] D.phase D' → R ⟨h, D'⟩) :
    Shift (Body sb) (Legal sb) s W rest D R := by
  refine ⟨h, ⟨D.thread, D.phase, D.own ++ [⟨act, none, W'⟩]⟩, W', ?_, hb,
    hR _ ⟨rfl, rfl, by simp [Diary.acts]⟩⟩
  refine Note.deed (c := c) (d := ⟨act, none, W'⟩) ?_ ⟨hd, habs⟩
  cases hph : D.phase with
  | idle =>
    rw [hph] at hp
    exact absurd hp (by intro h; contradiction)
  | called c' =>
    rw [hph] at hp
    obtain rfl := Option.some.inj hp
    exact .before rfl
  | decided c' a' =>
    rw [hph] at hp
    obtain rfl := Option.some.inj hp
    exact .after rfl

/-- A deed that settles the answer. -/
theorem Shift.settle (act : Act) (W' : World) (hb : Body sb s W' (h ::ₘ rest))
    (hp : D.phase = .called c)
    (hd : act.Does sb W W') (hdec : Decides sb c a W W')
    (hR : ∀ D', Went D [act] (.decided c a) D' → R ⟨h, D'⟩) :
    Shift (Body sb) (Legal sb) s W rest D R := by
  refine ⟨h, ⟨D.thread, .decided c a, D.own ++ [⟨act, some a, W'⟩]⟩, W', ?_, hb,
    hR _ ⟨rfl, rfl, by simp [Diary.acts]⟩⟩
  refine Note.deed (c := c) (d := ⟨act, some a, W'⟩) ?_ ⟨hd, hdec⟩
  rw [hp]
  exact .settle rfl

/-- A change of a slot that keeps what it stands for. -/
theorem World.put_abs {fd : Nat} {f : FdState} (h : f.inode = (W.slot fd).inode) :
    (W.put fd f).abs = W.abs := by
  unfold World.abs World.put
  congr 1
  funext k
  dsimp only
  by_cases hk : k = fd
  · rw [hk, Function.update_self, h]
  · rw [Function.update_of_ne hk]

end Deeds

/-! ## One slot -/

section Slots

variable {fd : Nat} {h h' : Hands} {hs : Multiset Hands} {G : Multiset Grip} {t : Token}
  {v : Option (Nat × Option (Nat × UInt32))}

theorem tokensOn_cons : tokensOn fd (h ::ₘ hs) = tokensOn fd {h} + tokensOn fd hs := by
  unfold tokensOn
  rw [← Multiset.singleton_add, Multiset.filterMap_add, Multiset.filter_add]

theorem resvsOn_cons : resvsOn fd (h ::ₘ hs) = resvsOn fd {h} + resvsOn fd hs := by
  unfold resvsOn
  rw [← Multiset.singleton_add, Multiset.filterMap_add, Multiset.filter_add]

theorem tokensOn_some : tokensOn fd {⟨G, some t, v⟩} = if t.fd = fd then {t} else 0 := by
  unfold tokensOn
  rw [← Multiset.cons_zero, Multiset.filterMap_cons_some Hands.token _ _ (b := t) rfl,
    Multiset.filterMap_zero]
  exact Multiset.filter_singleton _

@[simp] theorem tokensOn_none : tokensOn fd {⟨G, none, v⟩} = 0 := rfl

theorem resvsOn_some {u : Option Token} {w : Nat × Option (Nat × UInt32)} :
    resvsOn fd {⟨G, u, some w⟩} = if w.1 = fd then {w} else 0 := by
  unfold resvsOn
  rw [← Multiset.cons_zero, Multiset.filterMap_cons_some Hands.resv _ _ (b := w) rfl,
    Multiset.filterMap_zero]
  exact Multiset.filter_singleton _

@[simp] theorem resvsOn_none {u : Option Token} : resvsOn fd {⟨G, u, none⟩} = 0 := rfl

/-- Changing one slot of the table. -/
theorem idleGrips_update (files : Nat → OpenFile) {fd : Nat} (hfd : fd < maxOpen) (f : OpenFile) :
    idleGrips (Function.update files fd f) + (files fd).idleGrips
      = idleGrips files + f.idleGrips := by
  unfold idleGrips
  have hmem := Finset.mem_range.mpr hfd
  rw [← Finset.add_sum_erase _ _ hmem,
    ← Finset.add_sum_erase _ (fun fd => (files fd).idleGrips) hmem,
    Function.update_self]
  have hrest : ∑ k ∈ (Finset.range maxOpen).erase fd, (Function.update files fd f k).idleGrips
      = ∑ k ∈ (Finset.range maxOpen).erase fd, (files k).idleGrips := by
    refine Finset.sum_congr rfl fun k hk => ?_
    rw [Function.update_of_ne (Finset.ne_of_mem_erase hk)]
  rw [hrest, add_comm f.idleGrips, add_comm (files fd).idleGrips, add_right_comm]

end Slots

/-! ## What may become of a slot -/

/-- What the mutex of a slot gives access to. -/
def FdState.access (sl : FdState) (f : OpenFile) : Option (EntryPtr × UInt32 × Nat) :=
  match sl with
  | live _ flags off => f.lock.map fun p => (p, flags, off)
  | _ => none

section Transitions

variable {f : OpenFile} {sl : FdState} {fd x : Nat} {flags : UInt32} {off : Nat}
  {T : Multiset Token} {X : Multiset (Nat × Option (Nat × UInt32))} {t : Token}
  {v : Nat × Option (Nat × UInt32)} {p : EntryPtr}

/-- Who has the mutex has it alone. -/
theorem SlotOk.held (h : SlotOk f sl fd (t ::ₘ T) X) : f.op = true ∧ T = 0 := by
  have hop := h.op
  rw [Multiset.card_cons] at hop
  cases hf : f.op with
  | false =>
    rw [hf, if_neg Bool.false_ne_true] at hop
    omega
  | true =>
    rw [hf, if_pos rfl] at hop
    exact ⟨rfl, Multiset.card_eq_zero.mp (by omega)⟩

/-- A slot is reserved once. -/
theorem SlotOk.reservation (h : SlotOk f sl fd T (v ::ₘ X)) : sl = .reserved v.2 ∧
    v.1 = fd ∧ X = 0 := by
  have hr := h.reserved
  cases sl with
  | free => exact absurd hr Multiset.cons_ne_zero
  | live x flags off => exact absurd hr Multiset.cons_ne_zero
  | reserved file =>
    have hcard := congrArg Multiset.card hr
    rw [Multiset.card_cons] at hcard
    have hX : X = 0 := Multiset.card_eq_zero.mp (Nat.succ.inj hcard)
    rw [hX] at hr
    obtain rfl := Multiset.singleton_inj.mp hr
    exact ⟨rfl, rfl, hX⟩

theorem SlotOk.free (h : SlotOk f .free fd T X) : X = 0 := h.reserved

theorem SlotOk.reserve (h : SlotOk f .free fd T X) (hlt : fd < maxOpen) :
    SlotOk { f with inUse := true } (.reserved none) fd T ((fd, none) ::ₘ X) where
  op := h.op
  inUse := ⟨fun _ => by intro h; contradiction, fun _ => rfl⟩
  lt _ := hlt
  reserved := by rw [h.free]; rfl
  open_ := by intros; contradiction
  shut _ := h.shut (by intros; intro h; contradiction)
  closed _ := h.closed (by intros; intro h; contradiction)

theorem SlotOk.release (h : SlotOk f (.reserved none) fd T ((fd, none) ::ₘ X)) :
    SlotOk { f with inUse := false } .free fd T X where
  op := h.op
  inUse := ⟨fun h => absurd h Bool.false_ne_true, fun h => absurd rfl h⟩
  lt h := absurd rfl h
  reserved := h.reservation.2.2
  open_ := by intros; contradiction
  shut _ := h.shut (by intros; intro h; contradiction)
  closed _ := h.closed (by intros; intro h; contradiction)

/-- The mutex is taken. -/
theorem SlotOk.take (h : SlotOk f sl fd T X) (hop : f.op = false) :
    SlotOk { f with op := true } sl fd (⟨fd, sl.access f, false⟩ ::ₘ T) X := by
  have hT : T = 0 := by
    have := h.op
    rw [hop, if_neg Bool.false_ne_true] at this
    exact Multiset.card_eq_zero.mp this
  subst hT
  refine ⟨rfl, h.inUse, h.lt, h.reserved, fun x flags off hsl => ?_, fun hsl t ht => ?_,
    fun hsl _ => h.closed hsl fun t ht => absurd ht (Multiset.notMem_zero t)⟩
  · obtain ⟨h1, h2, h3, h4, q, h5, h6, -⟩ := h.open_ x flags off hsl
    refine ⟨h1, h2, h3, h4, q, h5, h6, fun t ht => ?_⟩
    rw [Multiset.mem_singleton.mp ht, hsl]
    show f.lock.map _ = _
    rw [h5]
    rfl
  · rw [Multiset.mem_singleton.mp ht]
    cases sl with
    | free => rfl
    | reserved file => rfl
    | live x flags off => exact absurd rfl (hsl x flags off)

/-- The mutex is let go. -/
theorem SlotOk.drop (h : SlotOk f sl fd (t ::ₘ T) X) (hdead : t.dead = false) :
    SlotOk { f with op := false } sl fd T X := by
  obtain ⟨-, rfl⟩ := h.held
  refine ⟨rfl, h.inUse, h.lt, h.reserved, fun x flags off hsl => ?_,
    fun _ t ht => absurd ht (Multiset.notMem_zero t), fun hsl _ => h.closed hsl fun u hu => ?_⟩
  · obtain ⟨h1, h2, h3, h4, q, h5, h6, -⟩ := h.open_ x flags off hsl
    exact ⟨h1, h2, h3, h4, q, h5, h6, fun t ht => absurd ht (Multiset.notMem_zero t)⟩
  · rw [Multiset.mem_singleton.mp hu]
    exact hdead

/-- An open is settled. -/
theorem SlotOk.settle (h : SlotOk f (.reserved none) fd T ((fd, none) ::ₘ X)) (x : Nat)
    (flags : UInt32) :
    SlotOk f (.reserved (some (x, flags))) fd T ((fd, some (x, flags)) ::ₘ X) where
  op := h.op
  inUse := ⟨fun _ => by intro h; contradiction, fun _ => h.inUse.mpr (by intro h; contradiction)⟩
  lt _ := h.lt (by intro h; contradiction)
  reserved := by rw [h.reservation.2.2]; rfl
  open_ := by intros; contradiction
  shut _ := h.shut (by intros; intro h; contradiction)
  closed _ := h.closed (by intros; intro h; contradiction)

/-- An open fills its slot in. -/
theorem SlotOk.fill
    (h : SlotOk f (.reserved (some (x, flags))) fd (t ::ₘ T) ((fd, some (x, flags)) ::ₘ X))
    (hx : x ≠ 0) (hp : p.id = x) :
    SlotOk { f with inode := x, flags := flags, lock := some p, offset := 0 } (.live x flags 0) fd
      (⟨fd, some (p, flags, 0), false⟩ ::ₘ T) X := by
  obtain ⟨-, rfl⟩ := h.held
  refine ⟨h.op, ⟨fun _ => by intro h; contradiction, fun _ =>
    h.inUse.mpr (by intro h; contradiction)⟩,
    fun _ => h.lt (by intro h; contradiction), h.reservation.2.2, fun y flags' off' hsl => ?_,
    fun hsl => absurd rfl (hsl x flags 0), fun hsl => absurd rfl (hsl x flags 0)⟩
  obtain ⟨rfl, rfl, rfl⟩ := FdState.live.inj hsl
  refine ⟨hx, rfl, rfl, rfl, p, rfl, hp, fun u hu => ?_⟩
  rw [Multiset.mem_singleton.mp hu]

/-- The offset of a descriptor changes. -/
theorem SlotOk.move (h : SlotOk f (.live x flags off) fd
    (⟨fd, some (p, flags, off), false⟩ ::ₘ T) X)
    (off' : Nat) :
    SlotOk { f with offset := off' } (.live x flags off') fd
      (⟨fd, some (p, flags, off'), false⟩ ::ₘ T) X := by
  obtain ⟨-, rfl⟩ := h.held
  obtain ⟨h1, h2, h3, h4, q, h5, h6, h7⟩ := h.open_ x flags off rfl
  refine ⟨h.op, ⟨fun _ => by intro h; contradiction, fun _ =>
    h.inUse.mpr (by intro h; contradiction)⟩,
    fun _ => h.lt (by intro h; contradiction), h.reserved, fun y flags' off'' hsl => ?_,
    fun hsl => absurd rfl (hsl x flags off'), fun hsl => absurd rfl (hsl x flags off')⟩
  obtain ⟨rfl, rfl, rfl⟩ := FdState.live.inj hsl
  refine ⟨h1, h2, h3, rfl, q, h5, h6, fun u hu => ?_⟩
  have := h7 _ (Multiset.mem_singleton_self _)
  dsimp only at this
  rw [Multiset.mem_singleton.mp hu]
  simp only [Option.some.injEq, Prod.mk.injEq] at this ⊢
  exact ⟨this.1, trivial⟩

/-- A close gives its entry up: from here on the descriptor counts as closed. -/
theorem SlotOk.giveUp (h : SlotOk f (.live x flags off) fd (t ::ₘ T) X) :
    SlotOk f (.reserved none) fd (⟨fd, none, true⟩ ::ₘ T) ((fd, none) ::ₘ X) := by
  obtain ⟨-, rfl⟩ := h.held
  refine ⟨h.op, ⟨fun _ => by intro h; contradiction, fun _ =>
    h.inUse.mpr (by intro h; contradiction)⟩,
    fun _ => h.lt (by intro h; contradiction), ?_, by intros; contradiction, fun _ u hu => ?_,
    fun _ hd => ?_⟩
  · rw [show X = 0 from h.reserved]
    rfl
  · rw [Multiset.mem_singleton.mp hu]
  · exact absurd (hd _ (Multiset.mem_singleton_self _)) Bool.true_eq_false.mp

/-- A close empties its slot. -/
theorem SlotOk.clear (h : SlotOk f (.reserved none) fd (t ::ₘ T) X) :
    SlotOk { f with inode := 0, lock := none } (.reserved none) fd (⟨fd, none, false⟩ ::ₘ T) X := by
  obtain ⟨-, rfl⟩ := h.held
  refine ⟨h.op, h.inUse, h.lt, h.reserved, by intros; contradiction, fun _ u hu => ?_,
    fun _ _ => ⟨rfl, rfl⟩⟩
  rw [Multiset.mem_singleton.mp hu]

end Transitions

/-! ## Changing the table -/

section Table

variable {sb : Superblock} {s s' : FileSystem} {W W' : World} {h h' : Hands} {rest : Multiset Hands}
  {fd : Nat}

/-- A step on one slot of the table, with what one thread has of it. -/
theorem Body.refile (hb : Body sb s W (h ::ₘ rest)) (hfd : fd < maxOpen) {f : OpenFile}
    {sl : FdState} (hshow : Shows sb s' W.image s'.side)
    (hfiles : s'.files = Function.update s.files fd f) (hentries : s'.entries = s.entries)
    (hopens : s'.opens = s.opens)
    (hgrips : h'.grips + f.idleGrips = h.grips + (s.files fd).idleGrips)
    (htok : ∀ k, k ≠ fd → tokensOn k {h'} = tokensOn k {h})
    (hresv : ∀ k, k ≠ fd → resvsOn k {h'} = resvsOn k {h})
    (hslot : ∀ T X, SlotOk (s.files fd) (W.slot fd) fd (tokensOn fd {h} + T) (resvsOn fd {h} + X) →
      SlotOk f sl fd (tokensOn fd {h'} + T) (resvsOn fd {h'} + X))
    (hok : h.Ok → h'.Ok) : Body sb s' (W.put fd sl) (h' ::ₘ rest) where
  shows := hshow
  cons := hb.cons
  entry id := by
    have hall : allGrips s'.files (h' ::ₘ rest) = allGrips s.files (h ::ₘ rest) := by
      have hidle := idleGrips_update s.files hfd f
      rw [← hfiles] at hidle
      rw [allGrips_cons, allGrips_cons]
      unfold allGrips
      -- what the slot has no more, the thread has
      have : h'.grips + ((rest.map Hands.grips).sum + idleGrips s'.files) + (s.files fd).idleGrips
          = h.grips + ((rest.map Hands.grips).sum + idleGrips s.files)
          + (s.files fd).idleGrips := by
        calc
          _ = h'.grips + (rest.map Hands.grips).sum
              + (idleGrips s'.files + (s.files fd).idleGrips) := by simp only [add_assoc]
          _ = (h'.grips + f.idleGrips) + ((rest.map Hands.grips).sum + idleGrips s.files) := by
            rw [hidle, add_comm (idleGrips s.files), add_add_add_comm]
          _ = (h.grips + (s.files fd).idleGrips)
              + ((rest.map Hands.grips).sum + idleGrips s.files) := by rw [hgrips]
          _ = _ := add_right_comm _ _ _
      exact add_right_cancel this
    rw [hall, hentries, hopens]
    exact hb.entry id
  slot k := by
    have hk := hb.slot k
    rw [tokensOn_cons, resvsOn_cons] at hk ⊢
    rw [hfiles]
    unfold World.put
    by_cases hkf : k = fd
    · subst hkf
      dsimp only
      rw [Function.update_self, Function.update_self]
      exact hslot _ _ hk
    · dsimp only
      rw [Function.update_of_ne hkf, Function.update_of_ne hkf, htok k hkf, hresv k hkf]
      exact hk
  ok k hk := by
    rcases Multiset.mem_cons.mp hk with rfl | hk
    · exact hok (hb.ok h (Multiset.mem_cons_self _ _))
    · exact hb.ok k (Multiset.mem_cons_of_mem hk)

/-- A step that leaves the table alone: on lock entries, on the image, or on what a slot stands
    for. -/
theorem Body.commit (hb : Body sb s W (h ::ₘ rest)) (hshow : Shows sb s' W'.image s'.side)
    (hcons : Consistent sb W'.image) (hfiles : s'.files = s.files)
    (hentry : ∀ id R, EntryOk W.image id (s.entries id) (openBalance s.opens id)
        (on id h.grips + R) →
      EntryOk W'.image id (s'.entries id) (openBalance s'.opens id) (on id h'.grips + R))
    (hslot : ∀ k T X, SlotOk (s.files k) (W.slot k) k (tokensOn k {h} + T) (resvsOn k {h} + X) →
      SlotOk (s.files k) (W'.slot k) k (tokensOn k {h'} + T) (resvsOn k {h'} + X))
    (hok : h.Ok → h'.Ok) : Body sb s' W' (h' ::ₘ rest) where
  shows := hshow
  cons := hcons
  entry id := by
    have he := hb.entry id
    rw [hfiles]
    rw [allGrips_cons, on_add] at he ⊢
    exact hentry id _ he
  slot k := by
    have hk := hb.slot k
    rw [tokensOn_cons, resvsOn_cons] at hk ⊢
    rw [hfiles]
    exact hslot k _ _ hk
  ok k hk := by
    rcases Multiset.mem_cons.mp hk with rfl | hk
    · exact hok (hb.ok h (Multiset.mem_cons_self _ _))
    · exact hb.ok k (Multiset.mem_cons_of_mem hk)

end Table

/-! ## Hands at a descriptor -/

/-- The grip of a descriptor. -/
def liveGrips : Option (EntryPtr × UInt32 × Nat) → Multiset Grip
  | some (p, _, _) => {⟨p, true, none⟩}
  | none => 0

/-- The hands of a thread that has the mutex of slot `fd` and nothing else. -/
def atFd (fd : Nat) (live : Option (EntryPtr × UInt32 × Nat)) : Hands :=
  ⟨liveGrips live, some ⟨fd, live, false⟩, none⟩

section AtFd

variable {fd : Nat} {live : Option (EntryPtr × UInt32 × Nat)} {G : Multiset Grip} {t : Option Token}
  {v : Option (Nat × Option (Nat × UInt32))} {f : OpenFile} {sl : FdState} {T : Multiset Token}
  {X : Multiset (Nat × Option (Nat × UInt32))} {p : EntryPtr} {flags : UInt32} {off : Nat}

theorem mem_liveGrips {r : Grip} (hr : r ∈ liveGrips live) :
    ∃ p flags off, live = some (p, flags, off) ∧ r = ⟨p, true, none⟩ := by
  cases live with
  | none => exact absurd hr (Multiset.notMem_zero r)
  | some l =>
    obtain ⟨p, flags, off⟩ := l
    exact ⟨p, flags, off, rfl, Multiset.mem_singleton.mp hr⟩

theorem Hands.ok_empty : Hands.Ok .empty where
  opened r hr := absurd hr (Multiset.notMem_zero r)
  token := by intros; contradiction
  dead := by intros; contradiction
  resv := by intros; contradiction

theorem Hands.ok_reserved : Hands.Ok ⟨0, none, some (fd, none)⟩ where
  opened r hr := absurd hr (Multiset.notMem_zero r)
  token := by intros; contradiction
  dead := by intros; contradiction
  resv fd' x flags hv :=
    absurd (congrArg Prod.snd (Option.some.inj hv)) (by intro h; contradiction)

theorem Hands.Ok.take (h : Hands.Ok ⟨G, none, v⟩) (fd : Nat)
    (live : Option (EntryPtr × UInt32 × Nat)) :
    Hands.Ok ⟨liveGrips live + G, some ⟨fd, live, false⟩, v⟩ where
  opened r hr ho := by
    rcases Multiset.mem_add.mp hr with hr | hr
    · obtain ⟨p, flags, off, hl, rfl⟩ := mem_liveGrips hr
      exact .inl ⟨_, flags, off, rfl, hl⟩
    · rcases h.opened r hr ho with ⟨t, _, _, ht, -⟩ | hv
      · exact absurd ht (by intro h; contradiction)
      · exact .inr hv
  token t p flags off ht hl := by
    obtain rfl := Option.some.inj ht
    dsimp only at hl
    refine ⟨⟨p, true, none⟩, Multiset.mem_add.mpr (.inl ?_), rfl, rfl⟩
    rw [hl]
    exact Multiset.mem_singleton_self _
  dead t ht hd := by
    obtain rfl := Option.some.inj ht
    exact absurd hd Bool.false_ne_true
  resv fd' x flags hv := by
    rcases h.resv fd' x flags hv with ⟨r, hr, hrest⟩ | ⟨r, hr, hrest⟩
    · exact .inl ⟨r, Multiset.mem_add.mpr (.inr hr), hrest⟩
    · exact .inr ⟨r, Multiset.mem_add.mpr (.inr hr), hrest⟩

theorem Hands.ok_atFd : Hands.Ok (atFd fd live) := by
  have := Hands.ok_empty.take fd live
  rwa [add_zero] at this

/-- The grip a free slot keeps is the one its mutex gives. -/
theorem SlotOk.idle_take (h : SlotOk f sl fd T X) (hop : f.op = false) :
    f.idleGrips = liveGrips (sl.access f) := by
  have hT : T = 0 := by
    have := h.op
    rw [hop, if_neg Bool.false_ne_true] at this
    exact Multiset.card_eq_zero.mp this
  have hno : ∀ t ∈ T, t.dead = false := fun t ht => absurd (hT ▸ ht) (Multiset.notMem_zero t)
  unfold OpenFile.idleGrips
  rw [hop, if_neg Bool.false_ne_true]
  cases sl with
  | live x flags off =>
    obtain ⟨-, -, -, -, q, h5, -⟩ := h.open_ x flags off rfl
    show _ = liveGrips (f.lock.map _)
    rw [h5]
    rfl
  | free =>
    rw [(h.closed (by intros; intro h; contradiction) hno).2]
    rfl
  | reserved file =>
    rw [(h.closed (by intros; intro h; contradiction) hno).2]
    rfl

/-- And the mutex gives it back. -/
theorem SlotOk.idle_drop (h : SlotOk f sl fd (⟨fd, live, false⟩ ::ₘ T) X) :
    OpenFile.idleGrips { f with op := false } = liveGrips live := by
  obtain ⟨-, rfl⟩ := h.held
  unfold OpenFile.idleGrips
  rw [if_neg Bool.false_ne_true]
  dsimp only
  have hdead : ∀ t ∈ (⟨fd, live, false⟩ ::ₘ 0 : Multiset Token), t.dead = false := fun t ht => by
    rw [Multiset.mem_singleton.mp ht]
  have hshut (hsl : ∀ x flags off, sl ≠ .live x flags off) : f.lock.elim 0
      (fun p => ({⟨p, true, none⟩} : Multiset Grip)) = liveGrips live := by
    rw [(h.closed hsl hdead).2, show live = none from h.shut hsl _ (Multiset.mem_singleton_self _)]
    rfl
  cases sl with
  | live x flags off =>
    obtain ⟨-, -, -, -, q, h5, -, h7⟩ := h.open_ x flags off rfl
    rw [h5, show live = some (q, flags, off) from h7 _ (Multiset.mem_singleton_self _)]
    rfl
  | free => exact hshut (by intros; intro h; contradiction)
  | reserved file => exact hshut (by intros; intro h; contradiction)

theorem SlotOk.idle_held {t : Token} (h : SlotOk f sl fd (t ::ₘ T) X) : f.idleGrips = 0 := by
  unfold OpenFile.idleGrips
  rw [h.held.1, if_pos rfl]

end AtFd

/-! ## The steps -/

section Steps

variable {sb : Superblock} {s : FileSystem} {W : World} {c : Call} {fd : Nat}
  {fin : Call → Reply → List (Deed Act Reply World) → Prop} {D : Diary Call Reply Act World}
  {G : Multiset Grip} {t : Option Token} {v : Option (Nat × Option (Nat × UInt32))}
  {rest : Multiset Hands} {live : Option (EntryPtr × UInt32 × Nat)} {p : EntryPtr} {flags : UInt32}
  {off : Nat} {U : Unit → Ghost Hands Call Reply Act World → Prop}
  {E : Exn → Ghost Hands Call Reply Act World → Prop}

/-- The slot whose mutex a thread has. -/
theorem Body.slot_held {k : Token} (hb : Body sb s W (⟨G, some k, v⟩ ::ₘ rest)) :
    ∃ T, SlotOk (s.files k.fd) (W.slot k.fd) k.fd (k ::ₘ T)
    (resvsOn k.fd (⟨G, some k, v⟩ ::ₘ rest)) := by
  have := hb.slot k.fd
  rw [tokensOn_cons, tokensOn_some, if_pos rfl, Multiset.singleton_add] at this
  exact ⟨_, this⟩

/-- What the mutex of an open descriptor gives is what the slot is. -/
theorem Body.slot_live
    (hb : Body sb s W (⟨G, some ⟨fd, some (p, flags, off), false⟩, v⟩ ::ₘ rest)) :
    W.slot fd = .live p.id flags off ∧ (s.files fd).inode = p.id ∧ p.id ≠ 0 ∧
      (s.files fd).flags = flags ∧ (s.files fd).offset = off ∧ (s.files fd).lock = some p := by
  obtain ⟨T, hs⟩ := hb.slot_held
  dsimp only at hs
  cases hsl : W.slot fd with
  | live x flags' off' =>
    obtain ⟨h1, h2, h3, h4, q, h5, h6, h7⟩ := hs.open_ x flags' off' hsl
    have := h7 _ (Multiset.mem_cons_self _ _)
    simp only [Option.some.injEq, Prod.mk.injEq] at this
    obtain ⟨rfl, rfl, rfl⟩ := this
    rw [h6]
    exact ⟨rfl, h2, h1, h3, h4, h5⟩
  | free =>
    have := hs.shut (by rw [hsl]; intros; intro h; contradiction) _ (Multiset.mem_cons_self _ _)
    exact absurd this (by intro h; contradiction)
  | reserved file =>
    have := hs.shut (by rw [hsl]; intros; intro h; contradiction) _ (Multiset.mem_cons_self _ _)
    exact absurd this (by intro h; contradiction)

/-- A descriptor whose mutex gives nothing is not open. -/
theorem Body.slot_shut (hb : Body sb s W (⟨G, some ⟨fd, none, false⟩, v⟩ ::ₘ rest)) :
    (∀ x flags off, W.slot fd ≠ .live x flags off) ∧ (s.files fd).inode = 0 := by
  obtain ⟨T, hs⟩ := hb.slot_held
  dsimp only at hs
  have hno : ∀ x flags off, W.slot fd ≠ .live x flags off := by
    intro x flags off hsl
    obtain ⟨-, -, -, -, q, -, -, h7⟩ := hs.open_ x flags off hsl
    exact absurd (h7 _ (Multiset.mem_cons_self _ _)) (by intro h; contradiction)
  refine ⟨hno, (hs.closed hno fun u hu => ?_).1⟩
  obtain ⟨-, rfl⟩ := hs.held
  rw [Multiset.mem_singleton.mp hu]

/-- The reservation of a slot. -/
theorem Body.slot_reserved {w : Nat × Option (Nat × UInt32)}
    (hb : Body sb s W (⟨G, t, some w⟩ ::ₘ rest)) :
    W.slot w.1 = .reserved w.2 ∧ w.1 < maxOpen := by
  have hs := hb.slot w.1
  rw [resvsOn_cons, resvsOn_some, if_pos rfl, Multiset.singleton_add] at hs
  have hsl := hs.reservation.1
  exact ⟨hsl, hs.lt (by rw [hsl]; intro h; contradiction)⟩

theorem mem_range_maxOpen {k : Nat} : k ∈ List.range 1024 ↔ k < maxOpen := by
  rw [maxOpen_eq, List.mem_range]

/-- `reserve_fd`. -/
theorem reserveFd_safe (hp : D.phase = .called c)
    {Q : Nat → Ghost Hands Call Reply Act World → Prop}
    (hQ : ∀ fd D', fd < maxOpen → Went D [.reserve fd] (.called c) D' →
      Q fd ⟨⟨0, none, some (fd, none)⟩, D'⟩)
    (hfull : ∀ W : World, (∀ fd < maxOpen, W.slot fd ≠ .free) →
      Decides sb c (.fail .emfile) W W)
    (hE : ∀ D', Answered D c (.fail .emfile) D' → E (.fsError .emfile) ⟨.empty, D'⟩) :
    reserveFd.Safe (shared (Body sb) (Legal sb) fin) ⟨.empty, D⟩ Q E := by
  refine safe_step fun s W rest hb => ⟨.inl rfl, fun _ => ?_⟩
  dsimp only
  cases hpick : (List.range 1024).find? fun fd => !(s.files fd).inUse with
  | none =>
    refine Shift.look hb hp (hfull W fun fd hfd => ?_) hE
    have := List.find?_eq_none.mp hpick fd (mem_range_maxOpen.mpr hfd)
    rw [Bool.not_eq_true, Bool.not_eq_false'] at this
    exact (hb.slot fd).inUse.mp this
  | some fd =>
    have hfd : fd < maxOpen := mem_range_maxOpen.mp (List.mem_of_find?_eq_some hpick)
    have hfree : W.slot fd = .free := by
      have hin := List.find?_some hpick
      rw [Bool.not_eq_true'] at hin
      by_contra hne
      exact absurd (hin.symm.trans ((hb.slot fd).inUse.mpr hne)) Bool.false_ne_true
    refine Shift.note (.reserve fd) (W.put fd (.reserved none))
      (h := ⟨0, none, some (fd, none)⟩) (c := c) ?_ (by rw [hp]; rfl)
      ⟨hfd, hfree, rfl⟩ (World.put_abs (by rw [hfree]; rfl)) fun D' hD' => hQ fd D' hfd (hp ▸ hD')
    refine hb.refile hfd (f := { s.files fd with inUse := true })
      (hb.shows.still rfl rfl rfl) rfl rfl
      rfl rfl (fun _ _ => rfl) (fun k hk => ?_) (fun T X hs => ?_)
      fun _ => Hands.ok_reserved
    · rw [resvsOn_some, if_neg (Ne.symm hk)]
      rfl
    · rw [resvsOn_some, if_pos rfl, Multiset.singleton_add]
      rw [hfree, show resvsOn fd {Hands.empty} = 0 from rfl, zero_add] at hs
      exact hs.reserve hfd

/-- `release_fd`. -/
theorem releaseFd_safe (hp : D.phase.call = some c) (ht : ∀ u, t = some u → u.dead = false)
    (hU : ∀ D', Went D [.release fd] D.phase D' → U () ⟨⟨G, t, none⟩, D'⟩) :
    (releaseFd fd).Safe (shared (Body sb) (Legal sb) fin) ⟨⟨G, t, some (fd, none)⟩, D⟩ U E := by
  refine safe_step fun s W rest hb => ⟨.inl rfl, fun _ => ?_⟩
  obtain ⟨hsl, hfd⟩ := hb.slot_reserved
  dsimp only at hsl hfd
  refine Shift.note (.release fd) (W.put fd .free) (h := ⟨G, t, none⟩) (c := c) ?_ hp
    ⟨hsl, rfl⟩ (World.put_abs (by rw [hsl]; rfl)) hU
  refine hb.refile hfd (f := { s.files fd with inUse := false })
    (hb.shows.still rfl rfl rfl) rfl rfl
    rfl rfl (fun _ _ => rfl) (fun k hk => ?_) (fun T X hs => ?_) fun hok => ?_
  · rw [resvsOn_some, if_neg (Ne.symm hk)]
    rfl
  · rw [resvsOn_some, if_pos rfl, Multiset.singleton_add, hsl] at hs
    rw [resvsOn_none, zero_add]
    exact hs.release
  · refine ⟨fun r hr ho => ?_, hok.token, fun u hu hd => ?_, by intros; contradiction⟩
    · rcases hok.opened r hr ho with h | ⟨fd', flags, hv⟩
      · exact .inl h
      · exact absurd (congrArg Prod.snd (Option.some.inj hv)) (by intro h; contradiction)
    · exact absurd (hd.symm.trans (ht u hu)) (by intro h; contradiction)

/-- Taking the mutex of a slot. -/
theorem takeFd_safe (hfd : fd < maxOpen) (hG : ∀ r ∈ G, r.hold = none)
    (hU : ∀ live, (∀ file, v = some (fd, file) → live = none) →
      U () ⟨⟨liveGrips live + G, some ⟨fd, live, false⟩, v⟩, D⟩) :
    (Prog.await (fun s : FileSystem => !(s.files fd).op)
      (·.mapFile fd fun f => { f with op := true })).Safe (shared (Body sb) (Legal sb) fin)
      ⟨⟨G, none, v⟩, D⟩ U E := by
  refine safe_step fun s W rest hb => ⟨?_, fun hready => ?_⟩
  · have hop := (hb.slot fd).op
    rw [tokensOn_cons, tokensOn_none, zero_add] at hop
    cases hf : (s.files fd).op with
    | false => exact .inl rfl
    | true =>
      -- somebody has the mutex, and this thread has none and no lock
      rw [hf, if_pos rfl] at hop
      obtain ⟨t, ht⟩ := Multiset.card_eq_one.mp hop
      obtain ⟨h', hh', htok, -⟩ := mem_tokensOn.mp (ht ▸ Multiset.mem_singleton_self t)
      refine .inr ⟨h', hh', lt_of_lt_of_le (lt_of_le_of_lt (b := 0) ?_ ?_) (one_le_rank htok)⟩
      · refine rank_le (le_refl _) fun r hr => ?_
        rw [Grip.depth, hG r hr]
        exact le_refl _
      · exact zero_lt_one
  · have hop : (s.files fd).op = false := by simpa using hready
    have hlive : ∀ file, v = some (fd, file) → (W.slot fd).access (s.files fd) = none := by
      intro file hv
      rw [hv] at hb
      rw [hb.slot_reserved.1]
      rfl
    have hput : W.put fd (W.slot fd) = W := by
      unfold World.put
      rw [Function.update_eq_self]
    refine Shift.quiet ?_ (hU _ hlive)
    suffices h : Body sb _ (W.put fd (W.slot fd)) _ by rwa [hput] at h
    refine hb.refile hfd (f := { s.files fd with op := true })
      (hb.shows.still rfl rfl rfl) rfl rfl rfl
      ?_ (fun k hk => ?_) (fun _ _ => rfl) (fun T X hs => ?_) fun hok => hok.take fd _
    · show liveGrips _ + G + 0 = G + (s.files fd).idleGrips
      rw [(hb.slot fd).idle_take hop, add_zero, add_comm]
    · rw [tokensOn_some, if_neg (Ne.symm hk)]
      rfl
    · rw [tokensOn_some, if_pos rfl, Multiset.singleton_add]
      rw [tokensOn_none, zero_add] at hs
      exact hs.take hop

/-- Letting go of it. -/
theorem dropFd_safe (hfd : fd < maxOpen) (hU : U () ⟨.empty, D⟩) :
    (Prog.change fun s : FileSystem => s.mapFile fd fun f => { f with op := false }).Safe
      (shared (Body sb) (Legal sb) fin) ⟨atFd fd live, D⟩ U E := by
  refine safe_step fun s W rest hb => ⟨.inl rfl, fun _ => ?_⟩
  obtain ⟨T, hs⟩ := hb.slot_held
  dsimp only at hs
  have hput : W.put fd (W.slot fd) = W := by
    unfold World.put
    rw [Function.update_eq_self]
  refine Shift.quiet ?_ hU
  suffices h : Body sb _ (W.put fd (W.slot fd)) _ by rwa [hput] at h
  refine hb.refile hfd (f := { s.files fd with op := false })
    (hb.shows.still rfl rfl rfl) rfl rfl rfl
    ?_ (fun k hk => ?_) (fun _ _ => rfl) (fun T X hs => ?_) fun _ => Hands.ok_empty
  · show 0 + OpenFile.idleGrips _ = liveGrips live + (s.files fd).idleGrips
    rw [hs.idle_drop, hs.idle_held, add_comm]
  · rw [show tokensOn k {Hands.empty} = 0 from rfl]
    unfold atFd
    rw [tokensOn_some, if_neg (Ne.symm hk)]
  · unfold atFd at hs
    rw [tokensOn_some, if_pos rfl, Multiset.singleton_add] at hs
    rw [show tokensOn fd {Hands.empty} = 0 from rfl, zero_add]
    exact hs.drop rfl

/-- A body that runs holding the mutex of a slot. -/
theorem withFd_safe {α : Type} (hfd : fd < maxOpen) {body : Fs α}
    {Q : α → Ghost Hands Call Reply Act World → Prop}
    (hbody : ∀ live, body.Safe (shared (Body sb) (Legal sb) fin) ⟨atFd fd live, D⟩
      (fun a g => ∃ live', g.hands = atFd fd live' ∧ Q a ⟨.empty, g.diary⟩)
      fun e g => ∃ live', g.hands = atFd fd live' ∧ E e ⟨.empty, g.diary⟩) :
    (withFd fd body).Safe (shared (Body sb) (Legal sb) fin) ⟨.empty, D⟩ Q E := by
  unfold withFd
  refine Prog.Safe.bind _ (takeFd_safe (G := 0) hfd
    (fun r hr => absurd hr (Multiset.notMem_zero r)) fun live _ => ?_)
  rw [add_zero]
  refine Prog.Safe.ensure ((hbody live).mono (fun a g h => ?_) fun e g h => ?_)
  · obtain ⟨hands, D'⟩ := g
    obtain ⟨live', rfl, hQ⟩ := h
    exact dropFd_safe hfd hQ
  · obtain ⟨hands, D'⟩ := g
    obtain ⟨live', rfl, hE⟩ := h
    exact dropFd_safe hfd hE

/-- `snapshot`. -/
theorem snapshot_safe {Q : Snapshot → Ghost Hands Call Reply Act World → Prop}
    (hQ : ∀ p flags off, live = some (p, flags, off) → Q ⟨p.id, flags, p⟩ ⟨atFd fd live, D⟩)
    (hbad : live = none → ∀ s W rest, Body sb s W (atFd fd live ::ₘ rest) →
      (∀ x flags off, W.slot fd ≠ .live x flags off) →
      Shift (Body sb) (Legal sb) s W rest D (E (.fsError .ebadf))) :
    (snapshot fd).Safe (shared (Body sb) (Legal sb) fin) ⟨atFd fd live, D⟩ Q E := by
  refine safe_step fun s W rest hb => ⟨.inl rfl, fun _ => ?_⟩
  dsimp only [id]
  cases hl : live with
  | none =>
    rw [hl] at hb
    obtain ⟨hno, h0⟩ := hb.slot_shut
    rw [if_pos h0]
    exact hbad hl s W rest (hl ▸ hb) hno
  | some l =>
    obtain ⟨p, flags, off⟩ := l
    rw [hl] at hb
    obtain ⟨-, h1, h2, h3, -, h5⟩ := hb.slot_live
    rw [if_neg (by rw [h1]; exact h2), h5, h1, h3]
    refine Shift.quiet hb ?_
    rw [← hl]
    exact hQ p flags off hl

/-- The offset of the descriptor whose mutex is held. -/
theorem offset_safe {Q : Nat → Ghost Hands Call Reply Act World → Prop}
    (hQ : Q off ⟨atFd fd (some (p, flags, off)), D⟩) :
    (Prog.view fun s : FileSystem => (s.files fd).offset).Safe (shared (Body sb) (Legal sb) fin)
      ⟨atFd fd (some (p, flags, off)), D⟩ Q E := by
  refine safe_step fun s W rest hb => ⟨.inl rfl, fun _ => Shift.quiet hb ?_⟩
  obtain ⟨-, -, -, -, h4, -⟩ := hb.slot_live
  dsimp only
  rw [h4]
  exact hQ

/-- Moving the offset, which settles the answer of a read, a write or a seek. -/
theorem Body.move {k : Nat} (hb : Body sb s W (atFd fd (some (p, flags, off)) ::ₘ rest))
    (hfd : fd < maxOpen) :
    Body sb (s.mapFile fd fun f => { f with offset := k }) (W.put fd (.live p.id flags k))
      (atFd fd (some (p, flags, k)) ::ₘ rest) := by
  obtain ⟨hsl, -⟩ := hb.slot_live
  refine hb.refile hfd (f := { s.files fd with offset := k })
    (hb.shows.still rfl rfl rfl) rfl rfl rfl
    rfl (fun j hj => ?_) (fun _ _ => rfl) (fun T X hs => ?_) fun _ => Hands.ok_atFd
  · unfold atFd
    rw [tokensOn_some, if_neg (Ne.symm hj), tokensOn_some, if_neg (Ne.symm hj)]
  · unfold atFd at hs ⊢
    rw [tokensOn_some, if_pos rfl, Multiset.singleton_add, hsl] at hs
    rw [tokensOn_some, if_pos rfl, Multiset.singleton_add]
    exact hs.move k

/-- A settled open fills its slot in. -/
theorem fillFd_safe {x : Nat} (hp : D.phase.call = some c) (hx : p.id = x)
    (hU : ∀ D', Went D [.fill fd] D.phase D' → U () ⟨.empty, D'⟩) :
    (withFd fd (Prog.change (·.mapFile fd fun f =>
      { f with inode := x, flags := flags, lock := some p, offset := 0 }))).Safe
      (shared (Body sb) (Legal sb) fin) ⟨⟨{⟨p, true, none⟩}, none, some (fd, some (x, flags))⟩, D⟩
      U E := by
  by_cases hfd : fd < maxOpen
  · unfold withFd
    refine Prog.Safe.bind _ (takeFd_safe hfd (fun r hr => by rw [Multiset.mem_singleton.mp hr])
      fun live hlive => ?_)
    obtain rfl := hlive _ rfl
    rw [show liveGrips none = 0 from rfl, zero_add]
    refine Prog.Safe.ensure ?_
    refine safe_step fun s W rest hb => ⟨.inl rfl, fun _ => ?_⟩
    obtain ⟨hsl, -⟩ := hb.slot_reserved
    dsimp only at hsl
    -- the inode is in use, so it is not 0
    have hx0 : x ≠ 0 := by
      obtain ⟨e, R, -, -, hR⟩ := hb.exists_entry
      have hk : W.image.tree.kind p.id = some .file := hR.file _ (Multiset.mem_cons_self _ _) rfl
      obtain ⟨h1, -⟩ := hb.cons.ibit_of_kind (x := p.id)
        (by rw [show kindOf (W.image.inode p.id) = some .file from hk]; intro h; contradiction)
      omega
    refine Shift.note (.fill fd) (W.put fd (.live x flags 0))
      (h := atFd fd (some (p, flags, 0))) (c := c) ?_ hp ⟨x, flags, hsl, rfl⟩
      (World.put_abs (by rw [hsl]; rfl))
      fun D' hD' => dropFd_safe hfd (hU D' hD')
    refine hb.refile hfd
      (f := { s.files fd with inode := x, flags := flags, lock := some p, offset := 0 })
      (hb.shows.still rfl rfl rfl) rfl rfl rfl ?_ (fun k hk => ?_) (fun k hk => ?_)
      (fun T X hs => ?_) fun _ => Hands.ok_atFd
    · obtain ⟨T, hs⟩ := hb.slot_held
      dsimp only at hs
      have hop := hs.held.1
      unfold OpenFile.idleGrips
      rw [if_pos hop, if_pos hop]
      rfl
    · unfold atFd
      rw [tokensOn_some, if_neg (Ne.symm hk), tokensOn_some, if_neg (Ne.symm hk)]
    · rw [resvsOn_some, if_neg (Ne.symm hk)]
      rfl
    · unfold atFd
      rw [tokensOn_some, if_pos rfl, resvsOn_some, if_pos rfl, hsl, Multiset.singleton_add,
        Multiset.singleton_add] at hs
      rw [tokensOn_some, if_pos rfl, resvsOn_none, Multiset.singleton_add, zero_add]
      exact hs.fill hx0 hx
  · -- a reserved slot is one of the table
    unfold withFd
    refine Prog.Safe.bind _ (safe_step fun s W rest hb => ?_)
    exact absurd hb.slot_reserved.2 hfd

/-- The balance of the opens after one more event. -/
theorem openBalance_snoc (events : List OpenEvent) (e : OpenEvent) (id : Nat) :
    openBalance (events ++ [e]) id = openBalance events id +
      match e with
      | .registered k => if k = id then 1 else 0
      | .givenBack k => if k = id then -1 else 0 := by
  unfold openBalance
  rw [List.count_append, List.count_append]
  cases e with
  | registered k =>
    by_cases hk : k = id
    · subst hk
      simp
      omega
    · simp [hk]
  | givenBack k =>
    by_cases hk : k = id
    · subst hk
      simp
      omega
    · simp [hk]

/-- The table of the descriptors of the world, with one changed. -/
theorem World.abs_put (W : World) (fd : Nat) (f : FdState) : (W.put fd f).abs
    = ⟨W.abs.node, Function.update W.abs.fds fd (f.inode.map W.image.tree.pathOf)⟩ := by
  unfold World.abs World.put
  congr 1
  funext k
  dsimp only
  by_cases hk : k = fd
  · rw [hk, Function.update_self, Function.update_self]
  · rw [Function.update_of_ne hk, Function.update_of_ne hk]

/-- The step of `vfs_close` from which on the descriptor counts as closed. -/
theorem giveUp_safe {n : Int} (hn : 0 ≤ n) (hn' : n < maxOpen) (hfd : n.toNat = fd)
    (hp : D.phase = .called (.close n))
    (hU : ∀ D', Went D [.close fd] (.decided (.close n) (.of 0)) D' →
      U () ⟨⟨{⟨p, false, none⟩}, some ⟨fd, none, true⟩, some (fd, none)⟩, D'⟩) :
    (changeOpens p (.givenBack p.id) (· - 1)).Safe (shared (Body sb) (Legal sb) fin)
      ⟨atFd fd (some (p, flags, off)), D⟩ U E := by
  refine safe_step fun s W rest hb => ⟨.inl rfl, fun _ => ?_⟩
  obtain ⟨hsl, -⟩ := hb.slot_live
  have hb' : Body sb s W (⟨⟨p, true, none⟩ ::ₘ 0, some ⟨fd, some (p, flags, off), false⟩,
    none⟩ ::ₘ rest) := hb
  obtain ⟨e, R, he, ha, -⟩ := hb'.exists_entry
  dsimp only at he ha
  rw [FileSystem.entryAt_of he ha, FileSystem.mapEntry_of he ha]
  refine Shift.settle (.close fd) (W.put fd (.reserved none))
    (h := ⟨{⟨p, false, none⟩}, some ⟨fd, none, true⟩, some (fd, none)⟩) ?_ hp
    ⟨p.id, flags, off, hsl, rfl⟩ ?_ hU
  · refine hb.commit (hb.shows.still rfl rfl rfl) hb.cons rfl (fun id R hR => ?_)
      (fun k T X hs => ?_) fun _ => ?_
    · show EntryOk W.image id (Function.update s.entries p.id _ id)
        (openBalance (s.opens ++ [.givenBack p.id]) id) (on id {⟨p, false, none⟩} + R)
      rw [openBalance_snoc]
      dsimp only
      by_cases hid : id = p.id
      · subst hid
        rw [Function.update_self, if_pos rfl]
        rw [he, show on p.id (atFd fd (some (p, flags, off))).grips = {⟨p, true, none⟩} from
          on_singleton_self rfl, Multiset.singleton_add] at hR
        rw [on_singleton_self (r := ⟨p, false, none⟩) rfl, Multiset.singleton_add]
        exact hR.giveBack
      · rw [Function.update_of_ne hid, if_neg (Ne.symm hid), add_zero]
        rw [show on id (atFd fd (some (p, flags, off))).grips = 0 from
          on_singleton_other (Ne.symm hid)] at hR
        rw [on_singleton_other (r := ⟨p, false, none⟩) (Ne.symm hid)]
        exact hR
    · unfold atFd at hs
      rw [tokensOn_some] at hs ⊢
      rw [resvsOn_some]
      unfold World.put
      dsimp only at hs ⊢
      by_cases hk : fd = k
      · subst hk
        rw [if_pos rfl, hsl, Multiset.singleton_add] at hs
        rw [if_pos rfl, if_pos rfl, Function.update_self, Multiset.singleton_add,
          Multiset.singleton_add]
        exact SlotOk.giveUp (by simpa using hs)
      · rw [if_neg hk] at hs
        rw [if_neg hk, if_neg hk, Function.update_of_ne (Ne.symm hk)]
        exact hs
    · refine ⟨fun r hr ho => ?_, fun t q fl o ht hl => ?_, fun t ht _ => ?_, fun fd' x fl hv => ?_⟩
      · rw [Multiset.mem_singleton.mp hr] at ho
        exact absurd ho Bool.false_ne_true
      · obtain rfl := Option.some.inj ht
        exact absurd hl (by intro h; contradiction)
      · obtain rfl := Option.some.inj ht
        exact ⟨rfl, rfl⟩
      · exact absurd (congrArg Prod.snd (Option.some.inj hv)) (by intro h; contradiction)
  · dsimp only [Decides]
    rw [if_neg (by omega), hfd]
    refine .inl ⟨W.image.tree.pathOf p.id, ?_, rfl, W.abs_put fd _⟩
    show ((W.slot fd).inode.map _) = _
    rw [hsl]
    rfl

/-- The step that empties the slot after that. -/
theorem clearFd_safe (hfd : fd < maxOpen)
    (hU : U () ⟨⟨0, some ⟨fd, none, false⟩, some (fd, none)⟩, D⟩) :
    (Prog.change fun s : FileSystem => s.mapFile fd fun f =>
      { f with inode := 0, lock := none }).Safe (shared (Body sb) (Legal sb) fin)
      ⟨⟨0, some ⟨fd, none, true⟩, some (fd, none)⟩, D⟩ U E := by
  refine safe_step fun s W rest hb => ⟨.inl rfl, fun _ => ?_⟩
  obtain ⟨hsl, -⟩ := hb.slot_reserved
  dsimp only at hsl
  have hput : W.put fd (.reserved none) = W := by
    unfold World.put
    rw [← hsl, Function.update_eq_self]
  obtain ⟨T, hs⟩ := hb.slot_held
  dsimp only at hs
  have hop := hs.held.1
  refine Shift.quiet ?_ hU
  suffices h : Body sb _ (W.put fd (.reserved none)) _ by rwa [hput] at h
  refine hb.refile hfd (f := { s.files fd with inode := 0, lock := none })
    (hb.shows.still rfl rfl rfl)
    rfl rfl rfl ?_ (fun k hk => ?_) (fun _ _ => rfl) (fun T X hs => ?_) fun _ => ?_
  · unfold OpenFile.idleGrips
    rw [if_pos hop, if_pos hop]
  · rw [tokensOn_some, if_neg (Ne.symm hk), tokensOn_some, if_neg (Ne.symm hk)]
  · rw [tokensOn_some, if_pos rfl, hsl, Multiset.singleton_add] at hs
    rw [tokensOn_some, if_pos rfl, Multiset.singleton_add]
    exact hs.clear
  · refine ⟨fun r hr => absurd hr (Multiset.notMem_zero r), fun t q fl o ht hl => ?_,
      fun t ht hd => ?_, fun fd' x fl hv => ?_⟩
    · obtain rfl := Option.some.inj ht
      exact absurd hl (by intro h; contradiction)
    · obtain rfl := Option.some.inj ht
      exact absurd hd Bool.false_ne_true
    · exact absurd (congrArg Prod.snd (Option.some.inj hv)) (by intro h; contradiction)

/-- Two grips on one inode are on the same entry. -/
theorem Body.same_ptr {r r' : Grip} (hb : Body sb s W (⟨r ::ₘ r' ::ₘ G, t, v⟩ ::ₘ rest))
    (hid : r.ptr.id = r'.ptr.id) : r.ptr = r'.ptr := by
  obtain ⟨e, R, he, ha, hR⟩ := hb.exists_entry
  obtain ⟨-, hc⟩ := hR.there e rfl
  have ha' : r'.ptr.addr = e.addr := hc.addr r' (Multiset.mem_cons_of_mem
    (Multiset.mem_add.mpr (.inl (mem_on.mpr ⟨Multiset.mem_cons_self _ _, hid.symm⟩))))
  calc r.ptr = ⟨r.ptr.id, r.ptr.addr⟩ := rfl
    _ = ⟨r'.ptr.id, r'.ptr.addr⟩ := by rw [hid, ← ha, ha']

/-- The hands after an open has registered. -/
theorem Hands.Ok.register {H : Hold} {u : Option (Nat × UInt32)}
    (h : Hands.Ok ⟨⟨p, false, none⟩ ::ₘ ⟨p, false, some H⟩ ::ₘ G, none, some (fd, u)⟩)
    (hu : u = none ∨ u = some (p.id, flags)) :
    Hands.Ok ⟨⟨p, true, none⟩ ::ₘ ⟨p, false, some H⟩ ::ₘ G, none,
    some (fd, some (p.id, flags))⟩ where
  opened r hr ho := by
    rcases Multiset.mem_cons.mp hr with rfl | hr
    · exact .inr ⟨fd, flags, rfl⟩
    · rcases h.opened r (Multiset.mem_cons_of_mem hr) ho with ⟨t, _, _, ht, -⟩ | ⟨fd', fl, hv⟩
      · exact absurd ht (by intro h; contradiction)
      · obtain ⟨rfl, rfl⟩ := Prod.mk.inj (Option.some.inj hv)
        rcases hu with hu | hu
        · exact absurd hu (by intro h; contradiction)
        · obtain ⟨hid, -⟩ := Prod.mk.inj (Option.some.inj hu)
          exact .inr ⟨fd, flags, by rw [hid]⟩
  token := by intros; contradiction
  dead := by intros; contradiction
  resv fd' x fl hv := by
    obtain ⟨-, hx⟩ := Prod.mk.inj (Option.some.inj hv)
    obtain ⟨rfl, -⟩ := Prod.mk.inj (Option.some.inj hx)
    exact .inl ⟨_, Multiset.mem_cons_self _ _, rfl, rfl⟩

/-- An open registers, under the file's lock. -/
theorem Body.register {H : Hold} {u : Option (Nat × UInt32)} {e : Entry}
    (hb : Body sb s W (⟨⟨p, false, none⟩ ::ₘ ⟨p, false, some H⟩ ::ₘ G, none,
    some (fd, u)⟩ ::ₘ rest))
    (hun : H.unopened = false) (hkind : W.image.tree.kind p.id = some .file)
    (hu : u = none ∨ u = some (p.id, flags)) (he : s.entries p.id = some e) :
    Body sb { s.setEntry p.id (some { e with openCount := e.openCount + 1 }) with
        opens := s.opens ++ [.registered p.id] }
      (W.put fd (.reserved (some (p.id, flags))))
      (⟨⟨p, true, none⟩ ::ₘ ⟨p, false, some H⟩ ::ₘ G, none,
      some (fd, some (p.id, flags))⟩ ::ₘ rest) := by
  obtain ⟨hsl, -⟩ := hb.slot_reserved
  dsimp only at hsl
  refine hb.commit (hb.shows.still rfl rfl rfl) hb.cons rfl (fun id R hR => ?_)
    (fun k T X hs => ?_) fun hok => hok.register hu
  · show EntryOk W.image id (Function.update s.entries p.id _ id)
      (openBalance (s.opens ++ [.registered p.id]) id)
      (on id (⟨p, true, none⟩ ::ₘ ⟨p, false, some H⟩ ::ₘ G) + R)
    rw [openBalance_snoc]
    dsimp only at hR ⊢
    by_cases hid : id = p.id
    · subst hid
      have hx : ∀ o, on p.id (⟨p, o, none⟩ ::ₘ ⟨p, false, some H⟩ ::ₘ G)
          = ⟨p, o, none⟩ ::ₘ ⟨p, false, some H⟩ ::ₘ on p.id G := fun o =>
        (on_cons_self (r := ⟨p, o, none⟩) rfl).trans
          (congrArg _ (on_cons_self (r := ⟨p, false, some H⟩) rfl))
      rw [Function.update_self, if_pos rfl, hx, Multiset.cons_add, Multiset.cons_add]
      rw [he, hx, Multiset.cons_add, Multiset.cons_add] at hR
      exact hR.register hun hkind
    · rw [Function.update_of_ne hid, if_neg (Ne.symm hid), add_zero,
        on_cons_other (r := ⟨p, true, none⟩) (Ne.symm hid)]
      rw [on_cons_other (r := ⟨p, false, none⟩) (Ne.symm hid)] at hR
      exact hR
  · rw [tokensOn_none] at hs ⊢
    rw [resvsOn_some] at hs ⊢
    unfold World.put
    dsimp only at hs ⊢
    by_cases hk : fd = k
    · subst hk
      rw [if_pos rfl, hsl] at hs
      rw [if_pos rfl, Function.update_self]
      rcases hu with rfl | rfl
      · exact hs.settle p.id flags
      · exact hs
    · rw [if_neg hk] at hs
      rw [if_neg hk, Function.update_of_ne (Ne.symm hk)]
      exact hs

/-- `register_open`, with the lock of a file held.  Either the open is settled already, or it is
    now. -/
theorem registerOpen_safe (flags : UInt32) (file : InodeLock) {H : Hold} {K : Known}
    {u : Option (Nat × UInt32)}
    (hK : H.known = some K) (hfile : kindOf K.ino = some .file) (hun : H.unopened = false)
    (hu : u = none ∨ u = some (file.id, flags))
    {Q : EntryPtr → Ghost Hands Call Reply Act World → Prop}
    (hQ : ∀ s W rest, W.slot fd = .reserved u → W.image.tree.At K.path file.id →
      W.image.tree.kind file.id = some .file → W.image.tree.Rules → fd < maxOpen →
      Body sb s (W.put fd (.reserved (some (file.id, flags))))
        (⟨⟨file.entry, true, none⟩ ::ₘ ⟨file.entry, false, some H⟩ ::ₘ G, none,
          some (fd, some (file.id, flags))⟩ ::ₘ rest) →
      Shift (Body sb) (Legal sb) s W rest D (Q file.entry)) :
    (registerOpen file).Safe (shared (Body sb) (Legal sb) fin)
      ⟨⟨⟨file.entry, false, some H⟩ ::ₘ G, none, some (fd, u)⟩, D⟩ Q E := by
  unfold registerOpen
  refine Prog.Safe.bind _ (acquire_safe fun a => ?_)
  refine Prog.Safe.bind _ (safe_step fun s W rest hb => ⟨.inl rfl, fun _ => ?_⟩)
  obtain hpa : (⟨file.id, a⟩ : EntryPtr) = file.entry := hb.same_ptr rfl
  rw [hpa] at hb ⊢
  have hb' := hb
  rw [Multiset.cons_swap] at hb'
  obtain ⟨hino, -, hat⟩ := hb'.known hK
  have hkind : W.image.tree.kind file.id = some .file := by
    show kindOf (W.image.inode file.entry.id) = _
    rw [← hino]
    exact hfile
  obtain ⟨e, R, he, ha, -⟩ := hb.exists_entry
  dsimp only at he ha
  obtain ⟨hsl, hfd⟩ := hb.slot_reserved
  have hreg := hb.register hun hkind hu he
  rw [FileSystem.entryAt_of he ha, FileSystem.mapEntry_of he ha]
  exact hQ _ W rest hsl hat hkind hb.cons.tree hfd hreg

end Steps

end ConcurrentFs
