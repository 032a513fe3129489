/-
  ConcurrentFs.Commits

  The stretches of code that read or change the image under locks, among other
  threads: making, removing, emptying and writing files.  What such a stretch does
  alone it does here, because what the thread knows is true, and what it changes
  nobody else has a lock on.
-/
import ConcurrentFs.Descriptors
import ConcurrentFs.Offsets

namespace ConcurrentFs

open Lib

/-! ## Open descriptors and their grips -/

section Opened

variable {sb : Superblock} {s : FileSystem} {W : World} {hs : Multiset Hands} {fd x : Nat}

/-- An open grip is that of a descriptor. -/
theorem Body.fd_of_opened (hb : Body sb s W hs) {r : Grip} (hr : r ∈ allGrips s.files hs)
    (ho : r.opened = true) : ∃ fd, fd < maxOpen ∧ (W.slot fd).inode = some r.ptr.id := by
  rcases mem_allGrips.mp hr with ⟨h, hh, hr⟩ | hr
  · rcases (hb.ok h hh).opened r hr ho with ⟨t, flags, off, ht, hl⟩ | ⟨fd, flags, hv⟩
    · -- a descriptor that is being used
      have hslot := hb.slot t.fd
      have hmem : t ∈ tokensOn t.fd hs := mem_tokensOn.mpr ⟨h, hh, ht, rfl⟩
      cases hsl : W.slot t.fd with
      | live x flags' off' =>
        obtain ⟨-, -, -, -, q, -, h6, h7⟩ := hslot.open_ x flags' off' hsl
        have := (h7 t hmem).symm.trans hl
        simp only [Option.some.injEq, Prod.mk.injEq] at this
        refine ⟨t.fd, hslot.lt (by rw [hsl]; intro h; contradiction), ?_⟩
        rw [hsl, ← this.1, h6]
        rfl
      | free =>
        have := hslot.shut (by rw [hsl]; intros; intro h; contradiction) t hmem
        exact absurd (this.symm.trans hl) (by intro h; contradiction)
      | reserved file =>
        have := hslot.shut (by rw [hsl]; intros; intro h; contradiction) t hmem
        exact absurd (this.symm.trans hl) (by intro h; contradiction)
    · -- one that is being opened
      have hslot := hb.slot fd
      have hmem : (fd, some (r.ptr.id, flags)) ∈ resvsOn fd hs := mem_resvsOn.mpr ⟨h, hh, hv, rfl⟩
      obtain ⟨X, hX⟩ := Multiset.exists_cons_of_mem hmem
      rw [hX] at hslot
      have hsl := hslot.reservation.1
      refine ⟨fd, hslot.lt (by rw [hsl]; intro h; contradiction), ?_⟩
      rw [hsl]
      rfl
  · obtain ⟨-, -, fd, hfd, hop, hl⟩ := hold_of_idle hr
    have hslot := hb.slot fd
    have hT : tokensOn fd hs = 0 := by
      have := hslot.op
      rw [hop, if_neg Bool.false_ne_true] at this
      exact Multiset.card_eq_zero.mp this
    by_cases hlive : ∃ x flags off, W.slot fd = .live x flags off
    · obtain ⟨x, flags, off, hsl⟩ := hlive
      obtain ⟨-, -, -, -, q, h5, h6, -⟩ := hslot.open_ x flags off hsl
      refine ⟨fd, hfd, ?_⟩
      rw [hsl, Option.some.inj (hl.symm.trans h5), h6]
      rfl
    · have := hslot.closed (fun x flags off hsl => hlive ⟨x, flags, off, hsl⟩) fun t ht =>
        absurd (hT ▸ ht) (Multiset.notMem_zero t)
      exact absurd (hl.symm.trans this.2) (by intro h; contradiction)

/-- A descriptor has its grip, or has just made its file and still holds the directory. -/
theorem Body.opened_of_fd (hb : Body sb s W hs) (hsl : (W.slot fd).inode = some x) :
    (∃ r ∈ allGrips s.files hs, r.opened = true ∧ r.ptr.id = x) ∨
    ∃ h ∈ hs, h.resv ≠ none ∧ ∃ r ∈ h.grips, ∃ H K, r.hold = some H ∧ H.exclusive = true ∧
      H.known = some K ∧ ∃ k, 2 ≤ k ∧ (K.ents k).inodeId.toNat = x ∧ x ≠ 0 := by
  have hslot := hb.slot fd
  cases hfd : W.slot fd with
  | free =>
    rw [hfd] at hsl
    exact absurd hsl (by intro h; contradiction)
  | reserved file =>
    rw [hfd] at hsl
    obtain ⟨⟨y, flags⟩, rfl, rfl⟩ := Option.map_eq_some_iff.mp hsl
    have hr := hslot.reserved
    rw [hfd] at hr
    have hmem : (fd, some (y, flags)) ∈ resvsOn fd hs := by
      rw [hr]
      exact Multiset.mem_singleton_self _
    obtain ⟨h, hh, hv, -⟩ := mem_resvsOn.mp hmem
    rcases (hb.ok h hh).resv fd y flags hv with ⟨r, hrm, ho, hp⟩ | ⟨r, hrm, hrest⟩
    · exact .inl ⟨r, mem_allGrips.mpr (.inl ⟨h, hh, hrm⟩), ho, hp⟩
    · exact .inr ⟨h, hh, by rw [hv]; intro h; contradiction, r, hrm, hrest⟩
  | live y flags off =>
    rw [hfd] at hsl
    obtain rfl : y = x := Option.some.inj hsl
    obtain ⟨-, -, -, -, q, h5, h6, h7⟩ := hslot.open_ y flags off hfd
    refine .inl ?_
    cases hop : (s.files fd).op with
    | false =>
      refine ⟨⟨q, true, none⟩, mem_allGrips.mpr (.inr ?_), rfl, h6⟩
      refine Multiset.mem_sum.mpr ⟨fd, Finset.mem_range.mpr (hslot.lt ?_), ?_⟩
      · rw [hfd]
        intro h; contradiction
      · unfold OpenFile.idleGrips
        rw [hop, if_neg Bool.false_ne_true, h5]
        exact Multiset.mem_singleton_self _
    | true =>
      have hcard := hslot.op
      rw [hop, if_pos rfl] at hcard
      obtain ⟨t, ht⟩ := Multiset.card_eq_one.mp hcard
      have hmem : t ∈ tokensOn fd hs := by
        rw [ht]
        exact Multiset.mem_singleton_self t
      obtain ⟨h, hh, htok, -⟩ := mem_tokensOn.mp hmem
      obtain ⟨r, hrm, ho, hp⟩ := (hb.ok h hh).token t q flags off htok (h7 t hmem)
      exact ⟨r, mem_allGrips.mpr (.inl ⟨h, hh, hrm⟩), ho, by rw [hp, h6]⟩

/-- The inode of a descriptor is a file in use. -/
theorem Body.fd_used (hb : Body sb s W hs) (hsl : (W.slot fd).inode = some x) :
    W.image.tree.kind x ≠ none := by
  rcases hb.opened_of_fd hsl with ⟨r, hr, ho, rfl⟩ |
    ⟨h, hh, -, r, hr, H, K, hH, -, hK, k, -, hx, h0⟩
  · rw [(hb.entry r.ptr.id).file r (mem_on.mpr ⟨hr, rfl⟩) ho]
    intro h; contradiction
  · have hall : r ∈ allGrips s.files hs := mem_allGrips.mpr (.inl ⟨h, hh, hr⟩)
    obtain ⟨-, hents, hat⟩ := ((hb.entry r.ptr.id).holds r (mem_on.mpr ⟨hall, rfl⟩) H hH).known K hK
    rw [hents] at hx
    exact hb.cons.tree.used_of_names ⟨hx, h0⟩

end Opened

/-! ## Lock entries when the image changes -/

section Rewriting

variable {I I' : Image} {id : Nat} {entry : Option Entry} {e e' : Entry} {n : Int}
  {F : Multiset Grip} {r r' : Grip}

/-- An inode that is as it was, where it was. -/
structure Stays (I I' : Image) (id : Nat) : Prop where
  inode : I'.inode id = I.inode id
  kind : I'.tree.kind id = I.tree.kind id
  entry : I'.tree.entry id = I.tree.entry id
  at_ : ∀ p, I.tree.At p id → I'.tree.At p id

theorem EntryOk.stays (h : EntryOk I id entry n F) (hs : Stays I I' id) :
    EntryOk I' id entry n F where
  gone := h.gone
  there := h.there
  copy e he hv := by
    rw [hs.inode, hs.kind]
    exact h.copy e he hv
  holds r hr H hH := by
    have hv := h.holds r hr H hH
    refine ⟨fun K hK => ?_, hv.unopened⟩
    obtain ⟨h1, h2, h3⟩ := hv.known K hK
    rw [hs.inode, hs.entry]
    exact ⟨h1, h2, hs.at_ _ h3⟩
  file r hr ho := by
    rw [hs.kind]
    exact h.file r hr ho
  balance := h.balance

/-- An inode that nobody has a lock on and nobody has open. -/
theorem EntryOk.unknown (h : EntryOk I id entry n F) (hr : I.tree.Rules)
    (hk : I.tree.kind id = none) : EntryOk I' id entry n F where
  gone := h.gone
  there := h.there
  copy e he hv := absurd (hk.symm.trans (h.copy e he hv).2) (by intro h; contradiction)
  holds u hu H hH := by
    have hv := h.holds u hu H hH
    refine ⟨fun K hK => ?_, hv.unopened⟩
    obtain ⟨-, -, hat⟩ := hv.known K hK
    exact absurd hk (hr.used_of_at hat)
  file r hr ho := absurd (hk.symm.trans (h.file r hr ho)) (by intro h; contradiction)
  balance := h.balance

/-- Who holds a lock exclusive may change the inode, the entry's copy of it, and what is known. -/
theorem EntryOk.rewrite (h : EntryOk I id (some e) n (r ::ₘ F)) (hx : r.exclusive = true)
    (hptr : r'.ptr = r.ptr) (hopened : r'.opened = r.opened) (hx' : r'.exclusive = true)
    (haddr : e'.addr = e.addr) (hrefs : e'.refs = e.refs) (hcount : e'.openCount = e.openCount)
    (hreaders : e'.readers = e.readers) (hwriter : e'.writer = e.writer)
    (hcopy : e'.inodeValid = true → e'.inode = I'.inode id ∧ I'.tree.kind id = some .file)
    (hhold : ∀ H, r'.hold = some H → H.Valid I' id (r' ::ₘ F))
    (hfile : (∃ u ∈ r ::ₘ F, u.opened = true) → I'.tree.kind id = some .file) :
    EntryOk I' id (some e') n (r' ::ₘ F) := by
  have halone := h.alone hx
  have hsh : ∀ q : Grip, q.exclusive = true → q.shared = false := fun q hq => by
    unfold Grip.exclusive at hq
    unfold Grip.shared
    cases hh : q.hold with
    | none => rfl
    | some H =>
      rw [hh, Option.any_some] at hq
      rw [Option.any_some, hq]
      rfl
  refine ⟨by intros; contradiction, fun e1 he1 => ?_, fun e1 he1 => ?_, fun u hu H hH => ?_,
    fun u hu ho => ?_, ?_⟩
  · obtain rfl := Option.some.inj he1
    refine ⟨Multiset.cons_ne_zero, (h.there e rfl).2.alter hptr haddr hrefs ?_ ?_ ?_ ?_⟩
    · rw [hcount, hopened]
    · rw [hreaders, hsh r hx, hsh r' hx']
    · rw [hwriter, hx, hx']
    · rw [hwriter, hreaders]
      exact (h.there e rfl).2.apart
  · obtain rfl := Option.some.inj he1
    exact hcopy
  · rcases Multiset.mem_cons.mp hu with rfl | hu
    · exact hhold H hH
    · exact absurd ((halone u hu).symm.trans hH) (by intro h; contradiction)
  · refine hfile ?_
    rcases Multiset.mem_cons.mp hu with rfl | hu
    · exact ⟨r, Multiset.mem_cons_self _ _, hopened ▸ ho⟩
    · exact ⟨u, Multiset.mem_cons_of_mem hu, ho⟩
  · have := h.balance
    rw [openedIn_cons] at this ⊢
    rw [hopened]
    exact this

end Rewriting

/-! ## What a change leaves alone -/

section Frames

variable {sb : Superblock} {I I' : Image} {d k x y : Nat} {name : Name} {kd : Kind}

theorem Created.stays (h : Created sb I d name x kd I') (hr : I.tree.Rules) (hd : y ≠ d)
    (hx : y ≠ x) : Stays I I' y := by
  obtain ⟨k, hca, htree⟩ := h.tree
  refine ⟨h.kept.inode y (by simp [hd, hx]), ?_, ?_, fun p hp => ?_⟩
  · rw [htree]
    exact Function.update_of_ne hx _ _
  · rw [htree]
    funext j
    exact Tree.addEntry_other (fun h => hd h.1) hx
  · rw [htree]
    exact (Tree.add_at hr hca).mpr (.inl hp)

theorem Removed.stays (h : Removed I d k x I') (hr : I.tree.Rules) (hcr : I.tree.CanRemove d k x)
    (hd : y ≠ d) (hx : y ≠ x) : Stays I I' y := by
  refine ⟨h.kept.inode y (by simp [hd, hx]), ?_, ?_, fun p hp => ?_⟩
  · rw [h.tree]
    exact Function.update_of_ne hx _ _
  · rw [h.tree]
    funext j
    exact Tree.remove_entry_other (fun h => hd h.1) hx
  · rw [h.tree]
    exact (Tree.remove_at hr hcr).mpr ⟨hp, hx⟩

theorem Changed.stays (h : Changed I x I') (hx : y ≠ x) : Stays I I' y := by
  refine ⟨h.kept.inode y (by simp [hx]), ?_, ?_, fun p hp => ?_⟩
  · rw [h.tree]
  · rw [h.tree]
  · rw [h.tree]
    exact hp

variable {s : FileSystem} {W : World} {hs : Multiset Hands}

/-- The descriptors have the paths they had, if what they are on is where it was. -/
theorem Body.fds_same (hb : Body sb s W hs) (hr : I'.tree.Rules)
    (hat : ∀ fd x p, (W.slot fd).inode = some x → W.image.tree.At p x → I'.tree.At p x) :
    (⟨I', W.slot⟩ : World).abs.fds = W.abs.fds := by
  funext fd
  show (W.slot fd).inode.map _ = (W.slot fd).inode.map _
  cases hsl : (W.slot fd).inode with
  | none => rfl
  | some x =>
    have hrules : W.image.tree.Rules := hb.cons.tree
    obtain ⟨p, hp⟩ := hrules.exists_at (hb.fd_used hsl)
    show some (I'.tree.pathOf x) = some (W.image.tree.pathOf x)
    rw [Tree.pathOf_eq hr (hat fd x p hsl hp), Tree.pathOf_eq hrules hp]

/-- The abstract state after something was made. -/
theorem Created.abs (h : Created sb W.image d name x kd I') (hb : Body sb s W hs)
    (hc : Consistent sb I') (hname : GoodName name) {q : List Name} (hq : W.image.tree.At q d) :
    (⟨I', W.slot⟩ : World).abs
      = ⟨Function.update W.abs.node (q ++ [name]) (some kd), W.abs.fds⟩ ∧
      I'.tree.At (q ++ [name]) x := by
  obtain ⟨k, hca, htree⟩ := h.tree
  have hrules : W.image.tree.Rules := hb.cons.tree
  have hnamed : (makeEntry name x kd.ft).named = name := makeEntry_named hname.le
  have hnode : I'.tree.kindAt = Function.update W.image.tree.kindAt (q ++ [name]) (some kd) := by
    rw [htree, Tree.kindAt_add hrules hca hq, hnamed]
  have hfds := hb.fds_same hc.tree fun fd y p _ hp => by
    rw [htree]
    exact (Tree.add_at hrules hca).mpr (.inl hp)
  constructor
  · calc (⟨I', W.slot⟩ : World).abs
        = ⟨I'.tree.kindAt, (⟨I', W.slot⟩ : World).abs.fds⟩ := rfl
      _ = _ := by rw [hnode, hfds]; rfl
  · rw [htree]
    exact (Tree.add_at hrules hca).mpr (.inr ⟨q, hq, by rw [hnamed], rfl⟩)

/-- The abstract state after something was removed that no descriptor is on. -/
theorem Removed.abs (h : Removed W.image d k x I') (hb : Body sb s W hs) (hc : Consistent sb I')
    (hcr : W.image.tree.CanRemove d k x) (hno : ∀ fd, (W.slot fd).inode ≠ some x) {q : List Name}
    (hq : W.image.tree.At q x) :
    (⟨I', W.slot⟩ : World).abs = ⟨Function.update W.abs.node q none, W.abs.fds⟩ := by
  have hrules : W.image.tree.Rules := hb.cons.tree
  have hnode : I'.tree.kindAt = Function.update W.image.tree.kindAt q none := by
    rw [h.tree, Tree.kindAt_remove hrules hcr hq]
  have hfds := hb.fds_same hc.tree fun fd y p hsl hp => by
    rw [h.tree]
    refine (Tree.remove_at hrules hcr).mpr ⟨hp, fun hy => ?_⟩
    exact hno fd (hy ▸ hsl)
  calc (⟨I', W.slot⟩ : World).abs
      = ⟨I'.tree.kindAt, (⟨I', W.slot⟩ : World).abs.fds⟩ := rfl
    _ = _ := by rw [hnode, hfds]; rfl

/-- A change of one file is none of the abstract state. -/
theorem Changed.abs (h : Changed W.image x I') : (⟨I', W.slot⟩ : World).abs = W.abs := by
  unfold World.abs
  dsimp only
  rw [h.tree]

end Frames

/-! ## Making -/

section Making

variable {sb : Superblock} {s s' : FileSystem} {W : World} {c : Call} {fd : Nat}
  {fin : Call → Reply → List (Deed Act Reply World) → Prop} {D : Diary Call Reply Act World}
  {t : Option Token} {v v' : Option (Nat × Option (Nat × UInt32))} {rest : Multiset Hands}
  {p : EntryPtr} {K : Known} {name : Name} {kd : Kind} {x : Nat} {I' : Image} {flags : UInt32}
  {E : Exn → Ghost Hands Call Reply Act World → Prop} {α : Type}

/-- A stretch that leaves the record of opens alone. -/
theorem ends_opens {p : Fs α} {m : ℕ∞} {Q : α → FileSystem → Prop} {E : Exn → FileSystem → Prop}
    (hp : p.Has opensKept m) (h : p.Ends s (fun a s' => s'.opens = s.opens → Q a s')
      fun e s' => s'.opens = s.opens → E e s') : p.Ends s Q E :=
  (h.and_part (hp s)).mono (fun _ _ h => h.1 h.2) fun _ _ h => h.1 h.2

/-- The one lock of a thread, held exclusive, with what is known under it. -/
def owning (p : EntryPtr) (K : Known) : Grip := ⟨p, false, some ⟨true, some K, false⟩⟩

theorem on_owning (p : EntryPtr) (K : Known) : on p.id {owning p K} = {owning p K} :=
  on_singleton_self rfl

theorem on_owning_cons (p : EntryPtr) (K : Known) (F : Multiset Grip) :
    on p.id (owning p K ::ₘ F) = owning p K ::ₘ on p.id F :=
  on_cons_self rfl

theorem on_owning_other {id : Nat} (p : EntryPtr) (K : Known) (h : id ≠ p.id) :
    on id {owning p K} = 0 :=
  on_singleton_other (Ne.symm h)

/-- A stretch that has left the image as it was. -/
theorem Body.still {h : Hands} (hb : Body sb s W (h ::ₘ rest)) (hs' : Shows sb s' W.image s.side)
    (hopens : s'.opens = s.opens) : Body sb s' W (h ::ₘ rest) := by
  refine hb.commit (by rw [hs'.side]; exact hs') hb.cons (congrArg Side.files hs'.side)
    (fun id R hR => ?_) (fun _ _ _ h => h) fun h => h
  rw [hopens, show s'.entries = s.entries from congrArg Side.entries hs'.side]
  exact hR

/-- Something was made in the directory whose lock is held. -/
theorem Body.created (hb : Body sb s W (⟨{owning p K}, t, v⟩ ::ₘ rest))
    (hshow : Shows sb s' I' s.side) (hopens : s'.opens = s.opens) (hc : Consistent sb I')
    (hcr : Created sb W.image p.id name x kd I') {slot' : Nat → FdState}
    (hslot : ∀ k T X, SlotOk (s.files k) (W.slot k) k T (resvsOn k {⟨{owning p K}, t, v⟩} + X) →
      SlotOk (s.files k) (slot' k) k T
        (resvsOn k {⟨{owning p (I'.known p.id K.path)}, t, v'⟩} + X))
    (hok : Hands.Ok ⟨{owning p K}, t, v⟩ →
      Hands.Ok ⟨{owning p (I'.known p.id K.path)}, t, v'⟩) :
    Body sb s' ⟨I', slot'⟩ (⟨{owning p (I'.known p.id K.path)}, t, v'⟩ ::ₘ rest) := by
  have hrules : W.image.tree.Rules := hb.cons.tree
  obtain ⟨k, hca, htree⟩ := hcr.tree
  have hside := hshow.side
  have hentries : s'.entries = s.entries := congrArg Side.entries hside
  refine hb.commit (by rw [hside]; exact hshow) hc (congrArg Side.files hside) (fun id R hR => ?_)
    (fun k T X hs => ?_) hok
  · rw [hentries, hopens]
    dsimp only at hR ⊢
    by_cases hd : id = p.id
    · subst hd
      rw [on_owning, Multiset.singleton_add] at hR
      rw [on_owning, Multiset.singleton_add]
      obtain ⟨e, he, -, -⟩ := hR.exists_entry
      rw [he] at hR ⊢
      have hno : ∀ {P : Prop}, W.image.tree.kind p.id = some .file → P := fun h =>
        absurd (h.symm.trans hca.dir) (by intro h; contradiction)
      obtain ⟨-, -, hat⟩ := (hR.holds _ (Multiset.mem_cons_self _ _) _ rfl).known K rfl
      refine hR.rewrite rfl rfl rfl rfl rfl rfl rfl rfl rfl (fun hv => hno (hR.copy e rfl hv).2)
        (fun H hH => ?_) (fun ⟨u, hu, ho⟩ => hno (hR.file u hu ho))
      obtain rfl := Option.some.inj hH
      refine ⟨fun K' hK' => ?_, by intros; contradiction⟩
      obtain rfl := Option.some.inj hK'
      refine ⟨rfl, rfl, ?_⟩
      rw [htree]
      exact (Tree.add_at hrules hca).mpr (.inl hat)
    · rw [on_owning_other p K hd, zero_add] at hR
      rw [on_owning_other p _ hd, zero_add]
      by_cases hx : id = x
      · rw [hx] at hR ⊢
        exact hR.unknown hrules hca.unused
      · exact hR.stays (hcr.stays hrules hd hx)
  · rw [show tokensOn k {(⟨{owning p (I'.known p.id K.path)}, t, v'⟩ : Hands)}
      = tokensOn k {⟨{owning p K}, t, v⟩} from tokensOn_congr rfl]
    exact hslot k _ _ hs

/-- What the directory says of the thing just made. -/
theorem Created.named (h : Created sb W.image p.id name x kd I') (hr : W.image.tree.Rules)
    (hname : GoodName name) : (∃ k, 2 ≤ k ∧ (I'.tree.entry p.id k).inodeId.toNat = x ∧ x ≠ 0 ∧
      (I'.tree.entry p.id k).named = name ∧ (I'.tree.entry p.id k).type = kd.ft) ∧ p.id ≠ x := by
  obtain ⟨k, hca, htree⟩ := h.tree
  have hent : I'.tree.entry p.id k = makeEntry name x kd.ft := by
    rw [htree]
    exact Tree.addEntry_self
  refine ⟨⟨k, hr.two_le_of_free hca.dir hca.free, ?_, ?_, ?_, by rw [hent]; rfl⟩, hca.ne⟩
  · rw [hent]
    exact hca.id
  · have := hca.pos
    omega
  · rw [hent]
    exact makeEntry_named hname.le

/-- `create_file`, with the directory's lock held exclusive. -/
theorem createFile_safe (flags : UInt32) (g : Regions sb) (hp : D.phase = .called c)
    (hname : GoodName name)
    (hdir : isDir K.ino = true)
    (hnew : ∀ k, (K.ents k).inodeId ≠ 0 → (K.ents k).named ≠ name)
    (hdone : ∀ W W', W.abs.child (K.path ++ [name]) = .ok none →
      fd < maxOpen → W.abs.fds fd = none → W'.abs =
        ⟨Function.update W.abs.node (K.path ++ [name]) (some .file),
          Function.update W.abs.fds fd (some (K.path ++ [name]))⟩ → Decides sb c (.of fd) W W')
    (hroom : ∀ W e, W.abs.child (K.path ++ [name]) = .ok none →
      NoRoom sb W.image K.path e → Decides sb c (.fail e) W W)
    {Q : Nat → Ghost Hands Call Reply Act World → Prop}
    (hQ : ∀ x K' D', K'.path = K.path → (∃ k, 2 ≤ k ∧ (K'.ents k).inodeId.toNat = x ∧ x ≠ 0 ∧
        (K'.ents k).named = name ∧ (K'.ents k).type = ftFile) → p.id ≠ x →
      Went D [.create fd flags p.id x name] (.decided c (.of fd)) D' →
      Q x ⟨⟨{owning p K'}, none, some (fd, some (x, flags))⟩, D'⟩)
    (hE : ∀ e D', e = .enospc ∨ e = .efbig → Answered D c (.fail e) D' →
      E (.fsError e) ⟨⟨{owning p K}, none, some (fd, none)⟩, D'⟩) :
    (createFile sb K.ino name).atomic.Safe (shared (Body sb) (Legal sb) fin)
      ⟨⟨{owning p K}, none, some (fd, none)⟩, D⟩ Q E := by
  refine safe_stretch fun s W rest hb => ?_
  have hrules : W.image.tree.Rules := hb.cons.tree
  obtain ⟨hk, -, -⟩ := hb.known_range rfl
  obtain ⟨hino, hents, hat⟩ := hb.known rfl
  rw [hino] at hdir ⊢
  rw [hents] at hnew
  have hd : W.image.tree.kind p.id = some .dir := (isDir_iff hk).mp hdir
  have hnone := child_none hrules hat hd hnew
  obtain ⟨hsl, hfd⟩ := hb.slot_reserved
  dsimp only at hsl hfd
  refine ends_opens (createFile_has sb opensKept_countsWrites _ _) ?_
  refine createFile_ends g hb.shows hb.cons hd hname hnew (fun x s' I' hs' hc hcr hopens => ?_)
    (fun s' hs' hfull hopens => ?_) fun s' hs' hbig hopens => ?_
  · obtain ⟨habs, hatx⟩ := hcr.abs hb hc hname hat
    obtain ⟨hnamed, hne⟩ := hcr.named hrules hname
    have hput : (⟨I', Function.update W.slot fd (.reserved (some (x, flags)))⟩ : World).abs =
        ⟨Function.update W.abs.node (K.path ++ [name]) (some .file),
          Function.update W.abs.fds fd (some (K.path ++ [name]))⟩ := by
      calc _ = (World.put ⟨I', W.slot⟩ fd (.reserved (some (x, flags)))).abs := rfl
        _ = ⟨(⟨I', W.slot⟩ : World).abs.node, Function.update (⟨I', W.slot⟩ : World).abs.fds fd
              (some (I'.tree.pathOf x))⟩ := World.abs_put _ _ _
        _ = _ := by
          rw [habs, show I'.tree.pathOf x = K.path ++ [name] from Tree.pathOf_eq hc.tree hatx]
    refine Shift.settle (.create fd flags p.id x name)
      ⟨I', Function.update W.slot fd (.reserved (some (x, flags)))⟩
      (h := ⟨{owning p (I'.known p.id K.path)}, none, some (fd, some (x, flags))⟩) ?_ hp
      ⟨hcr, hsl, rfl⟩
      (hdone W _ hnone hfd ?_ hput) fun D' hD' => ?_
    · refine hb.created hs' hopens hc hcr (fun k T X h => ?_) fun hok => ?_
      · rw [resvsOn_some] at h ⊢
        dsimp only at h ⊢
        by_cases hk : fd = k
        · subst hk
          rw [if_pos rfl, Multiset.singleton_add, hsl] at h
          rw [if_pos rfl, Multiset.singleton_add, Function.update_self]
          exact h.settle x flags
        · rw [if_neg hk] at h
          rw [if_neg hk, Function.update_of_ne (Ne.symm hk)]
          exact h
      · refine ⟨fun r hr ho => ?_, by intros; contradiction, by intros; contradiction,
          fun fd' y fl hv => ?_⟩
        · rw [Multiset.mem_singleton.mp hr] at ho
          exact absurd ho Bool.false_ne_true
        · obtain ⟨-, hy⟩ := Prod.mk.inj (Option.some.inj hv)
          obtain ⟨rfl, -⟩ := Prod.mk.inj (Option.some.inj hy)
          obtain ⟨k, h1, h2, h3, -⟩ := hnamed
          exact .inr ⟨_, Multiset.mem_singleton_self _, _, _, rfl, rfl, rfl, k, h1, h2, h3⟩
    · show (W.slot fd).inode.map _ = none
      rw [hsl]
      rfl
    · exact hQ x _ D' rfl hnamed hne hD'
  · exact Shift.look (hb.still hs' hopens) hp (hroom W .enospc hnone hfull)
      fun D' => hE .enospc D' (.inl rfl)
  · exact Shift.look (hb.still hs' hopens) hp (hroom W .efbig hnone ⟨p.id, hat, hbig⟩)
      fun D' => hE .efbig D' (.inr rfl)

/-- The writes of `vfs_mkdir`, with the parent's lock held exclusive. -/
theorem makeDir_safe (g : Regions sb) (hp : D.phase = .called c) (hname : GoodName name)
    (hdir : isDir K.ino = true) (hnew : ∀ k, (K.ents k).inodeId ≠ 0 → (K.ents k).named ≠ name)
    (hlink : K.ino.linkCount ≠ 65535)
    (hdone : ∀ W W', W.abs.child (K.path ++ [name]) = .ok none →
      W'.abs = ⟨Function.update W.abs.node (K.path ++ [name]) (some .dir), W.abs.fds⟩ →
      Decides sb c (.of 0) W W')
    (hroom : ∀ W e, W.abs.child (K.path ++ [name]) = .ok none →
      NoRoom sb W.image K.path e → Decides sb c (.fail e) W W)
    {Q : Unit → Ghost Hands Call Reply Act World → Prop}
    (hQ : ∀ x K' D', Went D [.mkdir p.id x name] (.decided c (.of 0)) D' →
      Q () ⟨⟨{owning p K'}, none, none⟩, D'⟩)
    (hE : ∀ e D', Answered D c (.fail e) D' →
      E (.fsError e) ⟨⟨{owning p K}, none, none⟩, D'⟩) :
    (makeDir sb p.id K.ino name).atomic.Safe (shared (Body sb) (Legal sb) fin)
      ⟨⟨{owning p K}, none, none⟩, D⟩ Q E := by
  refine safe_stretch fun s W rest hb => ?_
  have hrules : W.image.tree.Rules := hb.cons.tree
  obtain ⟨hk, -, -⟩ := hb.known_range rfl
  obtain ⟨hino, hents, hat⟩ := hb.known rfl
  rw [hino] at hdir hlink ⊢
  rw [hents] at hnew
  have hd : W.image.tree.kind p.id = some .dir := (isDir_iff hk).mp hdir
  have hnone := child_none hrules hat hd hnew
  refine ends_opens (makeDir_has sb opensKept_countsWrites _ _ _) ?_
  refine makeDir_ends g hb.shows hb.cons hd hname hnew hlink (fun x s' I' hs' hc hcr hopens => ?_)
    (fun s' hs' hfull hopens => ?_) fun s' hs' hbig hopens => ?_
  · obtain ⟨habs, -⟩ := hcr.abs hb hc hname hat
    refine Shift.settle (.mkdir p.id x name) ⟨I', W.slot⟩
      (h := ⟨{owning p (I'.known p.id K.path)}, none, none⟩) ?_ hp ⟨hcr, rfl⟩ (hdone W _ hnone habs)
      fun D' hD' => hQ x _ D' hD'
    refine hb.created hs' hopens hc hcr (fun k T X h => h) fun hok => ?_
    refine ⟨fun r hr ho => ?_, by intros; contradiction, by intros; contradiction,
      by intros; contradiction⟩
    rw [Multiset.mem_singleton.mp hr] at ho
    exact absurd ho Bool.false_ne_true
  · exact Shift.look (hb.still hs' hopens) hp (hroom W .enospc hnone hfull) (hE .enospc)
  · exact Shift.look (hb.still hs' hopens) hp (hroom W .efbig hnone ⟨p.id, hat, hbig⟩) (hE .efbig)

end Making

/-! ## Removing -/

section Removing

variable {sb : Superblock} {s s' : FileSystem} {W : World} {c : Call}
  {fin : Call → Reply → List (Deed Act Reply World) → Prop} {D : Diary Call Reply Act World}
  {rest : Multiset Hands} {p q : EntryPtr} {K L : Known} {name : Name} {k : Nat}
  {E : Exn → Ghost Hands Call Reply Act World → Prop}

/-- The hands of a thread that holds a directory and something in it, both exclusive. -/
def twoLocks (p : EntryPtr) (K : Known) (q : EntryPtr) (H : Hold) : Hands :=
  ⟨⟨q, false, some H⟩ ::ₘ {owning p K}, none, none⟩

/-- The hold of a thread that is about to remove something. -/
def Hold.removing (L : Known) : Hold := ⟨true, some L, true⟩

/-- And after that. -/
def Hold.removed : Hold := ⟨true, none, true⟩

/-- Nothing is open under a hold that says so. -/
theorem Body.unopened (hb : Body sb s W (twoLocks p K q (.removing L) ::ₘ rest)) :
    ∀ r ∈ allGrips s.files (twoLocks p K q (.removing L) ::ₘ rest), r.ptr.id = q.id →
      r.opened = false := by
  intro r hr hid
  have hmem : (⟨q, false, some (.removing L)⟩ : Grip)
      ∈ on q.id (allGrips s.files (twoLocks p K q (.removing L) ::ₘ rest)) :=
    mem_on.mpr ⟨mem_allGrips.mpr (.inl ⟨_, Multiset.mem_cons_self _ _,
      Multiset.mem_cons_self (⟨q, false, some (.removing L)⟩ : Grip) {owning p K}⟩), rfl⟩
  exact (((hb.entry q.id).holds _ hmem _ rfl).unopened rfl).2 r (mem_on.mpr ⟨hr, hid⟩)

/-- So no descriptor is on it: an open that has just made it would still hold the directory. -/
theorem Body.no_fd (hb : Body sb s W (twoLocks p K q (.removing L) ::ₘ rest)) (hk : 2 ≤ k)
    (hn : W.image.tree.Names p.id k q.id) (fd : Nat) : (W.slot fd).inode ≠ some q.id := by
  intro hsl
  have hrules : W.image.tree.Rules := hb.cons.tree
  rcases hb.opened_of_fd hsl with ⟨r, hr, ho, hid⟩ |
    ⟨h, hh, hv, r, hr, H, M, hH, -, hM, j, hj, hx, h0⟩
  · exact absurd ((hb.unopened r hr hid).symm.trans ho) Bool.false_ne_true
  · have hall : r ∈ allGrips s.files (twoLocks p K q (.removing L) ::ₘ rest) :=
      mem_allGrips.mpr (.inl ⟨h, hh, hr⟩)
    obtain ⟨-, hents, -⟩ := ((hb.entry r.ptr.id).holds r (mem_on.mpr ⟨hall, rfl⟩) H hH).known M hM
    rw [hents] at hx
    -- the directory it holds is the one this thread holds
    have hdir : r.ptr.id = p.id := hrules.parent_unique ⟨j, hj, hx, h0⟩ ⟨k, hk, hn⟩
    rcases Multiset.mem_cons.mp hh with rfl | hh
    · exact hv rfl
    · have hb' : Body sb s W
          (⟨owning p K ::ₘ {⟨q, false, some (.removing L)⟩}, none, none⟩ ::ₘ rest) := by
        have := hb
        unfold twoLocks at this
        rwa [← Multiset.cons_zero (owning p K), Multiset.cons_swap] at this
      have hent := hb'.entry p.id
      rw [allGrips_cons, on_add] at hent
      dsimp only at hent
      rw [on_owning_cons, Multiset.cons_add] at hent
      obtain ⟨e, he, -, -⟩ := hent.exists_entry
      rw [he] at hent
      have := hent.alone rfl r (Multiset.mem_add.mpr (.inr (mem_on.mpr
        ⟨mem_allGrips.mpr (.inl ⟨h, hh, hr⟩), hdir⟩)))
      exact absurd (this.symm.trans hH) (by intro h; contradiction)

variable {H H' : Hold} {I' : Image} {e e' : Entry} {r : Side}

theorem on_pair_child (hne : p.id ≠ q.id) :
    on q.id (twoLocks p K q H).grips = {⟨q, false, some H⟩} := by
  show on q.id (⟨q, false, some H⟩ ::ₘ {owning p K}) = _
  rw [on_cons_self (r := ⟨q, false, some H⟩) rfl, on_owning_other p K (Ne.symm hne)]
  rfl

theorem on_pair_dir (hne : p.id ≠ q.id) : on p.id (twoLocks p K q H).grips = {owning p K} := by
  show on p.id (⟨q, false, some H⟩ ::ₘ {owning p K}) = _
  rw [on_cons_other (r := ⟨q, false, some H⟩) (Ne.symm hne), on_owning]

theorem on_pair_other {id : Nat} (hq : id ≠ q.id) (hp : id ≠ p.id) :
    on id (twoLocks p K q H).grips = 0 := by
  show on id (⟨q, false, some H⟩ ::ₘ {owning p K}) = _
  rw [on_cons_other (r := ⟨q, false, some H⟩) (Ne.symm hq), on_owning_other p K hp]

theorem Hands.ok_pair : Hands.Ok (twoLocks p K q H) where
  opened u hu ho := by
    have hu : u ∈ (⟨q, false, some H⟩ : Grip) ::ₘ {owning p K} := hu
    rcases Multiset.mem_cons.mp hu with rfl | hu
    · exact absurd ho Bool.false_ne_true
    · rw [Multiset.mem_singleton.mp hu] at ho
      exact absurd ho Bool.false_ne_true
  token := by intros; contradiction
  dead := by intros; contradiction
  resv := by intros; contradiction

/-- What was held is gone; its lock is still there. -/
theorem Body.removed (hb : Body sb s W (twoLocks p K q (.removing L) ::ₘ rest))
    (hshow : Shows sb s' I' r) (hfiles : r.files = s.files)
    (hentries : r.entries = Function.update s.entries q.id (some e')) (he : s.entries q.id = some e)
    (hcounts : e'.addr = e.addr ∧ e'.refs = e.refs ∧ e'.openCount = e.openCount ∧
      e'.readers = e.readers ∧ e'.writer = e.writer) (hstale : e'.inodeValid = false)
    (hopens : s'.opens = s.opens) (hc : Consistent sb I')
    (hcr : W.image.tree.CanRemove p.id k q.id) (hrm : Removed W.image p.id k q.id I') :
    Body sb s' ⟨I', W.slot⟩ (twoLocks p (I'.known p.id K.path) q .removed ::ₘ rest) := by
  have hrules : W.image.tree.Rules := hb.cons.tree
  have hne : p.id ≠ q.id := hrules.ne_of_child hcr.child
  have hdir : W.image.tree.kind p.id = some .dir := hrules.kind_of_names hcr.names
  refine hb.commit (by rw [hshow.side]; exact hshow) hc
    ((congrArg Side.files hshow.side).trans hfiles)
    (fun id R hR => ?_) (fun k T X hs => hs) fun _ => Hands.ok_pair
  rw [show s'.entries = r.entries from congrArg Side.entries hshow.side, hentries, hopens]
  dsimp only
  by_cases hq : id = q.id
  · -- what was removed: its copy is stale now, and it is not open
    subst hq
    rw [on_pair_child hne, Multiset.singleton_add, he] at hR
    rw [on_pair_child hne, Multiset.singleton_add, Function.update_self]
    obtain ⟨h1, h2, h3, h4, h5⟩ := hcounts
    have hun := ((hR.holds _ (Multiset.mem_cons_self _ _) _ rfl).unopened rfl).2
    refine hR.rewrite rfl rfl rfl rfl h1 h2 h3 h4 h5 (fun hv => ?_) (fun H hH => ?_)
      fun ⟨u, hu, ho⟩ => ?_
    · exact absurd (hstale.symm.trans hv) Bool.false_ne_true
    · obtain rfl := Option.some.inj hH
      refine ⟨by intros; contradiction, fun _ => ⟨rfl, fun u hu => ?_⟩⟩
      rcases Multiset.mem_cons.mp hu with rfl | hu
      · rfl
      · exact hun u (Multiset.mem_cons_of_mem hu)
    · exact absurd ((hun u hu).symm.trans ho) Bool.false_ne_true
  · rw [Function.update_of_ne hq]
    by_cases hp : id = p.id
    · -- the directory: what is known of it is read again
      subst hp
      rw [on_pair_dir hne, Multiset.singleton_add] at hR
      rw [on_pair_dir hne, Multiset.singleton_add]
      obtain ⟨e, he, -, -⟩ := hR.exists_entry
      rw [he] at hR ⊢
      have hno : ∀ {P : Prop}, W.image.tree.kind p.id = some .file → P := fun h =>
        absurd (h.symm.trans hdir) (by intro h; contradiction)
      obtain ⟨-, -, hat⟩ := (hR.holds _ (Multiset.mem_cons_self _ _) _ rfl).known K rfl
      refine hR.rewrite rfl rfl rfl rfl rfl rfl rfl rfl rfl (fun hv => hno (hR.copy e rfl hv).2)
        (fun H hH => ?_) (fun ⟨u, hu, ho⟩ => hno (hR.file u hu ho))
      obtain rfl := Option.some.inj hH
      refine ⟨fun K' hK' => ?_, by intros; contradiction⟩
      obtain rfl := Option.some.inj hK'
      refine ⟨rfl, rfl, ?_⟩
      rw [hrm.tree]
      exact (Tree.remove_at hrules hcr).mpr ⟨hat, hq⟩
    · -- all others are as they were
      rw [on_pair_other hq hp, zero_add] at hR
      rw [on_pair_other hq hp, zero_add]
      exact hR.stays (hrm.stays hrules hcr hp hq)

/-- What is known under the two locks. -/
theorem Body.pair_known (hb : Body sb s W (twoLocks p K q H ::ₘ rest)) (hL : H.known = some L) :
    (L.ino = W.image.inode q.id ∧ L.ents = W.image.tree.entry q.id ∧ W.image.tree.At L.path q.id) ∧
    K.ino = W.image.inode p.id ∧ K.ents = W.image.tree.entry p.id ∧
    W.image.tree.At K.path p.id := by
  refine ⟨hb.known hL, ?_⟩
  have : Body sb s W (⟨owning p K ::ₘ {⟨q, false, some H⟩}, none, none⟩ ::ₘ rest) := by
    have := hb
    unfold twoLocks at this
    rwa [← Multiset.cons_zero (owning p K), Multiset.cons_swap] at this
  exact this.known rfl

/-- An exclusive lock on something that is not open keeps it from being opened. -/
theorem Body.removing (hb : Body sb s W (twoLocks p K q ⟨true, some L, false⟩ ::ₘ rest))
    (he : s.entries q.id = some e) (h0 : e.openCount = 0) :
    Body sb s W (twoLocks p K q (.removing L) ::ₘ rest) := by
  refine Body.alter (r := ⟨q, false, some ⟨true, some L, false⟩⟩) hb hb.shows rfl (fun _ _ => rfl)
    rfl (fun e' R' he' hR' => ⟨e', ?_, ?_⟩) fun _ => Hands.ok_pair
  · dsimp only at he' ⊢
    rw [← he', Function.update_eq_self]
  · dsimp only at he' hR' ⊢
    obtain rfl := Option.some.inj (he.symm.trans he')
    obtain ⟨-, hc'⟩ := hR'.there e rfl
    -- the count is that of the open grips, so none of them is
    have hnone := hc'.opened
    rw [h0] at hnone
    have hbal := hR'.balance
    rw [openedIn_cons] at hbal
    refine hR'.alter (fun hc => hc.alter rfl rfl rfl rfl rfl rfl hc.apart) (fun hv => ⟨rfl, hv⟩)
      (fun H' hH' => ?_) (fun h1 h2 => absurd (h2.symm.trans h1) Bool.false_ne_true)
      (fun ho => absurd ho Bool.false_ne_true) (by rw [openedIn_cons]; exact hbal)
    obtain rfl := Option.some.inj hH'
    refine ⟨(hR'.holds _ (Multiset.mem_cons_self _ _) _ rfl).known, fun _ => ⟨rfl, fun u hu => ?_⟩⟩
    rcases Multiset.mem_cons.mp hu with rfl | hu
    · rfl
    · have := Multiset.countP_eq_zero.mp hnone.symm u (Multiset.mem_cons_of_mem hu)
      simpa using this

/-- A directory is never open. -/
theorem Body.removing_dir (hb : Body sb s W (twoLocks p K q ⟨true, some L, false⟩ ::ₘ rest))
    (hkd : kindOf L.ino = some .dir) : Body sb s W (twoLocks p K q (.removing L) ::ₘ rest) := by
  obtain ⟨⟨hino', -, -⟩, -⟩ := hb.pair_known rfl
  obtain ⟨e, R, he, -, hR⟩ := hb.exists_entry
  dsimp only at he hR
  refine hb.removing he ?_
  obtain ⟨-, hc⟩ := hR.there e rfl
  rw [hc.opened]
  refine Multiset.countP_eq_zero.mpr fun r hr ho => ?_
  have hfile := hR.file r hr ho
  rw [show W.image.tree.kind q.id = some .dir from by
    show kindOf (W.image.inode q.id) = _
    rw [← hino']
    exact hkd] at hfile
  exact absurd hfile (by intro h; contradiction)

/-- The writes of `vfs_unlink` and `vfs_rmdir`, in the state that the stretch has come to. -/
theorem Body.remove_ends (g : Regions sb) (hp : D.phase = .called c)
    (hb : Body sb s W (twoLocks p K q (.removing L) ::ₘ rest)) (hk : 2 ≤ k)
    (hid : (K.ents k).inodeId.toNat = q.id) (h0 : q.id ≠ 0) (hname : (K.ents k).named = name)
    (hempty : ∀ j, 2 ≤ j → L.ents j = .zero) {kd : Kind} (hkd : kindOf L.ino = some kd)
    {links : UInt16} (hlinks : links.toNat = kd.dots) {s1 : FileSystem}
    (hshow : Shows sb s1 W.image r) (hfiles : r.files = s.files)
    (hentries : r.entries = Function.update s.entries q.id (some e')) (he : s.entries q.id = some e)
    (hcounts : e'.addr = e.addr ∧ e'.refs = e.refs ∧ e'.openCount = e.openCount ∧
      e'.readers = e.readers ∧ e'.writer = e.writer) (hstale : e'.inodeValid = false)
    (hopens : s1.opens = s.opens)
    (hdone : ∀ W W', W.abs.child (K.path ++ [name]) = .ok (some kd) →
      (∀ fd, W.abs.fds fd ≠ some (K.path ++ [name])) →
      (∀ n, W.abs.node (K.path ++ [name] ++ [n]) = none) →
      W'.abs = ⟨Function.update W.abs.node (K.path ++ [name]) none, W.abs.fds⟩ →
      Decides sb c (.of 0) W W')
    {R : Ghost Hands Call Reply Act World → Prop} {E' : Exn → FileSystem → Prop}
    (hR : ∀ K' D', Went D [.remove p.id k q.id] (.decided c (.of 0)) D' →
      R ⟨twoLocks p K' q .removed, D'⟩) :
    (removeEntry sb K.ino name q.id L.ino links).Ends s1
      (fun _ s' => Shift (Body sb) (Legal sb) s' W rest D R) E' := by
  have hrules : W.image.tree.Rules := hb.cons.tree
  obtain ⟨⟨hino', hents', -⟩, hino, hents, hat⟩ := hb.pair_known rfl
  rw [hents] at hid hname
  rw [hents'] at hempty
  have hn : W.image.tree.Names p.id k q.id := ⟨hid, h0⟩
  have hcr : W.image.tree.CanRemove p.id k q.id := ⟨hk, hn, hempty⟩
  have hq : W.image.tree.At (K.path ++ [name]) q.id := .child hat hk hn hname
  have hdir : W.image.tree.kind p.id = some .dir := hrules.kind_of_names hn
  have hkind : W.image.tree.kind q.id = some kd := by
    show kindOf (W.image.inode q.id) = _
    rw [← hino']
    exact hkd
  have hno := hb.no_fd hk hn
  rw [hino, hino']
  refine ends_opens (removeEntry_has sb opensKept_countsWrites _ _ _ _ _) ?_
  refine removeEntry_ends g hshow hb.cons hcr hname hkind hlinks fun s' I' hs' hc hrm ho => ?_
  have habs := hrm.abs hb hc hcr hno hq
  refine Shift.settle (.remove p.id k q.id) ⟨I', W.slot⟩
    (h := twoLocks p (I'.known p.id K.path) q .removed)
    (hb.removed hs' hfiles hentries he hcounts hstale (ho.trans hopens) hc hcr hrm) hp
    ⟨hcr, hrm, rfl, hno⟩ (hdone W _ ?_ (fun fd hfd => ?_) (fun n => ?_) habs)
    fun D' hD' => hR _ D' hD'
  · rw [child_of_at hrules hat hdir, node_of_at hrules hq, hkind]
  · -- what is at the path is what is removed
    obtain ⟨y, hy, hpath⟩ := Option.map_eq_some_iff.mp hfd
    obtain ⟨p', hp'⟩ := hrules.exists_at (hb.fd_used hy)
    rw [Tree.pathOf_eq hrules hp'] at hpath
    rw [hpath] at hp'
    exact hno fd (by rw [hy, hrules.at_unique hp' hq])
  · refine Tree.kindAt_none fun y hy => ?_
    obtain ⟨d, j, hd, hj, hnj, -⟩ := Tree.at_snoc.mp hy
    rw [hrules.at_unique hd hq] at hnj
    exact Tree.not_names_zero (hempty j hj) hnj

/-- The end of `vfs_unlink`: the copy of the inode is given up and the file removed. -/
theorem removeFile_safe (g : Regions sb) (hp : D.phase = .called c) (hk : 2 ≤ k)
    (hid : (K.ents k).inodeId.toNat = q.id) (h0 : q.id ≠ 0) (hname : (K.ents k).named = name)
    (hkd : kindOf L.ino = some .file)
    (hdone : ∀ W W', W.abs.child (K.path ++ [name]) = .ok (some .file) →
      (∀ fd, W.abs.fds fd ≠ some (K.path ++ [name])) →
      W'.abs = ⟨Function.update W.abs.node (K.path ++ [name]) none, W.abs.fds⟩ →
      Decides sb c (.of 0) W W')
    {Q : Unit → Ghost Hands Call Reply Act World → Prop}
    (hQ : ∀ K' D', Went D [.remove p.id k q.id] (.decided c (.of 0)) D' →
      Q () ⟨twoLocks p K' q .removed, D'⟩) :
    (do
      changeEntry q fun e => { e with inodeValid := false }
      let ino ← readInode sb q.id
      removeEntry sb K.ino name q.id ino 0 : Fs Unit).atomic.Safe (shared (Body sb) (Legal sb) fin)
      ⟨twoLocks p K q (.removing L), D⟩ Q E := by
  refine safe_stretch fun s W rest hb => ?_
  have hrules : W.image.tree.Rules := hb.cons.tree
  obtain ⟨-, h1, h2⟩ := hb.known_range rfl
  obtain ⟨⟨hino', hents', -⟩, -⟩ := hb.pair_known rfl
  obtain ⟨e, R, he, ha, -⟩ := hb.exists_entry
  dsimp only at he ha
  have hempty : ∀ j, 2 ≤ j → L.ents j = .zero := fun j _ => by
    rw [hents']
    refine hrules.entry_unused ?_ j
    show kindOf (W.image.inode q.id) ≠ _
    rw [← hino', hkd]
    intro h; contradiction
  rw [Prog.ends_bind]
  -- the record of opens is not touched here either
  have hopens : ∀ s', Shows sb s' W.image (s.side.put q.id (some { e with inodeValid := false })) →
      s'.opens = s.opens → (do
        let ino ← readInode sb q.id
        removeEntry sb K.ino name q.id ino 0 : Fs Unit).Ends s'
        (fun _ s'' => Shift (Body sb) (Legal sb) s'' W rest D (Q ()))
        fun e s'' => Shift (Body sb) (Legal sb) s'' W rest D (E e) := by
    intro s' hs' ho
    rw [Prog.ends_bind]
    refine readInode_ends g hs' h1 h2 ?_
    rw [← hino']
    exact hb.remove_ends g hp hk hid h0 hname hempty hkd rfl hs' rfl rfl he
      ⟨rfl, rfl, rfl, rfl, rfl⟩ rfl ho (fun W W' a d _ f => hdone W W' a d f) hQ
  have hstale : (changeEntry q fun e => { e with inodeValid := false }).Ends s
      (fun _ s' => Shows sb s' W.image (s.side.put q.id (some { e with inodeValid := false })))
      fun _ _ => False := changeEntry_ends hb.shows he ha _ fun s' hs' => hs'
  refine (hstale.and_part (changeEntry_has opensKept_countsWrites.toIgnoresLocks q _ s)).mono
    (fun _ s' h => hopens s' h.1 h.2) fun _ _ h => h.1.elim

/-- The end of `vfs_rmdir`. -/
theorem removeDir_safe (g : Regions sb) (hp : D.phase = .called c) (hk : 2 ≤ k)
    (hid : (K.ents k).inodeId.toNat = q.id) (h0 : q.id ≠ 0) (hname : (K.ents k).named = name)
    (hkd : kindOf L.ino = some .dir) (hempty : ∀ j, 2 ≤ j → L.ents j = .zero)
    (hdone : ∀ W W', W.abs.child (K.path ++ [name]) = .ok (some .dir) →
      (∀ n, W.abs.node (K.path ++ [name] ++ [n]) = none) →
      W'.abs = ⟨Function.update W.abs.node (K.path ++ [name]) none, W.abs.fds⟩ →
      Decides sb c (.of 0) W W')
    {Q : Unit → Ghost Hands Call Reply Act World → Prop}
    (hQ : ∀ K' D', Went D [.remove p.id k q.id] (.decided c (.of 0)) D' →
      Q () ⟨twoLocks p K' q .removed, D'⟩) :
    (removeEntry sb K.ino name q.id L.ino 1).atomic.Safe (shared (Body sb) (Legal sb) fin)
      ⟨twoLocks p K q (.removing L), D⟩ Q E := by
  refine safe_stretch fun s W rest hb => ?_
  obtain ⟨⟨hino', -, -⟩, -⟩ := hb.pair_known rfl
  obtain ⟨e, R, he, ha, hR⟩ := hb.exists_entry
  dsimp only at he ha hR
  -- only the copy of a file's inode is ever kept
  have hstale : e.inodeValid = false := by
    by_contra hv
    rw [Bool.not_eq_false] at hv
    have hfile := (hR.copy e rfl hv).2
    rw [show W.image.tree.kind q.id = some .dir from by
      show kindOf (W.image.inode q.id) = _
      rw [← hino']
      exact hkd] at hfile
    exact absurd hfile (by intro h; contradiction)
  refine hb.remove_ends g hp hk hid h0 hname hempty hkd rfl hb.shows rfl
    (?_ : s.side.entries = _) he ⟨rfl, rfl, rfl, rfl, rfl⟩ hstale rfl
    (fun W W' a _ d f => hdone W W' a d f) hQ
  rw [← he, Function.update_eq_self]
  rfl

/-- The copy of an inode is given up. -/
theorem staleEntry_safe {G : Multiset Grip} {t : Option Token}
    {v : Option (Nat × Option (Nat × UInt32))} {o : Bool}
    {U : Unit → Ghost Hands Call Reply Act World → Prop}
    (hU : U () ⟨⟨⟨q, o, some H⟩ ::ₘ G, t, v⟩, D⟩) :
    (changeEntry q fun e => { e with inodeValid := false }).Safe (shared (Body sb) (Legal sb) fin)
      ⟨⟨⟨q, o, some H⟩ ::ₘ G, t, v⟩, D⟩ U E := by
  refine safe_step fun s W rest hb => ⟨.inl rfl, fun _ => ?_⟩
  obtain ⟨e, R, he, ha, hR⟩ := hb.exists_entry
  dsimp only at he ha hR
  rw [FileSystem.entryAt_of he ha, FileSystem.mapEntry_of he ha]
  refine Shift.quiet ?_ hU
  refine hb.alter (hb.shows.still rfl rfl rfl) rfl (fun _ _ => rfl) rfl (fun e' R' he' hR' => ?_)
    fun hok => hok
  obtain rfl := Option.some.inj (he.symm.trans he')
  refine ⟨_, rfl, hR'.alter (fun hc => ?_) (fun hv => absurd hv Bool.false_ne_true)
    (fun H' hH' => hR'.holds _ (Multiset.mem_cons_self _ _) H' hH')
    (fun h1 h2 => absurd (h2.symm.trans h1) Bool.false_ne_true)
    (fun ho => hR'.file _ (Multiset.mem_cons_self _ _) ho) hR'.balance⟩
  exact hc.alter rfl rfl rfl rfl rfl rfl hc.apart

/-- `vfs_unlink` looks whether the file is open, with its lock held exclusive. -/
theorem openCount_safe (hname : L.path = K.path ++ [name])
    {Q : Nat → Ghost Hands Call Reply Act World → Prop}
    (hzero : Q 0 ⟨twoLocks p K q (.removing L), D⟩)
    (hopen : ∀ n > 0, ∀ s W rest, Body sb s W (twoLocks p K q ⟨true, some L, false⟩ ::ₘ rest) →
      (∃ fd, W.abs.fds fd = some (K.path ++ [name])) →
      Shift (Body sb) (Legal sb) s W rest D (Q n)) :
    (readEntry q (·.openCount)).Safe (shared (Body sb) (Legal sb) fin)
      ⟨twoLocks p K q ⟨true, some L, false⟩, D⟩ Q E := by
  refine safe_step fun s W rest hb => ⟨.inl rfl, fun _ => ?_⟩
  have hrules : W.image.tree.Rules := hb.cons.tree
  obtain ⟨e, R, he, ha, -⟩ := hb.exists_entry
  dsimp only [id] at he ha ⊢
  rw [FileSystem.entryAt_of he ha]
  dsimp only
  have hent := hb.entry q.id
  rw [he] at hent
  obtain ⟨-, hc⟩ := hent.there e rfl
  rcases Nat.eq_zero_or_pos e.openCount with h0 | hpos
  · -- nobody has it open, and nobody can open it while the lock is held
    rw [h0]
    exact Shift.quiet (hb.removing he h0) hzero
  · refine hopen _ hpos s W rest hb ?_
    have hex : ∃ r ∈ on q.id (allGrips s.files (twoLocks p K q ⟨true, some L, false⟩ ::ₘ rest)),
        r.opened = true := by
      rw [hc.opened] at hpos
      exact Multiset.countP_pos.mp hpos
    obtain ⟨r, hr, ho⟩ := hex
    obtain ⟨hr, hid⟩ := mem_on.mp hr
    obtain ⟨fd, -, hfd⟩ := hb.fd_of_opened hr ho
    refine ⟨fd, ?_⟩
    obtain ⟨⟨-, -, hat⟩, -⟩ := hb.pair_known rfl
    show (W.slot fd).inode.map _ = _
    rw [hfd, hid]
    show some (W.image.tree.pathOf q.id) = _
    rw [Tree.pathOf_eq hrules hat, hname]

end Removing

/-! ## The contents of files -/

section Data

variable {sb : Superblock} {s s' : FileSystem} {W : World} {c : Call}
  {fin : Call → Reply → List (Deed Act Reply World) → Prop} {D : Diary Call Reply Act World}
  {G : Multiset Grip} {t : Option Token} {v : Option (Nat × Option (Nat × UInt32))}
  {rest : Multiset Hands} {q : EntryPtr} {o : Bool} {L : Known} {H : Hold}
  {e e' : Entry} {I' : Image}
  {E : Exn → Ghost Hands Call Reply Act World → Prop}

/-- A file whose lock is held exclusive has changed, and the copy of its inode with it. -/
theorem Body.rewritten (hb : Body sb s W (⟨⟨q, o, some ⟨true, some L, false⟩⟩ ::ₘ G,
    t, v⟩ ::ₘ rest))
    (hv : ∀ fd f, v ≠ some (fd, some f)) (hshow : Shows sb s' I' (s.side.put q.id (some e')))
    (he : s.entries q.id = some e) (hcounts : e'.addr = e.addr ∧ e'.refs = e.refs ∧
      e'.openCount = e.openCount ∧ e'.readers = e.readers ∧ e'.writer = e.writer)
    (hcopy : e'.inodeValid = true → e'.inode = I'.inode q.id) (hopens : s'.opens = s.opens)
    (hc : Consistent sb I') (hch : Changed W.image q.id I')
    (hfile : W.image.tree.kind q.id = some .file) :
    Body sb s' ⟨I', W.slot⟩
      (⟨⟨q, o, some ⟨true, some (I'.known q.id L.path), false⟩⟩ ::ₘ G, t, v⟩ ::ₘ rest) := by
  have hkind : I'.tree.kind q.id = some .file := by
    rw [hch.tree]
    exact hfile
  refine hb.commit (by rw [hshow.side]; exact hshow) hc (congrArg Side.files hshow.side)
    (fun id R hR => ?_) (fun k T X hs => ?_) fun hok => ?_
  · rw [show s'.entries = Function.update s.entries q.id (some e') from
      congrArg Side.entries hshow.side, hopens]
    dsimp only at hR ⊢
    by_cases hq : id = q.id
    · subst hq
      rw [on_cons_self (r := ⟨q, o, some ⟨true, some L, false⟩⟩) rfl, Multiset.cons_add, he] at hR
      rw [on_cons_self (r := ⟨q, o, some ⟨true, some (I'.known q.id L.path), false⟩⟩) rfl,
        Multiset.cons_add, Function.update_self]
      obtain ⟨h1, h2, h3, h4, h5⟩ := hcounts
      obtain ⟨-, -, hat⟩ := (hR.holds _ (Multiset.mem_cons_self _ _) _ rfl).known L rfl
      refine hR.rewrite rfl rfl rfl rfl h1 h2 h3 h4 h5 (fun hv => ⟨hcopy hv, hkind⟩)
        (fun H hH => ?_) fun _ => hkind
      obtain rfl := Option.some.inj hH
      refine ⟨fun K' hK' => ?_, by intros; contradiction⟩
      obtain rfl := Option.some.inj hK'
      refine ⟨rfl, rfl, ?_⟩
      rw [hch.tree]
      exact hat
    · rw [on_cons_other (r := ⟨q, o, some ⟨true, some L, false⟩⟩) (Ne.symm hq)] at hR
      rw [Function.update_of_ne hq,
        on_cons_other (r := ⟨q, o, some ⟨true, some (I'.known q.id L.path), false⟩⟩) (Ne.symm hq)]
      exact hR.stays (hch.stays hq)
  · rw [show tokensOn k {(⟨⟨q, o, some ⟨true, some (I'.known q.id L.path), false⟩⟩ ::ₘ G,
      t, v⟩ : Hands)}
        = tokensOn k {⟨⟨q, o, some ⟨true, some L, false⟩⟩ ::ₘ G, t, v⟩} from tokensOn_congr rfl,
      show resvsOn k {(⟨⟨q, o, some ⟨true, some (I'.known q.id L.path), false⟩⟩ ::ₘ G,
        t, v⟩ : Hands)}
        = resvsOn k {⟨⟨q, o, some ⟨true, some L, false⟩⟩ ::ₘ G, t, v⟩} from resvsOn_congr rfl]
    exact hs
  · exact hok.alterHold rfl rfl (.inr fun fd x flags hvs => absurd hvs (hv fd _))

/-- What `O_TRUNC` does, with the file's lock held exclusive. -/
theorem truncateFile_safe (file : InodeLock) (g : Regions sb)
    (hv : ∀ fd f, v ≠ some (fd, some f)) (hp : D.phase.call = some c)
    (hkd : kindOf L.ino = some .file)
    {U : Unit → Ghost Hands Call Reply Act World → Prop}
    (hU : ∀ L' D', L'.path = L.path → kindOf L'.ino = some .file →
      Went D [.truncate file.id] D.phase D' →
      U () ⟨⟨⟨file.entry, o, some ⟨true, some L', false⟩⟩ ::ₘ G, t, v⟩, D'⟩) :
    (truncateFile sb file file.id).atomic.Safe (shared (Body sb) (Legal sb) fin)
      ⟨⟨⟨file.entry, o, some ⟨true, some L, false⟩⟩ ::ₘ G, t, v⟩, D⟩ U E := by
  refine safe_stretch fun s W rest hb => ?_
  obtain ⟨hino, -, -⟩ := hb.known rfl
  obtain ⟨e, R, he, ha, -⟩ := hb.exists_entry
  dsimp only at he ha
  have hfile : W.image.tree.kind file.id = some .file := by
    show kindOf (W.image.inode file.entry.id) = _
    rw [← hino]
    exact hkd
  refine ends_opens (truncateFile_has sb opensKept_countsWrites _ _) ?_
  refine truncateFile_ends g hb.shows hb.cons hfile he ha fun s' I' hs' hc htr ho => ?_
  refine Shift.note (.truncate file.id) ⟨I', W.slot⟩
    (hb.rewritten hv hs' he ⟨rfl, rfl, rfl, rfl, rfl⟩ (fun h => absurd h Bool.false_ne_true) ho hc
      htr.toChanged hfile) hp ⟨htr, rfl⟩ htr.toChanged.abs fun D' hD' => hU _ D' rfl ?_ hD'
  have : I'.tree.kind file.id = some .file := by
    rw [htr.tree]
    exact hfile
  exact this

/-! ### Through a descriptor -/

variable {fd off : Nat} {p : EntryPtr} {flags : UInt32} {α : Type}

/-- The hands of a thread that uses an open descriptor and holds the lock of its file. -/
def onFile (fd : Nat) (p : EntryPtr) (flags : UInt32) (off : Nat) (H : Hold) : Hands :=
  ⟨{⟨p, true, some H⟩}, some ⟨fd, some (p, flags, off), false⟩, none⟩

/-- An open descriptor is on a file, which is somewhere. -/
theorem Body.file_at (hb : Body sb s W (⟨⟨p, true, some H⟩ ::ₘ G, t, v⟩ ::ₘ rest)) :
    W.image.tree.kind p.id = some .file := by
  obtain ⟨e, R, -, -, hR⟩ := hb.exists_entry
  exact hR.file _ (Multiset.mem_cons_self _ _) rfl

/-- The lock of the file of a descriptor. -/
theorem lockFile_safe {exclusive : Bool} {U : Unit → Ghost Hands Call Reply Act World → Prop}
    (hU : ∀ K, U () ⟨onFile fd p flags off ⟨exclusive, some K, false⟩, D⟩) :
    (lockEntry p exclusive).Safe (shared (Body sb) (Legal sb) fin)
      ⟨atFd fd (some (p, flags, off)), D⟩ U E := by
  refine lockEntry_safe (G := 0) (P := fun _ => True)
    (fun r hr => absurd hr (Multiset.notMem_zero r))
    (fun s W rest hb => ?_) fun K _ => hU K
  obtain ⟨e, R, -, -, hR⟩ := hb.exists_entry
  have hk := hR.file _ (Multiset.mem_cons_self _ _) rfl
  have hrules : W.image.tree.Rules := hb.cons.tree
  obtain ⟨path, hpath⟩ := hrules.exists_at (x := p.id) (by rw [hk]; intro h; contradiction)
  refine ⟨path, hpath, trivial, rank_le ?_ fun r hr => absurd hr (Multiset.notMem_zero r)⟩
  show (1 : ℕ∞) ≤ ((1 + path.length : Nat) : ℕ∞)
  exact_mod_cast Nat.le_add_right 1 _

theorem unlockFile_safe {exclusive : Bool} (hx : H.exclusive = exclusive)
    {U : Unit → Ghost Hands Call Reply Act World → Prop}
    (hU : U () ⟨atFd fd (some (p, flags, off)), D⟩) :
    (unlockEntry p exclusive).Safe (shared (Body sb) (Legal sb) fin) ⟨onFile fd p flags off H, D⟩
      U E :=
  unlockEntry_safe (G := 0) hx (by intros; contradiction) hU

/-- What `file_inode` finds under the lock of a file is what is known of it. -/
theorem Body.fileInode_ends (g : Regions sb) (hb : Body sb s W (onFile fd p flags off H ::ₘ rest))
    {Q : Inode → FileSystem → Prop} {E : Exn → FileSystem → Prop} (hQ : Q (W.image.inode p.id) s) :
    (fileInode sb p p.id).Ends s Q E := by
  have hb' : Body sb s W (⟨⟨p, true, some H⟩ ::ₘ 0, some ⟨fd, some (p, flags, off), false⟩,
    none⟩ ::ₘ rest) := hb
  have hk := hb'.file_at
  obtain ⟨e, R, he, ha, hR⟩ := hb'.exists_entry
  dsimp only at he ha hR
  obtain ⟨h1, h2, -⟩ := hb.cons.ibit_of_kind (x := p.id)
    (by rw [show kindOf (W.image.inode p.id) = some .file from hk]; intro h; contradiction)
  exact ConcurrentFs.fileInode_ends g hb.shows he ha (fun hv => (hR.copy e rfl hv).1) h1 h2 hQ

/-- What `vfs_read` does under the file's lock. -/
theorem readLocked_safe (g : Regions sb) (n : Nat) (hp : D.phase = .called c)
    (hdec : ∀ a W, Decides sb c a W W) {Q : List UInt8 → Ghost Hands Call Reply Act World → Prop}
    (hQ : ∀ data D', Went D [.read fd p.id off n data]
        (.decided c ⟨data.length, data, none, []⟩) D' → Q data ⟨onFile fd p flags off H, D'⟩)
    (hE : E (.fsError .efbig) ⟨onFile fd p flags off H, D⟩) :
    (do
      let ino ← fileInode sb p p.id
      let pos ← Prog.view fun s => (s.files fd).offset
      readRange sb ino pos n).atomic.Safe (shared (Body sb) (Legal sb) fin)
      ⟨onFile fd p flags off H, D⟩ Q E := by
  refine safe_stretch fun s W rest hb => ?_
  obtain ⟨hsl, -, -, -, h4, -⟩ := hb.slot_live
  rw [Prog.ends_bind]
  refine hb.fileInode_ends g ?_
  rw [Prog.ends_bind, Prog.ends_view, h4]
  refine readRange_ends g hb.shows hb.cons ?_ fun _ => Shift.quiet hb hE
  exact Shift.settle (.read fd p.id off n _) _ hb hp ⟨rfl, ⟨flags, hsl⟩, rfl⟩ (hdec _ W)
    fun D' hD' => hQ _ D' hD'

/-- What `SEEK_END` does under the file's lock. -/
theorem sizeLocked_safe (g : Regions sb) {Q : Inode → Ghost Hands Call Reply Act World → Prop}
    (hQ : ∀ ino, Q ino ⟨onFile fd p flags off H, D⟩) :
    (fileInode sb p p.id).atomic.Safe (shared (Body sb) (Legal sb) fin)
      ⟨onFile fd p flags off H, D⟩ Q E :=
  safe_stretch fun _ _ _ hb => hb.fileInode_ends g (Shift.quiet hb (hQ _))

/-- One chunk of `vfs_write`, with the file's lock held exclusive. -/
theorem writeChunk_safe (g : Regions sb) {src : Nat → UInt8} {n pos done : Nat}
    (hp : D.phase = .called c) (hpos : (flags &&& oAppend != 0) = false → pos = off + done)
    {Q : ChunkResult → Ghost Hands Call Reply Act World → Prop}
    (hpast : ∀ start L' D', maxFileBytes ≤ start → done ≠ 0 →
      Went D [.write fd p.id start done [] false] (.called c) D' →
      Q (.past start) ⟨onFile fd p flags off ⟨true, some L', false⟩, D'⟩)
    (hbig : ∀ L' D', done = 0 →
      (∃ start, Went D [.write fd p.id start done [] false] (.called c) D') →
      E (.fsError .efbig) ⟨onFile fd p flags off ⟨true, some L', false⟩, D'⟩)
    (hwrote : ∀ start len full L' D', start < maxFileBytes →
      start + len ≤ chunkEnd start (n - done) →
      (full = false → start + len = chunkEnd start (n - done)) →
      (full = true → start + len < chunkEnd start (n - done)) →
      ((flags &&& oAppend != 0) = false → start = off + done) →
      Went D [.write fd p.id start done ((List.range len).map fun i => src (done + i)) full]
        (.called c) D' →
      Q (.wrote start (start + len) full) ⟨onFile fd p flags off ⟨true, some L', false⟩, D'⟩) :
    (writeChunk sb ⟨p.id, flags, p⟩ src n pos done).atomic.Safe (shared (Body sb) (Legal sb) fin)
      ⟨onFile fd p flags off ⟨true, some L, false⟩, D⟩ Q E := by
  refine safe_stretch fun s W rest hb => ?_
  have hb' : Body sb s W (⟨⟨p, true, some ⟨true, some L, false⟩⟩ ::ₘ 0,
    some ⟨fd, some (p, flags, off), false⟩, none⟩ ::ₘ rest) := hb
  have hfile := hb'.file_at
  obtain ⟨hsl, -⟩ := hb.slot_live
  obtain ⟨e, R, he, ha, hR⟩ := hb'.exists_entry
  dsimp only at he ha hR
  have hcall : D.phase.call = some c := by rw [hp]; rfl
  have hnone : ∀ fd' f, (none : Option (Nat × Option (Nat × UInt32))) ≠ some (fd', some f) := by
    intro fd' f h; contradiction
  have hstart : chunkStart ⟨p.id, flags, p⟩ (W.image.sizeOf p.id) pos
      = if flags &&& oAppend != 0 then W.image.sizeOf p.id else off + done := by
    unfold chunkStart
    dsimp only
    by_cases ha : (flags &&& oAppend != 0) = true
    · rw [if_pos ha, if_pos ha]
    · rw [if_neg ha, if_neg ha, hpos (by simpa using ha)]
  generalize hst : chunkStart ⟨p.id, flags, p⟩ (W.image.sizeOf p.id) pos = start at hstart
  have happ : (flags &&& oAppend != 0) = false → start = off + done := fun h => by
    rw [hstart, h, if_neg Bool.false_ne_true]
  refine ends_opens (writeChunk_has sb opensKept_countsWrites _ _ _ _ _) ?_
  -- a chunk that starts past the largest file writes nothing
  have hempty : ∀ s', Shows sb s' W.image (s.side.put p.id (some { e with inodeValid := false })) →
      s'.opens = s.opens → ∀ R : Ghost Hands Call Reply Act World → Prop,
      (∀ D' L', Went D [.write fd p.id start done [] false] (.called c) D' →
        R ⟨onFile fd p flags off ⟨true, some L', false⟩, D'⟩) →
      Shift (Body sb) (Legal sb) s' W rest D R := by
    intro s' hs' ho R hR
    have hbody := hb'.rewritten hnone hs' he ⟨rfl, rfl, rfl, rfl, rfl⟩
      (fun h => absurd h Bool.false_ne_true) ho hb.cons Changed.refl hfile
    refine Shift.note (.write fd p.id start done [] false) W
      (h := onFile fd p flags off ⟨true, some (W.image.known p.id L.path), false⟩) hbody hcall
      ⟨⟨Changed.refl, (if_pos rfl).symm, fun i => (if_neg (by simp)).symm⟩, fun _ => rfl, rfl,
        by intro h; contradiction, flags, off, hsl, hstart⟩ rfl fun D' hD' => hR D' _ (hp ▸ hD')
  refine writeChunk_ends g hb.shows hb.cons (f := ⟨p.id, flags, p⟩) rfl hfile he ha
    (fun hv => (hR.copy e rfl hv).1) hst.symm (fun s' hs' _ hbig hne ho => ?_)
    (fun s' hs' _ hbig' hdone ho => ?_)
    fun at_ full s' I' hlt hs' hc hwr hle hend hnf hfull hidle _ ho => ?_
  · exact hempty s' hs' ho _ fun D' L' hD' => hpast start L' D' hbig hne hD'
  · exact hempty s' hs' ho _ fun D' L' hD' => hbig L' D' hdone ⟨start, hD'⟩
  · obtain ⟨len, rfl⟩ := Nat.exists_eq_add_of_le hle
    rw [Nat.add_sub_cancel_left] at hwr
    have hbody := hb'.rewritten hnone hs' he ⟨rfl, rfl, rfl, rfl, rfl⟩ (fun _ => rfl) ho hc
      hwr.toChanged hfile
    refine Shift.note
      (.write fd p.id start done ((List.range len).map fun i => src (done + i)) full) ⟨I', W.slot⟩
      (h := onFile fd p flags off ⟨true, some (I'.known p.id L.path), false⟩) hbody hcall
      ⟨hwr, fun hnil => ?_, rfl, fun hf => ?_, flags, off, hsl, hstart⟩ hwr.toChanged.abs
      fun D' hD' => hwrote start len full _ D' hlt hend hnf (fun hf => (hfull hf).1) happ (hp ▸ hD')
    · refine hidle ?_
      have := congrArg List.length hnil
      rw [List.length_map, List.length_range] at this
      rw [this]
      rfl
    · obtain ⟨-, f2, f3⟩ := hfull hf
      rw [List.length_map, List.length_range]
      exact ⟨f2, f3⟩

end Data

end ConcurrentFs
