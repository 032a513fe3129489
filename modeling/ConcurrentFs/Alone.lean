/-
  ConcurrentFs.Alone

  One call at a time.  A call that runs alone, in a state where no other is running,
  comes to an end (`call_alone`), and then

  * it answers what the tree says (`alone_answers`), with an error of its own only if
    there really is no room, no inode or no descriptor left;
  * if it failed, every block, the bitmaps in memory, the descriptors that are open and
    the counts of opens are as they were (`alone_failed`);
  * a write puts what it was given where it belongs and nowhere else (`alone_write`), and
    a read gives what is there (`alone_read`).

  All of them speak of any state that any number of threads can have left behind.
-/
import ConcurrentFs.FileBytes
import ConcurrentFs.Linearizable

namespace ConcurrentFs

open Lib

/-! ## From the triple of a call to its run -/

/-- What the deeds of one call do, the call being alone. -/
abbrev Deeds (sb : Superblock) := Trail (Real (Body sb) (Legal sb))

section Run

variable {sb : Superblock} {s : FileSystem} {W W' V : World} {c : Call} {a : Reply} {n : Nat}
  {ds : List (Deed Act Reply World)} {ph ph' : Phase Call Reply}

/-- How many threads are doing nothing does not matter. -/
theorem Body.idle_any (hb : Body sb s W (Multiset.replicate n .empty)) (m : Nat) :
    Body sb s W (Multiset.replicate m .empty) where
  shows := hb.shows
  cons := hb.cons
  entry id := by
    have := hb.entry id
    rw [allGrips_empty] at this ⊢
    exact this
  slot fd := by
    have := hb.slot fd
    rw [tokensOn_empty, resvsOn_empty] at this ⊢
    exact this
  ok h hh := by
    rw [Multiset.eq_of_mem_replicate hh]
    exact Hands.ok_empty

/-- A call that runs alone returns, having done what the call is for. -/
theorem call_alone (g : Regions sb) (hb : Body sb s W (Multiset.replicate n .empty)) (c : Call) :
    ∃ a s' ds W', (c.run sb).run s = some (.ok a, s') ∧
      Body sb s' W' (Multiset.replicate n .empty) ∧
      Deeds sb W (.called c) ds W' (.decided c a) ∧ Did c a (ds.map Deed.act) := by
  have hb1 : Body sb s W {Hands.empty} := hb.idle_any 1
  let w : Ledger Call Reply Act World := ⟨W, W, [.call 0 c]⟩
  let γ : Ghost Hands Call Reply Act World := ⟨.empty, ⟨0, .called c, []⟩⟩
  have hinv : (protocol sb).inv s w {γ} := by
    refine ⟨hb1, rfl, Multiset.nodup_singleton 0, fun D hD => ?_, fun i hi => ?_⟩
    · rw [Multiset.map_singleton, Multiset.mem_singleton] at hD
      subst hD
      exact .call c .nil
    · refine .other (l := []) .nil fun h => hi ?_
      rw [Multiset.map_singleton, Multiset.map_singleton, Multiset.mem_singleton]
      exact h.symm
  -- alone, the thread waits for nobody
  have hends := (call_safe g c (D := γ.diary) rfl).ends hinv
  obtain ⟨⟨out, s'⟩, hrun, hout⟩ := Prog.ends_iff_run.mp hends
  cases out with
  | error e =>
    obtain ⟨_, _, _, _, hfalse⟩ := hout
    exact hfalse.elim
  | ok a =>
    obtain ⟨γ', w', ⟨-, -, -, ds, hown, htrail⟩, ⟨hbody, -⟩, hh, acts, hret⟩ := hout
    have hbody' : Body sb s' w'.world {Hands.empty} := by
      rw [Multiset.map_singleton, hh] at hbody
      exact hbody
    have hacts : ∀ ph, Went γ.diary acts ph γ'.diary → ds.map Deed.act = acts := by
      intro ph hw
      have h1 := hw.acts
      unfold Diary.acts at h1
      rw [hown] at h1
      exact h1
    refine ⟨a, s', ?_⟩
    rcases hret with ⟨hw, hd⟩ | ⟨hw, hd, hany⟩
    · rw [hw.phase] at htrail
      exact ⟨ds, w'.world, hrun, hbody'.idle_any (n := 1) n, htrail, hacts _ hw ▸ hd⟩
    · -- the answer would be right at any time: now
      have hlived : Lived (Body sb) w'.world := ⟨_, _, hbody'⟩
      rw [hw.phase] at htrail
      have hreal : Real (Body sb) (Legal sb) w'.world c ⟨.look, some a, w'.world⟩ :=
        ⟨⟨rfl, hany _⟩, hlived, hlived⟩
      refine ⟨ds ++ [⟨.look, some a, w'.world⟩], w'.world, hrun, hbody'.idle_any (n := 1) n,
        htrail.append (.cons (.settle rfl) hreal (.nil _ _)), ?_⟩
      rw [List.map_append, hacts _ hw]
      exact hd

/-- The abstract state stays, where no answer is settled. -/
theorem abs_kept (h : Deeds sb W ph ds W' ph') (hno : ∀ d ∈ ds, d.answer = none) :
    W'.abs = W.abs := by
  refine h.keeps (R := fun W W' => W'.abs = W.abs) (K := fun d => d.answer = none) (fun _ => rfl)
    (by intro _ _ _ h h'; exact h'.trans h) ?_ hno
  rintro W c d ⟨⟨-, hans⟩, -, -⟩ hd
  rw [hd] at hans
  exact hans

/-! ### Deeds that leave things as they are -/

/-- The image is the same, and the same descriptors are open on the same files. -/
structure Calm (W W' : World) : Prop where
  image : W'.image = W.image
  live : ∀ fd x flags, (∃ off, W'.slot fd = .live x flags off) ↔
    ∃ off, W.slot fd = .live x flags off

theorem Calm.refl (W : World) : Calm W W := ⟨rfl, fun _ _ _ => Iff.rfl⟩

theorem Calm.trans (h : Calm W W') (h' : Calm W' V) : Calm W V :=
  ⟨h'.image.trans h.image, fun fd x flags => (h'.live fd x flags).trans (h.live fd x flags)⟩

/-- Putting something that is not open where nothing was open. -/
theorem calm_put {fd : Nat} {sl : FdState}
    (hsl : ∀ x flags, (∃ off, sl = .live x flags off) ↔ ∃ off, W.slot fd = .live x flags off) :
    Calm W (W.put fd sl) := by
  refine ⟨rfl, fun fd' x flags => ?_⟩
  unfold World.put
  by_cases h : fd' = fd
  · subst h
    simp only [Function.update_self]
    exact hsl x flags
  · simp only [Function.update_of_ne h]

theorem Act.Does.calm {act : Act} (h : act.Does sb W W') (hq : act.Quiet) : Calm W W' := by
  cases act with
  | look =>
    obtain rfl : W' = W := h
    exact .refl _
  | reserve fd =>
    obtain ⟨-, hsl, rfl⟩ := h
    refine calm_put fun x flags => ?_
    rw [hsl]
    simp
  | release fd =>
    obtain ⟨hsl, rfl⟩ := h
    refine calm_put fun x flags => ?_
    rw [hsl]
    simp
  | move fd off =>
    obtain ⟨x, flags, off', hsl, rfl⟩ := h
    refine calm_put fun x' flags' => ?_
    rw [hsl]
    simp
  | read fd x pos n data =>
    obtain ⟨rfl, -⟩ := h
    exact .refl _
  | write fd x start done data full =>
    obtain ⟨-, hsame, hslot, -⟩ := h
    refine ⟨hsame hq, fun fd x flags => ?_⟩
    rw [hslot]
  | _ => exact hq.elim

theorem calm_of_quiet (h : Deeds sb W ph ds W' ph') (hq : ∀ act ∈ ds.map Deed.act, act.Quiet) :
    Calm W W' := by
  refine h.keeps (R := Calm) (K := fun d => d.act.Quiet) .refl .trans ?_ fun d hd =>
    hq _ (List.mem_map_of_mem hd)
  rintro W c d ⟨⟨hdoes, -⟩, -, -⟩ hd
  exact hdoes.calm hd

end Run

/-! ## The chunks of a write -/

section Chunks

variable {sb : Superblock} {W W' : World} {S : Store} {ph ph' : Phase Call Reply}
  {ds : List (Deed Act Reply World)} {act : Act} {acts rest : List Act} {fd x n pos done : Nat}
  {pos' done' off start : Nat} {flags : UInt32} {src : Nat → UInt8}

/-- The first deed of a call, in terms of the store. -/
theorem Deeds.first (h : Deeds sb W ph ds W' ph') (hacts : ds.map Deed.act = act :: rest)
    (hpad : W.image.Padded) : ∃ V ph1 ds', act.Does sb W V ∧ W.store.Finds act ∧
      V.store = W.store.apply act ∧ V.image.Padded ∧ Deeds sb V ph1 ds' W' ph' ∧
      ds'.map Deed.act = rest := by
  cases h with
  | nil => contradiction
  | @cons _ _ c d _ ph1 _ l hn hl hrest =>
    obtain ⟨rfl, hacts'⟩ := List.cons.inj hacts
    obtain ⟨⟨hdoes, -⟩, ⟨s, hs, hb⟩, -⟩ := hl
    obtain ⟨hfinds, hstore, hpad'⟩ := hdoes.store hb hpad
    exact ⟨d.post, ph1, l, hdoes, hfinds, hstore, hpad', hrest, hacts'⟩

/-- The store when the first `done` bytes of a write are in file `x`. -/
def Store.wrote (S : Store) (x start : Nat) (src : Nat → UInt8) (done : Nat) : Store :=
  S.putFile x (splice (S.file x) start ((List.range done).map src))

theorem wrote_zero : S.wrote x start src 0 = S := by
  unfold Store.wrote Store.putFile
  rw [List.range_zero, List.map_nil, splice_nil, Function.update_eq_self]

/-- One chunk more. -/
theorem wrote_add (len : Nat) (full : Bool) : (S.wrote x start src done).apply
    (.write fd x (start + done) done ((List.range len).map fun i => src (done + i)) full)
      = S.wrote x start src (done + len) := by
  have hsplice : splice (splice (S.file x) start ((List.range done).map src))
      (start + ((List.range done).map src).length) ((List.range len).map fun i => src (done + i))
      = splice (S.file x) start ((List.range done).map src ++
          (List.range len).map fun i => src (done + i)) := splice_splice
  rw [List.length_map, List.length_range] at hsplice
  unfold Store.apply Store.wrote Store.putFile
  simp only [Function.update_self, Function.update_idem, hsplice, List.range_add, List.map_append,
    List.map_map, Function.comp_def]

/-- A chunk starts where the one before it ended. -/
theorem start_of_finds {data : List UInt8} {full : Bool} {start' : Nat}
    (h : (S.wrote x start src done).Finds (.write fd x start' done data full))
    (hslot : S.slot fd = .live x flags off)
    (hstart : start = if flags &&& oAppend != 0 then (S.file x).length else off) :
    start' = start + done := by
  obtain ⟨flags', off', hsl, rfl⟩ := h
  obtain ⟨-, rfl, rfl⟩ := FdState.live.inj (hslot.symm.trans hsl)
  have hfile : (S.wrote x start src done).file x
      = splice (S.file x) start ((List.range done).map src) := Function.update_self ..
  rw [hfile]
  split
  · rename_i happ
    rw [if_pos happ] at hstart
    by_cases h0 : done = 0
    · rw [h0, List.range_zero, List.map_nil, splice_nil]
      omega
    · rw [length_splice (by simpa using h0), List.length_map, List.length_range]
      omega
  · rename_i happ
    rw [if_neg happ] at hstart
    omega

/-- The chunks of a write, one after the other: they write what they are given, and stop early only
    at the largest size or when the disk is full. -/
theorem Chunked.store (h : Chunked fd x n src pos done acts pos' done')
    (hslot : S.slot fd = .live x flags off)
    (hstart : start = if flags &&& oAppend != 0 then (S.file x).length else off)
    (hdeeds : Deeds sb W ph ds W' ph') (hacts : ds.map Deed.act = acts ++ rest)
    (hpad : W.image.Padded) (hstore : W.store = S.wrote x start src done)
    (hpos : 0 < done → pos = start + done ∧ start + done ≤ maxFileBytes) :
    ∃ V ph1 ds', Deeds sb V ph1 ds' W' ph' ∧
      ds'.map Deed.act = rest ∧ V.image.Padded ∧ V.store = S.wrote x start src done' ∧
      (0 < done' → pos' = start + done' ∧ start + done' ≤ maxFileBytes) ∧
      (done' < n → maxFileBytes ≤ start + done' ∨
        bmap V.image.blk (V.image.inode x) ((start + done') / 4096) = 0 ∧
          freeCount sb V.image
            < holes V.image.blk (V.image.inode x) ((start + done') / 4096)) := by
  have hlast : ∀ {pos left : Nat}, chunkEnd pos left ≤ maxFileBytes := min_le_right _ _
  induction h generalizing W ph ds with
  | done hle => exact ⟨W, ph, ds, hdeeds, hacts, hpad, hstore, hpos, fun hlt => by omega⟩
  | past start' hn hmax hd =>
    -- nothing is written past the largest size
    obtain ⟨V, ph1, ds', -, hfinds, hV, hpad', hrest, hacts'⟩ := hdeeds.first hacts hpad
    rw [hstore] at hfinds hV
    obtain rfl := start_of_finds hfinds hslot hstart
    refine ⟨V, ph1, ds', hrest, hacts', hpad', hV.trans ?_, fun hd => ⟨rfl, (hpos hd).2⟩,
      fun _ => .inl hmax⟩
    exact wrote_add 0 false
  | @full pos done start' len hn hshort =>
    obtain ⟨V, ph1, ds', hdoes, hfinds, hV, hpad', hrest, hacts'⟩ := hdeeds.first hacts hpad
    rw [hstore] at hfinds hV
    obtain rfl := start_of_finds hfinds hslot hstart
    -- what cut the chunk short is how the disk is then
    obtain ⟨-, -, -, hfull, -⟩ := hdoes
    have hno := hfull rfl
    rw [List.length_map, List.length_range, Nat.add_assoc] at hno
    exact ⟨V, ph1, ds', hrest, hacts', hpad', hV.trans (wrote_add len true),
      fun _ => ⟨Nat.add_assoc .., by rw [← Nat.add_assoc]; exact hshort.le.trans hlast⟩,
      fun _ => .inr hno⟩
  | more start' len hn hend hlen hch ih =>
    obtain ⟨V, ph1, ds', -, hfinds, hV, hpad', hrest, hacts'⟩ := hdeeds.first hacts hpad
    rw [hstore] at hfinds hV
    obtain rfl := start_of_finds hfinds hslot hstart
    exact ih hrest hacts' hpad' (hV.trans (wrote_add len false)) fun _ =>
      ⟨Nat.add_assoc .., by rw [← Nat.add_assoc]; exact hend.trans_le hlast⟩

/-- No more than it was given. -/
theorem Chunked.done_le (h : Chunked fd x n src pos done acts pos' done') (hle : done ≤ n) :
    done' ≤ n := by
  induction h with
  | done | past => exact hle
  | full start len hn hshort =>
    unfold chunkEnd at hshort
    omega
  | more start len hn hend _ _ ih =>
    refine ih ?_
    unfold chunkEnd at hend
    omega

/-- A write that writes something starts with a chunk. -/
theorem Chunked.first (h : Chunked fd x n src pos 0 acts pos' done') (hd : 0 < done') :
    ∃ start data full rest, acts = .write fd x start 0 data full :: rest := by
  cases h with
  | done | past => omega
  | full | more => exact ⟨_, _, _, _, rfl⟩

end Chunks

/-! ## What is left when no call is running -/

section Results

variable {sb : Superblock} {disk : Nat → Block} {clock : Nat → UInt64} {n : Nat} {P : Users}
  {s s' : FileSystem} {W W' : World}

/-- Between calls nobody holds anything. -/
theorem Reached.idle (g : Regions sb) (hc : Consistent sb (Image.of sb disk))
    (h : Reached sb disk clock n P) (hP : P.Idle) : ∃ W k,
    Body sb P.state W (Multiset.replicate k .empty) ∧
    ((Image.of sb disk).Padded → W.image.Padded) := by
  obtain ⟨W, log, hist⟩ := h.history g hc
  obtain ⟨hs, hb, hidle⟩ := hist.now
  obtain ⟨k, rfl⟩ := hidle hP
  exact ⟨W, k, hb, fun hpad => (linked_store hist.linked hpad).2.1⟩

/-- What a file system stands for between calls. -/
noncomputable def FileSystem.abs (sb : Superblock) (s : FileSystem) : Abs where
  node := (Image.of sb s.disk).tree.kindAt
  fds fd := if (s.files fd).inode = 0 then none
    else some ((Image.of sb s.disk).tree.pathOf (s.files fd).inode)

theorem Body.idle_abs (hb : Body sb s W (Multiset.replicate n .empty)) : W.abs = s.abs sb := by
  have hnode : W.abs.node = (s.abs sb).node := congrArg (fun I => I.tree.kindAt) hb.shows.image.symm
  have hfds : W.abs.fds = (s.abs sb).fds := funext (idle_fds hb)
  show Abs.mk W.abs.node W.abs.fds = _
  rw [hnode, hfds]

/-- The same descriptors are open on the same files. -/
theorem Calm.files (h : Calm W W') (hb : Body sb s W (Multiset.replicate n .empty))
    (hb' : Body sb s' W' (Multiset.replicate n .empty)) (fd : Nat) :
    (s'.files fd).inode = (s.files fd).inode := by
  have hlive := h.live fd
  rw [hb.idle_slot fd, hb'.idle_slot fd] at hlive
  by_cases h0 : (s.files fd).inode = 0
  · -- it was not open, so it is not
    by_contra hne
    have := (hlive (s'.files fd).inode (s'.files fd).flags).mp
      ⟨_, if_neg fun h' => hne (h'.trans h0.symm)⟩
    rw [if_pos h0] at this
    obtain ⟨_, h⟩ := this
    contradiction
  · have := (hlive (s.files fd).inode (s.files fd).flags).mpr ⟨_, if_neg h0⟩
    obtain ⟨off, h⟩ := this
    split at h
    · contradiction
    · exact (FdState.live.inj h).1

/-- Reasons for an error that are not in the tree: every descriptor is open, or nothing can be made
    at `names`. -/
def FileSystem.Lacks (sb : Superblock) (s : FileSystem) (names : List Name) (e : Errno) : Prop :=
  e = .emfile ∧ (∀ fd < maxOpen, (s.files fd).inode ≠ 0) ∨
  NoRoom sb (Image.of sb s.disk) names.dropLast e ∨ NoLinks (Image.of sb s.disk) names.dropLast e

theorem fail_neg (e : Errno) : (Reply.fail e).code < 0 := by
  have := e.code_pos
  show -(e.code : Int) < 0
  omega

/-- A call that runs alone returns, and answers what the tree says. -/
theorem alone_answers (g : Regions sb) (hc : Consistent sb (Image.of sb disk))
    (h : Reached sb disk clock n P) (hP : P.Idle) (c : Call) : ∃ a s',
    (c.run sb).run P.state = some (.ok a, s') ∧
    Abs.Answers (P.state.abs sb) (s'.abs sb) a (P.state.Lacks sb) c := by
  obtain ⟨W, k, hb, -⟩ := h.idle g hc hP
  obtain ⟨a, s', ds, W', hrun, hb', htrail, hdid⟩ := call_alone g hb c
  refine ⟨a, s', hrun, ?_⟩
  obtain ⟨l1, d, l2, V, rfl, hl1, ⟨⟨-, hdec⟩, ⟨s1, gs, hV⟩, -⟩, hans, hl2⟩ := htrail.settled
  rw [hans] at hdec
  rw [← hb.idle_abs, ← hb'.idle_abs, ← abs_kept hl1 hl1.before, abs_kept hl2 hl2.after.2]
  -- what comes before a failure changes nothing that an error can be about
  have hcalm : ∀ e, a = .fail e → Calm W V := by
    rintro e rfl
    refine calm_of_quiet hl1 fun act hact => (hdid.1 (fail_neg e)).1 act ?_
    rw [List.map_append]
    exact List.mem_append_left _ hact
  have himage : ∀ e, a = .fail e → V.image = Image.of sb P.state.disk := fun e he =>
    (hcalm e he).image.trans hb.shows.image.symm
  refine hdec.answers hV.cons.tree (fun ha hfull => ?_) (fun fd names _ hdead ha hfd => ?_)
    (fun names e ha hno => ?_) fun _ names e _ ha hno => ?_
  · -- with no descriptor left, looking is all it did
    have hlook := (hdid.1 (ha ▸ fail_neg _)).2 ha
    refine .inl ⟨rfl, fun fd hfd h0 => ?_⟩
    cases l1 with
    | nil =>
      cases hl1
      have := hfull fd hfd
      rw [hb.idle_slot fd, if_pos h0] at this
      exact this rfl
    | cons d1 l1 =>
      rw [List.cons_append, List.map_cons, List.map_append, List.map_cons] at hlook
      obtain ⟨-, hnil⟩ := List.cons.inj hlook
      exact absurd (List.append_eq_nil_iff.mp hnil).2 (List.cons_ne_nil _ _)
  · -- a slot that is not open then was not open before
    have hnot : ∀ x flags off, W.slot fd.toNat ≠ .live x flags off := by
      intro x flags off hlive
      obtain ⟨off', h'⟩ := ((hcalm _ ha).live fd.toNat x flags).mpr ⟨off, hlive⟩
      exact hdead x flags off' h'
    rw [abs_kept hl1 hl1.before, hb.idle_abs] at hfd
    have hslot := hb.idle_slot fd.toNat
    by_cases h0 : (P.state.files fd.toNat).inode = 0
    · unfold FileSystem.abs at hfd
      dsimp only at hfd
      rw [if_pos h0] at hfd
      contradiction
    · rw [if_neg h0] at hslot
      exact absurd hslot (hnot _ _ _)
  · exact .inr (.inl (himage e ha ▸ hno))
  · exact .inr (.inr (himage e ha ▸ hno))

theorem alone_answers_new : ∃ a s', (newCall.run smallLayout).run newIdle.state = some (.ok a, s') ∧
    Abs.Answers (newIdle.state.abs smallLayout) (s'.abs smallLayout) a
      (newIdle.state.Lacks smallLayout) newCall :=
  alone_answers (regions_of_validate smallLayout_valid) newDisk_consistent newIdle_reached
    newIdle_idle newCall

/-- A call that runs alone returns, and if it fails leaves the disk, the bitmaps in memory and what
    the descriptors are open on as they were. -/
theorem call_failed (g : Regions sb) (hb : Body sb s W (Multiset.replicate n .empty)) (c : Call) :
    ∃ a s' W', (c.run sb).run s = some (.ok a, s') ∧
      Body sb s' W' (Multiset.replicate n .empty) ∧ (a.code < 0 →
        s'.disk = s.disk ∧ s'.inodes = s.inodes ∧ s'.blocks = s.blocks ∧
        ∀ fd, (s'.files fd).inode = (s.files fd).inode) := by
  obtain ⟨a, s', ds, W', hrun, hb', htrail, hdid⟩ := call_alone g hb c
  refine ⟨a, s', W', hrun, hb', fun ha => ?_⟩
  have hcalm := calm_of_quiet htrail (hdid.1 ha).1
  obtain ⟨h1, h2, h3⟩ := Shows.unique g hb.shows (hcalm.image ▸ hb'.shows)
  exact ⟨h1, h2, h3, hcalm.files hb hb'⟩

/-- A call that fails, running alone, leaves every block, the bitmaps in memory, the slots that are
    taken and the counts of opens as they were. -/
theorem alone_failed (g : Regions sb) (hc : Consistent sb (Image.of sb disk))
    (h : Reached sb disk clock n P) (hP : P.Idle) (c : Call) : ∃ a s',
    (c.run sb).run P.state = some (.ok a, s') ∧ (a.code < 0 →
      s'.disk = P.state.disk ∧ s'.inodes = P.state.inodes ∧ s'.blocks = P.state.blocks ∧
      (∀ fd, (s'.files fd).inUse = (P.state.files fd).inUse ∧
        (s'.files fd).inode = (P.state.files fd).inode) ∧
      ∀ id, id ≠ 0 → openBalance s'.opens id = openBalance P.state.opens id) := by
  obtain ⟨W, k, hb, -⟩ := h.idle g hc hP
  obtain ⟨a, s', W', hrun, hb', hfail⟩ := call_failed g hb c
  refine ⟨a, s', hrun, fun ha => ?_⟩
  obtain ⟨h1, h2, h3, hfiles⟩ := hfail ha
  refine ⟨h1, h2, h3, fun fd => ⟨?_, hfiles fd⟩, fun id h0 => ?_⟩
  · rw [Bool.eq_iff_iff, hb'.idle_inUse fd, hb.idle_inUse fd, hfiles fd]
  · rw [hb'.idle_balance h0, hb.idle_balance h0]
    simp only [hfiles]

theorem tinyDisk_consistent : Consistent Mkfs.tinyLayout (Image.of Mkfs.tinyLayout Mkfs.tinyDisk) :=
  Mkfs.mkfsDisk_consistent 0 _ Mkfs.tinyLayout_planned

/-- `mkdir("/a")` took it. -/
def fullUp : Users :=
  Pool.play (Call.run Mkfs.tinyLayout)
    ⟨.mounted Mkfs.tinyLayout Mkfs.tinyDisk fun _ => 0, [.idle, .idle], []⟩ (whole 0 newCall)

theorem fullUp_reached : Reached Mkfs.tinyLayout Mkfs.tinyDisk (fun _ => 0) 2 fullUp :=
  Pool.Reachable.init.play _

/-- `mkdir("/b")` gets an inode and then no block. -/
theorem alone_failed_new : fullUp.codes = [(0, 0)] ∧ ∃ a s',
    ((Call.mkdir (some slashB)).run Mkfs.tinyLayout).run fullUp.state
      = some (.ok a, s') ∧ a.code = -28 ∧
    s'.disk = fullUp.state.disk ∧ s'.inodes = fullUp.state.inodes ∧
    s'.blocks = fullUp.state.blocks := by
  obtain ⟨a, s', hrun, hfail⟩ := alone_failed (regions_of_planLayout Mkfs.tinyLayout_planned)
    tinyDisk_consistent fullUp_reached (Users.idle_of_all (by decide +kernel))
    (.mkdir (some slashB))
  have hcode : a.code = -28 := Prog.result_of_run hrun (by decide +kernel)
  obtain ⟨hdisk, hinodes, hblocks, -⟩ := hfail (by rw [hcode]; decide)
  exact ⟨by decide +kernel, a, s', hrun, hcode, hdisk, hinodes, hblocks⟩

/-! ### What it writes and reads -/

/-- What a write that has returned `a` has made of `s`: the first `k` of the bytes it was given are
    where the descriptor was, or at the end of the file if it appends; the descriptor is behind
    them; every other byte of every file, and every other descriptor, is as it was; and bytes are
    left over only if the file has its largest size or there are too few blocks for the next one. -/
def DidWrite (sb : Superblock) (s : FileSystem) (fd : Int) (buf : Option (Nat → UInt8)) (m : Nat)
    (a : Reply) (s' : FileSystem) : Prop :=
  ∃ src x flags off start k, buf = some src ∧ a.code = (k : Nat) ∧
    0 < k ∧ k ≤ m ∧ (s.store sb).slot fd.toNat = .live x flags off ∧
    start = (if flags &&& oAppend != 0 then ((s.store sb).file x).length else off) ∧
    s'.store sb
      = ((s.store sb).wrote x start src k).putSlot fd.toNat (.live x flags (start + k)) ∧
    start + k ≤ maxFileBytes ∧
    (k < m → start + k = maxFileBytes ∨
      bmap (Image.of sb s'.disk).blk ((Image.of sb s'.disk).inode x) ((start + k) / 4096) = 0 ∧
        freeCount sb (Image.of sb s'.disk) < holes (Image.of sb s'.disk).blk
          ((Image.of sb s'.disk).inode x) ((start + k) / 4096))

theorem did_write {ds : List (Deed Act Reply World)} {ph : Phase Call Reply} {a : Reply} {fd : Int}
    {buf : Option (Nat → UInt8)} {m : Nat} (hb : Body sb s W (Multiset.replicate n .empty))
    (hb' : Body sb s' W' (Multiset.replicate n .empty)) (hpad : W.image.Padded)
    (htrail : Deeds sb W (.called (.write fd buf m)) ds W' ph)
    (hdid : Did (.write fd buf m) a (ds.map Deed.act)) (hm : 0 < m) (ha : 0 ≤ a.code) :
    DidWrite sb s fd buf m a s' := by
  have hsuc := hdid.2 ha
  dsimp only at hsuc
  rw [if_neg (by omega)] at hsuc
  obtain ⟨src, x, pos, pos', ws, done, rfl, hch, hd, hcode, hacts⟩ := hsuc
  obtain ⟨start, data, full, rest, hfirst⟩ := hch.first hd
  -- where the descriptor is
  have hacts' := hacts
  rw [hfirst, List.cons_append] at hacts'
  obtain ⟨-, -, -, -, ⟨flags, off, hsl, -⟩, -⟩ := htrail.first hacts' hpad
  obtain ⟨V, ph1, ds', hrest, hmove, hpadV, hV, hpos, hshort⟩ :=
    hch.store hsl rfl htrail hacts hpad wrote_zero.symm fun h0 => absurd h0 (lt_irrefl 0)
  obtain ⟨hpos, hmax⟩ := hpos hd
  obtain ⟨V', ph2, ds2, ⟨_, _, _, -, rfl⟩, -, hV', -, hnil, hds2⟩ := hrest.first hmove hpadV
  rw [List.map_eq_nil_iff] at hds2
  subst hds2
  cases hnil
  rw [hb'.idle_store, hV, Store.apply_move (S := W.store.wrote x _ src done) hsl, hpos] at hV'
  have hle := hch.done_le (Nat.zero_le _)
  unfold DidWrite
  rw [← hb.idle_store]
  refine ⟨src, x, flags, off, _, done, rfl, hcode, hd, hle.trans (min_le_left ..), hsl, rfl, hV',
    hmax, fun hlt => ?_⟩
  rw [hb'.shows.image]
  have hbig : maxFileBytes < ssizeMax := by decide
  exact (hshort (lt_min hlt (by omega))).imp_left fun h => le_antisymm hmax h

/-- A write that succeeds, running alone: the first `k` of the bytes it was given are where the
    descriptor was, or at the end of the file if it appends; the descriptor is behind them; every
    other byte of every file, and every other descriptor, is as it was; and bytes are left over only
    if the file has its largest size or there is no block for the next one. -/
theorem alone_write (g : Regions sb) (hc : Consistent sb (Image.of sb disk))
    (hpad : (Image.of sb disk).Padded) (h : Reached sb disk clock n P) (hP : P.Idle)
    (fd : Int) (buf : Option (Nat → UInt8)) (m : Nat) : ∃ a s',
    ((Call.write fd buf m).run sb).run P.state = some (.ok a, s') ∧
    (0 < m → 0 ≤ a.code → ∃ src x flags off start k, buf = some src ∧ a.code = (k : Nat) ∧
      0 < k ∧ k ≤ m ∧ (P.state.store sb).slot fd.toNat = .live x flags off ∧
      start = (if flags &&& oAppend != 0 then ((P.state.store sb).file x).length else off) ∧
      s'.store sb
        = ((P.state.store sb).wrote x start src k).putSlot fd.toNat (.live x flags (start + k)) ∧
      (k < min m ssizeMax → maxFileBytes ≤ start + k ∨
        bmap (Image.of sb s'.disk).blk ((Image.of sb s'.disk).inode x) ((start + k) / 4096) = 0 ∧
          freeCount sb (Image.of sb s'.disk) < 3)) := by
  obtain ⟨W, k, hb, hpadW⟩ := h.idle g hc hP
  obtain ⟨a, s', ds, W', hrun, hb', htrail, hdid⟩ := call_alone g hb (.write fd buf m)
  refine ⟨a, s', hrun, fun hm ha => ?_⟩
  obtain ⟨src, x, flags, off, start, k, hbuf, hk, h0, hle, hslot, hstart, hstore, -, hshort⟩ :=
    did_write hb hb' (hpadW hpad) htrail hdid hm ha
  refine ⟨src, x, flags, off, start, k, hbuf, hk, h0, hle, hslot, hstart, hstore, fun hlt => ?_⟩
  rcases hshort (hlt.trans_le (min_le_left ..)) with h | ⟨hno, hfew⟩
  · exact .inl h.ge
  · exact .inr ⟨hno, hfew.trans_le (holes_le _ _ _)⟩

/-- A file that was just made. -/
def justMade : Users := newRun (whole 0 (create slashA))

theorem justMade_reached : Reached smallLayout newDisk (fun _ => 0) 2 justMade := newRun_reached _

theorem alone_write_new : ∃ a s',
    ((Call.write 0 (some fun i => UInt8.ofNat i) 5).run smallLayout).run justMade.state
      = some (.ok a, s') ∧ a.code = 5 ∧ ∃ x flags off start,
    (justMade.state.store smallLayout).slot 0 = .live x flags off ∧
    s'.store smallLayout = ((justMade.state.store smallLayout).wrote x start
      (fun i => UInt8.ofNat i) 5).putSlot 0 (.live x flags (start + 5)) := by
  obtain ⟨a, s', hrun, hwrite⟩ := alone_write (regions_of_validate smallLayout_valid)
    newDisk_consistent newDisk_padded justMade_reached (Users.idle_of_all (by decide +kernel))
    0 (some fun i => UInt8.ofNat i) 5
  have hcode : a.code = 5 := Prog.result_of_run hrun (by decide +kernel)
  obtain ⟨src, x, flags, off, start, k, hsrc, hk, -, -, hslot, -, hstore, -⟩ :=
    hwrite (by decide) (by rw [hcode]; decide)
  obtain rfl := Option.some.inj hsrc
  obtain rfl : k = 5 := by omega
  rw [Int.toNat_zero] at hslot hstore
  exact ⟨a, s', hrun, hcode, x, flags, off, start, hslot, hstore⟩

/-- What a read that has returned `a` has read from `s` and made of it: the bytes of the file from
    where the descriptor is, as many as were asked for and there are, with the descriptor behind
    them. -/
def DidRead (sb : Superblock) (s : FileSystem) (fd : Int) (m : Nat) (a : Reply) (s' : FileSystem) :
    Prop :=
  ∃ x flags off, (s.store sb).slot fd.toNat = .live x flags off ∧
    a.code = a.bytes.length ∧
    a.bytes = (((s.store sb).file x).drop off).take (min m ssizeMax) ∧
    s'.store sb = (s.store sb).putSlot fd.toNat (.live x flags (off + a.bytes.length))

theorem did_read {ds : List (Deed Act Reply World)} {ph : Phase Call Reply} {a : Reply} {fd : Int}
    {hasBuf : Bool} {m : Nat} (hb : Body sb s W (Multiset.replicate n .empty))
    (hb' : Body sb s' W' (Multiset.replicate n .empty)) (hpad : W.image.Padded)
    (htrail : Deeds sb W (.called (.read fd hasBuf m)) ds W' ph)
    (hdid : Did (.read fd hasBuf m) a (ds.map Deed.act)) (hm : 0 < m) (ha : 0 ≤ a.code) :
    DidRead sb s fd m a s' := by
  have hsuc := hdid.2 ha
  dsimp only at hsuc
  rw [if_neg (by omega)] at hsuc
  obtain ⟨x, pos, hcode, hacts⟩ := hsuc
  obtain ⟨V, ph1, ds', -, ⟨⟨flags, hsl⟩, hbytes⟩, hV, hpadV, hrest, hmove⟩ :=
    htrail.first hacts hpad
  obtain ⟨V', ph2, ds2, -, -, hV', -, hnil, hds2⟩ := hrest.first hmove hpadV
  rw [List.map_eq_nil_iff] at hds2
  subst hds2
  cases hnil
  have hsame : V.store = W.store := hV
  rw [hb'.idle_store, hsame, Store.apply_move hsl] at hV'
  unfold DidRead
  rw [← hb.idle_store]
  exact ⟨x, flags, pos, hsl, hcode, hbytes, hV'⟩

/-- A read that succeeds, running alone, gives the bytes of the file from where the descriptor is,
    as many as were asked for and there are, and puts the descriptor behind them. -/
theorem alone_read (g : Regions sb) (hc : Consistent sb (Image.of sb disk))
    (hpad : (Image.of sb disk).Padded) (h : Reached sb disk clock n P) (hP : P.Idle)
    (fd : Int) (hasBuf : Bool) (m : Nat) : ∃ a s',
    ((Call.read fd hasBuf m).run sb).run P.state = some (.ok a, s') ∧
    (0 < m → 0 ≤ a.code → ∃ x flags off, (P.state.store sb).slot fd.toNat = .live x flags off ∧
      a.code = a.bytes.length ∧
      a.bytes = (((P.state.store sb).file x).drop off).take (min m ssizeMax) ∧
      s'.store sb
        = (P.state.store sb).putSlot fd.toNat (.live x flags (off + a.bytes.length))) := by
  obtain ⟨W, k, hb, hpadW⟩ := h.idle g hc hP
  obtain ⟨a, s', ds, W', hrun, hb', htrail, hdid⟩ := call_alone g hb (.read fd hasBuf m)
  exact ⟨a, s', hrun, did_read hb hb' (hpadW hpad) htrail hdid⟩

/-- A file of five bytes, with the descriptor at the second one. -/
def fiveBytes : Users := newRun (makeFile ++ whole 0 (.lseek 0 1 0))

theorem fiveBytes_reached : Reached smallLayout newDisk (fun _ => 0) 2 fiveBytes :=
  newRun_reached _

theorem alone_read_new : ∃ a s',
    ((Call.read 0 true 3).run smallLayout).run fiveBytes.state = some (.ok a, s') ∧
    a.bytes = [1, 2, 3] ∧ ∃ x flags off,
    (fiveBytes.state.store smallLayout).slot 0 = .live x flags off ∧
    a.bytes = (((fiveBytes.state.store smallLayout).file x).drop off).take 3 ∧
    s'.store smallLayout
      = (fiveBytes.state.store smallLayout).putSlot 0 (.live x flags (off + 3)) := by
  obtain ⟨a, s', hrun, hread⟩ := alone_read (regions_of_validate smallLayout_valid)
    newDisk_consistent newDisk_padded fiveBytes_reached (Users.idle_of_all (by decide +kernel))
    0 true 3
  have hcode : a.code = 3 := Prog.result_of_run hrun (by decide +kernel)
  have hbytes : a.bytes = [1, 2, 3] := Prog.result_of_run hrun (by decide +kernel)
  obtain ⟨x, flags, off, hslot, -, htake, hstore⟩ := hread (by decide) (by rw [hcode]; decide)
  rw [Int.toNat_zero] at hslot
  rw [Int.toNat_zero, hbytes] at hstore
  rw [show min 3 ssizeMax = 3 by decide] at htake
  exact ⟨a, s', hrun, hbytes, x, flags, off, hslot, htake, hstore⟩

end Results

end ConcurrentFs
