/-
  ConcurrentFs.Transfers

  Files as strings of bytes, over calls made one after the other.  Whatever has been
  done before, a write puts what it was given into its file and nothing else, with
  zeros before it where the file was shorter; a read gives what is there, as much as
  was asked for; a seek moves one descriptor; and `O_TRUNC` empties one file
  (`session_transfers`).

  Two things have to be so at first that no rule of layout.h asks for: the bytes of a
  file's last block past its end are zero, and no file is larger than MAX_FILE_BYTES
  (`Image.Trim`).  mkfs makes no other image, and no call undoes it.
-/
import ConcurrentFs.Session

namespace ConcurrentFs

open Lib

/-- What layout.h leaves open about files. -/
structure Image.Trim (I : Image) : Prop where
  padded : I.Padded
  size : ∀ x, (I.fileOf x).length ≤ maxFileBytes

/-! ## Reads -/

section Read

variable {sb : Superblock} {s : FileSystem} {W : World} {n x off : Nat} {flags : UInt32}

/-- The lock entry of an open descriptor that nobody is using. -/
theorem Body.idle_entry (hb : Body sb s W (Multiset.replicate n .empty)) {fd : Nat}
    (hslot : W.slot fd = .live x flags off) :
    ∃ p e, (s.files fd).lock = some p ∧ p.id = x ∧ s.entries p.id = some e ∧ e.addr = p.addr ∧
      ∀ exclusive, e.free exclusive = true := by
  obtain ⟨h0, hino, -⟩ := (hb.slot fd).open_ x flags off hslot
  obtain ⟨⟨p, e, hp, hid, he, haddr, -⟩, -⟩ := hb.attached (hb.idle_op fd) (hino ▸ h0)
  refine ⟨p, e, hp, hid.trans hino, he, haddr, fun exclusive => ?_⟩
  have hentry := hb.entry p.id
  rw [he, allGrips_empty] at hentry
  exact hentry.free_of (fun r hr => (hold_of_idle (mem_on.mp hr).1).1) exclusive

/-- A call that takes a descriptor's mutex and then does not throw. -/
theorem onFd_ends {α : Type} {code : Int → α} {fd : Int} {body : Nat → Fs α} {Q : α → Prop}
    (hb : Body sb s W (Multiset.replicate n .empty)) (hfd : 0 ≤ fd) (hlt : fd.toNat < 1024)
    (h : (body fd.toNat).Ends (s.mapFile fd.toNat fun f => { f with op := true })
      (fun a _ => Q a) fun _ _ => False) :
    (withFs code (do
      let fd ← fileAt fd
      withFd fd (body fd))).Ends s (fun a _ => Q a) fun _ _ => False := by
  unfold withFs
  rw [Prog.ends_catch]
  unfold fileAt
  rw [if_neg (by omega), Prog.ends_bind, Prog.ends_pure]
  unfold withFd
  rw [Prog.ends_bind, Prog.ends_await]
  refine ⟨by rw [hb.idle_op]; rfl, ?_⟩
  rw [Prog.ends_ensure]
  refine h.mono (fun a s' ha => ?_) fun _ _ hfalse => hfalse.elim
  rw [Prog.ends_change]
  exact ha

/-- Taking a lock shared that nobody holds. -/
theorem lockShared_ends {I : Image} {r : Side} {p : EntryPtr} {e : Entry} (hs : Shows sb s I r)
    (he : r.entries p.id = some e) (haddr : e.addr = p.addr) (hfree : e.free false = true)
    {U : Unit → FileSystem → Prop} {E : Exn → FileSystem → Prop}
    (hU : ∀ s', Shows sb s' I (r.put p.id (some { e with readers := e.readers + 1 })) → U () s') :
    (lockEntry p false).Ends s U E := by
  have hat := hs.entryAt he haddr
  refine ⟨?_, ?_⟩
  · dsimp only
    rw [hat]
    exact hfree
  · dsimp only
    rw [if_pos (by rw [hat]; rfl)]
    exact hU _ (hs.mapEntry he haddr _)

/-- `read_range` under the lock of the file. -/
theorem readLocked_ends (g : Regions sb) {I : Image} {r : Side} (hs : Shows sb s I r)
    (hc : Consistent sb I) {p : EntryPtr} {e : Entry} (he : r.entries p.id = some e)
    (haddr : e.addr = p.addr) (hcopy : e.inodeValid = true → e.inode = I.inode p.id)
    (h1 : 1 ≤ p.id) (h2 : p.id < sb.inodeCount.toNat) (hsize : I.sizeOf p.id ≤ maxFileBytes)
    (fd m : Nat) {Q : List UInt8 → FileSystem → Prop} (hQ : ∀ data s', Q data s') :
    (do
      let ino ← fileInode sb p p.id
      let pos ← Prog.view fun s => (s.files fd).offset
      readRange sb ino pos m : Fs (List UInt8)).Ends s
      (fun data s' => (unlockEntry p false).Ends s' (fun _ s'' => Q data s'') fun _ _ => False)
      fun _ _ => False := by
  rw [Prog.ends_bind]
  refine fileInode_ends g hs he haddr hcopy h1 h2 ?_
  rw [Prog.ends_bind, Prog.ends_view]
  refine readRange_ends g hs hc ?_ fun hbig => absurd hsize (not_le.mpr hbig)
  exact changeEntry_ends hs he haddr _ fun s' _ => hQ _ s'

/-- A read through a descriptor that can be read from does not fail. -/
theorem vfsRead_ends (g : Regions sb) (hb : Body sb s W (Multiset.replicate n .empty)) {fd : Int}
    {hasBuf : Bool} {m : Nat} (hfd : 0 ≤ fd) (hslot : W.slot fd.toNat = .live x flags off)
    (hacc : flags &&& oAccmode ≠ oWronly) (hbuf : hasBuf = true ∨ m = 0)
    (hsize : W.image.sizeOf x ≤ maxFileBytes) :
    (vfsRead sb fd hasBuf m).Ends s (fun r _ => 0 ≤ r.1 ∧ (m = 0 → r = (0, [])))
      fun _ _ => False := by
  obtain ⟨h0, hino, hflags, -⟩ := (hb.slot fd.toNat).open_ x flags off hslot
  have hlt : fd.toNat < maxOpen := (hb.slot fd.toNat).lt (by rw [hslot]; intro h; contradiction)
  rw [maxOpen_eq] at hlt
  obtain ⟨p, e, hp, rfl, he, haddr, hfree⟩ := hb.idle_entry hslot
  have hx := hb.live_file hslot
  obtain ⟨h1, h2, -⟩ := hb.cons.ibit_of_kind (x := p.id) (by
    show W.image.tree.kind p.id ≠ none
    rw [hx]
    intro h
    contradiction)
  have hcopy : e.inodeValid = true → e.inode = W.image.inode p.id := fun hv =>
    ((hb.entry p.id).copy e he hv).1
  unfold vfsRead
  refine onFd_ends (Q := fun r : Int × List UInt8 => 0 ≤ r.1 ∧ (m = 0 → r = (0, []))) hb hfd hlt ?_
  -- the mutex is all that has changed
  generalize hs1 : s.mapFile fd.toNat (fun f => { f with op := true }) = s1
  have hfile : s1.files fd.toNat = { s.files fd.toNat with op := true } := by
    rw [← hs1]
    exact Function.update_self ..
  have he1 : s1.entries p.id = some e := by
    rw [← hs1]
    exact he
  have hshow1 : Shows sb s1 W.image s1.side := by
    rw [← hs1]
    exact hb.shows.still rfl rfl rfl
  rw [Prog.ends_bind]
  refine ⟨rfl, ?_⟩
  dsimp only [id]
  rw [if_neg (by rw [hfile]; exact hino ▸ h0), hfile, hp, hino, hflags]
  dsimp only
  rw [Prog.ends_pure, if_neg hacc]
  by_cases hm : m = 0
  · rw [if_pos hm, Prog.ends_pure]
    exact ⟨le_refl _, fun _ => rfl⟩
  rw [if_neg hm, if_neg (by rw [hbuf.resolve_right hm]; decide), Prog.ends_bind]
  refine lockShared_ends hshow1 he1 haddr (hfree false) fun s2 hshow2 => ?_
  rw [Prog.ends_bind, Prog.ends_ensure, Prog.ends_atomic]
  refine (readLocked_ends g hshow2 hb.cons (Function.update_self ..) haddr hcopy h1 h2 hsize
    fd.toNat _ fun data s' => ?_).mono (fun _ _ h => h) fun _ _ hfalse => hfalse.elim
  rw [Prog.ends_bind, Prog.ends_change, Prog.ends_pure]
  exact ⟨Int.natCast_nonneg _, fun h0 => absurd h0 hm⟩

end Read

/-! ## What one call does -/

/-- A deed that puts no bytes anywhere. -/
def Act.Bare : Act → Prop
  | .write _ _ _ _ data _ => data = []
  | _ => True

theorem Act.Quiet.bare {act : Act} (h : act.Quiet) : act.Bare := by
  cases act with
  | write => exact h
  | _ => trivial

/-- A call that is not a write that succeeds puts no bytes anywhere. -/
theorem Did.bare {c : Call} {a : Reply} {acts : List Act} (h : Did c a acts)
    (hc : ∀ fd buf m, c = .write fd buf m → a.code < 0 ∨ m = 0) : ∀ act ∈ acts, act.Bare := by
  by_cases ha : a.code < 0
  · exact fun act hact => ((h.1 ha).1 act hact).bare
  have hacts := h.2 (not_lt.mp ha)
  cases c with
  | open_ path flags =>
    obtain ⟨fd, -, ⟨d, x, name, rfl⟩ | ⟨x, rfl⟩⟩ := hacts
    · simp [Act.Bare]
    · split <;> simp [Act.Bare]
  | close fd => simp [hacts, Act.Bare]
  | mkdir path =>
    obtain ⟨d, x, name, rfl⟩ := hacts
    simp [Act.Bare]
  | unlink path | rmdir path =>
    obtain ⟨d, k, x, rfl⟩ := hacts
    simp [Act.Bare]
  | read fd hasBuf m =>
    dsimp only at hacts
    split at hacts
    · simp [hacts, Act.Bare]
    · obtain ⟨x, pos, -, rfl⟩ := hacts
      simp [Act.Bare]
  | write fd buf m =>
    dsimp only at hacts
    rw [if_pos ((hc fd buf m rfl).resolve_left ha)] at hacts
    simp [hacts, Act.Bare]
  | lseek fd off whence =>
    obtain ⟨off, -, rfl⟩ := hacts
    simp [Act.Bare]
  | fsync | sync | stat | readdir =>
    obtain rfl : acts = [.look] := hacts
    simp [Act.Bare]

/-- No file gets longer. -/
theorem Store.apply_bare {S : Store} {act : Act} (h : act.Bare) (x : Nat) :
    (S.apply act).file x = S.file x ∨ (S.apply act).file x = [] := by
  have hput : ∀ y, (S.putFile y []).file x = S.file x ∨ (S.putFile y []).file x = [] := by
    intro y
    by_cases hxy : x = y
    · exact .inr (by rw [hxy]; exact Function.update_self ..)
    · exact .inl (Function.update_of_ne hxy ..)
  cases act with
  | create fd flags d y name => exact hput y
  | remove d k y | truncate y => exact hput y
  | write fd y start done data full =>
    obtain rfl : data = [] := h
    show (S.putFile y (splice (S.file y) start [])).file x = S.file x ∨ _
    rw [splice_nil]
    exact .inl (congrFun (Function.update_eq_self y S.file) x)
  | fill fd | move fd off =>
    unfold apply
    dsimp only
    split <;> exact .inl rfl
  | _ => exact .inl rfl

@[simp] theorem Store.putSlot_putSlot (S : Store) (fd : Nat) (a b : FdState) :
    (S.putSlot fd a).putSlot fd b = S.putSlot fd b := by
  unfold putSlot
  rw [Function.update_idem]

section Calls

variable {sb : Superblock} {s s' : FileSystem} {W W' : World} {n : Nat} {a : Reply}
  {ds : List (Deed Act Reply World)} {ph ph' : Phase Call Reply}

/-- The last block of a file keeps holding zeros past its end. -/
theorem Deeds.padded (h : Deeds sb W ph ds W' ph') (hpad : W.image.Padded) : W'.image.Padded := by
  refine Trail.keeps (R := fun W W' => W.image.Padded → W'.image.Padded) (K := fun _ => True)
    (fun _ => id) (fun h1 h2 hp => h2 (h1 hp)) ?_ h (fun _ _ => trivial) hpad
  rintro W c d ⟨⟨hdoes, -⟩, ⟨s, hs, hb⟩, -⟩ - hp
  exact (hdoes.store hb hp).2.2

theorem Deeds.trim (h : Deeds sb W ph ds W' ph') (hbare : ∀ act ∈ ds.map Deed.act, act.Bare)
    (ht : W.image.Trim) : W'.image.Trim := by
  refine Trail.keeps (R := fun W W' => W.image.Trim → W'.image.Trim) (K := fun d => d.act.Bare)
    (fun _ => id) (fun h1 h2 ht => h2 (h1 ht)) ?_ h
    (fun d hd => hbare _ (List.mem_map_of_mem hd)) ht
  rintro W c d ⟨⟨hdoes, -⟩, ⟨s, hs, hb⟩, -⟩ hd ht
  obtain ⟨hfiles, hpad⟩ := hdoes.files hb ht.padded
  refine ⟨hpad, fun x => ?_⟩
  rw [hfiles]
  rcases Store.apply_bare hd x with hx | hx
  · rw [hx]
    exact ht.size x
  · rw [hx]
    exact Nat.zero_le _

/-- The last deed of an open. -/
theorem Deeds.filled {V : World} {S : Store} {fd x : Nat} {flags : UInt32}
    (h : Deeds sb V ph ds W' ph') (hacts : ds.map Deed.act = [.fill fd]) (hpad : V.image.Padded)
    (hV : V.store = S.putSlot fd (.reserved (some (x, flags)))) :
    W'.store = S.putSlot fd (.live x flags 0) := by
  obtain ⟨V', ph1, ds1, -, -, hV', -, hnil, hds1⟩ := h.first hacts hpad
  rw [List.map_eq_nil_iff] at hds1
  subst hds1
  cases hnil
  rw [hV', hV, Store.apply_fill (Function.update_self ..), Store.putSlot_putSlot]

variable (hb : Body sb s W (Multiset.replicate n .empty))
  (hb' : Body sb s' W' (Multiset.replicate n .empty))
include hb hb'

/-- A seek that succeeds: its descriptor is where it says. -/
theorem did_lseek {fd off whence : Int} (hpad : W.image.Padded)
    (htrail : Deeds sb W (.called (.lseek fd off whence)) ds W' ph)
    (hdid : Did (.lseek fd off whence) a (ds.map Deed.act)) (ha : 0 ≤ a.code) :
    ∃ x flags off', (s.store sb).slot fd.toNat = .live x flags off' ∧
      s'.store sb = (s.store sb).putSlot fd.toNat (.live x flags a.code.toNat) := by
  obtain ⟨pos, hcode, hacts⟩ := hdid.2 ha
  obtain ⟨V, ph1, ds1, hdoes, -, hV, -, hnil, hds1⟩ := htrail.first hacts hpad
  rw [List.map_eq_nil_iff] at hds1
  subst hds1
  cases hnil
  obtain ⟨x, flags, off', hsl, -⟩ := hdoes
  rw [hb'.idle_store, Store.apply_move hsl] at hV
  rw [← hb.idle_store, hcode, Int.toNat_natCast]
  exact ⟨x, flags, off', hsl, hV⟩

/-- An open that succeeds: its descriptor is at the start of a file, which is empty if it was
    truncated, and nothing else has changed. -/
theorem did_open {path : Option CString} {flags : UInt32} (hpad : W.image.Padded)
    (htrail : Deeds sb W (.called (.open_ path flags)) ds W' ph)
    (hdid : Did (.open_ path flags) a (ds.map Deed.act)) (ha : 0 ≤ a.code) :
    ∃ x, (s.store sb).slot a.code.toNat = .free ∧
      s'.store sb = (if flags &&& oTrunc ≠ 0 then (s.store sb).putFile x [] else s.store sb).putSlot
        a.code.toNat (.live x flags 0) := by
  obtain ⟨fd, hcode, hacts⟩ := hdid.2 ha
  rw [← hb.idle_store, ← hb'.idle_store, hcode, Int.toNat_natCast]
  rcases hacts with ⟨d, x, name, hacts⟩ | ⟨x, hacts⟩
  · obtain ⟨V1, ph1, ds1, ⟨-, hfree, -⟩, -, hV1, hpad1, h1, hacts1⟩ := htrail.first hacts hpad
    obtain ⟨V2, ph2, ds2, ⟨hnew, -⟩, -, hV2, hpad2, h2, hacts2⟩ := h1.first hacts1 hpad1
    -- what is made was not there, so it was empty already
    have hempty : W.store.putFile x [] = W.store := by
      obtain ⟨k, hcan, -⟩ := hnew.tree
      have hno : V1.store.file x = [] := fileOf_other (by rw [hcan.unused]; intro h; contradiction)
      rw [hV1] at hno
      have hno : W.store.file x = [] := hno
      unfold Store.putFile
      rw [← hno, Function.update_eq_self]
    refine ⟨x, hfree, ?_⟩
    rw [hempty, ite_self]
    refine h2.filled hacts2 hpad2 ?_
    rw [hV2, hV1]
    show ((W.store.putFile x []).putSlot fd (.reserved none)).putSlot fd _ = _
    rw [hempty, Store.putSlot_putSlot]
  · by_cases htr : flags &&& oTrunc ≠ 0
    · rw [if_pos htr] at hacts
      obtain ⟨V1, ph1, ds1, ⟨-, hfree, -⟩, -, hV1, hpad1, h1, hacts1⟩ := htrail.first hacts hpad
      obtain ⟨V2, ph2, ds2, -, -, hV2, hpad2, h2, hacts2⟩ := h1.first hacts1 hpad1
      obtain ⟨V3, ph3, ds3, -, -, hV3, hpad3, h3, hacts3⟩ := h2.first hacts2 hpad2
      refine ⟨x, hfree, ?_⟩
      rw [if_pos htr]
      refine h3.filled hacts3 hpad3 ?_
      rw [hV3, hV2, hV1]
      exact Store.putSlot_putSlot (W.store.putFile x []) fd _ _
    · rw [if_neg htr] at hacts
      obtain ⟨V1, ph1, ds1, ⟨-, hfree, -⟩, -, hV1, hpad1, h1, hacts1⟩ := htrail.first hacts hpad
      obtain ⟨V2, ph2, ds2, -, -, hV2, hpad2, h2, hacts2⟩ := h1.first hacts1 hpad1
      refine ⟨x, hfree, ?_⟩
      rw [if_neg htr]
      refine h2.filled hacts2 hpad2 ?_
      rw [hV2, hV1]
      exact Store.putSlot_putSlot W.store fd _ _

/-- A read through a descriptor that can be read from. -/
theorem reads {fd : Int} {hasBuf : Bool} {m x off : Nat} {flags : UInt32} (g : Regions sb)
    (ht : W.image.Trim) (hrun : ((Call.read fd hasBuf m).run sb).run s = some (.ok a, s'))
    (htrail : Deeds sb W (.called (.read fd hasBuf m)) ds W' ph)
    (hdid : Did (.read fd hasBuf m) a (ds.map Deed.act)) (hfd : 0 ≤ fd)
    (hslot : (s.store sb).slot fd.toNat = .live x flags off)
    (hacc : flags &&& oAccmode ≠ oWronly) (hbuf : hasBuf = true ∨ m = 0) :
    a.code = a.bytes.length ∧ a.bytes = (((s.store sb).file x).drop off).take m ∧
      s'.store sb = (s.store sb).putSlot fd.toNat (.live x flags (off + a.bytes.length)) := by
  rw [← hb.idle_store] at hslot
  have hsize := ht.size x
  rw [length_fileOf (hb.live_file hslot)] at hsize
  have hends : ((Call.read fd hasBuf m).run sb).Ends s
      (fun a _ => 0 ≤ a.code ∧ (m = 0 → a = .of 0)) fun _ _ => False := by
    unfold Call.run
    rw [Prog.ends_bind]
    refine (vfsRead_ends g hb hfd hslot hacc hbuf hsize).mono (fun r _ hr => ⟨hr.1, fun h0 => ?_⟩)
      fun _ _ h => h
    rw [hr.2 h0]
    rfl
  obtain ⟨out, hout, hmeets⟩ := Prog.ends_iff_run.mp hends
  obtain rfl := Option.some.inj (hrun.symm.trans hout)
  obtain ⟨hcode, hzero⟩ := hmeets
  by_cases hm : m = 0
  · -- nothing was asked for
    obtain rfl := hzero hm
    have hlook : ds.map Deed.act = [.look] := by
      have := hdid.2 hcode
      dsimp only at this
      rwa [if_pos hm] at this
    obtain ⟨V, ph1, ds1, -, -, hV, -, hnil, hds1⟩ := htrail.first hlook ht.padded
    rw [List.map_eq_nil_iff] at hds1
    subst hds1
    cases hnil
    refine ⟨rfl, by rw [hm, List.take_zero]; rfl, ?_⟩
    rw [← hb'.idle_store, ← hb.idle_store, hV]
    unfold Store.putSlot
    rw [show off + (Reply.of 0).bytes.length = off from rfl, ← hslot, Function.update_eq_self]
    rfl
  · obtain ⟨x', flags', off', hsl, hlen, hbytes, hstore⟩ :=
      did_read hb hb' ht.padded htrail hdid (Nat.pos_of_ne_zero hm) hcode
    rw [← hb.idle_store] at hsl
    obtain ⟨rfl, rfl, rfl⟩ := FdState.live.inj (hslot.symm.trans hsl)
    refine ⟨hlen, ?_, hstore⟩
    -- a file is shorter than the most that can be asked for
    have hbig : maxFileBytes < ssizeMax := by decide
    have hfile : ((s.store sb).file x).length ≤ maxFileBytes := by
      rw [← hb.idle_store]
      exact ht.size x
    rw [hbytes, ← List.take_take, List.take_of_length_le (i := ssizeMax)]
    rw [List.length_drop]
    omega

end Calls

/-! ## One call after the other -/

/-- What a call makes of the files and the descriptors, if it moves data; and that no file changes
    if it fails. -/
def Transfers (sb : Superblock) (s : FileSystem) (c : Call) (a : Reply) (s' : FileSystem) : Prop :=
  (a.code < 0 → (s'.store sb).file = (s.store sb).file) ∧
  match c with
  | .write fd buf m => 0 < m → 0 ≤ a.code → DidWrite sb s fd buf m a s'
  | .read fd hasBuf m => ∀ x flags off, 0 ≤ fd → (s.store sb).slot fd.toNat = .live x flags off →
      flags &&& oAccmode ≠ oWronly → (hasBuf = true ∨ m = 0) →
      a.code = a.bytes.length ∧ a.bytes = (((s.store sb).file x).drop off).take m ∧
      s'.store sb = (s.store sb).putSlot fd.toNat (.live x flags (off + a.bytes.length))
  | .lseek fd _ _ => 0 ≤ a.code → ∃ x flags off, (s.store sb).slot fd.toNat = .live x flags off ∧
      s'.store sb = (s.store sb).putSlot fd.toNat (.live x flags a.code.toNat)
  | .open_ _ flags => 0 ≤ a.code → ∃ x, (s.store sb).slot a.code.toNat = .free ∧
      s'.store sb = (if flags &&& oTrunc ≠ 0 then (s.store sb).putFile x [] else s.store sb).putSlot
        a.code.toNat (.live x flags 0)
  | _ => True

/-- Every call of a session is as `R` says. -/
def Stepwise (R : FileSystem → Call → Reply → FileSystem → Prop) :
    FileSystem → List Call → List (Reply × FileSystem) → Prop
  | _, [], [] => True
  | s, c :: cs, (a, s') :: outs => R s c a s' ∧ Stepwise R s' cs outs
  | _, _, _ => False

/-- A write makes no file larger than it may be. -/
theorem DidWrite.size {sb : Superblock} {s s' : FileSystem} {fd : Int} {buf : Option (Nat → UInt8)}
    {m : Nat} {a : Reply} (h : DidWrite sb s fd buf m a s') {x : Nat} :
    ((s'.store sb).file x).length ≤ max ((s.store sb).file x).length maxFileBytes := by
  obtain ⟨src, y, flags, off, start, k, -, -, h0, -, -, -, hstore, hmax, -⟩ := h
  rw [hstore]
  show (Function.update (s.store sb).file y _ x).length ≤ _
  by_cases hxy : x = y
  · rw [hxy, Function.update_self, length_splice (by simpa using h0.ne'), List.length_map,
      List.length_range]
    omega
  · rw [Function.update_of_ne hxy]
    exact le_max_left ..

section Sessions

variable {sb : Superblock} {s : FileSystem}

/-- The step lemma: a call does to the files what it should, and keeps them as they should be. -/
theorem Settled.transfers (g : Regions sb) (h : Settled sb s) (ht : (Image.of sb s.disk).Trim)
    (c : Call) : ∃ a s', (c.run sb).run s = some (.ok a, s') ∧ Transfers sb s c a s' ∧
      Settled sb s' ∧ (Image.of sb s'.disk).Trim := by
  obtain ⟨W, n, hb⟩ := h
  rw [hb.shows.image] at ht
  obtain ⟨a, s', ds, W', hrun, hb', htrail, hdid⟩ := call_alone g hb c
  refine ⟨a, s', hrun, ⟨fun ha => ?_, ?_⟩, ⟨W', n, hb'⟩, ?_⟩
  · have hcalm := calm_of_quiet htrail (hdid.1 ha).1
    rw [← hb.idle_store, ← hb'.idle_store]
    exact congrArg Image.fileOf hcalm.image
  · cases c with
    | write fd buf m => exact did_write hb hb' ht.padded htrail hdid
    | read fd hasBuf m => exact fun x flags off => reads hb hb' g ht hrun htrail hdid
    | lseek fd off whence => exact did_lseek hb hb' ht.padded htrail hdid
    | open_ path flags => exact did_open hb hb' ht.padded htrail hdid
    | _ => trivial
  · rw [hb'.shows.image]
    by_cases hwrite : ∃ fd buf m, c = .write fd buf m ∧ 0 ≤ a.code ∧ 0 < m
    · obtain ⟨fd, buf, m, rfl, ha, hm⟩ := hwrite
      refine ⟨htrail.padded ht.padded, fun x => ?_⟩
      have hdone := (did_write hb hb' ht.padded htrail hdid hm ha).size (x := x)
      rw [← hb'.idle_store, ← hb.idle_store] at hdone
      exact hdone.trans (max_le (ht.size x) le_rfl)
    · refine htrail.trim (hdid.bare fun fd buf m hc => ?_) ht
      by_contra hno
      exact hwrite ⟨fd, buf, m, hc, by omega, by omega⟩

/-- The run lemma: so does every call of a session. -/
theorem stepwise_transfers (g : Regions sb) (h : Settled sb s) (ht : (Image.of sb s.disk).Trim)
    (cs : List Call) : ∃ outs, session sb cs s = some outs ∧ Stepwise (Transfers sb) s cs outs := by
  induction cs generalizing s with
  | nil => exact ⟨[], rfl, trivial⟩
  | cons c cs ih =>
    obtain ⟨a, s', hrun, hc, h', ht'⟩ := h.transfers g ht c
    obtain ⟨outs, hs, hall⟩ := ih h' ht'
    exact ⟨(a, s') :: outs, session_cons hrun hs, hc, hall⟩

/-- Whatever calls are made one after the other, each does to the files what it should. -/
theorem session_transfers {blocks : UInt32} (hv : validateSuperblock sb blocks = .ok ())
    (h : Settled sb s) (ht : (Image.of sb s.disk).Trim) (cs : List Call) :
    ∃ outs, session sb cs s = some outs ∧ Stepwise (Transfers sb) s cs outs :=
  stepwise_transfers (regions_of_validate hv) h ht cs

theorem newDisk_trim : (Image.of smallLayout newDisk).Trim := by
  refine ⟨newDisk_padded, fun x => ?_⟩
  have hno : (Image.of smallLayout newDisk).tree.kind x ≠ some .file :=
    mkfsDisk_no_file 0 _ Mkfs.smallLayout_planned x
  rw [fileOf_other hno]
  exact Nat.zero_le _

/-- A file with a gap in it, and then truncated. -/
def gapCalls : List Call :=
  [create slashA, .write 0 (some fun i => UInt8.ofNat i) 5, .lseek 0 7 0,
    .write 0 (some fun _ => 9) 2, .lseek 0 0 0, .read 0 true 16,
    .open_ (some slashA) (1 ||| oTrunc), .lseek 0 0 0, .read 0 true 16]

theorem session_transfers_new : ∃ outs,
    session smallLayout gapCalls (.mounted smallLayout newDisk fun _ => 0) = some outs ∧
    outs.map (fun o => o.1.code) = [0, 5, 7, 2, 0, 9, 1, 0, 0] ∧
    outs.flatMap (fun o => o.1.bytes) = [0, 1, 2, 3, 4, 0, 0, 9, 9] ∧
    Stepwise (Transfers smallLayout) (.mounted smallLayout newDisk fun _ => 0) gapCalls outs := by
  obtain ⟨outs, hs, hall⟩ := session_transfers smallLayout_valid
    (settled_mounted (regions_of_validate smallLayout_valid) newDisk_consistent) newDisk_trim
    gapCalls
  have hseen : (session smallLayout gapCalls (.mounted smallLayout newDisk fun _ => 0)).map
      (fun outs => (outs.map fun o => o.1.code, outs.flatMap fun o => o.1.bytes))
      = some ([0, 5, 7, 2, 0, 9, 1, 0, 0], [0, 1, 2, 3, 4, 0, 0, 9, 9]) := by decide +kernel
  rw [hs] at hseen
  obtain ⟨hcodes, hbytes⟩ := Prod.mk.inj (Option.some.inj hseen)
  exact ⟨outs, hs, hcodes, hbytes, hall⟩

end Sessions

/-! ## Images that layout.h allows -/

/-- Another size for a file, with the same blocks. -/
theorem Consistent.resize {sb : Superblock} {I : Image} {x : Nat} (c : Consistent sb I)
    (hx : I.tree.kind x = some .file) {size : UInt64} {ino : Inode}
    (hino : ino = { I.inode x with size := size })
    (hends : ∀ i, size.toNat ≤ 4096 * i → bmap I.blk (I.inode x) i = 0) :
    Consistent sb (I.putInode x ino) := by
  have hk : kindOf ino = some .file := by
    rw [hino]
    exact hx
  have hptr : ∀ b, ptr b ino = ptr b (I.inode x) := fun b =>
    ptr_fields _ _ (by rw [hino]) (by rw [hino]) (by rw [hino])
  have hinode : (I.putInode x ino).inode = Function.update I.inode x ino := rfl
  have hown : Own sb (I.putInode x ino) (Function.update I.inode x ino) ∅ := by
    have ho : Own sb (I.putInode x ino) I.inode ∅ := c.own.congr_image rfl rfl
    refine ho.congr_inode fun y => ?_
    by_cases hy : y = x
    · rw [hy, Function.update_self]
      exact ⟨hptr _, by rw [hino]⟩
    · rw [Function.update_of_ne hy]
      exact ⟨rfl, rfl⟩
  have hshape : Shaped I.blk ino := by
    refine ⟨fun i hi => ?_, fun hd => absurd (hk.symm.trans hd) nofun,
      fun hd => absurd (hk.symm.trans hd) nofun⟩
    rw [hino] at hi
    exact (congrFun (hptr _) (.data i)).trans (hends i hi)
  exact (c.changed (I.putInode x ino) hx rfl hinode hown (by rw [hino]) (by rw [hino])
    (by rw [hino]) hshape (fun _ _ _ => rfl) fun _ _ _ => rfl).1

/-- The disk `d` with another size in inode `x`. -/
def resized (sb : Superblock) (d : Nat → Block) (x : Nat) (size : UInt64) : Nat → Block :=
  Function.update d (inodeBlock sb x)
    (setInodeIn (d (inodeBlock sb x)) (x % 32) { (Image.of sb d).inode x with size := size })

theorem resized_consistent {sb : Superblock} {d : Nat → Block} {x : Nat} (g : Regions sb)
    (hc : Consistent sb (Image.of sb d)) (hx : kindOf ((Image.of sb d).inode x) = some .file)
    (hid : x < sb.inodeCount.toNat) {size : UInt64} (h1 : 1 ≤ size.toNat)
    (h2 : ((Image.of sb d).inode x).size.toNat ≤ 4096) :
    Consistent sb (Image.of sb (resized sb d x size)) := by
  unfold resized
  rw [Image.of_putInode g d hid]
  exact hc.resize hx rfl fun i hi => (hc.shaped x).ends i (by omega)

/-- The disk with a file "/a" of the bytes 0, 1, 2, 3 and 4, and another size in its inode. -/
def wrongSize (size : UInt64) : Nat → Block :=
  resized smallLayout (newRun makeFile).state.disk 2 size

theorem wrongSize_consistent {size : UInt64} (h : 1 ≤ size.toNat) :
    Consistent smallLayout (Image.of smallLayout (wrongSize size)) := by
  have g := regions_of_validate smallLayout_valid
  have hc := (reached_consistent g newDisk_consistent (newRun_reached makeFile)).1
  have hx : kindOf ((Image.of smallLayout (newRun makeFile).state.disk).inode 2) = some .file := by
    decide +kernel
  have hsize : ((Image.of smallLayout (newRun makeFile).state.disk).inode 2).size.toNat ≤ 4096 := by
    decide +kernel
  exact resized_consistent g hc hx (by decide) h hsize

/-- Where descriptor 0 is after a call, and what the call answered. -/
def seenAt (o : Reply × FileSystem) : Int × Nat × UInt32 × Nat :=
  (o.1.code, (o.2.files 0).inode, (o.2.files 0).flags, (o.2.files 0).offset)

theorem slot_of_seen {s : FileSystem} {a : Reply} {code : Int} {x off : Nat} {flags : UInt32}
    (h : seenAt (a, s) = (code, x, flags, off)) (h0 : x ≠ 0) :
    a.code = code ∧ (s.store smallLayout).slot 0 = .live x flags off := by
  simp only [seenAt, Prod.mk.injEq] at h
  obtain ⟨hcode, rfl, rfl, rfl⟩ := h
  exact ⟨hcode, if_neg h0⟩

/-- Three calls on such a disk, and what is seen of them. -/
theorem three_seen {size : UInt64} {c1 c2 c3 : Call} {outs : List (Reply × FileSystem)}
    (v1 v2 v3 : Int × Nat × UInt32 × Nat)
    (hs : session smallLayout [c1, c2, c3] (.mounted smallLayout (wrongSize size) fun _ => 0)
      = some outs)
    (hall : Stepwise (Transfers smallLayout) (.mounted smallLayout (wrongSize size) fun _ => 0)
      [c1, c2, c3] outs)
    (hseen : (session smallLayout [c1, c2, c3]
      (.mounted smallLayout (wrongSize size) fun _ => 0)).map (·.map seenAt) = some [v1, v2, v3]) :
    ∃ o1 a2 s2 a3 s3, outs = [o1, (a2, s2), (a3, s3)] ∧ seenAt (a2, s2) = v2 ∧
      seenAt (a3, s3) = v3 ∧ Transfers smallLayout s2 c3 a3 s3 := by
  rw [hs] at hseen
  match outs, hall, Option.some.inj hseen with
  | [(a1, s1), (a2, s2), (a3, s3)], ⟨_, _, h3, _⟩, hl =>
    obtain ⟨-, h2, h3', -⟩ : seenAt (a1, s1) = v1 ∧ seenAt (a2, s2) = v2 ∧
        seenAt (a3, s3) = v3 ∧ True := by simpa using hl
    exact ⟨(a1, s1), a2, s2, a3, s3, rfl, h2, h3', h3⟩

/-- A write past the end of a file whose last block does not end in zeros. -/
def writePast : List Call := [.open_ (some slashA) 2, .lseek 0 5 0, .write 0 (some fun _ => 9) 1]

/-- A read past the largest size. -/
def readPast : List Call := [.open_ (some slashA) 2, .lseek 0 maxFileBytes 0, .read 0 true 1]

/-- Both images satisfy the rules of layout.h.  On one the write shows old bytes, on the other the
    read fails. -/
theorem wrongSize_not_transfers :
    (Consistent smallLayout (Image.of smallLayout (wrongSize 3)) ∧
      ¬ ∃ outs, session smallLayout writePast (.mounted smallLayout (wrongSize 3) fun _ => 0)
          = some outs ∧
        Stepwise (Transfers smallLayout) (.mounted smallLayout (wrongSize 3) fun _ => 0) writePast
          outs) ∧
    Consistent smallLayout (Image.of smallLayout (wrongSize (UInt64.ofNat (maxFileBytes + 1)))) ∧
    ¬ ∃ outs, session smallLayout readPast
          (.mounted smallLayout (wrongSize (UInt64.ofNat (maxFileBytes + 1))) fun _ => 0)
          = some outs ∧
        Stepwise (Transfers smallLayout)
          (.mounted smallLayout (wrongSize (UInt64.ofNat (maxFileBytes + 1))) fun _ => 0) readPast
          outs := by
  refine ⟨⟨wrongSize_consistent (by decide), ?_⟩, wrongSize_consistent (by decide), ?_⟩
  · rintro ⟨outs, hs, hall⟩
    have hfiles : (session smallLayout writePast
        (.mounted smallLayout (wrongSize 3) fun _ => 0)).map (·.map fun o =>
          (o.2.store smallLayout).file 2) = some [[0, 1, 2], [0, 1, 2], [0, 1, 2, 3, 4, 9]] := by
      decide +kernel
    rw [hs] at hfiles
    obtain ⟨o1, a2, s2, a3, s3, rfl, h2, h3, -, hwrite⟩ := three_seen (0, 2, 2, 0)
      (5, 2, 2, 5) (1, 2, 2, 6) hs hall (by decide +kernel)
    obtain ⟨-, hslot⟩ := slot_of_seen h2 (by decide)
    have hcode : a3.code = 1 := (slot_of_seen h3 (by decide)).1
    obtain ⟨src, x, flags, off, start, k, hsrc, hk, -, -, hsl, hstart, hstore, -⟩ :=
      hwrite (by decide) (by rw [hcode]; decide)
    obtain rfl := Option.some.inj hsrc
    obtain ⟨rfl, rfl, rfl⟩ := FdState.live.inj (hslot.symm.trans hsl)
    obtain rfl : k = 1 := by omega
    simp only [Option.map_some, List.map_cons, List.map_nil, Option.some.injEq,
      List.cons.injEq, and_true] at hfiles
    obtain ⟨-, hold, hnew⟩ := hfiles
    have hfile : (s3.store smallLayout).file 2
        = splice ((s2.store smallLayout).file 2) start [9] := by
      rw [hstore]
      exact Function.update_self (f := (s2.store smallLayout).file) 2 _
    rw [if_neg (by decide)] at hstart
    rw [hold, hnew, hstart] at hfile
    exact absurd hfile (by decide)
  · rintro ⟨outs, hs, hall⟩
    obtain ⟨o1, a2, s2, a3, s3, rfl, h2, h3, -, hread⟩ := three_seen (0, 2, 2, 0)
      (4299210752, 2, 2, 4299210752) (-27, 2, 2, 4299210752) hs hall (by decide +kernel)
    obtain ⟨-, hslot⟩ := slot_of_seen h2 (by decide)
    obtain ⟨hcode, -⟩ := hread 2 2 4299210752 (le_refl 0) hslot (by decide) (.inl rfl)
    rw [(slot_of_seen h3 (by decide)).1] at hcode
    omega

end ConcurrentFs
