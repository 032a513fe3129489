/-
  ConcurrentFs.Interleavings

  Any number of threads on one mounted file system, each making calls one after the
  other, in any interleaving of their steps.
-/
import ConcurrentFs.Calls
import ConcurrentFs.Lib.Linearize
import ConcurrentFs.Mkfs

namespace ConcurrentFs

open Lib

/-- The threads of a program that uses one mounted file system. -/
abbrev Users := Pool Call FileSystem Exn Reply

/-- What `n` threads can make of the file system that was mounted from `disk`. -/
abbrev Reached (sb : Superblock) (disk : Nat → Block) (clock : Nat → UInt64) (n : Nat) :
    Users → Prop :=
  Pool.Reachable (Call.run sb) (.mounted sb disk clock) n

/-- What a file system stands for right after it was mounted. -/
def World.fresh (I : Image) : World := ⟨I, fun _ => .free⟩

section Start

variable {sb : Superblock} {disk : Nat → Block} {clock : Nat → UInt64} {n : Nat}

theorem idleGrips_closed : idleGrips (fun _ => .closed) = 0 :=
  Finset.sum_eq_zero fun _ _ => rfl

theorem allGrips_empty (files : Nat → OpenFile) :
    allGrips files (Multiset.replicate n Hands.empty) = idleGrips files := by
  unfold allGrips
  rw [Multiset.map_replicate, Multiset.sum_replicate]
  show n • (0 : Multiset Grip) + _ = _
  rw [smul_zero, zero_add]

theorem tokensOn_empty (fd : Nat) : tokensOn fd (Multiset.replicate n Hands.empty) = 0 := by
  refine Multiset.eq_zero_of_forall_notMem fun t ht => ?_
  obtain ⟨h, hh, ht, -⟩ := mem_tokensOn.mp ht
  rw [Multiset.eq_of_mem_replicate hh] at ht
  cases ht

theorem resvsOn_empty (fd : Nat) : resvsOn fd (Multiset.replicate n Hands.empty) = 0 := by
  refine Multiset.eq_zero_of_forall_notMem fun v hv => ?_
  obtain ⟨h, hh, hv, -⟩ := mem_resvsOn.mp hv
  rw [Multiset.eq_of_mem_replicate hh] at hv
  cases hv

/-- The invariant right after the mount, with nobody holding anything. -/
theorem body_mounted (clock : Nat → UInt64) (g : Regions sb)
    (hc : Consistent sb (Image.of sb disk)) :
    Body sb (.mounted sb disk clock) (.fresh (Image.of sb disk))
      (Multiset.replicate n .empty) where
  shows := (Allocator.synced_iff g).mp (Allocator.synced_mounted sb disk clock)
  cons := hc
  entry id := by
    rw [allGrips_empty]
    show EntryOk _ id none (openBalance [] id) (on id (idleGrips fun _ => .closed))
    rw [idleGrips_closed, on_zero]
    refine ⟨fun _ => rfl, ?_, ?_, fun r hr => absurd hr (Multiset.notMem_zero r),
      fun r hr => absurd hr (Multiset.notMem_zero r), rfl⟩
    · intro _ h
      contradiction
    · intro _ h
      contradiction
  slot fd := by
    rw [tokensOn_empty, resvsOn_empty]
    refine ⟨rfl, ⟨?_, fun h => absurd rfl h⟩, fun h => absurd rfl h, rfl, ?_,
      fun _ t ht => absurd ht (Multiset.notMem_zero t), fun _ _ => ⟨rfl, rfl⟩⟩
    · intro h
      contradiction
    · intro _ _ _ h
      contradiction
  ok h hh := by
    rw [Multiset.eq_of_mem_replicate hh]
    exact Hands.ok_empty

/-- A call ends as its thread's diary has it. -/
theorem Returns.settled {i : Nat} {c : Call} {a : Reply} {γ : Ghost Hands Call Reply Act World}
    (h : Returns sb ⟨i, .called c, []⟩ c a γ) : γ.hands = .empty ∧ γ.diary.thread = i ∧
      Settled (Legal sb) (fun c a own => Did c a (own.map Deed.act)) c a γ.diary := by
  obtain ⟨hh, acts, ⟨hw, hd⟩ | ⟨hw, hd, hany⟩⟩ := h
  · refine ⟨hh, hw.thread, .inl ⟨hw.phase, ?_⟩⟩
    show Did c a γ.diary.acts
    rw [hw.acts]
    exact hd
  · refine ⟨hh, hw.thread, .inr ⟨hw.phase, .look, fun W => ⟨⟨rfl, hany W⟩, ?_⟩⟩⟩
    show Did c a ((γ.diary.own ++ [_]).map Deed.act)
    rw [List.map_append]
    show Did c a (γ.diary.acts ++ [Act.look])
    rw [hw.acts]
    exact hd

/-- What the triples of the calls say of pools. -/
noncomputable def users (g : Regions sb) (W : World) :
    Pool.Spec (Call.run sb) (protocol sb) :=
  spec Hands.empty W rank_empty fun i c =>
    (call_safe g c (D := ⟨i, .called c, []⟩) rfl).mono (fun _ _ h => h.settled) fun _ _ h => h

/-- The run lemma: whatever the threads do, the invariant holds, and the threads and their ghosts
    fit together. -/
theorem Reached.ok (g : Regions sb) (hc : Consistent sb (Image.of sb disk)) {P : Users}
    (h : Reached sb disk clock n P) : (users g (.fresh (Image.of sb disk))).Ok P := by
  exact Pool.Spec.run_ok _ (spec_init _ _ _ (body_mounted clock g hc)) h

end Start

/-! ## Histories -/

/-- No call is running. -/
def Users.Idle (P : Users) : Prop := ∀ t ∈ P.threads, t = .idle

/-- The lines of a log. -/
abbrev Line := Mark Call Reply Act World

/-- How the file system mounted from `disk` came to be as `P` has it: a log of calls, deeds and
    returns, whose deeds lead from the first world to `W`. -/
structure Recorded (sb : Superblock) (disk : Nat → Block) (P : Users) (W : World)
    (log : List Line) : Prop where
  linked : Linked (Real (Body sb) (Legal sb)) (.fresh (Image.of sb disk)) log W
  follows : ∀ i, ∃ ph own, Follows (fun c a own => Did c a (own.map Deed.act)) i log ph own
  seen : log.filterMap Mark.event = P.trace
  now : ∃ hs, Body sb P.state W hs ∧ (P.Idle → ∃ n, hs = Multiset.replicate n .empty)

section Histories

variable {sb : Superblock} {disk : Nat → Block} {clock : Nat → UInt64} {n : Nat} {P : Users}

theorem Reached.history (g : Regions sb) (hc : Consistent sb (Image.of sb disk))
    (h : Reached sb disk clock n P) : ∃ W log, Recorded sb disk P W log := by
  obtain ⟨w, gs, ⟨hbody, hrec⟩, hstart, htrace, hfit⟩ := h.ok g hc
  have hlinked := hrec.linked
  rw [show w.start = .fresh (Image.of sb disk) from hstart] at hlinked
  refine ⟨w.world, w.log, hlinked, fun i => ?_, htrace, _, hbody, fun hidle => ?_⟩
  · by_cases hi : i ∈ ((gs : Multiset (Ghost Hands Call Reply Act World)).map Ghost.diary).map
      Diary.thread
    · obtain ⟨D, hD, rfl⟩ := Multiset.mem_map.mp hi
      exact ⟨_, _, hrec.follows D hD⟩
    · exact ⟨_, _, hrec.others i hi⟩
  · obtain ⟨hlen, hget⟩ := Pool.Spec.allFit_get _ hfit
    refine ⟨gs.length, ?_⟩
    rw [Multiset.map_coe, ← Multiset.coe_replicate]
    congr 1
    rw [List.eq_replicate_iff]
    refine ⟨List.length_map _, fun h hh => ?_⟩
    obtain ⟨γ, hγ, rfl⟩ := List.mem_map.mp hh
    obtain ⟨k, hk, rfl⟩ := List.mem_iff_getElem.mp hγ
    have hfk := hget k (hlen ▸ hk) hk
    rw [hidle _ (List.getElem_mem (hlen ▸ hk))] at hfk
    exact hfk.1

end Histories

/-! ## What holds in every state -/

section States

variable {sb : Superblock} {s : FileSystem} {W : World} {hs : Multiset Hands} {fd id n : Nat}

/-- Every lock entry is referred to, and its open count is what is on record. -/
theorem Body.counts (hb : Body sb s W hs) (id : Nat) :
    (∀ e, s.entries id = some e → 0 < e.refs ∧ (e.openCount : Int) = openBalance s.opens id) ∧
    (s.entries id = none → openBalance s.opens id = 0) := by
  have he := hb.entry id
  refine ⟨fun e hse => ?_, fun hse => ?_⟩
  · obtain ⟨hne, hcount⟩ := he.there e hse
    refine ⟨?_, ?_⟩
    · rw [hcount.refs]
      exact Multiset.card_pos.mpr hne
    · rw [he.balance, hcount.opened]
  · rw [he.balance, he.gone hse]
    rfl

/-- How many descriptors inode `id` is open on, as its lock entry has it. -/
def FileSystem.openCount (s : FileSystem) (id : Nat) : Nat :=
  (s.entries id).elim 0 Entry.openCount

theorem Body.openCount_eq (hb : Body sb s W hs) (id : Nat) :
    (s.openCount id : Int) = openBalance s.opens id := by
  obtain ⟨hthere, hgone⟩ := hb.counts id
  rw [FileSystem.openCount]
  cases he : s.entries id with
  | none => exact (hgone he).symm
  | some e => exact (hthere e he).2

/-- Descriptor `fd` leads to a file: to the lock entry of its inode, which knows that it is open,
    and that inode is in use, is a file and has a name. -/
structure Attached (s : FileSystem) (I : Image) (fd : Nat) : Prop where
  entry : ∃ p e, (s.files fd).lock = some p ∧ p.id = (s.files fd).inode ∧ s.entries p.id = some e ∧
    e.addr = p.addr ∧ 0 < e.openCount
  inUse : I.ibit (s.files fd).inode = true
  file : I.tree.kind (s.files fd).inode = some .file
  named : ∃ path, I.tree.At path (s.files fd).inode

/-- Where no mutex is held there are no tokens. -/
theorem Body.no_tokens (hb : Body sb s W hs) (hop : (s.files fd).op = false) :
    tokensOn fd hs = 0 := by
  have h := (hb.slot fd).op
  rw [hop] at h
  exact Multiset.card_eq_zero.mp h

/-- The grip of an open descriptor that nobody is using. -/
theorem Body.idle_grip (hb : Body sb s W hs) (hop : (s.files fd).op = false) {x off : Nat}
    {flags : UInt32} (hsl : W.slot fd = .live x flags off) :
    x ≠ 0 ∧ (s.files fd).inode = x ∧ ∃ p, (s.files fd).lock = some p ∧ p.id = x ∧
      (⟨p, true, none⟩ : Grip) ∈ allGrips s.files hs := by
  obtain ⟨h0, hino, -, -, p, hp, hid, -⟩ := (hb.slot fd).open_ x flags off hsl
  refine ⟨h0, hino, p, hp, hid, mem_allGrips.mpr (.inr ?_)⟩
  have hlt : fd < maxOpen := (hb.slot fd).lt (by rw [hsl]; intro h; contradiction)
  refine Multiset.mem_sum.mpr ⟨fd, Finset.mem_range.mpr hlt, ?_⟩
  unfold OpenFile.idleGrips
  rw [hop, hp]
  exact Multiset.mem_singleton_self _

/-- A descriptor that nobody is using is attached to its file. -/
theorem Body.attached (hb : Body sb s W hs) (hop : (s.files fd).op = false)
    (h0 : (s.files fd).inode ≠ 0) : Attached s W.image fd := by
  have hlive : ∃ x flags off, W.slot fd = .live x flags off := by
    by_contra hno
    refine h0 ((hb.slot fd).closed (fun x flags off h => hno ⟨x, flags, off, h⟩) fun t ht => ?_).1
    rw [hb.no_tokens hop] at ht
    exact absurd ht (Multiset.notMem_zero t)
  obtain ⟨x, flags, off, hsl⟩ := hlive
  obtain ⟨-, rfl, p, hp, hid, hmem⟩ := hb.idle_grip hop hsl
  have hon : (⟨p, true, none⟩ : Grip) ∈ on (s.files fd).inode (allGrips s.files hs) :=
    mem_on.mpr ⟨hmem, hid⟩
  have he := hb.entry (s.files fd).inode
  have hkind := he.file _ hon rfl
  have hne : W.image.tree.kind (s.files fd).inode ≠ none := by
    rw [hkind]
    intro h
    contradiction
  refine ⟨?_, (hb.cons.ibit_of_kind hne).2.2, hkind, ?_⟩
  · cases hse : s.entries (s.files fd).inode with
    | none =>
      rw [he.gone hse] at hon
      exact absurd hon (Multiset.notMem_zero _)
    | some e =>
      obtain ⟨-, hcount⟩ := he.there e hse
      refine ⟨p, e, hp, hid, hid ▸ hse, (hcount.addr _ hon).symm, ?_⟩
      rw [hcount.opened]
      exact Multiset.countP_pos.mpr ⟨_, hon, rfl⟩
  · exact hb.cons.tree.exists_at hne

/-! ### Between calls -/

section Idle

variable (hb : Body sb s W (Multiset.replicate n .empty))
include hb

theorem Body.idle_op (fd : Nat) : (s.files fd).op = false := by
  have h := (hb.slot fd).op
  rw [tokensOn_empty] at h
  cases hop : (s.files fd).op with
  | false => rfl
  | true =>
    rw [hop] at h
    contradiction

/-- Every slot is free or open. -/
theorem Body.idle_slot (fd : Nat) : W.slot fd = if (s.files fd).inode = 0 then .free
    else .live (s.files fd).inode (s.files fd).flags (s.files fd).offset := by
  have hsl := hb.slot fd
  cases h : W.slot fd with
  | free =>
    rw [if_pos (hsl.closed (by rw [h]; intro _ _ _ h; contradiction) fun t ht => ?_).1]
    rw [hb.no_tokens (hb.idle_op fd)] at ht
    exact absurd ht (Multiset.notMem_zero t)
  | reserved file =>
    have hr := hsl.reserved
    rw [resvsOn_empty, h] at hr
    exact absurd hr.symm (Multiset.singleton_ne_zero _)
  | live x flags off =>
    obtain ⟨h0, hino, hflags, hoff, -⟩ := hsl.open_ x flags off h
    rw [hino, hflags, hoff, if_neg h0]

/-- A slot is taken iff it is open. -/
theorem Body.idle_inUse (fd : Nat) : (s.files fd).inUse = true ↔ (s.files fd).inode ≠ 0 := by
  rw [(hb.slot fd).inUse, hb.idle_slot fd]
  by_cases h0 : (s.files fd).inode = 0
  · rw [if_pos h0]
    exact ⟨fun h => absurd rfl h, fun h => absurd h0 h⟩
  · rw [if_neg h0]
    refine ⟨fun _ => h0, fun _ h => ?_⟩
    contradiction

/-- The grip of a slot. -/
theorem Body.idle_grips (fd : Nat) : (s.files fd).idleGrips = if (s.files fd).inode = 0 then 0
    else (s.files fd).lock.elim 0 fun p => {⟨p, true, none⟩} := by
  unfold OpenFile.idleGrips
  rw [hb.idle_op fd]
  by_cases h0 : (s.files fd).inode = 0
  · have hclosed := (hb.slot fd).closed (fun x flags off h => ?_) fun t ht => ?_
    · rw [if_pos h0, hclosed.2]
      rfl
    · rw [hb.idle_slot fd, if_pos h0] at h
      contradiction
    · rw [hb.no_tokens (hb.idle_op fd)] at ht
      exact absurd ht (Multiset.notMem_zero t)
  · rw [if_neg h0]
    rfl

/-- Open descriptors are all that lock entries are kept for. -/
theorem Body.idle_entries (hclosed : ∀ fd, (s.files fd).inode = 0) (id : Nat) :
    s.entries id = none := by
  have hno : allGrips s.files (Multiset.replicate n .empty) = 0 := by
    rw [allGrips_empty]
    refine Finset.sum_eq_zero fun fd _ => ?_
    rw [hb.idle_grips fd, if_pos (hclosed fd)]
  cases hse : s.entries id with
  | none => rfl
  | some e =>
    obtain ⟨hne, -⟩ := (hb.entry id).there e hse
    rw [hno] at hne
    exact absurd rfl hne

/-- The balance of an inode is the number of its open descriptors. -/
theorem Body.idle_balance (h0 : id ≠ 0) : openBalance s.opens id
    = ((Finset.range maxOpen).filter fun fd => (s.files fd).inode = id).card := by
  have hadd : ∀ F G : Multiset Grip, openedIn (on id (F + G)) = openedIn (on id F)
      + openedIn (on id G) := by
    intro F G
    rw [on_add]
    exact Multiset.countP_add _ _ _
  let count : Multiset Grip →+ ℕ := ⟨⟨fun F => openedIn (on id F), rfl⟩, hadd⟩
  have hone : ∀ fd ∈ Finset.range maxOpen,
      count (s.files fd).idleGrips = if (s.files fd).inode = id then 1 else 0 := by
    intro fd _
    rw [hb.idle_grips fd]
    by_cases hz : (s.files fd).inode = 0
    · rw [if_pos hz, if_neg (fun h => h0 (h.symm.trans hz))]
      rfl
    · have hsl := hb.idle_slot fd
      rw [if_neg hz] at hsl ⊢
      obtain ⟨-, -, -, -, p, hp, hid, -⟩ := (hb.slot fd).open_ _ _ _ hsl
      rw [hp]
      show openedIn (on id {⟨p, true, none⟩}) = _
      by_cases hx : (s.files fd).inode = id
      · rw [if_pos hx, on_singleton_self (hid.trans hx)]
        rfl
      · rw [if_neg hx, on_singleton_other fun h => hx (hid.symm.trans h)]
        rfl
  rw [(hb.entry id).balance, allGrips_empty, Finset.card_filter]
  exact congrArg Nat.cast ((map_sum count _ _).trans (Finset.sum_congr rfl hone))

end Idle

end States

/-! ## Two threads on a new file system -/

/-- What mkfs makes of a device of 64 blocks. -/
def newDisk : Nat → Block := Mkfs.mkfsDisk 64 0 0 fun _ => Bytes.zero 4096

theorem newDisk_consistent : Consistent smallLayout (Image.of smallLayout newDisk) :=
  Mkfs.mkfsDisk_consistent 0 _ Mkfs.smallLayout_planned

/-- Neither of the threads has made a call. -/
def newIdle : Users := ⟨.mounted smallLayout newDisk fun _ => 0, [.idle, .idle], []⟩

theorem newIdle_reached : Reached smallLayout newDisk (fun _ => 0) 2 newIdle := .init

theorem newIdle_idle : newIdle.Idle := fun _ ht => List.eq_of_mem_replicate (n := 2) ht

/-- What becomes of it. -/
def newRun (l : List (Pool.Pick Call)) : Users := newIdle.play (Call.run smallLayout) l

theorem newRun_reached (l : List (Pool.Pick Call)) :
    Reached smallLayout newDisk (fun _ => 0) 2 (newRun l) :=
  newIdle_reached.play l

/-- Thread `i` makes a call that nobody disturbs. -/
def whole (i : Nat) (c : Call) : List (Pool.Pick Call) := [.call i c, .rest i]

/-- The codes that have been returned, and to which threads. -/
def Users.codes (P : Users) : List (Nat × Int) := P.trace.filterMap fun
  | .call .. => none
  | .ret i _ a => some (i, a.code)

/-- Whether thread `i` waits for a lock. -/
def Users.waits (P : Users) (i : Nat) : Bool := match P.threads[i]? with
  | some (.busy _ (.act ready _ _)) => !ready P.state
  | _ => false

theorem Users.idle_of_all {P : Users} (h : P.threads.all Status.isIdle = true) : P.Idle := by
  intro t ht
  have := List.all_eq_true.mp h t ht
  cases t with
  | idle => rfl
  | busy c p => contradiction

/-- "/a". -/
def slashA : CString := ⟨[47, 97], by decide⟩

/-- "/b". -/
def slashB : CString := ⟨[47, 98], by decide⟩

/-- `mkdir("/a")`. -/
def newCall : Call := .mkdir (some slashA)

/-- `open(name, VFS_O_RDWR | VFS_O_CREAT)`. -/
def create (name : CString) : Call := .open_ (some name) (2 ||| oCreat)

/-- A file "/a" of the bytes 0, 1, 2, 3 and 4: one thread opens it, the other writes them. -/
def makeFile : List (Pool.Pick Call) :=
  whole 0 (create slashA) ++ whole 1 (.write 0 (some fun i => UInt8.ofNat i) 5)

/-! ## What holds in every reachable state -/

section Reachable

variable {sb : Superblock} {disk : Nat → Block} {clock : Nat → UInt64} {n : Nat} {P : Users}

/-- The rules of layout.h hold, the allocator's bitmaps in memory are those on the disk, and the
    copy of an inode in a lock entry is what is on the disk, and that inode is a file in use. -/
theorem reached_consistent (g : Regions sb) (hc : Consistent sb (Image.of sb disk))
    (h : Reached sb disk clock n P) :
    Consistent sb (Image.of sb P.state.disk) ∧ Allocator.Synced sb P.state ∧
    ∀ id e, P.state.entries id = some e → e.inodeValid = true →
      e.inode = (Image.of sb P.state.disk).inode id ∧
      (Image.of sb P.state.disk).ibit id = true ∧
      (Image.of sb P.state.disk).tree.kind id = some .file := by
  obtain ⟨W, log, hist⟩ := h.history g hc
  obtain ⟨hs, hb, -⟩ := hist.now
  have himg := hb.shows.image
  refine ⟨himg ▸ hb.cons, (Allocator.synced_iff g).mpr ?_, fun id e he hv => ?_⟩
  · rw [himg]
    exact hb.shows
  · rw [himg]
    obtain ⟨hino, hkind⟩ := (hb.entry id).copy e he hv
    refine ⟨hino, (hb.cons.ibit_of_kind ?_).2.2, hkind⟩
    show W.image.tree.kind id ≠ none
    rw [hkind]
    intro h
    contradiction

/-- A file that was made and written, and a directory. -/
def fileAndDir : Users := newRun (makeFile ++ whole 0 (.mkdir (some slashB)))

theorem fileAndDir_reached : Reached smallLayout newDisk (fun _ => 0) 2 fileAndDir :=
  newRun_reached _

theorem reached_consistent_new : fileAndDir.codes = [(0, 0), (1, 5), (0, 0)] ∧
    Consistent smallLayout (Image.of smallLayout fileAndDir.state.disk) ∧
    Allocator.Synced smallLayout fileAndDir.state ∧
    ∃ e, fileAndDir.state.entries 2 = some e ∧ e.inode.size = 5 ∧
      e.inode = (Image.of smallLayout fileAndDir.state.disk).inode 2 := by
  obtain ⟨hcons, hsync, hcopy⟩ := reached_consistent (regions_of_validate smallLayout_valid)
    newDisk_consistent fileAndDir_reached
  have hentry : (fileAndDir.state.entries 2).map (fun e => (e.inodeValid, e.inode.size))
      = some (true, 5) := by decide +kernel
  obtain ⟨e, he, hval⟩ := Option.map_eq_some_iff.mp hentry
  obtain ⟨hvalid, hsize⟩ := Prod.mk.inj hval
  exact ⟨by decide +kernel, hcons, hsync, e, he, hsize, (hcopy 2 e he hvalid).1⟩

/-- The copy of an inode in a lock entry is what `read_inode` would give, and the inode is a file in
    use. -/
theorem reached_copy_current (g : Regions sb) (hc : Consistent sb (Image.of sb disk))
    (h : Reached sb disk clock n P) {id : Nat} {e : Entry} (he : P.state.entries id = some e)
    (hv : e.inodeValid = true) :
    (readInode sb id).run P.state = some (.ok e.inode, P.state) ∧
    (Image.of sb P.state.disk).ibit id = true ∧
    (Image.of sb P.state.disk).tree.kind id = some .file := by
  obtain ⟨W, log, hist⟩ := h.history g hc
  obtain ⟨hs, hb, -⟩ := hist.now
  obtain ⟨hino, hkind⟩ := (hb.entry id).copy e he hv
  have hused : W.image.tree.kind id ≠ none := by
    rw [hkind]
    intro h
    contradiction
  obtain ⟨h1, h2, hbit⟩ := hb.cons.ibit_of_kind hused
  rw [hb.shows.image]
  exact ⟨Prog.run_eq_ok.mpr (readInode_ends g hb.shows h1 h2 ⟨hino.symm, rfl⟩), hbit, hkind⟩

/-- A file that was written, cut to nothing through another descriptor and written again. -/
def rewritten : Users :=
  newRun (makeFile ++ whole 0 (.open_ (some slashA) (2 ||| oTrunc)) ++
    whole 1 (.write 1 (some fun i => UInt8.ofNat i) 2))

theorem rewritten_reached : Reached smallLayout newDisk (fun _ => 0) 2 rewritten :=
  newRun_reached _

theorem reached_copy_current_rewritten : rewritten.codes = [(0, 0), (1, 5), (0, 1), (1, 2)] ∧
    ∃ e, rewritten.state.entries 2 = some e ∧ e.inode.size = 2 ∧
      (readInode smallLayout 2).run rewritten.state = some (.ok e.inode, rewritten.state) := by
  have hentry : (rewritten.state.entries 2).map (fun e => (e.inodeValid, e.inode.size))
      = some (true, 2) := by decide +kernel
  obtain ⟨e, he, hval⟩ := Option.map_eq_some_iff.mp hentry
  obtain ⟨hvalid, hsize⟩ := Prod.mk.inj hval
  exact ⟨by decide +kernel, e, he, hsize,
    (reached_copy_current (regions_of_validate smallLayout_valid) newDisk_consistent
      rewritten_reached he hvalid).1⟩

/-- Lock entries are those that somebody refers to, and count the opens that have not been given
    back; a descriptor that no call is using is attached to its file; between calls a slot is taken
    iff it is open, an inode counts its descriptors, and with none open the table of lock entries
    is empty. -/
theorem reached_descriptors (g : Regions sb) (hc : Consistent sb (Image.of sb disk))
    (h : Reached sb disk clock n P) :
    (∀ id, (∀ e, P.state.entries id = some e →
        0 < e.refs ∧ (e.openCount : Int) = openBalance P.state.opens id) ∧
      (P.state.entries id = none → openBalance P.state.opens id = 0)) ∧
    (∀ fd, (P.state.files fd).op = false → (P.state.files fd).inode ≠ 0 →
      Attached P.state (Image.of sb P.state.disk) fd) ∧
    (P.Idle → (∀ fd, (P.state.files fd).inUse = true ↔ (P.state.files fd).inode ≠ 0) ∧
      (∀ id, id ≠ 0 → openBalance P.state.opens id
        = ((Finset.range maxOpen).filter fun fd => (P.state.files fd).inode = id).card) ∧
      ((∀ fd, (P.state.files fd).inode = 0) → ∀ id, P.state.entries id = none)) := by
  obtain ⟨W, log, hist⟩ := h.history g hc
  obtain ⟨hs, hb, hidle⟩ := hist.now
  refine ⟨hb.counts, fun fd hop h0 => ?_, fun hP => ?_⟩
  · rw [hb.shows.image]
    exact hb.attached hop h0
  · obtain ⟨k, rfl⟩ := hidle hP
    exact ⟨hb.idle_inUse, fun id h0 => hb.idle_balance h0, hb.idle_entries⟩

/-- A file that was opened, and one that was opened and closed. -/
def openAndClosed : Users :=
  newRun (whole 0 (create slashA) ++ whole 1 (create slashB) ++
    whole 1 (.close 1))

theorem openAndClosed_reached : Reached smallLayout newDisk (fun _ => 0) 2 openAndClosed :=
  newRun_reached _

theorem reached_descriptors_new : openAndClosed.codes = [(0, 0), (1, 1), (1, 0)] ∧
    openBalance openAndClosed.state.opens 2 = 1 ∧ openBalance openAndClosed.state.opens 3 = 0 ∧
    Attached openAndClosed.state (Image.of smallLayout openAndClosed.state.disk) 0 ∧
    ∀ fd, (openAndClosed.state.files fd).inUse = true ↔
      (openAndClosed.state.files fd).inode ≠ 0 := by
  obtain ⟨hcount, hattached, hidle⟩ := reached_descriptors (regions_of_validate smallLayout_valid)
    newDisk_consistent openAndClosed_reached
  have hone : (openAndClosed.state.entries 2).map Entry.openCount = some 1 := by decide +kernel
  obtain ⟨e, he, hopen⟩ := Option.map_eq_some_iff.mp hone
  have hnone : openAndClosed.state.entries 3 = none :=
    Option.isNone_iff_eq_none.mp (by decide +kernel)
  obtain ⟨-, hbalance⟩ := (hcount 2).1 e he
  rw [hopen] at hbalance
  refine ⟨by decide +kernel, hbalance.symm, (hcount 3).2 hnone, ?_, ?_⟩
  · exact hattached 0 (by decide +kernel) (by decide +kernel)
  · exact (hidle (Users.idle_of_all (by decide +kernel))).1

/-- An open file outlives nobody's descriptor: an inode's open count is the opens that have not
    been given back, a descriptor whose mutex nobody holds is attached to its file, lock entries are those
    that somebody refers to, and there are none when no call is running and nothing is open. -/
theorem reached_open_files (g : Regions sb) (hc : Consistent sb (Image.of sb disk))
    (h : Reached sb disk clock n P) :
    (∀ id, (P.state.openCount id : Int) = openBalance P.state.opens id) ∧
    (∀ fd, (P.state.files fd).op = false → (P.state.files fd).inode ≠ 0 →
      Attached P.state (Image.of sb P.state.disk) fd) ∧
    (∀ id e, P.state.entries id = some e → 0 < e.refs) ∧
    (P.Idle → (∀ fd, (P.state.files fd).inode = 0) → ∀ id, P.state.entries id = none) := by
  obtain ⟨W, log, hist⟩ := h.history g hc
  obtain ⟨hs, hb, hidle⟩ := hist.now
  refine ⟨hb.openCount_eq, fun fd hop h0 => ?_, fun id e he => ((hb.counts id).1 e he).1,
    fun hP => ?_⟩
  · rw [hb.shows.image]
    exact hb.attached hop h0
  · obtain ⟨k, rfl⟩ := hidle hP
    exact hb.idle_entries

/-- One thread has made and opened a file, and the other is about to remove it. -/
def openAndWanted : Users :=
  newRun (whole 0 (create slashA) ++ .call 1 (.unlink (some slashA)) :: List.replicate 8 (.work 1))

theorem openAndWanted_reached : Reached smallLayout newDisk (fun _ => 0) 2 openAndWanted :=
  newRun_reached _

theorem reached_open_files_wanted : openAndWanted.threads.all Status.isIdle = false ∧
    (openAndWanted.state.entries 2).map Entry.writer = some true ∧
    openAndWanted.state.openCount 2 = 1 ∧ openBalance openAndWanted.state.opens 2 = 1 ∧
    Attached openAndWanted.state (Image.of smallLayout openAndWanted.state.disk) 0 := by
  obtain ⟨hcount, hattached, -⟩ := reached_open_files (regions_of_validate smallLayout_valid)
    newDisk_consistent openAndWanted_reached
  have hone : openAndWanted.state.openCount 2 = 1 := by decide +kernel
  have hbalance := hcount 2
  rw [hone] at hbalance
  exact ⟨by decide +kernel, by decide +kernel, hone, hbalance.symm,
    hattached 0 (by decide +kernel) (by decide +kernel)⟩

/-- A `close` that has given the open back and not yet emptied the slot. -/
def closing : Users :=
  newRun (whole 0 (create slashA) ++ .call 0 (.close 0) :: List.replicate 4 (.work 0))

/-- Until it has, the slot leads to a lock entry that is gone. -/
theorem closing_detached : Reached smallLayout newDisk (fun _ => 0) 2 closing ∧
    (closing.state.files 0).inode = 2 ∧ closing.state.entries 2 = none :=
  ⟨newRun_reached _, by decide +kernel, Option.isNone_iff_eq_none.mp (by decide +kernel)⟩

/-- No exception leaves a call: none uses a lock entry that is gone, and no loop is cut short by its
    bound.  As long as a call is running some call can go on, and whichever it is each time, all
    calls return. -/
theorem reached_progress (g : Regions sb) (hc : Consistent sb (Image.of sb disk))
    (h : Reached sb disk clock n P) :
    (∀ c e, Status.busy c (.fail e) ∉ P.threads) ∧
    (¬ P.Idle → ∃ P', Pool.Work P P') ∧ Pool.Inevitable Users.Idle P := by
  have hok := h.ok g hc
  refine ⟨fun c e => Pool.Spec.no_fail _ hok c e, fun hP => ?_, Pool.Spec.inevitable _ hok⟩
  -- who ranks highest of those that are busy does not wait
  refine Pool.Spec.unstuck _ hok ?_
  unfold Users.Idle at hP
  push Not at hP
  exact hP

/-- Two threads make the same directory: one has its parent, and the other waits for it. -/
def waiting : Users :=
  newRun (.call 0 newCall :: List.replicate 4 (.work 0) ++ .call 1 newCall ::
    List.replicate 2 (.work 1))

theorem waiting_reached : Reached smallLayout newDisk (fun _ => 0) 2 waiting := newRun_reached _

theorem reached_progress_new : waiting.waits 1 = true ∧ (∃ P', Pool.Work waiting P') ∧
    Pool.Inevitable Users.Idle waiting := by
  obtain ⟨-, hwork, hends⟩ := reached_progress (regions_of_validate smallLayout_valid)
    newDisk_consistent waiting_reached
  refine ⟨by decide +kernel, hwork fun hidle => ?_, hends⟩
  have hbusy : waiting.threads.all Status.isIdle = false := by decide +kernel
  rw [List.all_eq_true.mpr fun t ht => hidle t ht ▸ rfl] at hbusy
  contradiction

end Reachable

end ConcurrentFs
