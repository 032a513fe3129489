/-
  ConcurrentFs.Calls

  The calls of the API, one triple each.  Whatever the other threads do, a call
  keeps the invariant at every step, never waits for a lock that nobody holds,
  settles its answer once and at a moment when that answer is right, gives back
  everything it took, and throws nothing.
-/
import ConcurrentFs.Commits
import ConcurrentFs.PathSplit

namespace ConcurrentFs

open Lib

/-- What is asked of the threads: the invariant, that every deed is legal, and that the deeds of a
    call which returns are those of that call. -/
noncomputable abbrev protocol (sb : Superblock) :
    Shared FileSystem (Ledger Call Reply Act World) (Ghost Hands Call Reply Act World) :=
  shared (Body sb) (Legal sb) fun c a own => Did c a (own.map Deed.act)

/-- Call `c`, whose diary was `D` at its start, may return `a`: nothing is in hand, and the answer
    is settled, or would be right at any time. -/
def Returns (sb : Superblock) (D : Diary Call Reply Act World) (c : Call) (a : Reply)
    (γ : Ghost Hands Call Reply Act World) : Prop :=
  γ.hands = .empty ∧ ∃ acts,
    Went D acts (.decided c a) γ.diary ∧ Did c a acts ∨
    Went D acts (.called c) γ.diary ∧ Did c a (acts ++ [.look]) ∧ ∀ W, Decides sb c a W W

/-- So may it with the code of the error `x`. -/
def Failing (sb : Superblock) (D : Diary Call Reply Act World) (c : Call) (x : Exn)
    (γ : Ghost Hands Call Reply Act World) : Prop :=
  ∃ e, x = .fsError e ∧ Returns sb D c (.fail e) γ

section Answers

variable {sb : Superblock} {D D' D'' : Diary Call Reply Act World} {c : Call} {a : Reply}
  {e : Errno} {acts acts' : List Act} {h : Hands}

theorem Errno.code_pos (e : Errno) : 0 < e.code := by
  cases e <;> decide

theorem Reply.fail_code (e : Errno) : (Reply.fail e).code < 0 := by
  have := e.code_pos
  show -(e.code : Int) < 0
  omega

theorem Reply.fail_injective {e e' : Errno} (h : Reply.fail e = Reply.fail e') : e = e' := by
  have hc : -(e.code : Int) = -(e'.code : Int) := congrArg Reply.code h
  have : e.code = e'.code := by omega
  revert this
  cases e <;> cases e' <;> decide

/-- All that is asked of a call that failed. -/
theorem did_fail (h : ∀ act ∈ acts, act.Quiet) (he : e = .emfile → acts = [.look]) :
    Did c (.fail e) acts :=
  ⟨fun _ => ⟨h, fun ha => he (Reply.fail_injective ha)⟩,
    fun hpos => absurd (Reply.fail_code e) (by omega)⟩

/-- An error that was settled when it was seen. -/
theorem returns_fail (hw : Went D acts (.decided c (.fail e)) D') (hq : ∀ act ∈ acts, act.Quiet)
    (he : e = .emfile → acts = [.look]) : Returns sb D c (.fail e) ⟨.empty, D'⟩ :=
  ⟨rfl, acts, .inl ⟨hw, did_fail hq he⟩⟩

/-- An error that does not depend on the world. -/
theorem returns_anyway (hw : Went D acts (.called c) D') (hq : ∀ act ∈ acts, act.Quiet)
    (he : e = .emfile → acts = []) (hd : ∀ W, Decides sb c (.fail e) W W) :
    Returns sb D c (.fail e) ⟨.empty, D'⟩ := by
  refine ⟨rfl, acts, .inr ⟨hw, did_fail (fun act hact => ?_) fun h => ?_, hd⟩⟩
  · rcases List.mem_append.mp hact with hact | hact
    · exact hq act hact
    · rw [List.mem_singleton.mp hact]
      trivial
  · rw [he h]
    rfl

theorem quiet_nil : ∀ act ∈ ([] : List Act), act.Quiet := by
  intro act hact
  cases hact

theorem quiet_cons {act : Act} (h : act.Quiet) (hs : ∀ act ∈ acts, act.Quiet) :
    ∀ act' ∈ act :: acts, act'.Quiet := by
  intro act' hact
  rcases List.mem_cons.mp hact with rfl | hact
  · exact h
  · exact hs act' hact

end Answers

/-! ## What calls are made of -/

section Pieces

variable {sb : Superblock} {α β : Type} {g : Ghost Hands Call Reply Act World}
  {Q : α → Ghost Hands Call Reply Act World → Prop}
  {E : Exn → Ghost Hands Call Reply Act World → Prop}

/-- `with_fs`. -/
theorem withFs_safe {code : Int → α} {body : Fs α}
    (h : body.Safe (protocol sb) g Q fun x γ => ∃ e, x = .fsError e ∧ Q (code (-e.code)) γ) :
    (withFs code body).Safe (protocol sb) g Q fun _ _ => False := by
  refine Prog.Safe.catch_ _ (h.mono (fun _ _ h => h) fun x γ hx => ?_)
  obtain ⟨e, rfl, hq⟩ := hx
  exact hq

/-- A call to the journal changes nothing that anybody relies on. -/
theorem record_safe (j : JournalCall) {U : Unit → Ghost Hands Call Reply Act World → Prop}
    (hU : U () g) :
    (Prog.change fun s : FileSystem => { s with calls := s.calls ++ [j] }).Safe (protocol sb) g
      U E := by
  refine safe_step fun s W rest hb => ⟨.inl rfl, fun _ => Shift.quiet ?_ hU⟩
  exact hb.still (hb.shows.still rfl rfl rfl) rfl

/-- `OpScope`. -/
theorem withOp_safe {body : Fs α} (h : body.Safe (protocol sb) g Q E) :
    (withOp body).Safe (protocol sb) g Q E := by
  refine Prog.Safe.bind _ (record_safe _ (Prog.Safe.ensure
    (h.mono (fun a γ hq => ?_) fun x γ hx => ?_)))
  · exact record_safe _ hq
  · exact record_safe _ hx

variable {path : Option CString} {names : List Name}

/-- The names of a path can be entered in directories. -/
theorem good_of_split (h : split path = .ok names) :
    ∀ n ∈ names, GoodName n ∧ n ≠ dot ∧ n ≠ dotdot := by
  cases path with
  | none => cases h
  | some p =>
    intro n hn
    obtain ⟨hproper, hsub⟩ := proper_of_splitPath h n hn
    refine ⟨⟨List.length_pos_of_ne_nil hproper.nonempty, hproper.length, fun b hb => ⟨?_, ?_⟩⟩,
      hproper.notDot, hproper.notDotdot⟩
    · intro h47
      exact hproper.noSlash (h47 ▸ hb)
    · intro h0
      exact p.2 (h0 ▸ hsub b hb)

/-- Splitting the path. -/
theorem namesOf_safe {Q : List Name → Ghost Hands Call Reply Act World → Prop}
    (hok : ∀ names, split path = .ok names → Q names g)
    (herr : ∀ e, split path = .error e → E (.fsError e) g) :
    (namesOf (path.map Subtype.val)).Safe (protocol sb) g Q E := by
  unfold namesOf
  unfold split at hok herr
  cases h : splitPath (path.map Subtype.val) with
  | ok names => exact hok names h
  | error e => exact herr e h

end Pieces

/-! ## In the directory above -/

section Above

variable {dirs : List Name} {name : Name} {e : Errno}

variable {sb : Superblock} {W W' : World} {path : Option CString} {names : List Name} {a : Reply}

theorem onPath_ok {P : List Name → Prop} (h : split path = .ok names) (hP : P names) :
    OnPath path W W' a P := by
  rw [OnPath, h]
  exact hP

theorem onPath_error {P : List Name → Prop} (h : split path = .error e) :
    OnPath path W W (.fail e) P := by
  rw [OnPath, h]
  exact ⟨rfl, rfl⟩

theorem gives_ok {β : Type} {r : Except Errno β} {x : β} {P : β → Prop} (h : r = .ok x) (hP : P x) :
    Gives r W W' a P := by
  subst h
  exact hP

theorem gives_error {β : Type} {r : Except Errno β} {P : β → Prop} (h : r = .error e) :
    Gives r W W (.fail e) P := by
  subst h
  exact ⟨rfl, rfl⟩

variable {s : FileSystem} {rest : Multiset Hands} {c : Call} {D : Diary Call Reply Act World}
  {p : EntryPtr} {o : Bool} {H : Hold} {K : Known} {G : Multiset Grip} {t : Option Token}
  {v : Option (Nat × Option (Nat × UInt32))} {E : Exn → Ghost Hands Call Reply Act World → Prop}

/-- The start of every call that works on a directory: `read_inode`, and the check of its mode. -/
theorem parentDir_safe {α : Type} (g : Regions sb) (hK : H.known = some K)
    (hp : D.phase = .called c)
    (herr : ∀ W, W.abs.child (K.path ++ [name]) = .error .enotdir →
      Decides sb c (.fail .enotdir) W W)
    {f : Inode → Fs α} {Q : α → Ghost Hands Call Reply Act World → Prop}
    (hf : isDir K.ino = true →
      (f K.ino).Safe (protocol sb) ⟨⟨⟨p, o, some H⟩ ::ₘ G, t, v⟩, D⟩ Q E)
    (hE : ∀ D', Answered D c (.fail .enotdir) D' →
      E (.fsError .enotdir) ⟨⟨⟨p, o, some H⟩ ::ₘ G, t, v⟩, D'⟩) :
    (do
      let dir ← (readInode sb p.id).atomic
      if !isDir dir then throwErrno .enotdir
      f dir).Safe (protocol sb) ⟨⟨⟨p, o, some H⟩ ::ₘ G, t, v⟩, D⟩ Q E := by
  refine Prog.Safe.bind _ (readInode_safe g hK fun s W rest hb => ?_)
  by_cases hd : isDir K.ino = true
  · refine Shift.quiet hb ?_
    rw [hd, Bool.not_true, if_neg Bool.false_ne_true]
    exact hf hd
  · rw [Bool.not_eq_true] at hd
    obtain ⟨hk, -, -⟩ := hb.known_range hK
    obtain ⟨hino, -, hat⟩ := hb.known hK
    have hfile : W.image.tree.kind p.id = some .file := kind_file_of hk (hino ▸ hd)
    refine Shift.look hb hp (herr W (Abs.child_file (find_of_at hb.cons.tree hat hfile)))
      fun D' hD' => ?_
    rw [hd, Bool.not_false, if_pos rfl]
    exact hE D' hD'

/-- What `dir_lookup` says of a name, in a directory whose lock is held: there is nothing of that
    name, or something of the kind that its entry says. -/
theorem childLookup_safe (g : Regions sb) (hK : H.known = some K) (hdir : isDir K.ino = true)
    (hname : name ≠ dot ∧ name ≠ dotdot) {Q : Nat × UInt8 → Ghost Hands Call Reply Act World → Prop}
    (hnone : (∀ k, (K.ents k).inodeId ≠ 0 → (K.ents k).named ≠ name) →
      ∀ s W rest, Body sb s W (⟨⟨p, o, some H⟩ ::ₘ G, t, v⟩ ::ₘ rest) →
      W.abs.child (K.path ++ [name]) = .ok none → W.image.tree.At K.path p.id →
      K.ino = W.image.inode p.id → Shift (Body sb) (Legal sb) s W rest D (Q (0, 0)))
    (hsome : ∀ k kd, 2 ≤ k → (K.ents k).named = name → (K.ents k).inodeId.toNat ≠ 0 →
      (K.ents k).type = kd.ft → p.id ≠ (K.ents k).inodeId.toNat →
      ∀ s W rest, Body sb s W (⟨⟨p, o, some H⟩ ::ₘ G, t, v⟩ ::ₘ rest) →
      W.abs.child (K.path ++ [name]) = .ok (some kd) →
      Shift (Body sb) (Legal sb) s W rest D (Q ((K.ents k).inodeId.toNat, kd.ft))) :
    (dirLookup sb K.ino name).atomic.Safe (protocol sb) ⟨⟨⟨p, o, some H⟩ ::ₘ G, t, v⟩, D⟩ Q E := by
  refine dirLookup_safe g hK hdir name fun s W rest hb hd found hf => ?_
  obtain ⟨hino, hents, hat⟩ := hb.known hK
  have hrules : W.image.tree.Rules := hb.cons.tree
  cases hf with
  | missing hno =>
    exact hnone hno s W rest hb (child_none hrules hat hd (by rw [← hents]; exact hno)) hat hino
  | here k h0 hn =>
    have hy : (K.ents k).inodeId.toNat ≠ 0 := fun hz => h0 (toNat_eq_zero.mp hz)
    have hnames : W.image.tree.Names p.id k (K.ents k).inodeId.toNat := ⟨by rw [← hents], hy⟩
    have hk := hrules.two_le_of_named hnames (by rw [← hents]; exact hn) hname.1 hname.2
    obtain ⟨kd, hkd, hty⟩ := hrules.typed _ _ _ hnames
    have hchild : W.abs.child (K.path ++ [name]) = .ok (some kd) := by
      rw [child_of_at hrules hat hd,
        node_of_at hrules (.child hat hk hnames (by rw [← hents]; exact hn)), hkd]
    rw [← hents] at hty
    rw [hty]
    exact hsome k kd hk hn hy hty (hrules.ne_of_child ⟨k, hk, hnames⟩) s W rest hb hchild

/-- Locking what an entry of a locked directory names. -/
theorem lockChild_safe (kd : Kind) {k x : Nat} {exclusive : Bool} (hK : H.known = some K)
    (hk : 2 ≤ k)
    (hx : (K.ents k).inodeId.toNat = x) (h0 : x ≠ 0) (hn : (K.ents k).named = name)
    (hty : (K.ents k).type = kd.ft) (hne : p.id ≠ x)
    {Q : InodeLock → Ghost Hands Call Reply Act World → Prop}
    (hQ : ∀ a L, L.path = K.path ++ [name] → kindOf L.ino = some kd →
      Q ⟨⟨x, a⟩, exclusive⟩
        ⟨⟨⟨⟨x, a⟩, false, some ⟨exclusive, some L, false⟩⟩ ::ₘ {⟨p, o, some H⟩}, none, v⟩, D⟩) :
    (lockInode x exclusive).Safe (protocol sb) ⟨⟨{⟨p, o, some H⟩}, none, v⟩, D⟩ Q E := by
  refine lockInode_safe (fun L => L.path = K.path ++ [name] ∧ kindOf L.ino = some kd)
    (fun r hr hid => ?_) (fun a s W rest hb => ?_) fun a L hL => hQ a L hL.1 hL.2
  · rw [Multiset.mem_singleton.mp hr] at hid
    exact absurd hid hne
  · have hb' : Body sb s W (⟨⟨p, o, some H⟩ ::ₘ {⟨⟨x, a⟩, false, none⟩}, none, v⟩ ::ₘ rest) := by
      rwa [← Multiset.cons_zero (⟨p, o, some H⟩ : Grip), Multiset.cons_swap] at hb
    have hrules : W.image.tree.Rules := hb.cons.tree
    obtain ⟨-, hents, hat⟩ := hb'.known hK
    rw [hents] at hx hn hty
    have hnames : W.image.tree.Names p.id k x := ⟨hx, h0⟩
    obtain ⟨kd', hkd', hty'⟩ := hrules.typed _ _ _ hnames
    rw [Kind.ft_injective (hty.symm.trans hty')]
    refine ⟨_, .child hat hk hnames hn, ⟨rfl, hkd'⟩, rank_known hK ?_⟩
    rw [List.length_append]
    exact le_refl _

/-- `R` holds of the ghost once the lock `l` is dropped, which nothing forbids. -/
def AfterDrop (l : InodeLock) (R : Ghost Hands Call Reply Act World → Prop)
    (γ : Ghost Hands Call Reply Act World) : Prop :=
  ∃ H G t v, γ.hands = ⟨⟨l.entry, false, some H⟩ ::ₘ G, t, v⟩ ∧ H.exclusive = l.exclusive ∧
    (∀ fd x flags, v = some (fd, some (x, flags)) → ∃ u ∈ G, u.opened = true ∧ u.ptr.id = x) ∧
    R ⟨⟨G, t, v⟩, γ.diary⟩

/-- The destructor of an `InodeLock`. -/
theorem ensureDrop_safe {α : Type} {l : InodeLock} {body : Fs α}
    {γ : Ghost Hands Call Reply Act World} {Q : α → Ghost Hands Call Reply Act World → Prop}
    (h : body.Safe (protocol sb) γ (fun a => AfterDrop l (Q a)) fun x => AfterDrop l (E x)) :
    (body.ensure (dropLock l)).Safe (protocol sb) γ Q E := by
  refine Prog.Safe.ensure (h.mono (fun a γ' hq => ?_) fun x γ' hx => ?_)
  · obtain ⟨hands, D'⟩ := γ'
    obtain ⟨H, G, t, v, rfl, hx, hdue, hR⟩ := hq
    exact dropLock_safe hx hdue hR
  · obtain ⟨hands, D'⟩ := γ'
    obtain ⟨H, G, t, v, rfl, hx, hdue, hR⟩ := hx
    exact dropLock_safe hx hdue hR

/-- Dropping the one lock that is held. -/
theorem afterDrop_one {l : InodeLock} {R : Ghost Hands Call Reply Act World → Prop}
    (hv : ∀ fd f, v ≠ some (fd, some f)) (hR : R ⟨⟨0, none, v⟩, D⟩) :
    AfterDrop l R ⟨holding l K v, D⟩ :=
  ⟨_, 0, none, v, rfl, rfl, fun fd _ _ h => absurd h (hv fd _), hR⟩

theorem afterDrop_owning {R : Ghost Hands Call Reply Act World → Prop} (hR : R ⟨.empty, D⟩) :
    AfterDrop ⟨p, true⟩ R ⟨⟨{owning p K}, none, none⟩, D⟩ :=
  afterDrop_one (by intro _ _ h; contradiction) hR

/-- Dropping the lock on a file after a descriptor has been registered for it. -/
theorem afterDrop_opened {fd x : Nat} {flags : UInt32} {l : InodeLock} {q : EntryPtr}
    {R : Ghost Hands Call Reply Act World → Prop} (hx : q.id = x) (hH : H.exclusive = l.exclusive)
    (hR : R ⟨⟨⟨q, true, none⟩ ::ₘ G, t, some (fd, some (x, flags))⟩, D⟩) :
    AfterDrop l R ⟨⟨⟨q, true, none⟩ ::ₘ ⟨l.entry, false, some H⟩ ::ₘ G, t,
      some (fd, some (x, flags))⟩, D⟩ := by
  refine ⟨H, ⟨q, true, none⟩ ::ₘ G, t, _, by rw [Multiset.cons_swap], hH, fun fd' y fl h => ?_, hR⟩
  obtain ⟨-, hy⟩ := Prod.mk.inj (Option.some.inj h)
  obtain ⟨rfl, -⟩ := Prod.mk.inj (Option.some.inj hy)
  exact ⟨_, Multiset.mem_cons_self _ _, rfl, hx⟩

end Above

/-! ## The calls that change the namespace -/

section Namespace

variable {sb : Superblock} {D : Diary Call Reply Act World} {path : Option CString}

namespace Abs

variable {A : Abs} {dirs : List Name} {name : Name} {e : Errno}

theorem mkdir_error (h : A.child (dirs ++ [name]) = .error e) :
    A.mkdir (dirs ++ [name]) = .error e := by
  rw [mkdir, if_neg (by simp), h]

theorem mkdir_there {kd : Kind} (h : A.child (dirs ++ [name]) = .ok (some kd)) :
    A.mkdir (dirs ++ [name]) = .error .eexist := by
  rw [mkdir, if_neg (by simp), h]

theorem mkdir_new (h : A.child (dirs ++ [name]) = .ok none) :
    A.mkdir (dirs ++ [name]) = .ok (A.put (dirs ++ [name]) (some .dir)) := by
  rw [mkdir, if_neg (by simp), h]

theorem unlink_error (h : A.child (dirs ++ [name]) = .error e) :
    A.unlink (dirs ++ [name]) = .error e := by
  rw [unlink, if_neg (by simp), h]

theorem unlink_missing (h : A.child (dirs ++ [name]) = .ok none) :
    A.unlink (dirs ++ [name]) = .error .enoent := by
  rw [unlink, if_neg (by simp), h]

theorem unlink_dir (h : A.child (dirs ++ [name]) = .ok (some .dir)) :
    A.unlink (dirs ++ [name]) = .error .eisdir := by
  rw [unlink, if_neg (by simp), h]

theorem unlink_busy (h : A.child (dirs ++ [name]) = .ok (some .file))
    (hfd : ∃ fd, A.fds fd = some (dirs ++ [name])) : A.unlink (dirs ++ [name]) = .error .ebusy := by
  rw [unlink, if_neg (by simp), h]
  exact if_pos hfd

theorem unlink_file (h : A.child (dirs ++ [name]) = .ok (some .file))
    (hfd : ∀ fd, A.fds fd ≠ some (dirs ++ [name])) :
    A.unlink (dirs ++ [name]) = .ok (A.put (dirs ++ [name]) none) := by
  rw [unlink, if_neg (by simp), h]
  exact if_neg fun h => h.elim hfd

theorem rmdir_error (h : A.child (dirs ++ [name]) = .error e) :
    A.rmdir (dirs ++ [name]) = .error e := by
  rw [rmdir, if_neg (by simp), h]

theorem rmdir_missing (h : A.child (dirs ++ [name]) = .ok none) :
    A.rmdir (dirs ++ [name]) = .error .enoent := by
  rw [rmdir, if_neg (by simp), h]

theorem rmdir_file (h : A.child (dirs ++ [name]) = .ok (some .file)) :
    A.rmdir (dirs ++ [name]) = .error .enotdir := by
  rw [rmdir, if_neg (by simp), h]

theorem rmdir_full (h : A.child (dirs ++ [name]) = .ok (some .dir))
    (hn : ∃ n, A.node (dirs ++ [name] ++ [n]) ≠ none) :
    A.rmdir (dirs ++ [name]) = .error .enotempty := by
  rw [rmdir, if_neg (by simp), h]
  exact if_pos hn

theorem rmdir_dir (h : A.child (dirs ++ [name]) = .ok (some .dir))
    (hn : ∀ n, A.node (dirs ++ [name] ++ [n]) = none) :
    A.rmdir (dirs ++ [name]) = .ok (A.put (dirs ++ [name]) none) := by
  rw [rmdir, if_neg (by simp), h]
  exact if_neg fun h => h.elim fun n => absurd (hn n)

end Abs

/-- What every call of this section does with the directory above: it is found and locked, has to
    be a directory, and is let go of in the end. -/
theorem inDirectory_safe {α β : Type} {c : Call} {dirs : List Name} {name : Name} (g : Regions sb)
    (hp : D.phase = .called c) (hgood : ∀ n ∈ dirs ++ [name], GoodName n ∧ n ≠ dot ∧ n ≠ dotdot)
    (herr : ∀ (W : World) e, W.abs.child (dirs ++ [name]) = .error e →
      Decides sb c (.fail e) W W)
    {body : InodeLock → Inode → Fs α} {f : α → Fs β}
    {Q : β → Ghost Hands Call Reply Act World → Prop}
    (hbody : ∀ p K, K.path = dirs → isDir K.ino = true →
      (body ⟨p, true⟩ K.ino).Safe (protocol sb) ⟨⟨{owning p K}, none, none⟩, D⟩
        (fun a => AfterDrop ⟨p, true⟩ fun γ => (f a).Safe (protocol sb) γ Q (Failing sb D c))
        fun x => AfterDrop ⟨p, true⟩ (Failing sb D c x)) :
    (do
      let parent ← walk sb dirs true
      let a ← (do
        let dir ← (readInode sb parent.id).atomic
        if !isDir dir then throwErrno .enotdir
        body parent dir).ensure (dropLock parent)
      f a).Safe (protocol sb) ⟨.empty, D⟩ Q (Failing sb D c) := by
  have hfail : ∀ (e : Errno) D', Answered D c (.fail e) D' →
      Failing sb D c (.fsError e) ⟨.empty, D'⟩ := fun e D' h =>
    ⟨e, rfl, returns_fail h (quiet_cons trivial quiet_nil) fun _ => rfl⟩
  refine Prog.Safe.bind _ (walk_safe g (by intro _ _ h; contradiction) hp
    (fun n hn => (hgood n (List.mem_append_left _ hn)).2)
    (fun s W rest hs hb e h => herr W e (Abs.child_error h)) (fun l K hx hK => ?_)
    fun e D' _ => hfail e D')
  obtain ⟨p, exclusive⟩ := l
  obtain rfl : exclusive = true := hx
  subst hK
  exact Prog.Safe.bind _ (ensureDrop_safe (parentDir_safe (p := p) (G := 0) g rfl hp
    (fun W => herr W .enotdir) (hbody p K rfl)
    fun D' hD' => afterDrop_owning (hfail _ D' hD')))

/-- A failure with the directory still locked. -/
theorem afterDrop_failing {c : Call} {p : EntryPtr} {K : Known} {e : Errno}
    {D' : Diary Call Reply Act World}
    (h : Answered D c (.fail e) D') :
    AfterDrop ⟨p, true⟩ (Failing sb D c (.fsError e)) ⟨⟨{owning p K}, none, none⟩, D'⟩ :=
  afterDrop_owning ⟨e, rfl, returns_fail h (quiet_cons trivial quiet_nil) fun _ => rfl⟩

/-- `vfs_mkdir`. -/
theorem vfsMkdir_safe (g : Regions sb) (hp : D.phase = .called (.mkdir path)) :
    (vfsMkdir sb (path.map Subtype.val)).Safe (protocol sb) ⟨.empty, D⟩
      (fun r γ => Returns sb D (.mkdir path) (.of r) γ) fun _ _ => False := by
  have hstart := Went.refl hp
  refine withFs_safe (Prog.Safe.bind _ (namesOf_safe (fun names hs => ?_) fun e hs => ?_))
  · rcases List.eq_nil_or_concat names with rfl | ⟨dirs, name, rfl⟩
    · -- the root is there
      exact ⟨.eexist, rfl, returns_anyway hstart quiet_nil (fun _ => rfl) fun W =>
        onPath_ok hs (gives_error rfl)⟩
    · rw [List.concat_eq_append] at hs ⊢
      have hgood := good_of_split hs
      obtain ⟨hname, hdots⟩ := hgood name (by simp)
      have hsettle : ∀ W W' a, Gives (W.abs.mkdir (dirs ++ [name])) W W' a (fun node =>
          (a = .of 0 ∧ W'.abs = ⟨node, W.abs.fds⟩) ∨
          ∃ e, (NoRoom sb W.image dirs e ∨ NoLinks W.image dirs e) ∧ Fails W W' a e) →
          Decides sb (.mkdir path) a W W' := fun W W' a h =>
        onPath_ok hs (by rw [List.dropLast_concat]; exact h)
      have herr : ∀ (W : World) e, W.abs.child (dirs ++ [name]) = .error e →
          Decides sb (.mkdir path) (.fail e) W W := fun W e h =>
        hsettle W W _ (gives_error (Abs.mkdir_error h))
      rw [List.getLast?_concat, List.dropLast_concat]
      refine withOp_safe (inDirectory_safe g hp hgood herr fun p K hK hdir => ?_)
      subst hK
      refine Prog.Safe.bind _ (childLookup_safe g rfl hdir hdots
        (fun hnew s W rest hb hchild hat hino => ?_)
        fun k kd hk hn h0 hty hne s W rest hb hchild => ?_)
      · by_cases hlink : K.ino.linkCount = 65535
        · -- no room to count another ".."
          refine Shift.look (a := .fail .enospc) hb hp (hsettle W W _ ?_) fun D' hD' => ?_
          · refine gives_ok (Abs.mkdir_new hchild)
              (.inr ⟨.enospc, .inr ⟨rfl, p.id, hat, ?_⟩, rfl, rfl⟩)
            rw [← hino]
            exact hlink
          · show (if 0 ≠ 0 then _ else if K.ino.linkCount = 65535 then _ else _ :
              Fs Nat).Safe _ _ _ _
            rw [if_neg (not_not.mpr rfl), if_pos hlink]
            exact afterDrop_failing hD'
        · refine Shift.quiet hb ?_
          show (if 0 ≠ 0 then _ else if K.ino.linkCount = 65535 then _ else _ : Fs Nat).Safe _ _ _ _
          rw [if_neg (not_not.mpr rfl), if_neg hlink]
          refine Prog.Safe.bind _ (makeDir_safe g hp hname hdir hnew hlink ?_ ?_ ?_ ?_)
          · intro W W' hchild habs
            exact hsettle W W' _ (gives_ok (Abs.mkdir_new hchild) (.inl ⟨rfl, habs⟩))
          · intro W e hchild hroom
            exact hsettle W W _ (gives_ok (Abs.mkdir_new hchild)
              (.inr ⟨e, .inl hroom, rfl, rfl⟩))
          · intro x K' D' hD'
            refine afterDrop_owning ⟨rfl, _, .inl ⟨hD', ?_⟩⟩
            exact ⟨fun h => absurd h (by decide), fun _ => ⟨p.id, x, name, rfl⟩⟩
          · intro e D' hD'
            exact afterDrop_failing hD'
      · -- the name is taken
        refine Shift.look (a := .fail .eexist) hb hp
          (hsettle W W _ (gives_error (Abs.mkdir_there hchild)))
          fun D' hD' => ?_
        show (if (K.ents k).inodeId.toNat ≠ 0 then _ else _ : Fs Nat).Safe _ _ _ _
        rw [if_pos h0]
        exact afterDrop_failing hD'
  · exact ⟨e, rfl, returns_anyway hstart quiet_nil (fun _ => rfl) fun W => onPath_error hs⟩

/-- Dropping the lock of what is in the directory. -/
theorem afterDrop_pair {p q : EntryPtr} {K : Known} {H : Hold} {D' : Diary Call Reply Act World}
    {R : Ghost Hands Call Reply Act World → Prop} (hR : R ⟨⟨{owning p K}, none, none⟩, D'⟩) :
    AfterDrop ⟨q, H.exclusive⟩ R ⟨twoLocks p K q H, D'⟩ :=
  ⟨H, {owning p K}, none, none, rfl, rfl, by intro _ _ _ h; contradiction, hR⟩

/-- What a thread that has locked a directory and something in it calls by its name. -/
theorem Body.pair_child {s : FileSystem} {W : World} {rest : Multiset Hands} {p q : EntryPtr}
    {K L : Known} {H : Hold} {name : Name} {kd : Kind}
    (hb : Body sb s W (twoLocks p K q H ::ₘ rest)) (hL : H.known = some L)
    (hdir : isDir K.ino = true)
    (hpath : L.path = K.path ++ [name]) (hkd : kindOf L.ino = some kd) :
    W.image.tree.At (K.path ++ [name]) q.id ∧ W.image.tree.kind q.id = some kd ∧
      W.abs.child (K.path ++ [name]) = .ok (some kd) := by
  have hrules : W.image.tree.Rules := hb.cons.tree
  obtain ⟨⟨hino', -, hq⟩, hino, -, hat⟩ := hb.pair_known hL
  rw [hino] at hdir
  have hd : W.image.tree.kind p.id = some .dir := (isDir_iff (hrules.used_of_at hat)).mp hdir
  have hk : W.image.tree.kind q.id = some kd := by
    show kindOf (W.image.inode q.id) = _
    rw [← hino', hkd]
  rw [hpath] at hq
  exact ⟨hq, hk, by rw [child_of_at hrules hat hd, node_of_at hrules hq, hk]⟩

/-- `vfs_unlink`. -/
theorem vfsUnlink_safe (g : Regions sb) (hp : D.phase = .called (.unlink path)) :
    (vfsUnlink sb (path.map Subtype.val)).Safe (protocol sb) ⟨.empty, D⟩
      (fun r γ => Returns sb D (.unlink path) (.of r) γ) fun _ _ => False := by
  have hstart := Went.refl hp
  refine withFs_safe (Prog.Safe.bind _ (namesOf_safe (fun names hs => ?_) fun e hs => ?_))
  · rcases List.eq_nil_or_concat names with rfl | ⟨dirs, name, rfl⟩
    · -- the root is a directory
      exact ⟨.eisdir, rfl, returns_anyway hstart quiet_nil (fun _ => rfl) fun W =>
        onPath_ok hs (gives_error (if_pos rfl))⟩
    · rw [List.concat_eq_append] at hs ⊢
      have hgood := good_of_split hs
      obtain ⟨hname, hdots⟩ := hgood name (by simp)
      have hsettle : ∀ W W' a, Gives (W.abs.unlink (dirs ++ [name])) W W' a (fun node =>
          a = .of 0 ∧ W'.abs = ⟨node, W.abs.fds⟩) → Decides sb (.unlink path) a W W' :=
        fun W W' a h => onPath_ok hs h
      have herr : ∀ (W : World) e, W.abs.child (dirs ++ [name]) = .error e →
          Decides sb (.unlink path) (.fail e) W W := fun W e h =>
        hsettle W W _ (gives_error (Abs.unlink_error h))
      rw [List.getLast?_concat, List.dropLast_concat]
      refine withOp_safe (inDirectory_safe g hp hgood herr fun p K hK hdir => ?_)
      subst hK
      refine Prog.Safe.bind _ (childLookup_safe g rfl hdir hdots
        (fun hnew s W rest hb hchild hat hino => ?_)
        fun k kd hk hn h0 hty hne s W rest hb hchild => ?_)
      · -- nothing has the name
        refine Shift.look (a := .fail .enoent) hb hp
          (hsettle W W _ (gives_error (Abs.unlink_missing hchild))) fun D' hD' => ?_
        show (if 0 = 0 then _ else _ : Fs Nat).Safe _ _ _ _
        rw [if_pos rfl]
        exact afterDrop_failing hD'
      · cases kd with
        | dir =>
          refine Shift.look (a := .fail .eisdir) hb hp
            (hsettle W W _ (gives_error (Abs.unlink_dir hchild))) fun D' hD' => ?_
          show (if (K.ents k).inodeId.toNat = 0 then _ else if ftDir = ftDir then _ else _ :
            Fs Nat).Safe _ _ _ _
          rw [if_neg h0, if_pos rfl]
          exact afterDrop_failing hD'
        | file =>
          refine Shift.quiet hb ?_
          show (if (K.ents k).inodeId.toNat = 0 then _ else if ftFile = ftDir then _ else _ :
            Fs Nat).Safe _ _ _ _
          rw [if_neg h0, if_neg (by decide)]
          -- it cannot go away while the directory is locked
          refine Prog.Safe.bind _ (lockChild_safe _ rfl hk rfl h0 hn hty hne
            fun a L hpath hkd => ?_)
          generalize hy : (K.ents k).inodeId.toNat = y at *
          refine ensureDrop_safe ?_
          refine Prog.Safe.bind _ (openCount_safe (q := ⟨y, a⟩) hpath ?_
            fun n hpos s W rest hb hfd => ?_)
          · show (if 0 > 0 then _ else _ : Fs Nat).Safe _ _ _ _
            rw [if_neg (by omega)]
            refine Prog.Safe.bind _ (removeFile_safe (q := ⟨y, a⟩) g hp hk hy h0 hn hkd ?_ ?_)
            · intro W W' hchild hfd habs
              exact hsettle W W' _ (gives_ok (Abs.unlink_file hchild hfd) ⟨rfl, habs⟩)
            · intro K' D' hD'
              refine afterDrop_pair (afterDrop_owning ⟨rfl, _, .inl ⟨hD', ?_⟩⟩)
              exact ⟨fun h => absurd h (by decide), fun _ => ⟨p.id, k, y, rfl⟩⟩
          · -- a descriptor is open on it
            obtain ⟨-, -, hchild⟩ := hb.pair_child rfl hdir hpath hkd
            refine Shift.look (a := .fail .ebusy) hb hp
              (hsettle W W _ (gives_error (Abs.unlink_busy hchild hfd))) fun D' hD' => ?_
            show (if n > 0 then _ else _ : Fs Nat).Safe _ _ _ _
            rw [if_pos hpos]
            exact afterDrop_pair (afterDrop_failing hD')
  · exact ⟨e, rfl, returns_anyway hstart quiet_nil (fun _ => rfl) fun W => onPath_error hs⟩

/-- `vfs_rmdir`. -/
theorem vfsRmdir_safe (g : Regions sb) (hp : D.phase = .called (.rmdir path)) :
    (vfsRmdir sb (path.map Subtype.val)).Safe (protocol sb) ⟨.empty, D⟩
      (fun r γ => Returns sb D (.rmdir path) (.of r) γ) fun _ _ => False := by
  have hstart := Went.refl hp
  refine withFs_safe (Prog.Safe.bind _ (namesOf_safe (fun names hs => ?_) fun e hs => ?_))
  · rcases List.eq_nil_or_concat names with rfl | ⟨dirs, name, rfl⟩
    · -- the root is always in use
      exact ⟨.ebusy, rfl, returns_anyway hstart quiet_nil (fun _ => rfl) fun W =>
        onPath_ok hs (gives_error (if_pos rfl))⟩
    · rw [List.concat_eq_append] at hs ⊢
      have hgood := good_of_split hs
      obtain ⟨hname, hdots⟩ := hgood name (by simp)
      have hsettle : ∀ W W' a, Gives (W.abs.rmdir (dirs ++ [name])) W W' a (fun node =>
          a = .of 0 ∧ W'.abs = ⟨node, W.abs.fds⟩) → Decides sb (.rmdir path) a W W' :=
        fun W W' a h => onPath_ok hs h
      have herr : ∀ (W : World) e, W.abs.child (dirs ++ [name]) = .error e →
          Decides sb (.rmdir path) (.fail e) W W := fun W e h =>
        hsettle W W _ (gives_error (Abs.rmdir_error h))
      rw [List.getLast?_concat, List.dropLast_concat]
      refine withOp_safe (inDirectory_safe g hp hgood herr fun p K hK hdir => ?_)
      subst hK
      refine Prog.Safe.bind _ (childLookup_safe g rfl hdir hdots
        (fun hnew s W rest hb hchild hat hino => ?_)
        fun k kd hk hn h0 hty hne s W rest hb hchild => ?_)
      · -- nothing has the name
        refine Shift.look (a := .fail .enoent) hb hp
          (hsettle W W _ (gives_error (Abs.rmdir_missing hchild))) fun D' hD' => ?_
        show (if 0 = 0 then _ else _ : Fs Nat).Safe _ _ _ _
        rw [if_pos rfl]
        exact afterDrop_failing hD'
      · cases kd with
        | file =>
          refine Shift.look (a := .fail .enotdir) hb hp
            (hsettle W W _ (gives_error (Abs.rmdir_file hchild))) fun D' hD' => ?_
          show (if (K.ents k).inodeId.toNat = 0 then _ else if ftFile ≠ ftDir then _ else _ :
            Fs Nat).Safe _ _ _ _
          rw [if_neg h0, if_pos (by decide)]
          exact afterDrop_failing hD'
        | dir =>
          refine Shift.quiet hb ?_
          show (if (K.ents k).inodeId.toNat = 0 then _ else if ftDir ≠ ftDir then _ else _ :
            Fs Nat).Safe _ _ _ _
          rw [if_neg h0, if_neg (not_not.mpr rfl)]
          refine Prog.Safe.bind _ (lockChild_safe _ rfl hk rfl h0 hn hty hne
            fun a L hpath hkd => ?_)
          generalize hy : (K.ents k).inodeId.toNat = y at *
          refine ensureDrop_safe (Prog.Safe.bind _ (staleEntry_safe (q := ⟨y, a⟩) ?_))
          refine Prog.Safe.bind _ (readInode_safe (p := ⟨y, a⟩) g rfl fun s W rest hb => ?_)
          -- a directory cannot be open, so it may be removed from here on
          refine Shift.quiet (g := twoLocks p K ⟨y, a⟩ (.removing L)) (hb.removing_dir hkd) ?_
          refine Prog.Safe.bind _ (dirIsEmpty_safe (p := ⟨y, a⟩) g rfl hkd (fun hempty => ?_)
            fun s W rest hb z hz => ?_)
          · show (if (!true) = true then _ else _ : Fs Nat).Safe _ _ _ _
            rw [if_neg (by decide)]
            refine Prog.Safe.bind _ (removeDir_safe (q := ⟨y, a⟩) g hp hk hy h0 hn hkd hempty ?_ ?_)
            · intro W W' hchild hnone habs
              exact hsettle W W' _ (gives_ok (Abs.rmdir_dir hchild hnone) ⟨rfl, habs⟩)
            · intro K' D' hD'
              refine afterDrop_pair (afterDrop_owning ⟨rfl, _, .inl ⟨hD', ?_⟩⟩)
              exact ⟨fun h => absurd h (by decide), fun _ => ⟨p.id, k, y, rfl⟩⟩
          · -- something is in it
            obtain ⟨hq, -, hchild⟩ := hb.pair_child (q := ⟨y, a⟩) rfl hdir hpath hkd
            have hrules : W.image.tree.Rules := hb.cons.tree
            obtain ⟨j, hj, hnj⟩ := hz
            refine Shift.look (a := .fail .enotempty) hb hp
              (hsettle W W _ (gives_error (Abs.rmdir_full hchild
                ⟨(W.image.tree.entry y j).named, ?_⟩))) fun D' hD' => ?_
            · rw [node_of_at hrules (.child hq hj hnj rfl)]
              exact hrules.used_of_names hnj
            · show (if (!false) = true then _ else _ : Fs Nat).Safe _ _ _ _
              rw [if_pos (by decide)]
              exact afterDrop_pair (afterDrop_failing hD')
  · exact ⟨e, rfl, returns_anyway hstart quiet_nil (fun _ => rfl) fun W => onPath_error hs⟩

end Namespace

/-! ## Opening -/

section Opening

variable {sb : Superblock} {c : Call} {D : Diary Call Reply Act World} {flags : UInt32} {fd : Nat}

namespace Abs

variable {A : Abs} {names dirs : List Name} {name : Name} {e : Errno}

theorem open_find_error (h0 : flags &&& (oCreat ||| oTrunc) = 0) (h : A.find names = .error e) :
    A.open_ names flags = .error e := by
  rw [open_, if_neg (not_not.mpr h0), h]

theorem open_find_dir (h0 : flags &&& (oCreat ||| oTrunc) = 0) (h : A.find names = .ok .dir) :
    A.open_ names flags = .error .eisdir := by
  rw [open_, if_neg (not_not.mpr h0), h]

theorem open_find_file (h0 : flags &&& (oCreat ||| oTrunc) = 0) (h : A.find names = .ok .file) :
    A.open_ names flags = .ok A.node := by
  rw [open_, if_neg (not_not.mpr h0), h]

variable (h1 : flags &&& (oCreat ||| oTrunc) ≠ 0)
include h1

theorem open_child_error (h : A.child names = .error e) : A.open_ names flags = .error e := by
  rw [open_, if_pos h1, h]

theorem open_missing (h : A.child names = .ok none) (hc : flags &&& oCreat = 0) :
    A.open_ names flags = .error .enoent := by
  rw [open_, if_pos h1, h]
  exact if_pos hc

theorem open_new (h : A.child names = .ok none) (hc : flags &&& oCreat ≠ 0) :
    A.open_ names flags = .ok (A.put names (some .file)) := by
  rw [open_, if_pos h1, h]
  exact if_neg hc

theorem open_exclusive {kd : Kind} (h : A.child names = .ok (some kd))
    (hx : flags &&& oCreat ≠ 0 ∧ flags &&& oExcl ≠ 0) : A.open_ names flags = .error .eexist := by
  rw [open_, if_pos h1, h]
  exact if_pos hx

theorem open_child_dir (h : A.child names = .ok (some .dir))
    (hx : ¬(flags &&& oCreat ≠ 0 ∧ flags &&& oExcl ≠ 0)) :
    A.open_ names flags = .error .eisdir := by
  rw [open_, if_pos h1, h]
  exact (if_neg hx).trans (if_pos rfl)

theorem open_child_file (h : A.child names = .ok (some .file))
    (hx : ¬(flags &&& oCreat ≠ 0 ∧ flags &&& oExcl ≠ 0)) : A.open_ names flags = .ok A.node := by
  rw [open_, if_pos h1, h]
  exact (if_neg hx).trans (if_neg (by intro h; contradiction))

end Abs

/-- What has been done since a slot was reserved, when the open is settled. -/
def Opens (flags : UInt32) (fd : Nat) (acts : List Act) : Prop :=
  (∃ d x name, acts = [.create fd flags d x name]) ∨
    ∃ x, acts = if flags &&& oTrunc ≠ 0 then [.truncate x, .open_ fd flags x]
      else [.open_ fd flags x]

/-- The open is settled, and the grip of the new descriptor in hand. -/
structure Opened (c : Call) (flags : UInt32) (fd : Nat) (D : Diary Call Reply Act World)
    (r : Nat × EntryPtr) (γ : Ghost Hands Call Reply Act World) : Prop where
  hands : γ.hands = ⟨{⟨r.2, true, none⟩}, none, some (fd, some (r.1, flags))⟩
  id : r.2.id = r.1
  acts : ∃ acts, Went D acts (.decided c (.of fd)) γ.diary ∧ Opens flags fd acts

/-- There will be no descriptor. -/
def Refused (c : Call) (fd : Nat) (D : Diary Call Reply Act World) (x : Exn)
    (γ : Ghost Hands Call Reply Act World) : Prop :=
  ∃ e, x = .fsError e ∧ e ≠ .emfile ∧ γ.hands = ⟨0, none, some (fd, none)⟩ ∧
    Answered D c (.fail e) γ.diary

/-- The answers `c` may give, being an open of `names`. -/
def Allows (sb : Superblock) (c : Call) (names : List Name) (flags : UInt32) : Prop :=
  ∀ W W' a, Gives (W.abs.open_ names flags) W W' a (fun node =>
    (∃ fd, fd < maxOpen ∧ W.abs.fds fd = none ∧ a = .of fd ∧
      W'.abs = ⟨node, Function.update W.abs.fds fd (some names)⟩) ∨
    W.abs.node names = none ∧ ∃ e, NoRoom sb W.image names.dropLast e ∧ Fails W W' a e) →
  Decides sb c a W W'

/-- Registering a descriptor for a file that is there settles the open. -/
theorem register_safe (flags : UInt32) (file : InodeLock) {K : Known} {H : Hold} {G : Multiset Grip}
    {D' : Diary Call Reply Act World} (hp : D'.phase = .called c) (hK : H.known = some K)
    (hfile : kindOf K.ino = some .file) (hun : H.unopened = false)
    (hok : ∀ W W', W.image.tree.Rules → W.image.tree.At K.path file.id →
      W.image.tree.kind file.id = some .file → fd < maxOpen → W.abs.fds fd = none →
      W'.abs = ⟨W.abs.node, Function.update W.abs.fds fd (some K.path)⟩ →
      Decides sb c (.of fd) W W')
    {Q : EntryPtr → Ghost Hands Call Reply Act World → Prop}
    {E : Exn → Ghost Hands Call Reply Act World → Prop}
    (hQ : ∀ D'', Went D' [.open_ fd flags file.id] (.decided c (.of fd)) D'' →
      Q file.entry ⟨⟨⟨file.entry, true, none⟩ ::ₘ ⟨file.entry, false, some H⟩ ::ₘ G, none,
        some (fd, some (file.id, flags))⟩, D''⟩) :
    (registerOpen file).Safe (protocol sb)
      ⟨⟨⟨file.entry, false, some H⟩ ::ₘ G, none, some (fd, none)⟩, D'⟩ Q E := by
  refine registerOpen_safe flags file hK hfile hun (.inl rfl)
    fun s W rest hsl hat hkind hrules hfd hb => ?_
  refine Shift.settle (.open_ fd flags file.id) _ (a := .of fd) hb hp ⟨hkind, hsl, rfl⟩
    (hok W _ hrules hat hkind hfd ?_ ?_) hQ
  · show (W.slot fd).inode.map _ = none
    rw [hsl]
    rfl
  · rw [World.abs_put]
    show (⟨_, Function.update W.abs.fds fd (some (W.image.tree.pathOf file.id))⟩ : Abs) = _
    rw [Tree.pathOf_eq hrules hat]

/-- `open_existing`. -/
theorem openExisting_safe {names : List Name} (g : Regions sb) (hp : D.phase = .called c)
    (hgood : ∀ n ∈ names, GoodName n ∧ n ≠ dot ∧ n ≠ dotdot)
    (h0 : flags &&& (oCreat ||| oTrunc) = 0) (hallow : Allows sb c names flags) :
    (openExisting sb names).Safe (protocol sb) ⟨⟨0, none, some (fd, none)⟩, D⟩
      (Opened c flags fd D) (Refused c fd D) := by
  have hv : ∀ fd' (f : Nat × UInt32), some (fd, none) ≠ some (fd', some f) := by
    intro fd' f h
    cases h
  have htrunc : flags &&& oTrunc = 0 := by
    calc flags &&& oTrunc = flags &&& ((oCreat ||| oTrunc) &&& oTrunc) := rfl
      _ = (flags &&& (oCreat ||| oTrunc)) &&& oTrunc := (UInt32.and_assoc ..).symm
      _ = 0 := by rw [h0, UInt32.zero_and]
  unfold openExisting
  refine Prog.Safe.bind _ (walk_safe g hv hp (fun n hn => (hgood n hn).2)
    (fun s W rest hs hb e h => hallow W W _ (gives_error (Abs.open_find_error h0 h)))
    (fun l K hx hK => ?_) fun e D' he hD' => ⟨e, rfl, ?_, rfl, hD'⟩)
  rotate_left
  · rcases he with rfl | rfl <;> decide
  subst hK
  refine ensureDrop_safe (Prog.Safe.bind _ (readInode_safe (p := l.entry) g rfl
    fun s W rest hb => ?_))
  obtain ⟨hk, -, -⟩ := hb.known_range rfl
  obtain ⟨hino, -, hat⟩ := hb.known rfl
  have hrules : W.image.tree.Rules := hb.cons.tree
  by_cases hd : isDir K.ino = true
  · -- a directory cannot be opened
    have hdir : W.image.tree.kind l.entry.id = some .dir := (isDir_iff hk).mp (hino ▸ hd)
    refine Shift.look (a := .fail .eisdir) hb hp
      (hallow W W _ (gives_error (Abs.open_find_dir h0 (find_of_at hrules hat hdir))))
      fun D' hD' => ?_
    rw [hd, if_pos rfl]
    exact afterDrop_one hv ⟨_, rfl, by decide, rfl, hD'⟩
  · rw [Bool.not_eq_true] at hd
    have hfile : kindOf K.ino = some .file := kind_file_of (hino ▸ hk) hd
    refine Shift.quiet hb ?_
    rw [hd, if_neg Bool.false_ne_true]
    refine Prog.Safe.bind _ (register_safe flags l hp rfl hfile rfl ?_ fun D' hD' => ?_)
    · intro W W' hrules hat hkind hfd hfree habs
      exact hallow W W' _ (gives_ok (Abs.open_find_file h0 (find_of_at hrules hat hkind))
        (.inl ⟨fd, hfd, hfree, rfl, habs⟩))
    · refine afterDrop_opened rfl rfl ⟨rfl, rfl, _, hD', .inr ⟨l.id, ?_⟩⟩
      rw [if_neg (not_not.mpr htrunc)]

variable {p : EntryPtr} {K : Known} {H : Hold} {dirs : List Name} {name : Name} {l : InodeLock}

/-- `open_changing`, where there is nothing of that name. -/
theorem openNew_safe (g : Regions sb) (hp : D.phase = .called c) (hname : GoodName name)
    (h1 : flags &&& (oCreat ||| oTrunc) ≠ 0) (hcreat : flags &&& oCreat ≠ 0)
    (hallow : Allows sb c (K.path ++ [name]) flags) (hdir : isDir K.ino = true)
    (hnew : ∀ k, (K.ents k).inodeId ≠ 0 → (K.ents k).named ≠ name) :
    (do
      let id ← (createFile sb K.ino name).atomic
      let file ← lockInode id true
      let entry ← (registerOpen file).ensure (dropLock file)
      return (id, entry)).Safe (protocol sb) ⟨⟨{owning p K}, none, some (fd, none)⟩, D⟩
      (fun r => AfterDrop ⟨p, true⟩ (Opened c flags fd D r))
      fun x => AfterDrop ⟨p, true⟩ (Refused c fd D x) := by
  refine Prog.Safe.bind _ (createFile_safe flags g hp hname hdir hnew ?_ ?_ ?_ ?_)
  · intro W W' hchild hfd hfree habs
    exact hallow W W' _ (gives_ok (Abs.open_new h1 hchild hcreat)
      (.inl ⟨fd, hfd, hfree, rfl, habs⟩))
  · intro W e hchild hroom
    refine hallow W W _ (gives_ok (Abs.open_new h1 hchild hcreat)
      (.inr ⟨Abs.node_of_child hchild, e, ?_, rfl, rfl⟩))
    rw [List.dropLast_concat]
    exact hroom
  · intro x K' D' hK' hnamed hne hD'
    obtain ⟨k, hk, hx, h0, hn, hty⟩ := hnamed
    refine Prog.Safe.bind _ (lockChild_safe .file rfl hk hx h0 hn hty hne
      fun a L hpath hkd => ?_)
    refine Prog.Safe.bind _ (ensureDrop_safe (registerOpen_safe flags ⟨⟨x, a⟩, true⟩
      rfl hkd rfl (.inr rfl) fun s W rest hsl hat hkind hrules hfd hb => ?_))
    -- the slot has been settled with the file
    change W.slot fd = .reserved (some (x, flags)) at hsl
    have hput : W.put fd (.reserved (some (x, flags))) = W := by
      unfold World.put
      rw [← hsl, Function.update_eq_self]
    rw [show (⟨⟨x, a⟩, true⟩ : InodeLock).id = x from rfl, hput] at hb
    refine Shift.quiet hb (afterDrop_opened rfl rfl ?_)
    show AfterDrop ⟨p, true⟩ (Opened c flags fd D _) _
    refine afterDrop_opened rfl rfl ⟨rfl, rfl, _, hD', .inl ⟨p.id, x, name, rfl⟩⟩
  · intro e D' he hD'
    refine afterDrop_one (l := ⟨p, true⟩) (by intro _ _ h; cases h) ⟨e, rfl, ?_, rfl, hD'⟩
    rcases he with rfl | rfl <;> decide

/-- `open_changing`, where there is a file of that name. -/
theorem openThere_safe (g : Regions sb) (hp : D.phase = .called c)
    (h1 : flags &&& (oCreat ||| oTrunc) ≠ 0)
    (hx : ¬(flags &&& oCreat ≠ 0 ∧ flags &&& oExcl ≠ 0))
    (hallow : Allows sb c (K.path ++ [name]) flags) {k x : Nat} (hk : 2 ≤ k)
    (hid : (K.ents k).inodeId.toNat = x) (h0 : x ≠ 0) (hn : (K.ents k).named = name)
    (hty : (K.ents k).type = ftFile) (hne : l.id ≠ x) :
    (do
      let file ← lockInode x (flags &&& oTrunc != 0)
      (do
        if flags &&& oTrunc != 0 then (truncateFile sb file x).atomic
        let entry ← registerOpen file
        return (x, entry)).ensure (dropLock file)).Safe (protocol sb)
          ⟨holding l K (some (fd, none)), D⟩
      (fun r => AfterDrop l (Opened c flags fd D r)) fun x => AfterDrop l (Refused c fd D x) := by
  refine Prog.Safe.bind _ (lockChild_safe .file rfl hk hid h0 hn hty hne
    fun a L hpath hkd => ensureDrop_safe ?_)
  have hok : ∀ (L' : Known), L'.path = L.path → ∀ W W' : World, W.image.tree.Rules →
      W.image.tree.At L'.path x → W.image.tree.kind x = some .file → fd < maxOpen →
      W.abs.fds fd = none →
      W'.abs = ⟨W.abs.node, Function.update W.abs.fds fd (some L'.path)⟩ →
      Decides sb c (.of fd) W W' := by
    intro L' hL' W W' hrules hat hkind hfd hfree habs
    rw [hL', hpath] at hat habs
    refine hallow W W' _ (gives_ok (Abs.open_child_file h1 ?_ hx)
      (.inl ⟨fd, hfd, hfree, rfl, habs⟩))
    rw [child_of_at_snoc hrules hat, hkind]
  have hlast : ∀ acts D'', Went D acts (.decided c (.of fd)) D'' → Opens flags fd acts →
      ∀ H : Hold, H.exclusive = (flags &&& oTrunc != 0) →
      AfterDrop ⟨⟨x, a⟩, flags &&& oTrunc != 0⟩ (AfterDrop l (Opened c flags fd D (x, ⟨x, a⟩)))
        ⟨⟨⟨⟨x, a⟩, true, none⟩ ::ₘ ⟨⟨x, a⟩, false, some H⟩ ::ₘ
          {⟨l.entry, false, some ⟨l.exclusive, some K, false⟩⟩}, none,
          some (fd, some (x, flags))⟩, D''⟩ :=
    fun acts D'' hw ho H hH => afterDrop_opened rfl hH
      (afterDrop_opened rfl rfl ⟨rfl, rfl, acts, hw, ho⟩)
  by_cases htrunc : flags &&& oTrunc = 0
  · have hfalse : (flags &&& oTrunc != 0) = false := by rw [htrunc]; rfl
    rw [hfalse] at hlast ⊢
    rw [if_neg Bool.false_ne_true]
    refine Prog.Safe.bind _ (register_safe flags ⟨⟨x, a⟩, false⟩ hp rfl hkd rfl
      (hok L rfl) fun D' hD' => ?_)
    refine hlast _ D' hD' (.inr ⟨x, ?_⟩) _ rfl
    rw [if_neg (not_not.mpr htrunc)]
    rfl
  · have htrue : (flags &&& oTrunc != 0) = true := bne_iff_ne.mpr htrunc
    rw [htrue] at hlast ⊢
    rw [if_pos rfl]
    refine Prog.Safe.bind _ (truncateFile_safe ⟨⟨x, a⟩, true⟩ (o := false) g
      (by intro _ _ h; cases h) (by rw [hp]; rfl) hkd fun L' D' hL' hkd' hD' => ?_)
    rw [hp] at hD'
    refine Prog.Safe.bind _ (register_safe flags ⟨⟨x, a⟩, true⟩ hD'.phase rfl
      hkd' rfl (hok L' hL') fun D'' hD'' => ?_)
    refine hlast _ D'' (hD'.trans hD'') (.inr ⟨x, ?_⟩) _ rfl
    rw [if_pos htrunc]
    rfl

/-- `open_changing`. -/
theorem openChanging_safe (g : Regions sb) (hp : D.phase = .called c)
    (hgood : ∀ n ∈ dirs ++ [name], GoodName n ∧ n ≠ dot ∧ n ≠ dotdot)
    (h1 : flags &&& (oCreat ||| oTrunc) ≠ 0) (hallow : Allows sb c (dirs ++ [name]) flags) :
    (openChanging sb dirs name flags).Safe (protocol sb) ⟨⟨0, none, some (fd, none)⟩, D⟩
      (Opened c flags fd D) (Refused c fd D) := by
  obtain ⟨hname, hdots⟩ := hgood name (by simp)
  have hv : ∀ fd' (f : Nat × UInt32), some (fd, none) ≠ some (fd', some f) := by
    intro fd' f h
    cases h
  have herr : ∀ (W : World) e, W.abs.child (dirs ++ [name]) = .error e →
      Decides sb c (.fail e) W W := fun W e h => hallow W W _
      (gives_error (Abs.open_child_error h1 h))
  have hfail : ∀ l K (e : Errno) D', e ≠ .emfile → Answered D c (.fail e) D' →
      AfterDrop l (Refused c fd D (.fsError e)) ⟨holding l K (some (fd, none)), D'⟩ :=
    fun l K e D' he h => afterDrop_one hv ⟨e, rfl, he, rfl, h⟩
  unfold openChanging
  refine withOp_safe (Prog.Safe.bind _ (walk_safe g hv hp
    (fun n hn => (hgood n (List.mem_append_left _ hn)).2)
    (fun s W rest hs hb e h => herr W e (Abs.child_error h)) (fun l K hx hK => ?_)
    fun e D' he hD' => ⟨e, rfl, ?_, rfl, hD'⟩))
  rotate_left
  · rcases he with rfl | rfl <;> decide
  subst hK
  refine ensureDrop_safe (parentDir_safe (p := l.entry) (G := 0) g rfl hp (fun W => herr W .enotdir)
    (fun hdir => ?_) fun D' hD' => hfail l K _ D' (by decide) hD')
  refine Prog.Safe.bind _ (childLookup_safe (p := l.entry) g rfl hdir hdots
    (fun hnew s W rest hb hchild hat hino => ?_)
    fun k kd hk hn h0 hty hne s W rest hb hchild => ?_)
  · by_cases hc : flags &&& oCreat = 0
    · -- nothing has the name, and nothing is to be made
      refine Shift.look (a := .fail .enoent) hb hp
        (hallow W W _ (gives_error (Abs.open_missing h1 hchild hc))) fun D' hD' => ?_
      have hfalse : (flags &&& oCreat != 0) = false := by rw [hc]; rfl
      rw [hfalse]
      show (if 0 = 0 then if (!false) = true then _ else _ else _ :
        Fs (Nat × EntryPtr)).Safe _ _ _ _
      rw [if_pos rfl, if_pos (by decide)]
      exact hfail l K _ D' (by decide) hD'
    · -- with O_CREAT the directory was locked exclusively, so the name is still free
      have htrue : (flags &&& oCreat != 0) = true := bne_iff_ne.mpr hc
      obtain ⟨p, exclusive⟩ := l
      obtain rfl : exclusive = true := hx.trans htrue
      refine Shift.quiet hb ?_
      rw [htrue]
      show (if 0 = 0 then if (!true) = true then _ else _ else _ : Fs (Nat × EntryPtr)).Safe _ _ _ _
      rw [if_pos rfl, if_neg (by decide)]
      exact openNew_safe g hp hname h1 hc hallow hdir hnew
  · have hand : ∀ b b' : Bool, (b && b') = true ↔ b = true ∧ b' = true := by decide
    by_cases hx : flags &&& oCreat ≠ 0 ∧ flags &&& oExcl ≠ 0
    · -- it was not to be there
      refine Shift.look (a := .fail .eexist) hb hp
        (hallow W W _ (gives_error (Abs.open_exclusive h1 hchild hx))) fun D' hD' => ?_
      show (if (K.ents k).inodeId.toNat = 0 then _ else
        if (flags &&& oCreat != 0 && flags &&& oExcl != 0) = true then _ else _ :
          Fs (Nat × EntryPtr)).Safe _ _ _ _
      rw [if_neg h0, if_pos ((hand _ _).mpr ⟨bne_iff_ne.mpr hx.1, bne_iff_ne.mpr hx.2⟩)]
      exact hfail l K _ D' (by decide) hD'
    · have hexcl : ¬((flags &&& oCreat != 0 && flags &&& oExcl != 0) = true) := fun h =>
        hx ⟨bne_iff_ne.mp ((hand _ _).mp h).1, bne_iff_ne.mp ((hand _ _).mp h).2⟩
      cases kd with
      | dir =>
        refine Shift.look (a := .fail .eisdir) hb hp
          (hallow W W _ (gives_error (Abs.open_child_dir h1 hchild hx))) fun D' hD' => ?_
        show (if (K.ents k).inodeId.toNat = 0 then _ else
          if (flags &&& oCreat != 0 && flags &&& oExcl != 0) = true then _ else
            if ftDir = ftDir then _ else _ : Fs (Nat × EntryPtr)).Safe _ _ _ _
        rw [if_neg h0, if_neg hexcl, if_pos rfl]
        exact hfail l K _ D' (by decide) hD'
      | file =>
        refine Shift.quiet hb ?_
        show (if (K.ents k).inodeId.toNat = 0 then _ else
          if (flags &&& oCreat != 0 && flags &&& oExcl != 0) = true then _ else
            if ftFile = ftDir then _ else _ : Fs (Nat × EntryPtr)).Safe _ _ _ _
        rw [if_neg h0, if_neg hexcl, if_neg (by decide)]
        exact openThere_safe g hp h1 hx hallow hk rfl h0 hn hty hne

/-- `vfs_open` from where a slot is reserved. -/
theorem openAt_safe {path : Option CString} {D' : Diary Call Reply Act World} (g : Regions sb)
    (hD' : Went D [.reserve fd] (.called (.open_ path flags)) D')
    (hgood : ∀ n ∈ dirs ++ [name], GoodName n ∧ n ≠ dot ∧ n ≠ dotdot)
    (hallow : Allows sb (.open_ path flags) (dirs ++ [name]) flags) :
    (do
      (do
        let (id, entry) ←
          if flags &&& (oCreat ||| oTrunc) ≠ 0 then openChanging sb dirs name flags
          else openExisting sb (dirs ++ [name])
        withFd fd (Prog.change (·.mapFile fd fun f =>
          { f with inode := id, flags := flags, lock := some entry, offset := 0 }))).onError
        (releaseFd fd)
      return (fd : Int)).Safe (protocol sb) ⟨⟨0, none, some (fd, none)⟩, D'⟩
      (fun r γ => Returns sb D (.open_ path flags) (.of r) γ)
      (Failing sb D (.open_ path flags)) := by
  have hfill : ∀ r γ, Opened (.open_ path flags) flags fd D' r γ →
      (withFd fd (Prog.change (·.mapFile fd fun f =>
        { f with inode := r.1, flags := flags, lock := some r.2, offset := 0 }))).Safe
        (protocol sb) γ
        (fun _ γ' => Returns sb D (.open_ path flags) (.of fd) γ')
        fun x γ' => (releaseFd fd).Safe (protocol sb) γ'
          (fun _ => Failing sb D (.open_ path flags) x)
          (Failing sb D (.open_ path flags)) := by
    intro r γ h
    obtain ⟨hands, D''⟩ := γ
    obtain ⟨rfl, hid, acts, hw, ho⟩ := h
    dsimp only at hw
    refine fillFd_safe (c := .open_ path flags) (by rw [hw.phase]; rfl) hid fun D₃ hD₃ => ?_
    rw [hw.phase] at hD₃
    refine ⟨rfl, _, .inl ⟨(hD'.trans hw).trans hD₃, ?_⟩⟩
    refine ⟨fun hneg => absurd hneg (by show ¬((fd : Int) < 0); omega), fun _ => ⟨fd, rfl, ?_⟩⟩
    rcases ho with ⟨d, x, n, rfl⟩ | ⟨x, rfl⟩
    · exact .inl ⟨d, x, n, rfl⟩
    · refine .inr ⟨x, ?_⟩
      by_cases ht : flags &&& oTrunc ≠ 0
      · rw [if_pos ht, if_pos ht]
        rfl
      · rw [if_neg ht, if_neg ht]
        rfl
  have hrelease : ∀ x γ, Refused (.open_ path flags) fd D' x γ →
      (releaseFd fd).Safe (protocol sb) γ (fun _ => Failing sb D (.open_ path flags) x)
        (Failing sb D (.open_ path flags)) := by
    intro x γ h
    obtain ⟨hands, D''⟩ := γ
    obtain ⟨e, rfl, he, rfl, hw⟩ := h
    dsimp only at hw
    refine releaseFd_safe (c := .open_ path flags) (by rw [hw.phase]; rfl) (by intro _ h; cases h)
      fun D₃ hD₃ => ?_
    rw [hw.phase] at hD₃
    exact ⟨e, rfl, returns_fail ((hD'.trans hw).trans hD₃)
      (quiet_cons trivial (quiet_cons trivial (quiet_cons trivial quiet_nil)))
      fun h => absurd h he⟩
  refine Prog.Safe.bind _ (Prog.Safe.onError ?_)
  by_cases h1 : flags &&& (oCreat ||| oTrunc) ≠ 0
  · rw [if_pos h1]
    exact Prog.Safe.bind _ ((openChanging_safe g hD'.phase hgood h1 hallow).mono hfill hrelease)
  · rw [if_neg h1]
    exact Prog.Safe.bind _ ((openExisting_safe g hD'.phase hgood (not_not.mp h1) hallow).mono hfill
      hrelease)

/-- `vfs_open`. -/
theorem vfsOpen_safe {path : Option CString} (g : Regions sb)
    (hp : D.phase = .called (.open_ path flags)) :
    (vfsOpen sb (path.map Subtype.val) flags).Safe (protocol sb) ⟨.empty, D⟩
      (fun r γ => Returns sb D (.open_ path flags) (.of r) γ) fun _ _ => False := by
  have hstart := Went.refl hp
  have hinval : ∀ a W W', (flags &&& oAccmode = oAccmode ∨
      flags &&& oTrunc ≠ 0 ∧ flags &&& oAccmode = oRdonly) → Fails W W' a .einval →
      Decides sb (.open_ path flags) a W W' := fun a W W' h hf => (if_pos h).mpr hf
  refine withFs_safe ?_
  by_cases h1 : flags &&& oAccmode = oAccmode
  · show (if flags &&& oAccmode = oAccmode then _ else _ : Fs Int).Safe _ _ _ _
    rw [if_pos h1]
    exact ⟨.einval, rfl, returns_anyway hstart quiet_nil (fun _ => rfl) fun W =>
      hinval _ W W (.inl h1) ⟨rfl, rfl⟩⟩
  · by_cases h2 : flags &&& oTrunc ≠ 0 ∧ flags &&& oAccmode = oRdonly
    · show (if flags &&& oAccmode = oAccmode then _ else
        if flags &&& oTrunc ≠ 0 ∧ flags &&& oAccmode = oRdonly then _ else _ : Fs Int).Safe _ _ _ _
      rw [if_neg h1, if_pos h2]
      exact ⟨.einval, rfl, returns_anyway hstart quiet_nil (fun _ => rfl) fun W =>
        hinval _ W W (.inr h2) ⟨rfl, rfl⟩⟩
    · show (if flags &&& oAccmode = oAccmode then _ else
        if flags &&& oTrunc ≠ 0 ∧ flags &&& oAccmode = oRdonly then _ else _ : Fs Int).Safe _ _ _ _
      rw [if_neg h1, if_neg h2]
      have hno : ¬(flags &&& oAccmode = oAccmode ∨
          flags &&& oTrunc ≠ 0 ∧ flags &&& oAccmode = oRdonly) := by
        rintro (h | h)
        · exact h1 h
        · exact h2 h
      have hdec : ∀ W W' a, OnPath path W W' a (fun names =>
          if names = [] then Fails W W' a .eisdir
          else ((∀ fd < maxOpen, W.slot fd ≠ .free) ∧ Fails W W' a .emfile) ∨
            Gives (W.abs.open_ names flags) W W' a fun node =>
              (∃ fd, fd < maxOpen ∧ W.abs.fds fd = none ∧ a = .of fd ∧
                W'.abs = ⟨node, Function.update W.abs.fds fd (some names)⟩) ∨
              W.abs.node names = none ∧ ∃ e, NoRoom sb W.image names.dropLast e ∧ Fails W W' a e) →
          Decides sb (.open_ path flags) a W W' := fun W W' a h => (if_neg hno).mpr h
      refine Prog.Safe.bind _ (namesOf_safe (fun names hs => ?_) fun e hs => ?_)
      · rcases List.eq_nil_or_concat names with rfl | ⟨dirs, name, rfl⟩
        · exact ⟨.eisdir, rfl, returns_anyway hstart quiet_nil (fun _ => rfl) fun W =>
            hdec W W _ (onPath_ok hs ((if_pos rfl).mpr ⟨rfl, rfl⟩))⟩
        · rw [List.concat_eq_append] at hs ⊢
          have hne : dirs ++ [name] ≠ [] := by simp
          rw [List.getLast?_concat, List.dropLast_concat]
          refine Prog.Safe.bind _ (reserveFd_safe hp (fun fd D' hfd hD' => ?_) (fun W hfull => ?_)
            fun D' hD' => ⟨.emfile, rfl, returns_fail hD' (quiet_cons trivial quiet_nil)
              fun _ => rfl⟩)
          · have hallow : Allows sb (.open_ path flags) (dirs ++ [name]) flags := fun W W' a h =>
              hdec W W' a (onPath_ok hs ((if_neg hne).mpr (.inr h)))
            exact openAt_safe g hD' (good_of_split hs) hallow
          · exact hdec W W _ (onPath_ok hs ((if_neg hne).mpr (.inl ⟨hfull, rfl, rfl⟩)))
      · exact ⟨e, rfl, returns_anyway hstart quiet_nil (fun _ => rfl) fun W =>
          hdec W W _ (onPath_error hs)⟩

end Opening

/-! ## Descriptors -/

section Descriptors

variable {sb : Superblock} {c : Call} {D : Diary Call Reply Act World} {flags : UInt32}
  {fd off : Nat}
  {p : EntryPtr} {α : Type} {E : Exn → Ghost Hands Call Reply Act World → Prop}

/-- `file_at`. -/
theorem fileAt_safe {n : Int} {γ : Ghost Hands Call Reply Act World}
    {Q : Nat → Ghost Hands Call Reply Act World → Prop}
    (hbad : n < 0 ∨ (maxOpen : Int) ≤ n → E (.fsError .ebadf) γ)
    (hok : 0 ≤ n → n < maxOpen → n.toNat < maxOpen → Q n.toNat γ) :
    (fileAt n).Safe (protocol sb) γ Q E := by
  have h1024 : (maxOpen : Int) = 1024 := by rw [maxOpen_eq]; rfl
  rw [h1024] at hbad hok
  unfold fileAt
  by_cases h : n < 0 ∨ n ≥ 1024
  · rw [if_pos h]
    exact hbad h
  · rw [if_neg h]
    rw [maxOpen_eq] at hok
    exact hok (by omega) (by omega) (by omega)

/-- `R` holds of the ghost once the mutex of descriptor `fd` is let go of. -/
def AfterFd (fd : Nat) (R : Ghost Hands Call Reply Act World → Prop)
    (γ : Ghost Hands Call Reply Act World) : Prop :=
  ∃ live, γ.hands = atFd fd live ∧ R ⟨.empty, γ.diary⟩

/-- `vfs_close`. -/
theorem vfsClose_safe {n : Int} (hp : D.phase = .called (.close n)) :
    (vfsClose n).Safe (protocol sb) ⟨.empty, D⟩
      (fun r γ => Returns sb D (.close n) (.of r) γ) fun _ _ => False := by
  refine withFs_safe (Prog.Safe.bind _ (fileAt_safe (fun hbad => ?_) fun h0 hlt hfd => ?_))
  · exact ⟨.ebadf, rfl, returns_anyway (Went.refl hp) quiet_nil (fun _ => rfl) fun W =>
      (if_pos hbad).mpr ⟨rfl, rfl⟩⟩
  · refine withFd_safe hfd fun live => Prog.Safe.bind _ (snapshot_safe (fun p flags off hlive => ?_)
      fun hlive s W rest hb hshut => ?_)
    · subst hlive
      refine Prog.Safe.bind _ (giveUp_safe h0 hlt rfl hp fun D' hD' => ?_)
      refine Prog.Safe.bind _ (release_safe ?_)
      refine Prog.Safe.bind _ (clearFd_safe hfd ?_)
      refine Prog.Safe.bind _ (releaseFd_safe (c := .close n) (by rw [hD'.phase]; rfl)
        (fun u hu => by rw [← Option.some.inj hu]) fun D'' hD'' => ?_)
      rw [hD'.phase] at hD''
      refine ⟨none, rfl, rfl, _, .inl ⟨hD'.trans hD'', fun h => absurd h (by decide), fun _ => rfl⟩⟩
    · refine Shift.look (a := .fail .ebadf) hb hp ?_ fun D' hD' => ?_
      · refine (if_neg ?_).mpr (.inr ⟨hshut, rfl, rfl⟩)
        omega
      · exact ⟨live, rfl, .ebadf, rfl, returns_fail hD' (quiet_cons trivial quiet_nil) fun _ => rfl⟩

/-- A call on a descriptor, whose answer says nothing about the namespace: it fails if the
    descriptor is not open. -/
theorem onFd_safe {β : Type} {n : Int} (hp : D.phase = .called c)
    (hany : ∀ a W, Decides sb c a W W) {body : Nat → Snapshot → Fs β}
    {Q : β → Ghost Hands Call Reply Act World → Prop}
    (hbody : n.toNat < maxOpen → ∀ p flags off, (body n.toNat ⟨p.id, flags, p⟩).Safe (protocol sb)
      ⟨atFd n.toNat (some (p, flags, off)), D⟩ (fun a => AfterFd n.toNat (Q a))
      fun x => AfterFd n.toNat (Failing sb D c x)) :
    (do
      let fd ← fileAt n
      withFd fd do
        let f ← snapshot fd
        body fd f).Safe (protocol sb) ⟨.empty, D⟩ Q (Failing sb D c) := by
  have hfail : Failing sb D c (.fsError .ebadf) ⟨.empty, D⟩ :=
    ⟨.ebadf, rfl, returns_anyway (Went.refl hp) quiet_nil (fun _ => rfl) (hany _)⟩
  refine Prog.Safe.bind _ (fileAt_safe (fun _ => hfail) fun h0 hlt hfd => ?_)
  refine withFd_safe hfd fun live => Prog.Safe.bind _ (snapshot_safe (fun p flags off hlive => ?_)
    fun hlive s W rest hb _ => ?_)
  · rw [hlive]
    exact hbody hfd p flags off
  · exact Shift.quiet hb ⟨live, rfl, hfail⟩

/-- An error of such a call. -/
theorem afterFd_fail {live : Option (EntryPtr × UInt32 × Nat)} {e : Errno} {acts : List Act}
    {D' : Diary Call Reply Act World} (hw : Went D acts (.called c) D')
    (hq : ∀ act ∈ acts, act.Quiet) (he : e = .emfile → acts = [])
    (hany : ∀ a W, Decides sb c a W W) :
    AfterFd fd (Failing sb D c (.fsError e)) ⟨atFd fd live, D'⟩ :=
  ⟨live, rfl, e, rfl, returns_anyway hw hq he (hany _)⟩

/-- The offset is changed. -/
theorem moveFd_safe (hfd : fd < maxOpen) {k : Nat} {f : OpenFile → OpenFile}
    (hf : ∀ file : OpenFile, file.offset = off → f file = { file with offset := k })
    {U : Unit → Ghost Hands Call Reply Act World → Prop}
    (hU : ∀ s W W' rest, Body sb s W' (atFd fd (some (p, flags, k)) ::ₘ rest) →
      (Act.move fd k).Does sb W W' → W'.abs = W.abs →
      Shift (Body sb) (Legal sb) s W rest D (U ())) :
    (Prog.change fun s : FileSystem => s.mapFile fd f).Safe (protocol sb)
      ⟨atFd fd (some (p, flags, off)), D⟩ U E := by
  refine safe_step fun s W rest hb => ⟨.inl rfl, fun _ => ?_⟩
  obtain ⟨hsl, -, -, -, hoff, -⟩ := hb.slot_live
  refine hU _ W (W.put fd (.live p.id flags k)) rest ?_ ⟨p.id, flags, off, hsl, rfl⟩
    (World.put_abs (by rw [hsl]; rfl))
  have hmap : s.mapFile fd f = s.mapFile fd fun file => { file with offset := k } := by
    unfold FileSystem.mapFile
    rw [hf _ hoff]
  rw [hmap]
  exact hb.move hfd

/-- What settles a call that is only over. -/
theorem returns_look {a : Reply} {γ : Ghost Hands Call Reply Act World}
    (hh : γ.hands = .empty) (hw : Went D [] (.called c) γ.diary) (hany : ∀ a W, Decides sb c a W W)
    (hd : Did c a [.look]) : Returns sb D c a γ := ⟨hh, [], .inr ⟨hw, hd, hany a⟩⟩

/-- `vfs_fsync`. -/
theorem vfsFsync_safe {n : Int} (hp : D.phase = .called (.fsync n)) :
    (vfsFsync n).Safe (protocol sb) ⟨.empty, D⟩
      (fun r γ => Returns sb D (.fsync n) (.of r) γ) fun _ _ => False := by
  have hany : ∀ a W, Decides sb (.fsync n) a W W := fun a W => rfl
  have hfail : Failing sb D (.fsync n) (.fsError .ebadf) ⟨.empty, D⟩ :=
    ⟨.ebadf, rfl, returns_anyway (Went.refl hp) quiet_nil (fun _ => rfl) (hany _)⟩
  have hend : (do
      Prog.change fun s : FileSystem => { s with calls := s.calls ++ [JournalCall.commit] }
      return (0 : Int)).Safe (protocol sb) ⟨.empty, D⟩
      (fun r γ => Returns sb D (.fsync n) (.of r) γ) (Failing sb D (.fsync n)) :=
    Prog.Safe.bind _ (record_safe _ (returns_look rfl (Went.refl hp) hany
      ⟨fun h => absurd h (by decide), fun _ => rfl⟩))
  refine withFs_safe (Prog.Safe.bind _ (fileAt_safe (fun _ => hfail) fun h0 hlt hfd => ?_))
  refine Prog.Safe.bind _ (withFd_safe hfd fun live => snapshot_safe (fun p flags off hlive => ?_)
    fun hlive s W rest hb _ => ?_)
  · exact ⟨live, rfl, hend⟩
  · exact Shift.quiet hb ⟨live, rfl, hfail⟩

/-- `vfs_sync`. -/
theorem vfsSync_safe (hp : D.phase = .called .sync) :
    vfsSync.Safe (protocol sb) ⟨.empty, D⟩
      (fun r γ => Returns sb D .sync (.of r) γ) fun _ _ => False :=
  withFs_safe (Prog.Safe.bind _ (record_safe _ (returns_look rfl (Went.refl hp) (fun _ _ => rfl)
    ⟨fun h => absurd h (by decide), fun _ => rfl⟩)))

/-- `vfs_read`. -/
theorem vfsRead_safe (g : Regions sb) {fd : Int} {hasBuf : Bool} {n : Nat}
    (hp : D.phase = .called (.read fd hasBuf n)) :
    (vfsRead sb fd hasBuf n).Safe (protocol sb) ⟨.empty, D⟩
      (fun r γ => Returns sb D (.read fd hasBuf n) ⟨r.1, r.2, none, []⟩ γ) fun _ _ => False := by
  have hany : ∀ a W, Decides sb (.read fd hasBuf n) a W W := fun a W => rfl
  refine withFs_safe (onFd_safe hp hany fun hfd p flags off => ?_)
  by_cases h1 : flags &&& oAccmode = oWronly
  · show (if flags &&& oAccmode = oWronly then _ else _ : Fs (Int × List UInt8)).Safe _ _ _ _
    rw [if_pos h1]
    exact afterFd_fail (Went.refl hp) quiet_nil (fun _ => rfl) hany
  · show (if flags &&& oAccmode = oWronly then _ else if n = 0 then _ else
      if (!hasBuf) = true then _ else _ : Fs (Int × List UInt8)).Safe _ _ _ _
    rw [if_neg h1]
    by_cases h0 : n = 0
    · rw [if_pos h0]
      refine ⟨_, rfl, returns_look rfl (Went.refl hp) hany
        ⟨fun h => absurd h (by decide), fun _ => ?_⟩⟩
      exact (if_pos h0).mpr rfl
    · rw [if_neg h0]
      cases hasBuf with
      | false => exact afterFd_fail (Went.refl hp) quiet_nil (fun _ => rfl) hany
      | true =>
        rw [if_neg (by decide)]
        refine Prog.Safe.bind _ (lockFile_safe fun K => Prog.Safe.bind _ (Prog.Safe.ensure ?_))
        refine readLocked_safe g _ hp hany (fun data D' hD' => ?_) ?_
        · refine unlockFile_safe rfl (Prog.Safe.bind _ (moveFd_safe (k := off + data.length) hfd
            (fun file hoff => by rw [hoff]) fun s W W' rest hb hdoes habs => ?_))
          refine Shift.note _ _ hb (by rw [hD'.phase]; rfl) hdoes habs fun D'' hD'' => ?_
          rw [hD'.phase] at hD''
          refine ⟨_, rfl, rfl, _, .inl ⟨hD'.trans hD'', fun h => ?_, fun _ => ?_⟩⟩
          · exact absurd h (by show ¬((data.length : Int) < 0); omega)
          · exact (if_neg h0).mpr ⟨p.id, off, rfl, rfl⟩
        · exact unlockFile_safe rfl (afterFd_fail (Went.refl hp) quiet_nil (fun _ => rfl) hany)

/-- `vfs_lseek`. -/
theorem vfsLseek_safe (g : Regions sb) {n o whence : Int}
    (hp : D.phase = .called (.lseek n o whence)) :
    (vfsLseek sb n o whence).Safe (protocol sb) ⟨.empty, D⟩
      (fun r γ => Returns sb D (.lseek n o whence) (.of r) γ) fun _ _ => False := by
  have hany : ∀ a W, Decides sb (.lseek n o whence) a W W := fun a W => rfl
  refine withFs_safe (onFd_safe hp hany fun hfd p flags off => ?_)
  -- from where the base is known
  have hend : ∀ base : Int, (do
      let base ← pure base
      let result := base + o
      if result ≥ 2 ^ 63 ∨ result < -2 ^ 63 ∨ result < 0 then throwErrno .einval
      Prog.change (·.mapFile n.toNat fun f => { f with offset := result.toNat })
      return result : Fs Int).Safe (protocol sb) ⟨atFd n.toNat (some (p, flags, off)), D⟩
      (fun r => AfterFd n.toNat fun γ => Returns sb D (.lseek n o whence) (.of r) γ)
      fun x => AfterFd n.toNat (Failing sb D (.lseek n o whence) x) := by
    intro base
    refine Prog.Safe.bind _ ((Prog.safe_pure _).mpr ?_)
    dsimp only
    by_cases h : base + o ≥ 2 ^ 63 ∨ base + o < -2 ^ 63 ∨ base + o < 0
    · rw [if_pos h]
      exact afterFd_fail (Went.refl hp) quiet_nil (fun _ => rfl) hany
    · rw [if_neg h]
      refine Prog.Safe.bind _ (moveFd_safe (k := (base + o).toNat) hfd (fun _ _ => rfl)
        fun s W W' rest hb hdoes habs => ?_)
      refine Shift.settle _ _ (a := .of (base + o)) hb hp hdoes habs fun D' hD' => ?_
      refine ⟨_, rfl, rfl, _, .inl ⟨hD', fun hneg => absurd hneg ?_, fun _ => ?_⟩⟩
      · show ¬(base + o < 0)
        omega
      · exact ⟨(base + o).toNat, by show base + o = _; omega, rfl⟩
  by_cases h0 : whence = 0
  · rw [if_pos h0]
    exact hend 0
  · rw [if_neg h0]
    by_cases h1 : whence = 1
    · rw [if_pos h1]
      refine Prog.Safe.bind _ (offset_safe ?_)
      generalize toOffT off = base
      exact hend base
    · rw [if_neg h1]
      by_cases h2 : whence = 2
      · rw [if_pos h2]
        refine Prog.Safe.bind _ (lockFile_safe fun K => Prog.Safe.bind _ (Prog.Safe.ensure ?_))
        refine sizeLocked_safe g fun ino => unlockFile_safe rfl ?_
        generalize toOffT ino.size.toNat = base
        exact hend base
      · rw [if_neg h2]
        exact afterFd_fail (Went.refl hp) quiet_nil (fun _ => rfl) hany

end Descriptors

/-! ## Writing -/

section Writing

variable {sb : Superblock} {c : Call} {D : Diary Call Reply Act World} {flags : UInt32}
  {fd off x n pos done pos' done' : Nat} {p : EntryPtr} {src : Nat → UInt8} {acts : List Act}

theorem chunkEnd_pos (left : Nat) {start : Nat} (h : start < maxFileBytes) (hl : 0 < left) :
    start < chunkEnd start left := by
  unfold chunkEnd
  omega

/-- A write that touches no more than 16 blocks is one chunk. -/
theorem Chunked.single {start : Nat} {data : List UInt8} {full : Bool} {rest : List Act}
    (h : Chunked fd x n src pos 0 (.write fd x start 0 data full :: rest) pos' done')
    (h16 : start + n ≤ (start / 4096 + 16) * 4096) (hmax : start + n ≤ maxFileBytes) :
    rest = [] := by
  cases h with
  | past | full => rfl
  | more start len hn hend hlen hrest =>
    obtain rfl : len = n := by
      unfold chunkEnd at hend
      omega
    cases hrest with
    | done => rfl
    | past _ hn' => omega
    | full _ _ hn' => omega
    | more _ _ hn' => omega

theorem Chunked.le (h : Chunked fd x n src pos done acts pos' done') : done ≤ done' := by
  induction h with
  | done | past => exact le_refl _
  | full => omega
  | more _ _ _ _ _ ih => omega

/-- Chunks that wrote nothing changed nothing. -/
theorem Chunked.quiet (h : Chunked fd x n src pos done acts pos' done') (h0 : done' = done) :
    ∀ act ∈ acts, act.Quiet := by
  cases h with
  | done => exact quiet_nil
  | past => exact quiet_cons rfl quiet_nil
  | full start len =>
    obtain rfl : len = 0 := by omega
    exact quiet_cons rfl quiet_nil
  | more start len _ _ hlen hrest =>
    have := hrest.le
    omega

/-- The loop of `vfs_write` over the chunks. -/
theorem writeChunks_safe (g : Regions sb) {Q : Nat × Nat × Bool →
    Ghost Hands Call Reply Act World → Prop}
    {E : Exn → Ghost Hands Call Reply Act World → Prop} (fuel : Nat) :
    ∀ (pos done : Nat) (D : Diary Call Reply Act World), n - done ≤ fuel → D.phase = .called c →
      ((flags &&& oAppend != 0) = false → pos = off + done) →
      (∀ acts pos' done' full D', Went D acts (.called c) D' →
        Chunked fd p.id n src pos done acts pos' done' → (full = false → n ≤ done' ∨ 0 < done') →
        Q (pos', done', full) ⟨atFd fd (some (p, flags, off)), D'⟩) →
      (done = 0 → ∀ start D', Went D [.write fd p.id start done [] false] (.called c) D' →
        E (.fsError .efbig) ⟨atFd fd (some (p, flags, off)), D'⟩) →
      (writeChunks sb ⟨p.id, flags, p⟩ src n pos done fuel).Safe (protocol sb)
        ⟨atFd fd (some (p, flags, off)), D⟩ Q E := by
  -- every chunk writes something, so there is fuel for all of them
  induction fuel with
  | zero =>
    intro pos done D hfuel hp _ hQ _
    have hdone : done ≥ n := by omega
    unfold writeChunks
    rw [if_pos hdone]
    exact hQ [] pos done false D (Went.refl hp) (.done hdone) fun _ => .inl hdone
  | succ fuel ih =>
    intro pos done D hfuel hp hpos hQ hE
    unfold writeChunks
    by_cases hdone : done ≥ n
    · rw [if_pos hdone]
      exact hQ [] pos done false D (Went.refl hp) (.done hdone) fun _ => .inl hdone
    · rw [if_neg hdone]
      refine Prog.Safe.bind _ (withOp_safe (Prog.Safe.bind _ (lockFile_safe fun K =>
        Prog.Safe.ensure (writeChunk_safe g hp hpos ?_ ?_ ?_))))
      · -- past the largest size, with something written
        intro start L' D' hstart hne hD'
        have hd := Nat.pos_of_ne_zero hne
        exact unlockFile_safe rfl (hQ _ start done false D' hD' (.past start (by omega) hstart hd)
          fun _ => .inr hd)
      · -- past it from the start: EFBIG
        intro L' D' h0 hD'
        obtain ⟨start, hD'⟩ := hD'
        exact unlockFile_safe rfl (hE h0 start D' hD')
      · intro start len full L' D' hstart hle hnf hfull hpos' hD'
        refine unlockFile_safe rfl ?_
        cases full with
        | true =>
          -- the disk is full, and the loop ends
          have := hQ _ (start + len) (done + len) true D' hD'
            (.full start len (by omega) (hfull rfl))
            (by intro h; contradiction)
          dsimp only
          rw [Nat.add_sub_cancel_left]
          exact this
        | false =>
          have hend := hnf rfl
          have hgt := chunkEnd_pos (n - done) hstart (by omega)
          dsimp only
          rw [Nat.add_sub_cancel_left]
          refine ih (start + len) (done + len) D' (by omega) hD'.phase (fun ha => ?_)
            (fun acts pos' done' full D'' hD'' hch hend' => ?_) fun h0 => absurd h0 (by omega)
          · rw [hpos' ha]
            omega
          · exact hQ _ pos' done' full D'' (hD'.trans hD'')
              (.more start len (by omega) hend (by omega) hch) hend'

/-- `vfs_write`. -/
theorem vfsWrite_safe (g : Regions sb) {fd : Int} {buf : Option (Nat → UInt8)} {n : Nat}
    (hp : D.phase = .called (.write fd buf n)) :
    (vfsWrite sb fd buf n).Safe (protocol sb) ⟨.empty, D⟩
      (fun r γ => Returns sb D (.write fd buf n) (.of r) γ) fun _ _ => False := by
  have hany : ∀ a W, Decides sb (.write fd buf n) a W W := fun a W => rfl
  refine withFs_safe (onFd_safe hp hany fun hfd p flags off => ?_)
  by_cases h1 : flags &&& oAccmode = oRdonly
  · show (if flags &&& oAccmode = oRdonly then _ else _ : Fs Int).Safe _ _ _ _
    rw [if_pos h1]
    exact afterFd_fail (Went.refl hp) quiet_nil (fun _ => rfl) hany
  · show (if flags &&& oAccmode = oRdonly then _ else if n = 0 then _ else _ : Fs Int).Safe _ _ _ _
    rw [if_neg h1]
    by_cases h0 : n = 0
    · rw [if_pos h0]
      refine ⟨_, rfl, returns_look rfl (Went.refl hp) hany
        ⟨fun h => absurd h (by decide), fun _ => ?_⟩⟩
      exact (if_pos h0).mpr rfl
    · rw [if_neg h0]
      cases buf with
      | none => exact afterFd_fail (Went.refl hp) quiet_nil (fun _ => rfl) hany
      | some src =>
        refine Prog.Safe.bind _ (offset_safe (Prog.Safe.bind _
          (writeChunks_safe g _ off 0 D (by omega) hp
          (fun _ => rfl) (fun ws pos' done full D' hD' hch hend => ?_) fun _ start D' hD' => ?_)))
        · dsimp only
          refine Prog.Safe.bind _ (moveFd_safe (k := pos') hfd (fun _ _ => rfl)
            fun s W W' rest hb hdoes habs => ?_)
          by_cases hfull : done = 0 ∧ full = true
          · -- nothing fitted
            refine Shift.settle _ _ (a := .fail .enospc) hb hD'.phase hdoes habs fun D'' hD'' => ?_
            rw [if_pos hfull]
            refine ⟨_, rfl, .enospc, rfl, returns_fail (hD'.trans hD'') (fun act hact => ?_)
              (by intro h; contradiction)⟩
            rcases List.mem_append.mp hact with hact | hact
            · exact hch.quiet hfull.1 act hact
            · rw [List.mem_singleton.mp hact]
              trivial
          · refine Shift.settle _ _ (a := .of done) hb hD'.phase hdoes habs fun D'' hD'' => ?_
            rw [if_neg hfull]
            refine ⟨_, rfl, rfl, _, .inl ⟨hD'.trans hD'', fun h => absurd h ?_, fun _ => ?_⟩⟩
            · show ¬((done : Int) < 0)
              omega
            · refine (if_neg h0).mpr ⟨src, p.id, off, pos', ws, done, rfl, hch, ?_, rfl, rfl⟩
              have hmin : 0 < min n ssizeMax := lt_min (Nat.pos_of_ne_zero h0) (by decide)
              cases full with
              | true => exact Nat.pos_of_ne_zero fun hz => hfull ⟨hz, rfl⟩
              | false =>
                rcases hend rfl with h | h
                · omega
                · exact h
        · exact afterFd_fail hD' (quiet_cons rfl quiet_nil) (by intro h; contradiction) hany

end Writing

/-! ## Looking -/

section Looking

variable {sb : Superblock} {D : Diary Call Reply Act World} {path : Option CString}

/-- `vfs_stat`. -/
theorem vfsStat_safe (g : Regions sb) {hasOut : Bool} (hp : D.phase = .called (.stat path hasOut)) :
    (vfsStat sb (path.map Subtype.val) hasOut).Safe (protocol sb) ⟨.empty, D⟩
      (fun r γ => Returns sb D (.stat path hasOut) ⟨r.1, [], r.2, []⟩ γ) fun _ _ => False := by
  have hstart := Went.refl hp
  refine withFs_safe ?_
  by_cases hbad : hasOut = false
  · show (if (!hasOut) = true then _ else _ : Fs (Int × Option VfsStat)).Safe _ _ _ _
    rw [if_pos (by rw [hbad]; rfl)]
    exact ⟨.einval, rfl, returns_anyway hstart quiet_nil (fun _ => rfl) fun W =>
      (if_pos hbad).mpr ⟨rfl, rfl⟩⟩
  · have hdec : ∀ W a, OnPath path W W a (fun names => Gives (W.abs.find names) W W a fun kind =>
        W = W ∧ ∃ x, W.image.tree.At names x ∧ W.image.tree.kind x = some kind ∧
          a = ⟨0, [], some (statOf (W.image.inode x)), []⟩) →
          Decides sb (.stat path hasOut) a W W :=
      fun W a h => (if_neg hbad).mpr h
    show (if (!hasOut) = true then _ else _ : Fs (Int × Option VfsStat)).Safe _ _ _ _
    rw [if_neg (by rw [Bool.eq_true_of_not_eq_false hbad]; decide)]
    refine Prog.Safe.bind _ (namesOf_safe (fun names hs => ?_) fun e hs =>
      ⟨e, rfl, returns_anyway hstart quiet_nil (fun _ => rfl) fun W => hdec W _ (onPath_error hs)⟩)
    refine Prog.Safe.bind _ (walk_safe g (by intro _ _ h; contradiction) hp
      (fun n hn => (good_of_split hs n hn).2)
      (fun s W rest hands hb e h => hdec W _ (onPath_ok hs (gives_error h))) (fun l K hx hK => ?_)
      fun e D' _ hD' => ⟨e, rfl, returns_fail hD' (quiet_cons trivial quiet_nil) fun _ => rfl⟩)
    subst hK
    refine ensureDrop_safe (Prog.Safe.bind _ (readInode_safe (p := l.entry) g rfl
      fun s W rest hb => ?_))
    have hrules : W.image.tree.Rules := hb.cons.tree
    obtain ⟨hino, -, hat⟩ := hb.known rfl
    obtain ⟨kd, hkd⟩ := Option.ne_none_iff_exists'.mp (hrules.used_of_at hat)
    refine Shift.look (a := ⟨0, [], some (statOf K.ino), []⟩) hb hp (hdec W _ (onPath_ok hs
      (gives_ok (find_of_at hrules hat hkd) ⟨rfl, l.entry.id, hat, hkd, by rw [hino]⟩)))
      fun D' hD' => ?_
    refine afterDrop_one (by intro _ _ h; contradiction) ⟨rfl, _, .inl ⟨hD', ?_⟩⟩
    exact ⟨fun h => absurd h (by show ¬((0 : Int) < 0); decide), fun _ => rfl⟩

/-- `vfs_readdir`. -/
theorem vfsReaddir_safe (g : Regions sb) {hasOut : Bool} {max : Nat}
    (hp : D.phase = .called (.readdir path hasOut max)) :
    (vfsReaddir sb (path.map Subtype.val) hasOut max).Safe (protocol sb) ⟨.empty, D⟩
      (fun r γ => Returns sb D (.readdir path hasOut max) ⟨r.1, [], none, r.2⟩ γ)
      fun _ _ => False := by
  have hstart := Went.refl hp
  have hand : ∀ (b : Bool) (P : Prop) [Decidable P], (!b && decide P) = true ↔ b = false ∧ P := by
    intro b P _
    cases b <;> simp
  refine withFs_safe ?_
  show (if (!hasOut && decide (max > 0)) = true then _ else _ :
    Fs (Int × List DirItem)).Safe _ _ _ _
  by_cases hbad : hasOut = false ∧ max > 0
  · rw [if_pos ((hand _ _).mpr hbad)]
    exact ⟨.einval, rfl, returns_anyway hstart quiet_nil (fun _ => rfl) fun W =>
      (if_pos hbad).mpr ⟨rfl, rfl⟩⟩
  · rw [if_neg (fun h => hbad ((hand _ _).mp h))]
    refine Prog.Safe.bind _ (namesOf_safe (fun names hs => ?_) fun e hs =>
      ⟨e, rfl, returns_anyway hstart quiet_nil (fun _ => rfl) fun W =>
      (if_neg hbad).mpr (onPath_error hs)⟩)
    refine Prog.Safe.bind _ (walk_safe g (by intro _ _ h; contradiction) hp
      (fun n hn => (good_of_split hs n hn).2)
      (fun s W rest hands hb e h => (if_neg hbad).mpr (onPath_ok hs (gives_error h)))
      (fun l K hx hK => ?_)
      fun e D' _ hD' => ⟨e, rfl, returns_fail hD' (quiet_cons trivial quiet_nil) fun _ => rfl⟩)
    subst hK
    refine ensureDrop_safe (Prog.Safe.bind _ (readInode_safe (p := l.entry) g rfl
      fun s W rest hb => ?_))
    have hrules : W.image.tree.Rules := hb.cons.tree
    obtain ⟨hk, -, -⟩ := hb.known_range rfl
    obtain ⟨hino, -, hat⟩ := hb.known rfl
    by_cases hd : isDir K.ino = true
    · refine Shift.quiet hb ?_
      rw [hd, Bool.not_true, if_neg Bool.false_ne_true]
      refine Prog.Safe.bind _ (dirList_safe (p := l.entry) g rfl hd fun s W rest hb hkd hat => ?_)
      have hrules : W.image.tree.Rules := hb.cons.tree
      refine Shift.look hb hp ((if_neg hbad).mpr (onPath_ok hs
        (gives_ok (find_of_at hrules hat hkd) ⟨rfl, l.entry.id, hat, rfl⟩))) fun D' hD' => ?_
      refine afterDrop_one (by intro _ _ h; contradiction)
        ⟨rfl, _, .inl ⟨hD', fun h => ?_, fun _ => rfl⟩⟩
      exact absurd h (Int.not_lt.mpr (Int.natCast_nonneg _))
    · -- a file has no entries
      rw [Bool.not_eq_true] at hd
      have hfile : W.image.tree.kind l.entry.id = some .file := kind_file_of hk (hino ▸ hd)
      refine Shift.look (a := .fail .enotdir) hb hp ((if_neg hbad).mpr (onPath_ok hs
        (gives_ok (find_of_at hrules hat hfile) ⟨rfl, rfl⟩))) fun D' hD' => ?_
      rw [hd, Bool.not_false, if_pos rfl]
      show AfterDrop l (Failing sb D _ (.fsError .enotdir)) _
      exact afterDrop_one (by intro _ _ h; contradiction)
        ⟨.enotdir, rfl, returns_fail hD' (quiet_cons trivial quiet_nil) fun _ => rfl⟩

end Looking

/-! ## All of them -/

/-- Every call keeps to the protocol. -/
theorem call_safe {sb : Superblock} {D : Diary Call Reply Act World} (g : Regions sb) (c : Call)
    (hp : D.phase = .called c) :
    (c.run sb).Safe (protocol sb) ⟨.empty, D⟩ (Returns sb D c) fun _ _ => False := by
  cases c with
  | open_ path flags => exact Prog.Safe.bind _ (vfsOpen_safe g hp)
  | close fd => exact Prog.Safe.bind _ (vfsClose_safe hp)
  | read fd hasBuf n => exact Prog.Safe.bind _ (vfsRead_safe g hp)
  | write fd buf n => exact Prog.Safe.bind _ (vfsWrite_safe g hp)
  | lseek fd off whence => exact Prog.Safe.bind _ (vfsLseek_safe g hp)
  | fsync fd => exact Prog.Safe.bind _ (vfsFsync_safe hp)
  | sync => exact Prog.Safe.bind _ (vfsSync_safe hp)
  | mkdir path => exact Prog.Safe.bind _ (vfsMkdir_safe g hp)
  | unlink path => exact Prog.Safe.bind _ (vfsUnlink_safe g hp)
  | rmdir path => exact Prog.Safe.bind _ (vfsRmdir_safe g hp)
  | stat path hasOut => exact Prog.Safe.bind _ (vfsStat_safe g hp)
  | readdir path hasOut max => exact Prog.Safe.bind _ (vfsReaddir_safe g hp)

end ConcurrentFs
