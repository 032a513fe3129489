/-
  ConcurrentFs.Lookup

  Path lookup among other threads.  A thread that holds the lock of an inode knows
  where it is and what is in it, so what it reads there is what is there now, and
  a name it does not find is missing at that moment: that is when the error of a
  call is settled.
-/
import ConcurrentFs.Locks
import ConcurrentFs.Spec

namespace ConcurrentFs

open Lib

/-! ## Paths of the abstract state -/

section Find

variable {sb : Superblock} {W : World} {p rest : List Name} {name : Name} {x : Nat}

theorem node_of_at (h : W.image.tree.Rules) (hx : W.image.tree.At p x) :
    W.abs.node p = W.image.tree.kind x := Tree.kindAt_of_at h hx

theorem findFrom_dir {A : Abs} {q : List Name} (h : A.node q = some .dir) :
    A.findFrom q (name :: rest) = if A.node (q ++ [name]) = none then .error .enoent
      else A.findFrom (q ++ [name]) rest := by
  rw [Abs.findFrom, h]

/-- The way down from what is at `p`. -/
theorem find_append (h : W.image.tree.Rules) (hp : W.image.tree.At p x) (rest : List Name) :
    W.abs.find (p ++ rest) = W.abs.findFrom p rest := by
  induction hp generalizing rest with
  | root => rfl
  | @child p d k x name hd hk hn hname ih =>
    have hdir : W.abs.node p = some .dir := (node_of_at h hd).trans (h.kind_of_names hn)
    have hsome : W.abs.node (p ++ [name]) ≠ none := by
      rw [node_of_at h (.child hd hk hn hname)]
      exact h.used_of_names hn
    rw [List.append_assoc, List.singleton_append, ih, findFrom_dir hdir, if_neg hsome]

/-- A path leads to what is there. -/
theorem find_of_at (h : W.image.tree.Rules) (hp : W.image.tree.At p x) {kd : Kind}
    (hk : W.image.tree.kind x = some kd) : W.abs.find p = .ok kd := by
  have := find_append h hp []
  rw [List.append_nil] at this
  rw [this]
  show (W.abs.node p).elim _ _ = _
  rw [node_of_at h hp, hk]
  rfl

theorem find_notdir (h : W.image.tree.Rules) (hp : W.image.tree.At p x)
    (hk : W.image.tree.kind x = some .file) :
    W.abs.find (p ++ name :: rest) = .error .enotdir := by
  rw [find_append h hp, Abs.findFrom, node_of_at h hp, hk]

/-- A name that is not in a directory leads nowhere. -/
theorem node_missing (h : W.image.tree.Rules) (hp : W.image.tree.At p x)
    (hno : ∀ k, (W.image.tree.entry x k).inodeId ≠ 0 → (W.image.tree.entry x k).named ≠ name) :
    W.abs.node (p ++ [name]) = none := by
  refine Tree.kindAt_none fun y hy => ?_
  obtain ⟨d, k, hd, -, hn, hname⟩ := Tree.at_snoc.mp hy
  rw [h.at_unique hd hp] at hn hname
  exact hno k hn.id_ne hname

theorem find_missing (h : W.image.tree.Rules) (hp : W.image.tree.At p x)
    (hk : W.image.tree.kind x = some .dir)
    (hno : ∀ k, (W.image.tree.entry x k).inodeId ≠ 0 → (W.image.tree.entry x k).named ≠ name) :
    W.abs.find (p ++ name :: rest) = .error .enoent := by
  rw [find_append h hp, findFrom_dir ((node_of_at h hp).trans hk)]
  exact if_pos (node_missing h hp hno)

variable {A : Abs} {e : Errno}

theorem Abs.child_error (h : A.find p = .error e) : A.child (p ++ [name]) = .error e := by
  rw [Abs.child, List.dropLast_concat, h]

theorem Abs.child_file (h : A.find p = .ok .file) : A.child (p ++ [name]) = .error .enotdir := by
  rw [Abs.child, List.dropLast_concat, h]

theorem Abs.child_dir (h : A.find p = .ok .dir) :
    A.child (p ++ [name]) = .ok (A.node (p ++ [name])) := by
  rw [Abs.child, List.dropLast_concat, h]

/-- What is called `name` in the directory at `p`. -/
theorem child_of_at (h : W.image.tree.Rules) (hp : W.image.tree.At p x)
    (hk : W.image.tree.kind x = some .dir) :
    W.abs.child (p ++ [name]) = .ok (W.abs.node (p ++ [name])) :=
  Abs.child_dir (find_of_at h hp hk)

theorem child_of_at_snoc (h : W.image.tree.Rules) (hx : W.image.tree.At (p ++ [name]) x) :
    W.abs.child (p ++ [name]) = .ok (W.image.tree.kind x) := by
  obtain ⟨d, k, hd, hk, hn, hname⟩ := Tree.at_snoc.mp hx
  rw [child_of_at h hd (h.kind_of_names hn), node_of_at h hx]

theorem Abs.node_of_child {names : List Name} {o : Option Kind} (h : A.child names = .ok o) :
    A.node names = o := by
  unfold child at h
  split at h
  · cases h
  · cases h
  · exact Except.ok.inj h

theorem child_none (h : W.image.tree.Rules) (hp : W.image.tree.At p x)
    (hk : W.image.tree.kind x = some .dir)
    (hno : ∀ k, (W.image.tree.entry x k).inodeId ≠ 0 → (W.image.tree.entry x k).named ≠ name) :
    W.abs.child (p ++ [name]) = .ok none := by
  rw [child_of_at h hp hk, node_missing h hp hno]

end Find

/-! ## Listing a directory -/

section Listing

variable {sb : Superblock} {s : FileSystem} {I : Image} {r : Side} {E : Exn → FileSystem → Prop}
  {x : Nat}

/-- What `dir_list` makes of the entries it reads. -/
def listed (es : List DirEntry) : List DirItem :=
  (es.filter fun e => e.inodeId ≠ 0).map fun e => ⟨e.named, e.inodeId.toNat, e.type⟩

theorem listed_append (es fs : List DirEntry) : listed (es ++ fs) = listed es ++ listed fs := by
  unfold listed
  rw [List.filter_append, List.map_append]

/-- A name has room for 58 bytes. -/
theorem itemsIn_listed (b : Block) : itemsIn b = listed ((List.range 64).map (slotAt b)) := by
  unfold itemsIn listed
  refine List.map_congr_left fun e _ => ?_
  simp only [DirItem.mk.injEq, and_true]
  unfold DirEntry.named
  rw [List.take_eq_take_iff, List.length_ofFn]
  omega

theorem listed_blocks (blk : Nat → Block) (ino : Inode) (n : Nat) :
    (List.range n).flatMap (fun i => itemsIn (cont blk ino i))
      = listed ((List.range (64 * n)).map (slotOf blk ino)) := by
  induction n with
  | zero => rfl
  | succ n ih =>
    rw [List.range_succ (n := n), List.flatMap_append, ih, List.flatMap_singleton, itemsIn_listed,
      show 64 * (n + 1) = 64 * n + 64 by omega, List.range_add, List.map_append, listed_append,
      List.map_map]
    congr 2
    refine List.map_congr_left fun j hj => ?_
    have := List.mem_range.mp hj
    show _ = slotAt (cont blk ino ((64 * n + j) / 64)) ((64 * n + j) % 64)
    rw [show (64 * n + j) / 64 = n by omega, show (64 * n + j) % 64 = j by omega]

/-- The loop of `dir_list`. -/
theorem dirListFrom_shows (g : Regions sb) (h : Shows sb s I r) {ino : Inode}
    (hin : InRange sb I.blk ino) (n : Nat) :
    ∀ k, (∀ i, k ≤ i → i < k + n → bmap I.blk ino i ≠ 0) → ∀ {Q : List DirItem → FileSystem → Prop},
      Q ((List.range' k n).flatMap fun i => itemsIn (cont I.blk ino i)) s →
      (dirListFrom sb ino k n).Ends s Q E := by
  induction n with
  | zero => exact fun k _ Q hQ => hQ
  | succ n ih =>
    intro k hblk Q hQ
    unfold dirListFrom
    rw [Prog.ends_bind]
    refine readDirBlock_ends g h hin (hblk k (le_refl k) (by omega)) ?_
    dsimp only
    rw [Prog.ends_bind]
    refine ih (k + 1) (fun i h1 h2 => hblk i (by omega) (by omega)) ?_
    rw [Prog.ends_pure]
    rwa [List.range'_succ, List.flatMap_cons] at hQ

/-- `dir_list` returns what the slots of the directory hold, in their order. -/
theorem dirList_ends (g : Regions sb) (h : Shows sb s I r) (c : Consistent sb I)
    (hd : I.tree.kind x = some .dir) {Q : List DirItem → FileSystem → Prop}
    (hQ : Q (I.itemsOf x) s) :
    (dirList sb (I.inode x)).Ends s Q E := by
  refine dirListFrom_shows g h (c.own.range x) _ 0
    (fun i _ hi => (c.shaped x).noHole hd i (by omega)) ?_
  rw [← List.range_eq_range', listed_blocks]
  have hslots : (List.range (64 * blockCountOf (I.inode x))).map (slotOf I.blk (I.inode x))
      = (List.range (64 * blockCountOf (I.inode x))).map (I.tree.entry x) :=
    List.map_congr_left fun k hk => (dirEntry_slot hd (List.mem_range.mp hk)).symm
  rw [hslots]
  exact hQ

end Listing

/-! ## Reading under a lock -/

/-- A thread did `acts`, and is in phase `ph` now. -/
structure Went (D : Diary Call Reply Act World) (acts : List Act) (ph : Phase Call Reply)
    (D' : Diary Call Reply Act World) : Prop where
  thread : D'.thread = D.thread
  phase : D'.phase = ph
  acts : D'.acts = D.acts ++ acts

/-- The answer `a` of call `c` was settled, without any change. -/
abbrev Answered (D : Diary Call Reply Act World) (c : Call) (a : Reply)
    (D' : Diary Call Reply Act World) : Prop := Went D [.look] (.decided c a) D'

/-- What `dir_lookup` finds among the entries of a directory. -/
inductive Found (ents : Nat → DirEntry) (name : Name) : Nat × UInt8 → Prop where
  | here (k : Nat) (h0 : (ents k).inodeId ≠ 0) (hn : (ents k).named = name) :
    Found ents name ((ents k).inodeId.toNat, (ents k).type)
  | missing (h : ∀ k, (ents k).inodeId ≠ 0 → (ents k).named ≠ name) : Found ents name (0, 0)

section Reading

variable {sb : Superblock} {s : FileSystem} {W : World} {rest : Multiset Hands}
  {c : Call} {a : Reply}
  {fin : Call → Reply → List (Deed Act Reply World) → Prop} {h : Hands}
  {D : Diary Call Reply Act World} {R : Ghost Hands Call Reply Act World → Prop} {β : Type}
  {G : Multiset Grip} {t : Option Token} {v : Option (Nat × Option (Nat × UInt32))}
  {p : EntryPtr} {o : Bool} {H : Hold} {K : Known}
  {E : Exn → Ghost Hands Call Reply Act World → Prop}

/-- The answer is settled by what the world is now. -/
theorem Shift.look (hb : Body sb s W (h ::ₘ rest)) (hp : D.phase = .called c)
    (hd : Decides sb c a W W) (hR : ∀ D', Answered D c a D' → R ⟨h, D'⟩) :
    Shift (Body sb) (Legal sb) s W rest D R := by
  refine ⟨h, ⟨D.thread, .decided c a, D.own ++ [⟨Act.look, some a, W⟩]⟩, W, ?_, hb,
    hR _ ⟨rfl, rfl, by simp [Diary.acts]⟩⟩
  refine Note.deed (c := c) (d := ⟨Act.look, some a, W⟩) ?_ ⟨rfl, hd⟩
  rw [hp]
  exact .settle rfl

/-- An inode whose lock is held is where it was found, so it is in use. -/
theorem Body.known_range (hb : Body sb s W (⟨⟨p, o, some H⟩ ::ₘ G, t, v⟩ ::ₘ rest))
    (hK : H.known = some K) : kindOf (W.image.inode p.id) ≠ none ∧ 1 ≤ p.id ∧
      p.id < sb.inodeCount.toNat := by
  obtain ⟨-, -, hat⟩ := hb.known hK
  have hk := hb.cons.tree.used_of_at hat
  obtain ⟨h1, h2, -⟩ := hb.cons.ibit_of_kind hk
  exact ⟨hk, h1, h2⟩

/-- `read_inode` of an inode whose lock is held. -/
theorem readInode_safe (g : Regions sb) (hK : H.known = some K)
    {Q : Inode → Ghost Hands Call Reply Act World → Prop}
    (hQ : ∀ s W rest, Body sb s W (⟨⟨p, o, some H⟩ ::ₘ G, t, v⟩ ::ₘ rest) →
      Shift (Body sb) (Legal sb) s W rest D (Q K.ino)) :
    (readInode sb p.id).atomic.Safe (shared (Body sb) (Legal sb) fin)
      ⟨⟨⟨p, o, some H⟩ ::ₘ G, t, v⟩, D⟩ Q E := by
  refine safe_stretch fun s W rest hb => ?_
  obtain ⟨-, h1, h2⟩ := hb.known_range hK
  obtain ⟨hino, -, -⟩ := hb.known hK
  refine readInode_ends g hb.shows h1 h2 ?_
  rw [← hino]
  exact hQ s W rest hb

/-- `dir_lookup` in a directory whose lock is held. -/
theorem dirLookup_safe (g : Regions sb) (hK : H.known = some K) (hdir : isDir K.ino = true)
    (name : Name) {Q : Nat × UInt8 → Ghost Hands Call Reply Act World → Prop}
    (hQ : ∀ s W rest, Body sb s W (⟨⟨p, o, some H⟩ ::ₘ G, t, v⟩ ::ₘ rest) →
      W.image.tree.kind p.id = some .dir → ∀ found, Found K.ents name found →
      Shift (Body sb) (Legal sb) s W rest D (Q found)) :
    (dirLookup sb K.ino name).atomic.Safe (shared (Body sb) (Legal sb) fin)
      ⟨⟨⟨p, o, some H⟩ ::ₘ G, t, v⟩, D⟩ Q E := by
  refine safe_stretch fun s W rest hb => ?_
  obtain ⟨hk, -, -⟩ := hb.known_range hK
  obtain ⟨hino, hents, -⟩ := hb.known hK
  rw [hino] at hdir ⊢
  have hd : W.image.tree.kind p.id = some .dir := (isDir_iff hk).mp hdir
  refine dirLookup_ends g hb.shows hb.cons hd name (fun k y hn hname => ?_) fun hno => ?_
  · have h0 := hn.id_ne
    have hy := hn.1
    rw [← hents] at h0 hname hy ⊢
    rw [← hy]
    exact hQ s W rest hb hd _ (.here k h0 hname)
  · rw [← hents] at hno
    exact hQ s W rest hb hd _ (.missing hno)

/-- `dir_is_empty`, in a directory whose lock is held. -/
theorem dirIsEmpty_safe (g : Regions sb) (hK : H.known = some K) (hkd : kindOf K.ino = some .dir)
    {Q : Bool → Ghost Hands Call Reply Act World → Prop}
    (hempty : (∀ k, 2 ≤ k → K.ents k = .zero) → Q true ⟨⟨⟨p, o, some H⟩ ::ₘ G, t, v⟩, D⟩)
    (hfull : ∀ s W rest, Body sb s W (⟨⟨p, o, some H⟩ ::ₘ G, t, v⟩ ::ₘ rest) →
      ∀ y, W.image.tree.Child p.id y → Shift (Body sb) (Legal sb) s W rest D (Q false)) :
    (dirIsEmpty sb K.ino).atomic.Safe (shared (Body sb) (Legal sb) fin)
      ⟨⟨⟨p, o, some H⟩ ::ₘ G, t, v⟩, D⟩ Q E := by
  refine safe_stretch fun s W rest hb => ?_
  obtain ⟨hino, hents, -⟩ := hb.known hK
  rw [hino] at hkd ⊢
  refine dirIsEmpty_ends g hb.shows hb.cons hkd (fun hall => ?_) (hfull s W rest hb)
  rw [← hents] at hall
  exact Shift.quiet hb (hempty hall)

/-- `dir_list`, in a directory whose lock is held. -/
theorem dirList_safe (g : Regions sb) (hK : H.known = some K) (hdir : isDir K.ino = true)
    {Q : List DirItem → Ghost Hands Call Reply Act World → Prop}
    (hQ : ∀ s W rest, Body sb s W (⟨⟨p, o, some H⟩ ::ₘ G, t, v⟩ ::ₘ rest) →
      W.image.tree.kind p.id = some .dir → W.image.tree.At K.path p.id →
      Shift (Body sb) (Legal sb) s W rest D (Q (W.image.itemsOf p.id))) :
    (dirList sb K.ino).atomic.Safe (shared (Body sb) (Legal sb) fin)
      ⟨⟨⟨p, o, some H⟩ ::ₘ G, t, v⟩, D⟩ Q E := by
  refine safe_stretch fun s W rest hb => ?_
  obtain ⟨hk, -, -⟩ := hb.known_range hK
  obtain ⟨hino, -, hat⟩ := hb.known hK
  rw [hino] at hdir ⊢
  have hd : W.image.tree.kind p.id = some .dir := (isDir_iff hk).mp hdir
  exact dirList_ends g hb.shows hb.cons hd (hQ s W rest hb hd hat)

end Reading

/-! ## Walking down -/

section Walk

variable {sb : Superblock} {c : Call} {fin : Call → Reply → List (Deed Act Reply World) → Prop}
  {D : Diary Call Reply Act World} {v : Option (Nat × Option (Nat × UInt32))}
  {E : Exn → Ghost Hands Call Reply Act World → Prop}

theorem kind_file_of {ino : Inode} (hk : kindOf ino ≠ none) (hd : isDir ino = false) :
    kindOf ino = some .file := by
  cases h : kindOf ino with
  | none => exact absurd h hk
  | some kd =>
    cases kd with
    | file => rfl
    | dir => exact absurd (hd.symm.trans (isDir_true h)) Bool.false_ne_true

/-- The hands of a thread that holds one lock and knows what is under it. -/
def holding (l : InodeLock) (K : Known) (v : Option (Nat × Option (Nat × UInt32))) : Hands :=
  ⟨{⟨l.entry, false, some ⟨l.exclusive, some K, false⟩⟩}, none, v⟩

/-- The loop of `walk`, from what is at `q`. -/
theorem walkFrom_safe (g : Regions sb) (hv : ∀ fd f, v ≠ some (fd, some f))
    (hp : D.phase = .called c) {names : List Name} {exclusive : Bool}
    (herr : ∀ s W rest hs, Body sb s W (hs ::ₘ rest) → ∀ e, W.abs.find names = .error e →
      Decides sb c (.fail e) W W)
    {Q : InodeLock → Ghost Hands Call Reply Act World → Prop}
    (hQ : ∀ l K, l.exclusive = exclusive → K.path = names → Q l ⟨holding l K v, D⟩)
    (hE : ∀ e D', e = .enoent ∨ e = .enotdir → Answered D c (.fail e) D' →
      E (.fsError e) ⟨⟨0, none, v⟩, D'⟩)
    (hnames : ∀ n ∈ names, n ≠ dot ∧ n ≠ dotdot) (rest : List Name) :
    ∀ (q : List Name) (cur : InodeLock) (K : Known), q ++ rest = names →
      K.path = q → (rest = [] → cur.exclusive = exclusive) →
      (walkFrom sb exclusive cur rest).Safe (shared (Body sb) (Legal sb) fin)
        ⟨holding cur K v, D⟩ Q E := by
  have hdue : ∀ fd x flags, v = some (fd, some (x, flags)) →
      ∃ u ∈ (0 : Multiset Grip), u.opened = true ∧ u.ptr.id = x := fun fd x flags h =>
    absurd h (hv fd _)
  induction rest with
  | nil =>
    intro q cur K hq hK hx
    rw [List.append_nil] at hq
    exact hQ cur K (hx rfl) (hK.trans hq)
  | cons name rest ih =>
    intro q cur K hq hK _
    have hdrop : ∀ e D', e = .enoent ∨ e = .enotdir → Answered D c (.fail e) D' →
        (dropLock cur).Safe (shared (Body sb) (Legal sb) fin) ⟨holding cur K v, D'⟩
          (fun _ => E (.fsError e)) E := fun e D' he hD' =>
      dropLock_safe rfl hdue (hE e D' he hD')
    unfold walkFrom
    refine Prog.Safe.bind _ (Prog.Safe.onError (Prog.Safe.bind _ ?_))
    refine readInode_safe g rfl fun s W rest' hb => ?_
    obtain ⟨hk, -, -⟩ := hb.known_range rfl
    obtain ⟨hino, -, hat⟩ := hb.known rfl
    rw [hK] at hat
    by_cases hd : isDir K.ino = true
    · refine Shift.quiet hb ?_
      dsimp only
      rw [hd, Bool.not_true, if_neg Bool.false_ne_true]
      refine Prog.Safe.bind _ (dirLookup_safe g rfl hd name fun s W rest' hb hkd found hf => ?_)
      obtain ⟨-, hents, hat⟩ := hb.known rfl
      rw [hK] at hat
      cases hf with
      | missing hno =>
        -- nothing of that name is there now
        refine Shift.look hb hp (herr s W rest' _ hb .enoent ?_) fun D' hD' => ?_
        · rw [← hq]
          exact find_missing hb.cons.tree hat hkd (by rw [← hents]; exact hno)
        · dsimp only
          rw [if_pos rfl]
          exact hdrop .enoent D' (.inl rfl) hD'
      | here k h0 hname =>
        refine Shift.quiet hb ?_
        generalize hy : (K.ents k).inodeId.toNat = y
        have hk0 : y ≠ 0 := fun hz => h0 (toNat_eq_zero.mp (hy.trans hz))
        obtain ⟨hn1, hn2⟩ := hnames name (by rw [← hq]; simp)
        -- what the entries of `cur` say, whenever it is locked
        have hchild : ∀ W : World, W.image.tree.Rules → K.ents = W.image.tree.entry cur.id →
            2 ≤ k ∧ W.image.tree.Names cur.id k y := by
          intro W hr hents
          have hn : W.image.tree.Names cur.id k y := ⟨by rw [← hents]; exact hy, hk0⟩
          exact ⟨hr.two_le_of_named hn (by rw [← hents]; exact hname) hn1 hn2, hn⟩
        have hne : cur.id ≠ y := hb.cons.tree.ne_of_child ⟨k, hchild W hb.cons.tree hents⟩
        dsimp only
        rw [if_neg hk0]
        refine lockInode_safe (·.path = q ++ [name]) (fun r hr hid => ?_) (fun a s W rest' hb => ?_)
          fun a K' hK' => ?_
        · rw [Multiset.mem_singleton.mp hr] at hid
          exact absurd hid hne
        · have hb' := hb
          rw [Multiset.cons_swap] at hb'
          obtain ⟨-, hents, hat⟩ := hb'.known rfl
          obtain ⟨hk2, hn⟩ := hchild W hb.cons.tree hents
          rw [hK] at hat
          refine ⟨_, .child hat hk2 hn (by rw [← hents]; exact hname), rfl, rank_known rfl ?_⟩
          rw [hK, List.length_append]
          exact le_refl _
        · rw [Multiset.cons_swap]
          refine Prog.Safe.bind _ (dropLock_safe (l := cur) rfl
            (fun fd x flags h => absurd h (hv fd _)) ?_)
          refine ih (q ++ [name]) ⟨⟨y, a⟩, _⟩ K' (by rw [← hq]; simp) hK' fun hnil => ?_
          rw [hnil]
          exact Bool.true_and _
    · -- a file on the way
      rw [Bool.not_eq_true] at hd
      have hkf : W.image.tree.kind cur.id = some .file :=
        kind_file_of hk (hino ▸ hd)
      refine Shift.look hb hp (herr s W rest' _ hb .enotdir ?_) fun D' hD' => ?_
      · rw [← hq]
        exact find_notdir hb.cons.tree hat hkf
      · dsimp only
        rw [hd, Bool.not_false, if_pos rfl]
        exact hdrop .enotdir D' (.inr rfl) hD'

/-- `walk`. -/
theorem walk_safe (g : Regions sb) (hv : ∀ fd f, v ≠ some (fd, some f))
    (hp : D.phase = .called c) {names : List Name} {exclusive : Bool}
    (hnames : ∀ n ∈ names, n ≠ dot ∧ n ≠ dotdot)
    (herr : ∀ s W rest hs, Body sb s W (hs ::ₘ rest) → ∀ e, W.abs.find names = .error e →
      Decides sb c (.fail e) W W)
    {Q : InodeLock → Ghost Hands Call Reply Act World → Prop}
    (hQ : ∀ l K, l.exclusive = exclusive → K.path = names → Q l ⟨holding l K v, D⟩)
    (hE : ∀ e D', e = .enoent ∨ e = .enotdir → Answered D c (.fail e) D' →
      E (.fsError e) ⟨⟨0, none, v⟩, D'⟩) :
    (walk sb names exclusive).Safe (shared (Body sb) (Legal sb) fin) ⟨⟨0, none, v⟩, D⟩ Q E := by
  unfold walk
  refine Prog.Safe.bind _ (lockInode_safe (·.path = [])
    (fun r hr _ => absurd hr (Multiset.notMem_zero r))
    (fun _ _ _ _ _ => ⟨[], .root, rfl, rank_none⟩) fun a K hK => ?_)
  refine walkFrom_safe g hv hp herr hQ hE hnames names [] ⟨⟨rootInode, a⟩, _⟩ K rfl hK
    fun hnil => ?_
  rw [hnil]
  exact Bool.true_and _

end Walk

end ConcurrentFs
