/-
  ConcurrentFs.FileBytes

  What the files hold, as strings of bytes, and what the deeds of the threads do to
  them: a chunk of a write is a `splice`, a truncation leaves nothing, and a read
  takes a part of what is there at that moment.  In any interleaving, the files on
  the disk are what the chunks and truncations so far make of the first ones, in
  the order in which they were done (`reached_files`).

  The bytes of a block past the end of its file have to be zero for that, or a write
  further on would show them.  Nothing in layout.h says so, but mkfs makes no other
  image and no call does (`Image.Padded`).
-/
import ConcurrentFs.Interleavings
import ConcurrentFs.Lib.Splice

namespace ConcurrentFs

open Lib

/-! ## Files as strings -/

/-- What file `x` holds; nothing, if `x` is not a file. -/
def Image.fileOf (I : Image) (x : Nat) : List UInt8 :=
  if I.tree.kind x = some .file then I.bytesOf x 0 (I.sizeOf x) else []

/-- The last block of a file holds zeros past its end. -/
def Image.Padded (I : Image) : Prop :=
  ∀ x, I.tree.kind x = some .file → ∀ p, I.sizeOf x ≤ p → I.byteOf x p = 0

section Files

variable {I I' : Image} {x pos n p : Nat} {S : Set Nat}

theorem fileOf_other (h : I.tree.kind x ≠ some .file) : I.fileOf x = [] := if_neg h

variable (h : I.tree.kind x = some .file)
include h

theorem fileOf_file : I.fileOf x = (List.range (I.sizeOf x)).map (I.byteOf x) := by
  rw [Image.fileOf, if_pos h]
  show (List.range _).map (fun i => I.byteOf x (0 + i)) = _
  simp only [Nat.zero_add]

theorem length_fileOf : (I.fileOf x).length = I.sizeOf x := by
  rw [fileOf_file h, List.length_map, List.length_range]

theorem getD_fileOf_lt (hp : p < I.sizeOf x) : (I.fileOf x).getD p 0 = I.byteOf x p := by
  rw [List.getD_eq_getElem _ _ (by rw [length_fileOf h]; exact hp)]
  simp only [fileOf_file h, List.getElem_map, List.getElem_range]

theorem getD_fileOf (hpad : I.Padded) : (I.fileOf x).getD p 0 = I.byteOf x p := by
  by_cases hp : p < I.sizeOf x
  · exact getD_fileOf_lt h hp
  · rw [List.getD_eq_default _ _ (by rw [length_fileOf h]; omega), hpad x h p (by omega)]

/-- What `read_range` reads. -/
theorem bytesOf_readable :
    I.bytesOf x pos (readable (I.sizeOf x) pos n) = ((I.fileOf x).drop pos).take n := by
  have hlen : (I.bytesOf x pos (readable (I.sizeOf x) pos n)).length
      = (((I.fileOf x).drop pos).take n).length := by
    rw [List.length_take, List.length_drop, length_fileOf h]
    show ((List.range _).map _).length = _
    rw [List.length_map, List.length_range, readable]
    omega
  refine List.ext_getElem hlen fun i hi hi' => ?_
  rw [List.length_take, List.length_drop, length_fileOf h] at hi'
  rw [List.getElem_take, List.getElem_drop, ← List.getD_eq_getElem (I.fileOf x) 0,
    getD_fileOf_lt h (by omega)]
  simp only [Image.bytesOf, List.getElem_map, List.getElem_range]

end Files

/-! ## What deeds do to files -/

/-- What the files hold, by their inodes, and the descriptors. -/
structure Store where
  file : Nat → List UInt8
  slot : Nat → FdState

/-- What a world holds. -/
def World.store (W : World) : Store := ⟨W.image.fileOf, W.slot⟩

namespace Store

variable (S : Store)

def putFile (x : Nat) (data : List UInt8) : Store :=
  { S with file := Function.update S.file x data }

def putSlot (fd : Nat) (sl : FdState) : Store := { S with slot := Function.update S.slot fd sl }

/-- What a deed makes of a store. -/
def apply : Act → Store
  | .look | .mkdir .. | .read .. => S
  | .reserve fd => S.putSlot fd (.reserved none)
  | .release fd => S.putSlot fd .free
  | .fill fd =>
    match S.slot fd with
    | .reserved (some (x, flags)) => S.putSlot fd (.live x flags 0)
    | _ => S
  | .move fd off =>
    match S.slot fd with
    | .live x flags _ => S.putSlot fd (.live x flags off)
    | _ => S
  | .create fd flags _ x _ => (S.putFile x []).putSlot fd (.reserved (some (x, flags)))
  | .open_ fd flags x => S.putSlot fd (.reserved (some (x, flags)))
  | .close fd => S.putSlot fd (.reserved none)
  | .remove _ _ x | .truncate x => S.putFile x []
  | .write _ x start _ data _ => S.putFile x (splice (S.file x) start data)

/-- What a deed finds in the store: a read takes a part of the file from where its descriptor is; a
    chunk of a write starts where the descriptor was and as much further on as was written before,
    or at the end of the file if the descriptor appends. -/
def Finds : Act → Prop
  | .read fd x pos n data => (∃ flags, S.slot fd = .live x flags pos) ∧
      data = ((S.file x).drop pos).take n
  | .write fd x start done _ _ => ∃ flags off, S.slot fd = .live x flags off ∧
      start = if flags &&& oAppend != 0 then (S.file x).length else off + done
  | _ => True

theorem apply_fill {S : Store} {fd x : Nat} {flags : UInt32}
    (h : S.slot fd = .reserved (some (x, flags))) :
    S.apply (.fill fd) = S.putSlot fd (.live x flags 0) := by
  rw [apply, h]

theorem apply_move {S : Store} {fd x off off' : Nat} {flags : UInt32}
    (h : S.slot fd = .live x flags off') :
    S.apply (.move fd off) = S.putSlot fd (.live x flags off) := by
  rw [apply, h]

end Store

section Deeds

variable {sb : Superblock} {s : FileSystem} {W W' : World} {hs : Multiset Hands} {I I' : Image}
  {S : Set Nat} {fd x off : Nat} {flags : UInt32}

/-- What was not touched holds what it held. -/
theorem fileOf_kept (h : Kept I I' S) (hx : x ∉ S) (hk : I'.tree.kind x = I.tree.kind x) :
    I'.fileOf x = I.fileOf x ∧ (I'.tree.kind x = some .file → ∀ p, I'.sizeOf x = I.sizeOf x ∧
      I'.byteOf x p = I.byteOf x p) := by
  have hsize : I'.sizeOf x = I.sizeOf x := by
    unfold Image.sizeOf
    rw [h.inode x hx]
  have hbyte : I'.byteOf x = I.byteOf x := by
    funext p
    unfold Image.byteOf
    rw [h.cont x hx]
  refine ⟨?_, fun _ p => ⟨hsize, by rw [hbyte]⟩⟩
  by_cases hf : I.tree.kind x = some .file
  · rw [fileOf_file hf, fileOf_file (hk.trans hf), hsize, hbyte]
  · rw [fileOf_other hf, fileOf_other (by rw [hk]; exact hf)]

/-- An open descriptor is one of a file. -/
theorem Body.live_file (hb : Body sb s W hs) (hsl : W.slot fd = .live x flags off) :
    W.image.tree.kind x = some .file := by
  obtain ⟨-, hino, -, -, p, hp, hid, hT⟩ := (hb.slot fd).open_ x flags off hsl
  have key : ∃ r ∈ allGrips s.files hs, r.opened = true ∧ r.ptr.id = x := by
    cases hop : (s.files fd).op with
    | false =>
      obtain ⟨-, -, q, -, hq, hmem⟩ := hb.idle_grip hop hsl
      exact ⟨_, hmem, rfl, hq⟩
    | true =>
      -- somebody has the descriptor's mutex
      have hcard := (hb.slot fd).op
      rw [hop, if_pos rfl] at hcard
      obtain ⟨t, ht⟩ := Multiset.card_eq_one.mp hcard
      have hmem : t ∈ tokensOn fd hs := by
        rw [ht]
        exact Multiset.mem_singleton_self t
      obtain ⟨h, hh, htok, -⟩ := mem_tokensOn.mp hmem
      obtain ⟨r, hr, ho, hptr⟩ := (hb.ok h hh).token t p flags off htok (hT t hmem)
      exact ⟨r, mem_allGrips.mpr (.inl ⟨h, hh, hr⟩), ho, by rw [hptr, hid]⟩
  obtain ⟨r, hr, ho, hrx⟩ := key
  exact (hb.entry x).file r (mem_on.mpr ⟨hr, hrx⟩) ho

/-- Files that are as they were, but for `x`. -/
theorem files_update (hk : Kept I I' S) (hpad : I.Padded) {F : List UInt8}
    (hkind : ∀ y, y ≠ x → I'.tree.kind y = I.tree.kind y)
    (hdirs : ∀ y ∈ S, y ≠ x → I.tree.kind y ≠ some .file) (hx : I'.fileOf x = F)
    (hxpad : I'.tree.kind x = some .file → ∀ p, I'.sizeOf x ≤ p → I'.byteOf x p = 0) :
    I'.fileOf = Function.update I.fileOf x F ∧ I'.Padded := by
  refine ⟨?_, fun y hy p hp => ?_⟩
  · funext y
    by_cases hyx : y = x
    · rw [hyx, Function.update_self, hx]
    · rw [Function.update_of_ne hyx]
      by_cases hyS : y ∈ S
      · rw [fileOf_other (hdirs y hyS hyx),
          fileOf_other (by rw [hkind y hyx]; exact hdirs y hyS hyx)]
      · exact (fileOf_kept hk hyS (hkind y hyx)).1
  · by_cases hyx : y = x
    · subst hyx
      exact hxpad hy p hp
    · have hy' := hy
      rw [hkind y hyx] at hy'
      have hyS : y ∉ S := fun hyS => hdirs y hyS hyx hy'
      obtain ⟨h1, h2⟩ := (fileOf_kept hk hyS (hkind y hyx)).2 hy p
      rw [h2]
      exact hpad y hy' p (h1 ▸ hp)

/-- Making something: it holds nothing, and the directory is no file. -/
theorem Created.files {d : Nat} {name : Name} {kd : Kind}
    (h : Created sb I d name x kd I') (hpad : I.Padded) :
    I'.fileOf = Function.update I.fileOf x [] ∧ I'.Padded := by
  obtain ⟨k, hcan, htree⟩ := h.tree
  have hself : I'.tree.kind x = some kd := by
    rw [htree]
    exact Function.update_self _ _ _
  have hsize : kd = .file → I'.sizeOf x = 0 := fun hkd => by
    unfold Image.sizeOf
    rw [(h.blank hkd).1]
    rfl
  refine files_update h.kept hpad (fun y hy => ?_) (fun y hyS hy => ?_) ?_ fun hfile p _ => ?_
  · rw [htree]
    exact Function.update_of_ne hy _ _
  · rcases hyS with rfl | hyS
    · rw [hcan.dir]
      intro h
      contradiction
    · exact absurd hyS hy
  · by_cases hkd : kd = .file
    · rw [fileOf_file (hself.trans (congrArg some hkd)), hsize hkd]
      rfl
    · exact fileOf_other fun hf => hkd (Option.some.inj (hself.symm.trans hf))
  · exact byteOf_hole ((h.blank (Option.some.inj (hself.symm.trans hfile))).2 _)

/-- Removing something: what is not there holds nothing. -/
theorem Removed.files {d k : Nat} (h : Removed I d k x I') (hr : I.tree.Rules)
    (hcan : I.tree.CanRemove d k x) (hpad : I.Padded) :
    I'.fileOf = Function.update I.fileOf x [] ∧ I'.Padded := by
  have hself : I'.tree.kind x ≠ some .file := by
    rw [h.tree]
    show Function.update I.tree.kind x none x ≠ _
    rw [Function.update_self]
    intro h
    contradiction
  refine files_update h.kept hpad (fun y hy => ?_) (fun y hyS hy => ?_) (fileOf_other hself)
    fun hfile => absurd hfile hself
  · rw [h.tree]
    exact Function.update_of_ne hy _ _
  · rcases hyS with rfl | hyS
    · rw [hr.kind_of_names hcan.names]
      intro h
      contradiction
    · exact absurd hyS hy

theorem Truncated.files (h : Truncated I x I') (hpad : I.Padded) :
    I'.fileOf = Function.update I.fileOf x [] ∧ I'.Padded := by
  refine files_update h.kept hpad (fun y _ => by rw [h.tree]) (fun y hyS hy => absurd hyS hy) ?_
    fun _ p _ => h.bytes p
  by_cases hf : I'.tree.kind x = some .file
  · rw [fileOf_file hf, h.size]
    rfl
  · exact fileOf_other hf

/-- A chunk of a write. -/
theorem Written.files {start : Nat} {data : List UInt8} (h : Written I x start data I')
    (hx : I.tree.kind x = some .file) (hpad : I.Padded) :
    I'.fileOf = Function.update I.fileOf x (splice (I.fileOf x) start data) ∧ I'.Padded := by
  have hx' : I'.tree.kind x = some .file := by
    rw [h.tree]
    exact hx
  have hxpad : ∀ p, I'.sizeOf x ≤ p → I'.byteOf x p = 0 := by
    intro p hp
    rw [h.size] at hp
    rw [h.bytes]
    by_cases hd : data = []
    · rw [if_pos hd] at hp
      rw [hd, if_neg (by simp), hpad x hx p hp]
    · rw [if_neg hd] at hp
      rw [if_neg (by omega), hpad x hx p (by omega)]
  refine files_update h.kept hpad (fun y _ => by rw [h.tree]) (fun y hyS hy => absurd hyS hy) ?_
    fun _ => hxpad
  refine ext_getD ?_ fun p => ?_
  · rw [length_fileOf hx', h.size]
    by_cases hd : data = []
    · rw [if_pos hd, hd, splice_nil, length_fileOf hx]
    · rw [if_neg hd, length_splice hd, length_fileOf hx]
  · rw [getD_splice, getD_fileOf hx hpad, ← h.bytes]
    by_cases hp : p < I'.sizeOf x
    · exact getD_fileOf_lt hx' hp
    · rw [List.getD_eq_default _ _ (by rw [length_fileOf hx']; omega), hxpad p (by omega)]

/-- A deed finds in the store what it should. -/
theorem Act.Does.finds {act : Act} (h : act.Does sb W W') (hb : Body sb s W hs) :
    W.store.Finds act := by
  cases act with
  | write fd x start done data full =>
    obtain ⟨-, -, -, -, flags, off, hsl, hstart⟩ := h
    refine ⟨flags, off, hsl, ?_⟩
    show start = if flags &&& oAppend != 0 then (W.image.fileOf x).length else off + done
    rw [length_fileOf (hb.live_file hsl)]
    exact hstart
  | read fd x pos n data =>
    obtain ⟨-, ⟨flags, hsl⟩, hdata⟩ := h
    refine ⟨⟨flags, hsl⟩, ?_⟩
    rw [hdata]
    exact bytesOf_readable (hb.live_file hsl)
  | _ => trivial

/-- A deed makes of the descriptors what the store says. -/
theorem Act.Does.slots {act : Act} (h : act.Does sb W W') : W'.slot = (W.store.apply act).slot := by
  cases act with
  | look =>
    obtain rfl : W' = W := h
    rfl
  | reserve fd | release fd | open_ fd flags x =>
    obtain rfl : W' = W.put fd _ := by
      first | exact h.2.2 | exact h.2
    rfl
  | fill fd =>
    obtain ⟨x, flags, hsl, rfl⟩ := h
    rw [Store.apply_fill (S := W.store) hsl]
    rfl
  | move fd off =>
    obtain ⟨x, flags, off', hsl, rfl⟩ := h
    rw [Store.apply_move (S := W.store) hsl]
    rfl
  | mkdir d x name => exact h.2
  | create fd flags d x name => exact h.2.2
  | close fd =>
    obtain ⟨_, _, _, -, rfl⟩ := h
    rfl
  | remove d k x => exact h.2.2.1
  | truncate x => exact h.2
  | write fd x start done data full => exact h.2.2.1
  | read fd x pos n data =>
    obtain ⟨rfl, -⟩ := h
    rfl

/-- A deed makes of the files what the store says. -/
theorem Act.Does.files {act : Act} (h : act.Does sb W W') (hb : Body sb s W hs)
    (hpad : W.image.Padded) :
    W'.image.fileOf = (W.store.apply act).file ∧ W'.image.Padded := by
  cases act with
  | look =>
    obtain rfl : W' = W := h
    exact ⟨rfl, hpad⟩
  | reserve fd | release fd | open_ fd flags x =>
    obtain rfl : W' = W.put fd _ := by
      first | exact h.2.2 | exact h.2
    exact ⟨rfl, hpad⟩
  | fill fd =>
    obtain ⟨x, flags, hsl, rfl⟩ := h
    rw [Store.apply_fill (S := W.store) hsl]
    exact ⟨rfl, hpad⟩
  | move fd off =>
    obtain ⟨x, flags, off', hsl, rfl⟩ := h
    rw [Store.apply_move (S := W.store) hsl]
    exact ⟨rfl, hpad⟩
  | mkdir d x name =>
    obtain ⟨k, hcan, -⟩ := h.1.tree
    have hno : W.image.fileOf x = [] := fileOf_other (by rw [hcan.unused]; intro h; contradiction)
    obtain ⟨hfiles, hpad'⟩ := h.1.files hpad
    rw [hfiles, Function.update_eq_self_iff.mpr hno.symm]
    exact ⟨rfl, hpad'⟩
  | create fd flags d x name => exact h.1.files hpad
  | close fd =>
    obtain ⟨_, _, _, -, rfl⟩ := h
    exact ⟨rfl, hpad⟩
  | remove d k x => exact h.2.1.files hb.cons.tree h.1 hpad
  | truncate x => exact h.1.files hpad
  | write fd x start done data full =>
    obtain ⟨hwr, -, -, -, flags, off, hsl, -⟩ := h
    exact hwr.files (hb.live_file hsl) hpad
  | read fd x pos n data =>
    obtain ⟨rfl, -⟩ := h
    exact ⟨rfl, hpad⟩

/-- The step lemma: what one deed finds in the store, and what it makes of it. -/
theorem Act.Does.store {act : Act} (h : act.Does sb W W') (hb : Body sb s W hs)
    (hpad : W.image.Padded) :
    W.store.Finds act ∧ W'.store = W.store.apply act ∧ W'.image.Padded := by
  obtain ⟨hfiles, hpad'⟩ := h.files hb hpad
  refine ⟨h.finds hb, ?_, hpad'⟩
  rw [World.store, hfiles, h.slots]

end Deeds

/-! ## Histories of files -/

/-- What the deeds of a log make of a store. -/
def Store.replay (S : Store) : List Line → Store
  | [] => S
  | .deed _ _ d :: l => (S.apply d.act).replay l
  | _ :: l => S.replay l

/-- The same of anything that `apply` says what a deed makes of. -/
def replayBy {σ : Type} (apply : σ → Act → σ) (S : σ) : List Line → σ
  | [] => S
  | .deed _ _ d :: l => replayBy apply (apply S d.act) l
  | _ :: l => replayBy apply S l

theorem Store.replay_eq (S : Store) (log : List Line) :
    S.replay log = replayBy Store.apply S log := by
  induction log generalizing S with
  | nil => rfl
  | cons m log ih =>
    cases m with
    | call | ret => exact ih S
    | deed i c d => exact ih (S.apply d.act)

section Replay

variable {sb : Superblock} {disk : Nat → Block} {clock : Nat → UInt64} {n : Nat} {P : Users}
  {W W' : World} {log : List Line}

/-- The run lemma, for any view of the worlds: if every deed finds in it what it should and makes of
    it what it should, a log replayed from the first view gives the last. -/
theorem linked_replay {σ : Type} (view : World → σ) (finds : σ → Act → Prop)
    (apply : σ → Act → σ) (Q : World → Prop)
    (hstep : ∀ {V V' : World} {s : FileSystem} {hs : Multiset Hands} {act : Act},
      act.Does sb V V' → Body sb s V hs → Q V →
        finds (view V) act ∧ view V' = apply (view V) act ∧ Q V')
    (h : Linked (Real (Body sb) (Legal sb)) W log W') (hQ : Q W) :
    view W' = replayBy apply (view W) log ∧ Q W' ∧
      ∀ l1 i c d l2, log = l1 ++ .deed i c d :: l2 →
        finds (replayBy apply (view W) l1) d.act := by
  induction log generalizing W with
  | nil =>
    obtain rfl : W' = W := h
    refine ⟨rfl, hQ, fun l1 i c d l2 hl => ?_⟩
    simp at hl
  | cons m log ih =>
    -- calls and returns are not seen
    have skip : Linked (Real (Body sb) (Legal sb)) W log W' → (∀ i c d, m ≠ .deed i c d) →
        (∀ l, replayBy apply (view W) (m :: l) = replayBy apply (view W) l) →
        view W' = replayBy apply (view W) (m :: log) ∧ Q W' ∧
          ∀ l1 i c d l2, m :: log = l1 ++ .deed i c d :: l2 →
            finds (replayBy apply (view W) l1) d.act := by
      intro h hm hrep
      obtain ⟨h1, h2, h3⟩ := ih h hQ
      refine ⟨h1.trans (hrep log).symm, h2, fun l1 i c d l2 hl => ?_⟩
      cases l1 with
      | nil => exact absurd (List.cons.inj hl).1 (hm i c d)
      | cons m' l1 =>
        obtain ⟨rfl, hl'⟩ := List.cons.inj hl
        rw [hrep]
        exact h3 l1 i c d l2 hl'
    cases m with
    | call i c => exact skip h (by intro _ _ _ h; contradiction) fun _ => rfl
    | ret i c a => exact skip h (by intro _ _ _ h; contradiction) fun _ => rfl
    | deed i c d =>
      obtain ⟨⟨⟨hdoes, -⟩, ⟨s, hs, hb⟩, -⟩, hrest⟩ := h
      obtain ⟨hfinds, hview, hQ'⟩ := hstep hdoes hb hQ
      obtain ⟨h1, h2, h3⟩ := ih hrest hQ'
      rw [hview] at h1 h3
      refine ⟨h1, h2, fun l1 i' c' d' l2 hl => ?_⟩
      cases l1 with
      | nil =>
        obtain ⟨hd, -⟩ := List.cons.inj hl
        cases hd
        exact hfinds
      | cons m' l1 =>
        obtain ⟨rfl, hl'⟩ := List.cons.inj hl
        exact h3 l1 i' c' d' l2 hl'

/-- A log replayed from the first store gives the last, and every deed finds what it should where it
    was done. -/
theorem linked_store (h : Linked (Real (Body sb) (Legal sb)) W log W') (hpad : W.image.Padded) :
    W'.store = W.store.replay log ∧ W'.image.Padded ∧
      ∀ l1 i c d l2, log = l1 ++ .deed i c d :: l2 → (W.store.replay l1).Finds d.act := by
  simp only [Store.replay_eq]
  exact linked_replay World.store Store.Finds Store.apply (fun V => V.image.Padded)
    (fun hdoes hb hV => hdoes.store hb hV) h hpad

/-- What a file system holds between calls. -/
def FileSystem.store (sb : Superblock) (s : FileSystem) : Store :=
  ⟨(Image.of sb s.disk).fileOf, fun fd => if (s.files fd).inode = 0 then .free
    else .live (s.files fd).inode (s.files fd).flags (s.files fd).offset⟩

theorem Body.idle_store {s : FileSystem} (hb : Body sb s W (Multiset.replicate n .empty)) :
    W.store = s.store sb := by
  rw [World.store, FileSystem.store, hb.shows.image]
  congr 1
  exact funext hb.idle_slot

/-- mkfs makes no file. -/
theorem mkfsDisk_no_file {total count : UInt32} (mtime : UInt64) (old : Nat → Block)
    (h : planLayout total count = .ok sb) (x : Nat) :
    (Image.of sb (Mkfs.mkfsDisk total count mtime old)).tree.kind x ≠ some .file := by
  rw [Mkfs.image_mkfsDisk mtime old h]
  have hkind : (Mkfs.made sb mtime old).tree.kind x = if x = rootInode then some .dir else none :=
    Mkfs.made_kind _ _ x
  rw [hkind]
  split <;> exact nofun

theorem mkfsDisk_padded {total count : UInt32} (mtime : UInt64) (old : Nat → Block)
    (h : planLayout total count = .ok sb) :
    (Image.of sb (Mkfs.mkfsDisk total count mtime old)).Padded :=
  fun x hx => absurd hx (mkfsDisk_no_file mtime old h x)

theorem newDisk_padded : (Image.of smallLayout newDisk).Padded :=
  mkfsDisk_padded 0 _ Mkfs.smallLayout_planned

end Replay

end ConcurrentFs
