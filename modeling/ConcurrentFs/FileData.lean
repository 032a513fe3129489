/-
  ConcurrentFs.FileData

  The bytes of a file: what `read_range` returns, what one chunk of `vfs_write`
  and what `O_TRUNC` do to them.  A byte is looked up in its file block; past the
  end of the file there may be anything in the last block, and the statements here
  speak of those bytes too, so that nothing has to be assumed about them.
-/
import ConcurrentFs.Namespace
import ConcurrentFs.Vfs

namespace ConcurrentFs

open Lib

/-- Byte `p` of inode `x`. -/
def Image.byteOf (I : Image) (x p : Nat) : UInt8 :=
  (cont I.blk (I.inode x) (p / 4096)).get (p % 4096)

/-- The size of inode `x`. -/
def Image.sizeOf (I : Image) (x : Nat) : Nat := (I.inode x).size.toNat

/-- One file has changed and nothing else: neither the tree nor another file. -/
structure Changed (I : Image) (x : Nat) (I' : Image) : Prop where
  tree : I'.tree = I.tree
  ibit : I'.ibit = I.ibit
  kept : Kept I I' {x}

/-- `x` has been emptied. -/
structure Truncated (I : Image) (x : Nat) (I' : Image) : Prop extends Changed I x I' where
  size : I'.sizeOf x = 0
  bytes : ∀ p, I'.byteOf x p = 0

/-- The bytes `data` have been written to `x` from byte `pos` on. -/
structure Written (I : Image) (x pos : Nat) (data : List UInt8) (I' : Image) : Prop
    extends Changed I x I' where
  size : I'.sizeOf x = if data = [] then I.sizeOf x else max (I.sizeOf x) (pos + data.length)
  bytes : ∀ p, I'.byteOf x p
    = if pos ≤ p ∧ p < pos + data.length then data.getD (p - pos) 0 else I.byteOf x p

section Change

variable {sb : Superblock} {I I' : Image} {x : Nat}

/-- A new inode for a file, with the rest of the image as it was. -/
theorem Consistent.changed (c : Consistent sb I) (I' : Image) (hx : I.tree.kind x = some .file)
    {ino' : Inode}
    (hibit : I'.ibit = I.ibit) (hinode : I'.inode = Function.update I.inode x ino')
    (hown : Own sb I' I'.inode ∅) (hid : ino'.id = (I.inode x).id)
    (hmode : ino'.mode = (I.inode x).mode) (hlink : ino'.linkCount = (I.inode x).linkCount)
    (hshape : Shaped I'.blk ino')
    (hframe : ∀ y, y ≠ x → ∀ i, bmap I'.blk (I.inode y) i = bmap I.blk (I.inode y) i)
    (hcont : ∀ y, y ≠ x → ∀ i, cont I'.blk (I.inode y) i = cont I.blk (I.inode y) i) :
    Consistent sb I' ∧ Changed I x I' := by
  have hxk : kindOf (I.inode x) = some .file := hx
  obtain ⟨hx1, hx2, hx3⟩ := c.ibit_of_kind (x := x) (by rw [hxk]; exact nofun)
  have hinodex : I'.inode x = ino' := by rw [hinode, Function.update_self]
  have hinodey : ∀ y, y ≠ x → I'.inode y = I.inode y := by
    intro y hy
    rw [hinode, Function.update_of_ne hy]
  have hk' : kindOf ino' = some .file := (kindOf_of_mode hmode).trans hxk
  have hkind : I'.tree.kind = I.tree.kind := by
    funext y
    show kindOf (I'.inode y) = kindOf (I.inode y)
    by_cases hy : y = x
    · rw [hy, hinodex, hk', hxk]
    · rw [hinodey y hy]
  have hentry : I'.tree.entry = I.tree.entry := by
    funext y j
    show dirEntry I'.blk (I'.inode y) j = dirEntry I.blk (I.inode y) j
    by_cases hy : y = x
    · rw [hy, hinodex, dirEntry_notDir (by rw [hk']; exact nofun),
        dirEntry_notDir (by rw [hxk]; exact nofun)]
    · rw [hinodey y hy]
      exact congrFun (dirEntry_congr (hcont y hy) rfl rfl) j
  have hlinks : I'.tree.links = I.tree.links := by
    funext y
    show (I'.inode y).linkCount.toNat = (I.inode y).linkCount.toNat
    by_cases hy : y = x
    · rw [hy, hinodex, hlink]
    · rw [hinodey y hy]
  have htree : I'.tree = I.tree := by
    show Tree.mk I'.tree.kind I'.tree.entry I'.tree.links = _
    rw [hkind, hentry, hlinks]
  refine ⟨⟨⟨?_, ?_⟩, fun y hy hb => ?_, fun y h1 h2 hb => ?_, fun y hy => ?_, hown,
    fun y => ?_, ?_⟩,
    htree, hibit, fun y hy => hinodey y hy, fun y hy i => ?_⟩
  · rw [hibit]
    exact c.reserved.1
  · rw [hinodey 0 (by omega)]
    exact c.reserved.2
  · rw [hibit] at hb
    have hyx : y ≠ x := by
      rintro rfl
      rw [hx3] at hb
      exact Bool.noConfusion hb
    rw [hinodey y hyx]
    exact c.unused y hy hb
  · rw [hibit] at hb
    obtain ⟨u1, u2, u3⟩ := c.used y h1 h2 hb
    by_cases hy : y = x
    · rw [hy] at u1 u3
      rw [hy, hinodex, hid, hlink, hk']
      exact ⟨u1, nofun, u3⟩
    · rw [hinodey y hy]
      exact ⟨u1, u2, u3⟩
  · rw [hinodey y (by omega)]
    exact c.past y hy
  · by_cases hy : y = x
    · rw [hy, hinodex]
      exact hshape
    · rw [hinodey y hy]
      exact (c.shaped y).congr (hframe y hy) rfl rfl
  · show I'.tree.Rules
    rw [htree]
    exact c.tree
  · rw [hinodey y hy]
    exact hcont y hy i

theorem Changed.refl : Changed I x I := ⟨rfl, rfl, fun _ _ => rfl, fun _ _ _ => rfl⟩

theorem Changed.trans {I'' : Image} (h : Changed I x I') (h' : Changed I' x I'') :
    Changed I x I'' where
  tree := h'.tree.trans h.tree
  ibit := h'.ibit.trans h.ibit
  kept := ⟨fun y hy => (h'.kept.inode y hy).trans (h.kept.inode y hy),
    fun y hy i => (h'.kept.cont y hy i).trans (h.kept.cont y hy i)⟩

end Change

/-! ## Lock entries -/

/-- The side state with the entry of inode `id` changed. -/
def Side.put (r : Side) (id : Nat) (e : Option Entry) : Side :=
  { r with entries := Function.update r.entries id e }

@[simp] theorem Side.put_put (r : Side) (id : Nat) (a b : Option Entry) :
    (r.put id a).put id b = r.put id b := by
  unfold Side.put
  simp only [Function.update_idem]

@[simp] theorem Side.put_entries_self (r : Side) (id : Nat) (a : Option Entry) :
    (r.put id a).entries id = a := Function.update_self _ _ _

section Entries

variable {sb : Superblock} {s : FileSystem} {I : Image} {r : Side} {E : Exn → FileSystem → Prop}
  {p : EntryPtr} {e : Entry}

theorem Shows.entryAt (h : Shows sb s I r) (he : r.entries p.id = some e) (ha : e.addr = p.addr) :
    s.entryAt p = some e := by
  have hs : s.entries p.id = some e := by
    have := congrArg Side.entries h.side
    exact (congrFun this p.id).trans he
  unfold FileSystem.entryAt
  rw [hs, Option.filter_some, if_pos (by simp [ha])]

theorem Shows.mapEntry (h : Shows sb s I r) (he : r.entries p.id = some e) (ha : e.addr = p.addr)
    (f : Entry → Entry) : Shows sb (s.mapEntry p f) I (r.put p.id (some (f e))) := by
  unfold FileSystem.mapEntry
  rw [h.entryAt he ha]
  refine ⟨h.image, h.inodeCount, h.blockCount, h.inodeBit, h.blockBit, ?_⟩
  rw [← h.side]
  rfl

theorem mapEntry_writes (s : FileSystem) (p : EntryPtr) (f : Entry → Entry) :
    Writes s (s.mapEntry p f) ∅ := by
  unfold FileSystem.mapEntry
  split
  · exact .of_same rfl rfl
  · exact .refl s

theorem changeEntry_writes (h : Shows sb s I r) (he : r.entries p.id = some e)
    (ha : e.addr = p.addr) (f : Entry → Entry) {U : Unit → FileSystem → Prop}
    (hU : ∀ s', Shows sb s' I (r.put p.id (some (f e))) → Writes s s' ∅ → U () s') :
    (changeEntry p f).Ends s U E := by
  refine ⟨rfl, ?_⟩
  dsimp only
  rw [if_pos (by rw [h.entryAt he ha]; rfl)]
  exact hU _ (h.mapEntry he ha f) (mapEntry_writes s p f)

theorem changeEntry_ends (h : Shows sb s I r) (he : r.entries p.id = some e)
    (ha : e.addr = p.addr) (f : Entry → Entry) {U : Unit → FileSystem → Prop}
    (hU : ∀ s', Shows sb s' I (r.put p.id (some (f e))) → U () s') :
    (changeEntry p f).Ends s U E :=
  changeEntry_writes h he ha f fun s' hs' _ => hU s' hs'

theorem readEntry_ends (h : Shows sb s I r) (he : r.entries p.id = some e) (ha : e.addr = p.addr)
    {α : Type} (f : Entry → α) {Q : α → FileSystem → Prop} (hQ : Q (f e) s) :
    (readEntry p f).Ends s Q E := by
  refine ⟨rfl, ?_⟩
  dsimp only
  rw [h.entryAt he ha]
  exact hQ

/-- `file_inode`, when the copy in the entry is current. -/
theorem fileInode_ends (g : Regions sb) (h : Shows sb s I r) (he : r.entries p.id = some e)
    (ha : e.addr = p.addr) (hcopy : e.inodeValid = true → e.inode = I.inode p.id)
    (h1 : 1 ≤ p.id) (h2 : p.id < sb.inodeCount.toNat) {T : Inode → FileSystem → Prop}
    (hT : T (I.inode p.id) s) : (fileInode sb p p.id).Ends s T E := by
  unfold fileInode
  rw [Prog.ends_bind]
  refine readEntry_ends h he ha _ ?_
  by_cases hv : e.inodeValid = true
  · rw [if_pos hv, ← hcopy hv] at *
    exact hT
  · rw [if_neg hv]
    exact readInode_ends g h h1 h2 hT

end Entries

/-! ## Truncating -/

section Truncate

variable {sb : Superblock} {s : FileSystem} {I : Image} {r : Side} {E : Exn → FileSystem → Prop}
  {e : Entry} {U : Unit → FileSystem → Prop}

theorem byteOf_hole {x p : Nat} (h : bmap I.blk (I.inode x) (p / 4096) = 0) : I.byteOf x p = 0 := by
  unfold Image.byteOf
  rw [cont_hole h]
  exact Bytes.get_zero _

/-- What `O_TRUNC` does. -/
theorem truncateFile_ends (g : Regions sb) (h : Shows sb s I r) (c : Consistent sb I)
    {file : InodeLock} (hx : I.tree.kind file.id = some .file)
    (he : r.entries file.entry.id = some e) (ha : e.addr = file.entry.addr)
    (hU : ∀ s' I', Shows sb s' I' (r.put file.id (some { e with inodeValid := false })) →
      Consistent sb I' → Truncated I file.id I' → U () s') :
    (truncateFile sb file file.id).Ends s U E := by
  generalize hxe : file.id = x at *
  have hxk : kindOf (I.inode x) = some .file := hx
  obtain ⟨hx1, hx2, hx3⟩ := c.ibit_of_kind (x := x) (by rw [hxk]; exact nofun)
  unfold truncateFile
  rw [Prog.ends_bind]
  refine changeEntry_ends h he ha _ fun s1 hs1 => ?_
  rw [show file.entry.id = x from hxe] at hs1
  rw [Prog.ends_bind]
  refine readInode_ends g hs1 hx1 hx2 ?_
  by_cases hne : (I.inode x).size ≠ 0 ∨ (I.inode x).blockCount ≠ 0
  · rw [if_pos hne, Prog.ends_bind]
    refine freeAllBlocks_ends g hs1 c.own x fun s2 L hL hs2 ho2 => ?_
    rw [Prog.ends_bind]
    refine now_ends hs2 fun t s3 hs3 => ?_
    have hid : ({ (I.inode x).emptied with size := 0, mtime := t } : Inode).id.toNat = x :=
      c.id_eq (by rw [hxk]; exact nofun)
    refine writeInode_ends g hs3 hid hx1 hx2 fun s4 hs4 => ?_
    generalize hino : ({ (I.inode x).emptied with size := 0, mtime := t } : Inode) = ino' at hs4
    have hptr : ∀ b p, ptr b ino' p = 0 := by
      intro b p
      rw [← hino]
      exact (congrFun (ptr_fields (I.inode x).emptied _ rfl rfl rfl) p).trans (ptr_emptied p)
    have hmode : ino'.mode = (I.inode x).mode := by rw [← hino]; rfl
    have hk' : kindOf ino' = some .file := (kindOf_of_mode hmode).trans hxk
    have hinode : ((I.clearDBits L).putInode x ino').inode = Function.update I.inode x ino' := rfl
    have hown : Own sb ((I.clearDBits L).putInode x ino') (Function.update I.inode x ino') ∅ := by
      have ho3 : Own sb ((I.clearDBits L).putInode x ino')
          (Function.update I.inode x (I.inode x).emptied) ∅ := ho2.congr_image rfl rfl
      refine ho3.congr_inode fun y => ?_
      by_cases hy : y = x
      · rw [hy, Function.update_self, Function.update_self]
        exact ⟨funext fun p => (hptr _ p).trans (ptr_emptied p).symm, by rw [← hino]⟩
      · rw [Function.update_of_ne hy, Function.update_of_ne hy]
        exact ⟨rfl, rfl⟩
    have hshape : ∀ b, Shaped b ino' := fun b =>
      ⟨fun i _ => hptr b (.data i), fun hd => absurd (hk'.symm.trans hd) nofun,
        fun hd => absurd (hk'.symm.trans hd) nofun⟩
    obtain ⟨hc', hch⟩ := c.changed ((I.clearDBits L).putInode x ino') hx rfl hinode hown
      (by rw [← hino]; rfl) hmode (by rw [← hino]; rfl) (hshape _) (fun _ _ _ => rfl)
      fun _ _ _ => rfl
    refine hU s4 _ hs4 hc' ⟨hch, ?_, fun p => byteOf_hole ?_⟩
    · unfold Image.sizeOf
      rw [hinode, Function.update_self, ← hino]
      rfl
    · rw [hinode, Function.update_self]
      exact hptr _ (.data _)
  · -- nothing to free
    rw [if_neg hne]
    have hs0 : (I.inode x).size = 0 := by
      by_contra h0
      exact hne (.inl h0)
    refine hU s1 I hs1 c ⟨.refl, ?_, fun p => byteOf_hole ?_⟩
    · unfold Image.sizeOf
      rw [hs0]
      rfl
    · refine (c.shaped x).ends _ ?_
      rw [hs0]
      exact Nat.zero_le _

end Truncate

/-! ## Reading -/

section Read

variable {sb : Superblock} {s : FileSystem} {I : Image} {r : Side} {E : Exn → FileSystem → Prop}
  {x : Nat}

/-- The bytes of `x` from `pos` on, `n` of them. -/
def Image.bytesOf (I : Image) (x pos n : Nat) : List UInt8 :=
  (List.range n).map fun i => I.byteOf x (pos + i)

theorem bytesOf_add (I : Image) (x pos n m : Nat) :
    I.bytesOf x pos (n + m) = I.bytesOf x pos n ++ I.bytesOf x (pos + n) m := by
  unfold Image.bytesOf
  rw [List.range_add, List.map_append, List.map_map]
  congr 1
  refine List.map_congr_left fun i _ => ?_
  rw [Function.comp_apply, Nat.add_assoc]

/-- The loop of `read_range`. -/
theorem readRangeFrom_ends (g : Regions sb) (h : Shows sb s I r) (c : Consistent sb I) (n : Nat) :
    ∀ (pos left : Nat) (Q : List UInt8 → FileSystem → Prop), left ≤ n →
      Q (I.bytesOf x pos left) s → (maxFileBytes < pos + left → E (.fsError .efbig) s) →
      (readRangeFrom sb (I.inode x) pos left n).Ends s Q E := by
  induction n with
  | zero =>
    intro pos left Q hle hQ _
    have h0 : left = 0 := by omega
    unfold readRangeFrom
    rw [if_pos h0]
    rw [h0] at hQ
    exact hQ
  | succ n ih =>
    intro pos left Q hle hQ hE
    unfold readRangeFrom
    by_cases h0 : left = 0
    · rw [if_pos h0]
      rw [h0] at hQ
      exact hQ
    rw [if_neg h0]
    dsimp only
    generalize hlen : min (4096 - pos % 4096) left = len
    have hlen0 : 0 < len ∧ len ≤ left ∧ pos % 4096 + len ≤ 4096 := by omega
    rw [Prog.ends_bind]
    by_cases hi : pos / 4096 < maxFileBlocks
    · refine bmapRead_ends g h c.own hi ?_
      have hrest : ∀ bytes : List UInt8, bytes = I.bytesOf x pos len →
          (readRangeFrom sb (I.inode x) (pos + len) (left - len) n).Ends s
            (fun rest s' => Q (bytes ++ rest) s') E := by
        intro bytes hb
        refine ih (pos + len) (left - len) _ (by omega) ?_ fun hlt => hE (by omega)
        rw [hb, ← bytesOf_add, show len + (left - len) = left by omega]
        exact hQ
      have hbyte : ∀ i < len, I.byteOf x (pos + i)
          = (cont I.blk (I.inode x) (pos / 4096)).get (pos % 4096 + i) := by
        intro i hi
        unfold Image.byteOf
        rw [show (pos + i) / 4096 = pos / 4096 by omega,
          show (pos + i) % 4096 = pos % 4096 + i by omega]
      by_cases hb : bmap I.blk (I.inode x) (pos / 4096) = 0
      · rw [if_pos hb]
        simp only [Prog.ends_bind, Prog.ends_pure]
        refine hrest _ ?_
        unfold Image.bytesOf
        refine (List.ext_getElem (by simp) fun i h1 h2 => ?_)
        rw [List.getElem_replicate, List.getElem_map, List.getElem_range,
          hbyte i (by simpa using h1), cont_hole hb]
        exact (Bytes.get_zero _).symm
      · have hr := c.own.range x (.data (pos / 4096)) hb
        rw [if_neg hb, Prog.ends_bind]
        refine readBlock_ends g h hr.1 hr.2 ?_
        simp only [Prog.ends_bind, Prog.ends_pure]
        refine hrest _ ?_
        unfold Image.bytesOf
        refine List.map_congr_left fun i hi => ?_
        rw [hbyte i (List.mem_range.mp hi), cont_block hb]
        rfl
    · refine bmapRead_efbig (by omega) (hE ?_)
      unfold maxFileBytes
      omega

/-- How many bytes there are from `pos` on, at most `n`. -/
def readable (size pos n : Nat) : Nat := min (size - pos) n

/-- `read_range`. -/
theorem readRange_ends (g : Regions sb) (h : Shows sb s I r) (c : Consistent sb I) {pos n : Nat}
    {Q : List UInt8 → FileSystem → Prop}
    (hQ : Q (I.bytesOf x pos (readable (I.sizeOf x) pos n)) s)
    (hE : maxFileBytes < I.sizeOf x → E (.fsError .efbig) s) :
    (readRange sb (I.inode x) pos n).Ends s Q E := by
  unfold readRange
  by_cases hp : pos ≥ (I.inode x).size.toNat
  · rw [if_pos hp]
    have h0 : readable (I.sizeOf x) pos n = 0 := by
      unfold readable Image.sizeOf
      omega
    rw [h0] at hQ
    exact hQ
  · rw [if_neg hp]
    refine readRangeFrom_ends g h c _ _ _ _ (le_refl _) hQ fun hlt => hE ?_
    unfold Image.sizeOf
    omega

end Read

/-! ## Writing -/

/-- How far one chunk of a write to `x` has come: the bytes from `pos` up to `at_` are written, in
    an image `I` whose inode table still has the inode from the start of the chunk, `I0`'s. -/
structure Progress (sb : Superblock) (I0 : Image) (x pos : Nat) (src : Nat → UInt8) (I : Image)
    (ino : Inode) (at_ : Nat) (changed : Bool) : Prop where
  own : Own sb I (Function.update I0.inode x ino) ∅
  super : I.super = I0.super
  ibit : I.ibit = I0.ibit
  inode : I.inode = I0.inode
  same : SameMeta (I0.inode x) ino
  bytes : ∀ p, (cont I.blk ino (p / 4096)).get (p % 4096)
    = if pos ≤ p ∧ p < at_ then src p else I0.byteOf x p
  holes : ∀ i, bmap I.blk ino i ≠ 0 →
    bmap I0.blk (I0.inode x) i ≠ 0 ∨ (pos < at_ ∧ 4096 * i < at_)
  frame : ∀ y, y ≠ x → ∀ p, ptr I.blk (I0.inode y) p = ptr I0.blk (I0.inode y) p
  others : ∀ y, y ≠ x → ∀ i, cont I.blk (I0.inode y) i = cont I0.blk (I0.inode y) i
  still : changed = false → ino = I0.inode x
  idle : at_ = pos → I = I0 ∧ changed = false

section Write

variable {sb : Superblock} {s : FileSystem} {I0 I : Image} {r : Side} {E : Exn → FileSystem → Prop}
  {x pos : Nat} {src : Nat → UInt8}

theorem Progress.start (c : Consistent sb I0) : Progress sb I0 x pos src I0 (I0.inode x)
    pos false where
  own := by
    rw [update_same]
    exact c.own
  super := rfl
  ibit := rfl
  inode := rfl
  same := ⟨rfl, rfl, rfl, rfl, rfl, rfl⟩
  bytes p := by
    rw [if_neg (by omega)]
    rfl
  holes i h0 := .inl h0
  frame _ _ _ := rfl
  others _ _ _ := rfl
  still _ := rfl
  idle _ := ⟨rfl, rfl⟩

/-- The bytes of a block after `len` of them, from `off` on, were overwritten. -/
theorem get_patch_src (b : Block) {off len j : Nat} (f : Nat → UInt8) (hj : j < 4096) :
    (b.patch off fun i : Fin len => f i).get j
      = if off ≤ j ∧ j < off + len then f (j - off) else b.get j := by
  rw [Bytes.get_patch _ _ _ hj]
  by_cases h : off ≤ j ∧ j < off + len
  · rw [if_pos h, if_pos h, Bytes.get_of_lt _ (by omega)]
  · rw [if_neg h, if_neg h]

/-- One round of the block loop. -/
theorem Progress.next {ino : Inode} {at_ len : Nat} {changed : Bool} {I' : Image} {m : Mapped}
    (hp : Progress sb I0 x pos src I ino at_ changed) (hpos : pos ≤ at_) (hlen : 0 < len)
    (hfit : at_ % 4096 + len ≤ 4096)
    (ho : Own sb I' (Function.update (Function.update I0.inode x ino) x m.ino) ∅)
    (hg : Grew I (Function.update I0.inode x ino) x (at_ / 4096) I' m) {old : Block}
    (hold : old = (if m.fresh || (at_ % 4096 == 0 && len == 4096) then Bytes.zero 4096
      else I'.blk m.block)) :
    Progress sb I0 x pos src
      (I'.putBlk m.block (old.patch (at_ % 4096) fun i : Fin len => src (at_ + i)))
      m.ino (at_ + len)
      (changed || m.fresh) := by
  have hV : Function.update I0.inode x ino x = ino := Function.update_self _ _ _
  have hVy : ∀ y, y ≠ x → Function.update I0.inode x ino y = I0.inode y := fun y hy =>
    Function.update_of_ne hy _ _
  obtain ⟨ho', hw⟩ := hg.wrote ho (old.patch (at_ % 4096) fun i : Fin len => src (at_ + i))
  rw [Function.update_idem] at ho'
  -- what the block reads as, whichever way its old contents were taken
  have hdata : ∀ j < 4096, (old.patch (at_ % 4096) fun i : Fin len => src (at_ + i)).get j
      = if at_ % 4096 ≤ j ∧ j < at_ % 4096 + len then src (at_ + (j - at_ % 4096))
        else (cont I.blk ino (at_ / 4096)).get j := by
    intro j hj
    rw [get_patch_src old (fun i => src (at_ + i)) hj]
    by_cases hin : at_ % 4096 ≤ j ∧ j < at_ % 4096 + len
    · rw [if_pos hin, if_pos hin]
    · rw [if_neg hin, if_neg hin]
      have hwhole : (at_ % 4096 == 0 && len == 4096) = false := by
        rw [Bool.and_eq_false_iff, beq_eq_false_iff_ne, beq_eq_false_iff_ne]
        by_contra hc
        push Not at hc
        exact hin (by omega)
      have hgo := hg.old
      rw [hV] at hgo
      rw [hold, hwhole, Bool.or_false, hgo]
  generalize hI'' : I'.putBlk m.block (old.patch (at_ % 4096) fun i : Fin len =>
    src (at_ + i)) = I''
    at ho' hw
  refine ⟨ho', hw.super.trans hp.super, hw.ibit.trans hp.ibit, hw.inode.trans hp.inode, ?_,
    fun p => ?_, fun i hi => ?_, fun y hy p => ?_, fun y hy i => ?_, fun hch => ?_,
    fun hat => absurd hat (by omega)⟩
  · have h1 := hp.same
    have h2 := hw.same
    rw [hV] at h2
    exact ⟨h2.id.trans h1.id, h2.mode.trans h1.mode, h2.linkCount.trans h1.linkCount,
      h2.size.trans h1.size, h2.mtime.trans h1.mtime, h2.pad.trans h1.pad⟩
  · have hbytes := hp.bytes p
    by_cases hpi : p / 4096 = at_ / 4096
    · rw [hpi, hw.here, hdata _ (Nat.mod_lt _ (by omega))]
      rw [hpi] at hbytes
      by_cases hin : at_ % 4096 ≤ p % 4096 ∧ p % 4096 < at_ % 4096 + len
      · rw [if_pos hin, if_pos (by omega), show at_ + (p % 4096 - at_ % 4096) = p by omega]
      · rw [if_neg hin, hbytes]
        by_cases hlt : pos ≤ p ∧ p < at_
        · rw [if_pos hlt, if_pos (by omega)]
        · rw [if_neg hlt, if_neg (by omega)]
    · have hrest := hw.rest (p / 4096) hpi
      rw [hV] at hrest
      rw [hrest, hbytes]
      by_cases hlt : pos ≤ p ∧ p < at_
      · rw [if_pos hlt, if_pos (by omega)]
      · rw [if_neg hlt, if_neg (by omega)]
  · by_cases hia : i = at_ / 4096
    · exact .inr (by omega)
    · have hh := hw.holes i hia
      rw [hV] at hh
      rw [hh] at hi
      rcases hp.holes i hi with h1 | h1
      · exact .inl h1
      · exact .inr (by omega)
  · have := hw.frame y hy p
    rw [hVy y hy] at this
    rw [this, hp.frame y hy]
  · have := hw.others y hy i
    rw [hVy y hy] at this
    rw [this, hp.others y hy]
  · rw [Bool.or_eq_false_iff] at hch
    rw [(hg.stale hch.2).2, hV, hp.still hch.1]

/-! ### What a chunk writes -/

/-- The blocks on the way to the 16 file blocks from `lo` on, and the bitmap blocks with their
    bits. -/
def Near (sb : Superblock) (blk : Nat → Block) (ino : Inode) (lo : Nat) : Set Nat :=
  {B | ∃ i, lo ≤ i ∧ i < lo + 16 ∧ ∃ p ∈ path i, ptr blk ino p ≠ 0 ∧
    (B = ptr blk ino p ∨ B = sb.dataBitmapStart.toNat + ptr blk ino p / 32768)}

/-- The positions on the way to these file blocks: one for each, the two roots, and no more than two
    blocks of the second level. -/
def spots (lo : Nat) : Finset Pos :=
  (Finset.range 16).image (fun k => .data (lo + k)) ∪
    {.single, .double, .second ((lo - 1036) / 1024), .second ((lo + 15 - 1036) / 1024)}

theorem mem_spots {lo i : Nat} {p : Pos} (h1 : lo ≤ i) (h2 : i < lo + 16) (hp : p ∈ path i) :
    p ∈ spots lo := by
  have hdata : Pos.data i ∈ spots lo := by
    refine Finset.mem_union_left _ (Finset.mem_image.mpr ⟨i - lo, ?_, ?_⟩)
    · exact Finset.mem_range.mpr (by omega)
    · rw [show lo + (i - lo) = i by omega]
  rcases Nat.lt_or_ge i 12 with h | h
  · rw [path_lt h, List.mem_singleton] at hp
    exact hp ▸ hdata
  rcases Nat.lt_or_ge i 1036 with h' | h'
  · rw [path_single h h'] at hp
    rcases List.mem_cons.mp hp with rfl | hp
    · exact Finset.mem_union_right _ (by simp)
    · exact (List.mem_singleton.mp hp) ▸ hdata
  · rw [path_double h'] at hp
    rcases List.mem_cons.mp hp with rfl | hp
    · exact Finset.mem_union_right _ (by simp)
    rcases List.mem_cons.mp hp with rfl | hp
    · -- 16 file blocks in a row lie below two blocks of the second level at most
      have hj : (i - 1036) / 1024 = (lo - 1036) / 1024 ∨
          (i - 1036) / 1024 = (lo + 15 - 1036) / 1024 := by omega
      refine Finset.mem_union_right _ ?_
      rcases hj with hj | hj <;> simp [hj]
    · exact (List.mem_singleton.mp hp) ▸ hdata

theorem card_spots (lo : Nat) : (spots lo).card ≤ 20 := by
  refine (Finset.card_union_le _ _).trans ?_
  have h1 : ((Finset.range 16).image fun k => Pos.data (lo + k)).card ≤ 16 :=
    Finset.card_image_le.trans (by rw [Finset.card_range])
  have h2 : ({.single, .double, .second ((lo - 1036) / 1024),
      .second ((lo + 15 - 1036) / 1024)} : Finset Pos).card ≤ 4 := Finset.card_le_four
  omega

/-- They are few. -/
theorem near_subset (sb : Superblock) (blk : Nat → Block) (ino : Inode) (lo : Nat) :
    ∃ F : Finset Nat, F.card ≤ 40 ∧ Near sb blk ino lo ⊆ F := by
  refine ⟨(spots lo).image (ptr blk ino) ∪
    (spots lo).image fun p => sb.dataBitmapStart.toNat + ptr blk ino p / 32768, ?_, ?_⟩
  · refine (Finset.card_union_le _ _).trans ?_
    have h1 : ((spots lo).image (ptr blk ino)).card ≤ 20 :=
      Finset.card_image_le.trans (card_spots lo)
    have h2 : ((spots lo).image fun p =>
        sb.dataBitmapStart.toNat + ptr blk ino p / 32768).card ≤ 20 :=
      Finset.card_image_le.trans (card_spots lo)
    omega
  · rintro B ⟨i, h1, h2, p, hp, -, rfl | rfl⟩
    · exact Finset.mem_coe.mpr (Finset.mem_union_left _
        (Finset.mem_image_of_mem _ (mem_spots h1 h2 hp)))
    · exact Finset.mem_coe.mpr (Finset.mem_union_right _
        (Finset.mem_image.mpr ⟨p, mem_spots h1 h2 hp, rfl⟩))

/-- Getting from `s` to `s'`, no more than `n` blocks were written. -/
def WroteFew (s s' : FileSystem) (n : Nat) : Prop :=
  ∃ S, Writes s s' S ∧ ∃ F : Finset Nat, F.card ≤ n ∧ S ⊆ F

/-- From `s0` to `s` only blocks near `lo` were written, besides the bitmap blocks of `L`. -/
def WroteNear (sb : Superblock) (s0 s : FileSystem) (blk : Nat → Block) (ino : Inode) (lo : Nat)
    (L : List Nat) : Prop :=
  ∃ S, Writes s0 s S ∧ S ⊆ Near sb blk ino lo ∪ bitmapBlocks sb L

theorem data_mem_path (i : Nat) : Pos.data i ∈ path i := by
  unfold path
  split
  · exact List.mem_singleton_self _
  · split <;> simp

theorem parent_mem_path {i k : Nat} {p q : Pos} (hp : p ∈ path i) (h : p.parent = some (q, k)) :
    q ∈ path i := by
  rcases Pos.parent_eq_some h with ⟨j, rfl, h1, h2, rfl, -⟩ | ⟨j, rfl, h1, h2, rfl, -⟩ |
    ⟨rfl, -, rfl⟩
  · obtain rfl : j = i := by
      unfold path at hp
      split at hp
      · simpa using hp
      · split at hp <;> simpa using hp
    rw [path_single h1 h2]
    exact List.mem_cons_self
  · obtain rfl : j = i := by
      unfold path at hp
      split at hp
      · simpa using hp
      · split at hp <;> simpa using hp
    rw [path_double h1]
    simp
  · unfold path at hp ⊢
    split at hp
    · simp at hp
    · split at hp
      · simp at hp
      · rename_i h12 h1036
        rw [if_neg h12, if_neg h1036]
        exact List.mem_cons_self

/-- One block more. -/
theorem WroteNear.next {s0 s' s'' : FileSystem} {V : Nat → Inode} {X : Set Nat} {index lo : Nat}
    {I' : Image} {m : Mapped} {N : List (Pos × Nat)} (g : Regions sb)
    (hw : WroteNear sb s0 s I.blk (V x) lo []) (ht : Took sb s I (V x) index s' I' m N)
    (hg : Grew I V x index I' m) (ho' : Own sb I' (Function.update V x m.ino) X)
    (h1 : lo ≤ index) (h2 : index < lo + 16) (data : Block) (hput : Writes s' s'' {m.block}) :
    WroteNear sb s0 s'' (I'.putBlk m.block data).blk m.ino lo [] := by
  obtain ⟨S, hS, hsub⟩ := hw
  rw [bitmapBlocks_nil, Set.union_empty] at hsub
  have hptr : ∀ p, ptr (I'.putBlk m.block data).blk m.ino p = ptr I'.blk m.ino p := fun p => by
    have := hg.ptr_wrote ho' data x p
    rwa [Function.update_self] at this
  have hnear : ∀ {B i : Nat} {p : Pos}, lo ≤ i → i < lo + 16 → p ∈ path i →
      ptr I'.blk m.ino p ≠ 0 →
      (B = ptr I'.blk m.ino p ∨ B = sb.dataBitmapStart.toNat + ptr I'.blk m.ino p / 32768) →
      B ∈ Near sb (I'.putBlk m.block data).blk m.ino lo := by
    intro B i p hi1 hi2 hp h0 hB
    rw [← hptr p] at h0 hB
    exact ⟨i, hi1, hi2, p, hp, h0, hB⟩
  have hnew : ∀ n ∈ N, 0 < n.2 := fun n hn => by
    have hpos := (ht.free n.2 (List.mem_map_of_mem hn)).1
    have ho := g.order
    omega
  refine ⟨_, (hS.trans ht.writes).trans hput, ?_⟩
  rw [bitmapBlocks_nil, Set.union_empty]
  rintro B ((hB | hB | hB) | rfl)
  · -- what was there is still there
    obtain ⟨i, hi1, hi2, p, hp, h0, hB⟩ := hsub hB
    have hold : ptr I'.blk m.ino p = ptr I.blk (V x) p := by
      refine ht.old p fun hn => ?_
      obtain ⟨n, hnN, hnp⟩ := List.mem_map.mp hn
      rw [← hnp] at h0
      exact h0 (ht.new n hnN).2.1
    rw [← hold] at h0 hB
    exact hnear hi1 hi2 hp h0 hB
  · -- a new block's bit
    obtain ⟨b, hb, rfl⟩ := hB
    obtain ⟨n, hn, rfl⟩ := List.mem_map.mp hb
    obtain ⟨hpath, -, hn2⟩ := ht.new n hn
    have hpos := hnew n hn
    refine hnear h1 h2 hpath ?_ (.inr ?_)
    · rw [hn2]
      omega
    · rw [hn2]
  · -- where its pointer is
    obtain ⟨n, hn, q, k, hq, rfl⟩ := hB
    obtain ⟨hpath, -, hn2⟩ := ht.new n hn
    have hpos := hnew n hn
    refine hnear h1 h2 (parent_mem_path hpath hq) (fun h0 => ?_) (.inl rfl)
    rw [ptr_of_parent hq, if_pos h0] at hn2
    omega
  · have hb : ptr I'.blk m.ino (.data index) = m.block := hg.block
    refine hnear h1 h2 (data_mem_path index) ?_ (.inl hb.symm)
    rw [hb]
    exact hg.nonzero

/-- No more than 42 blocks, where two besides the blocks near `lo` were taken and given back. -/
theorem WroteNear.few {s0 s' : FileSystem} {blk : Nat → Block} {ino : Inode} {lo : Nat}
    {L : List Nat} (h : WroteNear sb s0 s blk ino lo L) (hL : L.length ≤ 2) {T : Set Nat}
    {G : Finset Nat} (hT : Writes s s' T) (hG : T ⊆ G) : WroteFew s0 s' (42 + G.card) := by
  obtain ⟨S, hS, hsub⟩ := h
  obtain ⟨F, hF, hnear⟩ := near_subset sb blk ino lo
  have hbits : bitmapBlocks sb L
      ⊆ (L.toFinset.image fun b => sb.dataBitmapStart.toNat + b / 32768 : Finset Nat) := by
    rintro B ⟨b, hb, rfl⟩
    exact Finset.mem_coe.mpr (Finset.mem_image.mpr ⟨b, List.mem_toFinset.mpr hb, rfl⟩)
  have hcard : (L.toFinset.image fun b => sb.dataBitmapStart.toNat + b / 32768).card ≤ 2 :=
    Finset.card_image_le.trans ((List.toFinset_card_le L).trans hL)
  refine ⟨S ∪ T, hS.trans hT, F ∪ (L.toFinset.image fun b => sb.dataBitmapStart.toNat + b / 32768)
    ∪ G, ?_, ?_⟩
  · have h1 := Finset.card_union_le (F ∪ L.toFinset.image fun b =>
      sb.dataBitmapStart.toNat + b / 32768) G
    have h2 := Finset.card_union_le F (L.toFinset.image fun b =>
      sb.dataBitmapStart.toNat + b / 32768)
    omega
  · rw [Finset.coe_union, Finset.coe_union]
    exact Set.union_subset_union (hsub.trans (Set.union_subset_union hnear hbits)) hG

/-- The block loop of one chunk: it comes to `chunkEnd`, or as far as the disk has room. -/
theorem writeBlocks_ends (I0 : Image) (x pos : Nat) (g : Regions sb) {chunkEnd : Nat}
    (hend : chunkEnd ≤ maxFileBytes) (hspan : chunkEnd ≤ (pos / 4096 + 16) * 4096)
    (s0 : FileSystem) {Q : ChunkEnd → FileSystem → Prop}
    (hQ : ∀ c s' I', Shows sb s' I' r → Progress sb I0 x pos src I' c.ino c.at_ c.changed →
      pos ≤ c.at_ → c.at_ ≤ chunkEnd → (c.diskFull = false → c.at_ = chunkEnd) →
      (c.diskFull = true → c.at_ < chunkEnd ∧ bmap I'.blk c.ino (c.at_ / 4096) = 0 ∧
        freeCount sb I' < holes I'.blk c.ino (c.at_ / 4096)) →
      (∃ L : List Nat, L.length ≤ 2 ∧ WroteNear sb s0 s' I'.blk c.ino (pos / 4096) L) →
      Q c s') (n : Nat) :
    ∀ (s : FileSystem) (I : Image) (ino : Inode) (at_ : Nat) (changed : Bool), Shows sb s I r →
      Progress sb I0 x pos src I ino at_ changed → pos ≤ at_ → at_ ≤ chunkEnd →
      WroteNear sb s0 s I.blk ino (pos / 4096) [] →
      chunkEnd - at_ ≤ n → (writeBlocks sb src chunkEnd ino at_ changed n).Ends s Q E := by
  induction n with
  | zero =>
    intro s I ino at_ changed h hp h1 h2 hw hn
    have hge : at_ ≥ chunkEnd := by omega
    unfold writeBlocks
    rw [if_pos hge]
    exact hQ _ s I h hp h1 h2 (fun _ => by show at_ = chunkEnd; omega) (by intros; contradiction)
      ⟨[], Nat.zero_le 2, hw⟩
  | succ n ih =>
    intro s I ino at_ changed h hp h1 h2 hw hn
    unfold writeBlocks
    by_cases hge : at_ ≥ chunkEnd
    · rw [if_pos hge]
      exact hQ _ s I h hp h1 h2 (fun _ => by show at_ = chunkEnd; omega) (by intros; contradiction)
        ⟨[], Nat.zero_le 2, hw⟩
    rw [if_neg hge]
    dsimp only
    generalize hlen : min (4096 - at_ % 4096) (chunkEnd - at_) = len
    have hV : Function.update I0.inode x ino x = ino := Function.update_self _ _ _
    have hi : at_ / 4096 < maxFileBlocks := by
      unfold maxFileBytes at hend
      omega
    rw [Prog.ends_bind, Prog.ends_catch, Prog.ends_bind]
    rw [show bmapAlloc sb ino (at_ / 4096)
      = bmapAlloc sb (Function.update I0.inode x ino x) (at_ / 4096) by rw [hV]]
    refine bmapAlloc_writes g h hp.own x hi (fun m s' I' N hs' ho' hg ht => ?_)
      fun L s' hL hs' hwL hole hlt => ?_
    · -- the block is there: write it and go on
      rw [Prog.ends_pure]
      dsimp only
      rw [Prog.ends_bind]
      have hr := ho'.range x (.data (at_ / 4096))
      rw [Function.update_self,
        show ptr I'.blk m.ino (.data (at_ / 4096)) = m.block from hg.block] at hr
      obtain ⟨hr1, hr2⟩ := hr hg.nonzero
      refine writeBlock_writes g hs' hr1 hr2 _ _ fun s'' hs'' hput => ?_
      exact ih s'' _ m.ino (at_ + len) (changed || m.fresh) hs''
        (hp.next h1 (by omega) (by omega) ho' hg rfl) (by omega) (by omega)
        (WroteNear.next g (by rw [hV]; exact hw) ht hg ho' (by omega) (by omega) _ hput) (by omega)
    · -- the disk is full: keep what is written so far
      rw [hV] at hole hlt
      rw [if_pos rfl, Prog.ends_pure]
      obtain ⟨S, hS, hsub⟩ := hw
      rw [bitmapBlocks_nil, Set.union_empty] at hsub
      exact hQ ⟨ino, at_, changed, true⟩ s' I hs' hp h1 h2 (by intros; contradiction) (fun _ =>
        ⟨by show at_ < chunkEnd; omega, hole, hlt⟩)
        ⟨L, hL, _, hS.trans hwL, Set.union_subset_union hsub (le_refl _)⟩

/-- How a chunk of a write leaves the image: the inode is written only if it has changed. -/
theorem Progress.finish (c : Consistent sb I0) (hx : I0.tree.kind x = some .file)
    {ino ino' : Inode} {at_ : Nat} {changed changed' : Bool}
    (hp : Progress sb I0 x pos src I ino at_ changed) (hpos : pos ≤ at_)
    (hid : ino'.id = ino.id) (hmode : ino'.mode = ino.mode) (hlink : ino'.linkCount = ino.linkCount)
    (hptr : ∀ b, ptr b ino' = ptr b ino) (hcount : ino'.blockCount = ino.blockCount)
    (hsize : ino'.size.toNat = if at_ = pos then ino.size.toNat else max ino.size.toNat at_)
    (hstill : changed' = false → ino' = I0.inode x) {I' : Image}
    (hI' : I' = if changed' then I.putInode x ino' else I) :
    Consistent sb I' ∧ I'.inode x = ino' ∧
      Written I0 x pos ((List.range (at_ - pos)).map fun i => src (pos + i)) I' := by
  have hxk : kindOf (I0.inode x) = some .file := hx
  have hinode : I'.inode = Function.update I0.inode x ino' := by
    rw [hI']
    by_cases hch : changed' = true
    · rw [if_pos hch]
      show Function.update I.inode x ino' = _
      rw [hp.inode]
    · rw [Bool.not_eq_true] at hch
      rw [if_neg (by rw [hch]; exact Bool.false_ne_true), hstill hch, update_same, hp.inode]
  have hblk : I'.blk = I.blk := by
    rw [hI']
    split <;> rfl
  have hrest : I'.ibit = I.ibit ∧ I'.dbit = I.dbit := by
    rw [hI']
    split <;> exact ⟨rfl, rfl⟩
  have hmode' : ino'.mode = (I0.inode x).mode := hmode.trans hp.same.mode
  have hk' : kindOf ino' = some .file := (kindOf_of_mode hmode').trans hxk
  have hsize' : (I0.inode x).size.toNat ≤ ino'.size.toNat ∧
      (pos < at_ → at_ ≤ ino'.size.toNat) := by
    rw [hsize, ← hp.same.size]
    split <;> omega
  have hown : Own sb I' I'.inode ∅ := by
    rw [hinode]
    have ho : Own sb I' (Function.update I0.inode x ino) ∅ := hp.own.congr_image hblk hrest.2
    refine ho.congr_inode fun y => ?_
    by_cases hy : y = x
    · rw [hy, Function.update_self, Function.update_self]
      exact ⟨hptr _, hcount⟩
    · rw [Function.update_of_ne hy, Function.update_of_ne hy]
      exact ⟨rfl, rfl⟩
  have hshape : Shaped I'.blk ino' := by
    refine ⟨fun i hi => ?_, fun hd => absurd (hk'.symm.trans hd) nofun,
      fun hd => absurd (hk'.symm.trans hd) nofun⟩
    by_contra h0
    have hb : bmap I'.blk ino' i = bmap I.blk ino i := by
      rw [hblk]
      exact congrFun (hptr _) (.data i)
    rw [hb] at h0
    rcases hp.holes i h0 with h1 | h1
    · exact h1 ((c.shaped x).ends i (by omega))
    · have := hsize'.2 h1.1
      omega
  obtain ⟨hc', hch⟩ := c.changed I' hx (hrest.1.trans hp.ibit) hinode hown
    (hid.trans hp.same.id) hmode' (hlink.trans hp.same.linkCount) hshape
    (fun y hy i => by rw [hblk]; exact hp.frame y hy (.data i))
    fun y hy i => by rw [hblk]; exact hp.others y hy i
  have hinodex : I'.inode x = ino' := by rw [hinode, Function.update_self]
  have hlen : ((List.range (at_ - pos)).map fun i => src (pos + i)).length = at_ - pos := by
    rw [List.length_map, List.length_range]
  refine ⟨hc', hinodex, hch, ?_, fun p => ?_⟩
  · unfold Image.sizeOf
    rw [hinodex, hsize, hlen, hp.same.size]
    by_cases h0 : at_ = pos
    · rw [if_pos h0, if_pos]
      rw [h0, Nat.sub_self]
      rfl
    · rw [if_neg h0, if_neg, show pos + (at_ - pos) = at_ by omega]
      intro hnil
      rw [hnil] at hlen
      exact h0 (by simp at hlen; omega)
  · have hb := hp.bytes p
    have hcont : cont I'.blk (I'.inode x) = cont I.blk ino := by
      rw [hinodex, hblk]
      exact cont_of_ptr (hptr _)
    unfold Image.byteOf
    rw [hcont, hb, hlen]
    by_cases hin : pos ≤ p ∧ p < at_
    · rw [if_pos hin, if_pos (by omega), List.getD_eq_getElem _ _ (by rw [hlen]; omega),
        List.getElem_map, List.getElem_range, show pos + (p - pos) = p by omega]
    · rw [if_neg hin, if_neg (by omega)]
      rfl

/-- Where a chunk starts: at the end of the file for `O_APPEND`. -/
def chunkStart (f : Snapshot) (size pos : Nat) : Nat :=
  if f.flags &&& oAppend != 0 then size else pos

/-- Where a chunk that starts at `pos`, with `left` bytes to go, is to end. -/
def chunkEnd (pos left : Nat) : Nat :=
  min (min (pos + left) ((pos / 4096 + 16) * 4096)) maxFileBytes

/-- One chunk of `vfs_write`. -/
theorem writeChunk_ends (g : Regions sb) {I : Image} (h : Shows sb s I r) (c : Consistent sb I)
    {f : Snapshot} {e : Entry} (hf : f.lock.id = f.inode) (hx : I.tree.kind f.inode = some .file)
    (he : r.entries f.inode = some e) (ha : e.addr = f.lock.addr)
    (hcopy : e.inodeValid = true → e.inode = I.inode f.inode) {n done : Nat} {start : Nat}
    (hstart : start = chunkStart f (I.sizeOf f.inode) pos) {Q : ChunkResult → FileSystem → Prop}
    (hpast : ∀ s', Shows sb s' I (r.put f.inode (some { e with inodeValid := false })) →
      WroteFew s s' 0 → maxFileBytes ≤ start → done ≠ 0 → Q (.past start) s')
    (hbig : ∀ s', Shows sb s' I (r.put f.inode (some { e with inodeValid := false })) →
      WroteFew s s' 0 → maxFileBytes ≤ start → done = 0 → E (.fsError .efbig) s')
    (hwrote : ∀ at_ full s' I', start < maxFileBytes →
      Shows sb s' I' (r.put f.inode (some
        { e with inode := I'.inode f.inode, inodeValid := true })) →
      Consistent sb I' →
      Written I f.inode start ((List.range (at_ - start)).map fun i => src (done + i)) I' →
      start ≤ at_ → at_ ≤ chunkEnd start (n - done) →
      (full = false → at_ = chunkEnd start (n - done)) →
      (full = true → at_ < chunkEnd start (n - done) ∧
        bmap I'.blk (I'.inode f.inode) (at_ / 4096) = 0 ∧
        freeCount sb I' < holes I'.blk (I'.inode f.inode) (at_ / 4096)) →
      (at_ = start → I' = I) → WroteFew s s' 43 → Q (.wrote start at_ full) s') :
    (writeChunk sb f src n pos done).Ends s Q E := by
  obtain ⟨x, flags, lock⟩ := f
  obtain ⟨id, addr⟩ := lock
  dsimp only at *
  subst hf
  have hxk : kindOf (I.inode id) = some .file := hx
  obtain ⟨hx1, hx2, hx3⟩ := c.ibit_of_kind (x := id) (by rw [hxk]; exact nofun)
  unfold writeChunk
  rw [Prog.ends_bind]
  refine fileInode_ends (p := ⟨id, addr⟩) g h he ha hcopy hx1 hx2 ?_
  rw [Prog.ends_bind]
  refine changeEntry_writes (p := ⟨id, addr⟩) h he ha _ fun s1 hs1 hw1 => ?_
  have hnone : WroteFew s s1 0 :=
    ⟨∅, hw1, ∅, le_of_eq Finset.card_empty, Set.empty_subset _⟩
  dsimp only at hs1 ⊢
  rw [show (if flags &&& oAppend != 0 then (I.inode id).size.toNat else pos)
    = start from hstart.symm]
  by_cases hbigp : start ≥ maxFileBytes
  · rw [if_pos hbigp]
    by_cases hd : done = 0
    · rw [if_pos hd]
      exact hbig s1 hs1 hnone hbigp hd
    · rw [if_neg hd]
      exact hpast s1 hs1 hnone hbigp hd
  rw [if_neg hbigp, Prog.ends_bind]
  have hend : start ≤ chunkEnd start (n - done) := by
    unfold chunkEnd
    omega
  refine writeBlocks_ends I id start g (min_le_right _ _)
    ((min_le_left _ _).trans (min_le_right _ _)) s
    (fun ce s2 I2 hs2 hp h1 h2 hnf hful ⟨L, hL, hnear⟩ => ?_) _ s1 I (I.inode id) start false hs1
    (.start c) (le_refl _) hend ⟨∅, hw1, Set.empty_subset _⟩ (le_refl _)
  have hfinish : ∀ (ino' : Inode) (changed' : Bool) (s3 : FileSystem),
      Shows sb s3 I2 (r.put id (some { e with inodeValid := false })) → Writes s2 s3 ∅ →
      ino'.id = ce.ino.id →
      ino'.mode = ce.ino.mode → ino'.linkCount = ce.ino.linkCount →
      (∀ b, ptr b ino' = ptr b ce.ino) → ino'.blockCount = ce.ino.blockCount →
      (ino'.size.toNat = if ce.at_ = start then ce.ino.size.toNat
        else max ce.ino.size.toNat ce.at_) →
      (changed' = false → ino' = I.inode id) → (ce.at_ = start → changed' = false) →
      (do
        if changed' then writeInode sb ino'
        changeEntry ⟨id, addr⟩ fun e => { e with inode := ino', inodeValid := true }
        return ChunkResult.wrote start ce.at_ ce.diskFull : Fs ChunkResult).Ends s3 Q E := by
    intro ino' changed' s3 hs3 hw3 hid hmode hlink hptr hcount hsize hstill hidle
    have hdone : ∀ s4 I4 T, Shows sb s4 I4 (r.put id (some { e with inodeValid := false })) →
        Writes s3 s4 T → T ⊆ {inodeBlock sb id} →
        I4 = (if changed' then I2.putInode id ino' else I2) →
        (do
          changeEntry ⟨id, addr⟩ fun e => { e with inode := ino', inodeValid := true }
          return ChunkResult.wrote start ce.at_ ce.diskFull : Fs ChunkResult).Ends s4 Q E := by
      intro s4 I4 T hs4 hw4 hT hI4
      obtain ⟨hc4, hino4, hwr⟩ := hp.finish c hx h1 hid hmode hlink hptr hcount hsize hstill hI4
      rw [Prog.ends_bind]
      refine changeEntry_writes (p := ⟨id, addr⟩) hs4 (Side.put_entries_self _ _ _) ha _
        fun s5 hs5 hw5 => ?_
      have hfew : WroteFew s s5 43 := hnear.few hL (G := {inodeBlock sb id})
        ((hw3.trans hw4).trans hw5) (by simpa using hT)
      rw [Side.put_put, ← hino4] at hs5
      have hblk : I4.blk = I2.blk ∧ freeCount sb I4 = freeCount sb I2 := by
        rw [hI4]
        split <;> exact ⟨rfl, rfl⟩
      refine hwrote ce.at_ ce.diskFull s5 I4 (by omega) hs5 hc4 ?_ h1 h2 hnf (fun hfull => ?_)
        (fun hat => ?_) hfew
      · have heq : ((List.range (ce.at_ - start)).map fun i => src (done + (start + i - start)))
            = (List.range (ce.at_ - start)).map fun i => src (done + i) :=
          List.map_congr_left fun i _ => by rw [show start + i - start = i by omega]
        rw [← heq]
        exact hwr
      · obtain ⟨f1, f2, f3⟩ := hful hfull
        have hholes : holes I2.blk ino' = holes I2.blk ce.ino := by
          unfold holes
          rw [hptr]
        rw [hino4, hblk.1, hblk.2, hholes]
        exact ⟨f1, (congrFun (hptr I2.blk) (.data _)).trans f2, f3⟩
      · rw [hI4, hidle hat, if_neg Bool.false_ne_true, (hp.idle hat).1]
    by_cases hch : changed' = true
    · rw [if_pos hch, Prog.ends_bind]
      refine writeInode_writes g hs3 (?_ : ino'.id.toNat = id) hx1 hx2 fun s4 hs4 hw4 =>
        hdone s4 _ _ hs4 hw4 (le_refl _) ?_
      · rw [hid, hp.same.id]
        exact c.id_eq (by rw [hxk]; exact nofun)
      · rw [if_pos hch]
    · rw [if_neg hch]
      exact hdone s3 I2 ∅ hs3 (.refl s3) (Set.empty_subset _) (by rw [if_neg hch])
  by_cases hat : ce.at_ > start
  · rw [if_pos hat]
    simp only [Prog.ends_bind]
    refine now_writes hs2 fun t s3 hs3 hw3 => ?_
    simp only [Prog.ends_pure]
    have hlt64 : ce.at_ < 2 ^ 64 := by
      have : chunkEnd start (n - done) ≤ maxFileBytes := min_le_right _ _
      unfold maxFileBytes maxFileBlocks at this
      omega
    have hne : ce.at_ ≠ start := by omega
    by_cases hgr : ce.at_ > ce.ino.size.toNat
    · refine hfinish _ _ s3 hs3 hw3 ?_ ?_ ?_ (fun b => ?_) ?_ ?_ (fun hch => ?_) fun h => absurd h hne
      · rw [decide_eq_true hgr]; rfl
      · rw [decide_eq_true hgr]; rfl
      · rw [decide_eq_true hgr]; rfl
      · rw [decide_eq_true hgr]
        exact ptr_fields _ _ rfl rfl rfl
      · rw [decide_eq_true hgr]; rfl
      · rw [decide_eq_true hgr, if_neg hne]
        show (UInt64.ofNat ce.at_).toNat = _
        rw [UInt64.toNat_ofNat_of_lt' hlt64, max_eq_right (le_of_lt hgr)]
      · rw [decide_eq_true hgr] at hch
        simp at hch
    · refine hfinish _ _ s3 hs3 hw3 ?_ ?_ ?_ (fun b => ?_) ?_ ?_ (fun hch => ?_) fun h => absurd h hne
      · rw [decide_eq_false hgr]; rfl
      · rw [decide_eq_false hgr]; rfl
      · rw [decide_eq_false hgr]; rfl
      · rw [decide_eq_false hgr]
        exact ptr_fields _ _ rfl rfl rfl
      · rw [decide_eq_false hgr]; rfl
      · rw [decide_eq_false hgr, if_neg hne]
        exact (max_eq_left (not_lt.mp hgr)).symm
      · -- nothing new, not even the time
        rw [decide_eq_false hgr] at hch ⊢
        simp only [Bool.or_false, Bool.or_eq_false_iff, bne_eq_false_iff_eq,
          Bool.false_eq_true, if_false] at hch ⊢
        rw [← hch.2, hp.still hch.1]
  · rw [if_neg hat]
    simp only [Prog.ends_bind, Prog.ends_pure]
    exact hfinish ce.ino ce.changed s2 hs2 (.refl s2) rfl rfl rfl (fun _ => rfl) rfl
      (by rw [if_pos (by omega)]) hp.still fun h => (hp.idle h).2

end Write

end ConcurrentFs
