/-
  ConcurrentFs.DirectoryMap

  One directory by itself, whatever else is on the disk (src/directory.cpp): a
  finite map from names to entries, kept in the slots of its blocks.

  `WellFormedDir` is what a directory must be; `slots` are its slots as a
  `Lib.Slots` table, and the functions of directory.cpp are read as operations on
  that: a lookup finds the slot with the name, adding fills the first free slot or
  the first of a new block, removing empties one.
-/
import ConcurrentFs.PointerTree
import ConcurrentFs.DirectorySpec
import ConcurrentFs.Mkfs
import ConcurrentFs.Lib.Slots

namespace ConcurrentFs.DirectoryMap

open Lib Lib.Slots Allocator PointerTree

variable {sb : Superblock} {s s' : FileSystem} {ino : Inode}

/-- What a slot holds: nothing, or an item. -/
def item (e : DirEntry) : Option DirItem :=
  if e.inodeId = 0 then none else some ⟨e.named, e.inodeId.toNat, e.type⟩

/-- The slots of a directory. -/
def slots (s : FileSystem) (ino : Inode) (k : Nat) : Option DirItem := item (dirEntry s.disk ino k)

/-- A directory's slots are in order: a well-formed pointer tree with no holes, legal and different
    names, zeros in the free slots. -/
structure Slotted (sb : Superblock) (s : FileSystem) (ino : Inode) : Prop where
  tree : WellFormed sb s ino
  dir : kindOf ino = some .dir
  shaped : Shaped s.disk ino
  legal : ∀ k, (dirEntry s.disk ino k).inodeId ≠ 0 → (dirEntry s.disk ino k).Legal
  free : ∀ k, (dirEntry s.disk ino k).inodeId = 0 → dirEntry s.disk ino k = .zero
  unique : Unique DirItem.name (slots s ino)

/-- A well-formed directory also has "." and ".." first. -/
structure WellFormedDir (sb : Superblock) (s : FileSystem) (ino : Inode) : Prop
    extends Slotted sb s ino where
  dot : ∃ i, slots s ino 0 = some i ∧ i.name = ConcurrentFs.dot
  dotdot : ∃ i, slots s ino 1 = some i ∧ i.name = ConcurrentFs.dotdot

/-- `dir_list` returns `L`. -/
def Lists (sb : Superblock) (s : FileSystem) (ino : Inode) (L : List DirItem) : Prop :=
  (dirList sb ino).run s = some (.ok L, s)

/-- `dir_lookup` of `name` returns inode `r.1` and type `r.2`. -/
def Looks (sb : Superblock) (s : FileSystem) (ino : Inode) (name : Name) (r : Nat × UInt8) : Prop :=
  (dirLookup sb ino name).run s = some (.ok r, s)

/-! ## Reading -/

theorem item_zero : item .zero = none := if_pos rfl

theorem item_eq_some {e : DirEntry} {i : DirItem} :
    item e = some i ↔ e.inodeId ≠ 0 ∧ i = ⟨e.named, e.inodeId.toNat, e.type⟩ := by
  unfold item
  by_cases h : e.inodeId = 0
  · simp [h]
  · simp [h, eq_comm]

theorem slots_none {k : Nat} : slots s ino k = none ↔ (dirEntry s.disk ino k).inodeId = 0 := by
  unfold slots item
  split <;> simp_all

/-- The items of one block are those of its slots. -/
theorem itemsIn_eq (b : Block) :
    itemsIn b = (List.range 64).filterMap fun j => item (slotAt b j) := by
  unfold itemsIn
  generalize List.range 64 = js
  induction js with
  | nil => rfl
  | cons j rest ih =>
    rw [List.map_cons, List.filter_cons, List.filterMap_cons]
    by_cases h : (slotAt b j).inodeId = 0
    · rw [if_neg (by simpa using h), ih, item, if_pos h]
    · rw [if_pos (by simpa using h), List.map_cons, ih, item, if_neg h]
      simp only [List.cons.injEq, DirItem.mk.injEq, and_true]
      unfold DirEntry.named
      -- the name has room for 58 bytes
      rw [List.take_eq_take_iff, List.length_ofFn]
      omega

/-- The slots of consecutive blocks, one after the other. -/
theorem flatMap_slots {β : Type} (f : Nat → Option β) (n : Nat) :
    (List.range n).flatMap (fun k => (List.range 64).filterMap fun j => f (64 * k + j))
      = items f (64 * n) := by
  induction n with
  | zero => rfl
  | succ n ih =>
    rw [List.range_succ (n := n), List.flatMap_append, ih, List.flatMap_singleton]
    unfold items
    rw [show 64 * (n + 1) = 64 * n + 64 by omega, List.range_add, List.filterMap_append,
      List.filterMap_map]
    rfl

section Reading

variable {E : Exn → FileSystem → Prop}

theorem cont_image {d : Nat → Block} (hr : InRange sb (Image.of sb d).blk ino) (i : Nat) :
    cont (Image.of sb d).blk ino i = cont d ino i := by
  have hb : bmap d ino i = bmap (Image.of sb d).blk ino i := ptr_disk hr (.data i)
  refine (cont_congr hb fun h0 => ?_).symm
  exact (if_pos (hr (.data i) h0).1).symm

theorem shaped_image {d : Nat → Block} (hr : InRange sb (Image.of sb d).blk ino)
    (h : Shaped d ino) : Shaped (Image.of sb d).blk ino :=
  h.congr (fun i => (ptr_disk hr (.data i)).symm) rfl rfl

theorem dirEntry_image {d : Nat → Block} (hr : InRange sb (Image.of sb d).blk ino) :
    dirEntry (Image.of sb d).blk ino = dirEntry d ino :=
  dirEntry_congr (cont_image hr) rfl rfl

/-- The first slot of a well-formed directory that `p` accepts. -/
theorem findSlot_dir (g : Regions sb) (hs : Synced sb s) (hd : Slotted sb s ino)
    {p : Nat → DirEntry → Bool} {Q : Option Slot → FileSystem → Prop}
    (hsome : ∀ j < 64 * blockCountOf ino, p j (dirEntry s.disk ino j) = true →
      (∀ i < j, p i (dirEntry s.disk ino i) = false) →
      Q (some ⟨bmap s.disk ino (j / 64), j % 64, dirEntry s.disk ino j⟩) s)
    (hnone : (∀ j < 64 * blockCountOf ino, p j (dirEntry s.disk ino j) = false) → Q none s) :
    (findSlot sb ino p).Ends s Q E := by
  have hr := hd.tree.inRange
  have he := dirEntry_image (d := s.disk) hr
  refine findSlot_ends g ((synced_iff g).mp hs) hr (shaped_image hr hd.shaped) hd.dir
    (fun j hj hp hfirst => ?_) fun hall => ?_
  · rw [he] at hp hfirst ⊢
    rw [show bmap (Image.of sb s.disk).blk ino (j / 64) = bmap s.disk ino (j / 64) from
      (ptr_disk hr (.data (j / 64))).symm]
    exact hsome j hj hp hfirst
  · rw [he] at hall
    exact hnone hall

theorem dirListFrom_ends (g : Regions sb) (hs : Synced sb s) (hd : Slotted sb s ino) (n : Nat) :
    ∀ k, k + n ≤ blockCountOf ino → ∀ {Q : List DirItem → FileSystem → Prop},
      Q ((List.range' k n).flatMap fun i => itemsIn (cont s.disk ino i)) s →
      (dirListFrom sb ino k n).Ends s Q E := by
  have hr := hd.tree.inRange
  induction n with
  | zero => exact fun k _ Q hQ => hQ
  | succ n ih =>
    intro k hk Q hQ
    unfold dirListFrom
    rw [Prog.ends_bind]
    refine readDirBlock_ends g ((synced_iff g).mp hs) hr
      ((shaped_image hr hd.shaped).noHole hd.dir k (by omega)) ?_
    dsimp only
    rw [Prog.ends_bind]
    refine ih (k + 1) (by omega) ?_
    rw [Prog.ends_pure, cont_image hr]
    rwa [List.range'_succ, List.flatMap_cons] at hQ

/-- `dir_list` returns what the slots hold, in their order. -/
theorem lists_items (g : Regions sb) (hs : Synced sb s) (hd : Slotted sb s ino) :
    Lists sb s ino (items (slots s ino) (64 * blockCountOf ino)) := by
  refine Prog.run_eq_ok.mpr (dirListFrom_ends g hs hd (blockCountOf ino) 0 (by omega) ⟨?_, rfl⟩)
  rw [← List.range_eq_range', ← flatMap_slots]
  refine List.flatMap_congr fun k hk => ?_
  rw [itemsIn_eq]
  refine List.filterMap_congr fun j hj => ?_
  have hk' := List.mem_range.mp hk
  have hj' := List.mem_range.mp hj
  unfold slots
  rw [dirEntry_slot hd.dir (by omega)]
  unfold slotOf
  rw [show (64 * k + j) / 64 = k by omega, show (64 * k + j) % 64 = j by omega]

theorem Lists.eq {L L' : List DirItem} (h : Lists sb s ino L)
    (h' : Lists sb s ino L') : L = L' := by
  unfold Lists at h h'
  rw [h] at h'
  cases h'
  rfl

/-- Past the last block there is nothing. -/
theorem slots_past {k : Nat} (hk : 64 * blockCountOf ino ≤ k) : slots s ino k = none := by
  unfold slots dirEntry
  rw [if_neg fun hc => by omega]
  exact item_zero

theorem mem_slots {i : DirItem} :
    i ∈ items (slots s ino) (64 * blockCountOf ino) ↔ ∃ k, slots s ino k = some i := by
  rw [Slots.mem_items]
  constructor
  · rintro ⟨k, -, hk⟩
    exact ⟨k, hk⟩
  · rintro ⟨k, hk⟩
    refine ⟨k, ?_, hk⟩
    by_contra hge
    rw [slots_past (by omega)] at hk
    cases hk

theorem Slotted.isNamed_iff (hd : Slotted sb s ino) (name : Name) (k : Nat) :
    isNamed name (dirEntry s.disk ino k) = true ↔ ∃ i, slots s ino k = some i ∧ i.name = name := by
  rw [ConcurrentFs.isNamed_iff (hd.legal k)]
  unfold slots
  constructor
  · rintro ⟨h0, hname⟩
    exact ⟨_, item_eq_some.mpr ⟨h0, rfl⟩, hname⟩
  · rintro ⟨i, hi, hname⟩
    obtain ⟨h0, rfl⟩ := item_eq_some.mp hi
    exact ⟨h0, hname⟩

/-- `dir_lookup` finds the slot with the name. -/
theorem looks_of_slot (g : Regions sb) (hs : Synced sb s) (hd : Slotted sb s ino) {k : Nat}
    {i : DirItem} (hk : slots s ino k = some i) : Looks sb s ino i.name (i.inode, i.type) := by
  refine Prog.run_eq_ok.mpr ?_
  unfold dirLookup
  rw [Prog.ends_bind]
  refine findSlot_dir g hs hd (fun j _ hp _ => ?_) fun hall => ?_
  · obtain ⟨i', hi', hname⟩ := (hd.isNamed_iff i.name j).mp hp
    have hjk := hd.unique j k i' i hi' hk hname
    rw [hjk, hk] at hi'
    rw [hjk]
    obtain ⟨-, hi⟩ := item_eq_some.mp hk
    rw [hi]
    exact ⟨rfl, rfl⟩
  · have hkb : k < 64 * blockCountOf ino := by
      by_contra hge
      rw [slots_past (by omega)] at hk
      cases hk
    have := hall k hkb
    rw [(hd.isNamed_iff i.name k).mpr ⟨i, hk, rfl⟩] at this
    exact Bool.noConfusion this

/-- `dir_lookup` of a name no slot has. -/
theorem looks_of_absent (g : Regions sb) (hs : Synced sb s) (hd : Slotted sb s ino)
    {name : Name} (hn : ∀ k i, slots s ino k = some i → i.name ≠ name) :
    Looks sb s ino name (0, 0) := by
  refine Prog.run_eq_ok.mpr ?_
  unfold dirLookup
  rw [Prog.ends_bind]
  refine findSlot_dir g hs hd (fun j _ hp _ => ?_) fun _ => ⟨rfl, rfl⟩
  obtain ⟨i, hi, hname⟩ := (hd.isNamed_iff name j).mp hp
  exact absurd hname (hn j i hi)

/-- `dir_is_empty`. -/
theorem dirIsEmpty_dir (g : Regions sb) (hs : Synced sb s) (hd : Slotted sb s ino) :
    ∃ b, (dirIsEmpty sb ino).run s = some (.ok b, s) ∧
      (b = true ↔ ∀ k, 2 ≤ k → slots s ino k = none) := by
  by_cases h : ∀ k, 2 ≤ k → slots s ino k = none
  · refine ⟨true, Prog.run_eq_ok.mpr ?_, iff_of_true rfl h⟩
    unfold dirIsEmpty
    rw [Prog.ends_bind]
    refine findSlot_dir g hs hd (fun j _ hp _ => ?_) fun _ => ⟨rfl, rfl⟩
    simp only [Bool.and_eq_true, decide_eq_true_eq, bne_iff_ne, ne_eq] at hp
    exact absurd (slots_none.mp (h j hp.1)) hp.2
  · refine ⟨false, Prog.run_eq_ok.mpr ?_, iff_of_false nofun h⟩
    unfold dirIsEmpty
    rw [Prog.ends_bind]
    refine findSlot_dir g hs hd (fun _ _ _ _ => ⟨rfl, rfl⟩) fun hall => absurd (fun k hk => ?_) h
    by_cases hkb : k < 64 * blockCountOf ino
    · rw [slots_none]
      simpa [hk] using hall k hkb
    · exact slots_past (by omega)

end Reading

/-! ## Writing -/

section Writing

variable {E : Exn → FileSystem → Prop} {U : Unit → FileSystem → Prop}

/-- A write to the data region. -/
theorem writeBlock_put (g : Regions sb) {b : Nat} (h1 : sb.dataStart.toNat ≤ b)
    (h2 : b < sb.totalBlocks.toNat) {fresh : Bool} {fn : Block → Block}
    (hU : U () (s.putBlock b (fn (if fresh then Bytes.zero 4096 else s.disk b)))) :
    (writeBlock sb b fresh fn).Ends s U E := by
  have ho := g.order
  unfold writeBlock
  rw [if_pos (touchable_of (by omega) h2), Prog.ends_change]
  exact hU

theorem synced_put (g : Regions sb) (hs : Synced sb s) {b : Nat} (h1 : sb.dataStart.toNat ≤ b)
    (data : Block) : Synced sb (s.putBlock b data) := by
  have h := (synced_iff g).mp hs
  have himg : Image.of sb (s.putBlock b data).disk = (Image.of sb s.disk).putBlk b data :=
    Image.of_putBlk g s.disk h1 data
  exact (synced_iff g).mpr ⟨rfl, h.inodeCount, h.blockCount, by rw [himg]; exact h.inodeBit,
    by rw [himg]; exact h.blockBit, rfl⟩

section Put

variable {i : Nat} (hw : WellFormed sb s ino) (data : Block)
include hw

/-- Writing a data block of a file moves no pointer. -/
theorem ptr_put (p : Pos) :
    ptr (s.putBlock (bmap s.disk ino i) data).disk ino p = ptr s.disk ino p := by
  refine ptr_congr (fun q hq hq0 => Function.update_of_ne (fun heq => ?_) _ _) p
  have := hw.once q (.data i) hq0 heq
  rw [this] at hq
  cases hq

theorem wellFormed_put : WellFormed sb (s.putBlock (bmap s.disk ino i) data) ino where
  once p q hp heq := by
    rw [ptr_put hw] at hp heq
    rw [ptr_put hw] at heq
    exact hw.once p q hp heq
  range p hp := by
    rw [ptr_put hw] at hp ⊢
    exact hw.range p hp
  marked p hp := by
    rw [ptr_put hw] at hp ⊢
    exact hw.marked p hp

/-- And changes the contents of that file block only. -/
theorem cont_put (h0 : bmap s.disk ino i ≠ 0) : cont (s.putBlock (bmap s.disk ino i) data).disk ino
    = Function.update (cont s.disk ino) i data := by
  funext j
  have hb : bmap (s.putBlock (bmap s.disk ino i) data).disk ino j = bmap s.disk ino j :=
    ptr_put hw data (.data j)
  by_cases hj : j = i
  · rw [hj] at hb ⊢
    rw [Function.update_self, cont_block (by rw [hb]; exact h0), hb]
    exact Function.update_self _ _ _
  · rw [Function.update_of_ne hj]
    refine cont_congr hb fun hj0 => Function.update_of_ne (fun heq => hj ?_) _ _
    exact Pos.data.inj (hw.once (.data j) (.data i) hj0 heq)

end Put

/-- A directory whose slots are those of a well-formed one with one changed. -/
theorem Slotted.of_entry {ino' : Inode} {k : Nat} {e : DirEntry} (hd : Slotted sb s ino)
    (ht : WellFormed sb s' ino') (hdir : kindOf ino' = some .dir) (hsh : Shaped s'.disk ino')
    (he : dirEntry s'.disk ino' = Function.update (dirEntry s.disk ino) k e)
    (hlegal : e.inodeId ≠ 0 → e.Legal) (hfree : e.inodeId = 0 → e = .zero)
    (huniq : Unique DirItem.name (Function.update (slots s ino) k (item e))) :
    Slotted sb s' ino' ∧ slots s' ino' = Function.update (slots s ino) k (item e) := by
  have hslots : slots s' ino' = Function.update (slots s ino) k (item e) := by
    funext j
    unfold slots
    rw [he]
    by_cases hj : j = k
    · rw [hj, Function.update_self, Function.update_self]
    · rw [Function.update_of_ne hj, Function.update_of_ne hj]
  refine ⟨⟨ht, hdir, hsh, fun j hj => ?_, fun j hj => ?_, by rw [hslots]; exact huniq⟩, hslots⟩
  · rw [he] at hj ⊢
    by_cases hjk : j = k
    · rw [hjk, Function.update_self] at hj ⊢
      exact hlegal hj
    · rw [Function.update_of_ne hjk] at hj ⊢
      exact hd.legal j hj
  · rw [he] at hj ⊢
    by_cases hjk : j = k
    · rw [hjk, Function.update_self] at hj ⊢
      exact hfree hj
    · rw [Function.update_of_ne hjk] at hj ⊢
      exact hd.free j hj

/-- A slot overwritten where it lies. -/
theorem dirEntry_put {k : Nat} (hd : Slotted sb s ino) (hk : k < 64 * blockCountOf ino)
    (e : DirEntry) : dirEntry (s.putBlock (bmap s.disk ino (k / 64))
      (setSlotAt (cont s.disk ino (k / 64)) (k % 64) e)).disk ino
        = Function.update (dirEntry s.disk ino) k e := by
  have h0 : bmap s.disk ino (k / 64) ≠ 0 := hd.shaped.noHole hd.dir (k / 64) (by omega)
  funext j
  by_cases hj : j < 64 * blockCountOf ino
  · rw [dirEntry_slot hd.dir hj]
    unfold slotOf
    rw [cont_put hd.tree _ h0]
    by_cases hjk : j = k
    · rw [hjk, Function.update_self, Function.update_self, slotAt_setSlotAt_self _ _ (by omega)]
    · rw [Function.update_of_ne hjk, dirEntry_slot hd.dir hj]
      by_cases hb : j / 64 = k / 64
      · rw [hb, Function.update_self, slotAt_setSlotAt_ne _ _ (by omega), ← hb]
        rfl
      · rw [Function.update_of_ne hb]
        rfl
  · rw [Function.update_of_ne (by omega)]
    unfold dirEntry
    rw [if_neg fun hc => hj hc.2, if_neg fun hc => hj hc.2]

/-- The blocks as an image, for what is said of blocks only. -/
def raw (d : Nat → Block) : Image where
  super := d 0
  ibit _ := false
  dbit _ := false
  inode _ := .zero
  blk := d

/-- A directory one block longer, with `e` first in the new block. -/
theorem dirEntry_grown (g : Regions sb) (hs : Synced sb s) (hd : Slotted sb s ino)
    (hfit : blockCountOf ino < maxFileBlocks) {m : Mapped} {s₁ : FileSystem}
    (ha : Allocated sb s ino (blockCountOf ino) m s₁) (e : DirEntry) {ino' : Inode}
    (hino : ino' = { m.ino with size := m.ino.size + 4096 })
    (hs' : s' = s₁.putBlock m.block (setSlotAt (Bytes.zero 4096) 0 e)) :
    WellFormed sb s' ino' ∧ Synced sb s' ∧ kindOf ino' = some .dir ∧ Shaped s'.disk ino' ∧
      dirEntry s'.disk ino' = Function.update (dirEntry s.disk ino) (64 * blockCountOf ino) e ∧
      blockCountOf ino' = blockCountOf ino + 1 := by
  have hb := ha.bmap_block g hfit
  have h0 : bmap s₁.disk m.ino (blockCountOf ino) ≠ 0 := by rw [hb]; exact ha.nonzero
  have hw := wellFormed_put ha.wellFormed (setSlotAt (Bytes.zero 4096) 0 e) (i := blockCountOf ino)
  have hptr := ptr_put ha.wellFormed (setSlotAt (Bytes.zero 4096) 0 e) (i := blockCountOf ino)
  have hcont := cont_put ha.wellFormed (setSlotAt (Bytes.zero 4096) 0 e) h0
  rw [hb, ← hs'] at hw hptr hcont
  have hr := ha.wellFormed.range (.data (blockCountOf ino)) h0
  rw [show ptr s₁.disk m.ino (.data (blockCountOf ino)) = m.block from hb] at hr
  -- the file block is written and no other has moved or changed
  have hwrote : Wrote (raw s.disk) (Function.update (fun _ => Inode.zero) 0 ino) 0
      (blockCountOf ino) { raw s.disk with blk := s'.disk } m.ino
      (setSlotAt (Bytes.zero 4096) 0 e) := by
    have hother : ∀ i, i ≠ blockCountOf ino → bmap s'.disk m.ino i = bmap s.disk ino i :=
      fun i hi => (hptr (.data i)).trans (ha.bmap_other g hs hd.tree hi)
    constructor
    · rfl
    · rfl
    · rfl
    · rw [Function.update_self]
      exact ha.same
    · show bmap s'.disk m.ino _ ≠ 0
      rw [show bmap s'.disk m.ino (blockCountOf ino) = _ from hptr (.data _)]
      exact h0
    · show cont s'.disk m.ino _ = _
      rw [hcont, Function.update_self]
    · intro i hi
      rw [Function.update_self]
      exact hother i hi
    · intro i hi
      rw [Function.update_self]
      show cont s'.disk m.ino i = cont s.disk ino i
      rw [hcont, Function.update_of_ne hi]
      refine cont_congr (ha.bmap_other g hs hd.tree hi) fun hi0 => ha.disk_data g hd.tree hi0
    · intro y hy p
      rw [Function.update_of_ne hy, ptr_zero, ptr_zero]
    · intro y hy i
      rw [Function.update_of_ne hy, cont_hole (ptr_zero _ (.data i)),
        cont_hole (ptr_zero _ (.data i))]
  have hent := hwrote.entered (e := e) (by rw [Function.update_self]; exact hd.shaped)
    (by rw [Function.update_self]; exact hd.dir) (by rw [Function.update_self]; exact hfit)
  rw [Function.update_self, ← hino] at hent
  have hsame : ptr s'.disk ino' = ptr s'.disk m.ino := by
    rw [hino]
    exact ptr_fields m.ino _ rfl rfl rfl
  have hsize : (m.ino.size + 4096).toNat = 4096 * (blockCountOf ino + 1) := by
    have h2 : ((4096 : UInt64)).toNat = 4096 := rfl
    have h3 := hd.shaped.whole hd.dir
    have h4 : ino.size.toNat = 4096 * blockCountOf ino := by unfold blockCountOf; omega
    unfold maxFileBlocks at hfit
    rw [ha.same.size, UInt64.toNat_add, h4, h2]
    omega
  refine ⟨⟨fun p q => ?_, fun p => ?_, fun p => ?_⟩, ?_, ?_, hent.shaped, ?_, ?_⟩
  · rw [hsame]
    exact hw.once p q
  · rw [hsame]
    exact hw.range p
  · rw [hsame]
    exact hw.marked p
  · rw [hs']
    exact synced_put g ha.synced hr.1 _
  · rw [← hd.dir]
    refine kindOf_of_mode ?_
    rw [hino]
    exact ha.same.mode
  · have := hent.entry
    rwa [Function.update_self] at this
  · unfold blockCountOf at hsize ⊢
    rw [hino]
    show (m.ino.size + 4096).toNat / 4096 = _
    omega

end Writing

/-! ## Directories of a consistent image -/

section OfConsistent

variable {I : Image} {r : Side}

theorem synced_of_shows (g : Regions sb) (h : Shows sb s I r) : Synced sb s := by
  rw [synced_iff g, h.image, h.side]
  exact h

/-- Every inode of a consistent image has a well-formed pointer tree. -/
theorem wellFormed_of_own (h : Shows sb s I r) {V : Nat → Inode} {X : Set Nat}
    (ho : Own sb I V X) (x : Nat) : WellFormed sb s (V x) := by
  have hp : ∀ p, ptr s.disk (V x) p = ptr I.blk (V x) p := by
    intro p
    rw [← h.image]
    exact ptr_disk (fun q hq => by rw [h.image] at hq ⊢; exact ho.range x q hq) p
  constructor
  · intro p q h0 heq
    rw [hp] at h0
    rw [hp, hp] at heq
    exact (ho.once x p x q h0 heq).2
  · intro p h0
    rw [hp] at h0 ⊢
    exact ho.range x p h0
  · intro p h0
    rw [hp] at h0 ⊢
    have hlt := (ho.range x p h0).2
    rw [Bitmap.isSet_of_lt (by rw [h.blockCount]; exact hlt), h.blockBit _ hlt,
      (ho.bit _ hlt).mpr (.inr (.inl ⟨x, p, rfl⟩))]

/-- Every directory of a consistent image is well formed. -/
theorem wellFormedDir_of_consistent (h : Shows sb s I r) (c : Consistent sb I)
    {x : Nat} (hx : kindOf (I.inode x) = some .dir) : WellFormedDir sb s (I.inode x) := by
  have hr : InRange sb (Image.of sb s.disk).blk (I.inode x) := by
    rw [h.image]
    exact c.own.range x
  have hcont : ∀ i, cont s.disk (I.inode x) i = cont I.blk (I.inode x) i := fun i => by
    rw [← cont_image hr, h.image]
  have hent : dirEntry s.disk (I.inode x) = I.tree.entry x := by
    rw [← dirEntry_image hr, h.image]
    rfl
  have hslot : ∀ k i, slots s (I.inode x) k = some i ↔ (I.tree.entry x k).inodeId ≠ 0 ∧
      i = ⟨(I.tree.entry x k).named, (I.tree.entry x k).inodeId.toNat,
      (I.tree.entry x k).type⟩ := by
    intro k i
    unfold slots
    rw [hent, item_eq_some]
  constructor
  · constructor
    · exact wellFormed_of_own h c.own x
    · exact hx
    · refine (c.shaped x).congr (fun i => ?_) rfl rfl
      rw [show bmap s.disk (I.inode x) i = _ from ptr_disk hr (.data i), h.image]
      rfl
    · intro k
      rw [hent]
      exact c.tree.legal x k
    · intro k
      rw [hent]
      exact c.tree.free x k
    · intro k k' i i' hk hk' hname
      obtain ⟨h1, rfl⟩ := (hslot k i).mp hk
      obtain ⟨h2, rfl⟩ := (hslot k' i').mp hk'
      exact c.tree.unique x k k' h1 h2 hname
  · obtain ⟨h1, h2⟩ := c.tree.dot x hx
    exact ⟨_, (hslot 0 _).mpr ⟨h2.id_ne, rfl⟩, h1⟩
  · obtain ⟨h1, p, h2, -⟩ := c.tree.dotdot x hx
    exact ⟨_, (hslot 1 _).mpr ⟨h2.id_ne, rfl⟩, h1⟩

end OfConsistent

/-! ## The map -/

/-- A name a directory entry may have. -/
structure LegalName (name : Name) : Prop where
  pos : 1 ≤ name.length
  le : name.length ≤ 58
  chars : ∀ c ∈ name, c ≠ 47 ∧ c ≠ 0

/-- What `dir_add` of an absent name has done, to a directory that listed `L`. -/
structure Added (sb : Superblock) (s : FileSystem) (ino : Inode) (L : List DirItem) (i : DirItem)
    (ino' : Inode) (s' : FileSystem) : Prop where
  synced : Synced sb s'
  wellFormed : WellFormedDir sb s' ino'
  lists : ∃ A B, L = A ++ B ∧ Lists sb s' ino' (A ++ i :: B)
  found : Looks sb s' ino' i.name (i.inode, i.type)
  others : ∀ n, n ≠ i.name → ∀ r, Looks sb s ino n r ↔ Looks sb s' ino' n r
  /-- The first free slot is taken, or else the first of a new block. -/
  slot : ∃ k, (∀ j < k, slots s ino j ≠ none) ∧ dirEntry s.disk ino k = .zero ∧
    dirEntry s'.disk ino' = Function.update (dirEntry s.disk ino) k
      (makeEntry i.name i.inode i.type) ∧
    (k < 64 * blockCountOf ino ∧ ino' = ino ∨
      k = 64 * blockCountOf ino ∧ blockCountOf ino' = blockCountOf ino + 1)

/-- What `dir_remove` has done, to a directory that listed `L`. -/
structure Removed (sb : Superblock) (s : FileSystem) (ino : Inode) (L : List DirItem) (name : Name)
    (s' : FileSystem) : Prop where
  synced : Synced sb s'
  /-- It is as well formed as before, unless "." or ".." is gone. -/
  wellFormed : name ≠ dot → name ≠ dotdot → WellFormedDir sb s' ino
  lists : ∃ A i B, i.name = name ∧ L = A ++ i :: B ∧ Lists sb s' ino (A ++ B)
  gone : Looks sb s' ino name (0, 0)
  others : ∀ n, n ≠ name → ∀ r, Looks sb s ino n r ↔ Looks sb s' ino n r
  slot : ∃ k, slots s ino k ≠ none ∧ (dirEntry s.disk ino k).named = name ∧
    dirEntry s'.disk ino = Function.update (dirEntry s.disk ino) k .zero ∧
    Writes s s' {bmap s.disk ino (k / 64)}

section Map

variable {E : Exn → FileSystem → Prop} {name : Name}

/-- A lookup is decided by the slots. -/
theorem looks_iff (g : Regions sb) (hs : Synced sb s) (hd : Slotted sb s ino) (r : Nat × UInt8) :
    Looks sb s ino name r ↔ (∃ k i, slots s ino k = some i ∧ i.name = name ∧
    r = (i.inode, i.type)) ∨
      (∀ k i, slots s ino k = some i → i.name ≠ name) ∧ r = (0, 0) := by
  have heq : ∀ r r', Looks sb s ino name r → Looks sb s ino name r' → r = r' := by
    intro r r' h h'
    unfold Looks at h h'
    rw [h] at h'
    cases h'
    rfl
  by_cases hn : ∃ k i, slots s ino k = some i ∧ i.name = name
  · obtain ⟨k, i, hk, rfl⟩ := hn
    have hl := looks_of_slot g hs hd hk
    constructor
    · intro h
      exact .inl ⟨k, i, hk, rfl, heq _ _ h hl⟩
    · rintro (⟨k', i', hk', hname, rfl⟩ | ⟨hno, -⟩)
      · rw [hd.unique k' k i' i hk' hk hname, hk] at hk'
        cases hk'
        exact hl
      · exact absurd rfl (hno k i hk)
  · have hno : ∀ k i, slots s ino k = some i → i.name ≠ name := fun k i hk hname =>
      hn ⟨k, i, hk, hname⟩
    have hl := looks_of_absent g hs hd hno
    constructor
    · intro h
      exact .inr ⟨hno, heq _ _ h hl⟩
    · rintro (⟨k', i', hk', hname, -⟩ | ⟨-, rfl⟩)
      · exact absurd ⟨k', i', hk', hname⟩ hn
      · exact hl

/-- Other names are looked up as before when one slot has changed. -/
theorem looks_others (g : Regions sb) (hs : Synced sb s) (hs' : Synced sb s') {ino' : Inode}
    (hd : Slotted sb s ino) (hd' : Slotted sb s' ino') {k : Nat} {o : Option DirItem}
    (hslots : slots s' ino' = Function.update (slots s ino) k o)
    (hold : ∀ i, slots s ino k = some i → i.name = name) (hnew : ∀ i, o = some i → i.name = name)
    {n : Name} (hn : n ≠ name) (r : Nat × UInt8) :
    Looks sb s ino n r ↔ Looks sb s' ino' n r := by
  have hiff : ∀ j i, i.name = n → (slots s ino j = some i ↔ slots s' ino' j = some i) := by
    intro j i hi
    rw [hslots]
    by_cases hj : j = k
    · rw [hj, Function.update_self]
      constructor
      · intro h
        exact absurd (hi.symm.trans (hold i h)) hn
      · intro h
        exact absurd (hi.symm.trans (hnew i h)) hn
    · rw [Function.update_of_ne hj]
  rw [looks_iff g hs hd, looks_iff g hs' hd']
  refine or_congr ?_ (and_congr_left fun _ => ?_)
  · constructor
    · rintro ⟨j, i, hj, hi, hr⟩
      exact ⟨j, i, (hiff j i hi).mp hj, hi, hr⟩
    · rintro ⟨j, i, hj, hi, hr⟩
      exact ⟨j, i, (hiff j i hi).mpr hj, hi, hr⟩
  · constructor
    · intro h j i hj hi
      exact h j i ((hiff j i hi).mpr hj) hi
    · intro h j i hj hi
      exact h j i ((hiff j i hi).mp hj) hi

/-- `dir_remove` of a name that is there. -/
theorem dirRemove_dir (g : Regions sb) (hs : Synced sb s) (hd : Slotted sb s ino) {k : Nat}
    {i : DirItem} (hk : slots s ino k = some i) {Q : Bool → FileSystem → Prop}
    (hQ : ∀ s', Synced sb s' → Slotted sb s' ino →
      dirEntry s'.disk ino = Function.update (dirEntry s.disk ino) k .zero →
      slots s' ino = Function.update (slots s ino) k none →
      Writes s s' {bmap s.disk ino (k / 64)} → Q true s') :
    (dirRemove sb ino i.name).Ends s Q E := by
  have hkb : k < 64 * blockCountOf ino := by
    by_contra hge
    rw [slots_past (by omega)] at hk
    cases hk
  unfold dirRemove
  rw [Prog.ends_bind]
  refine findSlot_dir g hs hd (fun j _ hp _ => ?_) fun hall => ?_
  · -- only one slot has the name
    obtain ⟨i', hi', hname⟩ := (hd.isNamed_iff i.name j).mp hp
    rw [hd.unique j k i' i hi' hk hname]
    have h0 : bmap s.disk ino (k / 64) ≠ 0 := hd.shaped.noHole hd.dir (k / 64) (by omega)
    have hr := hd.tree.range (.data (k / 64)) h0
    dsimp only
    rw [Prog.ends_bind]
    refine writeBlock_put g hr.1 hr.2 ?_
    have he := dirEntry_put hd hkb .zero
    rw [cont_block h0] at he
    have hput := hd.of_entry (wellFormed_put hd.tree _) hd.dir
      (hd.shaped.congr (fun l => ptr_put hd.tree _ (.data l)) rfl rfl)
      he (fun hz => absurd rfl hz) (fun _ => rfl) (by rw [item_zero]; exact hd.unique.clear)
    rw [item_zero] at hput
    exact hQ _ (synced_put g hs hr.1 _) hput.1 he hput.2 (.of_put rfl rfl)
  · have := hall k hkb
    rw [(hd.isNamed_iff i.name k).mpr ⟨i, hk, rfl⟩] at this
    exact Bool.noConfusion this

/-- `dir_remove` of a name that is not there. -/
theorem dirRemove_absent (g : Regions sb) (hs : Synced sb s) (hd : Slotted sb s ino)
    (hn : ∀ k i, slots s ino k = some i → i.name ≠ name) :
    (dirRemove sb ino name).run s = some (.ok false, s) := by
  refine Prog.run_eq_ok.mpr ?_
  unfold dirRemove
  rw [Prog.ends_bind]
  refine findSlot_dir g hs hd (fun j _ hp _ => ?_) fun _ => ⟨rfl, rfl⟩
  obtain ⟨i, hi, hname⟩ := (hd.isNamed_iff name j).mp hp
  exact absurd hname (hn j i hi)

theorem item_makeEntry {i : DirItem} (hle : i.name.length ≤ 58) (h1 : 1 ≤ i.inode)
    (h2 : i.inode < 2 ^ 32) : item (makeEntry i.name i.inode i.type) = some i := by
  have hid : (makeEntry i.name i.inode i.type).inodeId.toNat = i.inode := makeEntry_id h2
  refine item_eq_some.mpr ⟨fun hz => ?_, ?_⟩
  · rw [hz] at hid
    have : (0 : Nat) = i.inode := hid
    omega
  · rw [makeEntry_named hle, hid]
    rfl

/-- `dir_add` of an absent name. -/
theorem dirAdd_dir (g : Regions sb) (hs : Synced sb s) (hd : Slotted sb s ino) {i : DirItem}
    (hl : LegalName i.name) (h1 : 1 ≤ i.inode) (h2 : i.inode < 2 ^ 32)
    (hn : ∀ k j, slots s ino k = some j → j.name ≠ i.name) {T : Inode → FileSystem → Prop}
    (hok : ∀ k ino' s', (∀ j < k, slots s ino j ≠ none) → dirEntry s.disk ino k = .zero →
      (k < 64 * blockCountOf ino ∧ ino' = ino ∨
        k = 64 * blockCountOf ino ∧ blockCountOf ino' = blockCountOf ino + 1) →
      Synced sb s' → Slotted sb s' ino' →
      dirEntry s'.disk ino' = Function.update (dirEntry s.disk ino) k
        (makeEntry i.name i.inode i.type) →
      slots s' ino' = Function.update (slots s ino) k (some i) → T ino' s')
    (hfail : ∀ e s', (∀ j < 64 * blockCountOf ino, slots s ino j ≠ none) →
      Refused s e s' ∨ e = .fsError .efbig ∧ maxFileBlocks ≤ blockCountOf ino ∧ s' = s → E e s') :
    (dirAdd sb ino i.name i.inode i.type).Ends s T E := by
  have hitem := item_makeEntry (i := i) hl.le h1 h2
  have hlegal : (makeEntry i.name i.inode i.type).Legal := makeEntry_legal hl.pos hl.le hl.chars
  have hne : (makeEntry i.name i.inode i.type).inodeId ≠ 0 := (item_eq_some.mp hitem).1
  have huniq : ∀ k, Unique DirItem.name
      (Function.update (slots s ino) k (item (makeEntry i.name i.inode i.type))) := fun k => by
    rw [hitem]
    exact hd.unique.fill hn
  unfold dirAdd
  dsimp only
  rw [Prog.ends_bind]
  refine findSlot_dir g hs hd (fun k hk hp hfirst => ?_) fun hall => ?_
  · -- a free slot
    have h0 : bmap s.disk ino (k / 64) ≠ 0 := hd.shaped.noHole hd.dir (k / 64) (by omega)
    have hr := hd.tree.range (.data (k / 64)) h0
    dsimp only
    rw [Prog.ends_bind]
    refine writeBlock_put g hr.1 hr.2 ?_
    have he := dirEntry_put hd hk (makeEntry i.name i.inode i.type)
    rw [cont_block h0] at he
    obtain ⟨hd', hslots⟩ := hd.of_entry (wellFormed_put hd.tree _) hd.dir
      (hd.shaped.congr (fun l => ptr_put hd.tree _ (.data l)) rfl rfl)
      he (fun _ => hlegal) (fun hz => absurd hz hne) (huniq k)
    rw [hitem] at hslots
    refine hok k ino _ (fun j hj hjn => ?_) (hd.free k (by simpa using hp)) (.inl ⟨hk, rfl⟩)
      (synced_put g hs hr.1 _) hd' he hslots
    have := hfirst j hj
    rw [slots_none.mp hjn] at this
    exact Bool.noConfusion this
  · -- every slot is taken
    have htaken : ∀ j < 64 * blockCountOf ino, slots s ino j ≠ none := fun j hj hjn => by
      have := hall j hj
      rw [slots_none.mp hjn] at this
      exact Bool.noConfusion this
    dsimp only
    rw [Prog.ends_bind]
    by_cases hfit : blockCountOf ino < maxFileBlocks
    · refine (bmapAlloc_allocated g hs hd.tree hfit).mono (fun m s₁ ha => ?_)
        fun e s' hrefused => hfail e s' htaken (.inl hrefused)
      have hr := ha.wellFormed.range (.data (blockCountOf ino))
      have hlast : ptr s₁.disk m.ino (.data (blockCountOf ino)) = m.block := ha.bmap_block g hfit
      rw [hlast] at hr
      obtain ⟨hr1, hr2⟩ := hr ha.nonzero
      rw [Prog.ends_bind]
      refine writeBlock_put g hr1 hr2 ?_
      obtain ⟨hw, hs', hdir, hsh, he, hcount⟩ := dirEntry_grown g hs hd hfit ha
        (makeEntry i.name i.inode i.type) rfl rfl
      obtain ⟨hd', hslots⟩ := hd.of_entry hw hdir hsh he (fun _ => hlegal) (fun hz => absurd hz hne)
        (huniq _)
      rw [hitem] at hslots
      exact hok _ _ _ htaken (if_neg fun hc => by omega) (.inr ⟨rfl, hcount⟩) hs' hd' he hslots
    · exact bmapAlloc_efbig (by omega) (hfail _ _ htaken (.inr ⟨rfl, by omega, rfl⟩))

/-- Filling or emptying slot `k` of a directory puts one item into its list or takes it out. -/
theorem items_slot {ino' : Inode} {k : Nat} {o o' : Option DirItem} (hk : slots s ino k = o)
    (hkb : k < 64 * blockCountOf ino') (hle : blockCountOf ino ≤ blockCountOf ino')
    (hs : slots s' ino' = Function.update (slots s ino) k o') :
    ∃ A B, items (slots s ino) (64 * blockCountOf ino) = A ++ o.toList ++ B ∧
      items (slots s' ino') (64 * blockCountOf ino') = A ++ o'.toList ++ B := by
  obtain ⟨A, B, h⟩ := items_update (slots s ino) hkb
  refine ⟨A, B, ?_, by rw [hs]; exact h o'⟩
  rw [← h o, ← hk, Function.update_eq_self]
  exact (items_extend (by omega) fun j hj => slots_past hj).symm

/-- What is named in the list is in a slot. -/
theorem absent_iff {name : Name} :
    name ∉ (items (slots s ino) (64 * blockCountOf ino)).map DirItem.name ↔
      ∀ k i, slots s ino k = some i → i.name ≠ name := by
  constructor
  · rintro hn k i hk rfl
    exact hn (List.mem_map_of_mem (mem_slots.mpr ⟨k, hk⟩))
  · intro hn hmem
    obtain ⟨i, hi, hname⟩ := List.mem_map.mp hmem
    obtain ⟨k, hk⟩ := mem_slots.mp hi
    exact hn k i hk hname

theorem inode_ne_zero {k : Nat} {i : DirItem} (hk : slots s ino k = some i) : i.inode ≠ 0 := by
  obtain ⟨h0, rfl⟩ := item_eq_some.mp hk
  exact fun hz => h0 (toNat_eq_zero.mp hz)

/-- A lookup as a lookup in the list. -/
theorem looks_list (g : Regions sb) (hs : Synced sb s) (hd : Slotted sb s ino) (name : Name) :
    ∃ r, Looks sb s ino name r ∧
      (∀ i t, i ≠ 0 → (r = (i, t) ↔
        (⟨name, i, t⟩ : DirItem) ∈ items (slots s ino) (64 * blockCountOf ino))) ∧
      (r.1 = 0 ↔ name ∉ (items (slots s ino) (64 * blockCountOf ino)).map DirItem.name) := by
  by_cases hn : ∀ k i, slots s ino k = some i → i.name ≠ name
  · refine ⟨(0, 0), looks_of_absent g hs hd hn, fun i t hi => ?_,
      iff_of_true rfl (absent_iff.mpr hn)⟩
    refine iff_of_false (fun h => hi (congrArg Prod.fst h).symm) fun hmem => ?_
    obtain ⟨k, hk⟩ := mem_slots.mp hmem
    exact hn k _ hk rfl
  · push Not at hn
    obtain ⟨k, j, hk, rfl⟩ := hn
    refine ⟨_, looks_of_slot g hs hd hk, fun i t _ => ?_, iff_of_false (inode_ne_zero hk) ?_⟩
    · rw [mem_slots]
      constructor
      · intro h
        cases h
        exact ⟨k, hk⟩
      · rintro ⟨k', hk'⟩
        rw [hd.unique k' k _ j hk' hk rfl, hk] at hk'
        have hj := Option.some.inj hk'
        exact Prod.ext (congrArg DirItem.inode hj) (congrArg DirItem.type hj)
    · rw [absent_iff]
      exact fun h => h k j hk rfl

/-- Only "." and ".." are listed when every other slot is free. -/
theorem names_dots (hd : WellFormedDir sb s ino) :
    (∀ k, 2 ≤ k → slots s ino k = none) ↔
      (items (slots s ino) (64 * blockCountOf ino)).map DirItem.name = [dot, dotdot] := by
  obtain ⟨i0, h0, hdot⟩ := hd.dot
  obtain ⟨i1, h1, hdotdot⟩ := hd.dotdot
  constructor
  · intro h
    have hb : 2 ≤ 64 * blockCountOf ino := by
      by_contra hlt
      rw [slots_past (by omega)] at h1
      cases h1
    rw [items_extend hb h]
    have hitems : items (slots s ino) 2 = [i0, i1] := by
      simp [items, List.range_succ, h0, h1]
    rw [hitems, List.map_cons, List.map_singleton, hdot, hdotdot]
  · intro h k hk
    cases hs : slots s ino k with
    | none => rfl
    | some i =>
      have hmem : i.name ∈ (items (slots s ino) (64 * blockCountOf ino)).map DirItem.name :=
        List.mem_map_of_mem (mem_slots.mpr ⟨k, hs⟩)
      rw [h] at hmem
      rcases List.mem_cons.mp hmem with hname | hname
      · have := hd.unique k 0 i i0 hs h0 (hname.trans hdot.symm)
        omega
      · have := hd.unique k 1 i i1 hs h1 ((List.mem_singleton.mp hname).trans hdotdot.symm)
        omega

/-- A slot other than the first two changed leaves "." and "..". -/
theorem WellFormedDir.of_slots (hd : WellFormedDir sb s ino) {ino' : Inode}
    (hd' : Slotted sb s' ino')
    {k : Nat} {o : Option DirItem} (hs : slots s' ino' = Function.update (slots s ino) k o)
    (h0 : k ≠ 0) (h1 : k ≠ 1) : WellFormedDir sb s' ino' where
  toSlotted := hd'
  dot := by
    rw [hs, Function.update_of_ne h0.symm]
    exact hd.dot
  dotdot := by
    rw [hs, Function.update_of_ne h1.symm]
    exact hd.dotdot

/-- `dir_add` of an absent name, and `dir_remove` of it right after. -/
theorem dirAdd_added (g : Regions sb) (hs : Synced sb s) (hd : WellFormedDir sb s ino) {i : DirItem}
    (hl : LegalName i.name) (h1 : 1 ≤ i.inode) (h2 : i.inode < 2 ^ 32)
    (hn : ∀ k j, slots s ino k = some j → j.name ≠ i.name) :
    (dirAdd sb ino i.name i.inode i.type).Ends s
      (fun ino' s' => Added sb s ino (items (slots s ino) (64 * blockCountOf ino)) i ino' s' ∧
        (dirRemove sb ino' i.name).Ends s' (fun found s'' => found = true ∧
          Lists sb s'' ino' (items (slots s ino) (64 * blockCountOf ino))) fun _ _ => False)
      fun e s' => (∀ k < 64 * blockCountOf ino, slots s ino k ≠ none) ∧
        (Refused s e s' ∨ e = .fsError .efbig ∧ maxFileBlocks ≤ blockCountOf ino ∧ s' = s) := by
  refine dirAdd_dir g hs hd.toSlotted hl h1 h2 hn
    (fun k ino' s' hbefore hzero hgrow hs' hd' he hslots => ?_)
    fun e s' htaken hwhy => ⟨htaken, hwhy⟩
  have hk : slots s ino k = none := by
    unfold slots
    rw [hzero]
    exact item_zero
  have hk' : slots s' ino' k = some i := by rw [hslots, Function.update_self]
  have hbound : k < 64 * blockCountOf ino' ∧ blockCountOf ino ≤ blockCountOf ino' := by
    rcases hgrow with ⟨hlt, rfl⟩ | ⟨rfl, hc⟩
    · exact ⟨hlt, le_refl _⟩
    · omega
  have hdots : k ≠ 0 ∧ k ≠ 1 := by
    obtain ⟨i0, hi0, -⟩ := hd.dot
    obtain ⟨i1, hi1, -⟩ := hd.dotdot
    constructor
    · rintro rfl
      rw [hk] at hi0
      cases hi0
    · rintro rfl
      rw [hk] at hi1
      cases hi1
  refine ⟨?_, ?_⟩
  · constructor
    · exact hs'
    · exact hd.of_slots hd' hslots hdots.1 hdots.2
    · obtain ⟨A, B, hA, hB⟩ := items_slot hk hbound.1 hbound.2 hslots
      refine ⟨A, B, by simpa using hA, ?_⟩
      have := lists_items g hs' hd'
      rw [hB] at this
      simpa using this
    · exact looks_of_slot g hs' hd' hk'
    · intro n hne r
      refine looks_others g hs hs' hd.toSlotted hd' hslots (fun j hj => ?_) (fun j hj => ?_) hne r
      · rw [hk] at hj
        cases hj
      · cases hj
        rfl
    · exact ⟨k, hbefore, hzero, he, hgrow⟩
  · refine dirRemove_dir g hs' hd' hk' fun s'' hs'' hd'' _ hslots'' _ => ⟨rfl, ?_⟩
    have hback : slots s'' ino' = Function.update (slots s ino) k none := by
      rw [hslots'', hslots, Function.update_idem]
    obtain ⟨A, B, hA, hB⟩ := items_slot hk hbound.1 hbound.2 hback
    rw [hA, ← hB]
    exact lists_items g hs'' hd''

/-- `dir_remove` of a name that is listed. -/
theorem dirRemove_removed (g : Regions sb) (hs : Synced sb s)
    (hd : WellFormedDir sb s ino) {k : Nat}
    {i : DirItem} (hk : slots s ino k = some i) :
    (dirRemove sb ino i.name).Ends s (fun found s' => found = true ∧
      Removed sb s ino (items (slots s ino) (64 * blockCountOf ino)) i.name s')
      fun _ _ => False := by
  refine dirRemove_dir g hs hd.toSlotted hk fun s' hs' hd' he hslots hw => ⟨rfl, ?_⟩
  have hkb : k < 64 * blockCountOf ino := by
    by_contra hge
    rw [slots_past (by omega)] at hk
    cases hk
  constructor
  · exact hs'
  · intro hdot hdotdot
    refine hd.of_slots hd' hslots ?_ ?_
    · rintro rfl
      obtain ⟨i0, hi0, hname⟩ := hd.dot
      rw [hk] at hi0
      cases hi0
      exact hdot hname
    · rintro rfl
      obtain ⟨i1, hi1, hname⟩ := hd.dotdot
      rw [hk] at hi1
      cases hi1
      exact hdotdot hname
  · obtain ⟨A, B, hA, hB⟩ := items_slot hk hkb (le_refl _) hslots
    refine ⟨A, i, B, rfl, by simpa using hA, ?_⟩
    have := lists_items g hs' hd'
    rw [hB] at this
    simpa using this
  · refine looks_of_absent g hs' hd' fun j a hj hname => ?_
    rw [hslots] at hj
    by_cases hjk : j = k
    · rw [hjk, Function.update_self] at hj
      cases hj
    · rw [Function.update_of_ne hjk] at hj
      exact hjk (hd.unique j k a i hj hk hname)
  · intro n hne r
    refine looks_others g hs hs' hd.toSlotted hd' hslots (fun j hj => ?_) (fun j hj => ?_) hne r
    · rw [hk] at hj
      cases hj
      rfl
    · cases hj
  · exact ⟨k, by rw [hk]; exact nofun, by rw [(item_eq_some.mp hk).2], he, hw⟩

end Map

/-- A directory is a finite map from names to entries. -/
theorem directory_map {n : UInt32} (hv : validateSuperblock sb n = .ok ()) (hs : Synced sb s)
    (hd : WellFormedDir sb s ino) :
    ∃ L, Lists sb s ino L ∧ (L.map DirItem.name).Nodup ∧
      -- lookup
      (∀ name, ∃ r, Looks sb s ino name r ∧ (∀ i t, i ≠ 0 → (r = (i, t) ↔ ⟨name, i, t⟩ ∈ L)) ∧
        (r.1 = 0 ↔ name ∉ L.map DirItem.name)) ∧
      (∃ b, (dirIsEmpty sb ino).run s = some (.ok b, s) ∧
        (b = true ↔ L.map DirItem.name = [dot, dotdot])) ∧
      -- adding, and taking back what was added
      (∀ i : DirItem, LegalName i.name → 1 ≤ i.inode → i.inode < 2 ^ 32 →
        i.name ∉ L.map DirItem.name →
        (dirAdd sb ino i.name i.inode i.type).Ends s
          (fun ino' s' => Added sb s ino L i ino' s' ∧
            (dirRemove sb ino' i.name).Ends s'
              (fun found s'' => found = true ∧ Lists sb s'' ino' L) fun _ _ => False)
          fun e s' => (∀ k < 64 * blockCountOf ino, slots s ino k ≠ none) ∧
            (Refused s e s' ∨ e = .fsError .efbig ∧ maxFileBlocks ≤ blockCountOf ino ∧ s' = s)) ∧
      -- removing
      (∀ name, name ∈ L.map DirItem.name → (dirRemove sb ino name).Ends s
        (fun found s' => found = true ∧ Removed sb s ino L name s') fun _ _ => False) ∧
      (∀ name, name ∉ L.map DirItem.name → (dirRemove sb ino name).run s
      = some (.ok false, s)) := by
  have g := regions_of_validate hv
  refine ⟨_, lists_items g hs hd.toSlotted, hd.unique.nodup _, looks_list g hs hd.toSlotted, ?_,
    fun i hl h1 h2 hn => dirAdd_added g hs hd hl h1 h2 (absent_iff.mp hn), fun name hname => ?_,
    fun name hname => dirRemove_absent g hs hd.toSlotted (absent_iff.mp hname)⟩
  · obtain ⟨b, hrun, hb⟩ := dirIsEmpty_dir g hs hd.toSlotted
    exact ⟨b, hrun, hb.trans (names_dots hd)⟩
  · obtain ⟨i, hi, rfl⟩ := List.mem_map.mp hname
    obtain ⟨k, hk⟩ := mem_slots.mp hi
    exact dirRemove_removed g hs hd hk

/-- "a" is added to the root of a new file system, and removed again. -/
theorem directory_map_added : ∃ L,
    Lists smallLayout Mkfs.smallFs (Mkfs.smallImage.inode rootInode) L ∧
    L.map DirItem.name = [dot, dotdot] ∧
    ∃ ino' s', (dirAdd smallLayout (Mkfs.smallImage.inode rootInode) [97] 2 2).run Mkfs.smallFs
        = some (.ok ino', s') ∧
      Added smallLayout Mkfs.smallFs (Mkfs.smallImage.inode rootInode) L ⟨[97], 2, 2⟩ ino' s' ∧
      ∃ s'', (dirRemove smallLayout ino' [97]).run s' = some (.ok true, s'') ∧
        Lists smallLayout s'' ino' L := by
  obtain ⟨L, hL, -, -, ⟨b, hrun, hb⟩, hadd, -⟩ := directory_map smallLayout_valid
    (synced_of_shows (regions_of_validate smallLayout_valid) Mkfs.smallFs_shows)
    (wellFormedDir_of_consistent Mkfs.smallFs_shows
      Mkfs.smallImage_consistent Mkfs.smallImage_consistent.root_dir)
  have hempty : (dirIsEmpty smallLayout (Mkfs.smallImage.inode rootInode)).result id Mkfs.smallFs
      = some true := by decide +kernel
  have hnames := hb.mp (Prog.result_of_run hrun hempty)
  have hlegal : LegalName [97] := ⟨by decide, by decide, fun c hc => by
    rw [List.mem_singleton.mp hc]
    decide⟩
  have hends := hadd ⟨[97], 2, 2⟩ hlegal (by decide) (by decide) (by rw [hnames]; decide)
  have hfits : (dirAdd smallLayout (Mkfs.smallImage.inode rootInode) [97] 2 2).result (fun _ => ())
      Mkfs.smallFs = some () := by decide +kernel
  obtain ⟨ino', s', hrun', -, hadded, hremove⟩ := hends.result hfits
  obtain ⟨⟨out, s''⟩, hrun'', hout⟩ := Prog.ends_iff_run.mp hremove
  cases out with
  | error e => exact hout.elim
  | ok found =>
    obtain ⟨rfl, hlists⟩ := hout
    exact ⟨L, hL, hnames, ino', s', hrun', hadded, s'', hrun'', hlists⟩

end ConcurrentFs.DirectoryMap
