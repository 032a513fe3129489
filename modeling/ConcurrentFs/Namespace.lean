/-
  ConcurrentFs.Namespace

  The four stretches of vfs.cpp that change the tree of an image, each run with
  the locks it needs held: `create_file`, the writes of `vfs_mkdir`, those of
  `vfs_unlink` and `vfs_rmdir`, and what `O_TRUNC` does.  Each takes a consistent
  image to a consistent image whose tree is the old one with one thing added or
  removed, or fails and leaves the image as it was.
-/
import ConcurrentFs.DirectorySpec

namespace ConcurrentFs

open Lib

/-- The inodes outside `S` are as they were, and so are their contents. -/
structure Kept (I I' : Image) (S : Set Nat) : Prop where
  inode : ∀ y, y ∉ S → I'.inode y = I.inode y
  cont : ∀ y, y ∉ S → ∀ i, cont I'.blk (I'.inode y) i = cont I.blk (I.inode y) i

section Assemble

variable {sb : Superblock} {I I' : Image} {d k x : Nat} {e : DirEntry} {kd : Kind}

/-- Ownership does not depend on the inode bitmap or the inode table. -/
theorem Own.congr_image {V : Nat → Inode} {X : Set Nat} (h : Own sb I V X) (hb : I'.blk = I.blk)
    (hd : I'.dbit = I.dbit) : Own sb I' V X := by
  constructor
  · rw [hb]; exact h.range
  · rw [hb]; exact h.once
  · rw [hb]; exact h.count
  · exact h.spareRange
  · rw [hb]; exact h.spare
  · rw [hb, hd]; exact h.bit

/-- The tree after `x` was added: everything comes from the directory's and the new inode. -/
theorem tree_add (hca : I.tree.CanAdd d k x e kd) {new dir' : Inode}
    (hinode : I'.inode = Function.update (Function.update I.inode x new) d dir')
    (hnewk : kindOf new = some kd)
    (hnewe : ∀ j, dirEntry I'.blk new j = I.tree.addEntry d k x e kd x j)
    (hnewl : new.linkCount.toNat = 1 + kd.dots)
    (hdirk : kindOf dir' = some .dir)
    (hdire : dirEntry I'.blk dir' = Function.update (dirEntry I.blk (I.inode d)) k e)
    (hdirl : dir'.linkCount.toNat = (I.inode d).linkCount.toNat + kd.dots)
    (hcont : ∀ y, y ≠ d → y ≠ x → ∀ i, cont I'.blk (I.inode y) i = cont I.blk (I.inode y) i) :
    I'.tree = I.tree.add d k x e kd := by
  have hne := hca.ne
  have hinoded : I'.inode d = dir' := by rw [hinode, Function.update_self]
  have hinodex : I'.inode x = new := by
    rw [hinode, Function.update_of_ne hne.symm, Function.update_self]
  have hinodey : ∀ y, y ≠ d → y ≠ x → I'.inode y = I.inode y := by
    intro y hyd hyx
    rw [hinode, Function.update_of_ne hyd, Function.update_of_ne hyx]
  have hkind : I'.tree.kind = Function.update I.tree.kind x (some kd) := by
    funext y
    show kindOf (I'.inode y) = _
    by_cases hyx : y = x
    · rw [hyx, Function.update_self, hinodex, hnewk]
    · rw [Function.update_of_ne hyx]
      by_cases hyd : y = d
      · rw [hyd, hinoded, hdirk]
        exact hca.dir.symm
      · rw [hinodey y hyd hyx]
        rfl
  have hentry : I'.tree.entry = I.tree.addEntry d k x e kd := by
    funext y j
    show dirEntry I'.blk (I'.inode y) j = _
    by_cases hyx : y = x
    · rw [hyx, hinodex, hnewe]
    by_cases hyd : y = d
    · rw [hyd, hinoded, hdire]
      by_cases hjk : j = k
      · rw [hjk, Function.update_self, Tree.addEntry_self]
      · rw [Function.update_of_ne hjk, Tree.addEntry_other (fun hc => hjk hc.2) hne]
        rfl
    · rw [hinodey y hyd hyx, Tree.addEntry_other (fun hc => hyd hc.1) hyx]
      exact congrFun (dirEntry_congr (hcont y hyd hyx) rfl rfl) j
  have hlinks : I'.tree.links = (I.tree.add d k x e kd).links := by
    funext y
    show (I'.inode y).linkCount.toNat = _
    show _ = Function.update (Function.update I.tree.links d (I.tree.links d + kd.dots)) x
      (1 + kd.dots) y
    by_cases hyx : y = x
    · rw [hyx, hinodex, hnewl, Function.update_self]
    rw [Function.update_of_ne hyx]
    by_cases hyd : y = d
    · rw [hyd, hinoded, hdirl, Function.update_self]
      rfl
    · rw [hinodey y hyd hyx, Function.update_of_ne hyd]
      rfl
  show Tree.mk I'.tree.kind I'.tree.entry I'.tree.links = _
  rw [hkind, hentry, hlinks]
  rfl

/-- The image after `x` was added is consistent. -/
theorem Consistent.added (c : Consistent sb I) (hca : I.tree.CanAdd d k x e kd)
    (hx : x < sb.inodeCount.toNat) {new dir' : Inode}
    (hibit : I'.ibit = Function.update I.ibit x true)
    (hinode : I'.inode = Function.update (Function.update I.inode x new) d dir')
    (hown : Own sb I' I'.inode ∅) (hnewid : new.id.toNat = x) (hnews : Shaped I'.blk new)
    (hnewl : new.linkCount ≠ 0) (hdirid : dir'.id = (I.inode d).id) (hdirs : Shaped I'.blk dir')
    (hdirl : dir'.linkCount ≠ 0)
    (hframe : ∀ y, y ≠ d → y ≠ x → ∀ i, bmap I'.blk (I.inode y) i = bmap I.blk (I.inode y) i)
    (htree : I'.tree = I.tree.add d k x e kd) : Consistent sb I' := by
  have hne := hca.ne
  have hpos := hca.pos
  obtain ⟨hd1, hd2, hd3⟩ := c.ibit_of_kind (x := d) (by
    have := hca.dir
    exact fun h => absurd (this.symm.trans h) nofun)
  have hinoded : I'.inode d = dir' := by rw [hinode, Function.update_self]
  have hinodex : I'.inode x = new := by
    rw [hinode, Function.update_of_ne hne.symm, Function.update_self]
  have hinodey : ∀ y, y ≠ d → y ≠ x → I'.inode y = I.inode y := by
    intro y hyd hyx
    rw [hinode, Function.update_of_ne hyd, Function.update_of_ne hyx]
  have hrules : I'.tree.Rules := by
    rw [htree]
    exact Tree.add_rules c.tree hca
  have hkind : ∀ y, kindOf (I'.inode y) = (I.tree.add d k x e kd).kind y := fun y =>
    congrFun (congrArg Tree.kind htree) y
  refine ⟨⟨?_, ?_⟩, fun y hy hb => ?_, fun y h1 h2 hb => ?_, fun y hy => ?_, hown, fun y => ?_,
    hrules⟩
  · rw [hibit, Function.update_of_ne (by omega)]
    exact c.reserved.1
  · rw [hinodey 0 (by omega) (by omega)]
    exact c.reserved.2
  · have hyx : y ≠ x := by
      rintro rfl
      rw [hibit, Function.update_self] at hb
      exact Bool.noConfusion hb
    rw [hibit, Function.update_of_ne hyx] at hb
    have hyd : y ≠ d := by
      rintro rfl
      rw [hd3] at hb
      exact Bool.noConfusion hb
    rw [hinodey y hyd hyx]
    exact c.unused y hy hb
  · by_cases hyx : y = x
    · rw [hyx, hkind, hinodex]
      refine ⟨hnewid, ?_, hnewl⟩
      show Function.update I.tree.kind x (some kd) x ≠ none
      rw [Function.update_self]
      exact nofun
    by_cases hyd : y = d
    · rw [hyd, hkind, hinoded]
      refine ⟨?_, ?_, hdirl⟩
      · rw [hdirid]
        exact (c.used d hd1 hd2 hd3).1
      · show Function.update I.tree.kind x (some kd) d ≠ none
        rw [Function.update_of_ne hne, hca.dir]
        exact nofun
    · rw [hibit, Function.update_of_ne hyx] at hb
      rw [hinodey y hyd hyx]
      exact c.used y h1 h2 hb
  · rw [hinodey y (by omega) (by omega)]
    exact c.past y hy
  · by_cases hyx : y = x
    · rw [hyx, hinodex]
      exact hnews
    by_cases hyd : y = d
    · rw [hyd, hinoded]
      exact hdirs
    · rw [hinodey y hyd hyx]
      exact (c.shaped y).congr (hframe y hyd hyx) rfl rfl

end Assemble

/-! ## Adding -/

/-- A name that can be entered. -/
structure GoodName (name : Name) : Prop where
  pos : 1 ≤ name.length
  le : name.length ≤ 58
  chars : ∀ c ∈ name, c ≠ 47 ∧ c ≠ 0

/-- `x` was made in directory `d`, under this name. -/
structure Created (sb : Superblock) (I : Image) (d : Nat) (name : Name) (x : Nat) (kd : Kind)
    (I' : Image) : Prop where
  lt : x < sb.inodeCount.toNat
  tree : ∃ k, I.tree.CanAdd d k x (makeEntry name x kd.ft) kd ∧
    I'.tree = I.tree.add d k x (makeEntry name x kd.ft) kd
  kept : Kept I I' {d, x}
  /-- A new file is empty. -/
  blank : kd = .file → (I'.inode x).size = 0 ∧ ∀ i, bmap I'.blk (I'.inode x) i = 0

section Add

variable {sb : Superblock} {s : FileSystem} {I : Image} {r : Side} {E : Exn → FileSystem → Prop}
  {d : Nat} {name : Name}

theorem putIBit_undo {x : Nat} (hx : I.ibit x = false) :
    (I.putIBit x true).putIBit x false = I := by
  ext1 <;> try rfl
  show Function.update (Function.update I.ibit x true) x false = I.ibit
  rw [Function.update_idem, ← hx, Function.update_eq_self]

/-- What can be added under a name that is not there. -/
theorem canAdd (g : Regions sb) (c : Consistent sb I) (hd : I.tree.kind d = some .dir)
    (hname : GoodName name)
    (hnew : ∀ k, (I.tree.entry d k).inodeId ≠ 0 → (I.tree.entry d k).named ≠ name) {x k : Nat}
    (h1 : 1 ≤ x) (h2 : x < sb.inodeCount.toNat) (h3 : I.ibit x = false)
    (hk : dirEntry I.blk (I.inode d) k = .zero) (kd : Kind) :
    I.tree.CanAdd d k x (makeEntry name x kd.ft) kd := by
  have hor := g.order
  obtain ⟨-, hd2, -⟩ := c.ibit_of_kind (x := d) (fun h0 => absurd (hd.symm.trans h0) nofun)
  refine ⟨hd, hk, c.kind_none_of_ibit h2 h3, h1, by omega, by omega, makeEntry_id (by omega),
    makeEntry_legal hname.pos hname.le hname.chars, rfl, fun k' h0 => ?_⟩
  rw [makeEntry_named hname.le]
  exact hnew k' h0

/-- The end of `create_file` and `vfs_mkdir`: the entry is in place, and the inodes of the new file
    and of the directory are written. -/
theorem Consistent.finishAdd (c : Consistent sb I) {x k : Nat} {kd : Kind}
    (hca : I.tree.CanAdd d k x (makeEntry name x kd.ft) kd) (hx : x < sb.inodeCount.toNat)
    (I1 : Image) {I2 : Image} {ino' new : Inode} {l : UInt16} {t : UInt64} (hblk : I1.blk = I.blk)
    (hibit : I1.ibit = Function.update I.ibit x true) (hino : I1.inode = I.inode)
    (hent : Entered I1 I.inode d k (makeEntry name x kd.ft) I2 ino') (hnewk : kindOf new = some kd)
    (hnewid : new.id.toNat = x) (hnewl : new.linkCount.toNat = 1 + kd.dots)
    (hnews : Shaped I2.blk new)
    (hnewe : ∀ j, dirEntry I2.blk new j = I.tree.addEntry d k x (makeEntry name x kd.ft) kd x j)
    (hl : l.toNat = (I.inode d).linkCount.toNat + kd.dots)
    (hown : Own sb I2 (Function.update (Function.update I.inode x new) d ino') ∅)
    (hblank : kd = .file → new.size = 0 ∧ ∀ i, bmap I2.blk new i = 0) :
    Consistent sb ((I2.putInode x new).putInode d { ino' with linkCount := l, mtime := t }) ∧
      Created sb I d name x kd
        ((I2.putInode x new).putInode d { ino' with linkCount := l, mtime := t }) := by
  have hdx := hca.ne
  have hdk : kindOf (I.inode d) = some .dir := hca.dir
  obtain ⟨hd1, hd2, hd3⟩ := c.ibit_of_kind (x := d) (by rw [hdk]; exact nofun)
  generalize hdirI : ({ ino' with linkCount := l, mtime := t } : Inode) = dir'
  generalize hI' : (I2.putInode x new).putInode d dir' = I'
  have hblk' : I'.blk = I2.blk := by rw [← hI']; rfl
  have hinode : I'.inode = Function.update (Function.update I.inode x new) d dir' := by
    rw [← hI']
    show Function.update (Function.update I2.inode x new) d dir' = _
    rw [hent.inode, hino]
  have hdirptr : ptr I2.blk dir' = ptr I2.blk ino' := by
    rw [← hdirI]
    exact ptr_fields _ _ rfl rfl rfl
  have hdirl : dir'.linkCount = l := by rw [← hdirI]
  have hdirk : kindOf dir' = some .dir := by
    rw [← hdirI]
    exact (kindOf_of_mode hent.same.mode).trans hdk
  have hcont : ∀ y, y ≠ d → y ≠ x → ∀ i, cont I'.blk (I.inode y) i = cont I.blk (I.inode y) i := by
    intro y hyd _ i
    rw [hblk', hent.others y hyd i, hblk]
  have hframe : ∀ y, y ≠ d → ∀ p, ptr I'.blk (I.inode y) p = ptr I.blk (I.inode y) p := by
    intro y hyd p
    rw [hblk', hent.frame y hyd p, hblk]
  have hdirs : Shaped I'.blk dir' := by
    rw [hblk']
    refine hent.shaped.congr (fun i => congrFun hdirptr (.data i)) ?_ ?_ <;> rw [← hdirI]
  have hdire : dirEntry I'.blk dir' = Function.update (dirEntry I.blk (I.inode d)) k
      (makeEntry name x kd.ft) := by
    rw [← hblk, ← hent.entry, hblk']
    refine dirEntry_congr (fun i => congrFun (cont_of_ptr hdirptr) i) ?_ ?_ <;> rw [← hdirI]
  have htree : I'.tree = I.tree.add d k x (makeEntry name x kd.ft) kd :=
    tree_add hca hinode hnewk (fun j => by rw [hblk', hnewe]) hnewl hdirk hdire
      (by rw [hdirl, hl]) hcont
  have hown' : Own sb I' I'.inode ∅ := by
    refine Own.congr_image (I := I2) ?_ hblk' (by rw [← hI']; rfl)
    refine hown.congr_inode fun y => ?_
    rw [hinode]
    by_cases hyd : y = d
    · rw [hyd, Function.update_self, Function.update_self]
      exact ⟨hdirptr, by rw [← hdirI]⟩
    · rw [Function.update_of_ne hyd, Function.update_of_ne hyd]
      exact ⟨rfl, rfl⟩
  have hc' : Consistent sb I' := by
    refine c.added hca hx ?_ hinode hown' hnewid ?_ ?_ ?_ hdirs ?_
      (fun y hyd _ i => hframe y hyd (.data i)) htree
    · rw [← hI', ← hibit]
      exact hent.ibit
    · rw [hblk']
      exact hnews
    · intro h0
      rw [h0] at hnewl
      exact absurd hnewl (by show 0 ≠ 1 + kd.dots; omega)
    · rw [← hdirI]
      exact hent.same.id
    · -- the directory had links before, and does not have fewer now
      rw [hdirl]
      intro h0
      have h1 := (c.used d hd1 hd2 hd3).2.2
      rw [h0] at hl
      refine h1 (UInt16.toNat_inj.mp ?_)
      have h2 : (0 : UInt16).toNat = 0 := rfl
      omega
  have hinodex : I'.inode x = new := by
    rw [hinode, Function.update_of_ne hdx.symm, Function.update_self]
  have hkept : ∀ y, y ∉ ({d, x} : Set Nat) → I'.inode y = I.inode y := by
    intro y hy
    rw [hinode, Function.update_of_ne (fun h0 => hy (.inl h0)),
      Function.update_of_ne fun h0 => hy (.inr h0)]
  refine ⟨hc', hx, ⟨k, hca, htree⟩, ⟨hkept, fun y hy i => ?_⟩, fun hf => ?_⟩
  · rw [hkept y hy]
    exact hcont y (fun h0 => hy (.inl h0)) (fun h0 => hy (.inr h0)) i
  · rw [hinodex, hblk']
    exact hblank hf

/-- `create_file`. -/
theorem createFile_ends (g : Regions sb) (h : Shows sb s I r) (c : Consistent sb I)
    (hd : I.tree.kind d = some .dir) (hname : GoodName name)
    (hnew : ∀ k, (I.tree.entry d k).inodeId ≠ 0 → (I.tree.entry d k).named ≠ name)
    {Q : Nat → FileSystem → Prop}
    (hok : ∀ x s' I', Shows sb s' I' r → Consistent sb I' → Created sb I d name x .file I' → Q x s')
    (hfull : ∀ s', Shows sb s' I r →
      (∀ i < sb.inodeCount.toNat, I.ibit i = true) ∨ freeCount sb I < 4 → E (.fsError .enospc) s')
    (hbig : ∀ s', Shows sb s' I r → maxFileBlocks ≤ blockCountOf (I.inode d) →
      E (.fsError .efbig) s') :
    (createFile sb (I.inode d) name).Ends s Q E := by
  have hor := g.order
  have hdk : kindOf (I.inode d) ≠ none := fun h0 =>
    absurd (hd.symm.trans h0) (by intro h; contradiction)
  obtain ⟨hd1, hd2, hd3⟩ := c.ibit_of_kind hdk
  unfold createFile
  rw [Prog.ends_bind]
  refine allocInode_ends g h c.reserved.1 (fun x s1 h1 h2 h3 hs1 => ?_)
    fun hall => hfull s h (.inl hall)
  have hdx : d ≠ x := by
    rintro rfl
    rw [h3] at hd3
    exact Bool.noConfusion hd3
  have hzero : I.inode x = .zero := c.unused x h2 h3
  have ho1 : Own sb (I.putIBit x true) I.inode ∅ := c.own.congr_image rfl rfl
  rw [Prog.ends_bind, Prog.ends_onError]
  have hundo : ∀ s' : FileSystem, Shows sb s' (I.putIBit x true) r → ∀ err,
      (∀ s'', Shows sb s'' I r → E err s'') → (freeInode sb x).Ends s' (fun _ => E err) E := by
    intro s' hs' err hE
    refine freeInode_ends g hs' h1 h2 (Function.update_self _ _ _) fun s'' hs'' => hE s'' ?_
    exact hs''.congr (putIBit_undo h3)
  refine dirAdd_ends (x := d) g hs1 ho1 (c.shaped d) hd (c.tree.free d)
    (fun k ino' s2 I2 hs2 ho2 hk hent => ?_)
    (fun s' hs' hlt _ => hundo s' hs' _ fun s'' hs'' => hfull s'' hs'' (.inr ?_))
    fun hge _ => hundo s1 hs1 _ fun s'' hs'' => hbig s'' hs'' hge
  · -- entered: the two inodes are written
    have hca := canAdd g c hd hname hnew h1 h2 h3 hk .file
    have hx32 : x < 2 ^ 32 := by omega
    have hxid : (UInt32.ofNat x).toNat = x := UInt32.toNat_ofNat_of_lt' hx32
    have hdid : ino'.id.toNat = d := by
      rw [hent.same.id]
      exact c.id_eq hdk
    unfold newInode
    simp only [Prog.ends_bind]
    refine now_ends hs2 fun t s3 hs3 => ?_
    refine writeInode_ends g hs3 hxid h1 h2 fun s4 hs4 => ?_
    refine now_ends hs4 fun t' s5 hs5 => ?_
    refine writeInode_ends g hs5 hdid hd1 hd2 fun s6 hs6 => ?_
    generalize hnewI : ({ Inode.zero with
      id := UInt32.ofNat x, mode := modeFile ||| filePerm, linkCount := 1, mtime := t } : Inode)
      = new at hs6
    have hptr : ∀ b, ptr b new = ptr b (I.inode x) := by
      intro b
      rw [hzero, ← hnewI]
      exact ptr_fields _ _ rfl rfl rfl
    have hblank : ∀ i, bmap I2.blk new i = 0 := by
      intro i
      have : ptr I2.blk new (.data i) = 0 := by
        rw [hptr, hzero]
        exact ptr_zero _ _
      exact this
    have hnewk : kindOf new = some .file := by rw [← hnewI]; rfl
    have hnews : Shaped I2.blk new :=
      ⟨fun i _ => hblank i, fun hf => absurd (hnewk.symm.trans hf) (by intro h; contradiction),
        fun hf => absurd (hnewk.symm.trans hf) (by intro h; contradiction)⟩
    have hnewe : ∀ j, dirEntry I2.blk new j
        = I.tree.addEntry d k x (makeEntry name x Kind.file.ft) .file x j := by
      intro j
      rw [dirEntry_notDir (by rw [hnewk]; intro h; contradiction)]
      unfold Tree.addEntry
      rw [if_neg fun hc => hdx hc.1.symm, if_neg fun hc => absurd hc.1 (by intro h; contradiction),
        if_neg fun hc => absurd hc.1 (by intro h; contradiction)]
      exact (c.tree.entry_unused (fun h0 => absurd (hca.unused.symm.trans h0)
        (by intro h; contradiction)) j).symm
    have hown : Own sb I2 (Function.update (Function.update I.inode x new) d ino') ∅ := by
      refine ho2.congr_inode fun y => ?_
      by_cases hyd : y = d
      · rw [hyd, Function.update_self, Function.update_self]
        exact ⟨rfl, rfl⟩
      rw [Function.update_of_ne hyd, Function.update_of_ne hyd]
      by_cases hyx : y = x
      · rw [hyx, Function.update_self]
        exact ⟨hptr _, by rw [hzero, ← hnewI]⟩
      · rw [Function.update_of_ne hyx]
        exact ⟨rfl, rfl⟩
    obtain ⟨hc6, hcr⟩ := c.finishAdd (l := ino'.linkCount) (t := t') hca h2 (I.putIBit x true) rfl
      rfl rfl hent hnewk (by rw [← hnewI]; exact hxid) (by rw [← hnewI]; rfl) hnews hnewe
      (by rw [hent.same.linkCount]; rfl) hown fun _ => ⟨by rw [← hnewI]; rfl, hblank⟩
    exact hok x s6 _ hs6 hc6 hcr
  · have : freeCount sb (I.putIBit x true) = freeCount sb I := rfl
    omega

/-- A spare block written does not change what was entered. -/
theorem Entered.putBlk_spare {V : Nat → Inode} {X : Set Nat} {x k b : Nat} {e : DirEntry}
    {I' : Image} {ino' : Inode} (hent : Entered I V x k e I' ino')
    (ho : Own sb I' (Function.update V x ino') X) (hb : b ∈ X) (data : Block) :
    Entered I V x k e (I'.putBlk b data) ino' := by
  have hptr := Own.ptr_putBlk I' (Function.update V x ino') b data fun z q _ => ho.spare b hb z q
  have hcont := ho.cont_putBlk_spare hb data
  have hptrx : ∀ p, ptr (I'.putBlk b data).blk ino' p = ptr I'.blk ino' p := by
    intro p
    have := hptr x p
    rwa [Function.update_self] at this
  have hcontx : ∀ i, cont (I'.putBlk b data).blk ino' i = cont I'.blk ino' i := by
    intro i
    have := hcont x i
    rwa [Function.update_self] at this
  refine ⟨hent.super, hent.ibit, hent.inode, hent.same, ?_, ?_, fun y hy p => ?_, fun y hy i => ?_⟩
  · rw [dirEntry_congr hcontx rfl rfl, hent.entry]
  · exact hent.shaped.congr (fun i => hptrx (.data i)) rfl rfl
  · have := hptr y p
    rw [Function.update_of_ne hy] at this
    rw [this, hent.frame y hy]
  · have := hcont y i
    rw [Function.update_of_ne hy] at this
    rw [this, hent.others y hy]

/-- The slots of the first block of a new directory. -/
theorem slotAt_dirBlock (self parent j : Nat) :
    slotAt (dirBlock self parent (Bytes.zero 4096)) j
      = if j = 0 then makeEntry dot self ftDir
        else if j = 1 then makeEntry dotdot parent ftDir else .zero := by
  unfold dirBlock
  by_cases h1 : j = 1
  · rw [h1, slotAt_setSlotAt_self _ _ (by omega)]
    rfl
  · rw [slotAt_setSlotAt_ne _ _ (Ne.symm h1)]
    by_cases h0 : j = 0
    · rw [h0, slotAt_setSlotAt_self _ _ (by omega)]
      rfl
    · rw [slotAt_setSlotAt_ne _ _ (Ne.symm h0), slotAt_zero, if_neg h0, if_neg h1]

/-- The inode of a new directory, whose one block is `b`. -/
def newDirInode (x b : Nat) (t : UInt64) : Inode :=
  { Inode.zero.setDirect 0 b with
    id := UInt32.ofNat x
    mode := modeDir ||| dirPerm
    linkCount := 2
    size := 4096
    mtime := t
    blockCount := 1 }

section NewDir

variable {x b : Nat} {t : UInt64} {blk : Nat → Block}

theorem newDirInode_kind : kindOf (newDirInode x b t) = some .dir := rfl

theorem newDirInode_ptr (hb : b < 2 ^ 32) :
    ptr blk (newDirInode x b t) = Function.update (ptr blk .zero) (.data 0) b := by
  rw [show Pos.data 0 = Pos.data (0 : Fin 12).val from rfl, ← ptr_setDirect _ _ hb]
  exact ptr_fields _ _ rfl rfl rfl

theorem newDirInode_bmap (hb : b < 2 ^ 32) (i : Nat) :
    bmap blk (newDirInode x b t) i = if i = 0 then b else 0 := by
  have : ptr blk (newDirInode x b t) (.data i) = if i = 0 then b else 0 := by
    rw [newDirInode_ptr hb]
    by_cases hi : i = 0
    · rw [hi, Function.update_self, if_pos rfl]
    · rw [Function.update_of_ne (fun h => hi (Pos.data.inj h)), if_neg hi, ptr_zero]
  exact this

theorem newDirInode_size : (newDirInode x b t).size.toNat = 4096 := rfl

theorem newDirInode_count : blockCountOf (newDirInode x b t) = 1 := by
  unfold blockCountOf
  rw [newDirInode_size]

theorem newDirInode_shaped (hb : b < 2 ^ 32) (h0 : b ≠ 0) : Shaped blk (newDirInode x b t) where
  ends i hi := by
    rw [newDirInode_size] at hi
    rw [newDirInode_bmap hb, if_neg (by omega)]
  whole _ := by rw [newDirInode_size]
  noHole _ i hi := by
    rw [newDirInode_count] at hi
    rw [newDirInode_bmap hb, if_pos (by omega)]
    exact h0

/-- "." and "..", and nothing else. -/
theorem newDirInode_entry (hb : b < 2 ^ 32) (h0 : b ≠ 0) {d : Nat}
    (hblk : blk b = dirBlock x d (Bytes.zero 4096)) (j : Nat) :
    dirEntry blk (newDirInode x b t) j
      = if j = 0 then makeEntry dot x ftDir
        else if j = 1 then makeEntry dotdot d ftDir else .zero := by
  by_cases hj : j < 64
  · rw [dirEntry_slot newDirInode_kind (by rw [newDirInode_count]; omega)]
    unfold slotOf
    rw [show j / 64 = 0 by omega, show j % 64 = j by omega,
      cont_block (by rw [newDirInode_bmap hb, if_pos rfl]; exact h0), newDirInode_bmap hb,
      if_pos rfl, hblk, slotAt_dirBlock]
  · rw [if_neg (by omega), if_neg (by omega)]
    exact if_neg fun hc => hj (by have := hc.2; rw [newDirInode_count] at this; omega)

end NewDir

/-- One block taken leaves one fewer. -/
theorem freeCount_putDBit (sb : Superblock) (I : Image) (b : Nat) :
    freeCount sb I ≤ freeCount sb (I.putDBit b true) + 1 := by
  unfold freeCount
  have hsub : (Finset.range sb.totalBlocks.toNat).filter (fun B => I.dbit B = false)
      ⊆ insert b ((Finset.range sb.totalBlocks.toNat).filter
        fun B => (I.putDBit b true).dbit B = false) := by
    intro B hB
    obtain ⟨h1, h2⟩ := Finset.mem_filter.mp hB
    by_cases hBb : B = b
    · exact hBb ▸ Finset.mem_insert_self _ _
    · refine Finset.mem_insert_of_mem (Finset.mem_filter.mpr ⟨h1, ?_⟩)
      show Function.update I.dbit b true B = false
      rw [Function.update_of_ne hBb]
      exact h2
  exact (Finset.card_le_card hsub).trans (Finset.card_insert_le _ _)

/-- A block and an inode given back. -/
theorem putDBit_undo {x b : Nat} (hx : I.ibit x = false) (hb : I.dbit b = false) :
    (((I.putIBit x true).putDBit b true).clearDBits [b]).putIBit x false = I := by
  have h1 : ((I.putIBit x true).putDBit b true).clearDBits [b] = I.putIBit x true := by
    ext1 <;> try rfl
    funext B
    show (Function.update I.dbit b true B && decide (B ∉ [b])) = I.dbit B
    by_cases hB : B = b
    · simp [hB, hb]
    · simp [hB]
  rw [h1, putIBit_undo hx]

/-- The writes of `vfs_mkdir`. -/
theorem makeDir_ends (g : Regions sb) (h : Shows sb s I r) (c : Consistent sb I)
    (hd : I.tree.kind d = some .dir) (hname : GoodName name)
    (hnew : ∀ k, (I.tree.entry d k).inodeId ≠ 0 → (I.tree.entry d k).named ≠ name)
    (hlink : (I.inode d).linkCount ≠ 65535) {Q : Unit → FileSystem → Prop}
    (hok : ∀ x s' I', Shows sb s' I' r → Consistent sb I' → Created sb I d name x .dir I' →
      Q () s')
    (hfull : ∀ s', Shows sb s' I r →
      (∀ i < sb.inodeCount.toNat, I.ibit i = true) ∨ freeCount sb I < 4 → E (.fsError .enospc) s')
    (hbig : ∀ s', Shows sb s' I r → maxFileBlocks ≤ blockCountOf (I.inode d) →
      E (.fsError .efbig) s') :
    (makeDir sb d (I.inode d) name).Ends s Q E := by
  have hor := g.order
  have hdk : kindOf (I.inode d) ≠ none := fun h0 =>
    absurd (hd.symm.trans h0) (by intro h; contradiction)
  obtain ⟨hd1, hd2, hd3⟩ := c.ibit_of_kind hdk
  unfold makeDir
  rw [Prog.ends_bind]
  refine allocInode_ends g h c.reserved.1 (fun x s1 h1 h2 h3 hs1 => ?_)
    fun hall => hfull s h (.inl hall)
  have hdx : d ≠ x := by
    rintro rfl
    rw [h3] at hd3
    exact Bool.noConfusion hd3
  have hzero : I.inode x = .zero := c.unused x h2 h3
  have hx32 : x < 2 ^ 32 := by omega
  rw [Prog.ends_bind, Prog.ends_onError]
  refine allocBlock_ends g hs1 (c.own.meta_marked g) (fun b s2 hb1 hb2 hb3 hs2 => ?_) fun hall => ?_
  · have hb32 : b < 2 ^ 32 := by omega
    have hb0 : b ≠ 0 := by omega
    -- the block is spare until the new inode takes it
    have ho2 : Own sb ((I.putIBit x true).putDBit b true) I.inode (∅ ∪ {c | c ∈ [b]}) := by
      have ho1 : Own sb (I.putIBit x true) I.inode ∅ := c.own.congr_image rfl rfl
      rw [setDBits_singleton]
      refine ho1.mark fun c hc => ?_
      rw [List.mem_singleton.mp hc]
      exact ⟨hb1, hb2, hb3⟩
    have hbX : b ∈ (∅ ∪ {c | c ∈ [b]} : Set Nat) := .inr (List.mem_singleton_self b)
    have hX : (∅ ∪ {c | c ∈ [b]} : Set Nat) \ {b} = ∅ := by
      ext c
      simp
    have hundo : ∀ s' : FileSystem, Shows sb s' ((I.putIBit x true).putDBit b true) r → ∀ err,
        (∀ s'', Shows sb s'' I r → E err s'') →
        (do freeBlocks sb [b]; freeInode sb x : Fs Unit).Ends s' (fun _ => E err) E := by
      intro s' hs' err hE
      rw [Prog.ends_bind]
      refine freeBlocks_ends g hs' (List.nodup_singleton b) (fun c hc => ?_) fun s3 hs3 => ?_
      · rw [List.mem_singleton.mp hc]
        exact ⟨hb1, hb2, Function.update_self _ _ _⟩
      · refine freeInode_ends g hs3 h1 h2 (Function.update_self _ _ _) fun s4 hs4 => hE s4 ?_
        exact hs4.congr (putDBit_undo h3 hb3)
    rw [Prog.ends_bind, Prog.ends_onError]
    refine dirAdd_ends (x := d) g hs2 ho2 (c.shaped d) hd (c.tree.free d)
      (fun k ino' s3 I3 hs3 ho3 hk hent => ?_)
      (fun s' hs' hlt _ => hundo s' hs' _ fun s'' hs'' => hfull s'' hs'' (.inr ?_))
      fun hge _ => hundo s2 hs2 _ fun s'' hs'' => hbig s'' hs'' hge
    · have hca := canAdd g c hd hname hnew h1 h2 h3 hk .dir
      have hxid : (UInt32.ofNat x).toNat = x := UInt32.toNat_ofNat_of_lt' hx32
      have hdid : ino'.id.toNat = d := by
        rw [hent.same.id]
        exact c.id_eq hdk
      unfold dirInit newInode
      simp only [Prog.ends_bind]
      refine writeBlock_ends g hs3 hb1 hb2 true _ fun s4 hs4 => ?_
      have hs4' : Shows sb s4 (I3.putBlk b (dirBlock x d (Bytes.zero 4096))) r := hs4
      have hent4 := hent.putBlk_spare ho3 hbX (dirBlock x d (Bytes.zero 4096))
      have ho4 := ho3.putBlk b (dirBlock x d (Bytes.zero 4096)) fun z q _ => ho3.spare b hbX z q
      have hblkb : (I3.putBlk b (dirBlock x d (Bytes.zero 4096))).blk b
          = dirBlock x d (Bytes.zero 4096) := Function.update_self _ _ _
      generalize I3.putBlk b (dirBlock x d (Bytes.zero 4096)) = I4 at hs4' hent4 ho4 hblkb
      refine now_ends hs4' fun t s5 hs5 => ?_
      refine writeInode_ends g hs5 hxid h1 h2 fun s6 hs6 => ?_
      refine now_ends hs6 fun t' s7 hs7 => ?_
      refine writeInode_ends g hs7 hdid hd1 hd2 fun s8 hs8 => ?_
      have hnewk : kindOf (newDirInode x b t) = some .dir := newDirInode_kind
      have hnewe : ∀ j, dirEntry I4.blk (newDirInode x b t) j
          = I.tree.addEntry d k x (makeEntry name x Kind.dir.ft) .dir x j := by
        intro j
        have hold : I.tree.entry x j = .zero :=
          c.tree.entry_unused (fun h0 => absurd (hca.unused.symm.trans h0)
          (by intro h; contradiction)) j
        have hnd : ¬ (x = d ∧ j = k) := fun hc => hdx hc.1.symm
        rw [newDirInode_entry hb32 hb0 hblkb]
        unfold Tree.addEntry
        rw [if_neg hnd, hold]
        simp only [true_and]
      have hown : Own sb I4 (Function.update (Function.update I.inode x (newDirInode x b t)) d ino')
          ∅ := by
        have hx0 : Function.update I.inode d ino' x = .zero := by
          rw [Function.update_of_ne hdx.symm, hzero]
        have := ho4.link x b (.data 0) (newDirInode x b t) I4.blk hbX
          (by rw [hx0]; exact ptr_zero _ _) g (by rw [hx0]; exact newDirInode_ptr hb32)
          (fun _ _ _ => rfl) (by rw [hx0]; rfl)
        rw [hX, Function.update_comm hdx] at this
        exact this
      -- the count of links does not wrap
      have hl : (ino'.linkCount + 1).toNat = (I.inode d).linkCount.toNat + Kind.dir.dots := by
        have hle := (I.inode d).linkCount.toNat_lt
        have hne : (I.inode d).linkCount.toNat ≠ 65535 := fun h0 => hlink (UInt16.toNat_inj.mp h0)
        rw [hent.same.linkCount, UInt16.toNat_add]
        show ((I.inode d).linkCount.toNat + 1) % 65536 = (I.inode d).linkCount.toNat + 1
        omega
      obtain ⟨hc8, hcr⟩ := c.finishAdd (l := ino'.linkCount + 1) (t := t') hca h2
        ((I.putIBit x true).putDBit b true) rfl rfl rfl hent4 hnewk hxid rfl
        (newDirInode_shaped hb32 hb0) hnewe hl hown (by intros; contradiction)
      exact hok x s8 _ hs8 hc8 hcr
    · have := freeCount_putDBit sb (I.putIBit x true) b
      have h' : freeCount sb (I.putIBit x true) = freeCount sb I := rfl
      omega
  · refine freeInode_ends g hs1 h1 h2 (Function.update_self _ _ _) fun s2 hs2 => ?_
    refine hfull s2 (hs2.congr (putIBit_undo h3)) (.inr ?_)
    have : freeCount sb I = 0 := freeCount_eq_zero hall
    omega

end Add

/-! ## Removing -/

/-- `x`, in slot `k` of directory `d`, was removed. -/
structure Removed (I : Image) (d k x : Nat) (I' : Image) : Prop where
  tree : I'.tree = I.tree.remove d k x
  kept : Kept I I' {d, x}

section Remove

variable {sb : Superblock} {s : FileSystem} {I : Image} {r : Side} {E : Exn → FileSystem → Prop}
  {d k x : Nat} {name : Name}

/-- The end of `vfs_unlink` and `vfs_rmdir`: the entry is gone and so are the blocks. -/
theorem Consistent.finishRemove (c : Consistent sb I) (hcr : I.tree.CanRemove d k x) {I1 : Image}
    (I2 : Image) {kd : Kind} (hkd : I.tree.kind x = some kd) {l : UInt16} {t : UInt64}
    (hent : Entered I I.inode d k .zero I1 (I.inode d)) (hblk : I2.blk = I1.blk)
    (hibit : I2.ibit = I1.ibit) (hino : I2.inode = I1.inode)
    (hown : Own sb I2 (Function.update I.inode x (I.inode x).emptied) ∅)
    (hl : l.toNat = (I.inode d).linkCount.toNat - kd.dots) (hl0 : l ≠ 0) :
    Consistent sb (((I2.putInode x .zero).putIBit x false).putInode d
        { I.inode d with linkCount := l, mtime := t }) ∧
      Removed I d k x (((I2.putInode x .zero).putIBit x false).putInode d
        { I.inode d with linkCount := l, mtime := t }) := by
  have hdx := c.tree.ne_of_child hcr.child
  have hdk : kindOf (I.inode d) = some .dir := c.tree.kind_of_names hcr.names
  obtain ⟨hd1, hd2, hd3⟩ := c.ibit_of_kind (x := d) (by rw [hdk]; exact nofun)
  obtain ⟨hx1, hx2, hx3⟩ := c.ibit_of_kind (x := x) (c.tree.used_of_names hcr.names)
  generalize hdirI : ({ I.inode d with linkCount := l, mtime := t } : Inode) = dir'
  generalize hI' : ((I2.putInode x .zero).putIBit x false).putInode d dir' = I'
  have hblk' : I'.blk = I1.blk := by rw [← hI', ← hblk]; rfl
  have hibit' : I'.ibit = Function.update I.ibit x false := by
    rw [← hI']
    show Function.update I2.ibit x false = _
    rw [hibit, hent.ibit]
  have hinode : I'.inode = Function.update (Function.update I.inode x .zero) d dir' := by
    rw [← hI']
    show Function.update (Function.update I2.inode x .zero) d dir' = _
    rw [hino, hent.inode]
  have hinoded : I'.inode d = dir' := by rw [hinode, Function.update_self]
  have hinodex : I'.inode x = .zero := by
    rw [hinode, Function.update_of_ne hdx.symm, Function.update_self]
  have hinodey : ∀ y, y ≠ d → y ≠ x → I'.inode y = I.inode y := by
    intro y hyd hyx
    rw [hinode, Function.update_of_ne hyd, Function.update_of_ne hyx]
  have hdirptr : ∀ b, ptr b dir' = ptr b (I.inode d) := by
    intro b
    rw [← hdirI]
    exact ptr_fields _ _ rfl rfl rfl
  have hdirl : dir'.linkCount = l := by rw [← hdirI]
  have hdirm : dir'.mode = (I.inode d).mode := by rw [← hdirI]
  have hdirs : dir'.size = (I.inode d).size := by rw [← hdirI]
  have hcont : ∀ y, y ≠ d → ∀ i, cont I'.blk (I.inode y) i = cont I.blk (I.inode y) i := by
    intro y hyd i
    rw [hblk', hent.others y hyd i]
  -- the three parts of the tree
  have hkind : I'.tree.kind = Function.update I.tree.kind x none := by
    funext y
    show kindOf (I'.inode y) = _
    by_cases hyx : y = x
    · rw [hyx, Function.update_self, hinodex, kindOf_zero]
    · rw [Function.update_of_ne hyx]
      by_cases hyd : y = d
      · rw [hyd, hinoded, kindOf_of_mode hdirm]
        rfl
      · rw [hinodey y hyd hyx]
        rfl
  have hentry : I'.tree.entry = (I.tree.remove d k x).entry := by
    funext y j
    show dirEntry I'.blk (I'.inode y) j = _
    by_cases hyx : y = x
    · rw [Tree.remove_entry_zero (.inr hyx), hyx, hinodex]
      exact dirEntry_notDir (by rw [kindOf_zero]; exact nofun) j
    by_cases hyd : y = d
    · have hd' : dirEntry I'.blk (I'.inode y)
          = Function.update (dirEntry I.blk (I.inode d)) k .zero := by
        rw [hyd, hinoded, hblk', ← hent.entry]
        exact dirEntry_congr (fun i => congrFun (cont_of_ptr (hdirptr _)) i) hdirs hdirm
      rw [hd']
      by_cases hjk : j = k
      · rw [hjk, Function.update_self, Tree.remove_entry_zero (.inl ⟨hyd, rfl⟩)]
      · rw [Function.update_of_ne hjk, Tree.remove_entry_other (fun hc => hjk hc.2) hyx, hyd]
        rfl
    · rw [hinodey y hyd hyx, Tree.remove_entry_other (fun hc => hyd hc.1) hyx]
      exact congrFun (dirEntry_congr (hcont y hyd) rfl rfl) j
  have hlinks : I'.tree.links = (I.tree.remove d k x).links := by
    funext y
    show (I'.inode y).linkCount.toNat = Function.update (if I.tree.kind x = some .dir
      then Function.update I.tree.links d (I.tree.links d - 1) else I.tree.links) x 0 y
    by_cases hyx : y = x
    · rw [hyx, Function.update_self, hinodex]
      rfl
    rw [Function.update_of_ne hyx, hkd]
    by_cases hyd : y = d
    · rw [hyd, hinoded, hdirl, hl]
      cases kd with
      | file => rw [if_neg nofun]; rfl
      | dir => rw [if_pos rfl, Function.update_self]; rfl
    · rw [hinodey y hyd hyx]
      cases kd with
      | file => rw [if_neg nofun]; rfl
      | dir => rw [if_pos rfl, Function.update_of_ne hyd]; rfl
  have htree : I'.tree = I.tree.remove d k x := by
    show Tree.mk I'.tree.kind I'.tree.entry I'.tree.links = _
    rw [hkind, hentry, hlinks]
    rfl
  have hown' : Own sb I' I'.inode ∅ := by
    refine Own.congr_image (I := I2) ?_ (by rw [← hI']; rfl) (by rw [← hI']; rfl)
    refine hown.congr_inode fun y => ?_
    by_cases hyx : y = x
    · rw [hyx, hinodex, Function.update_self]
      exact ⟨funext fun p => (ptr_zero _ p).trans (ptr_emptied p).symm, rfl⟩
    rw [Function.update_of_ne hyx]
    by_cases hyd : y = d
    · rw [hyd, hinoded]
      exact ⟨hdirptr _, by rw [← hdirI]⟩
    · rw [hinodey y hyd hyx]
      exact ⟨rfl, rfl⟩
  refine ⟨⟨⟨?_, ?_⟩, fun y hy hb => ?_, fun y h1 h2 hb => ?_, fun y hy => ?_, hown',
    fun y => ?_, ?_⟩,
    htree, fun y hy => ?_, fun y hy i => ?_⟩
  · rw [hibit', Function.update_of_ne (by omega)]
    exact c.reserved.1
  · rw [hinodey 0 (by omega) (by omega)]
    exact c.reserved.2
  · by_cases hyx : y = x
    · rw [hyx, hinodex]
    · rw [hibit', Function.update_of_ne hyx] at hb
      have hyd : y ≠ d := by
        rintro rfl
        rw [hd3] at hb
        exact Bool.noConfusion hb
      rw [hinodey y hyd hyx]
      exact c.unused y hy hb
  · have hyx : y ≠ x := by
      rintro rfl
      rw [hibit', Function.update_self] at hb
      exact Bool.noConfusion hb
    rw [hibit', Function.update_of_ne hyx] at hb
    obtain ⟨u1, u2, u3⟩ := c.used y h1 h2 hb
    by_cases hyd : y = d
    · rw [hyd, hinoded, kindOf_of_mode hdirm, hdirl]
      rw [hyd] at u1 u2
      exact ⟨by rw [← hdirI]; exact u1, u2, hl0⟩
    · rw [hinodey y hyd hyx]
      exact ⟨u1, u2, u3⟩
  · rw [hinodey y (by omega) (by omega)]
    exact c.past y hy
  · by_cases hyx : y = x
    · rw [hyx, hinodex]
      exact shaped_zero _
    by_cases hyd : y = d
    · rw [hyd, hinoded, hblk']
      exact hent.shaped.congr (fun i => congrFun (hdirptr _) (.data i)) hdirs hdirm
    · rw [hinodey y hyd hyx, hblk']
      exact (c.shaped y).congr (fun i => hent.frame y hyd (.data i)) rfl rfl
  · show I'.tree.Rules
    rw [htree]
    exact Tree.remove_rules c.tree hcr
  · exact hinodey y (fun h0 => hy (.inl h0)) fun h0 => hy (.inr h0)
  · rw [hinodey y (fun h0 => hy (.inl h0)) fun h0 => hy (.inr h0)]
    exact hcont y (fun h0 => hy (.inl h0)) i

/-- The writes of `vfs_unlink` and `vfs_rmdir`. -/
theorem removeEntry_ends (g : Regions sb) (h : Shows sb s I r) (c : Consistent sb I)
    (hcr : I.tree.CanRemove d k x) (hname : (I.tree.entry d k).named = name) {kd : Kind}
    (hkd : I.tree.kind x = some kd) {links : UInt16} (hlinks : links.toNat = kd.dots)
    {Q : Unit → FileSystem → Prop}
    (hok : ∀ s' I', Shows sb s' I' r → Consistent sb I' → Removed I d k x I' → Q () s') :
    (removeEntry sb (I.inode d) name x (I.inode x) links).Ends s Q E := by
  have hdx := c.tree.ne_of_child hcr.child
  have hdk : kindOf (I.inode d) = some .dir := c.tree.kind_of_names hcr.names
  obtain ⟨hd1, hd2, hd3⟩ := c.ibit_of_kind (x := d) (by rw [hdk]; exact nofun)
  obtain ⟨hx1, hx2, hx3⟩ := c.ibit_of_kind (x := x) (c.tree.used_of_names hcr.names)
  -- the directory keeps at least its own "."
  have hl2 : 1 + kd.dots ≤ (I.inode d).linkCount.toNat := by
    have hcard := c.tree.links d (by show kindOf _ ≠ none; rw [hdk]; exact nofun)
    have hsub : (if kd = .dir then {(d, 0), (x, 1)} else {(d, 0)} : Set (Nat × Nat))
        ⊆ {p | I.tree.Names p.1 p.2 d} := by
      have hdot := (c.tree.dot d hdk).2
      intro p hp
      cases kd with
      | file =>
        rw [if_neg nofun] at hp
        rw [Set.mem_singleton_iff.mp hp]
        exact hdot
      | dir =>
        rw [if_pos rfl] at hp
        rcases hp with rfl | hp
        · exact hdot
        · rw [Set.mem_singleton_iff.mp hp]
          exact c.tree.dotdot_of_child hcr.child hkd
    have hle := Set.encard_le_encard hsub
    have hcard' : ((I.inode d).linkCount.toNat : ℕ∞)
        = Set.encard {p : Nat × Nat | I.tree.Names p.1 p.2 d} := hcard
    rw [← hcard'] at hle
    cases kd with
    | file =>
      rw [if_neg nofun, Set.encard_singleton] at hle
      exact_mod_cast hle
    | dir =>
      rw [if_pos rfl, Set.encard_pair (by simp [hdx])] at hle
      exact_mod_cast hle
  have hsub : ((I.inode d).linkCount - links).toNat = (I.inode d).linkCount.toNat - kd.dots := by
    rw [UInt16.toNat_sub_of_le _ _ (UInt16.le_iff_toNat_le.mpr (by omega)), hlinks]
  have hsub0 : (I.inode d).linkCount - links ≠ 0 := by
    intro h0
    rw [h0] at hsub
    have h1 : (0 : UInt16).toNat = 0 := rfl
    omega
  unfold removeEntry
  rw [Prog.ends_bind]
  refine dirRemove_ends g h c hcr.names hname fun s1 I1 hs1 ho1 hent => ?_
  rw [Prog.ends_bind]
  refine freeAllBlocks_ends g hs1 ho1 x fun s2 L hL hs2 ho2 => ?_
  rw [Prog.ends_bind]
  refine clearInode_ends g hs2 hx1 hx2 fun s3 hs3 => ?_
  rw [Prog.ends_bind]
  refine freeInode_ends g hs3 hx1 hx2 ?_ fun s4 hs4 => ?_
  · show I1.ibit x = true
    rw [hent.ibit]
    exact hx3
  rw [Prog.ends_bind]
  refine now_ends hs4 fun t s5 hs5 => ?_
  refine writeInode_ends g hs5 (c.id_eq (by rw [hdk]; exact nofun)) hd1 hd2 fun s6 hs6 => ?_
  obtain ⟨hc6, hrm⟩ := c.finishRemove (l := (I.inode d).linkCount - links) (t := t) hcr
    (I1.clearDBits L) hkd hent rfl rfl rfl ho2 hsub hsub0
  exact hok s6 _ hs6 hc6 hrm

end Remove

end ConcurrentFs
