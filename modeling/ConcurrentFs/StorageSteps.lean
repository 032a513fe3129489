/-
  ConcurrentFs.StorageSteps

  Every step of the engine keeps the invariant: one lemma for each step, and from
  them the invariant of every run.
-/
import ConcurrentFs.StorageInv

namespace ConcurrentFs

open Lib

/-! ## Operations and the cache -/

theorem CacheInv.mono {cache : Nat → Option Frame} {disk : Nat → Block} {h : History}
    {durableLsn durableLsn' : Nat} {txn : List Nat} (hc : CacheInv cache disk h durableLsn txn)
    (hle : durableLsn ≤ durableLsn') : CacheInv cache disk h durableLsn' txn :=
  { hc with dirty := fun b f hf hd => (hc.dirty b f hf hd).imp id (Nat.le_trans · hle) }

section Frames

variable {cache : Nat → Option Frame} {disk : Nat → Block} {h : History} {durableLsn : Nat}
  {txn : List Nat} {p : Pass} {b : Nat}

/-- A frame read in from disk. -/
def loaded (v : Block) : Frame := ⟨v, false, false, 0, 0⟩

theorem update_loaded (hn : cache b = none) {v : Block} {c : Nat} {f : Frame}
    (hf : f.dirty = true ∨ f.inTxn = true) :
    Function.update cache b (some (loaded v)) c = some f ↔ cache c = some f := by
  by_cases hc : c = b
  · subst hc
    rw [Function.update_self, hn]
    constructor
    · intro he
      cases he
      simp [loaded] at hf
    · nofun
  · rw [Function.update_of_ne hc]

theorem CacheInv.load (hc : CacheInv cache disk h durableLsn txn) (hb : b ≠ 0)
    (hn : cache b = none) :
    CacheInv (Function.update cache b (some (loaded (disk b)))) disk h durableLsn txn := by
  refine ⟨?_, ?_, ?_, ?_, hc.nodup, ?_⟩
  · intro c f hf
    by_cases hcb : c = b
    · subst hcb
      rw [Function.update_self] at hf
      cases hf
      exact hc.clean c hb (by simp [hn])
    · rw [Function.update_of_ne hcb] at hf
      exact hc.data c f hf
  · intro c hc0 hcl
    refine hc.clean c hc0 fun f hf => hcl f ?_
    rw [Function.update_of_ne, hf]
    rintro rfl
    simp [hn] at hf
  · intro c f hf hd
    exact hc.dirty c f ((update_loaded hn (Or.inl hd)).mp hf) hd
  · intro c
    refine (hc.inTxn c).trans ⟨?_, ?_⟩
    · rintro ⟨f, hf, ht⟩
      exact ⟨f, (update_loaded hn (Or.inr ht)).mpr hf, ht⟩
    · rintro ⟨f, hf, ht⟩
      exact ⟨f, (update_loaded hn (Or.inr ht)).mp hf, ht⟩
  · rw [Function.update_of_ne hb.symm]
    exact hc.zero

/-- Once its bytes are on disk, a frame outside any transaction may go. -/
theorem CacheInv.evict (hc : CacheInv cache disk h durableLsn txn) {f : Frame}
    (hf : cache b = some f) (ht : f.inTxn = false) {disk' : Nat → Block}
    (hdisk : ∀ c, c ≠ b → disk' c = disk c) (hb : disk' b = f.data) :
    CacheInv (Function.update cache b none) disk' h durableLsn txn := by
  have hold : ∀ c g, Function.update cache b none c = some g → c ≠ b ∧ cache c = some g := by
    intro c g hg
    by_cases hcb : c = b
    · subst hcb
      rw [Function.update_self] at hg
      cases hg
    · rw [Function.update_of_ne hcb] at hg
      exact ⟨hcb, hg⟩
  refine ⟨fun c g hg => hc.data c g (hold c g hg).2, ?_, fun c g hg => hc.dirty c g (hold c g hg).2,
    ?_, hc.nodup, ?_⟩
  · intro c hc0 hcl
    by_cases hcb : c = b
    · rw [hcb, hb]
      exact hc.data b f hf
    · rw [hdisk c hcb]
      refine hc.clean c hc0 fun g hg => hcl g ?_
      rw [Function.update_of_ne hcb]
      exact hg
  · intro c
    refine (hc.inTxn c).trans ⟨?_, fun ⟨g, hg, hgt⟩ => ⟨g, (hold c g hg).2, hgt⟩⟩
    rintro ⟨g, hg, hgt⟩
    refine ⟨g, ?_, hgt⟩
    rw [Function.update_of_ne, hg]
    rintro rfl
    rw [hf] at hg
    cases hg
    simp [ht] at hgt
  · by_cases h0 : 0 = b
    · rw [← h0, Function.update_self]
    · rw [Function.update_of_ne h0]
      exact hc.zero

/-- A block changed inside the running transaction: the frame holds what the change makes of what
    readers saw. -/
theorem CacheInv.write (hc : CacheInv cache disk h durableLsn txn) (hb : b ≠ 0) {g : Frame}
    {c : Change} (hcb : c.block = b) (hdata : g.data = c.run (h.visible b)) (hin : g.inTxn = true)
    (hg : g.dirty = true → ∃ f, cache b = some f ∧ f.dirty = true ∧ g.lsn = f.lsn) :
    CacheInv (Function.update cache b (some g)) disk
      { h with cur := h.cur ++ [c] } durableLsn (if b ∈ txn then txn else txn ++ [b]) := by
  have hvis : ({ h with cur := h.cur ++ [c] } : History).visible =
      Function.update h.visible b g.data := by
    rw [h.visible_concat, hcb, hdata]
  have hother : ∀ {x}, x ≠ b → Function.update cache b (some g) x = cache x := fun hxb =>
    Function.update_of_ne hxb ..
  refine ⟨?_, ?_, ?_, ?_, ?_, ?_⟩
  · intro x f hf
    rw [hvis]
    by_cases hxb : x = b
    · subst hxb
      rw [Function.update_self] at hf ⊢
      cases hf
      rfl
    · rw [hother hxb] at hf
      rw [Function.update_of_ne hxb]
      exact hc.data x f hf
  · intro x hx0 hcl
    rw [hvis]
    by_cases hxb : x = b
    · subst hxb
      have := (hcl g (Function.update_self ..)).2
      rw [hin] at this
      cases this
    · rw [hother hxb] at hcl
      rw [Function.update_of_ne hxb]
      exact hc.clean x hx0 hcl
  · intro x f hf hd
    by_cases hxb : x = b
    · subst hxb
      rw [Function.update_self] at hf
      cases hf
      obtain ⟨f, hf, hfd, hlsn⟩ := hg hd
      rw [hlsn]
      exact hc.dirty x f hf hfd
    · rw [hother hxb] at hf
      exact hc.dirty x f hf hd
  · intro x
    have hmem : x ∈ (if b ∈ txn then txn else txn ++ [b]) ↔ x ∈ txn ∨ x = b := by
      split
      · constructor
        · exact Or.inl
        · rintro (hm | rfl) <;> assumption
      · simp
    rw [hmem]
    by_cases hxb : x = b
    · subst hxb
      exact ⟨fun _ => ⟨g, Function.update_self .., hin⟩, fun _ => Or.inr rfl⟩
    · rw [hother hxb, ← hc.inTxn x]
      exact or_iff_left hxb
  · split
    · exact hc.nodup
    · rename_i hbt
      exact List.nodup_append.mpr ⟨hc.nodup, List.nodup_singleton b, by
        rintro x hx y hy rfl
        exact hbt (List.mem_singleton.mp hy ▸ hx)⟩
  · rw [Function.update_of_ne hb.symm]
    exact hc.zero

/-- A frame leaves its transaction, dirty. -/
theorem CacheInv.commitFrame {todo : List Nat}
    (hc : CacheInv cache disk h durableLsn (b :: todo)) {f g : Frame} (hf : cache b = some f)
    (hl : h.Logged b) (hlsn : g.lsn ≤ durableLsn) (hdata : g.data = f.data)
    (hd : g.dirty = true) (hin : g.inTxn = false) :
    CacheInv (Function.update cache b (some g)) disk h durableLsn todo := by
  have hb : b ≠ 0 := by
    rintro rfl
    rw [hc.zero] at hf
    cases hf
  have hother : ∀ {c}, c ≠ b → Function.update cache b (some g) c = cache c := fun hcb =>
    Function.update_of_ne hcb ..
  have hnot := (List.nodup_cons.mp hc.nodup).1
  refine ⟨?_, ?_, ?_, ?_, (List.nodup_cons.mp hc.nodup).2, ?_⟩
  · intro c k hk
    by_cases hcb : c = b
    · subst hcb
      rw [Function.update_self] at hk
      cases hk
      rw [hdata]
      exact hc.data c f hf
    · rw [hother hcb] at hk
      exact hc.data c k hk
  · intro c hc0 hcl
    by_cases hcb : c = b
    · subst hcb
      have := (hcl g (Function.update_self ..)).1
      rw [hd] at this
      cases this
    · rw [hother hcb] at hcl
      exact hc.clean c hc0 hcl
  · intro c k hk hkd
    by_cases hcb : c = b
    · subst hcb
      rw [Function.update_self] at hk
      cases hk
      exact ⟨hl, hlsn⟩
    · rw [hother hcb] at hk
      exact hc.dirty c k hk hkd
  · intro c
    by_cases hcb : c = b
    · subst hcb
      refine ⟨fun hm => absurd hm hnot, ?_⟩
      rintro ⟨k, hk, hkt⟩
      rw [Function.update_self] at hk
      cases hk
      rw [hin] at hkt
      cases hkt
    · rw [hother hcb, ← hc.inTxn c, List.mem_cons, or_iff_right hcb]
  · rw [Function.update_of_ne hb.symm]
    exact hc.zero

/-- What is on disk of a block counts only once no frame holds a change of it. -/
theorem CacheInv.redisk (hc : CacheInv cache disk h durableLsn txn) {disk' : Nat → Block}
    (hd : ∀ b, (∀ f, cache b = some f → f.dirty = false) → disk' b = disk b) :
    CacheInv cache disk' h durableLsn txn :=
  { hc with clean := fun b hb hcl => (hd b fun f hf => (hcl f hf).1).trans (hc.clean b hb hcl) }

theorem markFrame_apply (cache : Nat → Option Frame) (p : Pick) (b : Nat) :
    Storage.markFrame cache p b = (cache b).map fun f =>
      if p.blockNo = b ∧ p.version = f.version then { f with dirty := false } else f := by
  by_cases hb : p.blockNo = b
  · subst hb
    rw [Storage.markFrame, Function.update_self]
    cases cache p.blockNo with
    | none => rfl
    | some f =>
      obtain ⟨data, dirty, inTxn, lsn, version⟩ := f
      by_cases hv : version = p.version
      · subst hv
        cases dirty <;> simp
      · simp [hv, Ne.symm hv]
  · rw [Storage.markFrame, Function.update_of_ne (Ne.symm hb)]
    simp [hb]

/-- A frame after a mark: as before, but clean if what was written was its last change. -/
theorem markFrame_some {q : Pick} {f : Frame} (hf : Storage.markFrame cache q b = some f) :
    ∃ g, cache b = some g ∧ f.data = g.data ∧ f.inTxn = g.inTxn ∧ f.lsn = g.lsn ∧
      f.version = g.version ∧ (f.dirty = true → g.dirty = true) ∧
      (f.dirty = true → q.blockNo = b → q.version ≠ g.version) := by
  rw [markFrame_apply, Option.map_eq_some_iff] at hf
  obtain ⟨g, hg, rfl⟩ := hf
  refine ⟨g, hg, ?_⟩
  split
  · exact ⟨rfl, rfl, rfl, rfl, nofun, nofun⟩
  · rename_i hc
    exact ⟨rfl, rfl, rfl, rfl, id, fun _ h1 h2 => hc ⟨h1, h2⟩⟩

theorem markFrame_of_some (q : Pick) {g : Frame} (hg : cache b = some g) :
    ∃ f, Storage.markFrame cache q b = some f ∧ f.inTxn = g.inTxn ∧ f.version = g.version ∧
      (¬ (q.blockNo = b ∧ q.version = g.version) → f = g) := by
  rw [markFrame_apply, hg, Option.map_some]
  refine ⟨_, rfl, ?_, ?_, fun hne => if_neg hne⟩
  · split <;> rfl
  · split <;> rfl

/-- A frame is marked clean when its last change is on disk. -/
theorem CacheInv.mark (hc : CacheInv cache disk h durableLsn txn) {q : Pick}
    (hq : ∀ f, cache q.blockNo = some f → f.version = q.version → disk q.blockNo = f.data) :
    CacheInv (Storage.markFrame cache q) disk h durableLsn txn := by
  refine ⟨?_, ?_, ?_, ?_, hc.nodup, ?_⟩
  · intro b f hf
    obtain ⟨g, hg, hdata, -⟩ := markFrame_some hf
    rw [hdata]
    exact hc.data b g hg
  · intro b hb hcl
    by_cases hmark : ∃ g, cache b = some g ∧ q.blockNo = b ∧ q.version = g.version
    · obtain ⟨g, hg, rfl, hv⟩ := hmark
      rw [hq g hg hv.symm]
      exact hc.data _ g hg
    · refine hc.clean b hb fun g hg => ?_
      obtain ⟨f, hf, -, -, hsame⟩ := markFrame_of_some q hg
      rw [← hsame fun h => hmark ⟨g, hg, h⟩]
      exact hcl f hf
  · intro b f hf hd
    obtain ⟨g, hg, -, -, hlsn, -, hgd, -⟩ := markFrame_some hf
    rw [hlsn]
    exact hc.dirty b g hg (hgd hd)
  · intro b
    refine (hc.inTxn b).trans ⟨?_, ?_⟩
    · rintro ⟨g, hg, ht⟩
      obtain ⟨f, hf, hft, -⟩ := markFrame_of_some q hg
      exact ⟨f, hf, hft.trans ht⟩
    · rintro ⟨f, hf, ht⟩
      obtain ⟨g, hg, -, hft, -⟩ := markFrame_some hf
      exact ⟨g, hg, hft ▸ ht⟩
  · rw [markFrame_apply, hc.zero]
    rfl

theorem Pass.mem_held {q : Pick} :
    q ∈ p.held ↔ q ∈ p.written ∨ q ∈ p.copies.map Prod.fst ∨ q ∈ p.left ∨ q ∈ p.picks := by
  simp only [Pass.held, List.mem_append, or_assoc]

theorem Pass.held_of_copy {c : Pick × Block} (hc : c ∈ p.copies) : c.1 ∈ p.held :=
  Pass.mem_held.mpr (Or.inr (Or.inl (List.mem_map_of_mem hc)))

theorem Pass.held_of_written {q : Pick} (hq : q ∈ p.written) : q ∈ p.held :=
  Pass.mem_held.mpr (Or.inl hq)

/-- A frame that changes gets a new version: copies a pass took of it before are not mistaken for
    it. -/
theorem PassInv.update (hp : PassInv cache disk p) {g : Frame}
    (hg : ∀ f, cache b = some f → (f.dirty = true → g.dirty = true) ∧ f.version < g.version) :
    PassInv (Function.update cache b (some g)) disk p := by
  -- the frame itself, if a pass holds it, is past the version that was picked
  have hnew : ∀ q ∈ p.held, ∀ f, Function.update cache b (some g) q.blockNo = some f →
      f.version = q.version → cache q.blockNo = some f := by
    intro q hq f hf hv
    by_cases hb : q.blockNo = b
    · obtain ⟨f', hf', -, hv'⟩ := hp.held q hq
      rw [hb] at hf' hf
      rw [Function.update_self] at hf
      cases hf
      have := (hg f' hf').2
      omega
    · rwa [Function.update_of_ne hb] at hf
  refine ⟨hp.nodup, fun q hq => ?_, fun c hc f hf hv => ?_, fun q hq f hf hv => ?_⟩
  · obtain ⟨f, hf, hd, hv⟩ := hp.held q hq
    by_cases hb : q.blockNo = b
    · subst hb
      obtain ⟨hgd, hgv⟩ := hg f hf
      exact ⟨g, Function.update_self .., hgd hd, by omega⟩
    · exact ⟨f, by rw [Function.update_of_ne hb]; exact hf, hd, hv⟩
  · exact hp.copied c hc f (hnew c.1 (Pass.held_of_copy hc) f hf hv) hv
  · exact hp.written q hq f (hnew q (Pass.held_of_written hq) f hf hv) hv

/-- A frame that no pass holds goes, and may be written on the way. -/
theorem PassInv.evict (hp : PassInv cache disk p) (hb : b ∉ p.held.map Pick.blockNo)
    {disk' : Nat → Block} (hd : ∀ c, c ≠ b → disk' c = disk c) :
    PassInv (Function.update cache b none) disk' p := by
  have hne : ∀ q ∈ p.held, q.blockNo ≠ b := fun q hq h => hb (h ▸ List.mem_map_of_mem hq)
  refine ⟨hp.nodup, fun q hq => ?_, fun c hc f hf hv => ?_, fun q hq f hf hv => ?_⟩
  · rw [Function.update_of_ne (hne q hq)]
    exact hp.held q hq
  · rw [Function.update_of_ne (hne c.1 (Pass.held_of_copy hc))] at hf
    exact hp.copied c hc f hf hv
  · have hq' := hne q (Pass.held_of_written hq)
    rw [Function.update_of_ne hq'] at hf
    rw [hd _ hq']
    exact hp.written q hq f hf hv

/-- Nothing a pass holds is on disk in block 0. -/
theorem PassInv.redisk (hp : PassInv cache disk p) {disk' : Nat → Block} (hz : cache 0 = none)
    (hd : ∀ b, b ≠ 0 → disk' b = disk b) : PassInv cache disk' p := by
  refine { hp with written := fun q hq f hf hv => ?_ }
  rw [hd, hp.written q hq f hf hv]
  intro h0
  rw [h0, hz] at hf
  cases hf

/-- A pass goes on with what it holds. -/
theorem PassInv.goOn (hp : PassInv cache disk p) {p' : Pass} (hheld : p'.held.Subperm p.held)
    (hc : ∀ c ∈ p'.copies, c ∈ p.copies ∨ ∀ f, cache c.1.blockNo = some f → f.data = c.2)
    (hw : ∀ q ∈ p'.written, q ∈ p.written) : PassInv cache disk p' := by
  refine ⟨?_, fun q hq => hp.held q (hheld.subset hq), fun c hm f hf hv => ?_,
    fun q hq => hp.written q (hw q hq)⟩
  · obtain ⟨l, hperm, hsub⟩ := hheld
    exact (hperm.map _).nodup_iff.mp (hp.nodup.sublist (hsub.map _))
  · rcases hc c hm with hold | hnew
    · exact hp.copied c hold f hf hv
    · exact hnew f hf

/-- When it lets none of it go, a checkpoint's pass still holds every dirty frame. -/
theorem Pass.Complete.of_held {p' : Pass} (h : p.Complete cache) (ha : p.at_ ≠ .picking)
    (hleft : p'.left = []) (hheld : ∀ q ∈ p.held, q ∈ p'.held) : p'.Complete cache := by
  refine ⟨hleft, fun _ b f hf hd => ?_⟩
  obtain ⟨q, hq, hqb⟩ := h.all ha b f hf hd
  exact ⟨q, hheld q hq, hqb⟩

end Frames

/-- Writes to other blocks leave block 0 alone. -/
theorem SbInv.writeAll {img : BlockFile 4096} {sb : Superblock} {phase : Phase}
    {firstLsn nextLsn : Nat} (h : SbInv img sb phase firstLsn nextLsn) (ws : List (Nat × Block))
    (hws : ∀ w ∈ ws, w.1 ≠ 0) : SbInv (img.writeAll ws) sb phase firstLsn nextLsn := by
  have hon : ∀ x, OnDisk (img.writeAll ws) x → OnDisk img x := by
    rintro x (hx | ⟨v, hv, hx⟩)
    · exact Or.inl hx
    · rw [BlockFile.pending_writeAll, List.mem_append] at hv
      rcases hv with hv | hv
      · exact Or.inr ⟨v, hv, hx⟩
      · exact absurd rfl (hws _ hv)
  refine ⟨fun x hx => h.fixed x (hon x hx), fun hp x hx => h.clean hp x (hon x hx),
    fun x hx => h.lsn x (hon x hx), fun hp x hx => h.new hp x (hon x hx), fun hp => ?_, h.ownLsn,
    h.ownClean⟩
  rw [BlockFile.contents_writeAll, applyWrites_of_not_mem, h.current hp]
  intro hm
  obtain ⟨w, hw, hw0⟩ := List.mem_map.mp hm
  exact hws w hw hw0

namespace Storage

variable {s : Storage}

theorem acquire_of_none {b : Nat} (hn : s.cache b = none) :
    s.acquire b false = loaded (s.img.contents b) := by
  rw [acquire, hn]
  rfl

theorem Inv.load (h : s.Inv) {b : Nat} (hb : 1 ≤ b) (hn : s.cache b = none) :
    Inv { s with cache := Function.update s.cache b (some (s.acquire b false)) } := by
  rw [acquire_of_none hn]
  refine { h with cache := h.cache.load (by omega) hn, pass := ?_, writeBack := ?_, wrote := ?_ }
  · intro p hp
    exact (h.pass p hp).update fun f hf => by simp [hn] at hf
  · intro hp
    obtain ⟨p, hpass, hleft, hcomp⟩ := h.writeBack hp
    exact ⟨p, hpass, hleft, fun ha c f hf hd =>
      hcomp ha c f ((update_loaded hn (Or.inl hd)).mp hf) hd⟩
  · intro hp c f hf
    by_contra hd
    rw [Bool.not_eq_false] at hd
    exact absurd (h.wrote hp c f ((update_loaded hn (Or.inl hd)).mp hf)) (by simp [hd])

/-- What the cache parts of the invariant say once a frame is gone. -/
theorem Inv.evict_parts (h : s.Inv) {b : Nat} (hp : ¬ s.Pinned b) {disk : Nat → Block}
    (hd : ∀ c, c ≠ b → disk c = s.img.contents c) :
    (∀ p, s.pass = some p → PassInv (Function.update s.cache b none) disk p) ∧
    (s.phase = .writeBack → ∃ p, s.pass = some p ∧ p.Complete (Function.update s.cache b none)) ∧
    (s.phase.wrote = true → ∀ c f, Function.update s.cache b none c = some f →
    f.dirty = false) := by
  have hold : ∀ c g, Function.update s.cache b none c = some g → s.cache c = some g := by
    intro c g hg
    by_cases hcb : c = b
    · subst hcb
      rw [Function.update_self] at hg
      cases hg
    · rwa [Function.update_of_ne hcb] at hg
  refine ⟨fun p hpass => (h.pass p hpass).evict (fun hb => hp ⟨p, hpass, hb⟩) hd, fun hph => ?_,
    fun hph c f hf => h.wrote hph c f (hold c f hf)⟩
  obtain ⟨p, hpass, hleft, hcomp⟩ := h.writeBack hph
  exact ⟨p, hpass, hleft, fun ha c f hf => hcomp ha c f (hold c f hf)⟩

theorem Inv.evictClean (h : s.Inv) {b : Nat} {f : Frame} (hf : s.cache b = some f)
    (hp : ¬ s.Pinned b) (ht : f.inTxn = false) (hd : f.dirty = false) :
    Inv { s with cache := Function.update s.cache b none } := by
  obtain ⟨h1, h2, h3⟩ := h.evict_parts hp fun _ _ => rfl
  refine { h with cache := ?_, pass := h1, writeBack := h2, wrote := h3 }
  have hb : b ≠ 0 := by
    rintro rfl
    rw [h.cache.zero] at hf
    cases hf
  refine h.cache.evict hf ht (fun _ _ => rfl) ?_
  rw [h.cache.data b f hf]
  refine h.cache.clean b hb fun g hg => ?_
  rw [hf] at hg
  cases hg
  exact ⟨hd, ht⟩

theorem Inv.cached_ne_zero (h : s.Inv) {b : Nat} {f : Frame} (hf : s.cache b = some f) : b ≠ 0 := by
  rintro rfl
  rw [h.cache.zero] at hf
  cases hf

theorem Inv.flushed_of_dirty (h : s.Inv) {b : Nat} {f : Frame} (hf : s.cache b = some f)
    (hd : f.dirty = true) : s.phase.flushed = false := by
  by_contra hp
  have hw : s.phase.wrote = true := by
    revert hp
    cases s.phase <;> simp
  rw [h.wrote hw b f hf] at hd
  cases hd

theorem Inv.evictDirty (h : s.Inv) {b : Nat} {f : Frame} (hf : s.cache b = some f)
    (hp : ¬ s.Pinned b) (hd : f.dirty = true) (hm : s.MayWrite f) :
    Inv { s with img := s.img.write b f.data, cache := Function.update s.cache b none } := by
  have hother : ∀ c, c ≠ b → (s.img.write b f.data).contents c = s.img.contents c := fun c hc => by
    rw [BlockFile.contents_write, Function.update_of_ne hc]
  obtain ⟨h1, h2, h3⟩ := h.evict_parts hp hother
  have hb := h.cached_ne_zero hf
  refine { h with
    cache := ?_, pass := h1, writeBack := h2, wrote := h3, pending := ?_, flushed := ?_,
    sb := h.sb.writeAll [(b, f.data)] (by simpa using hb) }
  · apply h.cache.evict hf hm.1 hother
    rw [BlockFile.contents_write, Function.update_self]
  · intro w hw hw0
    rcases List.mem_append.mp hw with hw | hw
    · exact h.pending w hw hw0
    · rw [List.mem_singleton.mp hw]
      exact (h.cache.dirty b f hf hd).1
  · intro hph
    rw [h.flushed_of_dirty hf hd] at hph
    cases hph

theorem inTxnBlocks_idle (hp : s.phase = .idle) : s.inTxnBlocks = s.txnBlocks := by
  simp [inTxnBlocks, hp]

theorem acquire_inTxn (h : s.Inv) (hp : s.phase = .idle) (b : Nat) (fresh : Bool) :
    (s.acquire b fresh).inTxn = true ↔ b ∈ s.txnBlocks := by
  have := h.cache.inTxn b
  rw [inTxnBlocks_idle hp] at this
  rw [this, acquire]
  cases s.cache b with
  | some f => simp
  | none => simp

/-- `fn` is run on what readers see of the block, or on zeros. -/
theorem Inv.before_eq (h : s.Inv) {b : Nat} (hb : b ≠ 0) (fresh : Bool) :
    s.before b fresh = if fresh then Bytes.zero 4096 else s.hist.visible b := by
  rw [before]
  congr 1
  cases hf : s.cache b with
  | some f =>
    rw [acquire, hf]
    exact h.cache.data b f hf
  | none =>
    -- not cached: what is on disk is what they see
    rw [acquire_of_none hf]
    exact h.cache.clean b hb fun f hf' => by rw [hf] at hf'; cases hf'

theorem Inv.write (h : s.Inv) (hp : s.phase = .idle) {b : Nat} (hb : 1 ≤ b)
    (hlt : b < s.sb.totalBlocks.toNat) (fresh : Bool) (fn : Block → Block) :
    (s.write b fresh fn).Inv := by
  have htxn : (if (s.acquire b fresh).inTxn then s.txnBlocks else s.txnBlocks ++ [b]) =
      if b ∈ s.txnBlocks then s.txnBlocks else s.txnBlocks ++ [b] :=
    if_congr (acquire_inTxn h hp b fresh) rfl rfl
  have hmem : ∀ c, c ∈ (if b ∈ s.txnBlocks then s.txnBlocks else s.txnBlocks ++ [b]) →
      c ∈ s.txnBlocks ∨ c = b := by
    intro c
    split
    · exact Or.inl
    · simp
  have hmem' : ∀ c, c ∈ s.txnBlocks ∨ c = b →
      c ∈ (if b ∈ s.txnBlocks then s.txnBlocks else s.txnBlocks ++ [b]) := by
    intro c
    split
    · rintro (hm | rfl) <;> assumption
    · simp
  have hframe : ∀ f, s.cache b = some f → s.acquire b fresh = f := fun f hf => by
    rw [acquire, hf]
    rfl
  have hnone : s.cache b = none → (s.acquire b fresh).dirty = false := fun hn => by
    rw [acquire, hn]
    rfl
  rw [Storage.write, htxn]
  refine { h with
    quiet := ?_, cur := ?_, curRange := ?_, cache := ?_, pass := ?_, writeBack := ?_, wrote := ?_,
    flushed := ?_, promise := ?_, phase := by simp [hp], hist := { h.hist with },
    log := { h.log with } }
  · exact fun hi => absurd hp hi
  · intro w hw
    rcases List.mem_append.mp hw with hw | hw
    · exact hmem' _ (Or.inl (h.cur w hw))
    · rw [List.mem_singleton.mp hw]
      exact hmem' _ (Or.inr rfl)
  · intro c hc
    rcases hmem c hc with hc | rfl
    · exact h.curRange c hc
    · exact ⟨Nat.ne_of_gt hb, hlt⟩
  · have hc := h.cache
    rw [inTxnBlocks_idle hp] at hc
    have hw := hc.write (b := b) (c := ⟨b, fresh, fn⟩) (g := { s.acquire b fresh with
        data := fn (s.before b fresh), inTxn := true, version := (s.acquire b fresh).version + 1 })
      (Nat.ne_of_gt hb) rfl (congrArg fn (h.before_eq (Nat.ne_of_gt hb) fresh)) rfl (fun hd => by
        cases hf : s.cache b with
        | none => rw [hnone hf] at hd; cases hd
        | some f => exact ⟨f, rfl, by rw [hframe f hf] at hd; exact hd, by rw [hframe f hf]⟩)
    rwa [inTxnBlocks_idle (by exact hp)]
  · intro p hpass
    refine (h.pass p hpass).update fun f hf => ?_
    rw [hframe f hf]
    exact ⟨id, Nat.lt_succ_self _⟩
  · intro hph
    exact absurd (hp.symm.trans hph) (by simp)
  · intro hph
    replace hph : s.phase.wrote = true := hph
    simp [hp] at hph
  · intro hph
    replace hph : s.phase.flushed = true := hph
    simp [hp] at hph
  · refine { h.promise with need := fun n hn => ?_ }
    rcases h.promise.need n hn with hle | ⟨-, he⟩
    · exact Or.inl hle
    · exact Or.inr ⟨by simp, he⟩

theorem Inv.beginOp (h : s.Inv) (hp : s.phase = .idle) :
    Inv { s with running := s.running + 1 } :=
  { h with quiet := fun hi => absurd hp hi }

theorem Inv.endOp (h : s.Inv) (hp : s.phase = .idle) : s.endOp.Inv := by
  have hpr := h.promise
  refine { h with
    quiet := fun hi => absurd hp hi, hist := { h.hist with }, log := { h.log with },
    cache := { h.cache with }, phase := ?_, promise := ⟨?_, ?_, ?_, ?_, ?_, hpr.promised, ?_, ?_⟩ }
  · show s.phase.Of _ _
    simp [hp]
  · show (s.hist.need ++ [_]).length = s.ended + 1
    rw [List.length_append, hpr.counted]
    rfl
  · intro n hn
    rcases List.mem_append.mp hn with hn | hn
    · exact hpr.need n hn
    · rw [List.mem_singleton.mp hn]
      by_cases hc : s.hist.cur = []
      · left
        rw [if_pos hc]
        exact Nat.le_refl _
      · right
        rw [if_neg hc]
        exact ⟨hc, rfl⟩
  · intro hph
    replace hph : s.phase.committing = true := hph
    simp [hp] at hph
  · exact Nat.le_succ_of_le hpr.committed
  · intro n hn
    refine hpr.durable n ?_
    have hle : s.committedThrough ≤ s.hist.need.length := by
      rw [hpr.counted]
      exact hpr.committed
    replace hn : n ∈ (s.hist.need ++ [_]).take s.committedThrough := hn
    rwa [List.take_append_of_le_length hle] at hn
  · intro c hc
    obtain ⟨h1, h2, h3⟩ := hpr.calls c hc
    exact ⟨Nat.le_succ_of_le h1, h2, h3⟩
  · rintro (hph | hph) <;> exact absurd (hp.symm.trans hph) (by simp)

/-! ## Write-back passes -/

theorem Inv.passStart (h : s.Inv) (hn : s.pass = none) :
    Inv { s with pass := some ⟨[], [], .picking⟩ } := by
  refine { h with pass := ?_, writeBack := ?_ }
  · rintro p ⟨⟩
    exact ⟨List.nodup_nil, nofun, nofun, nofun⟩
  · intro hp
    obtain ⟨p, hpass, -⟩ := h.writeBack hp
    rw [hn] at hpass
    cases hpass

theorem Inv.passPick (h : s.Inv) {q : Pick} {picks : List Pick}
    (hp : s.pass = some ⟨picks, [], .picking⟩) (hq : s.Eligible q)
    (hnew : q.blockNo ∉ picks.map Pick.blockNo) :
    Inv { s with pass := some ⟨picks ++ [q], [], .picking⟩ } := by
  have hpi := h.pass _ hp
  obtain ⟨f, hf, hd, -, hv⟩ := hq
  refine { h with pass := ?_, writeBack := fun hph => ?_ }
  · rintro p ⟨⟩
    refine ⟨?_, fun r hr => ?_, nofun, nofun⟩
    · show ((picks ++ [q]).map Pick.blockNo).Nodup
      rw [List.map_append, List.nodup_append]
      refine ⟨hpi.nodup, List.nodup_singleton _, fun b hb c hc hbc => hnew ?_⟩
      rwa [← List.mem_singleton.mp hc, ← hbc]
    · replace hr : r ∈ picks ++ [q] := hr
      rcases List.mem_append.mp hr with hr | hr
      · exact hpi.held r hr
      · rw [List.mem_singleton.mp hr]
        exact ⟨f, hf, hd, Nat.le_of_eq hv⟩
  · exact ⟨_, rfl, rfl, fun ha => absurd rfl ha⟩

/-- While no transaction is open, nothing keeps a dirty frame from the disk. -/
theorem Inv.mayWrite_of_dirty (h : s.Inv) (ht : s.inTxnBlocks = []) {b : Nat} {f : Frame}
    (hf : s.cache b = some f) (hd : f.dirty = true) : s.MayWrite f := by
  refine ⟨?_, (h.cache.dirty b f hf hd).2⟩
  by_contra hin
  rw [Bool.not_eq_false] at hin
  have := (h.cache.inTxn b).mpr ⟨f, hf, hin⟩
  rw [ht] at this
  cases this

theorem Inv.inTxnBlocks_of_not_idle (h : s.Inv) (hi : s.phase ≠ .idle)
    (hl : s.phase.logging = false) (hfr : ∀ lsn todo, s.phase ≠ .frames lsn todo) :
    s.inTxnBlocks = [] := by
  rw [inTxnBlocks, hl, if_neg (by simp)]
  split
  · rename_i lsn todo hph
    exact absurd hph (hfr lsn todo)
  · exact (h.quiet hi).2.1

theorem Inv.mayWrite_of_writeBack (h : s.Inv) (hp : s.phase = .writeBack) {b : Nat} {f : Frame}
    (hf : s.cache b = some f) (hd : f.dirty = true) : s.MayWrite f :=
  h.mayWrite_of_dirty (h.inTxnBlocks_of_not_idle (by simp [hp]) (by simp [hp]) (by simp [hp])) hf hd

/-- A pass goes on with what it holds: the invariant stays. -/
theorem Inv.passGoOn (h : s.Inv) {p p' : Pass} (hp : s.pass = some p)
    (hheld : p'.held.Subperm p.held)
    (hc : ∀ c ∈ p'.copies, c ∈ p.copies ∨ ∀ f, s.cache c.1.blockNo = some f → f.data = c.2)
    (hw : ∀ q ∈ p'.written, q ∈ p.written)
    (hcomp : s.phase = .writeBack → p.Complete s.cache → p'.Complete s.cache) :
    Inv { s with pass := some p' } := by
  refine { h with pass := ?_, writeBack := fun hph => ?_ }
  · rintro q ⟨⟩
    exact (h.pass _ hp).goOn hheld hc hw
  · obtain ⟨q, hq, hq'⟩ := h.writeBack hph
    rw [hp] at hq
    cases hq
    exact ⟨_, rfl, hcomp hph hq'⟩

theorem Inv.passSort (h : s.Inv) {picks : List Pick} (hp : s.pass = some ⟨picks, [], .picking⟩)
    (hall : s.phase = .writeBack → ∀ q, s.Eligible q → q ∈ picks) :
    Inv { s with
      pass := some ⟨picks.mergeSort fun a b => a.blockNo ≤ b.blockNo, [], .loop⟩ } := by
  have hperm := List.mergeSort_perm picks fun a b => a.blockNo ≤ b.blockNo
  have hheld : (Pass.held ⟨picks.mergeSort fun a b => a.blockNo ≤ b.blockNo, [], .loop⟩).Subperm
      picks := hperm.subperm
  apply h.passGoOn hp hheld nofun nofun
  -- every dirty frame may be written, so every one was picked
  refine fun hph _ => ⟨rfl, fun _ b f hf hd => ⟨⟨b, f.version⟩, ?_, rfl, rfl⟩⟩
  apply hperm.mem_iff.mpr
  exact hall hph _ ⟨f, hf, hd, h.mayWrite_of_writeBack hph hf hd, rfl⟩

theorem Inv.passCopy (h : s.Inv) {q : Pick} {picks : List Pick} {run : List (Pick × Block)}
    {f : Frame} (hp : s.pass = some ⟨q :: picks, run, .loop⟩) (hf : s.cache q.blockNo = some f) :
    Inv { s with pass := some ⟨picks, run, .copied q f.data⟩ } := by
  have hheld : (Pass.mk picks run (.copied q f.data)).held
      = (Pass.mk (q :: picks) run .loop).held := by
    simp [Pass.held, Pass.written, Pass.copies, Pass.left]
  apply h.passGoOn hp (by rw [hheld])
  · intro c hc
    rcases List.mem_append.mp hc with hc | hc
    · exact Or.inl hc
    · right
      rw [List.mem_singleton.mp hc]
      rintro g hg
      rw [hf] at hg
      cases hg
      rfl
  · nofun
  · exact fun _ hcomp => hcomp.of_held nofun rfl fun r hr => hheld ▸ hr

theorem Inv.passJoin (h : s.Inv) {q : Pick} {v : Block} {picks : List Pick}
    {run : List (Pick × Block)} (hp : s.pass = some ⟨picks, run, .copied q v⟩) :
    Inv { s with pass := some ⟨picks, run ++ [(q, v)], .loop⟩ } :=
  h.passGoOn hp (.refl _) (fun _ hc => Or.inl hc) nofun fun _ hcomp =>
    hcomp.of_held nofun rfl fun _ hr => hr

theorem Inv.passLeave (h : s.Inv) {q : Pick} {v : Block} {picks : List Pick}
    {run : List (Pick × Block)} {f : Frame} (hp : s.pass = some ⟨picks, run, .copied q v⟩)
    (hf : s.cache q.blockNo = some f) (hm : ¬ s.MayWrite f ∨ 0 < s.running) :
    Inv { s with pass := some ⟨picks, run, .leaving q⟩ } := by
  have hheld : (Pass.mk picks run (.leaving q)).held = (Pass.mk picks run (.copied q v)).held := by
    simp [Pass.held, Pass.written, Pass.copies, Pass.left]
  apply h.passGoOn hp (by rw [hheld])
  · exact fun c hc => Or.inl (List.mem_append_left _ hc)
  · nofun
  · -- a checkpoint leaves nothing out
    intro hph _
    obtain ⟨g, hg, hd, -⟩ := (h.pass _ hp).held q
      (Pass.held_of_copy (c := (q, v)) (List.mem_append_right _ (List.mem_singleton_self _)))
    rw [hf] at hg
    cases hg
    rcases hm with hm | hm
    · exact absurd (h.mayWrite_of_writeBack hph hf hd) hm
    · have := (h.quiet (by simp [hph])).2.2
      omega

/-- What a run that is written puts on disk: its copies, and nothing else. -/
theorem writeRun_apply {run : List (Pick × Block)} (hnd : (run.map fun c => c.1.blockNo).Nodup)
    (d : Nat → Block) :
    (∀ c ∈ run, applyWrites d (run.map fun c => (c.1.blockNo, c.2)) c.1.blockNo = c.2) ∧
    ∀ b, (∀ c ∈ run, c.1.blockNo ≠ b) →
      applyWrites d (run.map fun c => (c.1.blockNo, c.2)) b = d b := by
  refine ⟨fun c hc => ?_, fun b hb => ?_⟩
  · apply applyWrites_of_forall
    · rw [List.map_map]
      exact List.mem_map_of_mem (f := fun c : Pick × Block => c.1.blockNo) hc
    · -- no two copies of one block: what is written last is the only one
      intro w hw hwb
      obtain ⟨c', hc', rfl⟩ := List.mem_map.mp hw
      rw [List.inj_on_of_nodup_map hnd hc' hc hwb]
  · apply applyWrites_of_not_mem
    intro hm
    rw [List.map_map, List.mem_map] at hm
    obtain ⟨c, hc, hcb⟩ := hm
    exact hb c hc hcb

theorem Inv.passFlush (h : s.Inv) {p : Pass} (hp : s.pass = some p)
    (hat : (p.at_ = .loop ∧ ∀ q ∈ p.picks.head?, ¬ p.joinsRun q) ∨ ∃ q, p.at_ = .leaving q) :
    Inv { s with
      img := s.img.writeAll (p.run.map fun c => (c.1.blockNo, c.2))
      pass := some ⟨p.picks, [], .marking (p.run.map Prod.fst) p.left.head?⟩ } := by
  have hpi := h.pass _ hp
  obtain ⟨picks, run, at_⟩ := p
  have hcop : Pass.copies ⟨picks, run, at_⟩ = run := by
    rcases hat with ⟨rfl, -⟩ | ⟨q, rfl⟩ <;> rfl
  have hheld' : Pass.held ⟨picks, [], .marking (run.map Prod.fst)
      (Pass.left ⟨picks, run, at_⟩).head?⟩ = Pass.held ⟨picks, run, at_⟩ := by
    rcases hat with ⟨rfl, -⟩ | ⟨q, rfl⟩ <;> simp [Pass.held, Pass.written, Pass.copies, Pass.left]
  have hheld : ∀ c ∈ run, ∃ f, s.cache c.1.blockNo = some f ∧ f.dirty = true := fun c hc => by
    obtain ⟨f, hf, hd, -⟩ := hpi.held c.1 (Pass.held_of_copy (by rwa [hcop]))
    exact ⟨f, hf, hd⟩
  have hnd : (run.map fun c => c.1.blockNo).Nodup := by
    have := hpi.nodup
    rw [Pass.held, hcop, List.map_append, List.map_append, List.map_append, List.map_map] at this
    exact (List.nodup_append.mp (List.nodup_append.mp (List.nodup_append.mp this).1).1).2.1
  have hne : ∀ w ∈ run.map (fun c => (c.1.blockNo, c.2)), w.1 ≠ 0 := by
    intro w hw
    obtain ⟨c, hc, rfl⟩ := List.mem_map.mp hw
    obtain ⟨f, hf, -⟩ := hheld c hc
    exact h.cached_ne_zero hf
  obtain ⟨hwrote, hother⟩ := writeRun_apply hnd s.img.contents
  refine { h with
    cache := h.cache.redisk fun b hcl => ?_, pass := ?_, writeBack := fun hph => ?_,
    pending := ?_, flushed := ?_, sb := h.sb.writeAll _ hne }
  · -- a frame in the run is dirty
    rw [BlockFile.contents_writeAll]
    apply hother
    rintro c hc rfl
    obtain ⟨f, hf, hd⟩ := hheld c hc
    rw [hcl f hf] at hd
    cases hd
  · rintro q ⟨⟩
    refine ⟨by rw [hheld']; exact hpi.nodup, by rw [hheld']; exact hpi.held, nofun, ?_⟩
    intro q hq f hf hv
    obtain ⟨c, hc, rfl⟩ := List.mem_map.mp hq
    rw [BlockFile.contents_writeAll, hwrote c hc]
    exact (hpi.copied c (by rwa [hcop]) f hf hv).symm
  · obtain ⟨q, hq, hcomp⟩ := h.writeBack hph
    rw [hp] at hq
    cases hq
    refine ⟨_, rfl, hcomp.of_held ?_ ?_ fun r hr => by rwa [hheld']⟩
    · rcases hat with ⟨rfl, -⟩ | ⟨q, rfl⟩ <;> nofun
    · rw [hcomp.left]
      rfl
  · intro w hw hw0
    rcases List.mem_append.mp hw with hw | hw
    · exact h.pending w hw hw0
    · obtain ⟨c, hc, rfl⟩ := List.mem_map.mp hw
      obtain ⟨f, hf, hd⟩ := hheld c hc
      exact (h.cache.dirty _ f hf hd).1
  · intro hph b hb
    have hrun : run = [] := by
      cases run with
      | nil => rfl
      | cons c run =>
        obtain ⟨f, hf, hd⟩ := hheld c (List.mem_cons_self ..)
        rw [h.flushed_of_dirty hf hd] at hph
        cases hph
    subst hrun
    simpa [BlockFile.writeAll] using h.flushed hph b hb

theorem Inv.passMark (h : s.Inv) {q : Pick} {todo picks : List Pick} {left : Option Pick}
    (hp : s.pass = some ⟨picks, [], .marking (q :: todo) left⟩) :
    Inv { s with
      cache := Storage.markFrame s.cache q, pass := some ⟨picks, [], .marking todo left⟩ } := by
  have hpi := h.pass _ hp
  have hheld : Pass.held ⟨picks, [], .marking (q :: todo) left⟩ =
      q :: Pass.held ⟨picks, [], .marking todo left⟩ := rfl
  have hnd := hpi.nodup
  rw [hheld, List.map_cons, List.nodup_cons] at hnd
  have hne : ∀ r ∈ Pass.held ⟨picks, [], .marking todo left⟩, q.blockNo ≠ r.blockNo :=
    fun r hr he => hnd.1 (he ▸ List.mem_map_of_mem hr)
  refine { h with
    cache := h.cache.mark fun f => hpi.written q (List.mem_cons_self ..) f, pass := ?_,
    writeBack := fun hph => ?_, wrote := fun hph b f hf => ?_ }
  · rintro p ⟨⟩
    refine ⟨hnd.2, fun r hr => ?_, nofun, fun r hr f hf hv => ?_⟩
    · obtain ⟨g, hg, hd, hv⟩ := hpi.held r (hheld ▸ List.mem_cons_of_mem q hr)
      obtain ⟨f, hf, -, -, hsame⟩ := markFrame_of_some q hg
      rw [hsame fun hc => hne r hr hc.1] at hf
      exact ⟨g, hf, hd, hv⟩
    · obtain ⟨g, hg, hdata, -, -, hver, -⟩ := markFrame_some hf
      rw [hdata]
      exact hpi.written r (List.mem_cons_of_mem _ hr) g hg (hver.symm.trans hv)
  · obtain ⟨p, hp', hleft, hcomp⟩ := h.writeBack hph
    rw [hp] at hp'
    cases hp'
    refine ⟨_, rfl, hleft, fun _ b f hf hd => ?_⟩
    obtain ⟨g, hg, -, -, -, hver, hgd, hnew⟩ := markFrame_some hf
    obtain ⟨r, hr, hrb, hrv⟩ := hcomp nofun b g hg (hgd hd)
    refine ⟨r, ?_, hrb, hrv.trans hver.symm⟩
    -- still dirty, so not the one that was marked
    rw [hheld] at hr
    rcases List.mem_cons.mp hr with rfl | hr
    · exact absurd hrv (hnew hd hrb)
    · exact hr
  · obtain ⟨g, hg, -, -, -, -, hgd, -⟩ := markFrame_some hf
    by_contra hd
    rw [Bool.not_eq_false] at hd
    rw [h.wrote hph b g hg] at hgd
    exact absurd (hgd hd) (by simp)

theorem Inv.passMarked (h : s.Inv) {picks : List Pick} {left : Option Pick}
    (hp : s.pass = some ⟨picks, [], .marking [] left⟩) :
    Inv { s with pass := some ⟨picks, [], .loop⟩ } := by
  apply h.passGoOn hp
  · exact (List.sublist_append_right _ _).subperm
  · nofun
  · nofun
  · intro _ hcomp
    apply hcomp.of_held nofun rfl
    intro q hq
    rcases Pass.mem_held.mp hq with hq | hq | hq | hq
    · cases hq
    · cases hq
    · rw [hcomp.left] at hq
      cases hq
    · exact hq

theorem Inv.passEnd (h : s.Inv) (hph : s.phase ≠ .writeBack) : Inv { s with pass := none } :=
  { h with pass := nofun, writeBack := fun hp => absurd hp hph }

end Storage

/-! ## Committing -/

/-- Between checkpoints nothing about block 0 changes. -/
theorem SbInv.plain {img : BlockFile 4096} {sb : Superblock} {phase phase' : Phase}
    {firstLsn nextLsn nextLsn' : Nat} (h : SbInv img sb phase firstLsn nextLsn)
    (hp : phase.plain = true) (hp' : phase'.plain = true) :
    SbInv img sb phase' firstLsn nextLsn' := by
  have hmoved : ∀ p : Phase, p.plain = true → p.moved = false := by
    intro p
    cases p <;> simp
  have hends : ∀ p : Phase, p.plain = true → p.ends = false := by
    intro p
    cases p <;> simp
  refine ⟨h.fixed, fun _ => h.clean (hends _ hp), fun x hx => ?_, ?_, fun _ => h.current ?_, ?_,
    fun _ _ => h.ownClean ?_ ?_⟩
  · refine Or.inl ((h.lsn x hx).resolve_right fun hm => ?_)
    rw [hmoved _ hp] at hm
    exact absurd hm.1 (by simp)
  · rintro (rfl | rfl) <;> simp at hp'
  · rintro rfl
    simp at hp
  · have := h.ownLsn
    rw [hmoved _ hp] at this
    rw [hmoved _ hp']
    exact this
  · rintro rfl
    simp at hp
  · rintro rfl
    simp at hp

/-- Block 0 as it was just synced. -/
theorem SbInv.of_sync {img : BlockFile 4096} {sb : Superblock} {phase : Phase}
    {firstLsn nextLsn : Nat} (hcur : superblockIn (img.contents 0) = sb)
    (hlsn : sb.lastCheckpointLsn =
      UInt64.ofNat (if phase.moved then nextLsn - 1 else firstLsn - 1))
    (hends : phase.ends = false → sb.cleanUnmount = 0)
    (hclean : phase ≠ .closeSync → phase ≠ .closed → sb.cleanUnmount = 0) :
    SbInv img.sync sb phase firstLsn nextLsn := by
  have hon : ∀ x, OnDisk img.sync x → x = sb := by
    rintro x (hx | ⟨v, hv, -⟩)
    · rw [hx]
      exact hcur
    · cases hv
  refine ⟨fun x hx => by rw [hon x hx], fun he x hx => by rw [hon x hx]; exact hends he,
    fun x hx => ?_, fun hp x hx => ?_, fun _ => hcur, hlsn, hclean⟩
  · rw [hon x hx, hlsn]
    cases phase.moved with
    | true => exact Or.inr ⟨rfl, rfl⟩
    | false => exact Or.inl rfl
  · rw [hon x hx, hlsn]
    rcases hp with rfl | rfl <;> rfl

/-- Block 0 is written and not yet synced: the old superblock or the new one. -/
theorem SbInv.write {img : BlockFile 4096} {sb sb' : Superblock} {phase phase' : Phase}
    {firstLsn nextLsn : Nat} (h : SbInv img sb phase firstLsn nextLsn)
    (hfix : sb'.fixed = sb.fixed) (hm : phase.moved = false)
    (hends : phase'.ends = false → phase.ends = false ∧ sb'.cleanUnmount = 0)
    (hlsn : sb'.lastCheckpointLsn =
      UInt64.ofNat (if phase'.moved then nextLsn - 1 else firstLsn - 1))
    (hnew : phase' ≠ .sbSynced ∧ phase' ≠ .truncated)
    (hclean : phase' ≠ .closeSync → phase' ≠ .closed → sb'.cleanUnmount = 0) :
    SbInv (img.write 0 (superblockBlock sb')) sb' phase' firstLsn nextLsn := by
  have hon : ∀ x, OnDisk (img.write 0 (superblockBlock sb')) x → OnDisk img x ∨ x = sb' := by
    rintro x (hx | ⟨v, hv, hx⟩)
    · exact Or.inl (Or.inl hx)
    · rw [BlockFile.pending_write, List.mem_append, List.mem_singleton, Prod.mk.injEq] at hv
      rcases hv with hv | ⟨-, rfl⟩
      · exact Or.inl (Or.inr ⟨v, hv, hx⟩)
      · rw [superblockIn_superblockBlock] at hx
        exact Or.inr hx
  refine ⟨fun x hx => ?_, fun he x hx => ?_, fun x hx => ?_, ?_, fun _ => ?_, hlsn, hclean⟩
  · rcases hon x hx with hx | rfl
    · rw [h.fixed x hx, hfix]
    · rfl
  · rcases hon x hx with hx | rfl
    · exact h.clean (hends he).1 x hx
    · exact (hends he).2
  · rcases hon x hx with hx | rfl
    · left
      refine (h.lsn x hx).resolve_right fun hmv => ?_
      rw [hm] at hmv
      exact absurd hmv.1 (by simp)
    · rw [hlsn]
      cases phase'.moved with
      | true => exact Or.inr ⟨rfl, rfl⟩
      | false => exact Or.inl rfl
  · rintro (hp | hp)
    · exact absurd hp hnew.1
    · exact absurd hp hnew.2
  · rw [BlockFile.contents_write, Function.update_self, superblockIn_superblockBlock]

theorem PromiseInv.rephase {h : History} {phase phase' : Phase}
    {ended covered committedThrough checkpointsDone : Nat}
    (hp : PromiseInv h phase ended covered committedThrough checkpointsDone)
    (hc : phase'.committing = true → phase.committing = true)
    (hcl : phase' = .closing ∨ phase' = .closeSync → phase = .closing ∨ phase = .closeSync) :
    PromiseInv h phase' ended covered committedThrough checkpointsDone :=
  { hp with taken := fun h => hp.taken (hc h), closed := fun h => hp.closed (hcl h) }

namespace Wal

@[simp] theorem flush_durableLsn (w : Wal) : w.flush.durableLsn = w.durableLsn := by
  rw [Wal.flush]
  split <;> rfl

@[simp] theorem flush_nextLsn (w : Wal) : w.flush.nextLsn = w.nextLsn := by
  rw [Wal.flush]
  split <;> rfl

@[simp] theorem stageRecord_durableLsn (w : Wal) (item : WalItem) (txnId : Nat) :
    (w.stageRecord item txnId).durableLsn = w.durableLsn := by
  simp only [Wal.stageRecord]
  split
  · exact w.flush_durableLsn
  · rfl

@[simp] theorem stageRecord_nextLsn (w : Wal) (item : WalItem) (txnId : Nat) :
    (w.stageRecord item txnId).nextLsn = w.nextLsn + 1 := by
  simp only [Wal.stageRecord]
  split
  · exact congrArg (· + 1) w.flush_nextLsn
  · rfl

@[simp] theorem append_nextLsn (w : Wal) (item : WalItem) (txnId : Nat) :
    (w.append item txnId).nextLsn = w.nextLsn + 1 := by
  rw [Wal.append, flush_nextLsn]
  exact congrArg (· + 1) w.flush_nextLsn

@[simp] theorem append_durableLsn (w : Wal) (item : WalItem) (txnId : Nat) :
    (w.append item txnId).durableLsn = w.durableLsn := by
  rw [Wal.append, flush_durableLsn]
  exact w.flush_durableLsn

end Wal

namespace History

variable {h : History}

theorem logged_taken {t : Txn} (hd : h.durable ≤ h.txns.length) (b : Nat) :
    (h.taken t).Logged b ↔ h.Logged b := by
  refine exists_congr fun i => exists_congr fun u => and_congr_right fun _ => and_congr_right
    fun hi => ?_
  rw [taken, List.getElem?_append_left (Nat.lt_of_lt_of_le hi hd)]

theorem last_taken (t : Txn) : (h.taken t).last = t := by
  simp [last, taken]

theorem inLog_taken {t : Txn} (hd : h.durable ≤ h.txns.length) : (h.taken t).inLog = h.inLog := by
  rw [inLog, inLog, taken, List.take_append_of_le_length hd]

theorem getElem?_last (hn : h.txns ≠ []) : h.txns[h.txns.length - 1]? = some h.last := by
  rw [last, ← List.getLast?_eq_getElem?, List.getLast?_eq_some_getLast hn]
  rfl

/-- The transactions in the log and the one on its way are all since the last reset. -/
theorem drop_eq_inLog (hd : h.durable = h.txns.length) : h.txns.drop h.dropped = h.inLog := by
  rw [inLog, hd, List.take_length]

theorem drop_eq_inLog_concat (hd : h.durable + 1 = h.txns.length) (hle : h.dropped ≤ h.durable) :
    h.txns.drop h.dropped = h.inLog ++ [h.last] := by
  have hn : h.txns ≠ [] := fun he => by simp [he] at hd
  have hlast := getElem?_last hn
  have hsplit : h.txns = h.txns.take h.durable ++ [h.last] := by
    conv_lhs => rw [← List.take_length (l := h.txns), ← hd, List.take_add_one]
    rw [show h.durable = h.txns.length - 1 by omega, hlast]
    rfl
  conv_lhs => rw [hsplit]
  rw [List.drop_append_of_le_length (by rw [List.length_take]; omega)]
  rfl

theorem Inv.taken {totalBlocks : Nat} (hi : h.Inv totalBlocks) {blocks : List Nat} {lsn : Nat}
    (hcur : ∀ c ∈ h.cur, c.block ∈ blocks) (hr : ∀ b ∈ blocks, b ≠ 0 ∧ b < totalBlocks) :
    (h.taken ⟨h.cur, blocks.map fun b => (b, h.visible b), lsn⟩).Inv totalBlocks := by
  have hblocks : (⟨h.cur, blocks.map fun b => (b, h.visible b), lsn⟩ : Txn).blocks = blocks := by
    simp [Txn.blocks, Function.comp_def]
  refine ⟨fun t ht => ?_, fun t ht => ?_, fun i t ht w hw => ?_, hi.dropped, ?_⟩
  · rcases List.mem_append.mp ht with ht | ht
    · exact hi.changes t ht
    · rw [List.mem_singleton.mp ht, hblocks]
      exact hcur
  · rcases List.mem_append.mp ht with ht | ht
    · exact hi.range t ht
    · rw [List.mem_singleton.mp ht, hblocks]
      exact hr
  · replace ht : (h.txns ++ [_])[i]? = some t := ht
    rcases Nat.lt_trichotomy i h.txns.length with hlt | rfl | hgt
    · rw [stateAt_taken hlt]
      rw [List.getElem?_append_left hlt] at ht
      exact hi.images i t ht w hw
    · rw [stateAt_taken_last rfl]
      rw [List.getElem?_append_right (Nat.le_refl _), Nat.sub_self] at ht
      cases ht
      obtain ⟨b, -, rfl⟩ := List.mem_map.mp hw
      rfl
    · rw [List.getElem?_eq_none (by rw [List.length_append, List.length_singleton]; omega)] at ht
      cases ht
  · have := hi.durable
    show h.durable ≤ (h.txns ++ [_]).length
    rw [List.length_append]
    omega

end History

/-- The next BLOCK record to be staged. -/
theorem Txn.head_take_succ {t : Txn} {b : Nat} {todo : List Nat} (h : b :: todo <:+ t.blocks) :
    ∃ v, (b, v) ∈ t.images ∧ t.head.take (t.head.length - todo.length) =
      t.head.take (t.head.length - (todo.length + 1)) ++ [(.block b v, t.lsn)] := by
  obtain ⟨done, hdone⟩ := h
  -- the images of the blocks staged before, the next one, and the rest
  obtain ⟨xs, ys, himg, hxs, hys⟩ := List.map_eq_append_iff.mp hdone.symm
  obtain ⟨⟨b', v⟩, zs, rfl, rfl, hzs⟩ := List.map_eq_cons_iff.mp hys
  have hlen : zs.length = todo.length := by rw [← hzs, List.length_map]
  refine ⟨v, by rw [himg]; simp, ?_⟩
  have hhead : t.head = ((.begin, t.lsn) :: xs.map fun w => (.block w.1 w.2, t.lsn)) ++
      (.block b' v, t.lsn) :: zs.map fun w => (.block w.1 w.2, t.lsn) := by
    rw [Txn.head, himg]
    simp
  generalize hxs' : ((.begin, t.lsn) :: xs.map fun w => (.block w.1 w.2, t.lsn) : List LogEntry)
    = as at hhead
  have hl : t.head.length = as.length + 1 + todo.length := by
    rw [hhead, List.length_append, List.length_cons, List.length_map, hlen]
    omega
  rw [show t.head.length - todo.length = as.length + 1 by omega,
    show t.head.length - (todo.length + 1) = as.length by omega, hhead,
    List.take_append_of_le_length (Nat.le_refl _), List.take_length, List.take_add_one]
  simp

namespace Storage

variable {s : Storage}

/-- A commit with nothing to log. -/
theorem Inv.commitBegin_nil (h : s.Inv) (hp : s.phase = .idle) (hr : s.running = 0)
    (hb : s.txnBlocks = []) (want closing : Bool) : (s.commitBegin [] want closing).Inv := by
  have hcur : s.hist.cur = [] := List.eq_nil_iff_forall_not_mem.mpr fun w hw => by
    have := h.cur w hw
    rw [hb] at this
    cases this
  rw [Storage.commitBegin, if_pos rfl]
  refine { h with
    durable := ?_, settled := nofun, quiet := fun _ => ⟨hcur, rfl, hr⟩, cur := ?_,
    curRange := nofun, cache := ?_, writeBack := nofun, wrote := nofun, flushed := nofun,
    phase := trivial, sb := h.sb.plain (by simp [hp]) rfl, log := ?_,
    promise := { h.promise with taken := fun _ => rfl, closed := nofun } }
  · simpa [hp] using h.durable
  · intro w hw
    rw [hcur] at hw
    cases hw
  · have := h.cache
    rw [inTxnBlocks_idle hp, hb] at this
    exact this
  · have hl := h.log
    rw [hp] at hl
    exact ⟨hl.numbered, hl.first, fun _ => hl.holds nofun, fun _ => hl.batch rfl, nofun⟩

/-- A commit takes the running transaction and stages its BEGIN record. -/
theorem Inv.commitBegin_cons (h : s.Inv) (hp : s.phase = .idle) (hr : s.running = 0)
    {blocks : List Nat} (hperm : blocks.Perm s.txnBlocks) (hb : blocks ≠ []) (want closing : Bool) :
    (s.commitBegin blocks want closing).Inv := by
  rw [Storage.commitBegin, if_neg hb]
  generalize ht : (⟨s.hist.cur, blocks.map fun b => (b, s.hist.visible b), s.wal.nextLsn⟩ : Txn)
    = t
  have hchanges : t.changes = s.hist.cur := by rw [← ht]
  have hblocks : t.blocks = blocks := by
    rw [← ht]
    simp [Txn.blocks, Function.comp_def]
  have hlsn : t.lsn = s.wal.nextLsn := by rw [← ht]
  have hdur : s.hist.durable = s.hist.txns.length := by simpa [hp] using h.durable
  have hvis : (s.hist.taken t).visible = s.hist.visible := History.visible_taken hchanges
  have hlogged : ∀ b, (s.hist.taken t).Logged b ↔ s.hist.Logged b :=
    History.logged_taken h.hist.durable
  have hlast : (s.hist.taken t).last = t := History.last_taken t
  have hinlog : (s.hist.taken t).logged = s.hist.logged := by
    rw [History.logged, History.inLog_taken h.hist.durable]
    rfl
  have hl := h.log
  rw [hp] at hl
  have hholds := hl.holds (by intro h; contradiction)
  have hnext : s.wal.nextLsn = s.hist.firstLsn + s.hist.logged.length := by
    simpa using hholds.next
  refine {
    hist := ?_, durable := ?_, settled := (by intros; contradiction),
    quiet := fun _ => ⟨rfl, rfl, hr⟩, phase := ?_, cur := (by intros; contradiction),
    curRange := (by intros; contradiction), cache := ?_, pass := h.pass,
    writeBack := (by intros; contradiction), wrote := (by intros; contradiction), pending := ?_,
    synced := ?_, flushed := (by intros; contradiction), sb := h.sb.plain (by simp [hp]) rfl,
    log := ?_, promise := ?_ }
  · rw [← ht]
    exact h.hist.taken (fun c hc => hperm.mem_iff.mpr (h.cur c hc))
      fun b hm => h.curRange b (hperm.mem_iff.mp hm)
  · show s.hist.durable + 1 = (s.hist.txns ++ [t]).length
    rw [List.length_append, hdur]
    rfl
  · show s.wal.nextLsn = (s.hist.taken t).last.lsn ∧ blocks <:+ (s.hist.taken t).last.blocks
    rw [hlast, hblocks]
    exact ⟨hlsn.symm, List.suffix_rfl⟩
  · show CacheInv s.cache s.img.contents (s.hist.taken t) (s.wal.stageRecord _ _).durableLsn
      (s.hist.taken t).last.blocks
    rw [Wal.stageRecord_durableLsn, hlast, hblocks]
    have hc := h.cache
    rw [inTxnBlocks_idle hp] at hc
    exact ⟨fun b f hf => by rw [hvis]; exact hc.data b f hf,
      fun b h0 hcl => by rw [hvis]; exact hc.clean b h0 hcl,
      fun b f hf hd => (hc.dirty b f hf hd).imp (hlogged b).mpr id,
      fun b => hperm.mem_iff.trans (hc.inTxn b), hperm.nodup_iff.mpr hc.nodup, hc.zero⟩
  · intro w hw h0
    exact (hlogged w.1).mpr (h.pending w hw h0)
  · intro b h0 hnl
    show s.img.synced b = (s.hist.taken t).stateAt s.hist.dropped b
    rw [History.stateAt_taken (by have := h.hist.dropped; omega)]
    exact h.synced b h0 fun hb => hnl ((hlogged b).mpr hb)
  · refine ⟨?_, hl.first, fun _ => ?_, (by intros; contradiction), (by intros; contradiction)⟩
    · show Numbered s.hist.firstLsn ((s.hist.txns ++ [t]).drop s.hist.dropped)
      rw [List.drop_append_of_le_length (by have := h.hist.dropped; omega), numbered_concat]
      refine ⟨hl.numbered, ?_⟩
      rw [hlsn, hnext, History.logged, History.drop_eq_inLog hdur]
    · have := hholds.stageRecord .begin s.wal.nextLsn
      simp only [Phase.syncedTail, Phase.tail, List.append_nil] at this
      show (s.wal.stageRecord _ _).Holds s.hist.firstLsn ((s.hist.taken t).logged ++ [])
        ((s.hist.taken t).logged ++ (s.hist.taken t).last.head.take
          ((s.hist.taken t).last.head.length - blocks.length))
      rw [hinlog, hlast, List.append_nil, Txn.length_head, hblocks,
        show blocks.length + 1 - blocks.length = 1 by omega, Txn.head, hlsn]
      exact this
  · have hpr := h.promise
    refine ⟨hpr.counted, fun n hn => Or.inl ?_, fun _ => rfl, hpr.committed, hpr.durable,
      hpr.promised, hpr.calls, fun h => by rcases h with h | h <;> cases h⟩
    show n ≤ (s.hist.txns ++ [t]).length
    rw [List.length_append, List.length_singleton]
    rcases hpr.need n hn with hle | ⟨-, rfl⟩ <;> omega

theorem Inv.commitBegin (h : s.Inv) (hp : s.phase = .idle) (hr : s.running = 0)
    {blocks : List Nat} (hperm : blocks.Perm s.txnBlocks) (want closing : Bool) :
    (s.commitBegin blocks want closing).Inv := by
  by_cases hb : blocks = []
  · subst hb
    exact h.commitBegin_nil hp hr (List.nil_perm.mp hperm) want closing
  · exact h.commitBegin_cons hp hr hperm hb want closing

/-- While a transaction is logged, its images are what the cache holds. -/
theorem Inv.image_eq (h : s.Inv) (hl : s.phase.logging = true) {w : Nat × Block}
    (hw : w ∈ s.hist.last.images) : w.2 = s.hist.visible w.1 := by
  have hd := h.durable
  rw [hl] at hd
  have hd' : s.hist.durable + 1 = s.hist.txns.length := hd
  have hn : s.hist.txns ≠ [] := fun he => by simp [he] at hd'
  have hi : s.phase ≠ .idle := by
    intro hi
    simp [hi] at hl
  rw [History.visible_of_cur_nil (h.quiet hi).1,
    h.hist.images _ _ (History.getElem?_last hn) w hw]
  congr 1
  omega

theorem inTxnBlocks_logging (hl : s.phase.logging = true) : s.inTxnBlocks = s.hist.last.blocks := by
  rw [inTxnBlocks, if_pos hl]

theorem Inv.stageBlock (h : s.Inv) {txn b : Nat} {todo : List Nat} {f : Frame}
    (hp : s.phase = .stage txn (b :: todo)) (hf : s.cache b = some f) :
    Inv { s with phase := .stage txn todo, wal := s.wal.stageRecord (.block b f.data) txn } := by
  have hof := h.phase
  rw [hp] at hof
  obtain ⟨rfl, hsuf⟩ := hof
  obtain ⟨v, hv, htake⟩ := Txn.head_take_succ hsuf
  have hdata : f.data = v := by
    rw [h.cache.data b f hf]
    exact (h.image_eq (by simp [hp]) hv).symm
  have hl := h.log
  rw [hp] at hl
  have hc := h.cache
  rw [inTxnBlocks_logging (by simp [hp])] at hc
  refine { h with
    durable := ?_, settled := nofun, quiet := fun _ => h.quiet (by simp [hp]), phase := ?_,
    cache := hc.mono ?_, writeBack := nofun, wrote := nofun, flushed := nofun,
    sb := h.sb.plain (by simp [hp]) rfl,
    log := ⟨hl.numbered, hl.first, fun _ => ?_, nofun, nofun⟩,
    promise := h.promise.rephase (by simp [hp]) nofun }
  · simpa [hp] using h.durable
  · exact ⟨rfl, (List.suffix_cons b todo).trans hsuf⟩
  · show _ ≤ (s.wal.stageRecord _ _).durableLsn
    rw [Wal.stageRecord_durableLsn]
  · have := (hl.holds nofun).stageRecord (.block b f.data) s.hist.last.lsn
    simp only [Phase.tail, Phase.syncedTail, List.length_cons] at this ⊢
    rw [htake, ← hdata, ← List.append_assoc]
    exact this

theorem Inv.flushTxn (h : s.Inv) {txn : Nat} (hp : s.phase = .stage txn []) :
    Inv { s with phase := .firstSync txn, wal := s.wal.flush } := by
  have hof := h.phase
  rw [hp] at hof
  have hl := h.log
  rw [hp] at hl
  have hc := h.cache
  rw [inTxnBlocks_logging (by simp [hp])] at hc
  obtain ⟨hfl, hbatch⟩ := (hl.holds nofun).flush
  refine { h with
    durable := ?_, settled := nofun, quiet := fun _ => h.quiet (by simp [hp]), phase := hof.1,
    cache := hc.mono ?_, writeBack := nofun, wrote := nofun, flushed := nofun,
    sb := h.sb.plain (by simp [hp]) rfl,
    log := ⟨hl.numbered, hl.first, fun _ => ?_, fun _ => hbatch, nofun⟩,
    promise := h.promise.rephase (by simp [hp]) nofun }
  · simpa [hp] using h.durable
  · show _ ≤ s.wal.flush.durableLsn
    rw [Wal.flush_durableLsn]
  · simpa using hfl

theorem Inv.firstSyncDone (h : s.Inv) {txn : Nat} (hp : s.phase = .firstSync txn) :
    Inv { s with phase := .barrier txn, wal := s.wal.syncDone } := by
  have hof := h.phase
  rw [hp] at hof
  have hl := h.log
  rw [hp] at hl
  have hc := h.cache
  rw [inTxnBlocks_logging (by simp [hp])] at hc
  have hholds := hl.holds nofun
  have hdur := hholds.durable
  refine { h with
    durable := ?_, settled := nofun, quiet := fun _ => h.quiet (by simp [hp]), phase := hof,
    cache := hc.mono ?_, writeBack := nofun, wrote := nofun, flushed := nofun,
    sb := h.sb.plain (by simp [hp]) rfl,
    log := ⟨hl.numbered, hl.first, fun _ => ?_, fun _ => hl.batch rfl, nofun⟩,
    promise := h.promise.rephase (by simp [hp]) nofun }
  · simpa [hp] using h.durable
  · show _ ≤ s.wal.nextLsn - 1
    omega
  · exact hholds.syncDone (hl.batch rfl)

theorem Inv.appendCommit (h : s.Inv) {txn : Nat} (hp : s.phase = .barrier txn) :
    Inv { s with phase := .secondSync txn, wal := s.wal.append .commit txn } := by
  have hof := h.phase
  rw [hp] at hof
  have hl := h.log
  rw [hp] at hl
  have hc := h.cache
  rw [inTxnBlocks_logging (by simp [hp])] at hc
  obtain ⟨hap, hbatch⟩ := (hl.holds nofun).append .commit txn
  refine { h with
    durable := ?_, settled := nofun, quiet := fun _ => h.quiet (by simp [hp]), phase := hof,
    cache := hc.mono ?_, writeBack := nofun, wrote := nofun, flushed := nofun,
    sb := h.sb.plain (by simp [hp]) rfl,
    log := ⟨hl.numbered, hl.first, fun _ => ?_, fun _ => hbatch, nofun⟩,
    promise := h.promise.rephase (by simp [hp]) nofun }
  · simpa [hp] using h.durable
  · show _ ≤ (s.wal.append _ _).durableLsn
    rw [Wal.append_durableLsn]
  · simp only [Phase.tail, Phase.syncedTail, Txn.entries, ← List.append_assoc] at hap ⊢
    rw [← show txn = s.hist.last.lsn from hof]
    exact hap

/-- The COMMIT record is on disk: one more transaction is durable. -/
theorem Inv.secondSyncDone (h : s.Inv) {txn : Nat} {t : Txn} (hp : s.phase = .secondSync txn)
    (ht : s.hist.txns.getLast? = some t) :
    Inv { s with
      phase := .frames (s.wal.nextLsn - 1) t.blocks
      wal := s.wal.syncDone
      hist := { s.hist with durable := s.hist.txns.length } } := by
  have hlast : s.hist.last = t := by rw [History.last, ht]; rfl
  have hl := h.log
  rw [hp] at hl
  have hc := h.cache
  rw [inTxnBlocks_logging (by simp [hp])] at hc
  have hholds := hl.holds nofun
  have hdl := hholds.durable
  have hdur : s.hist.durable + 1 = s.hist.txns.length := by simpa [hp] using h.durable
  have hn : s.hist.txns ≠ [] := fun he => by simp [he] at hdur
  have hle := h.hist.dropped
  have hmono : ∀ b, s.hist.Logged b →
      ({ s.hist with durable := s.hist.txns.length } : History).Logged b := by
    rintro b ⟨i, u, h1, h2, h3, h4⟩
    exact ⟨i, u, h1, Nat.lt_of_lt_of_le h2 h.hist.durable, h3, h4⟩
  have hnew : ∀ b ∈ t.blocks,
      ({ s.hist with durable := s.hist.txns.length } : History).Logged b := by
    intro b hb
    refine ⟨s.hist.txns.length - 1, t, ?_, ?_, ?_, hb⟩
    · show s.hist.dropped ≤ _
      omega
    · show _ < s.hist.txns.length
      omega
    · rw [← hlast]
      exact History.getElem?_last hn
  have hlog : ({ s.hist with durable := s.hist.txns.length } : History).logged =
      s.hist.logged ++ s.hist.last.entries := by
    rw [History.logged, ← History.drop_eq_inLog rfl, History.drop_eq_inLog_concat hdur hle,
      List.flatMap_append]
    simp [History.logged]
  refine { h with
    hist := { h.hist with dropped := ?_, durable := Nat.le_refl _ }, durable := rfl,
    settled := nofun, quiet := fun _ => h.quiet (by simp [hp]), phase := ⟨Nat.le_refl _, hnew⟩,
    cache := ?_, writeBack := nofun, wrote := nofun, flushed := nofun,
    sb := h.sb.plain (by simp [hp]) rfl, pending := ?_, synced := ?_,
    log := ⟨hl.numbered, hl.first, fun _ => ?_, fun _ => hl.batch rfl, nofun⟩, promise := ?_ }
  · show s.hist.dropped ≤ s.hist.txns.length
    omega
  · rw [hlast] at hc
    refine ⟨hc.data, hc.clean, fun b f hf hd => ?_, hc.inTxn, hc.nodup, hc.zero⟩
    obtain ⟨h1, h2⟩ := hc.dirty b f hf hd
    refine ⟨hmono b h1, ?_⟩
    show f.lsn ≤ s.wal.nextLsn - 1
    omega
  · exact fun w hw h0 => hmono w.1 (h.pending w hw h0)
  · exact fun b h0 hnl => h.synced b h0 fun hb => hnl (hmono b hb)
  · have := hholds.syncDone (hl.batch rfl)
    simp only [Phase.tail, Phase.syncedTail, List.append_nil] at this ⊢
    rw [hlog]
    exact this
  · have hpr := h.promise
    refine { hpr with
      taken := fun _ => hpr.taken (by simp [hp]), durable := fun n hn => ?_, closed := nofun }
    show n ≤ s.hist.txns.length
    exact Nat.le_trans (hpr.durable n hn) h.hist.durable

theorem inTxnBlocks_frames {lsn : Nat} {todo : List Nat} (hp : s.phase = .frames lsn todo) :
    s.inTxnBlocks = todo := by
  simp [inTxnBlocks, hp]

theorem Inv.commitFrame (h : s.Inv) {lsn b : Nat} {todo : List Nat} {f : Frame}
    (hp : s.phase = .frames lsn (b :: todo)) (hf : s.cache b = some f) :
    Inv { s with phase := .frames lsn todo, cache := s.commitFrame b lsn f } := by
  have hof := h.phase
  rw [hp] at hof
  obtain ⟨hlsn, htodo⟩ := hof
  have hl := h.log
  rw [hp] at hl
  have hc := h.cache
  rw [inTxnBlocks_frames hp] at hc
  refine { h with
    durable := ?_, settled := nofun, quiet := fun _ => h.quiet (by simp [hp]),
    phase := ⟨hlsn, fun c hm => htodo c (List.mem_cons_of_mem _ hm)⟩, cache := ?_, pass := ?_,
    writeBack := nofun, wrote := nofun, flushed := nofun, sb := h.sb.plain (by simp [hp]) rfl,
    log := ⟨hl.numbered, hl.first, fun _ => hl.holds nofun, fun _ => hl.batch rfl, nofun⟩,
    promise := h.promise.rephase (by simp [hp]) nofun }
  · simpa [hp] using h.durable
  · exact hc.commitFrame hf (htodo b (List.mem_cons_self ..)) hlsn rfl rfl rfl
  · intro p hpass
    refine (h.pass p hpass).update fun g hg => ?_
    rw [hf] at hg
    cases hg
    exact ⟨fun _ => rfl, Nat.lt_succ_self _⟩

theorem Inv.framesDone (h : s.Inv) {lsn : Nat} (hp : s.phase = .frames lsn []) :
    Inv { s with phase := .logged } := by
  have hl := h.log
  rw [hp] at hl
  have hc := h.cache
  rw [inTxnBlocks_frames hp] at hc
  have htb : s.txnBlocks = [] := (h.quiet (by simp [hp])).2.1
  refine { h with
    durable := ?_, settled := nofun, quiet := fun _ => h.quiet (by simp [hp]), phase := trivial,
    cache := ?_, writeBack := nofun, wrote := nofun, flushed := nofun,
    sb := h.sb.plain (by simp [hp]) rfl,
    log := ⟨hl.numbered, hl.first, fun _ => hl.holds nofun, fun _ => hl.batch rfl, nofun⟩,
    promise := h.promise.rephase (by simp [hp]) nofun }
  · simpa [hp] using h.durable
  · show CacheInv s.cache s.img.contents s.hist s.wal.durableLsn s.txnBlocks
    rw [htb]
    exact hc

/-- Once a commit is through, every operation that has ended is in a durable transaction. -/
theorem Inv.promise_done (h : s.Inv) (hc : s.phase.committing = true)
    (hl : s.phase.logging = false) (done : Nat)
    (hdone : ∀ c ∈ s.hist.calls, c.2 ≤ s.checkpointsDone + 1 → c.2 ≤ done + 1)
    {phase : Phase} :
    PromiseInv s.hist phase s.ended s.covered s.covered done := by
  have hpr := h.promise
  have hcov := hpr.taken hc
  have hi : s.phase ≠ .idle := by
    rintro hi
    simp [hi] at hc
  refine ⟨hpr.counted, hpr.need, fun _ => hcov, Nat.le_of_eq hcov, fun n hn => ?_, ?_,
    fun c hm => ?_,
    fun _ => hcov⟩
  · have hd := h.durable
    rw [hl] at hd
    rcases hpr.need n (List.mem_of_mem_take hn) with hle | ⟨hne, -⟩
    · rw [← hd] at hle
      exact hle
    · exact absurd (h.quiet hi).1 hne
  · rw [hcov]
    exact Nat.le_trans hpr.promised hpr.committed
  · obtain ⟨h1, h2, -⟩ := hpr.calls c hm
    exact ⟨h1, hdone c hm h2, fun _ => by rw [hcov]; exact h1⟩

theorem Inv.finish (h : s.Inv) (hp : s.phase = .logged) :
    Inv { s with phase := .idle, committedThrough := s.covered } := by
  have hl := h.log
  rw [hp] at hl
  have hc := h.cache
  rw [h.inTxnBlocks_of_not_idle (by simp [hp]) (by simp [hp]) (by simp [hp])] at hc
  have htb : s.txnBlocks = [] := (h.quiet (by simp [hp])).2.1
  refine { h with
    durable := ?_, settled := nofun, quiet := fun hi => absurd rfl hi, phase := trivial,
    cache := ?_, writeBack := nofun, wrote := nofun, flushed := nofun,
    sb := h.sb.plain (by simp [hp]) rfl,
    log := ⟨hl.numbered, hl.first, fun _ => hl.holds nofun, fun _ => hl.batch rfl, nofun⟩,
    promise := h.promise_done (by simp [hp]) (by simp [hp]) _ fun _ _ h2 => h2 }
  · simpa [hp] using h.durable
  · show CacheInv s.cache s.img.contents s.hist s.wal.durableLsn s.txnBlocks
    rw [htb]
    exact hc

/-! ## Checkpoints -/

/-- The cache part where no frame is in a transaction. -/
theorem Inv.cache_quiet (h : s.Inv) (hi : s.phase ≠ .idle) (hl : s.phase.logging = false)
    (hfr : ∀ lsn todo, s.phase ≠ .frames lsn todo) :
    CacheInv s.cache s.img.contents s.hist s.wal.durableLsn s.txnBlocks := by
  have hc := h.cache
  rw [h.inTxnBlocks_of_not_idle hi hl hfr] at hc
  rw [(h.quiet hi).2.1]
  exact hc

theorem Inv.checkpointBegin (h : s.Inv) (hp : s.phase = .logged) :
    Inv { s with phase := .writeBack, pass := some ⟨[], [], .picking⟩ } := by
  have hl := h.log
  rw [hp] at hl
  refine { h with
    durable := ?_, settled := nofun, quiet := fun _ => h.quiet (by simp [hp]), phase := trivial,
    cache := h.cache_quiet (by simp [hp]) (by simp [hp]) (by simp [hp]), pass := ?_,
    writeBack := fun _ => ⟨_, rfl, rfl, fun ha => absurd rfl ha⟩, wrote := nofun,
    flushed := nofun, sb := h.sb.plain (by simp [hp]) rfl,
    log := ⟨hl.numbered, hl.first, fun _ => hl.holds nofun, fun _ => hl.batch rfl, nofun⟩,
    promise := h.promise.rephase (by simp [hp]) nofun }
  · simpa [hp] using h.durable
  · rintro p ⟨⟩
    exact ⟨List.nodup_nil, nofun, nofun, nofun⟩

theorem Inv.checkpointWrote (h : s.Inv) (hp : s.phase = .writeBack)
    (hpass : s.pass = some ⟨[], [], .loop⟩) : Inv { s with phase := .wroteBack, pass := none } := by
  have hl := h.log
  rw [hp] at hl
  refine { h with
    durable := ?_, settled := nofun, quiet := fun _ => h.quiet (by simp [hp]), phase := trivial,
    cache := h.cache_quiet (by simp [hp]) (by simp [hp]) (by simp [hp]), pass := nofun,
    writeBack := nofun, wrote := fun _ b f hf => ?_, flushed := nofun,
    sb := h.sb.plain (by simp [hp]) rfl,
    log := ⟨hl.numbered, hl.first, fun _ => hl.holds nofun, fun _ => hl.batch rfl, nofun⟩,
    promise := h.promise.rephase (by simp [hp]) nofun }
  · simpa [hp] using h.durable
  · obtain ⟨p, hp', hcomp⟩ := h.writeBack hp
    rw [hpass] at hp'
    cases hp'
    by_contra hd
    rw [Bool.not_eq_false] at hd
    obtain ⟨q, hq, -⟩ := hcomp.all nofun b f hf hd
    cases hq

/-- A block that was never logged has nothing outstanding. -/
theorem Inv.contents_of_not_logged (h : s.Inv) {b : Nat} (hb : b ≠ 0) (hl : ¬ s.hist.Logged b) :
    s.img.contents b = s.hist.stateAt s.hist.dropped b := by
  rw [BlockFile.contents_of_not_pending, h.synced b hb hl]
  intro hm
  obtain ⟨w, hw, rfl⟩ := List.mem_map.mp hm
  exact hl (h.pending w hw hb)

theorem Inv.checkpointSync (h : s.Inv) (hp : s.phase = .wroteBack) :
    Inv { s with phase := .imgSynced, img := s.img.sync } := by
  have hl := h.log
  rw [hp] at hl
  have hown := h.sb.ownLsn
  rw [hp] at hown
  have hclean := h.sb.ownClean (by simp [hp]) (by simp [hp])
  have hq := h.cache_quiet (by simp [hp]) (by simp [hp]) (by simp [hp])
  refine { h with
    durable := ?_, settled := nofun, quiet := fun _ => h.quiet (by simp [hp]), phase := trivial,
    cache := hq, writeBack := nofun, wrote := fun _ => h.wrote (by simp [hp]), pending := nofun,
    synced := fun b => h.contents_of_not_logged, flushed := fun _ b hb => ⟨nofun, ?_⟩,
    sb := .of_sync (h.sb.current (by simp [hp])) hown (fun _ => hclean) fun _ _ => hclean,
    log := ⟨hl.numbered, hl.first, fun _ => hl.holds nofun, fun _ => hl.batch rfl, nofun⟩,
    promise := h.promise.rephase (by simp [hp]) nofun }
  · simpa [hp] using h.durable
  · -- no frame is dirty and none is in a transaction
    refine hq.clean b hb fun f hf => ⟨h.wrote (by simp [hp]) b f hf, ?_⟩
    by_contra ht
    rw [Bool.not_eq_false] at ht
    have := (hq.inTxn b).mpr ⟨f, hf, ht⟩
    rw [(h.quiet (by simp [hp])).2.1] at this
    cases this

/-- Only block 0 is written: what is known of the other blocks stays. -/
theorem Inv.writeSb_parts (h : s.Inv) (v : Block) :
    (∀ b, b ≠ 0 → (s.img.write 0 v).contents b = s.img.contents b) ∧
    (∀ w ∈ (s.img.write 0 v).pending, w.1 ≠ 0 → s.hist.Logged w.1) ∧
    ∀ p, s.pass = some p → PassInv s.cache (s.img.write 0 v).contents p := by
  have hne : ∀ b, b ≠ 0 → (s.img.write 0 v).contents b = s.img.contents b := fun b hb => by
    rw [BlockFile.contents_write, Function.update_of_ne hb]
  refine ⟨hne, fun w hw hw0 => ?_, fun p hpass => (h.pass p hpass).redisk h.cache.zero hne⟩
  rcases List.mem_append.mp hw with hw | hw
  · exact h.pending w hw hw0
  · rw [List.mem_singleton.mp hw] at hw0
    exact absurd rfl hw0

theorem Inv.checkpointSb (h : s.Inv) (hp : s.phase = .imgSynced) :
    Inv { s with
      phase := .sbSync, sb := s.newCheckpoint
      img := s.img.write 0 (superblockBlock s.newCheckpoint) } := by
  have hl := h.log
  rw [hp] at hl
  have hclean := h.sb.ownClean (by simp [hp]) (by simp [hp])
  obtain ⟨hne, hpend, hpass⟩ := h.writeSb_parts (superblockBlock s.newCheckpoint)
  have hq := h.cache_quiet (by simp [hp]) (by simp [hp]) (by simp [hp])
  have hcl : ∀ b ≠ 0, _ := fun b hb hcl => (hne b hb).trans (hq.clean b hb hcl)
  refine { h with
    durable := ?_, settled := nofun, quiet := fun _ => h.quiet (by simp [hp]), phase := trivial,
    cache := { hq with clean := hcl }, pass := hpass, writeBack := nofun,
    wrote := fun _ => h.wrote (by simp [hp]), pending := hpend,
    flushed := fun _ b hb => ⟨?_, (h.flushed (by simp [hp]) b hb).2⟩,
    sb := h.sb.write rfl (by simp [hp]) (fun _ => ⟨by simp [hp], hclean⟩) rfl (by simp)
      fun _ _ => hclean,
    log := ⟨hl.numbered, hl.first, fun _ => hl.holds nofun, fun _ => hl.batch rfl, nofun⟩,
    promise := h.promise.rephase (by simp [hp]) nofun }
  · simpa [hp] using h.durable
  · have := (h.flushed (by simp [hp]) b hb).1
    simp only [BlockFile.pending_write, List.map_append, List.map_cons, List.map_nil,
      List.mem_append,
      List.mem_singleton]
    rintro (hm | hm)
    · exact this hm
    · exact hb hm

theorem Inv.checkpointSbSync (h : s.Inv) (hp : s.phase = .sbSync) :
    Inv { s with phase := .sbSynced, img := s.img.sync } := by
  have hl := h.log
  rw [hp] at hl
  have hown := h.sb.ownLsn
  rw [hp] at hown
  have hclean := h.sb.ownClean (by simp [hp]) (by simp [hp])
  have hf := h.flushed (by simp [hp])
  refine { h with
    durable := ?_, settled := nofun, quiet := fun _ => h.quiet (by simp [hp]), phase := trivial,
    cache := h.cache_quiet (by simp [hp]) (by simp [hp]) (by simp [hp]), writeBack := nofun,
    wrote := fun _ => h.wrote (by simp [hp]), pending := nofun,
    synced := fun b => h.contents_of_not_logged, flushed := fun _ b hb => ⟨nofun, ?_⟩,
    sb := .of_sync (h.sb.current (by simp [hp])) hown (fun _ => hclean) fun _ _ => hclean,
    log := ⟨hl.numbered, hl.first, fun _ => hl.holds nofun, fun _ => hl.batch rfl, nofun⟩,
    promise := h.promise.rephase (by simp [hp]) nofun }
  · simpa [hp] using h.durable
  · exact (BlockFile.contents_of_not_pending _ (hf b hb).1).trans (hf b hb).2

theorem Inv.checkpointTruncate (h : s.Inv) (hp : s.phase = .sbSynced) :
    Inv { s with phase := .truncated, wal := s.wal.resetIssued } := by
  have hl := h.log
  rw [hp] at hl
  have hholds := hl.holds nofun
  simp only [Phase.syncedTail, Phase.tail, List.append_nil] at hholds
  have hsb := h.sb
  rw [hp] at hsb
  refine { h with
    durable := ?_, settled := nofun, quiet := fun _ => h.quiet (by simp [hp]), phase := trivial,
    cache := h.cache_quiet (by simp [hp]) (by simp [hp]) (by simp [hp]), writeBack := nofun,
    wrote := fun _ => h.wrote (by simp [hp]), flushed := fun _ => h.flushed (by simp [hp]),
    sb := ?_, log := ⟨hl.numbered, hl.first, fun hn => absurd rfl hn, fun _ => rfl, fun _ => ?_⟩,
    promise := h.promise.rephase (by simp [hp]) nofun }
  · simpa [hp] using h.durable
  · exact ⟨hsb.fixed, fun _ => hsb.clean rfl, hsb.lsn, fun _ => hsb.new (Or.inl rfl),
      fun _ => hsb.current nofun, hsb.ownLsn, fun _ _ => hsb.ownClean nofun nofun⟩
  · refine ⟨?_, hholds.next, hholds.durable⟩
    show s.wal.file.issue .truncate = _
    rw [hholds.file_eq]
    rfl

theorem Inv.checkpointReset (h : s.Inv) (hp : s.phase = .truncated) :
    Inv { s with
      phase := .reset
      wal := s.wal.resetDone (s.wal.nextLsn - 1 + 1)
      hist := { s.hist with dropped := s.hist.txns.length, firstLsn := s.wal.nextLsn } } := by
  have hl := h.log
  rw [hp] at hl
  obtain ⟨hfile, hnext, hdl⟩ := hl.truncated rfl
  have hfirst := hl.first
  have hsucc : s.wal.nextLsn - 1 + 1 = s.wal.nextLsn := by omega
  rw [hsucc]
  have hdur : s.hist.durable = s.hist.txns.length := by simpa [hp] using h.durable
  have hf := h.flushed (by simp [hp])
  have hsb := h.sb
  rw [hp] at hsb
  have hq := h.cache_quiet (by simp [hp]) (by simp [hp]) (by simp [hp])
  have hpr : PromiseInv s.hist .reset s.ended s.covered s.committedThrough s.checkpointsDone :=
    h.promise.rephase (by simp [hp]) nofun
  refine { h with
    hist := ?_, durable := hdur, settled := fun _ => rfl,
    quiet := fun _ => h.quiet (by simp [hp]), phase := trivial,
    cache := { hq with dirty := fun b f hf hd => ?_ }, writeBack := nofun, wrote := nofun,
    pending := fun w hw hw0 => ?_, synced := fun b hb _ => ?_, flushed := nofun, sb := ?_,
    log := ⟨?_, ?_, fun _ => ?_, fun _ => hl.batch rfl, nofun⟩, promise := { hpr with } }
  · exact { h.hist with dropped := Nat.le_of_eq hdur.symm }
  · rw [h.wrote (by simp [hp]) b f hf] at hd
    cases hd
  · exact absurd (List.mem_map_of_mem hw) (hf w.1 hw0).1
  · show s.img.synced b = s.hist.stateAt s.hist.txns.length b
    rw [(hf b hb).2, History.visible_of_cur_nil (h.quiet (by simp [hp])).1]
  · exact ⟨hsb.fixed, fun _ => hsb.clean rfl, fun x hx => Or.inl (hsb.new (Or.inr rfl) x hx), nofun,
      fun _ => hsb.current nofun, hsb.ownLsn, fun _ _ => hsb.ownClean nofun nofun⟩
  · show Numbered _ (s.hist.txns.drop s.hist.txns.length)
    rw [List.drop_length]
    trivial
  · show 1 ≤ s.wal.nextLsn
    omega
  · have hlogged : ({ s.hist with dropped := s.hist.txns.length, firstLsn := s.wal.nextLsn } :
        History).logged = [] := by
      show ((s.hist.txns.take s.hist.durable).drop s.hist.txns.length).flatMap Txn.entries = []
      rw [hdur, List.take_length, List.drop_length]
      rfl
    rw [hlogged]
    exact Wal.holds_reset hfile (hl.batch rfl) (by omega)

theorem Inv.checkpointDone (h : s.Inv) (hp : s.phase = .reset) :
    Inv { s with
      phase := if s.closing then .closing else .idle
      committedThrough := s.covered
      checkpointsDone := s.checkpointsDone + 1 } := by
  have hl := h.log
  rw [hp] at hl
  have hq := h.cache_quiet (by simp [hp]) (by simp [hp]) (by simp [hp])
  have hpr : ∀ {phase}, PromiseInv s.hist phase s.ended s.covered s.covered
    (s.checkpointsDone + 1) :=
    h.promise_done (by simp [hp]) (by simp [hp]) _ fun _ _ h2 => Nat.le_succ_of_le h2
  have hdur : s.hist.durable = s.hist.txns.length := by simpa [hp] using h.durable
  cases s.closing with
  | true =>
    exact { h with
      durable := hdur, settled := fun _ => h.settled (by simp [hp]),
      quiet := fun _ => h.quiet (by simp [hp]), phase := trivial, cache := hq, writeBack := nofun,
      wrote := nofun, flushed := nofun, sb := h.sb.plain (by simp [hp]) rfl,
      log := ⟨hl.numbered, hl.first, fun _ => hl.holds nofun, fun _ => hl.batch rfl, nofun⟩,
      promise := hpr }
  | false =>
    exact { h with
      durable := hdur, settled := nofun, quiet := fun hi => absurd rfl hi, phase := trivial,
      cache := hq, writeBack := nofun, wrote := nofun, flushed := nofun,
      sb := h.sb.plain (by simp [hp]) rfl,
      log := ⟨hl.numbered, hl.first, fun _ => hl.holds nofun, fun _ => hl.batch rfl, nofun⟩,
      promise := hpr }

/-! ## Opening and closing -/

theorem Inv.openWrite (h : s.Inv) (hp : s.phase = .openSb) :
    Inv { s with img := s.img.write 0 (superblockBlock s.sb), phase := .openSync } := by
  have hl := h.log
  rw [hp] at hl
  obtain ⟨hne, hpend, hpass⟩ := h.writeSb_parts (superblockBlock s.sb)
  have hq := h.cache_quiet (by simp [hp]) (by simp [hp]) (by simp [hp])
  have hown := h.sb.ownLsn
  rw [hp] at hown
  exact { h with
    durable := by simpa [hp] using h.durable, settled := fun _ => h.settled (by simp [hp]),
    quiet := fun _ => h.quiet (by simp [hp]), phase := trivial,
    cache := { hq with clean := fun b hb hcl => (hne b hb).trans (hq.clean b hb hcl) },
    pass := hpass, writeBack := nofun, wrote := nofun, flushed := nofun, pending := hpend,
    sb := h.sb.write rfl (by simp [hp]) nofun hown (by simp) fun _ _ =>
      h.sb.ownClean (by simp [hp]) (by simp [hp]),
    log := ⟨hl.numbered, hl.first, fun _ => hl.holds nofun, fun _ => hl.batch rfl, nofun⟩,
    promise := h.promise.rephase nofun nofun }

theorem Inv.openDone (h : s.Inv) (hp : s.phase = .openSync) :
    Inv { s with img := s.img.sync, phase := .idle } := by
  have hl := h.log
  rw [hp] at hl
  have hown := h.sb.ownLsn
  rw [hp] at hown
  have hclean := h.sb.ownClean (by simp [hp]) (by simp [hp])
  exact { h with
    durable := by simpa [hp] using h.durable, settled := nofun, quiet := fun hi => absurd rfl hi,
    phase := trivial, cache := h.cache_quiet (by simp [hp]) (by simp [hp]) (by simp [hp]),
    writeBack := nofun, wrote := nofun, flushed := nofun, pending := nofun,
    synced := fun b => h.contents_of_not_logged,
    sb := .of_sync (h.sb.current (by simp [hp])) hown (fun _ => hclean) fun _ _ => hclean,
    log := ⟨hl.numbered, hl.first, fun _ => hl.holds nofun, fun _ => hl.batch rfl, nofun⟩,
    promise := h.promise.rephase nofun nofun }

theorem Inv.closeWrite (h : s.Inv) (hp : s.phase = .closing) :
    Inv { s with
      phase := .closeSync
      sb := { s.sb with cleanUnmount := 1 }
      img := s.img.write 0 (superblockBlock { s.sb with cleanUnmount := 1 }) } := by
  have hl := h.log
  rw [hp] at hl
  obtain ⟨hne, hpend, hpass⟩ := h.writeSb_parts (superblockBlock { s.sb with cleanUnmount := 1 })
  have hq := h.cache_quiet (by simp [hp]) (by simp [hp]) (by simp [hp])
  have hown := h.sb.ownLsn
  rw [hp] at hown
  exact { h with
    durable := by simpa [hp] using h.durable, settled := fun _ => h.settled (by simp [hp]),
    quiet := fun _ => h.quiet (by simp [hp]), phase := trivial,
    cache := { hq with clean := fun b hb hcl => (hne b hb).trans (hq.clean b hb hcl) },
    pass := hpass, writeBack := nofun, wrote := nofun, flushed := nofun, pending := hpend,
    sb := h.sb.write rfl (by simp [hp]) nofun hown (by simp) fun hc => absurd rfl hc,
    log := ⟨hl.numbered, hl.first, fun _ => hl.holds nofun, fun _ => hl.batch rfl, nofun⟩,
    promise := h.promise.rephase (by simp [hp]) fun _ => Or.inl hp }

theorem Inv.closeDone (h : s.Inv) (hp : s.phase = .closeSync) :
    Inv { s with
      phase := .closed
      img := s.img.sync
      hist := { s.hist with promised := s.ended } } := by
  have hl := h.log
  rw [hp] at hl
  have hown := h.sb.ownLsn
  rw [hp] at hown
  have hpr := h.promise
  exact { h with
    hist := { h.hist with }, durable := by simpa [hp] using h.durable,
    settled := fun _ => h.settled (by simp [hp]), quiet := fun _ => h.quiet (by simp [hp]),
    phase := trivial,
    cache := { h.cache_quiet (by simp [hp]) (by simp [hp]) (by simp [hp]) with },
    writeBack := nofun, wrote := nofun, flushed := nofun, pending := nofun,
    synced := fun b => h.contents_of_not_logged,
    sb := .of_sync (h.sb.current (by simp [hp])) hown nofun fun _ hc => absurd rfl hc,
    log := ⟨hl.numbered, hl.first, fun _ => hl.holds nofun, fun _ => hl.batch rfl, nofun⟩,
    promise := { hpr with
      taken := fun _ => hpr.taken (by simp [hp])
      promised := Nat.le_of_eq (hpr.closed (Or.inr hp)).symm
      closed := nofun } }

/-! ## Callers -/

/-- What is recorded about callers matters to nothing else. -/
theorem Inv.callers (h : s.Inv) {promised : Nat} {calls : List (Nat × Nat)}
    (hpr : promised ≤ s.committedThrough)
    (hcalls : ∀ c ∈ calls, c.1 ≤ s.ended ∧ c.2 ≤ s.checkpointsDone + 1 ∧
      (c.2 ≤ s.checkpointsDone → c.1 ≤ s.committedThrough)) :
    Inv { s with hist := { s.hist with promised := promised, calls := calls } } := by
  have hof : s.phase.Of { s.hist with promised := promised, calls := calls } s.wal.durableLsn := by
    have := h.phase
    cases hp : s.phase <;> rw [hp] at this <;> exact this
  exact { h with
    hist := { h.hist with }, phase := hof, cache := { h.cache with }, log := { h.log with },
    promise := { h.promise with promised := hpr, calls := hcalls } }

/-! ## Runs -/

/-- Every step keeps the invariant. -/
theorem Inv.step {s' : Storage} (h : s.Inv) (hs : Step s s') : s'.Inv := by
  have hpr := h.promise
  cases hs with
  | openWrite hp => exact h.openWrite hp
  | openDone hp => exact h.openDone hp
  | beginOp hp => exact h.beginOp hp
  | write b fresh fn hp _ hb hlt => exact h.write hp hb hlt fresh fn
  | endOp hp _ => exact h.endOp hp
  | load b hb _ hn => exact h.load hb hn
  | evictClean b f hf hp ht hd => exact h.evictClean hf hp ht hd
  | evictDirty b f hf hp hd hm => exact h.evictDirty hf hp hd hm
  | passStart hn => exact h.passStart hn
  | passPick q picks hp hq hnew => exact h.passPick hp hq hnew
  | passSort picks hp hall => exact h.passSort hp hall
  | passCopy q picks run f hp _ hf => exact h.passCopy hp hf
  | passJoin q v picks run f hp _ _ => exact h.passJoin hp
  | passLeave q v picks run f hp hf hm => exact h.passLeave hp hf hm
  | passFlush p hp hat => exact h.passFlush hp hat
  | passMark q todo picks left hp => exact h.passMark hp
  | passMarked picks left hp => exact h.passMarked hp
  | passEnd _ hp => exact h.passEnd hp
  | commitBegin blocks want closing hp hr hperm _ => exact h.commitBegin hp hr hperm want closing
  | stageBlock txn b todo f hp hf _ => exact h.stageBlock hp hf
  | flushTxn txn hp => exact h.flushTxn hp
  | firstSyncDone txn hp => exact h.firstSyncDone hp
  | appendCommit txn hp => exact h.appendCommit hp
  | secondSyncDone txn t hp ht => exact h.secondSyncDone hp ht
  | commitFrame lsn b todo f hp hf _ => exact h.commitFrame hp hf
  | framesDone lsn hp => exact h.framesDone hp
  | finish hp _ => exact h.finish hp
  | checkpointBegin hp _ => exact h.checkpointBegin hp
  | checkpointWrote hp hpass => exact h.checkpointWrote hp hpass
  | checkpointSync hp => exact h.checkpointSync hp
  | checkpointSb hp => exact h.checkpointSb hp
  | checkpointSbSync hp => exact h.checkpointSbSync hp
  | checkpointTruncate hp => exact h.checkpointTruncate hp
  | checkpointReset hp => exact h.checkpointReset hp
  | checkpointDone hp => exact h.checkpointDone hp
  | closeWrite hp => exact h.closeWrite hp
  | closeDone hp => exact h.closeDone hp
  | commitReturn target ht => exact h.callers (Nat.max_le.mpr ⟨hpr.promised, ht⟩) hpr.calls
  | checkpointCall =>
    refine h.callers hpr.promised fun c hc => ?_
    rcases List.mem_append.mp hc with hc | hc
    · exact hpr.calls c hc
    · rw [List.mem_singleton.mp hc]
      exact ⟨Nat.le_refl _, Nat.le_refl _, fun hle => absurd hle (by simp)⟩
  | checkpointReturn e t he ht =>
    exact h.callers (Nat.max_le.mpr ⟨hpr.promised, (hpr.calls _ he).2.2 ht⟩) hpr.calls

theorem inv_opened (d : Nat → Block) :
    (Storage.opened d ((superblockIn (d 0)).lastCheckpointLsn.toNat + 1)).Inv := by
  have hon : ∀ x, OnDisk (.ofContents d) x → x = superblockIn (d 0) := by
    rintro x (hx | ⟨v, hv, -⟩)
    · exact hx
    · cases hv
  refine { hist := ⟨nofun, nofun, nofun, Nat.le_refl 0, Nat.le_refl 0⟩, durable := rfl,
           settled := fun _ => rfl, quiet := fun _ => ⟨rfl, rfl, rfl⟩, phase := trivial,
           cur := nofun,
           curRange := nofun, cache := ⟨nofun, fun _ _ _ => rfl, nofun, fun b => ?_,
             List.nodup_nil, rfl⟩,
           pass := nofun, writeBack := nofun, wrote := nofun, pending := nofun,
           synced := fun _ _ _ => rfl, flushed := nofun,
           sb := ⟨fun x hx => by rw [hon x hx]; rfl, nofun, fun x hx =>
             Or.inl ?_, by simp [Storage.opened], fun hp => absurd rfl hp, ?_, fun _ _ => rfl⟩,
           log := ⟨trivial, Nat.le_add_left 1 _, fun _ => ?_, fun _ => rfl, nofun⟩,
           promise := ⟨rfl, nofun, nofun, Nat.le_refl 0, nofun, Nat.le_refl 0,
             nofun, by simp [Storage.opened]⟩ }
  · exact ⟨nofun, fun ⟨f, hf, _⟩ => by cases hf⟩
  · rw [hon x hx]
    exact UInt64.ofNat_toNat.symm
  · exact UInt64.ofNat_toNat.symm
  · exact ⟨rfl, ⟨[], nofun, rfl, rfl, rfl⟩, rfl, Nat.lt_succ_self _⟩

theorem Run.inv {d : Nat → Block} (h : Run d s) : s.Inv := by
  induction h with
  | opened => exact inv_opened d
  | step _ hs ih => exact ih.step hs

end Storage

end ConcurrentFs
