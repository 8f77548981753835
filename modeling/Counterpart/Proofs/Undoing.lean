/-
Undoing writes. What is saved of a file is its content (`save_cases`); restoring removes what was made and gives back what was
saved, in places that directories do not take (`restore_ok`).
-/
import Counterpart.Proofs.Writing

namespace Counterpart

namespace Undo

open Disk

variable {d d' : Disk} {u : Undo}

/-- Both disks have the same directories. -/
structure SameDirectories (d d' : Disk) : Prop where
  workDir : d'.workDir = d.workDir
  directory : ∀ l, d'.get? l = some .directory ↔ d.get? l = some .directory

theorem SameDirectories.refl (d : Disk) : SameDirectories d d := ⟨rfl, fun _ => .rfl⟩

theorem SameDirectories.trans {d'' : Disk} (h : SameDirectories d d') (h' : SameDirectories d' d'') :
    SameDirectories d d'' :=
  ⟨h'.workDir.trans h.workDir, fun l => (h'.directory l).trans (h.directory l)⟩

theorem SameDirectories.keeps (h : SameDirectories d d') : KeepsDirectories d d' :=
  ⟨h.workDir, fun l hl => (h.directory l).mpr hl⟩

theorem SameDirectories.leads (h : SameDirectories d d') {p : Path} {l : Location} (hp : d.Leads p l) : d'.Leads p l :=
  ⟨locate_mono h.keeps hp.locate, hp.plain, fun hdir => hp.free ((h.directory l).mp hdir)⟩

theorem SameDirectories.of_get? {l : Location} (hw : d'.workDir = d.workDir) (hl : d.get? l ≠ some .directory)
    (hl' : d'.get? l ≠ some .directory) (h : ∀ q, q ≠ l → d'.get? q = d.get? q) : SameDirectories d d' := by
  refine ⟨hw, fun q => ?_⟩
  by_cases hq : q = l
  · subst hq
    exact ⟨fun h => absurd h hl', fun h => absurd h hl⟩
  · rw [h q hq]

/-! ## Saving -/

/-- A file is saved with its content; where a path leads to no file, nothing is saved. -/
theorem save_cases (u : Undo) (d : Disk) (p : Path) :
    (∃ l content, d.Finds p l ∧ d.content? l = some content ∧
      u.save d p = .ok { u with saved := u.saved ++ [(p, content)] }) ∨
    (∀ l, ¬ d.Finds p l) ∧ u.save d p = .ok u := by
  rw [save]
  split
  next hfile =>
    have hfile' := hfile
    simp only [isFile, holds] at hfile
    split at hfile
    next e he =>
      cases e with
      | directory => cases hfile
      | file content =>
        obtain ⟨l, hl, hc, ha⟩ := entry_eq_file.mp he
        refine .inl ⟨l, content, finds_iff.mp ⟨hfile', hl⟩, content?_eq_some.mpr hc, ?_⟩
        simp [Disk.read, bind, Except.bind, pure, Except.pure, he, Except.map]
    · cases hfile
  next hfile => exact .inr ⟨fun l hl => hfile (finds_iff.mpr hl).1, rfl⟩

/-! ## Restoring -/

/-- Steps each of which gives the place that a path leads to the same `content`, whatever was there. -/
theorem foldl_places {α : Type} {step : Disk × Option FileFault → α → Disk × Option FileFault} (path : α → Path)
    (content : Location → Option ByteArray) (xs : List α) (d : Disk) (hxs : ∀ x ∈ xs, ∃ l, d.Leads (path x) l)
    (hstep : ∀ x ∈ xs, ∀ l, d.Leads (path x) l → ∀ d₁ : Disk, d₁.Leads (path x) l →
      ∃ d₂, step (d₁, none) x = (d₂, none) ∧ SameDirectories d₁ d₂ ∧
        ∀ q, d₂.content? q = if q = l then content q else d₁.content? q) :
    ∃ d', xs.foldl step (d, none) = (d', none) ∧ SameDirectories d d' ∧
      ∀ q, d'.content? q = content q ∧ (∃ x ∈ xs, d.locate (path x) = .ok q) ∨
        d'.content? q = d.content? q ∧ ∀ x ∈ xs, d.locate (path x) ≠ .ok q := by
  induction xs generalizing d with
  | nil => exact ⟨d, rfl, .refl d, fun q => .inr ⟨rfl, by simp⟩⟩
  | cons x xs ih =>
    obtain ⟨l, hl⟩ := hxs x List.mem_cons_self
    obtain ⟨d₁, hone, hsame, hcontent⟩ := hstep x List.mem_cons_self l hl d hl
    -- the other paths lead where they led before
    have hback : ∀ y ∈ xs, ∀ q, d₁.Leads (path y) q → d.Leads (path y) q := by
      intro y hy q hq
      obtain ⟨m, hm⟩ := hxs y (List.mem_cons_of_mem x hy)
      have heq := (hsame.leads hm).locate.symm.trans hq.locate
      cases heq
      exact hm
    have hlocate : ∀ y ∈ xs, ∀ q, d₁.locate (path y) = .ok q ↔ d.locate (path y) = .ok q := by
      intro y hy q
      obtain ⟨m, hm⟩ := hxs y (List.mem_cons_of_mem x hy)
      rw [hm.locate, (hsame.leads hm).locate]
    obtain ⟨d', hrest, hsame', hcontent'⟩ := ih d₁
      (fun y hy => by
        obtain ⟨m, hm⟩ := hxs y (List.mem_cons_of_mem x hy)
        exact ⟨m, hsame.leads hm⟩)
      (fun y hy q hq => hstep y (List.mem_cons_of_mem x hy) q (hback y hy q hq))
    refine ⟨d', by rw [List.foldl_cons, hone, hrest], hsame.trans hsame', fun q => ?_⟩
    rcases hcontent' q with ⟨hset, y, hy, hq⟩ | ⟨hkept, hnot⟩
    · exact .inl ⟨hset, y, List.mem_cons_of_mem x hy, (hlocate y hy q).mp hq⟩
    · rw [hcontent] at hkept
      by_cases hq : q = l
      · rw [if_pos hq] at hkept
        exact .inl ⟨hkept, x, List.mem_cons_self, hq ▸ hl.locate⟩
      · rw [if_neg hq] at hkept
        refine .inr ⟨hkept, fun y hy => ?_⟩
        rcases List.mem_cons.mp hy with rfl | hy
        · rw [hl.locate]
          simpa using Ne.symm hq
        · exact fun hy' => hnot y hy ((hlocate y hy q).mpr hy')

/-- Removing what a path leads to leaves no file there, whether one was there or not. -/
theorem removeCreated_of_leads {p : Path} {l : Location} (hl : d.Leads p l) :
    ∃ d', removeCreated (d, none) p = (d', none) ∧ SameDirectories d d' ∧
      ∀ q, d'.content? q = if q = l then none else d.content? q := by
  rcases removeFile_cases hl.locate hl.plain hl.free with ⟨d', hremove⟩ | ⟨hnone, hremove⟩
  · obtain ⟨l', c, hl', -, hw, hget⟩ := removeFile_ok hremove
    rw [hl.locate] at hl'
    cases hl'
    have hgone : d'.get? l = none := by rw [hget, if_pos rfl]
    refine ⟨d', by simp [removeCreated, hremove, attempt], ?_, fun q => ?_⟩
    · exact .of_get? hw hl.free (by rw [hgone]; simp) fun q hq => by rw [hget, if_neg hq]
    · split
      next hq => simp [content?, hq, hgone]
      next hq => exact content?_congr (by rw [hget, if_neg hq])
  · refine ⟨d, by simp [removeCreated, hremove], .refl d, fun q => ?_⟩
    split
    next hq => simp [content?, hq, hnone]
    next hq => rfl

/-- Giving a file back leaves its content where the path leads. -/
theorem giveBack_of_leads {x : Path × ByteArray} {l : Location} (hl : d.Leads x.1 l) :
    ∃ d', giveBack (d, none) x = (d', none) ∧ SameDirectories d d' ∧
      ∀ q, d'.content? q = if q = l then some x.2 else d.content? q := by
  obtain ⟨d', hwrite⟩ := exists_write hl.locate hl.plain hl.free x.2
  obtain ⟨l', hl', -, -, hw, hget⟩ := write_ok hwrite
  rw [hl.locate] at hl'
  cases hl'
  have hback : d'.get? l = some (.file x.2) := by rw [hget, if_pos rfl]
  refine ⟨d', by simp [giveBack, hwrite, attempt], ?_, fun q => ?_⟩
  · exact .of_get? hw hl.free (by rw [hback]; simp) fun q hq => by rw [hget, if_neg hq]
  · split
    next hq => exact content?_eq_some.mpr (hq ▸ hback)
    next hq => exact content?_congr (by rw [hget, if_neg hq])

/-- **Restoring does not fail**: saved files have the contents of `d₀` again, and of the others those that were made are gone. -/
theorem restore_ok {d₀ : Disk} (hcreated : ∀ p ∈ u.created, ∃ l, d.Leads p l)
    (hsaved : ∀ x ∈ u.saved, ∃ l, d.Leads x.1 l ∧ d₀.content? l = some x.2) :
    ∃ d', u.restore d = (d', none) ∧ SameDirectories d d' ∧ ∀ q,
      (d'.content? q = d₀.content? q ∧ ∃ x ∈ u.saved, d.locate x.1 = .ok q) ∨
        (∀ x ∈ u.saved, d.locate x.1 ≠ .ok q) ∧
          (d'.content? q = none ∧ (∃ p ∈ u.created, d.locate p = .ok q) ∨
            d'.content? q = d.content? q ∧ ∀ p ∈ u.created, d.locate p ≠ .ok q) := by
  obtain ⟨d₁, hremove, hsame, hcontent⟩ := foldl_places id (fun _ => none) u.created d hcreated
    fun p _ l _ d₁ hl => removeCreated_of_leads hl
  have hlocate : ∀ x ∈ u.saved, ∀ q, d₁.locate x.1 = .ok q ↔ d.locate x.1 = .ok q := by
    intro x hx q
    obtain ⟨m, hm, -⟩ := hsaved x hx
    rw [hm.locate, (hsame.leads hm).locate]
  obtain ⟨d', hback, hsame', hcontent'⟩ := foldl_places Prod.fst d₀.content? u.saved d₁
    (fun x hx => by
      obtain ⟨m, hm, -⟩ := hsaved x hx
      exact ⟨m, hsame.leads hm⟩)
    (fun x hx l hl d₂ hl₂ => by
      obtain ⟨m, hm, hc⟩ := hsaved x hx
      have heq := (hsame.leads hm).locate.symm.trans hl.locate
      cases heq
      obtain ⟨d₃, hstep, hdirs, hcontent⟩ := giveBack_of_leads hl₂
      refine ⟨d₃, hstep, hdirs, fun q => ?_⟩
      rw [hcontent]
      split
      next hq => rw [hq, hc]
      next hq => rfl)
  refine ⟨d', by rw [restore, hremove, hback], hsame.trans hsame', fun q => ?_⟩
  rcases hcontent' q with ⟨hold, x, hx, hq⟩ | ⟨hkept, hnot⟩
  · exact .inl ⟨hold, x, hx, (hlocate x hx q).mp hq⟩
  · refine .inr ⟨fun x hx hq => hnot x hx ((hlocate x hx q).mpr hq), ?_⟩
    rw [hkept]
    exact hcontent q

end Undo

end Counterpart
