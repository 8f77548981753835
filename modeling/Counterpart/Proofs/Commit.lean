/-
Writing all files of a batch or none. A commit that succeeds leaves every file where its path leads, the later of two at one
place, and all else as it was. One that fails gives every file back the content that it had, but for those that a path of the
batch finds only once the commit has made the directories which the path climbs out of (`Batch.commit_allOrNone`): such a
file is neither saved nor seen to be there. Paths that do not climb find all files in time (`Batch.commit_restores`).
-/
import Counterpart.Proofs.Undoing

namespace Counterpart

/-! ## Batches -/

namespace Batch

open Disk

/-- The path to a file of a batch that is written into the directory `base`. -/
def pathOf (base : Path) (f : BatchFile) : Path := (f.target base).path

/-- The last of the files whose path leads to a place. -/
def lastAt? (base : Path) (d : Disk) (l : Location) (fs : List BatchFile) : Option BatchFile :=
  fs.reverse.find? fun f => (d.locate (pathOf base f)).toOption == some l

/-- The batch is written: on `d'` every file is where its path leads, the last one where several are, and all else is as it was
on `d`. -/
structure Written (b : Batch) (base : Path) (d d' : Disk) : Prop where
  placed : ∀ f ∈ b.files, ∃ l, d'.Finds (pathOf base f) l
  content? : ∀ l, d'.content? l = match lastAt? base d' l b.files with
    | some f => some f.content.toUTF8
    | none => d.content? l

/-- The file at a place of `d` is overlooked: a path of the batch leads to it on `d'` but does not on `d`, where a directory is
missing that the path climbs out of, and the path of no file that may replace it leads to it on `d`. -/
structure Overlooks (b : Batch) (base : Path) (d d' : Disk) (l : Location) : Prop where
  file : (d.content? l).isSome = true
  late : ∃ f ∈ b.files, Climbs (pathOf base f) ∧ (∀ q, d.locate (pathOf base f) ≠ .ok q) ∧
    d'.locate (pathOf base f) = .ok l
  unsaved : ∀ f ∈ b.files, f.overwrite = true → ¬ d.Finds (pathOf base f) l

/-- The files can be written one after the other. -/
def Writable (base : Path) : List BatchFile → Disk → Prop
  | [], _ => True
  | f :: fs, d => ∃ d' w, (f.target base).write d = (d', .ok w) ∧ Writable base fs d'

/-! ### Saving -/

/-- Saving does not fail, and saves every file that may be replaced. -/
theorem saveAll_ok (base : Path) (d : Disk) (fs : List BatchFile) (u : Undo) :
    ∃ u', saveAll base d fs u = .ok u' ∧ u'.created = u.created ∧ (∀ x ∈ u.saved, x ∈ u'.saved) ∧
      (∀ x ∈ u'.saved, x ∈ u.saved ∨ ∃ l, d.Finds x.1 l ∧ d.content? l = some x.2) ∧
      ∀ f ∈ fs, f.overwrite = true → ∀ l, d.Finds (pathOf base f) l → ∃ x ∈ u'.saved, x.1 = pathOf base f := by
  induction fs generalizing u with
  | nil => exact ⟨u, rfl, rfl, fun _ hx => hx, fun _ hx => .inl hx, by simp⟩
  | cons f fs ih =>
    rw [saveAll]
    by_cases hover : f.overwrite = true
    · rw [if_pos hover]
      rcases u.save_cases d (pathOf base f) with ⟨l, content, hl, hc, hsave⟩ | ⟨hnot, hsave⟩ <;> rw [pathOf] at hsave
      · rw [hsave]
        obtain ⟨u', hrest, hcreated, hkeep, hfrom, hall⟩ := ih { u with saved := u.saved ++ [(pathOf base f, content)] }
        refine ⟨u', hrest, hcreated, fun x hx => hkeep x (List.mem_append_left _ hx), fun x hx => ?_,
          fun g hg hgo m hm => ?_⟩
        · rcases hfrom x hx with hx | hx
          · rcases List.mem_append.mp hx with hx | hx
            · exact .inl hx
            · rw [List.mem_singleton] at hx
              exact .inr ⟨l, hx ▸ hl, hx ▸ hc⟩
          · exact .inr hx
        · rcases List.mem_cons.mp hg with rfl | hg
          · exact ⟨_, hkeep _ (List.mem_append_right _ (List.mem_singleton_self _)), rfl⟩
          · exact hall g hg hgo m hm
      · rw [hsave]
        obtain ⟨u', hrest, hcreated, hkeep, hfrom, hall⟩ := ih u
        refine ⟨u', hrest, hcreated, hkeep, hfrom, fun g hg hgo m hm => ?_⟩
        rcases List.mem_cons.mp hg with rfl | hg
        · exact absurd hm (hnot m)
        · exact hall g hg hgo m hm
    · rw [if_neg hover]
      obtain ⟨u', hrest, hcreated, hkeep, hfrom, hall⟩ := ih u
      refine ⟨u', hrest, hcreated, hkeep, hfrom, fun g hg hgo m hm => ?_⟩
      rcases List.mem_cons.mp hg with rfl | hg
      · exact absurd hgo hover
      · exact hall g hg hgo m hm

/-! ### Writing -/

/-- The invariant of a commit that starts on the disk `d₀`: what can be undone on the disk `d`. -/
structure Undoable (files : List BatchFile) (base : Path) (d₀ : Disk) (u : Undo) (d : Disk) : Prop where
  grows : Grows d₀ d
  saved : ∀ x ∈ u.saved, ∃ l, d₀.Finds x.1 l ∧ d₀.content? l = some x.2
  saves : ∀ f ∈ files, f.overwrite = true → ∀ l, d₀.Finds (pathOf base f) l → ∃ x ∈ u.saved, x.1 = pathOf base f
  /-- A path to a file that counts as made led nowhere, or to a place without a file. -/
  created : ∀ p ∈ u.created, ∃ f ∈ files, p = pathOf base f ∧ ∃ l, d.Finds p l ∧
    ((d₀.content? l).isSome = true → ∀ q, d₀.locate p ≠ .ok q)
  /-- New files count as made. -/
  fresh : ∀ l, d₀.content? l = none → (d.content? l).isSome = true → ∃ p ∈ u.created, d.locate p = .ok l
  /-- A file that was replaced is saved, or its path led nowhere. -/
  changed : ∀ l, (d₀.content? l).isSome = true → d.content? l ≠ d₀.content? l →
    ∃ f ∈ files, d.locate (pathOf base f) = .ok l ∧
      ((∀ q, d₀.locate (pathOf base f) ≠ .ok q) ∨ f.overwrite = true ∧ d₀.Finds (pathOf base f) l)

variable {files : List BatchFile} {base : Path} {d₀ d d' : Disk} {u : Undo}

namespace Undoable

theorem furnished (h : Undoable files base d₀ u d) (hd : Furnished d d') : Undoable files base d₀ u d' := by
  have hgrows := Grows.of_furnished hd
  refine ⟨h.grows.trans hgrows, h.saved, h.saves, ?_, ?_, ?_⟩
  · intro p hp
    obtain ⟨f, hf, hpf, l, hl, hlate⟩ := h.created p hp
    exact ⟨f, hf, hpf, l, hgrows.finds hl, hlate⟩
  · intro l hnone hsome
    rw [hd.content?] at hsome
    obtain ⟨p, hp, hl⟩ := h.fresh l hnone hsome
    exact ⟨p, hp, locate_mono hd.keepsDirectories hl⟩
  · intro l hsome hne
    rw [hd.content?] at hne
    obtain ⟨f, hf, hl, hwhy⟩ := h.changed l hsome hne
    exact ⟨f, hf, locate_mono hd.keepsDirectories hl, hwhy⟩

/-- One more file is written; `w` tells whether it counts as made. -/
theorem wrote {f : BatchFile} {content : ByteArray} {l : Location} (h : Undoable files base d₀ u d) (hf : f ∈ files)
    (hw : Wrote d (pathOf base f) content l d') (hover : d.exists? (pathOf base f) = true → f.overwrite = true) :
    Undoable files base d₀ (if d.exists? (pathOf base f) then u else u.addCreated (pathOf base f)) d' := by
  have hgrows := h.grows.trans hw.grows
  have hsaved : (if d.exists? (pathOf base f) then u else u.addCreated (pathOf base f)).saved = u.saved := by
    split <;> rfl
  have hmem : ∀ {p}, p ∈ (if d.exists? (pathOf base f) then u else u.addCreated (pathOf base f)).created ↔
      p ∈ u.created ∨ p = pathOf base f ∧ d.exists? (pathOf base f) = false := by
    intro p
    cases d.exists? (pathOf base f) <;> simp [Undo.addCreated]
  refine ⟨hgrows, hsaved ▸ h.saved, hsaved ▸ h.saves, ?_, ?_, ?_⟩
  · intro p hp
    rcases hmem.mp hp with hp | ⟨rfl, hexists⟩
    · obtain ⟨g, hg, hpg, m, hm, hlate⟩ := h.created p hp
      exact ⟨g, hg, hpg, m, hw.grows.finds hm, hlate⟩
    · refine ⟨f, hf, rfl, l, hw.finds, fun hsome q hq => ?_⟩
      exact hw.locate_ne hexists (h.grows.file l hsome) q (locate_mono h.grows.toKeepsDirectories hq)
  · intro q hnone hsome
    by_cases hq : (d.content? q).isSome = true
    · obtain ⟨p, hp, hl⟩ := h.fresh q hnone hq
      exact ⟨p, hmem.mpr (.inl hp), locate_mono hw.grows.toKeepsDirectories hl⟩
    · rw [hw.content?] at hsome
      split at hsome
      next hql =>
        subst hql
        exact ⟨pathOf base f, hmem.mpr (.inr ⟨rfl, hw.not_exists hq⟩), hw.finds.locate⟩
      next => exact absurd hsome hq
  · intro q hsome hne
    by_cases hq : q = l
    · subst hq
      refine ⟨f, hf, hw.finds.locate, ?_⟩
      by_cases hlate : ∀ m, d₀.locate (pathOf base f) ≠ .ok m
      · exact .inl hlate
      · obtain ⟨m, hm⟩ := Classical.not_forall.mp hlate
        have hm := Classical.not_not.mp hm
        obtain rfl := hw.eq_of_locate hgrows.toKeepsDirectories hm
        have hfinds : d₀.Finds (pathOf base f) m := ⟨hm, hw.finds.plain, hsome⟩
        exact .inr ⟨hover (h.grows.finds hfinds).exists?, hfinds⟩
    · rw [hw.content?, if_neg hq] at hne
      obtain ⟨g, hg, hl, hwhy⟩ := h.changed q hsome hne
      exact ⟨g, hg, locate_mono hw.grows.toKeepsDirectories hl, hwhy⟩

/-- **Undoing** gives every file back, but for those that are overlooked. -/
theorem restore {b : Batch} (hd : d₀.WellFormed) (h : Undoable b.files base d₀ u d) :
    ∀ l, (u.restore d).1.content? l = d₀.content? l ∨ b.Overlooks base d₀ (u.restore d).1 l := by
  have hcreated : ∀ p ∈ u.created, ∃ l, d.Leads p l := by
    intro p hp
    obtain ⟨f, -, -, l, hl, -⟩ := h.created p hp
    exact ⟨l, hl.leads⟩
  have hsaved : ∀ x ∈ u.saved, ∃ l, d.Leads x.1 l ∧ d₀.content? l = some x.2 := by
    intro x hx
    obtain ⟨l, hl, hc⟩ := h.saved x hx
    exact ⟨l, (h.grows.finds hl).leads, hc⟩
  obtain ⟨d', hrestore, hsame, hcontent⟩ := Undo.restore_ok hcreated hsaved
  rw [hrestore]
  have hkeeps := h.grows.toKeepsDirectories.trans hsame.keeps
  have hfile : ∀ l, (d₀.content? l).isSome = true → d'.get? l ≠ some .directory := by
    intro l hl hdir
    have hsome := h.grows.file l hl
    simp [Disk.content?, (hsame.directory l).mp hdir] at hsome
  intro l
  rcases hcontent l with ⟨hold, -⟩ | ⟨hunsaved, hrest⟩
  · exact .inl hold
  -- what is left is not saved: it is new and removed, as it was, or overlooked
  have hunsaved' : ∀ f ∈ b.files, f.overwrite = true → ¬ d₀.Finds (pathOf base f) l := by
    intro f hf hover hfinds
    obtain ⟨x, hx, hxf⟩ := h.saves f hf hover l hfinds
    exact hunsaved x hx (hxf ▸ (h.grows.finds hfinds).locate)
  have hoverlooked : (d₀.content? l).isSome = true → ∀ f ∈ b.files, (∀ q, d₀.locate (pathOf base f) ≠ .ok q) →
      d.locate (pathOf base f) = .ok l → b.Overlooks base d₀ d' l := by
    intro hsome f hf hlate hl
    have hl' := locate_mono hsame.keeps hl
    refine ⟨hsome, ⟨f, hf, ?_, hlate, hl'⟩, hunsaved'⟩
    refine Classical.not_not.mp fun hup => ?_
    have hnone := get?_of_locate_late hd hkeeps.workDir hfile hup hlate hl'
    simp [Disk.content?, hnone] at hsome
  cases hsome : d₀.content? l with
  | none =>
    rcases hrest with ⟨hnone, -⟩ | ⟨hkept, hnot⟩
    · exact .inl hnone
    · rw [hkept]
      cases hc : d.content? l with
      | none => exact .inl rfl
      | some c =>
        obtain ⟨p, hp, hl⟩ := h.fresh l hsome (by rw [hc]; rfl)
        exact absurd hl (hnot p hp)
  | some c =>
    have hthere : (d₀.content? l).isSome = true := by rw [hsome]; rfl
    rcases hrest with ⟨-, p, hp, hl⟩ | ⟨hkept, -⟩
    · obtain ⟨f, hf, rfl, m, hm, hlate⟩ := h.created p hp
      rw [hm.locate] at hl
      cases hl
      exact .inr (hoverlooked hthere f hf (hlate hthere) hm.locate)
    · by_cases hc : d.content? l = d₀.content? l
      · rw [hkept, hc, hsome]
        exact .inl rfl
      · obtain ⟨f, hf, hl, hlate | ⟨hover, hfinds⟩⟩ := h.changed l hthere hc
        · exact .inr (hoverlooked hthere f hf hlate hl)
        · exact absurd hfinds (hunsaved' f hf hover)

end Undoable

theorem lastAt?_cons (base : Path) (d : Disk) (l : Location) (f : BatchFile) (fs : List BatchFile) :
    lastAt? base d l (f :: fs) =
      (lastAt? base d l fs).or (if (d.locate (pathOf base f)).toOption = some l then some f else none) := by
  rw [lastAt?, List.reverse_cons, List.find?_append, lastAt?]
  congr 1
  by_cases hl : (d.locate (pathOf base f)).toOption = some l <;> simp [hl]

/-- One step of a commit fails, and undoes all, or writes a file and goes on. -/
theorem writeAll_cons {f : BatchFile} {fs : List BatchFile} {report : WriteReport} {r : Except Failure WriteReport}
    (h : Undoable files base d₀ u d) (hf : f ∈ files) (hrun : writeAll base (f :: fs) u report d = (d', r)) :
    (∃ e d₁, r = .error e ∧ ¬ Writable base (f :: fs) d ∧ Undoable files base d₀ u d₁ ∧ (u.restore d₁).1 = d') ∨
      ∃ d₁ l u' report', Wrote d (pathOf base f) f.content.toUTF8 l d₁ ∧ (Writable base (f :: fs) d → Writable base fs d₁) ∧
        Undoable files base d₀ u' d₁ ∧ writeAll base fs u' report' d₁ = (d', r) := by
  rw [writeAll] at hrun
  cases hwrite : (f.target base).write d with
  | mk d₁ result =>
    have hcases := TargetFile.write_cases hwrite
    rw [hwrite] at hrun
    cases result with
    | error e =>
      dsimp only at hrun hcases
      have hundo := h.furnished hcases
      have hnot : ¬ Writable base (f :: fs) d := by
        rintro ⟨d₂, w, hw, -⟩
        rw [hwrite] at hw
        cases hw
      left
      split at hrun
      next d₂ hrestore =>
        cases hrun
        exact ⟨_, d₁, rfl, hnot, hundo, by rw [hrestore]⟩
      next d₂ cleanup hrestore =>
        cases hrun
        exact ⟨_, d₁, rfl, hnot, hundo, by rw [hrestore]⟩
    | ok w =>
      dsimp only at hcases
      obtain ⟨⟨l, hwrote⟩, hover, rfl⟩ := hcases
      have hundo := h.wrote hf hwrote hover
      have hwritable : Writable base (f :: fs) d → Writable base fs d₁ := by
        rintro ⟨d₂, w, hw, hwritable⟩
        rw [hwrite] at hw
        cases hw
        exact hwritable
      -- the undo log is the one of `Undoable.wrote`, whichever way the file counts
      right
      cases hexists : d.exists? (f.target base).path <;>
        · rw [hexists] at hrun
          rw [pathOf, hexists] at hundo
          exact ⟨d₁, l, _, _, hwrote, hwritable, hundo, hrun⟩

theorem writeAll_cases {fs : List BatchFile} {report : WriteReport} {r : Except Failure WriteReport}
    (h : Undoable files base d₀ u d) (hfs : ∀ f ∈ fs, f ∈ files) (hrun : writeAll base fs u report d = (d', r)) :
    match r with
    | .ok _ => Grows d d' ∧ (∀ f ∈ fs, ∃ l, d'.Finds (pathOf base f) l) ∧
        ∀ l, d'.content? l = match lastAt? base d' l fs with
          | some f => some f.content.toUTF8
          | none => d.content? l
    | .error _ => ¬ Writable base fs d ∧ ∃ u₁ d₁, Undoable files base d₀ u₁ d₁ ∧ (u₁.restore d₁).1 = d' := by
  induction fs generalizing u report d with
  | nil =>
    cases hrun
    exact ⟨.refl _, by simp, fun l => rfl⟩
  | cons f fs ih =>
    have hf := hfs f List.mem_cons_self
    have hfs' : ∀ g ∈ fs, g ∈ files := fun g hg => hfs g (List.mem_cons_of_mem f hg)
    obtain ⟨e, d₁, rfl, hnot, hundo, hrestored⟩ | ⟨d₁, l, u', report', hwrote, hwritable, hundo, hrest⟩ := writeAll_cons h hf hrun
    · exact ⟨hnot, u, d₁, hundo, hrestored⟩
    have hih := ih hundo hfs' hrest
    cases r with
    | error e => exact ⟨fun hall => hih.1 (hwritable hall), hih.2⟩
    | ok report'' =>
      obtain ⟨hgrows, hfinds, hcontent⟩ := hih
      have hplace : d'.locate (pathOf base f) = .ok l := locate_mono hgrows.toKeepsDirectories hwrote.finds.locate
      refine ⟨hwrote.grows.trans hgrows, fun g hg => ?_, fun q => ?_⟩
      · rcases List.mem_cons.mp hg with rfl | hg
        · exact ⟨l, hgrows.finds hwrote.finds⟩
        · exact hfinds g hg
      · rw [hcontent, lastAt?_cons, hplace]
        cases lastAt? base d' q fs with
        | some g => rfl
        | none =>
          rw [Option.none_or, hwrote.content?]
          by_cases hq : q = l
          · simp [hq, Except.toOption]
          · simp [hq, Ne.symm hq, Except.toOption]

/-! ### Committing -/

/-- A commit begins with everything saved that may be replaced. -/
theorem undoable_of_saveAll (h : saveAll base d files .empty = .ok u) : Undoable files base d u d := by
  obtain ⟨u', hu', hcreated, -, hsaved, hsaves⟩ := saveAll_ok base d files .empty
  rw [h] at hu'
  cases hu'
  refine ⟨.refl d, fun x hx => ?_, hsaves, fun p hp => ?_, fun l hnone hsome => ?_, fun l _ hne => absurd rfl hne⟩
  · exact (hsaved x hx).resolve_left (by simp [Undo.empty])
  · rw [hcreated] at hp
    cases hp
  · rw [hnone] at hsome
    cases hsome

/-- A commit that fails has a reason, and changes nothing or undoes what it did. -/
theorem commit_cases {b : Batch} {r : Except Failure WriteReport} (h : b.commit base d = (d', r)) :
    match r with
    | .ok _ => b.Written base d d'
    | .error _ => (b.conflicts base d ≠ [] ∨ ¬ Writable base b.files d) ∧
        (d' = d ∨ ∃ u₁ d₁, Undoable b.files base d u₁ d₁ ∧ (u₁.restore d₁).1 = d') := by
  unfold commit at h
  split at h
  next hconflicts =>
    obtain ⟨u, hsave, -⟩ := saveAll_ok base d b.files .empty
    rw [hsave] at h
    have hcases := writeAll_cases (undoable_of_saveAll hsave) (fun f hf => hf) h
    cases r with
    | ok report => exact ⟨hcases.2.1, hcases.2.2⟩
    | error e => exact ⟨.inr hcases.1, .inr hcases.2⟩
  next hconflicts =>
    cases h
    exact ⟨.inl hconflicts, .inl rfl⟩

/-- A batch whose paths do not climb is written or leaves every file as it was. -/
theorem commit_restores {b : Batch} {e : Failure} (hd : d.WellFormed) (hpaths : ∀ f ∈ b.files, ¬ Climbs (pathOf base f))
    (h : b.commit base d = (d', .error e)) (l : Location) : d'.content? l = d.content? l := by
  obtain ⟨-, rfl | ⟨u₁, d₁, hundo, rfl⟩⟩ := commit_cases h
  · rfl
  · rcases hundo.restore hd l with hl | hover
    · exact hl
    · obtain ⟨f, hf, hup, -⟩ := hover.late
      exact absurd hup (hpaths f hf)

/-- **All or none.** A commit that succeeds has written the batch. One fails only for a conflict or for a file that cannot be
written, and leaves every file as it was that it did not overlook, and no file that was not there. -/
theorem commit_allOrNone {d : Disk} (hd : d.WellFormed) (b : Batch) (base : Path) :
    ∃ d' r, b.commit base d = (d', r) ∧
      match r with
      | .ok _ => b.Written base d d'
      | .error _ => (b.conflicts base d ≠ [] ∨ ¬ Writable base b.files d) ∧
          ∀ l, d'.content? l = d.content? l ∨ b.Overlooks base d d' l := by
  cases h : b.commit base d with
  | mk d' r =>
    refine ⟨d', r, rfl, ?_⟩
    have hcases := commit_cases h
    cases r with
    | ok report => exact hcases
    | error e =>
      obtain ⟨hreason, rfl | ⟨u₁, d₁, hundo, rfl⟩⟩ := hcases
      · exact ⟨hreason, fun l => .inl rfl⟩
      · exact ⟨hreason, hundo.restore hd⟩

end Batch

/-! ## A file that is overlooked -/

/-- A file with a user's code, and a directory where the second file of the batch should go. -/
def climbingDisk : Disk :=
  ⟨["work"], [(["work"], .directory), (["X.kt", "work"], .file "user code".toUTF8), (["Blocked.kt", "work"], .directory)]⟩

/-- The first path leads to `X.kt` only when there is a directory `a`. -/
def climbingBatch : Batch :=
  ⟨[⟨⟨"a/../X.kt"⟩, "generated", .entity, true⟩, ⟨⟨"Blocked.kt"⟩, "second", .entity, true⟩]⟩

theorem wellFormed_climbingDisk : climbingDisk.WellFormed := by
  refine ⟨fun e he => ?_⟩
  simp only [climbingDisk, List.mem_cons, List.not_mem_nil, or_false] at he
  rcases he with rfl | rfl | rfl <;> rfl

theorem commit_allOrNone_climbingBatch :
    climbingDisk.WellFormed ∧ ∃ d' e, climbingBatch.commit ⟨"."⟩ climbingDisk = (d', .error e) ∧
      ∀ l, d'.content? l = climbingDisk.content? l ∨ climbingBatch.Overlooks ⟨"."⟩ climbingDisk d' l := by
  refine ⟨wellFormed_climbingDisk, ?_⟩
  have hfails : (climbingBatch.commit ⟨"."⟩ climbingDisk).2.toOption.isSome = false := by decide +kernel
  obtain ⟨d', r, hrun, hcases⟩ := Batch.commit_allOrNone wellFormed_climbingDisk climbingBatch ⟨"."⟩
  rw [hrun] at hfails
  cases r with
  | ok report => cases hfails
  | error e => exact ⟨d', e, hrun, hcases.2⟩

/-- The commit fails and the user's file is gone. -/
theorem climbingBatch_not_restored :
    ∃ d' e, climbingBatch.commit ⟨"."⟩ climbingDisk = (d', .error e) ∧
      climbingDisk.content? ["X.kt", "work"] = some "user code".toUTF8 ∧ d'.content? ["X.kt", "work"] = none ∧
      ¬ ∀ l, d'.content? l = climbingDisk.content? l := by
  have hfails : (climbingBatch.commit ⟨"."⟩ climbingDisk).2.toOption.isSome = false := by decide +kernel
  have hgone : ((climbingBatch.commit ⟨"."⟩ climbingDisk).1.content? ["X.kt", "work"]).isSome = false := by
    decide +kernel
  have hthere : climbingDisk.content? ["X.kt", "work"] = some "user code".toUTF8 := by rfl
  cases hrun : climbingBatch.commit ⟨"."⟩ climbingDisk with
  | mk d' r =>
    rw [hrun] at hfails hgone
    cases r with
    | ok report => cases hfails
    | error e =>
      have hnone : d'.content? ["X.kt", "work"] = none := by simpa using hgone
      refine ⟨d', e, rfl, hthere, hnone, fun hall => ?_⟩
      have := hall ["X.kt", "work"]
      rw [hnone, hthere] at this
      cases this

end Counterpart
