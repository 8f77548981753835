/-
What the operations of a disk change. One that succeeds changes a single place (`write_ok`, `removeFile_ok`,
`createDirectory_ok`); making directories touches no file (`Furnished`), and a write leaves a file where its path leads
(`Wrote`), with the directories that it needed.
-/
import Counterpart.Disk.Batch
import Counterpart.Proofs.Outcomes
import Counterpart.Proofs.Places

namespace Counterpart

namespace Disk

variable {d d' : Disk} {l q : Location} {p : Path} {content : ByteArray}

/-! ## Changes -/

/-- What a write that succeeds does. -/
theorem write_ok (h : d.write p content = .ok d') :
    ∃ l, d.locate p = .ok l ∧ asksForDirectory p = false ∧ d.get? l ≠ some .directory ∧ d'.workDir = d.workDir ∧
      ∀ q, d'.get? q = if q = l then some (.file content) else d.get? q := by
  rw [write] at h
  obtain ⟨l, hl, h⟩ := exists_of_bind_ok h
  split at h
  next => cases h
  next hfree =>
    cases h
    rw [Bool.or_eq_true, not_or] at hfree
    obtain ⟨ha, hfile⟩ := hfree
    have hdir : d.get? l ≠ some .directory := by
      intro hdir
      rw [hdir] at hfile
      exact hfile rfl
    exact ⟨l, hl, by simpa using ha, hdir, rfl, get?_set (ne_nil_of_get? hdir) _⟩

/-- A path that leads to no directory can be written. -/
theorem exists_write (hl : d.locate p = .ok l) (ha : asksForDirectory p = false) (hdir : d.get? l ≠ some .directory)
    (content : ByteArray) : ∃ d', d.write p content = .ok d' := by
  refine ⟨d.set l (.file content), ?_⟩
  have hfile : ((d.get? l).any fun e => !e.isFile) = false := by
    cases hg : d.get? l with
    | none => rfl
    | some e =>
      cases e with
      | file c => rfl
      | directory => exact absurd hg hdir
  simp [write, bind, Except.bind, pure, Except.pure, hl, ha, hfile]

/-- What removing a file does. -/
theorem removeFile_ok (h : d.removeFile p = .ok d') :
    ∃ l c, d.locate p = .ok l ∧ d.get? l = some (.file c) ∧ d'.workDir = d.workDir ∧
      ∀ q, d'.get? q = if q = l then none else d.get? q := by
  rw [removeFile] at h
  obtain ⟨e, he, h⟩ := exists_of_bind_ok h
  split at h
  next c =>
    obtain ⟨l, hl, hc, -⟩ := entry_eq_file.mp he
    rw [hl] at h
    cases h
    exact ⟨l, c, hl, hc, rfl, get?_erase (ne_nil_of_get? (by rw [hc]; simp))⟩
  next => cases h

/-- Removing a file that a path leads to succeeds; where nothing is, nothing is found. -/
theorem removeFile_cases (hl : d.locate p = .ok l) (ha : asksForDirectory p = false)
    (hdir : d.get? l ≠ some .directory) :
    (∃ d', d.removeFile p = .ok d') ∨ d.get? l = none ∧ d.removeFile p = .error .notFound := by
  simp only [removeFile, entry, bind, Except.bind, pure, Except.pure, throw, throwThe, MonadExceptOf.throw, hl, ha]
  cases hg : d.get? l with
  | none => exact .inr ⟨rfl, rfl⟩
  | some e =>
    cases e with
    | file c => exact .inl ⟨_, rfl⟩
    | directory => exact absurd hg hdir

theorem createDirectory_ok (h : d.createDirectory p = .ok d') :
    ∃ l, d.get? l = none ∧ d'.workDir = d.workDir ∧ ∀ q, d'.get? q = if q = l then some .directory else d.get? q := by
  rw [createDirectory] at h
  obtain ⟨l, -, h⟩ := exists_of_bind_ok h
  split at h
  next => cases h
  next hnone =>
    cases h
    exact ⟨l, hnone, rfl, get?_set (ne_nil_of_get? (by rw [hnone]; simp)) _⟩

/-- The disk `d'` is `d` with more directories. -/
structure Furnished (d d' : Disk) : Prop where
  workDir : d'.workDir = d.workDir
  get? : ∀ l, d'.get? l = d.get? l ∨ d.get? l = none ∧ d'.get? l = some .directory

namespace Furnished

theorem refl (d : Disk) : Furnished d d := ⟨rfl, fun _ => .inl rfl⟩

theorem trans {d'' : Disk} (h : Furnished d d') (h' : Furnished d' d'') : Furnished d d'' := by
  refine ⟨h'.workDir.trans h.workDir, fun l => ?_⟩
  rcases h.get? l with hl | ⟨hnone, hl⟩
  · rw [← hl]
    exact h'.get? l
  · right
    rcases h'.get? l with hl' | ⟨hnone', -⟩
    · exact ⟨hnone, hl'.trans hl⟩
    · rw [hl] at hnone'
      cases hnone'

theorem keepsDirectories (h : Furnished d d') : KeepsDirectories d d' := by
  refine ⟨h.workDir, fun l hl => ?_⟩
  rcases h.get? l with hl' | ⟨hnone, -⟩
  · exact hl'.trans hl
  · rw [hl] at hnone
    cases hnone

/-- Files stay as they are, and none are added. -/
theorem content? (h : Furnished d d') (l : Location) : d'.content? l = d.content? l := by
  rcases h.get? l with hl | ⟨hnone, hdir⟩
  · exact content?_congr hl
  · simp [Disk.content?, hnone, hdir]

theorem createDirectory (h : d.createDirectory p = .ok d') : Furnished d d' := by
  obtain ⟨l, hnone, hw, hget⟩ := createDirectory_ok h
  refine ⟨hw, fun q => ?_⟩
  rw [hget]
  split
  next hq => exact .inr ⟨hq ▸ hnone, rfl⟩
  · exact .inl rfl

theorem createFrom (d : Disk) (ps : List Path) : Furnished d (d.createFrom ps).1 := by
  fun_induction Disk.createFrom d ps with
  | case1 => exact .refl d
  | case2 p outer d' h => exact .createDirectory h
  | case3 p outer h d' e hout ih =>
    rw [hout] at ih
    exact ih
  | case4 p outer h d' hout d'' hcreate ih =>
    rw [hout] at ih
    exact ih.trans (.createDirectory hcreate)
  | case5 p outer h d' hout e hcreate ih =>
    rw [hout] at ih
    exact ih
  | case6 => exact .refl d

/-- **Making directories** touches no file. -/
theorem createDirectories (d : Disk) (p : Path) : Furnished d (d.createDirectories p).1 := createFrom d p.ancestors

end Furnished

/-! ## Files that paths lead to -/

/-- The path leads to a place that can hold a file. -/
structure Leads (d : Disk) (p : Path) (l : Location) : Prop where
  locate : d.locate p = .ok l
  plain : asksForDirectory p = false
  free : d.get? l ≠ some .directory

/-- The path leads to a file. -/
structure Finds (d : Disk) (p : Path) (l : Location) : Prop where
  locate : d.locate p = .ok l
  plain : asksForDirectory p = false
  file : (d.content? l).isSome = true

theorem Finds.leads (h : d.Finds p l) : d.Leads p l := by
  refine ⟨h.locate, h.plain, fun hdir => ?_⟩
  have := h.file
  simp [content?, hdir] at this

theorem finds_iff : d.isFile p = true ∧ d.locate p = .ok l ↔ d.Finds p l := by
  constructor
  · rintro ⟨hfile, hl⟩
    simp only [isFile, holds] at hfile
    split at hfile
    next e he =>
      cases e with
      | directory => cases hfile
      | file c =>
        obtain ⟨l', hl', hc, ha⟩ := entry_eq_file.mp he
        rw [hl] at hl'
        cases hl'
        exact ⟨hl, ha, by rw [content?_eq_some.mpr hc]; rfl⟩
    · cases hfile
  · rintro ⟨hl, ha, hfile⟩
    obtain ⟨c, hc⟩ := Option.isSome_iff_exists.mp hfile
    have he := entry_eq_file.mpr ⟨l, hl, content?_eq_some.mp hc, ha⟩
    exact ⟨by simp [isFile, holds, he, DiskEntry.isFile], hl⟩

theorem Finds.exists? (h : d.Finds p l) : d.exists? p = true := by
  rw [exists?_of_locate h.locate h.plain]
  obtain ⟨c, hc⟩ := Option.isSome_iff_exists.mp h.file
  rw [content?_eq_some.mp hc]
  rfl

/-- What writes do to a disk: directories stay, and where a file was a file is. -/
structure Grows (d d' : Disk) : Prop extends KeepsDirectories d d' where
  file : ∀ l, (d.content? l).isSome = true → (d'.content? l).isSome = true

namespace Grows

theorem refl (d : Disk) : Grows d d := ⟨.refl d, fun _ h => h⟩

theorem trans {d'' : Disk} (h : Grows d d') (h' : Grows d' d'') : Grows d d'' :=
  ⟨h.toKeepsDirectories.trans h'.toKeepsDirectories, fun l hl => h'.file l (h.file l hl)⟩

theorem of_furnished (h : Furnished d d') : Grows d d' :=
  ⟨h.keepsDirectories, fun l hl => by rw [h.content?]; exact hl⟩

theorem finds (h : Grows d d') (hp : d.Finds p l) : d'.Finds p l :=
  ⟨locate_mono h.toKeepsDirectories hp.locate, hp.plain, h.file l hp.file⟩

end Grows

/-- The disk `d'` is `d` with a content at the end of a path, and perhaps more directories. -/
structure Wrote (d : Disk) (p : Path) (content : ByteArray) (l : Location) (d' : Disk) : Prop where
  grows : Grows d d'
  finds : d'.Finds p l
  content? : ∀ q, d'.content? q = if q = l then some content else d.content? q

namespace Wrote

/-- Where the path led before, it led to the same place. -/
theorem eq_of_locate {d₁ : Disk} (h : Wrote d p content l d') (hk : KeepsDirectories d₁ d') (hq : d₁.locate p = .ok q) :
    q = l := by
  have hsame := (locate_mono hk hq).symm.trans h.finds.locate
  cases hsame
  rfl

/-- A file that was replaced without being seen is one that the path did not lead to. -/
theorem locate_ne (h : Wrote d p content l d') (hexists : d.exists? p = false) (hsome : (d.content? l).isSome = true)
    (q : Location) : d.locate p ≠ .ok q := by
  intro hq
  obtain rfl := h.eq_of_locate h.grows.toKeepsDirectories hq
  have hseen := Finds.exists? ⟨hq, h.finds.plain, hsome⟩
  rw [hexists] at hseen
  cases hseen

/-- A file that is new was not seen before. -/
theorem not_exists (h : Wrote d p content l d') (hnew : ¬(d.content? l).isSome = true) : d.exists? p = false := by
  cases hq : d.locate p with
  | error e => exact exists?_of_error hq
  | ok q =>
    obtain rfl := h.eq_of_locate h.grows.toKeepsDirectories hq
    rw [exists?_of_locate hq h.finds.plain]
    -- no directory is there either, for a file is there afterwards
    cases hg : d.get? q with
    | none => rfl
    | some e =>
      cases e with
      | file c => simp [Disk.content?, hg] at hnew
      | directory =>
        have hdir := h.grows.directory q hg
        have hfile := h.finds.file
        simp [Disk.content?, hdir] at hfile

end Wrote

theorem Furnished.wrote {d₁ : Disk} {content : ByteArray} (h : Furnished d d₁) (hw : d₁.write p content = .ok d') :
    ∃ l, Wrote d p content l d' := by
  obtain ⟨l, hl, ha, hdir, hwork, hget⟩ := write_ok hw
  have hkeeps : KeepsDirectories d₁ d' := .of_get? hwork hdir fun q hq => by rw [hget, if_neg hq]
  have hcontent : ∀ q, d'.content? q = if q = l then some content else d.content? q := by
    intro q
    split
    next hq => exact content?_eq_some.mpr (by rw [hget, if_pos hq])
    next hq => rw [content?_congr ((hget q).trans (if_neg hq)), h.content?]
  refine ⟨l, ⟨h.keepsDirectories.trans hkeeps, fun q hq => ?_⟩, ⟨locate_mono hkeeps hl, ha, ?_⟩, hcontent⟩
  · rw [hcontent]
    split
    · rfl
    · exact hq
  · rw [hcontent, if_pos rfl]
    rfl

end Disk

/-! ## One file -/

namespace TargetFile

open Disk

variable {f : TargetFile} {d d' : Disk}

theorem put_cases {r : Option FileFault} (h : f.put d = (d', r)) :
    match r with
    | none => ∃ l, Wrote d f.path f.content.toUTF8 l d'
    | some _ => Furnished d d' := by
  have hfurnished : Furnished d ((f.path.parent?.map d.createDirectories).getD (d, none)).1 := by
    cases f.path.parent? with
    | none => exact .refl d
    | some parent => exact .createDirectories d parent
  unfold put at h
  split at h
  next d₁ e hdirs =>
    cases h
    rw [hdirs] at hfurnished
    exact hfurnished
  next d₁ hdirs =>
    rw [hdirs] at hfurnished
    split at h
    next d₂ hwrite =>
      cases h
      exact hfurnished.wrote hwrite
    next e hwrite =>
      cases h
      exact hfurnished

/-- What writing a file does. It replaces only what it may, and calls itself a creation only where it saw nothing. -/
theorem write_cases {r : Except Failure Counterpart.Written} (h : f.write d = (d', r)) :
    match r with
    | .ok w => (∃ l, Wrote d f.path f.content.toUTF8 l d') ∧ (d.exists? f.path = true → f.overwrite = true) ∧
        w = if d.exists? f.path then .replaced else .created
    | .error _ => Furnished d d' := by
  unfold write at h
  split at h
  next hconflict =>
    cases h
    exact .refl d
  next hconflict =>
    have hover : d.exists? f.path = true → f.overwrite = true := by
      intro hexists
      simpa [conflicts, hexists] using hconflict
    simp only at h
    split at h
    next d₁ e hput =>
      cases h
      exact put_cases hput
    next d₁ hput =>
      cases h
      exact ⟨put_cases hput, hover, rfl⟩

end TargetFile

end Counterpart
