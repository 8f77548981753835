/-
Places on a disk and what paths lead to. A path hangs on the directories alone, so it goes on leading to its place as long as
these stay (`locate_mono`). On a well-formed disk a path that leads somewhere only later, and climbs out of no directory,
leads to a place where nothing was (`get?_of_locate_late`).
-/
import Counterpart.Disk

namespace Counterpart.Disk

variable {d d' : Disk} {l q : Location} {p : Path} {content : ByteArray}

/-! ## Single places -/

theorem find?_setEntry (l q : Location) (e : DiskEntry) (xs : List (Location × DiskEntry)) :
    ((setEntry l e xs).find? fun x => x.1 == q).map (·.2) =
      if q = l then some e else (xs.find? fun x => x.1 == q).map (·.2) := by
  induction xs with
  | nil =>
    by_cases hq : q = l
    · simp [setEntry, hq]
    · simp [setEntry, hq, Ne.symm hq]
  | cons x xs ih =>
    obtain ⟨k, v⟩ := x
    by_cases hk : k = l
    · subst hk
      by_cases hq : q = k
      · simp [setEntry, hq]
      · simp [setEntry, hq, Ne.symm hq]
    · by_cases hq : k = q
      · subst hq
        simp [setEntry, hk]
      · simp [setEntry, hk, hq, ih]

theorem get?_set (hl : l ≠ []) (e : DiskEntry) (q : Location) :
    (d.set l e).get? q = if q = l then some e else d.get? q := by
  by_cases hq : q = []
  · subst hq
    simp [get?, Ne.symm hl]
  · simp only [get?, hq, if_false, set, find?_setEntry]

theorem get?_erase (hl : l ≠ []) (q : Location) : (d.erase l).get? q = if q = l then none else d.get? q := by
  by_cases hq : q = []
  · subst hq
    simp [get?, Ne.symm hl]
  · simp only [get?, hq, if_false, erase, List.find?_filter]
    by_cases hql : q = l
    · rw [if_pos hql, Option.map_eq_none_iff, List.find?_eq_none]
      intro e _
      simp [hql]
    · rw [if_neg hql]
      congr 2
      funext e
      by_cases he : e.1 = q
      · simp [he, hql]
      · simp [he]

theorem ne_nil_of_get? (h : d.get? l ≠ some .directory) : l ≠ [] := by
  rintro rfl
  exact h (by simp [get?])

/-- The content of the file at a place. -/
def content? (d : Disk) (l : Location) : Option ByteArray :=
  match d.get? l with
  | some (.file content) => some content
  | _ => none

theorem content?_eq_some : d.content? l = some content ↔ d.get? l = some (.file content) := by
  unfold content?
  split
  next c h => simp [h]
  next h =>
    constructor
    · intro hc
      cases hc
    · intro hc
      exact absurd hc (h content)

theorem content?_congr (h : d'.get? l = d.get? l) : d'.content? l = d.content? l := by
  unfold content?
  rw [h]

/-! ## What paths lead to -/

/-- Every directory of `d` is one of `d'`, and both have one working directory. -/
structure KeepsDirectories (d d' : Disk) : Prop where
  workDir : d'.workDir = d.workDir
  directory : ∀ l, d.get? l = some .directory → d'.get? l = some .directory

namespace KeepsDirectories

theorem refl (d : Disk) : KeepsDirectories d d := ⟨rfl, fun _ h => h⟩

theorem trans {d'' : Disk} (h : KeepsDirectories d d') (h' : KeepsDirectories d' d'') : KeepsDirectories d d'' :=
  ⟨h'.workDir.trans h.workDir, fun l hl => h'.directory l (h.directory l hl)⟩

/-- What changes at a place that is no directory leaves the directories. -/
theorem of_get? (hw : d'.workDir = d.workDir) (hl : d.get? l ≠ some .directory) (h : ∀ q, q ≠ l → d'.get? q = d.get? q) :
    KeepsDirectories d d' := by
  refine ⟨hw, fun q hq => ?_⟩
  have hne : q ≠ l := by
    rintro rfl
    exact hl hq
  rw [h q hne, hq]

end KeepsDirectories

theorem descend_mono (h : ∀ l, d.get? l = some .directory → d'.get? l = some .directory) {names : List String}
    (hd : d.descend l names = .ok q) : d'.descend l names = .ok q := by
  induction names generalizing l with
  | nil => exact hd
  | cons name names ih =>
    rw [descend] at hd ⊢
    split at hd
    next hname =>
      rw [if_pos hname]
      exact ih hd
    next hname =>
      rw [if_neg hname]
      split at hd
      · cases hd
      · cases hd
      next hl =>
        rw [h l hl]
        dsimp only
        split at hd
        next hdot =>
          rw [if_pos hdot]
          exact ih hd
        next hdot =>
          rw [if_neg hdot]
          split at hd
          next hup =>
            rw [if_pos hup]
            exact ih hd
          next hup =>
            rw [if_neg hup]
            split at hd
            · cases hd
            next hsize =>
              rw [if_neg hsize]
              exact ih hd

/-- **A path goes on leading to its place** as long as the directories stay. -/
theorem locate_mono (h : KeepsDirectories d d') (hp : d.locate p = .ok l) : d'.locate p = .ok l := by
  unfold locate at hp ⊢
  split at hp
  · cases hp
  next h₁ =>
    rw [if_neg h₁]
    split at hp
    · cases hp
    next h₂ =>
      rw [if_neg h₂]
      split at hp
      · cases hp
      next h₃ =>
        rw [if_neg h₃, h.workDir]
        exact descend_mono h.directory hp

/-- The place of the file that a path leads to, with its content. -/
theorem entry_eq_file : d.entry p = .ok (.file content) ↔
    ∃ l, d.locate p = .ok l ∧ d.get? l = some (.file content) ∧ asksForDirectory p = false := by
  simp only [entry, bind, Except.bind, pure, Except.pure, throw, throwThe, MonadExceptOf.throw]
  cases hl : d.locate p with
  | error e => simp
  | ok l =>
    simp only [Except.ok.injEq, exists_eq_left']
    cases hg : d.get? l with
    | none => simp
    | some e =>
      cases e with
      | directory => simp
      | file c => cases ha : asksForDirectory p <;> simp

theorem exists?_of_locate (hp : d.locate p = .ok l) (ha : asksForDirectory p = false) :
    d.exists? p = (d.get? l).isSome := by
  simp only [exists?, holds, entry, bind, Except.bind, pure, Except.pure, throw, throwThe, MonadExceptOf.throw, hp, ha]
  cases hg : d.get? l with
  | none => rfl
  | some e => cases e <;> rfl

theorem exists?_of_error {e : FileFault} (hp : d.locate p = .error e) : d.exists? p = false := by
  simp [exists?, holds, entry, bind, Except.bind, hp]

/-! ## Well-formed disks -/

/-- Whatever is on the disk is in a directory. -/
structure WellFormed (d : Disk) : Prop where
  parent : ∀ e ∈ d.entries, d.get? e.1.tail = some .directory

theorem WellFormed.get?_tail (h : d.WellFormed) (hl : (d.get? l).isSome = true) : d.get? l.tail = some .directory := by
  by_cases hnil : l = []
  · subst hnil
    simp [get?]
  · rw [get?, if_neg hnil, Option.isSome_map, List.find?_isSome] at hl
    obtain ⟨e, he, hel⟩ := hl
    rw [beq_iff_eq] at hel
    exact hel ▸ h.parent e he

/-- Below a place where nothing is, nothing is. -/
theorem WellFormed.get?_of_suffix (h : d.WellFormed) (hl : d.get? l = none) (hq : l <:+ q) : d.get? q = none := by
  obtain ⟨names, rfl⟩ := hq
  induction names with
  | nil => exact hl
  | cons name names ih =>
    rw [List.cons_append]
    cases hq : d.get? (name :: (names ++ l)) with
    | none => rfl
    | some e =>
      have hdir := h.get?_tail (l := name :: (names ++ l)) (by rw [hq]; rfl)
      rw [List.tail_cons, ih] at hdir
      cases hdir

/-- The path goes back up somewhere. -/
def Climbs (p : Path) : Prop := ".." ∈ p.pieces

theorem suffix_of_descend {names : List String} (hup : ".." ∉ names) (h : d.descend l names = .ok q) : l <:+ q := by
  induction names generalizing l with
  | nil =>
    cases h
    exact List.suffix_refl _
  | cons name names ih =>
    rw [List.mem_cons, not_or] at hup
    rw [descend] at h
    split at h
    · exact ih hup.2 h
    split at h
    · cases h
    · cases h
    · split at h
      · exact ih hup.2 h
      rw [if_neg (Ne.symm hup.1)] at h
      split at h
      · cases h
      · exact (List.suffix_cons name l).trans (ih hup.2 h)

/-- Where a path that does not climb leads only later, nothing was. -/
theorem get?_of_descend_late (hd : d.WellFormed) (hfile : ∀ l, (d.content? l).isSome = true → d'.get? l ≠ some .directory)
    {names : List String} (hup : ".." ∉ names) (hlate : ∀ q, d.descend l names ≠ .ok q)
    (h : d'.descend l names = .ok q) : d.get? q = none := by
  induction names generalizing l with
  | nil => exact absurd rfl (hlate l)
  | cons name names ih =>
    by_cases hl : d.get? l = none
    · exact hd.get?_of_suffix hl (suffix_of_descend hup h)
    rw [List.mem_cons, not_or] at hup
    simp only [descend] at h hlate
    split at h
    next hname =>
      rw [if_pos hname] at hlate
      exact ih hup.2 hlate h
    next hname =>
      rw [if_neg hname] at hlate
      split at h
      · cases h
      · cases h
      next hdir' =>
        have hdir : d.get? l = some .directory := by
          cases hg : d.get? l with
          | none => exact absurd hg hl
          | some e =>
            cases e with
            | directory => rfl
            | file c => exact absurd hdir' (hfile l (by rw [content?_eq_some.mpr hg]; rfl))
        rw [hdir] at hlate
        dsimp only at hlate
        split at h
        next hdot =>
          rw [if_pos hdot] at hlate
          exact ih hup.2 hlate h
        next hdot =>
          rw [if_neg hdot] at hlate
          rw [if_neg (Ne.symm hup.1)] at h hlate
          split at h
          · cases h
          next hsize =>
            rw [if_neg hsize] at hlate
            exact ih hup.2 hlate h

theorem get?_of_locate_late (hd : d.WellFormed) (hw : d'.workDir = d.workDir)
    (hfile : ∀ l, (d.content? l).isSome = true → d'.get? l ≠ some .directory) (hup : ¬ Climbs p)
    (hlate : ∀ q, d.locate p ≠ .ok q) (h : d'.locate p = .ok q) : d.get? q = none := by
  unfold locate at h hlate
  split at h
  · cases h
  next h₁ =>
    rw [if_neg h₁] at hlate
    split at h
    · cases h
    next h₂ =>
      rw [if_neg h₂] at hlate
      split at h
      · cases h
      next h₃ =>
        rw [if_neg h₃, ← hw] at hlate
        exact get?_of_descend_late hd hfile hup hlate h

end Counterpart.Disk
