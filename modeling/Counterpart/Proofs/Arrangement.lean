/-
Where the counterparts are. Along the walk every declaration is at the address that the table has for its source, the names
in one place differ, and a counterpart is at the top of the file planned for it or inside that of the class around it
(`Arranged`, kept by every step: `Arranged.kept`). So addresses can be followed outwards (`Arranged.induction`).
-/
import Counterpart.Proofs.Counterparts
import Counterpart.Proofs.Loading
import Counterpart.Proofs.Tree

namespace Counterpart.Entity

open Kotlin Output

/-! ## The invariant -/

/-- Where the counterpart of the class `c` can be: at the top of the file planned for it, or inside the counterpart of the
class around it. -/
inductive Generator.Placed (g : Generator) (t : Table) (c : ClassId) : Ref → Prop
  | topLevel {file : OutputId} (h : g.plan.entityFile? (g.project.decl c).file = some file) :
    Placed g t c (.topLevel file (g.naming.className g.project c))
  | inside {parent : ClassId} {r : Ref} (hp : (g.project.decl c).parent? = some parent) (hr : t.ref? parent = some r) :
    Placed g t c (r.child (g.naming.className g.project c))

theorem Generator.Placed.mono {g : Generator} {t t' : Table} {c : ClassId} {r : Ref}
    (ht : ∀ {d r}, t.ref? d = some r → t'.ref? d = some r) (h : g.Placed t c r) : g.Placed t' c r := by
  cases h with
  | topLevel h => exact .topLevel h
  | inside hp hr => exact .inside hp (ht hr)

/-- The declarations of a workspace are where the table has them. -/
structure Arranged (g : Generator) (w : Workspace) (t : Table) : Prop where
  distinct : w.Distinct
  source : ∀ {r d}, w.alone? r = some d → t.ref? d.source = some r
  placed : ∀ {c r}, t.ref? c = some r → g.Placed t c r

namespace Arranged

variable {g : Generator} {w w₀ : Workspace} {t : Table} {remaining : List ClassId} {s s' : State} {steps : List Step}

theorem init (h : ∀ id, (w.file id).declarations = []) : Arranged g w .empty where
  distinct id := by
    rw [h]
    exact .nil
  source {r d} hr := by
    rw [Workspace.alone?_eq, h, Declaration.aloneAt?] at hr
    cases hp : r.path with
    | nil => rw [hp] at hr; cases hr
    | cons n q => rw [hp, Declaration.at?_cons] at hr; cases hr
  placed hr := by cases hr

theorem of_same (h : Arranged g w t) (hs : w.SameDeclarations w₀) : Arranged g w₀ t where
  distinct := h.distinct.of_same hs
  source hr := h.source (hs.alone _ ▸ hr)
  placed := h.placed

theorem addSkipped {c : ClassId} (h : Arranged g w t) (hc : t.contains c = false) : Arranged g w (t.add c .skipped) := by
  refine ⟨h.distinct, fun hr => Table.ref?_add_of_ref? hc (h.source hr), fun {d r} hr => ?_⟩
  rw [Table.ref?_add_skipped hc] at hr
  exact (h.placed hr).mono (Table.ref?_add_of_ref? hc)

theorem finish {sc : Scope} (h : Arranged g s.workspace s.table) (hf : g.finish sc s = .ok s') :
    Arranged g s'.workspace s'.table := by
  obtain ⟨ht, ⟨f, hname, hnested, hw⟩, hview⟩ := Generator.finish_cases hf
  rw [ht]
  refine ⟨h.distinct.updateDeclaration hname (fun d _ hd => (hnested d).symm ▸ hd) hw, fun {r d} hr => ?_, h.placed⟩
  rw [hview] at hr
  split at hr
  · obtain ⟨d', hd', rfl⟩ := Option.map_eq_some_iff.mp hr
    have hsource := h.source hd'
    exact hsource
  · exact h.source hr

theorem enter {c : ClassId} {scope : Option Scope} {place : Place} {target : Ref}
    (hs : Sound g w₀ remaining s (.visit c scope :: steps)) (hc : c ∈ remaining) (h : Arranged g s.workspace s.table)
    (hplace : g.placeOf c scope = .ok place) (he : Sound.Entered g c place target s s') :
    Arranged g s'.workspace s'.table := by
  have hfresh := ((hs.unvisited c).mp hc).2
  have href : ∀ {d r}, s'.table.ref? d = some r ↔ d = c ∧ r = target ∨ s.table.ref? d = some r := by
    rw [he.table]
    exact Table.ref?_add_generated_iff hfresh
  obtain ⟨w, hfree, hw, hsame⟩ := he.added
  refine ⟨(h.distinct.addDeclaration rfl hfree hw).of_same hsame, fun {r d} hr => ?_, fun {d r} hr => ?_⟩
  · rw [he.alone] at hr
    split at hr
    next ht =>
      cases hr
      exact href.mpr (.inl ⟨rfl, ht⟩)
    next => exact href.mpr (.inr (h.source hr))
  · rcases href.mp hr with ⟨rfl, rfl⟩ | hr
    · rw [he.target_eq]
      rcases Generator.placeOf_cases hplace with ⟨file, hfile, rfl⟩ | ⟨sc, hsc, hn, rfl⟩
      · exact .topLevel hfile
      · refine .inside (by simpa [Project.isNestedIn] using hn) ?_
        exact href.mpr (.inr (hs.scopes _ List.mem_cons_self sc hsc))
    · exact (h.placed hr).mono fun hr => href.mpr (.inr hr)

/-- **Every step of the walk** leaves the declarations where the table has them. -/
theorem kept (hroot : g.naming.root < g.project.classes.size) (hcover : Sound.Covered g w₀.files.size) :
    g.Kept fun remaining s steps => Sound g w₀ remaining s steps ∧ Arranged g s.workspace s.table where
  place {remaining s s' c scope steps new} hc hp h := by
    refine ⟨h.1.place hcover hc hp, ?_⟩
    obtain ⟨-, message, location, rfl⟩ | ⟨place, target, hplace, -, he⟩ := h.1.place_cases hcover hp
    · exact h.2.addSkipped ((h.1.unvisited c).mp hc).2
    · exact enter h.1 hc h.2 hplace he
  known hc h := ⟨h.1.skip hroot hc, h.2⟩
  field {remaining s sc f steps} h := by
    refine ⟨h.1.field, ?_⟩
    rw [Generator.table_addField, Generator.workspace_addField]
    exact h.2.of_same (.addReferences ..)
  finish hf h := ⟨h.1.finish hf, h.2.finish hf⟩

/-! ## Addresses -/

/-- Addresses are followed outwards: what holds of counterparts at the top of the files, and of one inside another when it
holds of that other one, holds of all. -/
theorem induction {motive : ∀ c r, t.ref? c = some r → Prop} (h : Arranged g w t)
    (topLevel : ∀ c file hr, g.plan.entityFile? (g.project.decl c).file = some file →
      motive c (.topLevel file (g.naming.className g.project c)) hr)
    (inside : ∀ c parent r hr hparent, (g.project.decl c).parent? = some parent → motive parent r hparent →
      motive c (r.child (g.naming.className g.project c)) hr)
    (c : ClassId) (r : Ref) (hr : t.ref? c = some r) : motive c r hr := by
  induction hn : r.path.length using Nat.strongRecOn generalizing c r with
  | ind n ih =>
    obtain hfile | ⟨hp, hparent⟩ := h.placed hr
    · exact topLevel c _ hr hfile
    · refine inside c _ _ hr hparent hp (ih _ ?_ _ _ hparent rfl)
      subst hn
      simp [Ref.child]

/-- When every address leads to the counterpart of its class, a class has the address of its declaration. -/
theorem ref?_iff (h : Arranged g w t) (ht : ∀ c r, t.ref? c = some r → w.alone? r = some (g.counterpart t c))
    {c : ClassId} {r : Ref} : t.ref? c = some r ↔ ∃ d, w.declaration? r = some d ∧ d.source = c := by
  constructor
  · intro hr
    obtain ⟨d, hd, halone⟩ := Option.map_eq_some_iff.mp (ht c r hr)
    exact ⟨d, hd, congrArg Declaration.source halone⟩
  · rintro ⟨d, hd, rfl⟩
    exact h.source (d := d.alone) (by rw [Workspace.alone?, hd]; rfl)

/-- A counterpart is in the file planned for the source file of its class. -/
theorem entityFile? (h : Arranged g w t) (hp : g.project.Loaded) {c : ClassId} {r : Ref} (hr : t.ref? c = some r) :
    g.plan.entityFile? (g.project.decl c).file = some r.file := by
  induction c, r, hr using h.induction with
  | topLevel c file _ hfile => exact hfile
  | inside c parent r _ _ hparent ih => rw [(hp.parent hparent).2, ih]; rfl

theorem exists_of_prefix (h : Arranged g w t) {c : ClassId} {r : Ref} (hr : t.ref? c = some r) {path : List String}
    (hne : path ≠ []) (hpre : path <+: r.path) : ∃ d, t.ref? d = some ⟨r.file, path⟩ := by
  induction c, r, hr using h.induction with
  | topLevel c file hr _ =>
    obtain ⟨n, rest, rfl⟩ := List.exists_cons_of_ne_nil hne
    obtain ⟨rfl, hrest⟩ := List.cons_prefix_cons.mp hpre
    obtain rfl := List.prefix_nil.mp hrest
    exact ⟨c, hr⟩
  | inside c parent r hr _ _ ih =>
    rw [Ref.child, List.prefix_concat_iff] at hpre
    rcases hpre with rfl | hpre
    · exact ⟨c, hr⟩
    · exact ih hpre

/-- Every address is in a file that is planned for the counterparts of a source file. -/
theorem exists_entityFile? (h : Arranged g w t) {c : ClassId} {r : Ref} (hr : t.ref? c = some r) :
    ∃ origin, g.plan.entityFile? origin = some r.file := by
  induction c, r, hr using h.induction with
  | topLevel c file _ hfile => exact ⟨_, hfile⟩
  | inside c parent r _ _ _ ih => exact ih

end Arranged

end Counterpart.Entity
