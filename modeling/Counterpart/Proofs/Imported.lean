/-
What the files with counterparts import once these are generated: the directives copied from the files of their classes, and
the names of the references that are noticed where a field is generated (`Entity.Generator.imports_run`). So a reference that
is kept in the type of a parameter can rely on its import unless it stands behind a counterpart inside another type, where
generation does not look (`Hooks.keptReferences_imported_iff`).
-/
import Mathlib.Data.List.Forall2
import Counterpart.Proofs.Importing
import Counterpart.Proofs.KeptReferences
import Counterpart.Proofs.Run

namespace Counterpart

open Kotlin Output

namespace Entity

/-! ## Imports for a class -/

namespace Generator

variable {g : Generator} {t t' : Table} {c : ClassId} {f : Field} {package : String} {e : String × String}

/-- The file of the class gives an import to the file of its counterpart, in `package`. -/
def Copies (g : Generator) (c : ClassId) (package : String) (e : String × String) : Prop :=
  ∃ i ∈ g.copiedImports c, Brings i package ∧ e = ImportSet.entryOf i

/-- The parameter for a field of the class needs an import in `package`: a reference that is noticed has that name. -/
def Refers (g : Generator) (t : Table) (c : ClassId) (f : Field) (package : String) (e : String × String) : Prop :=
  ∃ r name, NoticedIn g.project t.ref? r (g.project.resolve c f.ty) ∧ r.importName = some name ∧
    NeedsImport name package ∧ e = entryOfName name

theorem refers_iff : g.Refers t c f package e ↔
    ∃ name ∈ (ParamDraft.ofField g.project g.naming t c f).imports, NeedsImport name package ∧ e = entryOfName name := by
  simp only [Refers, ParamDraft.mem_imports_ofField]
  constructor
  · rintro ⟨r, name, hr, hname, hneeds⟩
    exact ⟨name, ⟨r, hr, hname⟩, hneeds⟩
  · rintro ⟨name, ⟨r, hr, hname⟩, hneeds⟩
    exact ⟨r, name, hr, hname, hneeds⟩

theorem refers_congr (h : ∀ d ∈ g.project.mentionedBy c f, t.ref? d = t'.ref? d) :
    g.Refers t c f package e ↔ g.Refers t' c f package e := by
  rw [refers_iff, refers_iff, ParamDraft.ofField_congr h]

end Generator

/-! ## Along the walk -/

/-- The invariant of the imports, in a walk that starts in the workspace `w₀`. -/
structure Imported (g : Generator) (w₀ : Workspace) (s : State) (steps : List Step) : Prop where
  fields : ∀ sc f, .field sc f ∈ steps → f ∈ (g.project.decl sc.source).visibleFields
  /-- Every import was there, is copied with a class, or is needed by a field all of whose classes are visited. -/
  origin : ∀ id e, s.workspace.Imports id e → w₀.Imports id e ∨ ∃ c r, s.table.ref? c = some r ∧ r.file = id ∧
    (g.Copies c (w₀.file id).package e ∨ ∃ f ∈ (g.project.decl c).visibleFields,
      (∀ d ∈ g.project.mentionedBy c f, s.table.contains d = true) ∧ g.Refers s.table c f (w₀.file id).package e)
  copied : ∀ c r e, s.table.ref? c = some r → g.Copies c (w₀.file r.file).package e → s.workspace.Imports r.file e
  referred : ∀ c r f, s.table.ref? c = some r → f ∈ (g.project.decl c).visibleFields →
    .field ⟨c, r⟩ f ∈ steps ∨ (∀ d ∈ g.project.mentionedBy c f, s.table.contains d = true) ∧
      ∀ e, g.Refers s.table c f (w₀.file r.file).package e → s.workspace.Imports r.file e

variable {g : Generator} {w₀ : Workspace} {remaining : List ClassId} {s s' : State} {steps new : List Step}
variable {c : ClassId} {r : Ref} {sc : Scope} {f : Field} {scope : Option Scope}

theorem Sound.file_lt (h : Sound g w₀ remaining s steps) (hr : s.table.ref? c = some r) :
    r.file < s.workspace.files.size := by
  obtain ⟨d, hd⟩ := Option.isSome_iff_exists.mp (h.isSome_alone? hr)
  obtain ⟨d, hd, -⟩ := Option.map_eq_some_iff.mp hd
  exact Workspace.lt_size_of_declaration? hd

theorem mem_fieldSteps : .field sc f ∈ g.fieldSteps ⟨c, r⟩ ↔ sc = ⟨c, r⟩ ∧ f ∈ (g.project.decl c).visibleFields := by
  simp only [Generator.fieldSteps, List.mem_append, List.mem_flatMap, List.mem_map, List.mem_singleton, Step.field.injEq,
    reduceCtorEq, and_false, exists_false, false_or, or_false]
  constructor
  · rintro ⟨f', hf', rfl, rfl⟩
    exact ⟨rfl, hf'⟩
  · rintro ⟨rfl, hf⟩
    exact ⟨f, hf, rfl, rfl⟩

namespace Imported

theorem init (g : Generator) (w : Workspace) : Imported g w ⟨w, .empty, []⟩ [.visit g.naming.root none] where
  fields sc f h := by simp at h
  origin id e h := .inl h
  copied c r e h := by cases h
  referred c r f h := by cases h

theorem skip (h : Imported g w₀ s (.visit c scope :: steps)) : Imported g w₀ s steps := by
  refine ⟨fun sc f hf => h.fields sc f (List.mem_cons_of_mem _ hf), h.origin, h.copied, fun d r f hr hf => ?_⟩
  exact (h.referred d r f hr hf).imp_left fun hmem => by simpa using hmem

theorem field (hs : Sound g w₀ remaining s (.field sc f :: steps)) (h : Imported g w₀ s (.field sc f :: steps)) :
    Imported g w₀ (g.addField sc f s) steps := by
  have hr : s.table.ref? sc.source = some sc.target := hs.scopes _ List.mem_cons_self sc rfl
  have hready : ∀ d ∈ g.project.mentionedBy sc.source f, s.table.contains d = true := hs.ready.1
  have himports : ∀ id e, (g.addField sc f s).workspace.Imports id e ↔
      (id = sc.target.file ∧ g.Refers s.table sc.source f (w₀.file sc.target.file).package e) ∨ s.workspace.Imports id e := by
    intro id e
    rw [Generator.workspace_addField, Workspace.imports_addReferences (hs.file_lt hr), Generator.refers_iff,
      hs.same.package]
  constructor
  · exact fun sc' f' hf' => h.fields sc' f' (List.mem_cons_of_mem _ hf')
  · intro id e himp
    rw [Generator.table_addField]
    rcases (himports id e).mp himp with ⟨rfl, hrefers⟩ | hold
    · exact .inr ⟨_, _, hr, rfl, .inr ⟨f, h.fields sc f List.mem_cons_self, hready, hrefers⟩⟩
    · exact h.origin id e hold
  · intro d r e hd hcopies
    rw [Generator.table_addField] at hd
    exact (himports _ e).mpr (.inr (h.copied d r e hd hcopies))
  · intro d r f' hd hf'
    rw [Generator.table_addField] at hd ⊢
    rcases h.referred d r f' hd hf' with hmem | ⟨hdone, himp⟩
    · rcases List.mem_cons.mp hmem with heq | hmem
      · cases heq
        exact .inr ⟨hready, fun e he => (himports _ e).mpr (.inl ⟨rfl, he⟩)⟩
      · exact .inl hmem
    · exact .inr ⟨hdone, fun e he => (himports _ e).mpr (.inr (himp e he))⟩

theorem finish (h : Imported g w₀ s (.finish sc :: steps)) (hf : g.finish sc s = .ok s') : Imported g w₀ s' steps := by
  obtain ⟨ht, ⟨u, -, -, hw⟩, -⟩ := Generator.finish_cases hf
  have himports : ∀ {id e}, s'.workspace.Imports id e ↔ s.workspace.Imports id e := Workspace.imports_updateDeclaration hw
  constructor
  · exact fun sc' f' hf' => h.fields sc' f' (List.mem_cons_of_mem _ hf')
  · intro id e himp
    rw [ht]
    exact h.origin id e (himports.mp himp)
  · intro d r e hd hcopies
    rw [ht] at hd
    exact himports.mpr (h.copied d r e hd hcopies)
  · intro d r f' hd hf'
    rw [ht] at hd ⊢
    refine (h.referred d r f' hd hf').imp (fun hmem => by simpa using hmem) fun hdone => ?_
    exact ⟨hdone.1, fun e he => himports.mpr (hdone.2 e he)⟩

theorem placeSkipped {message location : String} (hfresh : s.table.contains c = false)
    (h : Imported g w₀ s (.visit c scope :: steps)) :
    Imported g w₀ { s.warn message location with table := s.table.add c .skipped } steps := by
  have href := Table.ref?_add_skipped hfresh
  have hkeep : ∀ d, s.table.contains d = true → (s.table.add c .skipped).contains d = true :=
    fun d hd => (Table.contains_add hfresh _ d).mpr (.inr hd)
  have hrefers : ∀ {d f package e}, g.Refers (s.table.add c .skipped) d f package e ↔ g.Refers s.table d f package e :=
    Generator.refers_congr fun d _ => href d
  have h := h.skip
  constructor
  · exact h.fields
  · intro id e himp
    refine (h.origin id e himp).imp_right ?_
    rintro ⟨d, r, hd, hid, hsource⟩
    refine ⟨d, r, (href d).trans hd, hid, hsource.imp_right ?_⟩
    rintro ⟨f, hf, hdone, he⟩
    exact ⟨f, hf, fun m hm => hkeep m (hdone m hm), hrefers.mpr he⟩
  · intro d r e hd
    exact h.copied d r e ((href d).symm.trans hd)
  · intro d r f hd hf
    refine (h.referred d r f ((href d).symm.trans hd) hf).imp_right ?_
    rintro ⟨hdone, himp⟩
    exact ⟨fun m hm => hkeep m (hdone m hm), fun e he => himp e (hrefers.mp he)⟩

/-- When a class is generated its file gets the imports that are copied, and its fields are still to come. -/
theorem placeGenerated {target : Ref} (hfresh : s.table.contains c = false) (h : Imported g w₀ s (.visit c scope :: steps))
    (ht : s'.table = s.table.add c (.generated target))
    (himports : ∀ id e, s'.workspace.Imports id e ↔
      (id = target.file ∧ g.Copies c (w₀.file target.file).package e) ∨ s.workspace.Imports id e) :
    Imported g w₀ s' (g.fieldSteps ⟨c, target⟩ ++ steps) := by
  have href : ∀ {d r}, s'.table.ref? d = some r ↔ d = c ∧ r = target ∨ s.table.ref? d = some r := by
    rw [ht]
    exact Table.ref?_add_generated_iff hfresh
  have hcontains : ∀ d, s.table.contains d = true → s'.table.contains d = true := by
    intro d hd
    rw [ht]
    exact (Table.contains_add hfresh _ d).mpr (.inr hd)
  have hrefers : ∀ {d f package e}, (∀ m ∈ g.project.mentionedBy d f, s.table.contains m = true) →
      (g.Refers s'.table d f package e ↔ g.Refers s.table d f package e) := by
    intro d f package e hdone
    rw [ht]
    exact Generator.refers_congr fun m hm => Table.ref?_add_of_contains hfresh (hdone m hm)
  have h := h.skip
  constructor
  · intro sc f hf
    rcases List.mem_append.mp hf with hf | hf
    · obtain ⟨hsc, hvisible⟩ := mem_fieldSteps.mp hf
      rw [hsc]
      exact hvisible
    · exact h.fields sc f hf
  · intro id e himp
    rcases (himports id e).mp himp with ⟨rfl, hcopies⟩ | hold
    · exact .inr ⟨c, target, href.mpr (.inl ⟨rfl, rfl⟩), rfl, .inl hcopies⟩
    · refine (h.origin id e hold).imp_right ?_
      rintro ⟨d, r, hd, hid, hsource⟩
      refine ⟨d, r, href.mpr (.inr hd), hid, hsource.imp_right ?_⟩
      rintro ⟨f, hf, hdone, he⟩
      exact ⟨f, hf, fun m hm => hcontains m (hdone m hm), (hrefers hdone).mpr he⟩
  · intro d r e hd hcopies
    rcases href.mp hd with ⟨rfl, rfl⟩ | hd
    · exact (himports _ e).mpr (.inl ⟨rfl, hcopies⟩)
    · exact (himports _ e).mpr (.inr (h.copied d r e hd hcopies))
  · intro d r f hd hf
    rcases href.mp hd with ⟨rfl, rfl⟩ | hd
    · exact .inl (List.mem_append_left _ (mem_fieldSteps.mpr ⟨rfl, hf⟩))
    · refine (h.referred d r f hd hf).imp (List.mem_append_right _) ?_
      rintro ⟨hdone, himp⟩
      exact ⟨fun m hm => hcontains m (hdone m hm), fun e he => (himports _ e).mpr (.inr (himp e ((hrefers hdone).mp he)))⟩

theorem place (hcover : Sound.Covered g w₀.files.size) (hs : Sound g w₀ remaining s (.visit c scope :: steps))
    (hc : c ∈ remaining) (hp : g.place c scope s = .ok (s', new)) (h : Imported g w₀ s (.visit c scope :: steps)) :
    Imported g w₀ s' (new ++ steps) := by
  have hfresh := ((hs.unvisited c).mp hc).2
  have hs' := hs.place hcover hc hp
  obtain ⟨place, -, ⟨-, rfl, message, rfl⟩ | ⟨-, target, w, rfl, hw, rfl, rfl⟩⟩ := Generator.place_cases hp
  · exact h.placeSkipped hfresh
  · refine h.placeGenerated hfresh rfl fun id e => ?_
    have hself : (s.table.add c (.generated (place.refTo (g.naming.className g.project c)))).ref? c =
        some (place.refTo (g.naming.className g.project c)) :=
      (Table.ref?_add_generated_iff hfresh).mpr (.inl ⟨rfl, rfl⟩)
    have hsame : w₀.SameFiles w := hs.same.trans (.addDeclaration hw)
    have hlt : (place.refTo (g.naming.className g.project c)).file < w.files.size := by
      have hlt := hs'.file_lt hself
      rw [hs'.same.size] at hlt
      exact hsame.size.symm ▸ hlt
    rw [Workspace.imports_addImports hlt, hsame.package, Workspace.imports_addDeclaration hw, Generator.Copies]

/-- **Every step of the walk** imports what it should. -/
theorem kept (hroot : g.naming.root < g.project.classes.size) (hcover : Sound.Covered g w₀.files.size) :
    g.Kept fun remaining s steps => Sound g w₀ remaining s steps ∧ Imported g w₀ s steps where
  place hc hp h := ⟨h.1.place hcover hc hp, h.2.place hcover h.1 hc hp⟩
  known hc h := ⟨h.1.skip hroot hc, h.2.skip⟩
  field h := ⟨h.1.field, field h.1 h.2⟩
  finish hf h := ⟨h.1.finish hf, h.2.finish hf⟩

end Imported

/-! ## The run -/

/-- An import of a file with counterparts has a class in it as its reason: it is copied with the class, or a field of the
class refers to it. -/
def Generator.Reason (g : Generator) (t : Table) (id : OutputId) (package : String) (e : String × String) : Prop :=
  ∃ c r, t.ref? c = some r ∧ r.file = id ∧
    (g.Copies c package e ∨ ∃ f ∈ (g.project.decl c).visibleFields, g.Refers t c f package e)

/-- **After generation** into files without imports, these import all that there is a reason for and nothing else. -/
theorem Generator.imports_run {w w' : Workspace} {result : Result} (hroot : g.naming.root < g.project.classes.size)
    (hcover : Sound.Covered g w.files.size) (hblank : ∀ id e, ¬ w.Imports id e) (hrun : g.run w = (w', .ok result))
    (id : OutputId) (e : String × String) : w'.Imports id e ↔ g.Reason result.table id (w.file id).package e := by
  simp only [run] at hrun
  split at hrun
  · cases hrun
  next s hwalk =>
    obtain ⟨-, -, himported⟩ := (Imported.kept hroot hcover).walk ⟨Sound.init g w, Imported.init g w⟩ hwalk
    simp only [Prod.mk.injEq] at hrun
    obtain ⟨rfl, hresult⟩ := hrun
    have ht : s.table = result.table := by
      split at hresult
      · cases hresult
        rfl
      · cases hresult
    rw [← ht]
    constructor
    · intro himp
      obtain ⟨c, r, hr, hid, hcopies | ⟨f, hf, -, hrefers⟩⟩ := (himported.origin id e himp).resolve_left (hblank id e)
      · exact ⟨c, r, hr, hid, .inl hcopies⟩
      · exact ⟨c, r, hr, hid, .inr ⟨f, hf, hrefers⟩⟩
    · rintro ⟨c, r, hr, rfl, hcopies | ⟨f, hf, hrefers⟩⟩
      · exact himported.copied c r e hr hcopies
      · have := (himported.referred c r f hr hf).resolve_left List.not_mem_nil
        exact this.2 e hrefers

end Entity

/-- A planned workspace imports nothing. -/
theorem Planner.not_imports_run {pl : Planner} {w : Workspace} {plan : Plan} (h : pl.run .empty = (w, .ok plan)) (id : OutputId)
    (e : String × String) : ¬ w.Imports id e := by
  have hk : pl.Kept fun w => ∀ id e, ¬ w.Imports id e := {
    create := fun {w} path role hw id e => by
      rw [Workspace.Imports, Workspace.file_create]
      split
      · exact Bool.false_ne_true
      · exact hw id e }
  have := hk.run (w := .empty) (fun id e => Bool.false_ne_true) id e
  rwa [h] at this

/-! ## Kept references after a run -/

namespace Hooks

variable {σ : Type} {h : Hooks σ} {p : Project} {o : Options} {s s' : σ} {g : Generation}

theorem runPhases_append_ok (phases : List Phase) {phases' : List Phase} {g g' : Generation}
    (hrun : h.runPhases (phases ++ phases') g s = (s', .ok g')) :
    ∃ s₁ g₁, h.runPhases phases g s = (s₁, .ok g₁) ∧ h.runPhases phases' g₁ s₁ = (s', .ok g') := by
  induction phases generalizing g s with
  | nil => exact ⟨s, g, rfl, hrun⟩
  | cons phase phases ih =>
    rw [List.cons_append, runPhases] at hrun
    rw [runPhases]
    split at hrun
    · cases hrun
    split at hrun
    · cases hrun
    split at hrun
    · cases hrun
    exact ih hrun

/-- A run that succeeds has generated the counterparts in files without imports, before it came to the functions. -/
theorem entities_of_run (hrun : h.run [] p o s = (s', .ok g)) :
    ∃ s₁ g₁ n plan w r, h.runPhases [.select, .validate Lint.all, .plan, .entity] (.start p o) s = (s₁, .ok g₁) ∧
      h.runPhases [.mapper] g₁ s₁ = (s', .ok g) ∧ g₁.naming = some n ∧ g₁.plan = some plan ∧ g₁.table = some r.table ∧
      (Entity.Generator.mk p plan n).run w = (g₁.workspace, .ok r) ∧ n.root < p.classes.size ∧
      Planned p plan (p.reachable n.root) w ∧ (∀ id e, ¬ w.Imports id e) ∧
      Entity.Complete ⟨p, plan, n⟩ w g₁.workspace r.table := by
  rw [run, List.append_nil] at hrun
  obtain ⟨s₁, g₁, hfirst, hmapper⟩ := runPhases_append_ok [.select, .validate Lint.all, .plan, .entity] hrun
  have hrun := hfirst
  obtain ⟨_, g₂, s₂, h₁, hrun⟩ := runPhases_cons_ok hrun
  obtain ⟨_, g₃, s₃, h₂, hrun⟩ := runPhases_cons_ok hrun
  obtain ⟨onDisk, g₄, s₄, h₃, hrun⟩ := runPhases_cons_ok hrun
  obtain ⟨_, g₅, s₅, h₄, hrun⟩ := runPhases_cons_ok hrun
  cases runPhases_nil_ok hrun
  simp only [Phase.select, Phase.validate, Phase.plan, Phase.entity] at h₁ h₂ h₃ h₄
  obtain ⟨n, rfl, hroot, -⟩ := Generation.select_ok h₁
  obtain ⟨ds, rfl⟩ := Generation.validate_ok h₂
  obtain ⟨w, plan, hplan, rfl⟩ := Generation.planFiles_ok rfl h₃
  obtain ⟨w₁, r, -, -, -, hentity, -, hcomplete, -⟩ := Planner.exists_runs hroot hplan
  obtain ⟨w', r', hr', rfl⟩ := Generation.generateEntities_ok rfl rfl h₄
  cases hr'.symm.trans hentity
  exact ⟨s₁, _, n, plan, w, r, hfirst, hmapper, rfl, rfl, rfl, hentity, Project.lt_size_of_isSupported hroot,
    Planner.run_planned hplan, Planner.not_imports_run hplan, hcomplete⟩

end Hooks

/-- `P` holds of every reference that is kept in the type of a parameter and whose name the file needs to import: it is given the
table, the class and the field that the parameter stands for, the address of the declaration, the reference and the name. -/
def Generation.ForKept (g : Generation) (p : Project)
    (P : Entity.Table → ClassId → Field → Ref → ResolvedType → String → Prop) : Prop :=
  ∃ t, g.table = some t ∧ ∀ r d, g.workspace.declaration? r = some d →
    List.Forall₂ (fun f q => ∀ k name, Entity.KeptIn p t.ref? k (p.resolve d.source f.ty) → k.importName = some name →
      NeedsImport name (g.workspace.file r.file).package →
        Entity.Within k.displayName q.ty ∧ P t d.source f r k name) (p.decl d.source).visibleFields d.params

theorem Generation.ForKept.of_mem {g : Generation} {p : Project}
    {P : Entity.Table → ClassId → Field → Ref → ResolvedType → String → Prop} (h : g.ForKept p P) {t : Entity.Table}
    (ht : g.table = some t) {r : Ref} {d : Declaration} {c : ClassId} (hd : g.workspace.declaration? r = some d)
    (hc : d.source = c) {f : Field} (hf : f ∈ (p.decl c).visibleFields) {k : ResolvedType} {name : String}
    (hk : Entity.KeptIn p t.ref? k (p.resolve c f.ty)) (hname : k.importName = some name)
    (hneeds : NeedsImport name (g.workspace.file r.file).package) : P t c f r k name := by
  obtain ⟨t', ht', hall⟩ := h
  cases ht.symm.trans ht'
  subst hc
  have hfields := (List.forall₂_and_left (p := fun f => ∀ k name, Entity.KeptIn p t.ref? k (p.resolve d.source f.ty) →
    k.importName = some name → NeedsImport name (g.workspace.file r.file).package → P t d.source f r k name) _ _).mp
      ((hall r d hd).imp fun f q hq => ⟨fun k name hk hname hneeds => (hq k name hk hname hneeds).2, hq⟩)
  exact hfields.1 f hf k name hk hname hneeds

/-- **Kept references in a run that succeeds** have their imports once the counterparts are generated when they are noticed; in
any case they have them exactly when a class in the file is a reason for that. -/
theorem Hooks.keptReferences_imported_iff {σ : Type} {h : Hooks σ} {p : Project} {o : Options} {s s' : σ} {g : Generation}
    (hrun : h.run [] p o s = (s', .ok g)) :
    ∃ s₁ g₁ n plan, h.runPhases [.select, .validate Lint.all, .plan, .entity] (.start p o) s = (s₁, .ok g₁) ∧
      h.runPhases [.mapper] g₁ s₁ = (s', .ok g) ∧ g₁.naming = some n ∧ g₁.plan = some plan ∧
      g₁.ForKept p fun t c f r k name =>
        (Entity.NoticedIn p t.ref? k (p.resolve c f.ty) → g₁.workspace.Imports r.file (entryOfName name)) ∧
        (g₁.workspace.Imports r.file (entryOfName name) ↔
          (Entity.Generator.mk p plan n).Reason t r.file (g₁.workspace.file r.file).package (entryOfName name)) := by
  obtain ⟨s₁, g₁, n, plan, w, r, hfirst, hmapper, hn, hp, ht, hentity, hroot, hplanned, hblank, hcomplete⟩ :=
    h.entities_of_run hrun
  refine ⟨s₁, g₁, n, plan, hfirst, hmapper, hn, hp, r.table, ht, fun q d hd => ?_⟩
  have himports := Entity.Generator.imports_run (g := ⟨p, plan, n⟩) hroot (Entity.covered_of_planned hroot hplanned) hblank hentity
  have hq : r.table.ref? d.source = some q := hcomplete.arranged.ref?_iff hcomplete.alone |>.mpr ⟨d, hd, rfl⟩
  have hparams : d.params = (Entity.Generator.mk p plan n).params r.table d.source := by
    obtain ⟨d', hd', halone⟩ := Option.map_eq_some_iff.mp (hcomplete.alone d.source q hq)
    cases hd.symm.trans hd'
    exact congrArg Declaration.params halone
  rw [hparams, Entity.Generator.params, List.forall₂_map_right_iff, List.forall₂_same]
  intro f hf k name hk hname hneeds
  have hiff : g₁.workspace.Imports q.file (entryOfName name) ↔
      (Entity.Generator.mk p plan n).Reason r.table q.file (g₁.workspace.file q.file).package (entryOfName name) := by
    rw [himports, hcomplete.same.package]
  refine ⟨?_, fun hnoticed => hiff.mpr ?_, hiff⟩
  · rw [Entity.ParamDraft.ty_ofField]
    exact hk.within
  · exact ⟨d.source, q, hq, rfl, .inr ⟨f, hf, k, name, hnoticed, hname, hneeds, rfl⟩⟩

/-- A class of another package whose field has a list of boxes of a class from there. -/
def boxedProject : Project :=
  (Project.empty.addSource "a/R.kt" "package a\nimport b.B\ndata class R(val b: B)").addSource
    "b/B.kt" "package b\ndata class B(val p: List<Box<Other>>)\ndata class Box<T>(val x: T)\nclass Other"

/-- The field keeps the reference to `Other` behind the counterpart of `Box`, inside a list. -/
theorem keptIn_boxedProject {t : Entity.Table} {target : Ref} (ht : t.ref? 2 = some target) :
    ∃ f ∈ (boxedProject.decl 1).visibleFields, ∃ k, k.importName = some "b.Other" ∧
      Entity.KeptIn boxedProject t.ref? k (boxedProject.resolve 1 f.ty) := by
  have hfield : ∃ f ∈ (boxedProject.decl 1).visibleFields,
      boxedProject.categoryOf (boxedProject.resolve 1 f.ty) = .generic (.collection .list) ∧
      ∃ a ∈ (boxedProject.resolve 1 f.ty).args, a.type?.any (fun box =>
        decide (boxedProject.categoryOf box = .userClass 2 .data) &&
          box.args.any fun b => b.type?.any fun other => decide (other.importName = some "b.Other")) = true := by
    decide +kernel
  obtain ⟨f, hf, hlist, a, ha, hbox⟩ := hfield
  cases a with
  | star => cases hbox
  | type v box =>
    obtain ⟨hcategory, hother⟩ := Bool.and_eq_true_iff.mp hbox
    obtain ⟨b, hb, hname⟩ := List.any_eq_true.mp hother
    cases b with
    | star => cases hname
    | type w other =>
      have hrep : Entity.Replaced boxedProject t.ref? box := ⟨2, .data, target, of_decide_eq_true hcategory, ht⟩
      exact ⟨f, hf, other, of_decide_eq_true hname, .inr (.arg hlist ha (.here hrep hb .self))⟩

/-- The list is generated as `List<BoxModel<Other>>`, in a file of the package `a` that does not import `b.Other`. -/
theorem boxed_generated :
    ∃ g g₁ t d, (Hooks.none fun _ => false).run [] boxedProject (.ofClass "R") () = ((), .ok g) ∧
      (Hooks.none fun _ => false).runPhases [.select, .validate Lint.all, .plan, .entity]
        (.start boxedProject (.ofClass "R")) () = ((), .ok g₁) ∧ g₁.table = some t ∧
      t.ref? 2 = some ⟨1, ["BoxModel"]⟩ ∧ g₁.workspace.declaration? ⟨1, ["BModel"]⟩ = some d ∧ d.source = 1 ∧
      d.params.map (·.ty) = ["List<BoxModel<Other>>"] ∧ (g₁.workspace.file 1).package = "a" ∧
      ¬ g₁.workspace.Imports 1 ("b", "Other") := by
  have hrun : ((Hooks.none fun _ => false).run [] boxedProject (.ofClass "R") ()).2.toOption.isSome = true := by
    decide +kernel
  have hentities : (((Hooks.none fun _ => false).runPhases [.select, .validate Lint.all, .plan, .entity]
      (.start boxedProject (.ofClass "R")) ()).2.toOption.map fun g =>
        (g.table.map fun t => t.ref? 2,
          (g.workspace.declaration? ⟨1, ["BModel"]⟩).map fun d => (d.source, d.params.map (·.ty)),
          (g.workspace.file 1).package, (g.workspace.file 1).imports.hasSymbol "b" "Other")) =
      some (some (some ⟨1, ["BoxModel"]⟩), some (1, ["List<BoxModel<Other>>"]), "a", false) := by decide +kernel
  obtain ⟨_, g, hg⟩ := exists_of_isSome hrun
  obtain ⟨g₁, hg₁, hresult⟩ := Option.map_eq_some_iff.mp hentities
  simp only [Prod.mk.injEq] at hresult
  obtain ⟨htable, hdeclaration, hpackage, himport⟩ := hresult
  obtain ⟨t, ht, hbox⟩ := Option.map_eq_some_iff.mp htable
  obtain ⟨d, hd, hsource⟩ := Option.map_eq_some_iff.mp hdeclaration
  obtain ⟨hsource, hty⟩ := Prod.mk.inj hsource
  refine ⟨g, g₁, t, d, hg, eq_ok_of_toOption hg₁, ht, hbox, hd, hsource, hty, hpackage, ?_⟩
  rw [Workspace.Imports, himport]
  exact Bool.false_ne_true

theorem keptReferences_imported_iff_boxedProject :
    ∃ g, (Hooks.none fun _ => false).run [] boxedProject (.ofClass "R") () = ((), .ok g) ∧
      ∃ s₁ g₁ n plan, (Hooks.none fun _ => false).runPhases [.select, .validate Lint.all, .plan, .entity]
          (.start boxedProject (.ofClass "R")) () = (s₁, .ok g₁) ∧
        (Hooks.none fun _ => false).runPhases [.mapper] g₁ s₁ = ((), .ok g) ∧ g₁.naming = some n ∧ g₁.plan = some plan ∧
        g₁.ForKept boxedProject fun t c f r k name =>
          (Entity.NoticedIn boxedProject t.ref? k (boxedProject.resolve c f.ty) →
            g₁.workspace.Imports r.file (entryOfName name)) ∧
          (g₁.workspace.Imports r.file (entryOfName name) ↔ (Entity.Generator.mk boxedProject plan n).Reason t r.file
            (g₁.workspace.file r.file).package (entryOfName name)) := by
  obtain ⟨g, _, _, _, hg, _⟩ := boxed_generated
  exact ⟨g, hg, Hooks.keptReferences_imported_iff hg⟩

/-- The reference to `Other` is kept without an import. -/
theorem boxed_not_imported :
    ∃ g g₁, (Hooks.none fun _ => false).run [] boxedProject (.ofClass "R") () = ((), .ok g) ∧
      (Hooks.none fun _ => false).runPhases [.select, .validate Lint.all, .plan, .entity]
        (.start boxedProject (.ofClass "R")) () = ((), .ok g₁) ∧
      ¬ g₁.ForKept boxedProject fun _ _ _ r _ name => g₁.workspace.Imports r.file (entryOfName name) := by
  obtain ⟨g, g₁, t, d, hg, hg₁, ht, hbox, hd, hsource, -, hpackage, hmissing⟩ := boxed_generated
  refine ⟨g, g₁, hg, hg₁, fun hall => hmissing ?_⟩
  obtain ⟨f, hf, k, hname, hk⟩ := keptIn_boxedProject hbox
  have hneeds : NeedsImport "b.Other" (g₁.workspace.file 1).package := by
    rw [hpackage]
    exact ⟨by decide +kernel, by decide +kernel, by decide +kernel⟩
  have hentry : entryOfName "b.Other" = ("b", "Other") := by decide +kernel
  have himports := hall.of_mem ht hd hsource hf hk hname hneeds
  rwa [hentry] at himports

end Counterpart
