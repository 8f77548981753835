/-
The phases over projects that differ in numbers. When the files have other numbers too (`Project.RenumberedFiles`), the same
outputs are planned (`Planner.run_renumber`), the checks find the same (`Lint.check_renumber`), and what is written does not
depend on the numbers at all (`renderAll_renumber`).
-/
import Counterpart.Code.File
import Counterpart.Generation.Lint
import Counterpart.Proofs.RenumberedFunctions

namespace Counterpart

open Kotlin Output

/-! ## Code -/

namespace Code

variable {f : ClassId → ClassId}

mutual

theorem fragmentsOf_renumber : ∀ d : Declaration, fragmentsOf (d.renumber f) = fragmentsOf d
  | ⟨name, kind, source, typeParams, params, entries, nested⟩ => by
    have hempty : (Declaration.renumberAll f nested).isEmpty = nested.isEmpty := by cases nested <;> rfl
    simp only [Declaration.renumber, fragmentsOf, fragmentsOfAll_renumber nested, hempty]
    rfl

theorem fragmentsOfAll_renumber : ∀ ds : List Declaration,
    fragmentsOfAll (Declaration.renumberAll f ds) = fragmentsOfAll ds
  | [] => rfl
  | d :: ds => by
    rw [Declaration.renumberAll, fragmentsOfAll, fragmentsOfAll, fragmentsOf_renumber d, fragmentsOfAll_renumber ds]

end

/-- **The text of a file** does not depend on the numbers of the classes. -/
theorem renderFile_renumber {a b : Output.File} (h : a.Alike f b) : renderFile b = renderFile a := by
  rw [renderFile, renderFile, FileCode.ofFile, FileCode.ofFile, h.package, h.imports, h.declarations, h.functions,
    ← Declaration.renumberAll_eq, fragmentsOfAll_renumber, List.map_map]
  rfl

end Code

namespace Output.Workspace.Alike

variable {f : ClassId → ClassId} {w w' : Workspace}

/-- What depends on the files alone, and not on the numbers of the classes, is the same for all files. -/
theorem map_files {α : Type} (h : Alike f id w w') {view : File → α} (hview : ∀ a b, a.Alike f b → view b = view a) :
    w'.files.toList.map view = w.files.toList.map view := by
  have hsize : w'.files.size = w.files.size :=
    Nat.le_antisymm (Nat.le_of_not_lt fun hlt => Nat.lt_irrefl _ ((h.size _).mp hlt))
      (Nat.le_of_not_lt fun hlt => Nat.lt_irrefl _ ((h.size _).mpr hlt))
  refine List.ext_getElem (by simp [hsize]) fun i hi hi' => ?_
  simp only [List.length_map, Array.length_toList] at hi hi'
  have hfile := hview _ _ (h.file i)
  simpa [Workspace.file, hi, hi'] using hfile

theorem findFile? (h : Alike f id w w') (path : Path) : w'.findFile? path = w.findFile? path := by
  have hpaths : ∀ w : Workspace, w.findFile? path = (w.files.toList.map (·.path)).findIdx? (·.same path) := fun w => by
    obtain ⟨⟨files⟩⟩ := w
    rw [Workspace.findFile?, List.findIdx?_toArray, List.findIdx?_map]
    rfl
  rw [hpaths, hpaths, h.map_files fun a b hab => hab.path]

theorem create (h : Alike f id w w') (path : Path) (package : String) (role : FileRole) :
    Alike f id (w.create path package role) (w'.create path package role) := by
  have hsize : w'.files.size = w.files.size := by simpa using congrArg List.length (h.map_files fun a b hab => hab.path)
  refine ⟨h.injective, fun i => by rw [size_create, size_create, hsize]; rfl, fun i => ?_⟩
  rw [file_create, file_create, hsize, id]
  by_cases hi : i = w.files.size
  · rw [if_pos hi, if_pos hi]
    exact ⟨rfl, rfl, rfl, rfl, rfl, rfl⟩
  · rw [if_neg hi, if_neg hi]
    exact h.file i

end Output.Workspace.Alike

/-- **What is written** does not depend on the numbers of the classes. -/
theorem Code.renderAll_renumber {f : ClassId → ClassId} {w w' : Workspace} (h : w.Alike f id w') :
    renderAll w' = renderAll w := by
  have hview : ∀ w : Workspace, renderAll w = (w.files.toList.map fun file =>
      if file.isEmpty then none else some (RenderedFile.mk file.path file.role (renderFile file))).filterMap id := fun w => by
    rw [renderAll, List.filterMap_map, ← List.filterMap_eq_map, List.filterMap_filter]
    refine List.filterMap_congr fun file _ => ?_
    cases hfile : file.isEmpty <;> simp [hfile]
  rw [hview, hview, h.map_files fun a b hab => ?_]
  have hempty : b.isEmpty = a.isEmpty := by
    simp only [Output.File.isEmpty, hab.declarations, hab.functions, List.isEmpty_map]
  rw [hempty, hab.path, hab.role, renderFile_renumber hab]

/-! ## Checks -/

namespace LintTarget

variable {f : ClassId → ClassId} {dom : ClassId → Prop} {p p' : Project} {n : Naming} {cs : List ClassId} {c : ClassId}

theorem becomesTopLevel_renumber (h : p.Renumbered f dom p') (c : ClassId) :
    (LintTarget.mk p' (n.renumber f) (cs.map f)).becomesTopLevel (f c) = (LintTarget.mk p n cs).becomesTopLevel c := by
  have hroot : (f c == (n.renumber f).root) = (c == n.root) := by
    rw [Bool.eq_iff_iff, beq_iff_eq, beq_iff_eq]
    exact h.injective.eq_iff
  simp only [becomesTopLevel, hroot, h.parent?, Option.isNone_map]

theorem existingName?_renumber (h : p.Renumbered f dom p') (hroot : dom n.root) (hc : dom c) :
    (LintTarget.mk p' (n.renumber f) (cs.map f)).existingName? (f c) = (LintTarget.mk p n cs).existingName? c := by
  have hpackage : p'.packageOf (n.renumber f).root = p.packageOf n.root := h.packageOf hroot
  simp only [existingName?, becomesTopLevel_renumber h, hpackage, h.className, h.find?, Option.map_map, h.qualifiedName hc]
  split
  · cases hfind : p.find? (Name.inPackage (p.packageOf n.root) (n.className p c)) with
    | none => rfl
    | some d => simp only [Option.map_some, Function.comp_apply, (h.fileOf d (h.dom_find? _ d hfind)).path]
  · rfl

theorem privateFields_renumber (h : p.Renumbered f dom p') (hc : dom c) :
    (LintTarget.mk p' (n.renumber f) (cs.map f)).privateFields (f c) = (LintTarget.mk p n cs).privateFields c := by
  simp only [privateFields, h.qualifiedName hc, (h.decl c).fields]

theorem defaultValues?_renumber (h : p.Renumbered f dom p') (hc : dom c) :
    (LintTarget.mk p' (n.renumber f) (cs.map f)).defaultValues? (f c) = (LintTarget.mk p n cs).defaultValues? c := by
  simp only [defaultValues?, h.qualifiedName hc, h.visibleFields, h.className]

end LintTarget

/-- **The checks** find the same. -/
theorem Lint.check_renumber {f : ClassId → ClassId} {dom : ClassId → Prop} {p p' : Project} {n : Naming}
    (h : p.Renumbered f dom p') (hroot : dom n.root) {cs : List ClassId} (hcs : ∀ c ∈ cs, dom c) (lint : Lint) :
    lint.check ⟨p', n.renumber f, cs.map f⟩ = lint.check ⟨p, n, cs⟩ := by
  cases lint with
  | existingName =>
    rw [check, check, List.filterMap_map]
    exact List.filterMap_congr fun c hc => LintTarget.existingName?_renumber h hroot (hcs c hc)
  | privateFields =>
    rw [check, check, List.flatMap_map]
    exact List.flatMap_congr fun c hc => LintTarget.privateFields_renumber h (hcs c hc)
  | defaultValues =>
    rw [check, check, List.filterMap_map]
    exact List.filterMap_congr fun c hc => LintTarget.defaultValues?_renumber h (hcs c hc)

/-! ## Plans -/

/-- The files have other numbers too, which `ψ` gives. -/
structure Project.RenumberedFiles (f : ClassId → ClassId) (ψ : FileId → FileId) (dom : ClassId → Prop) (p p' : Project) :
    Prop extends p.Renumbered f dom p' where
  file_injective : Function.Injective ψ
  file : ∀ c, dom c → (p'.decl (f c)).file = ψ (p.decl c).file
  path : ∀ i, (p'.file (ψ i)).path = (p.file i).path

def PlannedOutput.renumber (ψ : FileId → FileId) (o : PlannedOutput) : PlannedOutput := { o with origin := ψ o.origin }

/-- The plan with other numbers for the source files. -/
def Plan.renumber (ψ : FileId → FileId) (plan : Plan) : Plan := ⟨plan.outputs.map (PlannedOutput.renumber ψ)⟩

namespace Plan

variable {ψ : FileId → FileId}

theorem output?_renumber (hψ : Function.Injective ψ) (plan : Plan) (origin : FileId) :
    (plan.renumber ψ).output? (ψ origin) = (plan.output? origin).map (PlannedOutput.renumber ψ) := by
  rw [output?, renumber, List.find?_map, output?]
  congr 2
  funext o
  rw [Function.comp_apply, Bool.eq_iff_iff, beq_iff_eq, beq_iff_eq]
  exact hψ.eq_iff

theorem entityFile?_renumber (hψ : Function.Injective ψ) (plan : Plan) (origin : FileId) :
    (plan.renumber ψ).entityFile? (ψ origin) = plan.entityFile? origin := by
  rw [entityFile?, output?_renumber hψ, Option.map_map]
  rfl

theorem mapperFile?_renumber (plan : Plan) (entity : OutputId) :
    (plan.renumber ψ).mapperFile? entity = plan.mapperFile? entity := by
  rw [mapperFile?, renumber, List.find?_map, Option.map_map]
  rfl

end Plan

namespace Planner

/-- Two plans in progress agree but for the numbers of classes and source files. -/
structure State.Alike (f : ClassId → ClassId) (ψ : FileId → FileId) (s s' : State) : Prop where
  plan : s'.plan = s.plan.renumber ψ
  taken : s'.taken = s.taken.map fun t => (t.1, ψ t.2)
  workspace : s.workspace.Alike f id s'.workspace

variable {f : ClassId → ClassId} {ψ : FileId → FileId} {dom : ClassId → Prop} {p p' : Project} {n : Naming}
  {s s' : State} (placement : MapperPlacement) (overwrite : Bool) (onDisk : Path → Bool)

/-- Reserving the path, in both plans. -/
theorem reserve_renumber (h : p.RenumberedFiles f ψ dom p') (hroot : dom n.root) (hs : s.Alike f ψ s') (path : Path)
    (origin : FileId) (role : FileRole) :
    Agree (fun a b => a.1.Alike f ψ b.1 ∧ b.2 = a.2)
      ((Planner.mk p n placement overwrite onDisk).reserve path origin role s)
      ((Planner.mk p' (n.renumber f) placement overwrite onDisk).reserve path (ψ origin) role s') := by
  have htaken : (s.taken.map fun t => (t.1, ψ t.2)).find? (fun t => t.1.same path) =
      (s.taken.find? fun t => t.1.same path).map fun t => (t.1, ψ t.2) := by
    rw [List.find?_map]
    rfl
  simp only [reserve, hs.taken, htaken]
  cases s.taken.find? fun t => t.1.same path with
  | some t =>
    simp only [Option.map_some, h.path]
    exact .error _
  | none =>
    simp only [Option.map_none, hs.workspace.findFile?]
    split
    · exact .error _
    have hpackage : (p'.fileOf (n.renumber f).root).package = (p.fileOf n.root).package := h.packageOf hroot
    have hsize : s'.workspace.files.size = s.workspace.files.size := by
      simpa using congrArg List.length (hs.workspace.map_files fun a b hab => hab.path)
    cases s.workspace.findFile? path with
    | some id => exact .ok ⟨⟨hs.plan, by simp, hs.workspace⟩, rfl⟩
    | none =>
      simp only [hpackage, hsize]
      exact .ok ⟨⟨hs.plan, by simp, hs.workspace.create _ _ _⟩, rfl⟩

theorem outputPath_renumber (h : p.RenumberedFiles f ψ dom p') (hroot : dom n.root) (c : ClassId) (ending : String) :
    (Planner.mk p' (n.renumber f) placement overwrite onDisk).outputPath (f c) ending =
      (Planner.mk p n placement overwrite onDisk).outputPath c ending := by
  have hdir : (p'.fileOf (n.renumber f).root).path = (p.fileOf n.root).path := (h.fileOf n.root hroot).path
  simp only [outputPath, SourceFile.dir, hdir, h.className]

theorem record_renumber (hs : s.Alike f ψ s') (o : PlannedOutput) :
    (record o s).Alike f ψ (record (o.renumber ψ) s') := by
  refine ⟨?_, hs.taken, hs.workspace⟩
  simp only [record, hs.plan, Plan.renumber, List.map_append, List.map_singleton]

theorem allocate_renumber (h : p.RenumberedFiles f ψ dom p') (hroot : dom n.root) (hs : s.Alike f ψ s') {c : ClassId}
    (hc : dom c) :
    ((Planner.mk p n placement overwrite onDisk).allocate c s).1.Alike f ψ
        ((Planner.mk p' (n.renumber f) placement overwrite onDisk).allocate (f c) s').1 ∧
      ((Planner.mk p' (n.renumber f) placement overwrite onDisk).allocate (f c) s').2 =
        ((Planner.mk p n placement overwrite onDisk).allocate c s).2 := by
  have hreserve := fun {s s' : State} (hs : s.Alike f ψ s') => reserve_renumber placement overwrite onDisk h hroot hs
  simp only [allocate, h.file c hc, hs.plan, Plan.output?_renumber h.file_injective, Option.isSome_map,
    outputPath_renumber placement overwrite onDisk h hroot]
  split
  · exact ⟨hs, rfl⟩
  have h₁ := hreserve hs ((Planner.mk p n placement overwrite onDisk).outputPath c ".kt") (p.decl c).file .entity
  generalize (Planner.mk p n placement overwrite onDisk).reserve _ _ .entity s = x at h₁ ⊢
  generalize (Planner.mk p' (n.renumber f) placement overwrite onDisk).reserve _ _ .entity s' = x' at h₁ ⊢
  cases h₁ with
  | error e => exact ⟨hs, rfl⟩
  | @ok a a' h₁ =>
    obtain ⟨s₁, entity⟩ := a
    obtain ⟨s₁', entity'⟩ := a'
    obtain ⟨hs₁, rfl⟩ := h₁
    cases placement with
    | inlined => exact ⟨record_renumber hs₁ _, rfl⟩
    | separate =>
      have h₂ := hreserve hs₁ ((Planner.mk p n .separate overwrite onDisk).outputPath c "Mapper.kt") (p.decl c).file .mapper
      dsimp only
      generalize (Planner.mk p n .separate overwrite onDisk).reserve _ _ .mapper s₁ = y at h₂ ⊢
      generalize (Planner.mk p' (n.renumber f) .separate overwrite onDisk).reserve _ _ .mapper s₁' = y' at h₂ ⊢
      cases h₂ with
      | error e => exact ⟨hs₁, rfl⟩
      | @ok b b' h₂ =>
        obtain ⟨s₂, mapper⟩ := b
        obtain ⟨s₂', mapper'⟩ := b'
        obtain ⟨hs₂, rfl⟩ := h₂
        exact ⟨record_renumber hs₂ _, rfl⟩

theorem allocateAll_renumber (h : p.RenumberedFiles f ψ dom p') (hroot : dom n.root) (hs : s.Alike f ψ s')
    {cs : List ClassId} (hcs : ∀ c ∈ cs, dom c) :
    ((Planner.mk p n placement overwrite onDisk).allocateAll cs s).1.Alike f ψ
        ((Planner.mk p' (n.renumber f) placement overwrite onDisk).allocateAll (cs.map f) s').1 ∧
      ((Planner.mk p' (n.renumber f) placement overwrite onDisk).allocateAll (cs.map f) s').2 =
        ((Planner.mk p n placement overwrite onDisk).allocateAll cs s).2 := by
  induction cs generalizing s s' with
  | nil => exact ⟨hs, rfl⟩
  | cons c cs ih =>
    have hc := allocate_renumber placement overwrite onDisk h hroot hs
      (hcs c List.mem_cons_self)
    rw [List.map_cons, allocateAll, allocateAll]
    generalize (Planner.mk p n placement overwrite onDisk).allocate c s = r at hc ⊢
    generalize (Planner.mk p' (n.renumber f) placement overwrite onDisk).allocate (f c) s' = r' at hc ⊢
    obtain ⟨s₁, o⟩ := r
    obtain ⟨s₁', o'⟩ := r'
    obtain ⟨hs₁, rfl⟩ := hc
    cases o' with
    | some e => exact ⟨hs₁, rfl⟩
    | none => exact ih hs₁ fun d hd => hcs d (List.mem_cons_of_mem c hd)

/-- **The plan** is the same but for the numbers of the source files. -/
theorem run_renumber (h : p.RenumberedFiles f ψ dom p') (hroot : dom n.root) {w w' : Workspace} (hw : w.Alike f id w') :
    ((Planner.mk p n placement overwrite onDisk).run w).1.Alike f id
        ((Planner.mk p' (n.renumber f) placement overwrite onDisk).run w').1 ∧
      Agree (fun plan plan' => plan' = plan.renumber ψ) ((Planner.mk p n placement overwrite onDisk).run w).2
        ((Planner.mk p' (n.renumber f) placement overwrite onDisk).run w').2 := by
  have hstart : State.Alike f ψ ⟨.empty, [], w⟩ ⟨.empty, [], w'⟩ := ⟨rfl, rfl, hw⟩
  have hall := allocateAll_renumber placement overwrite onDisk h hroot hstart fun c hc => h.dom_of_mem_reachable hroot hc
  rw [run, run, show p'.reachable (n.renumber f).root = (p.reachable n.root).map f from h.reachable hroot]
  generalize (Planner.mk p n placement overwrite onDisk).allocateAll (p.reachable n.root) ⟨.empty, [], w⟩ = r at hall ⊢
  generalize (Planner.mk p' (n.renumber f) placement overwrite onDisk).allocateAll ((p.reachable n.root).map f)
    ⟨.empty, [], w'⟩ = r' at hall ⊢
  obtain ⟨s₁, o⟩ := r
  obtain ⟨s₁', o'⟩ := r'
  obtain ⟨hs₁, rfl⟩ := hall
  cases o' with
  | some e => exact ⟨hs₁.workspace, .error e⟩
  | none => exact ⟨hs₁.workspace, .ok hs₁.plan⟩

end Planner

end Counterpart
