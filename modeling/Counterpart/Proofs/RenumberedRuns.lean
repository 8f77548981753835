/-
Runs over projects that differ in numbers. When a selection means the same class in both, every phase does the same, up to the
numbers, or fails in the same way; so the same is written and the same is said (`generate_renumber`).
-/
import Counterpart.Generation.Run
import Counterpart.Proofs.RenumberedPhases

namespace Counterpart

open Kotlin Output Text

/-! ## Phases -/

/-- The generations differ in the numbers of classes and source files alone. -/
structure Generation.Renumbered (f : ClassId → ClassId) (ψ : FileId → FileId) (dom : ClassId → Prop) (g g' : Generation) :
    Prop where
  project : g.project.RenumberedFiles f ψ dom g'.project
  options : g'.options = g.options
  naming : g'.naming = g.naming.map (Naming.renumber f)
  dom_root : ∀ n, g.naming = some n → dom n.root
  plan : g'.plan = g.plan.map (Plan.renumber ψ)
  table : g'.table = g.table.map (Entity.Table.renumber f id)
  root : g'.root = g.root
  workspace : g.workspace.Alike f id g'.workspace
  diagnostics : g'.diagnostics = g.diagnostics

/-- Both steps went well, with generations that differ in numbers alone, or both failed in the same way. -/
inductive SameStep (f : ClassId → ClassId) (ψ : FileId → FileId) (dom : ClassId → Prop) :
    Generation × Option Failure → Generation × Option Failure → Prop
  | done {g g' : Generation} (h : g.Renumbered f ψ dom g') : SameStep f ψ dom (g, none) (g', none)
  | failed {g g' : Generation} (e : Failure) : SameStep f ψ dom (g, some e) (g', some e)

namespace Generation.Renumbered

variable {f : ClassId → ClassId} {ψ : FileId → FileId} {dom : ClassId → Prop} {g g' : Generation}

theorem report (h : g.Renumbered f ψ dom g') (ds : List Diagnostic) : (g.report ds).Renumbered f ψ dom (g'.report ds) :=
  { h with diagnostics := congrArg (· ++ ds) h.diagnostics }

/-- **The names** are the same for the same class. -/
theorem namingOf {p p' : Project} (h : p.Renumbered f dom p') (o : Options) (c : ClassId) :
    Agree (fun n n' => n' = n.renumber f ∧ n.root = c) (Generation.namingOf p o c) (Generation.namingOf p' o (f c)) := by
  simp only [Generation.namingOf, (h.decl c).name, bind, Except.bind, pure, Except.pure]
  cases usable .className (o.name.getD (p.decl c).name) with
  | error e => exact .error e
  | ok name =>
    cases usable .suffix o.suffix with
    | error e => exact .error e
    | ok suffix => exact .ok ⟨rfl, rfl⟩

/-- **Selecting**, when the selection means the same class. -/
theorem select (h : g.Renumbered f ψ dom g') {c : ClassId} (hc : g.project.selected g.options.selection = .ok c)
    (hc' : g'.project.selected g.options.selection = .ok (f c)) : SameStep f ψ dom g.select g'.select := by
  rw [Generation.select, Generation.select, h.options]
  simp only [hc, hc', h.project.isSupported]
  cases hsupported : (g.project.decl c).isSupported with
  | false => exact .failed _
  | true =>
    have hnaming := namingOf h.project.toRenumbered g.options c
    simp only [Bool.not_true, Bool.false_eq_true, if_false]
    generalize Generation.namingOf g.project g.options c = x at hnaming ⊢
    generalize Generation.namingOf g'.project g.options (f c) = x' at hnaming ⊢
    cases hnaming with
    | error e => exact .failed e
    | ok hn =>
      obtain ⟨rfl, rfl⟩ := hn
      refine .done { h with options := rfl, naming := rfl, dom_root := fun n hn => ?_ }
      cases hn
      exact h.project.supported _ hsupported

theorem validate (h : g.Renumbered f ψ dom g') (lints : List Lint) :
    SameStep f ψ dom (g.validate lints) (g'.validate lints) := by
  rw [Generation.validate, Generation.validate, h.naming]
  cases hn : g.naming with
  | none => exact .failed _
  | some n =>
    have hroot := h.dom_root n hn
    have hchecks : lints.flatMap (Lint.check ⟨g'.project, n.renumber f, g'.project.reachable (n.renumber f).root⟩) =
        lints.flatMap (Lint.check ⟨g.project, n, g.project.reachable n.root⟩) := by
      rw [show g'.project.reachable (n.renumber f).root = _ from h.project.reachable hroot]
      exact List.flatMap_congr fun lint _ =>
        Lint.check_renumber h.project.toRenumbered hroot (fun c hc => h.project.dom_of_mem_reachable hroot hc) lint
    have hreported := h.report (lints.flatMap (Lint.check ⟨g.project, n, g.project.reachable n.root⟩))
    simp only [Generation.resultFor, Option.map_some, hchecks, Generation.errors, hreported.diagnostics]
    by_cases herrors : ((g.report (lints.flatMap (Lint.check ⟨g.project, n, g.project.reachable n.root⟩))).diagnostics.filter
        Diagnostic.isError).isEmpty
    · simp only [herrors, if_true]
      exact .done hreported
    · simp only [herrors, Bool.false_eq_true, if_false]
      exact .failed _

theorem planFiles (h : g.Renumbered f ψ dom g') (onDisk : Path → Bool) :
    SameStep f ψ dom (g.planFiles onDisk) (g'.planFiles onDisk) := by
  obtain ⟨p, o, naming, plan, table, root, w, ds⟩ := g
  obtain ⟨p', o', naming', plan', table', root', w', ds'⟩ := g'
  obtain rfl : naming' = _ := h.naming
  obtain rfl : o = o' := h.options.symm
  cases naming with
  | none => exact .failed _
  | some n =>
    have hrun := Planner.run_renumber o.placement o.overwrite onDisk h.project (h.dom_root n rfl) h.workspace
    simp only [Generation.planFiles, Generation.resultFor, Option.map_some] at hrun ⊢
    generalize (Planner.mk p n _ _ onDisk).run w = r at hrun ⊢
    generalize (Planner.mk p' _ _ _ onDisk).run w' = r' at hrun ⊢
    obtain ⟨w, x⟩ := r
    obtain ⟨w', x'⟩ := r'
    obtain ⟨hworkspace, hplan⟩ := hrun
    cases hplan with
    | error e => exact .failed e
    | ok hplan =>
      refine .done ?_
      exact { h with workspace := hworkspace, plan := congrArg some hplan }

theorem generateEntities (h : g.Renumbered f ψ dom g') : SameStep f ψ dom g.generateEntities g'.generateEntities := by
  obtain ⟨p, o, naming, plan, table, root, w, ds⟩ := g
  obtain ⟨p', o', naming', plan', table', root', w', ds'⟩ := g'
  obtain rfl : naming' = _ := h.naming
  obtain rfl : plan' = _ := h.plan
  match naming, plan with
  | none, _ => exact .failed _
  | some n, none => exact .failed _
  | some n, some plan =>
    have hgenerator : (Entity.Generator.mk p plan n).Renumbered f id dom
        (Entity.Generator.mk p' (plan.renumber ψ) (n.renumber f)) := {
      project := h.project.toRenumbered
      naming := rfl
      entityFile? := fun c hc => by
        rw [h.project.file c hc, Plan.entityFile?_renumber h.project.file_injective, Option.map_id]
        rfl }
    have hrun := hgenerator.run (h.dom_root n rfl) h.workspace
    simp only [Generation.generateEntities, Generation.resultFor, Option.map_some, bind, Except.bind, pure, Except.pure]
      at hrun ⊢
    generalize (Entity.Generator.mk p plan n).run w = r at hrun ⊢
    generalize (Entity.Generator.mk p' _ _).run w' = r' at hrun ⊢
    obtain ⟨w, x⟩ := r
    obtain ⟨w', x'⟩ := r'
    obtain ⟨hworkspace, hresult⟩ := hrun
    cases hresult with
    | error e => exact .failed e
    | @ok result result' hresult =>
      obtain ⟨hroot, htable, hdiagnostics⟩ := hresult
      refine .done ?_
      exact { h with
        workspace := hworkspace
        root := congrArg some hroot
        table := congrArg some htable
        diagnostics := congrArg₂ (· ++ ·) h.diagnostics hdiagnostics }

theorem generateMappers (h : g.Renumbered f ψ dom g') : SameStep f ψ dom g.generateMappers g'.generateMappers := by
  obtain ⟨p, o, naming, plan, table, root, w, ds⟩ := g
  obtain ⟨p', o', naming', plan', table', root', w', ds'⟩ := g'
  obtain rfl : naming' = _ := h.naming
  obtain rfl : plan' = _ := h.plan
  obtain rfl : table' = _ := h.table
  match naming, plan, table with
  | none, _, _ => exact .failed _
  | some n, none, _ => exact .failed _
  | some n, some plan, none => exact .failed _
  | some n, some plan, some table =>
    have hsetting : (Mapper.Setting.mk p n table).Renumbered f id dom
        (Mapper.Setting.mk p' (n.renumber f) (table.renumber f id)) := ⟨h.project.toRenumbered, rfl, rfl⟩
    have hfileOf : ∀ r : Ref, Mapper.Setting.fileOf (plan.renumber ψ) (r.renumber id) = Mapper.Setting.fileOf plan r :=
      fun r => by rw [Mapper.Setting.fileOf, Plan.mapperFile?_renumber]; rfl
    have hrun := hsetting.run (h.dom_root n rfl) hfileOf h.workspace
    simp only [Generation.generateMappers, Generation.resultFor, Option.map_some, bind, Except.bind, pure, Except.pure]
      at hrun ⊢
    generalize (Mapper.Setting.mk p n table).run plan w = r at hrun ⊢
    generalize (Mapper.Setting.mk p' _ _).run (plan.renumber ψ) w' = r' at hrun ⊢
    obtain ⟨w, x⟩ := r
    obtain ⟨w', x'⟩ := r'
    obtain ⟨hworkspace, hmessages⟩ := hrun
    obtain rfl : x' = x := hmessages
    cases x' with
    | error e => exact .failed e
    | ok messages =>
      refine .done ?_
      exact { h with workspace := hworkspace, diagnostics := congrArg (· ++ messages) h.diagnostics }

end Generation.Renumbered

/-! ## Runs -/

/-- What a run is for: the counterpart of the selected class, the files to write, and the messages. -/
structure Preview where
  root : Option Ref
  files : List Code.RenderedFile
  messages : List Diagnostic

def Generation.preview (g : Generation) : Preview := ⟨g.root, Code.renderAll g.workspace, g.diagnostics⟩

theorem Generation.Renumbered.preview {f : ClassId → ClassId} {ψ : FileId → FileId} {dom : ClassId → Prop} {g g' : Generation}
    (h : g.Renumbered f ψ dom g') : g'.preview = g.preview := by
  rw [Generation.preview, Generation.preview, h.root, Code.renderAll_renumber h.workspace, h.diagnostics]

namespace Hooks

variable {f : ClassId → ClassId} {ψ : FileId → FileId} {dom : ClassId → Prop} {onDisk : Path → Bool}

theorem runPhases_none_of_done {phase : Phase} {phases : List Phase} {g g₁ : Generation}
    (h : phase.run onDisk g = (g₁, .none)) :
    ((none onDisk).runPhases (phase :: phases) g ()).2 = ((none onDisk).runPhases phases g₁ ()).2 := by
  simp only [runPhases, none, h]

theorem runPhases_none_of_failed {phase : Phase} {phases : List Phase} {g g₁ : Generation} {e : Failure}
    (h : phase.run onDisk g = (g₁, some e)) : ((none onDisk).runPhases (phase :: phases) g ()).2 = .error e := by
  simp only [runPhases, none, h]

/-- A phase that does the same, followed by phases that do. -/
theorem preview_cons {phase : Phase} {phases : List Phase} {g g' : Generation}
    (hstep : SameStep f ψ dom (phase.run onDisk g) (phase.run onDisk g'))
    (hrest : ∀ g g', g.Renumbered f ψ dom g' →
      ((none onDisk).runPhases phases g' ()).2.map Generation.preview =
        ((none onDisk).runPhases phases g ()).2.map Generation.preview) :
    ((none onDisk).runPhases (phase :: phases) g' ()).2.map Generation.preview =
      ((none onDisk).runPhases (phase :: phases) g ()).2.map Generation.preview := by
  generalize hr : phase.run onDisk g = r at hstep
  generalize hr' : phase.run onDisk g' = r' at hstep
  cases hstep with
  | done h =>
    rw [runPhases_none_of_done hr, runPhases_none_of_done hr']
    exact hrest _ _ h
  | failed e => rw [runPhases_none_of_failed hr, runPhases_none_of_failed hr']

end Hooks

section Generate

variable {p p' : Project} {o : Options} (onDisk : Path → Bool)

/-- **Runs that select the same class** have the same outcome. -/
theorem generate_renumber {f : ClassId → ClassId} {ψ : FileId → FileId} {dom : ClassId → Prop} {c : ClassId}
    (h : p.RenumberedFiles f ψ dom p') (hc : p.selected o.selection = .ok c) (hc' : p'.selected o.selection = .ok (f c)) :
    (generate onDisk p' o).map Generation.preview = (generate onDisk p o).map Generation.preview := by
  have hstart : (Generation.start p o).Renumbered f ψ dom (Generation.start p' o) := {
    project := h
    options := rfl
    naming := rfl
    dom_root := nofun
    plan := rfl
    table := rfl
    root := rfl
    workspace := ⟨fun _ _ => id, fun _ => .rfl, fun _ => ⟨rfl, rfl, rfl, rfl, rfl, rfl⟩⟩
    diagnostics := rfl }
  refine Hooks.preview_cons (hstart.select hc hc') fun g g' h => ?_
  refine Hooks.preview_cons (h.validate Lint.all) fun g g' h => ?_
  refine Hooks.preview_cons (h.planFiles onDisk) fun g g' h => ?_
  refine Hooks.preview_cons h.generateEntities fun g g' h => ?_
  refine Hooks.preview_cons h.generateMappers fun g g' h => ?_
  exact congrArg Except.ok h.preview

/-- A run that selects no class ends there. -/
theorem generate_of_unselected {e : Failure} (h : p.selected o.selection = .error e) : generate onDisk p o = .error e := by
  have hselect : Phase.select.run onDisk (Generation.start p o) = (Generation.start p o).refuse .none e := by
    simp only [Phase.select, Generation.select, Generation.start, h]
  exact Hooks.runPhases_none_of_failed hselect

end Generate

end Counterpart
