/-
The phases of a run, each with what it got and what it gave. A run without further phases that succeeds goes through all of
them (`Hooks.stages_of_run`).
-/
import Counterpart.Proofs.Run

namespace Counterpart

open Kotlin Output

namespace Generation

/-- What the phases of a run over `p` gave: the names `n`, the plan and its files `w`, the counterparts in `w₁` with the
result `r`, and the functions with the messages `ms`. -/
structure Stages (g : Generation) (p : Project) (o : Options) (n : Naming) (plan : Plan) (w w₁ : Workspace)
    (r : Entity.Generator.Result) (ms : List Diagnostic) : Prop where
  selected : p.selected o.selection = .ok n.root
  named : namingOf p o n.root = .ok n
  supported : (p.decl n.root).isSupported = true
  planned : ∃ onDisk, (Planner.mk p n o.placement o.overwrite onDisk).run .empty = (w, .ok plan)
  entities : (Entity.Generator.mk p plan n).run w = (w₁, .ok r)
  functions : (Mapper.Setting.mk p n r.table).run plan w₁ = (g.workspace, .ok ms)
  naming : g.naming = some n
  plan : g.plan = some plan
  table : g.table = some r.table
  root : g.root = some r.root
  diagnostics : g.diagnostics = Lint.all.flatMap (Lint.check ⟨p, n, p.reachable n.root⟩) ++ r.diagnostics ++ ms

namespace Stages

variable {g : Generation} {p : Project} {o : Options} {n : Naming} {plan : Plan} {w w₁ : Workspace}
  {r : Entity.Generator.Result} {ms : List Diagnostic}

/-- What the counterparts are when the functions are still to come. -/
theorem complete (h : g.Stages p o n plan w w₁ r ms) : Entity.Complete ⟨p, plan, n⟩ w w₁ r.table := by
  obtain ⟨onDisk, hplan⟩ := h.planned
  obtain ⟨_, _, _, _, _, hrun, -, hcomplete, -⟩ := Planner.exists_runs h.supported hplan
  cases h.entities.symm.trans hrun
  exact hcomplete

/-- No file has functions then. -/
theorem functions_eq_nil (h : g.Stages p o n plan w w₁ r ms) (i : OutputId) : (w₁.file i).functions = [] := by
  obtain ⟨onDisk, hplan⟩ := h.planned
  exact Workspace.functions_file_of_functions (h.complete.functions.trans (Planner.run_planned hplan).functions_eq_nil) i

end Stages

/-! ## From a run to its phases -/

variable {g g' : Generation}

theorem root_of_namingOf {p : Project} {o : Options} {root : ClassId} {n : Naming} (h : namingOf p o root = .ok n) :
    n.root = root := by
  rw [(namingOf_ok h).1]

theorem select_named (h : g.select = (g', none)) :
    ∃ n, g.project.selected g.options.selection = .ok n.root ∧ namingOf g.project g.options n.root = .ok n ∧
      (g.project.decl n.root).isSupported = true ∧ g' = { g with naming := some n } := by
  unfold select at h
  split at h
  · cases h
  next root hroot =>
    split at h
    · cases h
    next hsupported =>
      split at h
      · cases h
      next n hn =>
        cases h
        obtain rfl := root_of_namingOf hn
        exact ⟨n, hroot, hn, by simpa using hsupported, rfl⟩

theorem validate_reported {lints : List Lint} {n : Naming} (hn : g.naming = some n) (h : g.validate lints = (g', none)) :
    g' = g.report (lints.flatMap (Lint.check ⟨g.project, n, g.project.reachable n.root⟩)) := by
  unfold validate at h
  rw [hn, resultFor] at h
  exact (congrArg Prod.fst h).symm

end Generation

/-- **A run that succeeds** has gone through all phases. -/
theorem Hooks.stages_of_run {σ : Type} {h : Hooks σ} {s s' : σ} {p : Project} {o : Options} {g : Generation}
    (hrun : h.run [] p o s = (s', .ok g)) : ∃ n plan w w₁ r ms, g.Stages p o n plan w w₁ r ms := by
  rw [run, Phase.builtin, List.append_nil] at hrun
  obtain ⟨_, g₁, s₁, h₁, hrun⟩ := runPhases_cons_ok hrun
  obtain ⟨_, g₂, s₂, h₂, hrun⟩ := runPhases_cons_ok hrun
  obtain ⟨onDisk, g₃, s₃, h₃, hrun⟩ := runPhases_cons_ok hrun
  obtain ⟨_, g₄, s₄, h₄, hrun⟩ := runPhases_cons_ok hrun
  obtain ⟨_, g₅, s₅, h₅, hrun⟩ := runPhases_cons_ok hrun
  cases runPhases_nil_ok hrun
  simp only [Phase.select, Phase.validate, Phase.plan, Phase.entity, Phase.mapper] at h₁ h₂ h₃ h₄ h₅
  obtain ⟨n, hselected, hnamed, hsupported, rfl⟩ := Generation.select_named h₁
  cases Generation.validate_reported rfl h₂
  obtain ⟨w, plan, hplan, rfl⟩ := Generation.planFiles_ok rfl h₃
  obtain ⟨w₁, r, hr, rfl⟩ := Generation.generateEntities_ok rfl rfl h₄
  obtain ⟨w', ms, hms, rfl⟩ := Generation.generateMappers_ok rfl rfl rfl h₅
  exact ⟨n, plan, w, w₁, r, ms, {
    selected := hselected
    named := hnamed
    supported := hsupported
    planned := ⟨onDisk, hplan⟩
    entities := hr
    functions := hms
    naming := rfl
    plan := rfl
    table := rfl
    root := rfl
    diagnostics := rfl }⟩

end Counterpart
