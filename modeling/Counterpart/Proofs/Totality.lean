/-
After planning nothing fails. Whatever the class graph is, the planned files suffice for the counterparts, every address in
the table leads to a declaration, and every class that a function is called for has such an address. The classes in the
table are among those that planning went through, and the same ones in the same order when no name was taken.
-/
import Counterpart.Proofs.Run

namespace Counterpart

open Kotlin Output

/-- **A plan that succeeds is enough**: from no files, counterparts and functions are generated without failure. -/
theorem Planner.generates {pl : Planner} {plan : Plan} {w : Workspace}
    (hroot : (pl.project.decl pl.naming.root).isSupported = true) (hplan : pl.run .empty = (w, .ok plan)) :
    ∃ w₁ r w₂ ds, (Entity.Generator.mk pl.project plan pl.naming).run w = (w₁, .ok r) ∧
      (Mapper.Setting.mk pl.project pl.naming r.table).run plan w₁ = (w₂, .ok ds) ∧
      (∀ e ∈ r.table.entries, e.1 ∈ pl.project.reachable pl.naming.root) ∧
      ((∀ e ∈ r.table.entries, e.2 ≠ .skipped) →
        r.table.entries.map (·.1) = pl.project.reachable pl.naming.root) := by
  obtain ⟨w₁, r, w₂, ds, cs, hentity, hmapper, hcomplete, -⟩ := Planner.exists_runs hroot hplan
  refine ⟨w₁, r, w₂, ds, hentity, hmapper, fun e he => ?_, hcomplete.entries_eq_reachable⟩
  have hin : r.table.contains e.1 = true := Entity.Table.contains_iff_mem.mpr (List.mem_map_of_mem he)
  exact Project.mem_reachable.mpr ⟨Project.lt_size_of_isSupported hroot, hcomplete.reached e.1 hin⟩

/-- Separate functions for classes that lead to each other, one of them nested and one of them an enum. -/
def cyclicPlanner : Planner where
  project := .ofSource ("package demo\ndata class Node(val next: Node?, val all: Map<Color, Node.Leaf>) " ++
    "\x7b\ndata class Leaf(val up: Node)\n\x7d\nenum class Color \x7b RED, BLUE \x7d")
  naming := ⟨0, "Tree", "Dto"⟩
  placement := .separate
  overwrite := false
  onDisk := fun _ => false

theorem generates_cyclicPlanner :
    (cyclicPlanner.project.decl cyclicPlanner.naming.root).isSupported = true ∧
      ∃ w plan, cyclicPlanner.run .empty = (w, .ok plan) ∧
        ∃ w₁ r w₂ ds, (Entity.Generator.mk cyclicPlanner.project plan cyclicPlanner.naming).run w = (w₁, .ok r) ∧
          (Mapper.Setting.mk cyclicPlanner.project cyclicPlanner.naming r.table).run plan w₁ = (w₂, .ok ds) ∧
          (∀ e ∈ r.table.entries, e.1 ∈ cyclicPlanner.project.reachable cyclicPlanner.naming.root) ∧
          ((∀ e ∈ r.table.entries, e.2 ≠ .skipped) →
            r.table.entries.map (·.1) = cyclicPlanner.project.reachable cyclicPlanner.naming.root) := by
  have hrun : (cyclicPlanner.project.decl cyclicPlanner.naming.root).isSupported = true ∧
      (cyclicPlanner.run .empty).2.toOption.isSome = true := by decide +kernel
  obtain ⟨hroot, hrun⟩ := hrun
  obtain ⟨w, plan, hplan⟩ := exists_of_isSome hrun
  exact ⟨hroot, w, plan, hplan, Planner.generates hroot hplan⟩

end Counterpart
