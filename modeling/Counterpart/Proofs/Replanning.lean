/-
Planning again, and planning that fails. What is asked for is the same for every workspace, so a plan made a second time finds
all its files and is the same (`Planner.run_idempotent`). A refusal comes after the files of the requests before it were created;
the workspace is as it was exactly when it had those already (`Planner.run_refused`).
-/
import Counterpart.Proofs.Requests
import Counterpart.Proofs.Run

namespace Counterpart

open Output

theorem PlannedOutput.Serves.unique {pl : Planner} {w : Workspace} {c : ClassId} {o o' : PlannedOutput} (h : o.Serves pl w c)
    (h' : o'.Serves pl w c) : o = o' := by
  have hentity : o.entity = o'.entity := Option.some.inj (h.entity.symm.trans h'.entity)
  have hmapper : o.mapper = o'.mapper := by
    have hm := h.mapper
    have hm' := h'.mapper
    cases hplacement : pl.placement with
    | inlined =>
      simp only [hplacement] at hm hm'
      rw [hm, hm', hentity]
    | separate =>
      simp only [hplacement] at hm hm'
      exact Option.some.inj (hm.symm.trans hm')
  cases o
  cases o'
  cases h.origin.trans h'.origin.symm
  cases hentity
  cases hmapper
  rfl

/-- **Planning is idempotent.** The files that there were stay as they are, and the same plan made on what a plan leaves behind
is equal to it and leaves everything as it is. -/
theorem Planner.run_idempotent {pl : Planner} {w w' : Workspace} {plan : Plan} (h : pl.run w = (w', .ok plan)) :
    w.files.toList <+: w'.files.toList ∧ pl.run w' = (w', .ok plan) := by
  have hfirst := run_granted pl w
  have hagain := run_granted pl w'
  split at hfirst
  next => cases h.symm.trans hfirst
  next hgrant =>
    obtain ⟨plan₁, hrun₁, hserves₁⟩ := hfirst
    cases h.symm.trans hrun₁
    have hstaged : pl.stageAll (pl.stageAll w pl.requests) pl.requests = pl.stageAll w pl.requests :=
      stageAll_eq_self_iff.mpr fun r hr => isSome_findFile?_stageAll hr
    rw [hgrant, hstaged] at hagain
    obtain ⟨plan₂, hrun₂, hserves₂⟩ := hagain
    have hplan : plan.outputs = plan₂.outputs :=
      List.right_unique_forall₂' (fun _ _ _ ho ho' => ho.unique ho') hserves₁ hserves₂
    refine ⟨prefix_stageAll pl w pl.requests, ?_⟩
    rw [hrun₂]
    cases plan
    cases plan₂
    cases hplan
    rfl

theorem Planner.run_idempotent_started :
    let started := Workspace.empty.create ⟨"a/AddressModel.kt"⟩ "other" .mapper
    ∃ w plan, (ofUser "User" .inlined).run started = (w, .ok plan) ∧ plan.outputs = [⟨0, 1, 1⟩, ⟨1, 0, 0⟩] ∧
      started.files.toList <+: w.files.toList ∧ (ofUser "User" .inlined).run w = (w, .ok plan) := by
  intro started
  have hplan : ((ofUser "User" .inlined).run started).2.toOption = some ⟨[⟨0, 1, 1⟩, ⟨1, 0, 0⟩]⟩ := by decide +kernel
  cases hrun : (ofUser "User" .inlined).run started with
  | mk w outcome =>
    rw [hrun] at hplan
    cases ok_of_toOption hplan
    exact ⟨w, _, rfl, rfl, run_idempotent hrun⟩

end Counterpart
