/-
What planning asks for and what it is given. A planner asks for the outputs of the first reachable class of each source file, one
after the other (`Planner.requests`). Whether a request is refused depends on the requests before it and on the disk, not on the
files that there are (`Planner.refusal?`). So a run stages the requests up to the first that is refused, and without a refusal it
plans the files at their paths (`Planner.run_granted`).
-/
import Mathlib.Data.List.Forall2
import Counterpart.Proofs.Loading
import Counterpart.Proofs.Planning

namespace Counterpart

open Output

/-- An output file that is asked for. -/
structure Request where
  path : Path
  /-- The source file that it is for. -/
  origin : FileId
  role : FileRole

/-! ## Files at paths -/

theorem Path.same_iff {p q : Path} : p.same q = true ↔ p.parts = q.parts := beq_iff_eq

namespace Output.Workspace

theorem findFile?_create (w : Workspace) (path q : Path) (package : String) (role : FileRole) :
    (w.create path package role).findFile? q = (w.findFile? q).or (if path.same q then some w.files.size else none) :=
  Array.findIdx?_push

end Output.Workspace

namespace Planner

variable {pl : Planner} {w : Workspace} {granted rs : List Request} {q r : Request}

/-- The package of all outputs. -/
def package (pl : Planner) : String := (pl.project.fileOf pl.naming.root).package

/-- The workspace with a file for the request, unless there is one at its path. -/
def stage (pl : Planner) (w : Workspace) (r : Request) : Workspace :=
  if (w.findFile? r.path).isSome then w else w.create r.path pl.package r.role

def stageAll (pl : Planner) (w : Workspace) (rs : List Request) : Workspace := rs.foldl pl.stage w

theorem stageAll_append (w : Workspace) (rs rs' : List Request) :
    pl.stageAll w (rs ++ rs') = pl.stageAll (pl.stageAll w rs) rs' := List.foldl_append

theorem stage_of_found (h : (w.findFile? r.path).isSome = true) : pl.stage w r = w := if_pos h

theorem findFile?_stage_of_found {path : Path} {id : OutputId} (h : w.findFile? path = some id) (r : Request) :
    (pl.stage w r).findFile? path = some id := by
  rw [stage]
  split
  · exact h
  · rw [Workspace.findFile?_create, h]
    rfl

theorem isSome_findFile?_stage (pl : Planner) (w : Workspace) (r : Request) :
    ((pl.stage w r).findFile? r.path).isSome = true := by
  rw [stage]
  split
  next h => exact h
  next h =>
    rw [Bool.not_eq_true, Option.isSome_eq_false_iff, Option.isNone_iff_eq_none] at h
    rw [Workspace.findFile?_create, h, if_pos (Path.same_iff.mpr rfl)]
    rfl

theorem findFile?_stageAll_of_found {path : Path} {id : OutputId} (h : w.findFile? path = some id) (rs : List Request) :
    (pl.stageAll w rs).findFile? path = some id := by
  induction rs generalizing w with
  | nil => exact h
  | cons r rs ih => exact ih (findFile?_stage_of_found h r)

theorem isSome_findFile?_stageAll (hr : r ∈ rs) : ((pl.stageAll w rs).findFile? r.path).isSome = true := by
  induction rs generalizing w with
  | nil => cases hr
  | cons q rs ih =>
    obtain rfl | hr := List.mem_cons.mp hr
    · obtain ⟨id, hid⟩ := Option.isSome_iff_exists.mp (isSome_findFile?_stage pl w r)
      exact Option.isSome_iff_exists.mpr ⟨id, findFile?_stageAll_of_found hid rs⟩
    · exact ih hr

/-- **Staging changes nothing** exactly when there is a file at every path. -/
theorem stageAll_eq_self_iff : pl.stageAll w rs = w ↔ ∀ r ∈ rs, (w.findFile? r.path).isSome = true := by
  constructor
  · intro h r hr
    have : ((pl.stageAll w rs).findFile? r.path).isSome = true := isSome_findFile?_stageAll hr
    rwa [h] at this
  · intro h
    induction rs with
    | nil => rfl
    | cons r rs ih =>
      rw [stageAll, List.foldl_cons, stage_of_found (h r List.mem_cons_self)]
      exact ih fun q hq => h q (List.mem_cons_of_mem r hq)

/-- The files that there were stay, and those staged follow. -/
theorem prefix_stageAll (pl : Planner) (w : Workspace) (rs : List Request) :
    w.files.toList <+: (pl.stageAll w rs).files.toList := by
  induction rs generalizing w with
  | nil => exact List.prefix_refl _
  | cons r rs ih =>
    refine List.IsPrefix.trans ?_ (ih (pl.stage w r))
    rw [stage]
    split
    · exact List.prefix_refl _
    · simp [Workspace.create]

/-! ## Requests -/

/-- The endings of the outputs of one source file and their roles. -/
def outputEndings : MapperPlacement → List (String × FileRole)
  | .inlined => [(".kt", .entity)]
  | .separate => [(".kt", .entity), ("Mapper.kt", .mapper)]

/-- The outputs of the source file of a class, named after the class. -/
def requestsFor (pl : Planner) (c : ClassId) : List Request :=
  (outputEndings pl.placement).map fun e => ⟨pl.outputPath c e.1, (pl.project.decl c).file, e.2⟩

/-- The first class of each source file. -/
def leadersOf (pl : Planner) (cs : List ClassId) : List ClassId :=
  cs.eraseDupsBy fun c d => (pl.project.decl c).file == (pl.project.decl d).file

/-- The first reachable class of each source file. -/
def leaders (pl : Planner) : List ClassId := pl.leadersOf (pl.project.reachable pl.naming.root)

/-- What planning asks for, in this order. -/
def requests (pl : Planner) : List Request := pl.leaders.flatMap pl.requestsFor

/-- Why a request is refused after others were granted: one of them has its path, or something is on disk there. -/
def refusal? (pl : Planner) (granted : List Request) (r : Request) : Option Failure :=
  match granted.find? fun q => q.path.same r.path with
  | some q => some (.pathConflict r.path (pl.project.file q.origin).path (pl.project.file r.origin).path)
  | none => if !pl.overwrite && pl.onDisk r.path then some (.fileExists r.path) else none

/-- The requests that are granted, up to the first that is refused, behind those granted before, and why that one is. -/
def grant (pl : Planner) (granted : List Request) : List Request → List Request × Option Failure
  | [] => (granted, none)
  | r :: rs =>
    match pl.refusal? granted r with
    | some e => (granted, some e)
    | none => pl.grant (granted ++ [r]) rs

theorem grant_append (granted rs rs' : List Request) :
    pl.grant granted (rs ++ rs') =
      match pl.grant granted rs with
      | (granted, some e) => (granted, some e)
      | (granted, none) => pl.grant granted rs' := by
  induction rs generalizing granted with
  | nil => rfl
  | cons r rs ih =>
    simp only [List.cons_append, grant]
    cases pl.refusal? granted r with
    | some e => rfl
    | none => exact ih _

/-- Without a refusal all is granted. -/
theorem eq_of_grant_none {granted' : List Request} (h : pl.grant granted rs = (granted', none)) :
    granted' = granted ++ rs := by
  induction rs generalizing granted with
  | nil =>
    cases h
    rw [List.append_nil]
  | cons r rs ih =>
    rw [grant] at h
    split at h
    · cases h
    · rw [ih h, List.append_assoc, List.singleton_append]

/-- No two of the requests have one path. -/
def PathsApart (rs : List Request) : Prop := rs.Pairwise fun q r => q.path.same r.path = false

/-- Requests that are granted have paths of their own. -/
theorem pathsApart_of_grant {granted' : List Request} {e : Option Failure} (h : pl.grant granted rs = (granted', e))
    (hg : PathsApart granted) : PathsApart granted' := by
  induction rs generalizing granted with
  | nil =>
    cases h
    exact hg
  | cons r rs ih =>
    rw [grant] at h
    split at h
    · cases h
      exact hg
    next hr =>
      refine ih h (List.pairwise_append.mpr ⟨hg, List.pairwise_singleton _ r, fun q hq q' hq' => ?_⟩)
      cases List.mem_singleton.mp hq'
      rw [refusal?] at hr
      split at hr
      · cases hr
      next hnone => simpa using List.find?_eq_none.mp hnone q hq

/-! ## Steps -/

/-- What was granted is taken and staged. -/
structure State.Granted (pl : Planner) (w : Workspace) (granted : List Request) (s : State) : Prop where
  taken : s.taken = granted.map fun r => (r.path, r.origin)
  workspace : s.workspace = pl.stageAll w granted

variable {s : State}

/-- One request: it is refused, or its file is staged. -/
theorem reserve_granted (hs : s.Granted pl w granted) (r : Request) :
    match pl.refusal? granted r with
    | some e => pl.reserve r.path r.origin r.role s = .error e
    | none => ∃ s' id, pl.reserve r.path r.origin r.role s = .ok (s', id) ∧ s'.plan = s.plan ∧
        s'.Granted pl w (granted ++ [r]) ∧ s'.workspace = pl.stage s.workspace r ∧ s'.workspace.findFile? r.path = some id := by
  have htaken : s.taken.find? (fun taken => taken.1.same r.path) =
      (granted.find? fun q => q.path.same r.path).map fun q => (q.path, q.origin) := by
    rw [hs.taken, List.find?_map]
    rfl
  have hgranted (s' : State) (htaken' : s'.taken = s.taken ++ [(r.path, r.origin)])
      (hw : s'.workspace = pl.stage s.workspace r) : s'.Granted pl w (granted ++ [r]) := by
    constructor
    · rw [htaken', hs.taken, List.map_append]
      rfl
    · rw [hw, hs.workspace, stageAll_append]
      rfl
  rw [refusal?, reserve, htaken]
  cases granted.find? fun q => q.path.same r.path with
  | some q => rfl
  | none =>
    by_cases hdisk : !pl.overwrite && pl.onDisk r.path
    · simp only [Option.map_none, if_pos hdisk]
    · simp only [Option.map_none, if_neg hdisk]
      cases hfile : s.workspace.findFile? r.path with
      | some id =>
        have hw : s.workspace = pl.stage s.workspace r := (stage_of_found (by rw [hfile]; rfl)).symm
        exact ⟨_, id, rfl, rfl, hgranted _ rfl hw, hw, hfile⟩
      | none =>
        have hw : s.workspace.create r.path pl.package r.role = pl.stage s.workspace r := by
          rw [stage, hfile]
          rfl
        refine ⟨_, s.workspace.files.size, rfl, rfl, hgranted _ rfl hw, hw, ?_⟩
        rw [Workspace.findFile?_create, hfile, if_pos (Path.same_iff.mpr rfl)]
        rfl

end Planner

/-- The output is that of the source file of a class, at the paths that were asked for. -/
structure PlannedOutput.Serves (pl : Planner) (w : Workspace) (c : ClassId) (o : PlannedOutput) : Prop where
  origin : o.origin = (pl.project.decl c).file
  entity : w.findFile? (pl.outputPath c ".kt") = some o.entity
  mapper : match pl.placement with
    | .inlined => o.mapper = o.entity
    | .separate => w.findFile? (pl.outputPath c "Mapper.kt") = some o.mapper

theorem PlannedOutput.Serves.stageAll {pl : Planner} {w : Workspace} {c : ClassId} {o : PlannedOutput} (h : o.Serves pl w c)
    (rs : List Request) : o.Serves pl (pl.stageAll w rs) c where
  origin := h.origin
  entity := Planner.findFile?_stageAll_of_found h.entity rs
  mapper := by
    have hmapper := h.mapper
    split at hmapper
    · exact hmapper
    · exact Planner.findFile?_stageAll_of_found hmapper rs

namespace Planner

variable {pl : Planner} {w : Workspace} {granted : List Request} {s : State}

/-- One class of a source file without outputs: the requests for it. -/
theorem allocate_granted (hs : s.Granted pl w granted) {c : ClassId}
    (hc : s.plan.output? (pl.project.decl c).file = none) :
    match pl.grant granted (pl.requestsFor c) with
    | (granted', some e) => ∃ s', pl.allocate c s = (s', some e) ∧ s'.Granted pl w granted'
    | (granted', none) => ∃ s' o, pl.allocate c s = (s', none) ∧ s'.Granted pl w granted' ∧
        s'.plan.outputs = s.plan.outputs ++ [o] ∧ o.Serves pl s'.workspace c := by
  have hentity := reserve_granted hs ⟨pl.outputPath c ".kt", (pl.project.decl c).file, .entity⟩
  have hendings : outputEndings pl.placement = (".kt", .entity) :: (outputEndings pl.placement).tail := by
    cases pl.placement <;> rfl
  rw [allocate, hc, requestsFor, hendings, List.map_cons, grant]
  simp only [Option.isSome_none, Bool.false_eq_true, if_false]
  split at hentity
  next e he =>
    simp only [hentity]
    exact ⟨s, rfl, hs⟩
  next he =>
    obtain ⟨s₁, entity, hreserve, hplan, hs₁, -, hid⟩ := hentity
    simp only [hreserve]
    cases hplacement : pl.placement with
    | inlined =>
      refine ⟨_, ⟨(pl.project.decl c).file, entity, entity⟩, rfl, ⟨hs₁.taken, hs₁.workspace⟩, ?_, rfl, hid, ?_⟩
      · rw [record, hplan]
      · rw [hplacement]
    | separate =>
      have hmapper := reserve_granted hs₁ ⟨pl.outputPath c "Mapper.kt", (pl.project.decl c).file, .mapper⟩
      simp only [outputEndings, List.tail_cons, List.map_cons, List.map_nil, grant]
      split at hmapper
      next e he₂ =>
        simp only [hmapper]
        exact ⟨s₁, rfl, hs₁⟩
      next he₂ =>
        obtain ⟨s₂, mapper, hreserve₂, hplan₂, hs₂, hw₂, hid₂⟩ := hmapper
        have hid₁ : s₂.workspace.findFile? (pl.outputPath c ".kt") = some entity := hw₂ ▸ findFile?_stage_of_found hid _
        simp only [hreserve₂]
        refine ⟨_, ⟨(pl.project.decl c).file, entity, mapper⟩, rfl, ⟨hs₂.taken, hs₂.workspace⟩, ?_, rfl, hid₁, ?_⟩
        · rw [record, hplan₂, hplan]
        · rw [hplacement]
          exact hid₂

/-! ## Runs -/

/-- The first classes of the source files that have no outputs yet. -/
def newcomers (pl : Planner) (plan : Plan) (cs : List ClassId) : List ClassId :=
  pl.leadersOf (cs.filter fun c => (plan.output? (pl.project.decl c).file).isNone)

theorem newcomers_of_some {plan : Plan} {c : ClassId} (h : (plan.output? (pl.project.decl c).file).isSome = true)
    (cs : List ClassId) : pl.newcomers plan (c :: cs) = pl.newcomers plan cs := by
  rw [newcomers, List.filter_cons_of_neg (by simpa [Option.isSome_iff_ne_none] using h), newcomers]

theorem newcomers_of_none {plan plan' : Plan} {c : ClassId} {o : PlannedOutput}
    (h : plan.output? (pl.project.decl c).file = none) (ho : o.origin = (pl.project.decl c).file)
    (hplan : plan'.outputs = plan.outputs ++ [o]) (cs : List ClassId) :
    pl.newcomers plan (c :: cs) = c :: pl.newcomers plan' cs := by
  obtain ⟨outputs⟩ := plan'
  subst hplan
  rw [newcomers, List.filter_cons_of_pos (by simp [h]), leadersOf, List.eraseDupsBy_cons, List.filter_filter, newcomers,
    leadersOf]
  refine congrArg (c :: List.eraseDupsBy _ ·) (List.filter_congr fun d _ => ?_)
  rw [Planned.output?_concat, ho, Option.isNone_or, Bool.and_comm]
  by_cases hd : (pl.project.decl c).file = (pl.project.decl d).file
  · simp [hd]
  · simp [hd, Ne.symm hd]

/-- All classes: the requests for the source files that have no outputs yet. -/
theorem allocateAll_granted (hs : s.Granted pl w granted) (cs : List ClassId) :
    match pl.grant granted ((pl.newcomers s.plan cs).flatMap pl.requestsFor) with
    | (granted', some e) => ∃ s', pl.allocateAll cs s = (s', some e) ∧ s'.Granted pl w granted'
    | (granted', none) => ∃ s' os, pl.allocateAll cs s = (s', none) ∧ s'.Granted pl w granted' ∧
        s'.plan.outputs = s.plan.outputs ++ os ∧
        List.Forall₂ (fun c o => o.Serves pl s'.workspace c) (pl.newcomers s.plan cs) os := by
  induction cs generalizing s granted with
  | nil => exact ⟨s, [], rfl, hs, (List.append_nil _).symm, .nil⟩
  | cons c cs ih =>
    cases hc : s.plan.output? (pl.project.decl c).file with
    | some o =>
      -- the source file has its outputs, and the state stays as it is
      have hknown : (s.plan.output? (pl.project.decl c).file).isSome = true := by rw [hc]; rfl
      rw [newcomers_of_some hknown, allocateAll, allocate, if_pos hknown]
      exact ih hs
    | none =>
      have hstep := allocate_granted hs hc
      split at hstep
      next granted₁ e hgrant =>
        -- the plan behind a refusal does not count, so any will do
        obtain ⟨s₁, hallocate, hs₁⟩ := hstep
        rw [newcomers_of_none hc rfl (rfl : Plan.outputs ⟨s.plan.outputs ++ [⟨_, 0, 0⟩]⟩ = _), List.flatMap_cons, grant_append,
          hgrant, allocateAll, hallocate]
        exact ⟨s₁, rfl, hs₁⟩
      next granted₁ hgrant =>
        obtain ⟨s₁, o, hallocate, hs₁, hplan, ho⟩ := hstep
        rw [newcomers_of_none hc ho.origin hplan, List.flatMap_cons, grant_append, hgrant, allocateAll, hallocate]
        have hrest := ih hs₁
        simp only
        split at hrest
        next => exact hrest
        next granted' hgrant' =>
          obtain ⟨s', os, hall, hs', hplan', hos⟩ := hrest
          refine ⟨s', o :: os, hall, hs', by rw [hplan', hplan, List.append_assoc, List.singleton_append], .cons ?_ hos⟩
          rw [hs'.workspace, eq_of_grant_none hgrant', stageAll_append, ← hs₁.workspace]
          exact ho.stageAll _

/-- **A run** stages what is granted up to the first refusal; without one, the plan has the files at the paths asked for. -/
theorem run_granted (pl : Planner) (w : Workspace) :
    match pl.grant [] pl.requests with
    | (granted, some e) => pl.run w = (pl.stageAll w granted, .error e)
    | (_, none) => ∃ plan, pl.run w = (pl.stageAll w pl.requests, .ok plan) ∧
        List.Forall₂ (fun c o => o.Serves pl (pl.stageAll w pl.requests) c) pl.leaders plan.outputs := by
  have hs : State.Granted pl w [] ⟨.empty, [], w⟩ := ⟨rfl, rfl⟩
  have hall := allocateAll_granted hs (pl.project.reachable pl.naming.root)
  have hleaders : pl.newcomers .empty (pl.project.reachable pl.naming.root) = pl.leaders :=
    congrArg pl.leadersOf (List.filter_eq_self.mpr fun _ _ => rfl)
  rw [hleaders, ← requests] at hall
  split at hall
  next granted e hgrant =>
    obtain ⟨s', hrun, hs'⟩ := hall
    simp only [run, hrun, hs'.workspace]
  next granted hgrant =>
    obtain ⟨s', os, hrun, hs', hplan, hos⟩ := hall
    have hgranted : granted = pl.requests := eq_of_grant_none hgrant
    rw [hs'.workspace, hgranted] at hos
    refine ⟨s'.plan, by simp only [run, hrun, hs'.workspace, hgranted], ?_⟩
    rwa [hplan]

/-- A plan for a class with a field of a class in another source file, whose counterparts have a name and the suffix `Model`. -/
def ofUser (rootName : String) (placement : MapperPlacement) : Planner :=
  let users := Project.empty.addSource "a/User.kt" "package a\ndata class User(val address: Address)"
  let p := users.addSource "a/Address.kt" "package a\ndata class Address(val city: String)"
  ⟨p, ⟨0, rootName, "Model"⟩, placement, false, fun _ => false⟩

end Planner

end Counterpart
