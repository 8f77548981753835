/-
Runs that differ in the placement of the functions alone. With functions in files of their own every output has two files
instead of one, so the file of the counterparts numbered `i` is numbered `2 * i` (`Planner.Apart`). The counterparts do not
depend on these numbers, and the functions only follow their files: where the functions go is all that the placement changes
(`Hooks.placements_agree`).
-/
import Mathlib.Data.List.Forall2
import Counterpart.Proofs.Allocation
import Counterpart.Proofs.RenumberedFunctions
import Counterpart.Proofs.Stages

namespace Counterpart

open Kotlin Output

/-! ## The same classes -/

namespace Output.Declaration

mutual

theorem renumber_id : ∀ d : Declaration, d.renumber id = d
  | ⟨name, kind, source, typeParams, params, entries, nested⟩ => by
    rw [renumber, renumberAll_id nested]
    rfl

theorem renumberAll_id : ∀ ds : List Declaration, renumberAll id ds = ds
  | [] => rfl
  | d :: ds => by rw [renumberAll, renumber_id d, renumberAll_id ds]

end

end Output.Declaration

/-- A project is itself with the numbers that its classes have. -/
theorem Project.renumbered_id (p : Project) : p.Renumbered id (fun _ => True) p where
  injective := Function.injective_id
  size _ := Iff.rfl
  decl _ := ⟨rfl, rfl, (List.map_id _).symm, rfl, rfl, rfl⟩
  fileOf _ _ := ⟨rfl, rfl, rfl⟩
  outermost _ _ := rfl
  supported _ _ := trivial
  dom_enclosing _ _ _ _ := trivial
  dom_outermost _ _ := trivial
  find? _ := (congrFun Option.map_id _).symm
  findNested? _ _ := (congrFun Option.map_id _).symm
  dom_find? _ _ _ := trivial
  dom_nested _ _ _ _ := trivial

/-! ## Plans -/

namespace Planner

/-- The number of a file of counterparts when each goes with a file of functions. -/
def apart (i : OutputId) : OutputId := 2 * i

theorem apart_injective : Function.Injective apart := fun _ _ h => Nat.eq_of_mul_eq_mul_left Nat.two_pos h

/-- The files of functions are no files of counterparts. -/
theorem apart_ne (i j : Nat) : apart i ≠ apart j + 1 := by
  have : 2 * i ≠ 2 * j + 1 := by omega
  exact this

/-- The outputs of a source file when the functions get a file of their own. -/
def outputApart (o : PlannedOutput) : PlannedOutput := ⟨o.origin, apart o.entity, apart o.entity + 1⟩

/-- Two plans in progress, the second one with files for the functions. -/
structure Apart (s s' : State) : Prop where
  outputs : s'.plan.outputs = s.plan.outputs.map outputApart
  inlined : ∀ o ∈ s.plan.outputs, o.mapper = o.entity
  size : s'.workspace.files.size = apart s.workspace.files.size
  file : ∀ i, (s.workspace.file i).Alike id (s'.workspace.file (apart i))
  fresh : s.Fresh
  fresh' : s'.Fresh

namespace Apart

variable {p : Project} {n : Naming} {overwrite : Bool} {onDisk onDisk' : Path → Bool} {s s' t t' : State} {c : ClassId}

theorem output? (h : Apart s s') (origin : FileId) : s'.plan.output? origin = (s.plan.output? origin).map outputApart := by
  rw [Plan.output?, h.outputs, List.find?_map]
  rfl

theorem create (h : Apart s s') (path : Path) (package : String) :
    let w := s.workspace.create path package .entity
    ∀ path', let w' := (s'.workspace.create path package .entity).create path' package .mapper
      w'.files.size = apart w.files.size ∧ ∀ i, (w.file i).Alike id (w'.file (apart i)) := by
  intro w path' w'
  have hsize := h.size
  refine ⟨by simp only [w, w', Workspace.size_create, hsize, apart]; omega, fun i => ?_⟩
  simp only [w, w', Workspace.file_create, Workspace.size_create, hsize]
  rw [if_neg (apart_ne i _)]
  by_cases hi : i = s.workspace.files.size
  · rw [if_pos hi, if_pos (congrArg apart hi)]
    exact ⟨rfl, rfl, rfl, rfl, rfl, rfl⟩
  · rw [if_neg hi, if_neg (mt (@apart_injective _ _) hi)]
    exact h.file i

theorem allocate (h : Apart s s') (ha : (Planner.mk p n .inlined overwrite onDisk).allocate c s = (t, none))
    (ha' : (Planner.mk p n .separate overwrite onDisk').allocate c s' = (t', none)) : Apart t t' := by
  unfold Planner.allocate at ha ha'
  dsimp only at ha ha'
  rw [h.output?, Option.isSome_map] at ha'
  split at ha
  next hplanned =>
    rw [if_pos hplanned] at ha'
    cases ha
    cases ha'
    exact h
  next hplanned =>
    rw [if_neg hplanned] at ha'
    split at ha
    · cases ha
    next s₁ entity hreserve =>
      obtain ⟨rfl, rfl⟩ := reserve_ok h.fresh hreserve
      cases ha
      split at ha'
      · cases ha'
      next s₁' entity' hreserve' =>
        obtain ⟨rfl, rfl⟩ := reserve_ok h.fresh' hreserve'
        split at ha'
        · cases ha'
        next s₂' mapper' hreserve₂' =>
          obtain ⟨rfl, rfl⟩ := reserve_ok (h.fresh'.creating _ _ _) hreserve₂'
          cases ha'
          obtain ⟨hsize, hfile⟩ := h.create _ _ _
          exact {
            outputs := by
              simp only [record, State.creating, h.outputs, List.map_append, List.map_singleton, outputApart,
                Workspace.size_create, h.size]
            inlined := by
              intro o ho
              rcases List.mem_append.mp ho with ho | ho
              · exact h.inlined o ho
              · rw [List.mem_singleton.mp ho]
            size := hsize
            file := hfile
            fresh := h.fresh.creating _ _ _
            fresh' := (h.fresh'.creating _ _ _).creating _ _ _ }

theorem allocateAll (h : Apart s s') {cs : List ClassId}
    (ha : (Planner.mk p n .inlined overwrite onDisk).allocateAll cs s = (t, none))
    (ha' : (Planner.mk p n .separate overwrite onDisk').allocateAll cs s' = (t', none)) : Apart t t' := by
  induction cs generalizing s s' with
  | nil =>
    cases ha
    cases ha'
    exact h
  | cons c cs ih =>
    rw [Planner.allocateAll] at ha ha'
    split at ha
    · cases ha
    next h₁ =>
      split at ha'
      · cases ha'
      next h₁' => exact ih (h.allocate h₁ h₁') ha ha'

theorem entityFile? (h : Apart s s') (origin : FileId) :
    s'.plan.entityFile? origin = (s.plan.entityFile? origin).map apart := by
  rw [Plan.entityFile?, h.output?, Plan.entityFile?, Option.map_map, Option.map_map]
  rfl

theorem alike (h : Apart s s') : s.workspace.Alike id apart s'.workspace where
  injective := apart_injective
  size i := by
    rw [h.size]
    exact Nat.mul_lt_mul_left Nat.two_pos
  file := h.file

/-! ## The files of the functions -/

/-- Inline functions go into the file of their counterpart. -/
theorem fileOf_inlined (h : Apart s s') (r : Ref) : Mapper.Setting.fileOf s.plan r = r.file := by
  rw [Mapper.Setting.fileOf, Plan.mapperFile?]
  cases hfind : s.plan.outputs.find? fun o => o.entity == r.file with
  | none => rfl
  | some o =>
    have hentity : o.entity = r.file := by simpa using List.find?_some hfind
    exact (h.inlined o (List.mem_of_find?_eq_some hfind)).trans hentity

/-- Functions in files of their own go into the one after that of their counterpart. -/
theorem fileOf_separate (h : Apart s s') {r : Ref} {origin : FileId} (hr : s.plan.entityFile? origin = some r.file) :
    Mapper.Setting.fileOf s'.plan (r.renumber apart) = apart r.file + 1 := by
  obtain ⟨o, ho, hentity⟩ := Option.map_eq_some_iff.mp hr
  have hmem : outputApart o ∈ s'.plan.outputs := by
    rw [h.outputs]
    exact List.mem_map_of_mem (List.mem_of_find?_eq_some ho)
  rw [Mapper.Setting.fileOf, Plan.mapperFile?]
  cases hfind : s'.plan.outputs.find? fun o => o.entity == (r.renumber apart).file with
  | none => simpa [outputApart, hentity, Ref.renumber] using List.find?_eq_none.mp hfind _ hmem
  | some o' =>
    have hentity' : o'.entity = apart r.file := by simpa [Ref.renumber] using List.find?_some hfind
    have hmem' := List.mem_of_find?_eq_some hfind
    rw [h.outputs] at hmem'
    obtain ⟨o₁, -, rfl⟩ := List.mem_map.mp hmem'
    exact congrArg (· + 1) hentity'

end Apart

theorem run_ok {pl : Planner} {w : Workspace} {plan : Plan} (h : pl.run .empty = (w, .ok plan)) :
    ∃ s, pl.allocateAll (pl.project.reachable pl.naming.root) ⟨.empty, [], .empty⟩ = (s, none) ∧ s.plan = plan ∧
      s.workspace = w := by
  unfold run at h
  split at h
  · cases h
  next s hs =>
    cases h
    exact ⟨s, hs, rfl, rfl⟩

/-- **Plans that differ in the placement** put the counterparts into the same files but for the numbers. -/
theorem apart_of_run {p : Project} {n : Naming} {overwrite : Bool} {onDisk onDisk' : Path → Bool} {w w' : Workspace}
    {plan plan' : Plan} (h : (Planner.mk p n .inlined overwrite onDisk).run .empty = (w, .ok plan))
    (h' : (Planner.mk p n .separate overwrite onDisk').run .empty = (w', .ok plan')) :
    ∃ s s', Apart s s' ∧ s.plan = plan ∧ s.workspace = w ∧ s'.plan = plan' ∧ s'.workspace = w' := by
  obtain ⟨s, hs, hplan, hw⟩ := run_ok h
  obtain ⟨s', hs', hplan', hw'⟩ := run_ok h'
  have hstart : Apart ⟨.empty, [], .empty⟩ ⟨.empty, [], .empty⟩ := {
    outputs := rfl
    inlined := nofun
    size := rfl
    file := fun _ => ⟨rfl, rfl, rfl, rfl, rfl, rfl⟩
    fresh := nofun
    fresh' := nofun }
  exact ⟨s, s', hstart.allocateAll hs hs', hplan, hw, hplan', hw'⟩

end Planner

/-! ## Outputs -/

/-- The outputs `a` and `b` of one source file hold the same, but `b` has the functions in a file of their own. -/
structure PlannedOutput.Parted (ρ : OutputId → OutputId) (w w' : Workspace) (a b : PlannedOutput) : Prop where
  entity : b.entity = ρ a.entity
  inlined : a.mapper = a.entity
  separate : b.mapper ≠ b.entity
  declarations : (w'.file b.entity).declarations = (w.file a.entity).declarations
  functions : (w'.file b.mapper).functions = (w.file a.entity).functions
  none : (w'.file b.entity).functions = []

namespace Planner.Apart

open Mapper Mapper.Setting

variable {s s' : State} {ds : List Draft}

/-- All functions are for counterparts in planned files. -/
def Planned (plan : Plan) (ds : List Draft) : Prop := ∀ d ∈ ds, ∃ origin, plan.entityFile? origin = some d.target.file

/-- The functions of a file of counterparts go into the file after it. -/
theorem destined_separate (h : Apart s s') (hds : Planned s.plan ds) (i : OutputId) :
    destined s'.plan (apart i + 1) (ds.map (Draft.renumber id apart)) =
      (destined s.plan i ds).map (Draft.renumber id apart) := by
  rw [destined, destined, List.filter_map]
  refine congrArg _ (List.filter_congr fun d hd => ?_)
  obtain ⟨origin, horigin⟩ := hds d hd
  rw [h.fileOf_inlined, Bool.eq_iff_iff, beq_iff_eq, Function.comp_apply, beq_iff_eq]
  exact (iff_of_eq (congrArg (· = apart i + 1) (h.fileOf_separate horigin))).trans
    (Nat.succ_inj.trans apart_injective.eq_iff)

/-- No functions go into the files of counterparts. -/
theorem destined_entity (h : Apart s s') (hds : Planned s.plan ds) (i : OutputId) :
    destined s'.plan (apart i) (ds.map (Draft.renumber id apart)) = [] := by
  rw [destined, List.filter_eq_nil_iff]
  intro d hd
  obtain ⟨e, he, rfl⟩ := List.mem_map.mp hd
  obtain ⟨origin, horigin⟩ := hds e he
  rw [beq_iff_eq]
  exact fun hfile => apart_ne i e.target.file (hfile.symm.trans (h.fileOf_separate horigin))

/-- With the functions put into their files, the outputs of a source file hold the same. -/
theorem parted (h : Apart s s') (hds : Planned s.plan ds) {w w' : Workspace} (hw : w.Alike id apart w')
    (hblank : ∀ i, (w.file i).functions = []) (hblank' : ∀ i, (w'.file i).functions = []) {o : PlannedOutput}
    (ho : o ∈ s.plan.outputs) (hlt : o.entity < w.files.size) (hlt' : (outputApart o).mapper < w'.files.size) :
    PlannedOutput.Parted apart (afterDrafts s.plan ⟨w, []⟩ ds).workspace
      (afterDrafts s'.plan ⟨w', []⟩ (ds.map (Draft.renumber id apart))).workspace o (outputApart o) where
  entity := rfl
  inlined := h.inlined o ho
  separate := (apart_ne _ _).symm
  declarations := by
    have hentity : (outputApart o).entity < w'.files.size := Nat.lt_of_succ_lt hlt'
    rw [file_afterDrafts (s := ⟨w, []⟩) hlt, file_afterDrafts (s := ⟨w', []⟩) hentity]
    refine (hw.file o.entity).declarations.trans ?_
    rw [show Declaration.renumber id = id from funext Declaration.renumber_id, List.map_id]
  functions := by
    rw [file_afterDrafts (s := ⟨w, []⟩) hlt, file_afterDrafts (s := ⟨w', []⟩) hlt', outputApart, h.destined_separate hds, List.map_map]
    simp only [hblank, hblank', List.nil_append]
    rfl
  none := by
    have hentity : (outputApart o).entity < w'.files.size := Nat.lt_of_succ_lt hlt'
    rw [file_afterDrafts (s := ⟨w', []⟩) hentity, outputApart, h.destined_entity hds]
    simp only [hblank', List.map_nil, List.nil_append]

end Planner.Apart

/-! ## Runs -/

/-- The generation `g'` differs from `g` in that its functions are in files of their own, and in the numbers of the files,
which `ρ` gives for those of the counterparts. -/
structure Generation.Parted (ρ : OutputId → OutputId) (g g' : Generation) : Prop where
  table : ∃ t, g.table = some t ∧ g'.table = some (t.renumber id ρ)
  root : ∃ r, g.root = some r ∧ g'.root = some (r.renumber ρ)
  outputs : ∃ plan plan', g.plan = some plan ∧ g'.plan = some plan' ∧
    ∀ origin, Option.Rel (PlannedOutput.Parted ρ g.workspace g'.workspace) (plan.output? origin) (plan'.output? origin)
  diagnostics : g'.diagnostics = g.diagnostics

namespace Hooks

open Entity Mapper

variable {σ σ' : Type} {h : Hooks σ} {h' : Hooks σ'} {s t : σ} {s' t' : σ'} {p : Project} {o : Options} {g g' : Generation}

/-- **Where the functions go** is all that the placement changes. -/
theorem placements_agree (hrun : h.run [] p { o with placement := .inlined } s = (t, .ok g))
    (hrun' : h'.run [] p { o with placement := .separate } s' = (t', .ok g')) :
    ∃ ρ, Function.Injective ρ ∧ g.Parted ρ g' := by
  obtain ⟨n, plan, w, w₁, r, ms, hst⟩ := stages_of_run hrun
  obtain ⟨n', plan', w', w₁', r', ms', hst'⟩ := stages_of_run hrun'
  obtain rfl : n' = n := by
    have hroot : n'.root = n.root := Except.ok.inj (hst'.selected.symm.trans hst.selected)
    have hnamed := hst'.named
    rw [hroot] at hnamed
    exact Except.ok.inj (hnamed.symm.trans hst.named)
  obtain ⟨onDisk, hplan⟩ := hst.planned
  obtain ⟨onDisk', hplan'⟩ := hst'.planned
  obtain ⟨pl, pl', hapart, rfl, rfl, rfl, rfl⟩ := Planner.apart_of_run hplan hplan'
  -- the counterparts
  have hgen : (Generator.mk p pl.plan n').Renumbered id Planner.apart (fun _ => True) (Generator.mk p pl'.plan n') :=
    ⟨p.renumbered_id, rfl, fun c _ => hapart.entityFile? _⟩
  obtain ⟨hw₁, hr⟩ := hgen.run trivial hapart.alike
  rw [hst.entities, hst'.entities] at hw₁ hr
  obtain ⟨_, hr', hroot, htable, hdiagnostics⟩ := hr.of_ok
  cases hr'
  -- the functions
  have hset : (Setting.mk p n' r.table).Renumbered id Planner.apart (fun _ => True) (Setting.mk p n' r'.table) :=
    ⟨p.renumbered_id, rfl, htable⟩
  have hdrafts := hset.allDrafts trivial
  obtain ⟨hwork, hms⟩ := Setting.run_ok hst.functions
  obtain ⟨hwork', hms'⟩ := Setting.run_ok hst'.functions
  rw [hdrafts] at hwork' hms'
  have hds : Planner.Apart.Planned pl.plan (Setting.mk p n' r.table).allDrafts.1 := by
    intro d hd
    obtain ⟨c, target, htarget, rfl⟩ := Setting.exists_of_mem_drafts hd
    rw [Setting.target_draft]
    exact hst.complete.arranged.exists_entityFile? htarget
  refine ⟨Planner.apart, Planner.apart_injective, {
    table := ⟨r.table, hst.table, htable ▸ hst'.table⟩
    root := ⟨r.root, hst.root, hroot ▸ hst'.root⟩
    outputs := ⟨pl.plan, pl'.plan, hst.plan, hst'.plan, fun origin => ?_⟩
    diagnostics := ?_ }⟩
  · rw [hapart.output?]
    cases ho : pl.plan.output? origin with
    | none => exact .none
    | some out =>
      have hmem := List.mem_of_find?_eq_some ho
      have hmem' : Planner.outputApart out ∈ pl'.plan.outputs := hapart.outputs ▸ List.mem_map_of_mem hmem
      refine .some (hwork ▸ hwork' ▸ hapart.parted hds hw₁ hst.functions_eq_nil hst'.functions_eq_nil hmem ?_ ?_)
      · rw [hst.complete.same.size]
        exact (Planner.run_planned hplan).entity_lt out hmem
      · rw [hst'.complete.same.size]
        exact (Planner.run_planned hplan').mapper_lt _ hmem'
  · rw [hst.diagnostics, hst'.diagnostics, hdiagnostics, hms, hms', Setting.diagnostics_afterDrafts,
      Setting.diagnostics_afterDrafts, List.flatMap_map]
    rfl

end Hooks

/-- A class with an enum inside and a list of a class in another package. -/
def acrossProject : Project :=
  (Project.empty.addSource "a/R.kt"
    "package a\nimport b.B\ndata class R(val e: E, val bs: List<B>, val n: Int = 0) \x7b enum class E \x7b X, Y \x7d \x7d").addSource
    "b/B.kt" "package b\nimport a.R\ndata class B(val r: R?)"

theorem placements_agree_acrossProject :
    ∃ g g', (Hooks.none fun _ => false).run [] acrossProject { Options.ofClass "R" with placement := .inlined } () =
        ((), .ok g) ∧
      (Hooks.none fun _ => false).run [] acrossProject { Options.ofClass "R" with placement := .separate } () =
        ((), .ok g') ∧
      g.workspace.files.size = 2 ∧ g'.workspace.files.size = 4 ∧ g.workspace.functions.length = 3 ∧
      g.diagnostics ≠ [] ∧ ∃ ρ, Function.Injective ρ ∧ g.Parted ρ g' := by
  have hrun : (((Hooks.none fun _ => false).run [] acrossProject { Options.ofClass "R" with placement := .inlined }
      ()).2.toOption.map fun g => (g.workspace.files.size, g.workspace.functions.length, g.diagnostics.length)) =
      some (2, 3, 1) := by
    decide +kernel
  have hrun' : (((Hooks.none fun _ => false).run [] acrossProject { Options.ofClass "R" with placement := .separate }
      ()).2.toOption.map fun g => g.workspace.files.size) = some 4 := by
    decide +kernel
  obtain ⟨g, hg, hresult⟩ := Option.map_eq_some_iff.mp hrun
  obtain ⟨g', hg', hsize'⟩ := Option.map_eq_some_iff.mp hrun'
  obtain ⟨hsize, hlength, hmessages⟩ := Prod.mk.inj hresult |>.imp_right Prod.mk.inj
  refine ⟨g, g', eq_ok_of_toOption hg, eq_ok_of_toOption hg', hsize, hsize', hlength, ?_,
    Hooks.placements_agree (eq_ok_of_toOption hg) (eq_ok_of_toOption hg')⟩
  rintro hnil
  rw [hnil] at hmessages
  cases hmessages

end Counterpart
