/-
What the files of a run import in the end: what the counterparts in them have a reason for, and what the functions in them want
(`Generation.Stages.imports_iff`). Functions in files of their own have no counterparts beside them, so a name that they keep as
written can rely on what they want themselves and on nothing else (`Hooks.keptNames_shown_iff`).
-/
import Counterpart.Proofs.Allocation
import Counterpart.Proofs.Drafts
import Counterpart.Proofs.FunctionImports
import Counterpart.Proofs.Imported
import Counterpart.Proofs.Stages

namespace Counterpart

open Kotlin Output

/-! ## Imports of functions -/

theorem Output.ImportSet.hasSymbol_foldl_addReference {names : List String} {package a b : String} {i : ImportSet} :
    (names.foldl (fun s name => s.addReference name package) i).hasSymbol a b = true ↔
      (∃ name ∈ names, NeedsImport name package ∧ (a, b) = entryOfName name) ∨ i.hasSymbol a b = true := by
  induction names generalizing i with
  | nil => simp
  | cons name names ih =>
    rw [List.foldl_cons, ih, hasSymbol_addReference, List.exists_mem_cons_iff, or_left_comm, or_assoc]

/-- Functions bring what they want to their file. -/
theorem Mapper.Setting.imports_afterDrafts {plan : Plan} {s : State} {i : OutputId} (hi : i < s.workspace.files.size)
    (ds : List Draft) {e : String × String} :
    (afterDrafts plan s ds).workspace.Imports i e ↔
      (∃ d ∈ destined plan i ds, ∃ name ∈ d.imports, NeedsImport name (s.workspace.file i).package ∧ e = entryOfName name) ∨
        s.workspace.Imports i e := by
  rw [Workspace.Imports, file_afterDrafts hi, ImportSet.hasSymbol_foldl_addReference]
  simp only [List.mem_flatMap]
  refine or_congr_left ?_
  constructor
  · rintro ⟨name, ⟨d, hd, hname⟩, hneeds⟩
    exact ⟨d, hd, name, hname, hneeds⟩
  · rintro ⟨d, hd, name, hname, hneeds⟩
    exact ⟨name, ⟨d, hd, hname⟩, hneeds⟩

/-! ## Imports of files -/

namespace Generation

/-- A counterpart or a function in the file is a reason for the import. -/
def Reason (g : Generation) (p : Project) (n : Naming) (plan : Plan) (t : Entity.Table) (i : OutputId) (e : String × String) :
    Prop :=
  (Entity.Generator.mk p plan n).Reason t i (g.workspace.file i).package e ∨
    ∃ fn ∈ (g.workspace.file i).functions, ∃ name, (Mapper.Setting.mk p n t).Wants fn.source name ∧
      NeedsImport name (g.workspace.file i).package ∧ e = entryOfName name

namespace Stages

open Mapper Mapper.Setting

variable {g : Generation} {p : Project} {o : Options} {n : Naming} {plan : Plan} {w w₁ : Workspace}
  {r : Entity.Generator.Result} {ms : List Diagnostic} {i : OutputId} {e : String × String}

theorem size_eq (h : g.Stages p o n plan w w₁ r ms) : g.workspace.files.size = w₁.files.size := by
  rw [(run_ok h.functions).1, size_afterDrafts]

/-- A file ends with the functions that are destined for it. -/
theorem functions_file (h : g.Stages p o n plan w w₁ r ms) (hi : i < g.workspace.files.size) :
    (g.workspace.file i).functions = (destined plan i (Setting.mk p n r.table).allDrafts.1).map (·.function) := by
  rw [h.size_eq] at hi
  rw [(run_ok h.functions).1, file_afterDrafts (s := ⟨w₁, []⟩) hi]
  simp only [h.functions_eq_nil, List.nil_append]

theorem package_file (h : g.Stages p o n plan w w₁ r ms) (hi : i < g.workspace.files.size) :
    (g.workspace.file i).package = (w₁.file i).package := by
  rw [h.size_eq] at hi
  rw [(run_ok h.functions).1, file_afterDrafts (s := ⟨w₁, []⟩) hi]

/-- **A file imports** what a counterpart or a function in it is a reason for, and nothing else. -/
theorem imports_iff (h : g.Stages p o n plan w w₁ r ms) (hi : i < g.workspace.files.size) :
    g.workspace.Imports i e ↔ g.Reason p n plan r.table i e := by
  obtain ⟨onDisk, hplan⟩ := h.planned
  have hroot : n.root < p.classes.size := Project.lt_size_of_isSupported h.supported
  have hcover := Entity.covered_of_planned (g := ⟨p, plan, n⟩) hroot (Planner.run_planned hplan)
  have hentities := Entity.Generator.imports_run (g := ⟨p, plan, n⟩) hroot hcover (Planner.not_imports_run hplan) h.entities i e
  rw [Reason, h.package_file hi, h.functions_file hi, h.complete.same.package, ← hentities, (run_ok h.functions).1,
    imports_afterDrafts (s := ⟨w₁, []⟩) (h.size_eq ▸ hi), or_comm]
  refine or_congr_right ?_
  have hsource : ∀ d ∈ destined plan i (Setting.mk p n r.table).allDrafts.1, ∀ name,
      name ∈ d.imports ↔ (Setting.mk p n r.table).Wants d.function.source name := by
    intro d hd name
    obtain ⟨c, target, -, rfl⟩ := exists_of_mem_drafts (List.mem_of_mem_filter hd)
    rw [source_function, mem_imports_draft]
  rw [h.complete.same.package]
  constructor
  · rintro ⟨d, hd, name, hname, hneeds⟩
    exact ⟨d.function, List.mem_map_of_mem hd, name, (hsource d hd name).mp hname, hneeds⟩
  · rintro ⟨fn, hfn, name, hname, hneeds⟩
    obtain ⟨d, hd, rfl⟩ := List.mem_map.mp hfn
    exact ⟨d, hd, name, (hsource d hd name).mpr hname, hneeds⟩

/-- Files of functions are no files of counterparts when they are separate. -/
theorem file_ne_mapper (h : g.Stages p o n plan w w₁ r ms) (ho : o.placement = .separate) {out : PlannedOutput}
    (hout : out ∈ plan.outputs) {c : ClassId} {target : Ref} (ht : r.table.ref? c = some target) :
    target.file ≠ out.mapper := by
  obtain ⟨onDisk, hplan⟩ := h.planned
  have hroles := Planner.roles_of_run ho hplan
  obtain ⟨origin, horigin⟩ := h.complete.arranged.exists_entityFile? ht
  obtain ⟨out', hout', hentity⟩ := Option.map_eq_some_iff.mp horigin
  intro heq
  have hrole := (hroles out' (List.mem_of_find?_eq_some hout')).entity
  rw [hentity, heq, (hroles out hout).mapper] at hrole
  cases hrole

/-- Every function is that of a class with a counterpart, in the file of functions that goes with the counterpart. -/
theorem exists_output (h : g.Stages p o n plan w w₁ r ms) {fn : Function} (hfn : fn ∈ g.workspace.functions) :
    ∃ c target, fn = ((Setting.mk p n r.table).draft c target).function ∧ ∃ out ∈ plan.outputs,
      fn ∈ (g.workspace.file out.mapper).functions := by
  obtain ⟨file, hfile, hfn⟩ := List.mem_flatMap.mp hfn
  obtain ⟨i, hi, rfl⟩ := Array.getElem_of_mem (Array.mem_def.mpr hfile)
  rw [show g.workspace.files[i] = g.workspace.file i by simp [Workspace.file, hi]] at hfn
  have hdestined := hfn
  rw [h.functions_file hi] at hdestined
  obtain ⟨d, hd, rfl⟩ := List.mem_map.mp hdestined
  obtain ⟨hd, hfile⟩ := List.mem_filter.mp hd
  obtain ⟨c, target, htarget, rfl⟩ := exists_of_mem_drafts hd
  refine ⟨c, target, rfl, ?_⟩
  obtain ⟨origin, horigin⟩ := h.complete.arranged.exists_entityFile? htarget
  obtain ⟨out, hout, hentity⟩ := Option.map_eq_some_iff.mp horigin
  have hsome : (plan.outputs.find? fun out => out.entity == target.file).isSome = true :=
    List.find?_isSome.mpr ⟨out, List.mem_of_find?_eq_some hout, beq_iff_eq.mpr hentity⟩
  obtain ⟨out', hout'⟩ := Option.isSome_iff_exists.mp hsome
  rw [target_draft, fileOf, Plan.mapperFile?, hout', beq_iff_eq] at hfile
  obtain rfl : out'.mapper = i := hfile
  exact ⟨out', List.mem_of_find?_eq_some hout', hfn⟩

/-- **A file of functions** imports what the functions in it want, and nothing else. -/
theorem imports_mapper_iff (h : g.Stages p o n plan w w₁ r ms) (ho : o.placement = .separate) {out : PlannedOutput}
    (hout : out ∈ plan.outputs) :
    g.workspace.Imports out.mapper e ↔ ∃ fn ∈ (g.workspace.file out.mapper).functions, ∃ name,
      (Setting.mk p n r.table).Wants fn.source name ∧ NeedsImport name (g.workspace.file out.mapper).package ∧
        e = entryOfName name := by
  obtain ⟨onDisk, hplan⟩ := h.planned
  have hlt : out.mapper < g.workspace.files.size := by
    rw [h.size_eq, h.complete.same.size]
    exact (Planner.run_planned hplan).mapper_lt out hout
  rw [h.imports_iff hlt, Reason, or_iff_right]
  rintro ⟨c, target, ht, hfile, -⟩
  exact h.file_ne_mapper ho hout ht hfile

end Stages

end Generation

/-! ## Names that are shown -/

namespace Output

/-- An import makes a name visible for what has the path: under its own name, under an alias, or with its whole package. -/
inductive Shows : String × String → (name path : String) → Prop
  | plain (package name : String) : Shows (package, name) name (Name.inPackage package name)
  | renamed (package original name : String) :
    Shows (package, original ++ " as " ++ name) name (Name.inPackage package original)
  | star (package name : String) : Shows (package, "*") name (Name.inPackage package name)

/-- The imports of a file make a name visible for what has the path. -/
def File.Shows (f : File) (name path : String) : Prop :=
  ∃ e : String × String, f.imports.hasSymbol e.1 e.2 = true ∧ Output.Shows e name path

end Output

/-- `P` holds of every name that a function keeps as written and that the file of the counterparts shows for something from
elsewhere: it is given the outputs that the function is in, the name, and the path that the name stands for. The text with the
name stands in the function. -/
def Generation.ForKeptNames (g : Generation) (p : Project)
    (P : Mapper.Setting → PlannedOutput → (name path : String) → Prop) : Prop :=
  ∃ n plan t, g.naming = some n ∧ g.plan = some plan ∧ g.table = some t ∧ ∀ fn ∈ g.workspace.functions,
    ∃ out ∈ plan.outputs, fn ∈ (g.workspace.file out.mapper).functions ∧ ∀ text, Mapper.Setting.Keeps ⟨p, n, t⟩ fn.source text →
      (∃ s ∈ fn.typeTexts, Entity.Within text s) ∧ ∀ name path, Code.mentions text name = true →
        name ∉ (TypeParams.ofOption (p.decl fn.source).typeParams).names →
        NeedsImport path (g.workspace.file out.mapper).package → (g.workspace.file out.entity).Shows name path →
        P ⟨p, n, t⟩ out name path

/-- **Names in the functions of a run that succeeds**, with functions in files of their own: a name that is kept as written is
shown in the file of the function for the path exactly when a function in that file wants the path imported under this name. -/
theorem Hooks.keptNames_shown_iff {σ : Type} {h : Hooks σ} {p : Project} {o : Options} {s s' : σ} {g : Generation}
    (ho : o.placement = .separate) (hrun : h.run [] p o s = (s', .ok g)) :
    g.ForKeptNames p fun setting out name path =>
      (g.workspace.file out.mapper).Shows name path ↔ ∃ fn ∈ (g.workspace.file out.mapper).functions, ∃ q,
        setting.Wants fn.source q ∧ NeedsImport q (g.workspace.file out.mapper).package ∧ Shows (entryOfName q) name path := by
  obtain ⟨n, plan, w, w₁, r, ms, hst⟩ := stages_of_run hrun
  refine ⟨n, plan, r.table, hst.naming, hst.plan, hst.table, fun fn hfn => ?_⟩
  obtain ⟨c, target, hdraft, out, hout, hfn⟩ := hst.exists_output hfn
  refine ⟨out, hout, hfn, fun text hkeeps => ⟨?_, fun name path _ _ _ _ => ?_⟩⟩
  · rw [hdraft, Mapper.Setting.source_function] at hkeeps
    exact hdraft ▸ hkeeps.within target
  · constructor
    · rintro ⟨e, he, hshows⟩
      obtain ⟨fn', hfn', q, hwants, hneeds, rfl⟩ := (hst.imports_mapper_iff ho hout).mp he
      exact ⟨fn', hfn', q, hwants, hneeds, hshows⟩
    · rintro ⟨fn', hfn', q, hwants, hneeds, hshows⟩
      exact ⟨_, (hst.imports_mapper_iff ho hout).mpr ⟨fn', hfn', q, hwants, hneeds, rfl⟩, hshows⟩

/-- A class with a bound from elsewhere and a map that is rebuilt with a key from elsewhere. -/
def boundedProject : Project :=
  Project.empty.addSource "demo/R.kt" ("package demo\nimport lib.Key\nimport lib.Other\n" ++
    "data class R<T : Other>(val x: T, val m: Map<Key, A>)\ndata class A(val n: Int)")

theorem typeParams_boundedProject : (boundedProject.decl 0).typeParams = some "<T : Other>" := by decide +kernel

/-- The file of the functions imports the key and not the bound. -/
theorem bounded_generated :
    ∃ g n plan t, (Hooks.none fun _ => false).run [] boundedProject { Options.ofClass "R" with placement := .separate } () =
        ((), .ok g) ∧ g.naming = some n ∧ g.plan = some plan ∧ g.table = some t ∧ plan.outputs = [⟨0, 0, 1⟩] ∧
      g.workspace.functions.map (·.source) = [0, 1] ∧ (g.workspace.file 1).package = "demo" ∧
      (g.workspace.file 0).imports.groups = [("lib", ["Key", "Other"])] ∧
      (g.workspace.file 1).imports.groups = [("lib", ["Key"])] := by
  have hresult : (((Hooks.none fun _ => false).run [] boundedProject
      { Options.ofClass "R" with placement := .separate } ()).2.toOption.bind fun g =>
        g.naming.bind fun _ => g.plan.bind fun plan => g.table.map fun _ =>
          plan.outputs == [⟨0, 0, 1⟩] && g.workspace.functions.map (·.source) == [0, 1] &&
          (g.workspace.file 1).package == "demo" && (g.workspace.file 0).imports.groups == [("lib", ["Key", "Other"])] &&
          (g.workspace.file 1).imports.groups == [("lib", ["Key"])]) = some true := by
    decide +kernel
  obtain ⟨g, hg, hresult⟩ := Option.bind_eq_some_iff.mp hresult
  obtain ⟨n, hn, hresult⟩ := Option.bind_eq_some_iff.mp hresult
  obtain ⟨plan, hplan, hresult⟩ := Option.bind_eq_some_iff.mp hresult
  obtain ⟨t, ht, hresult⟩ := Option.map_eq_some_iff.mp hresult
  simp only [Bool.and_eq_true, beq_iff_eq] at hresult
  obtain ⟨⟨⟨⟨houtputs, hfunctions⟩, hpackage⟩, hentity⟩, hmapper⟩ := hresult
  exact ⟨g, n, plan, t, eq_ok_of_toOption hg, hn, hplan, ht, houtputs, hfunctions, hpackage, hentity, hmapper⟩

theorem keptNames_shown_iff_boundedProject :
    ∃ g, (Hooks.none fun _ => false).run [] boundedProject { Options.ofClass "R" with placement := .separate } () =
        ((), .ok g) ∧
      g.ForKeptNames boundedProject fun setting out name path =>
        (g.workspace.file out.mapper).Shows name path ↔ ∃ fn ∈ (g.workspace.file out.mapper).functions, ∃ q,
          setting.Wants fn.source q ∧ NeedsImport q (g.workspace.file out.mapper).package ∧
            Shows (entryOfName q) name path := by
  obtain ⟨g, _, _, _, hg, _⟩ := bounded_generated
  exact ⟨g, hg, Hooks.keptNames_shown_iff rfl hg⟩

theorem Output.not_shows_key {path : String} : ¬ Shows ("lib", "Key") "Other" path := by
  generalize hsymbol : "Key" = symbol
  generalize hname : "Other" = name
  intro h
  cases h with
  | plain => exact absurd (hsymbol.trans hname.symm) (by decide)
  | renamed _ original =>
    have hblank : ' ' ∈ "Key".toList := by
      rw [hsymbol, String.toList_append, String.toList_append]
      simp
    exact absurd hblank (by decide)
  | star => exact absurd hsymbol (by decide)

/-- The bound is kept as written, and nothing in the file of the functions makes it visible. -/
theorem bound_not_shown :
    ∃ g, (Hooks.none fun _ => false).run [] boundedProject { Options.ofClass "R" with placement := .separate } () =
        ((), .ok g) ∧
      ¬ g.ForKeptNames boundedProject fun _ out name path => (g.workspace.file out.mapper).Shows name path := by
  obtain ⟨g, n, plan, t, hg, hn, hplan, ht, houtputs, hfunctions, hpackage, hentity, hmapper⟩ := bounded_generated
  refine ⟨g, hg, fun ⟨n', plan', t', hn', hplan', ht', hall⟩ => ?_⟩
  cases hplan.symm.trans hplan'
  obtain ⟨fn, hfn, hsource⟩ := List.mem_map.mp (hfunctions ▸ List.mem_cons_self : 0 ∈ g.workspace.functions.map (·.source))
  obtain ⟨out, hout, -, hkept⟩ := hall fn hfn
  rw [houtputs, List.mem_singleton] at hout
  subst hout
  have hkeeps : Mapper.Setting.Keeps ⟨boundedProject, n', t'⟩ fn.source "Other" := by
    rw [hsource]
    have hparam : ⟨"T", some "Other"⟩ ∈ (TypeParams.ofOption (boundedProject.decl 0).typeParams).params := by
      rw [typeParams_boundedProject]
      decide +kernel
    exact .bound hparam rfl
  have hneeds : NeedsImport "lib.Other" (g.workspace.file 1).package := by
    rw [hpackage]
    exact ⟨by decide +kernel, by decide +kernel, by decide +kernel⟩
  have hshown : (g.workspace.file 0).Shows "Other" "lib.Other" := by
    refine ⟨("lib", "Other"), ?_, ?_⟩
    · exact ImportSet.hasSymbol_iff.mpr ⟨("lib", ["Key", "Other"]), hentity ▸ List.mem_cons_self, rfl, by simp⟩
    · have hpath : Name.inPackage "lib" "Other" = "lib.Other" := by decide +kernel
      exact hpath ▸ .plain "lib" "Other"
  have hparams : "Other" ∉ (TypeParams.ofOption (boundedProject.decl fn.source).typeParams).names := by
    rw [hsource, typeParams_boundedProject]
    decide +kernel
  obtain ⟨e, he, hshows⟩ := (hkept "Other" hkeeps).2 "Other" "lib.Other" (by decide +kernel) hparams hneeds hshown
  obtain ⟨package, symbol⟩ := e
  obtain ⟨group, hgroup, rfl, hsymbol⟩ := ImportSet.hasSymbol_iff.mp he
  obtain rfl := List.mem_singleton.mp (hmapper ▸ hgroup)
  obtain rfl := List.mem_singleton.mp hsymbol
  exact not_shows_key hshows

end Counterpart
