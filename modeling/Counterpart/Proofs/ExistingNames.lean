/-
Warnings of names that are declared already. Before anything is generated the check for existing names looks at the classes
to come, and takes those for the top of a file that are the selected one or inside no other. A class inside another one can
come to the top too, when a third one names it first; so a declaration at the top whose name is taken is warned of exactly
when some class that the check looks at has a counterpart of that name (`Hooks.existingNames_warned_iff`).
-/
import Counterpart.Proofs.Stages
import Counterpart.Proofs.Warnings

namespace Counterpart

open Kotlin Output

/-! ## The message -/

/-- What the warning says of a name that the class `existing` has. -/
def Project.declaredMessage (p : Project) (name : String) (existing : ClassId) : String :=
  "'" ++ name ++ "' is already declared in " ++ (p.fileOf existing).path.text

/-- A run has warned that the name is declared already, in the file of the first class that has it. -/
def Generation.WarnsDeclared (g : Generation) (p : Project) (name : String) : Prop :=
  ∃ existing, p.find? name = some existing ∧ ∃ m ∈ g.diagnostics,
    m.isWarning = true ∧ m.phase = LintTarget.phaseName ∧ m.message = p.declaredMessage name existing

/-- No path of a source file has an apostrophe in it, so a warning says which name it is about. -/
def Project.PlainPaths (p : Project) : Prop := ∀ c, '\'' ∉ (p.fileOf c).path.text.toList

/-- What stands before the last mark of a kind. -/
theorem eq_of_append_cons {α : Type} {m : α} {as bs as' bs' : List α} (hb : m ∉ bs) (hb' : m ∉ bs')
    (h : as ++ m :: bs = as' ++ m :: bs') : as = as' := by
  rcases List.append_eq_append_iff.mp h with ⟨cs, rfl, hcs⟩ | ⟨cs, rfl, hcs⟩
  all_goals
    cases cs with
    | nil => simp
    | cons c cs =>
      have hmem : m ∈ cs ++ m :: bs' ∨ m ∈ cs ++ m :: bs := by simp
      simp_all

theorem Project.declaredMessage_injective {p : Project} (hp : p.PlainPaths) {name name' : String} {c d : ClassId}
    (h : p.declaredMessage name c = p.declaredMessage name' d) : name = name' := by
  have apostrophe : ∀ e, '\'' ∉ (" is already declared in " ++ (p.fileOf e).path.text).toList := by
    intro e
    rw [String.toList_append, List.mem_append, not_or]
    exact ⟨by decide, hp e⟩
  have cut : ∀ (name : String) e, (p.declaredMessage name e).toList =
      ("'" ++ name).toList ++ '\'' :: (" is already declared in " ++ (p.fileOf e).path.text).toList := by
    intro name e
    simp [declaredMessage, String.toList_append]
  have h := congrArg String.toList h
  rw [cut, cut] at h
  have h := eq_of_append_cons (apostrophe c) (apostrophe d) h
  rw [String.toList_append, String.toList_append] at h
  exact String.toList_injective (List.append_cancel_left h)

theorem Name.inPackage_injective {package name name' : String} (h : inPackage package name = inPackage package name') :
    name = name' := by
  unfold inPackage at h
  by_cases hp : package.isEmpty = true
  · rwa [if_pos hp, if_pos hp] at h
  · rw [if_neg hp, if_neg hp] at h
    have h := congrArg String.toList h
    simp only [String.toList_append] at h
    exact String.toList_injective (List.append_cancel_left h)

/-! ## Messages of the phases -/

namespace Entity.Generator

variable {g : Generator}

theorem phase_warn {s : State} {message location : String} (h : ∀ m ∈ s.diagnostics, m.phase = phaseName) :
    ∀ m ∈ (s.warn message location).diagnostics, m.phase = phaseName := by
  intro m hm
  rcases List.mem_append.mp hm with hm | hm
  · exact h m hm
  · rw [List.mem_singleton.mp hm]
    rfl

theorem phase_place {c : ClassId} {scope : Option Scope} {s s' : State} {new : List Step}
    (hp : g.place c scope s = .ok (s', new)) (h : ∀ m ∈ s.diagnostics, m.phase = phaseName) :
    ∀ m ∈ s'.diagnostics, m.phase = phaseName := by
  obtain ⟨place, -, ⟨-, -, message, rfl⟩ | ⟨-, target, w, -, -, rfl, rfl⟩⟩ := place_cases hp
  · exact phase_warn h
  · exact h

theorem phase_addField {sc : Scope} {f : Field} {s : State} (h : ∀ m ∈ s.diagnostics, m.phase = phaseName) :
    ∀ m ∈ (g.addField sc f s).diagnostics, m.phase = phaseName := by
  intro m hm
  rw [addField, diagnostics_foldl_warn] at hm
  rcases List.mem_append.mp hm with hm | hm
  · exact h m hm
  · obtain ⟨c, -, rfl⟩ := List.mem_map.mp hm
    rfl

theorem phase_finish {sc : Scope} {s s' : State} (hf : g.finish sc s = .ok s') (h : ∀ m ∈ s.diagnostics, m.phase = phaseName) :
    ∀ m ∈ s'.diagnostics, m.phase = phaseName := by
  obtain ⟨w, -, rfl | ⟨message, rfl⟩⟩ := finish_ok hf
  · exact h
  · exact phase_warn h

/-- The messages of the walk are all of its phase. -/
theorem phase_run {w w' : Workspace} {r : Result} (h : g.run w = (w', .ok r)) : ∀ m ∈ r.diagnostics, m.phase = phaseName := by
  have kept : g.Kept fun _ s _ => ∀ m ∈ s.diagnostics, m.phase = phaseName :=
    { place := fun _ hp h => phase_place hp h
      known := fun _ h => h
      field := fun h => phase_addField h
      finish := fun hf h => phase_finish hf h }
  simp only [run] at h
  split at h
  · cases h
  next s hwalk =>
    obtain ⟨-, hphase⟩ := kept.walk (by simp) hwalk
    simp only [Prod.mk.injEq] at h
    obtain ⟨-, h⟩ := h
    split at h
    · cases h
      exact hphase
    · cases h

end Entity.Generator

/-- The messages of the functions are all of their phase. -/
theorem Mapper.Setting.phase_run {g : Setting} {plan : Plan} {w w' : Workspace} {ms : List Diagnostic}
    (h : g.run plan w = (w', .ok ms)) : ∀ m ∈ ms, m.phase = phaseName := by
  intro m hm
  rw [(run_ok h).2, diagnostics_afterDrafts, List.nil_append] at hm
  obtain ⟨d, hd, hm⟩ := List.mem_flatMap.mp hm
  obtain ⟨c, r, -, rfl⟩ := exists_of_mem_drafts hd
  rw [draft] at hm
  by_cases henum : (g.project.decl c).isEnum = true
  · simp [henum] at hm
  · simp only [henum, Bool.false_eq_true, if_false, List.mem_flatMap, List.mem_map] at hm
    obtain ⟨_, -, o, -, rfl⟩ := hm
    rfl

/-! ## Runs -/

/-- Some class that the check for existing names looks at has a counterpart of this name: it is to be generated, and is the
selected class or inside no other. -/
def Naming.Foresees (n : Naming) (p : Project) (name : String) : Prop :=
  ∃ c ∈ p.reachable n.root, n.className p c = name ∧ (c = n.root ∨ (p.decl c).parent? = none)

namespace Generation.Stages

variable {g : Generation} {p : Project} {o : Options} {n : Naming} {plan : Plan} {w w₁ : Workspace}
  {r : Entity.Generator.Result} {ms : List Diagnostic}

/-- The warnings of the checks are about the names that they foresee. -/
theorem exists_existingName (h : g.Stages p o n plan w w₁ r ms) {m : Diagnostic} (hm : m ∈ g.diagnostics)
    (hwarning : m.isWarning = true) (hphase : m.phase = LintTarget.phaseName) :
    ∃ c ∈ p.reachable n.root, (LintTarget.mk p n (p.reachable n.root)).existingName? c = some m := by
  rw [h.diagnostics] at hm
  rcases List.mem_append.mp hm with hm | hm
  · rcases List.mem_append.mp hm with hm | hm
    · obtain ⟨lint, -, hm⟩ := List.mem_flatMap.mp hm
      cases lint with
      | existingName => exact List.mem_filterMap.mp hm
      | privateFields =>
        obtain ⟨c, -, hm⟩ := List.mem_flatMap.mp hm
        obtain ⟨f, -, rfl⟩ := List.mem_map.mp hm
        cases hwarning
      | defaultValues =>
        obtain ⟨c, -, hm⟩ := List.mem_filterMap.mp hm
        simp only [LintTarget.defaultValues?] at hm
        split at hm
        · cases hm
        · cases hm
          cases hwarning
    · rw [Entity.Generator.phase_run h.entities m hm] at hphase
      exact absurd hphase (by decide)
  · rw [Mapper.Setting.phase_run h.functions m hm] at hphase
    exact absurd hphase (by decide)

end Generation.Stages

theorem LintTarget.existingName?_eq_some {t : LintTarget} {c : ClassId} {m : Diagnostic} :
    t.existingName? c = some m ↔ (c = t.naming.root ∨ (t.project.decl c).parent? = none) ∧
      ∃ existing,
        t.project.find? (Name.inPackage (t.project.packageOf t.naming.root) (t.naming.className t.project c)) = some existing ∧
        m = .warning phaseName (t.project.declaredMessage
          (Name.inPackage (t.project.packageOf t.naming.root) (t.naming.className t.project c)) existing)
            (t.project.qualifiedName c) := by
  unfold existingName?
  by_cases htop : t.becomesTopLevel c = true
  · rw [if_pos htop]
    simp only [becomesTopLevel, Bool.or_eq_true, beq_iff_eq, Option.isNone_iff_eq_none] at htop
    simp only [Option.map_eq_some_iff, htop, true_and]
    exact ⟨fun ⟨e, he, hm⟩ => ⟨e, he, hm.symm⟩, fun ⟨e, he, hm⟩ => ⟨e, he, hm.symm⟩⟩
  · rw [if_neg htop]
    simp only [becomesTopLevel, Bool.or_eq_true, beq_iff_eq, Option.isNone_iff_eq_none] at htop
    simp [htop]

namespace Generation.Stages

variable {g : Generation} {p : Project} {o : Options} {n : Naming} {plan : Plan} {w w₁ : Workspace}
  {r : Entity.Generator.Result} {ms : List Diagnostic}

/-- **A taken name is warned of** when the check foresees that a counterpart has it. -/
theorem warnsDeclared (h : g.Stages p o n plan w w₁ r ms) {name : String} (hname : n.Foresees p name)
    (htaken : ∃ e < p.classes.size, p.qualifiedName e = Name.inPackage (p.packageOf n.root) name) :
    g.WarnsDeclared p (Name.inPackage (p.packageOf n.root) name) := by
  obtain ⟨c, hc, rfl, htop⟩ := hname
  obtain ⟨e, he, hqualified⟩ := htaken
  have hfind : (p.find? (Name.inPackage (p.packageOf n.root) (n.className p c))).isSome = true :=
    List.find?_isSome.mpr ⟨e, List.mem_range.mpr he, by rw [hqualified, beq_self_eq_true]⟩
  obtain ⟨existing, hexisting⟩ := Option.isSome_iff_exists.mp hfind
  refine ⟨existing, hexisting, .warning LintTarget.phaseName (p.declaredMessage _ existing) (p.qualifiedName c), ?_,
    rfl, rfl, rfl⟩
  rw [h.diagnostics]
  refine List.mem_append_left _ (List.mem_append_left _ (List.mem_flatMap.mpr ⟨.existingName, by decide, ?_⟩))
  exact List.mem_filterMap.mpr ⟨c, hc, LintTarget.existingName?_eq_some.mpr ⟨htop, existing, hexisting, rfl⟩⟩

/-- A name that is warned of was foreseen. -/
theorem foresees (h : g.Stages p o n plan w w₁ r ms) (hp : p.PlainPaths) {name : String}
    (hwarns : g.WarnsDeclared p (Name.inPackage (p.packageOf n.root) name)) : n.Foresees p name := by
  obtain ⟨existing, -, m, hm, hwarning, hphase, hmessage⟩ := hwarns
  obtain ⟨c, hc, hm⟩ := h.exists_existingName hm hwarning hphase
  obtain ⟨htop, existing', -, rfl⟩ := LintTarget.existingName?_eq_some.mp hm
  have hname := Project.declaredMessage_injective hp hmessage
  exact ⟨c, hc, Name.inPackage_injective hname, htop⟩

/-- What is at the top of a file is the counterpart of a class that was to be generated. -/
theorem topLevel_source (h : g.Stages p o n plan w w₁ r ms) {plan' : Plan} {t : Entity.Table} {cs : List ClassId}
    (hmade : g.Made p n plan' t cs) {i : OutputId} {d : Declaration} (hd : d ∈ (g.workspace.file i).declarations) :
    d.source ∈ p.reachable n.root ∧ n.className p d.source = d.name := by
  have hat : g.workspace.declaration? (.topLevel i d.name) = some d :=
    (Declaration.findIn?_eq_some_iff (hmade.arranged.distinct i).names).mpr ⟨hd, rfl⟩
  have href := hmade.ref?_iff.mpr ⟨d, hat, rfl⟩
  obtain rfl : r.table = t := Option.some.inj (h.table.symm.trans hmade.table)
  have hroot := Project.lt_size_of_isSupported h.supported
  have hcontains := Entity.Table.contains_of_ref? href
  refine ⟨Project.mem_reachable.mpr ⟨hroot, h.complete.reached _ hcontains⟩, ?_⟩
  have hplaced := hmade.arranged.placed href
  generalize hr : Ref.topLevel i d.name = ref at hplaced
  cases hplaced with
  | topLevel hfile => exact (List.singleton_inj.mp (congrArg Ref.path hr)).symm
  | inside hparent href =>
    have hname := congrArg Ref.name hr
    simp only [Ref.name, Ref.topLevel, Ref.child, List.getLastD_concat] at hname
    exact hname.symm

end Generation.Stages

/-- **Declarations at the top and the check for existing names**: after a run that succeeds, every declaration at the top of an
output file is the counterpart of a class that was to be generated. When the project declares a class of its qualified name, this
is warned of if the check foresaw the name, and, as long as the paths leave no doubt which name a warning is about, only then. -/
theorem Hooks.existingNames_warned_iff {σ : Type} {h : Hooks σ} {p : Project} {o : Options} {s s' : σ} {g : Generation}
    (hrun : h.run [] p o s = (s', .ok g)) :
    ∃ n, g.naming = some n ∧ ∀ i, ∀ d ∈ (g.workspace.file i).declarations,
      d.source ∈ p.reachable n.root ∧ n.className p d.source = d.name ∧
      ∀ name, name = Name.inPackage (g.workspace.file i).package d.name → (∃ e < p.classes.size, p.qualifiedName e = name) →
        (n.Foresees p d.name → g.WarnsDeclared p name) ∧ (p.PlainPaths → g.WarnsDeclared p name → n.Foresees p d.name) := by
  obtain ⟨n, plan, w, w₁, r, ms, hstages⟩ := h.stages_of_run hrun
  obtain ⟨n', plan', t, cs, hmade⟩ := h.made_of_run hrun
  obtain rfl : n = n' := Option.some.inj (hstages.naming.symm.trans hmade.naming)
  refine ⟨n, hstages.naming, fun i d hd => ?_⟩
  obtain ⟨hsource, hname⟩ := hstages.topLevel_source hmade hd
  refine ⟨hsource, hname, fun name hq htaken => ?_⟩
  have hi : i < g.workspace.files.size := Workspace.lt_size_of_topLevel (List.mem_map_of_mem hd)
  rw [hmade.inPackage i hi] at hq
  subst hq
  exact ⟨fun hforeseen => hstages.warnsDeclared hforeseen htaken, fun hp hwarns => hstages.foresees hp hwarns⟩

/-- Two of the classes of `R` have counterparts whose names are taken; `N` is inside `O` and is named first by `R`. -/
def takenNamesProject : Project :=
  .ofSource ("package demo\ndata class R(val n: O.N, val m: M)\nclass O \x7b data class N(val x: Int) \x7d\n" ++
    "data class M(val x: Int)\ndata class NModel(val x: Int)\ndata class MModel(val x: Int)")

/-- What is declared there, and what is generated for `R`: three declarations at the top of one file, and one warning. -/
theorem takenNames_generated :
    ((List.range takenNamesProject.classes.size).map takenNamesProject.qualifiedName =
        ["demo.R", "demo.O", "demo.O.N", "demo.M", "demo.NModel", "demo.MModel"] ∧
      Naming.Foresees ⟨0, "R", "Model"⟩ takenNamesProject "MModel") ∧
    ∃ g, (Hooks.none fun _ => false).run [] takenNamesProject (.ofClass "R") () = ((), .ok g) ∧
      g.naming = some ⟨0, "R", "Model"⟩ ∧ (g.workspace.file 0).package = "demo" ∧
      (g.workspace.file 0).declarations.map (·.name) = ["RModel", "NModel", "MModel"] ∧
      g.diagnostics.map (·.message) = ["'demo.MModel' is already declared in demo/Demo.kt"] := by
  have hdecided : ((List.range takenNamesProject.classes.size).map takenNamesProject.qualifiedName =
        ["demo.R", "demo.O", "demo.O.N", "demo.M", "demo.NModel", "demo.MModel"] ∧ 3 ∈ takenNamesProject.reachable 0 ∧
      Naming.className ⟨0, "R", "Model"⟩ takenNamesProject 3 = "MModel" ∧ (takenNamesProject.decl 3).parent? = none) ∧
      (((Hooks.none fun _ => false).run [] takenNamesProject (.ofClass "R") ()).2.toOption.map fun g =>
        (g.naming, (g.workspace.file 0).package, (g.workspace.file 0).declarations.map (·.name), g.diagnostics.map (·.message))) =
          some (some ⟨0, "R", "Model"⟩, "demo", ["RModel", "NModel", "MModel"],
            ["'demo.MModel' is already declared in demo/Demo.kt"]) := by
    decide +kernel
  obtain ⟨⟨hqualified, hreachable, hname, hparent⟩, hrun⟩ := hdecided
  obtain ⟨g, hg, hresult⟩ := Option.map_eq_some_iff.mp hrun
  simp only [Prod.mk.injEq] at hresult
  exact ⟨⟨hqualified, 3, hreachable, hname, .inr hparent⟩, g, eq_ok_of_toOption hg, hresult⟩

theorem takenNames_taken (name : String) (h : name = "demo.MModel" ∨ name = "demo.NModel") :
    ∃ e < takenNamesProject.classes.size, takenNamesProject.qualifiedName e = name := by
  have hmem : name ∈ (List.range takenNamesProject.classes.size).map takenNamesProject.qualifiedName := by
    rw [takenNames_generated.1.1]
    rcases h with rfl | rfl <;> decide
  obtain ⟨e, he, hname⟩ := List.mem_map.mp hmem
  exact ⟨e, List.mem_range.mp he, hname⟩

/-- The name `demo.MModel` is foreseen, for `M` is inside no other class, and so it is warned of. -/
theorem existingNames_warned_iff_takenNames :
    ∃ g n d, (Hooks.none fun _ => false).run [] takenNamesProject (.ofClass "R") () = ((), .ok g) ∧ g.naming = some n ∧
      d ∈ (g.workspace.file 0).declarations ∧ d.name = "MModel" ∧ (∃ e < takenNamesProject.classes.size,
        takenNamesProject.qualifiedName e = "demo.MModel") ∧ n.Foresees takenNamesProject "MModel" ∧
      g.WarnsDeclared takenNamesProject "demo.MModel" := by
  obtain ⟨⟨-, hforeseen⟩, g, hg, hn', hpackage, hnames, -⟩ := takenNames_generated
  obtain ⟨n, hn, hall⟩ := Hooks.existingNames_warned_iff hg
  cases hn'.symm.trans hn
  obtain ⟨d, hd, hname⟩ : ∃ d ∈ (g.workspace.file 0).declarations, d.name = "MModel" := by
    rw [← List.mem_map, hnames]
    decide
  obtain ⟨-, -, hwarned⟩ := hall 0 d hd
  have htaken := takenNames_taken "demo.MModel" (.inl rfl)
  rw [hname, hpackage] at hwarned
  obtain ⟨hforward, -⟩ := hwarned "demo.MModel" (by decide) htaken
  exact ⟨g, _, d, hg, hn, hd, hname, htaken, hforeseen, hforward hforeseen⟩

/-- The name `demo.NModel` is taken as well, but `N` is inside another class, and nothing is said. -/
theorem nestedName_not_warned :
    ∃ g, (Hooks.none fun _ => false).run [] takenNamesProject (.ofClass "R") () = ((), .ok g) ∧
      ∃ d ∈ (g.workspace.file 0).declarations, (∃ e < takenNamesProject.classes.size,
        takenNamesProject.qualifiedName e = Name.inPackage (g.workspace.file 0).package d.name) ∧
      ¬ g.WarnsDeclared takenNamesProject (Name.inPackage (g.workspace.file 0).package d.name) := by
  obtain ⟨-, g, hg, -, hpackage, hnames, hmessages⟩ := takenNames_generated
  obtain ⟨d, hd, hname⟩ : ∃ d ∈ (g.workspace.file 0).declarations, d.name = "NModel" := by
    rw [← List.mem_map, hnames]
    decide
  refine ⟨g, hg, d, hd, ?_⟩
  rw [hname, hpackage]
  refine ⟨takenNames_taken _ (.inr (by decide)), ?_⟩
  intro hwarns
  obtain ⟨existing, -, m, hm, -, -, hmessage⟩ := hwarns
  have hmem := List.mem_map_of_mem (f := (·.message)) hm
  rw [hmessages, hmessage, List.mem_singleton] at hmem
  -- the message about one name would be the message about the other
  have hlist := congrArg String.toList hmem
  simp [Project.declaredMessage, Name.inPackage, String.toList_append] at hlist

end Counterpart
