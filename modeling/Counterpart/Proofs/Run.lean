/-
What a run leaves behind. From a plan made from no files, the counterparts and then the functions are generated without
failure (`Planner.exists_runs`). A run of all phases that succeeds goes through these three (`Hooks.made_of_run`), so at its
end every generated class has its counterpart at its address and the functions are those of the classes called for.
-/
import Counterpart.Generation.Run
import Counterpart.Kotlin.Body
import Counterpart.Proofs.Outcomes
import Counterpart.Proofs.Planning
import Counterpart.Proofs.Queue

namespace Counterpart

open Kotlin Output Relation

/-! ## From the plan to the functions -/

variable {p : Project} {n : Naming} {plan : Plan} {t : Entity.Table} {w w' : Workspace}

/-- A planned workspace has no functions. -/
theorem Planned.functions_eq_nil {classes : List ClassId} (h : Planned p plan classes w) : w.functions = [] := by
  refine List.flatMap_eq_nil_iff.mpr fun f hf => ?_
  obtain ⟨i, hi, rfl⟩ := List.getElem_of_mem hf
  have := h.functions i
  rwa [Workspace.file, Array.getD_eq_getD_getElem?, Array.getElem?_eq_getElem (by simpa using hi)] at this

/-- The file of the functions that go with a counterpart is there. -/
theorem Planned.fileOf_lt {classes : List ClassId} (h : Planned p plan classes w)
    (hc : Entity.Complete ⟨p, plan, n⟩ w w' t) {c : ClassId} {r : Ref} (hr : t.ref? c = some r) :
    Mapper.Setting.fileOf plan r < w'.files.size := by
  rw [Mapper.Setting.fileOf]
  cases hm : plan.mapperFile? r.file with
  | some file =>
    rw [hc.same.size]
    exact h.mapperFile?_lt hm
  | none =>
    obtain ⟨d, hd, -⟩ := Option.map_eq_some_iff.mp (hc.alone c r hr)
    exact Workspace.lt_size_of_declaration? hd

/-- From a plan made from no files, nothing fails. -/
theorem Planner.exists_runs {pl : Planner} (hroot : (pl.project.decl pl.naming.root).isSupported = true)
    (h : pl.run .empty = (w, .ok plan)) :
    ∃ w₁ r w₂ ds cs, (Entity.Generator.mk pl.project plan pl.naming).run w = (w₁, .ok r) ∧
      (Mapper.Setting.mk pl.project pl.naming r.table).run plan w₁ = (w₂, .ok ds) ∧
      Entity.Complete ⟨pl.project, plan, pl.naming⟩ w w₁ r.table ∧
      Mapper.Setting.Converted ⟨pl.project, pl.naming, r.table⟩ cs w₁ w₂ := by
  have hplanned := Planner.run_planned h
  obtain ⟨w₁, r, hrun, hcomplete, -⟩ :=
    Entity.Generator.run_complete (g := ⟨pl.project, plan, pl.naming⟩) (Project.lt_size_of_isSupported hroot) hplanned
  obtain ⟨w₂, ds, cs, hmap, hconverted⟩ := Mapper.Setting.run_converted (g := ⟨pl.project, pl.naming, r.table⟩) hroot
    hcomplete.root fun c s hs => hplanned.fileOf_lt hcomplete hs
  exact ⟨w₁, r, w₂, ds, cs, hrun, hmap, hcomplete, hconverted⟩

/-! ## The phases -/

/-- The chosen names hold no dot. -/
structure Naming.Dotless (n : Naming) : Prop where
  rootName : '.' ∉ n.rootName.toList
  suffix : '.' ∉ n.suffix.toList

theorem Name.of_mem_keepIdentifier {s : String} {c : Char} (h : c ∈ (keepIdentifier s).toList) :
    (Text.isNameChar c || c == '$') = true := by
  rw [keepIdentifier, String.toList_ofList] at h
  exact List.of_mem_filter (p := fun c => Text.isNameChar c || c == '$') (List.mem_of_mem_take h)

theorem Name.dot_not_mem_keepIdentifier (s : String) : '.' ∉ (keepIdentifier s).toList := by
  intro h
  have := of_mem_keepIdentifier h
  revert this
  decide

namespace Generation

variable {g g' : Generation}

theorem usable_ok {which : ChosenName} {chosen kept : String} (h : usable which chosen = .ok kept) :
    kept = Name.keepIdentifier chosen ∧ kept ≠ "" := by
  simp only [usable] at h
  split at h
  · cases h
  next hempty =>
    cases h
    exact ⟨rfl, fun hnil => hempty (String.isEmpty_iff.mpr hnil)⟩

/-- The names are what can stand in an identifier of those that were chosen, and there is something of both. -/
theorem namingOf_ok {p : Project} {o : Options} {root : ClassId} {n : Naming} (h : namingOf p o root = .ok n) :
    n = ⟨root, Name.keepIdentifier (o.name.getD (p.decl root).name), Name.keepIdentifier o.suffix⟩ ∧
      n.rootName ≠ "" ∧ n.suffix ≠ "" := by
  obtain ⟨name, hname, h⟩ := exists_of_bind_ok h
  obtain ⟨suffix, hsuffix, h⟩ := exists_of_bind_ok h
  cases h
  obtain ⟨rfl, hname⟩ := usable_ok hname
  obtain ⟨rfl, hsuffix⟩ := usable_ok hsuffix
  exact ⟨rfl, hname, hsuffix⟩

theorem select_ok (h : g.select = (g', none)) :
    ∃ n, g' = { g with naming := some n } ∧ (g.project.decl n.root).isSupported = true ∧ n.Dotless := by
  unfold select at h
  split at h
  · cases h
  next root =>
    split at h
    · cases h
    next hroot =>
      split at h
      · cases h
      next n hn =>
        cases h
        obtain ⟨rfl, -⟩ := namingOf_ok hn
        exact ⟨_, rfl, by simpa using hroot, Name.dot_not_mem_keepIdentifier _, Name.dot_not_mem_keepIdentifier _⟩

theorem validate_ok {lints : List Lint} (h : g.validate lints = (g', none)) : ∃ ds, g' = g.report ds := by
  unfold validate at h
  split at h
  · cases h
  · exact ⟨_, (congrArg Prod.fst h).symm⟩

theorem planFiles_ok {onDisk : Path → Bool} (hn : g.naming = some n) (h : g.planFiles onDisk = (g', none)) :
    ∃ w plan, (Planner.mk g.project n g.options.placement g.options.overwrite onDisk).run g.workspace = (w, .ok plan) ∧
      g' = { g with workspace := w, plan := some plan } := by
  obtain ⟨project, options, naming, plan, table, root, workspace, diagnostics⟩ := g
  cases hn
  unfold planFiles at h
  simp only [resultFor] at h
  split at h
  · cases h
  next w plan hrun =>
    cases h
    exact ⟨w, plan, hrun, rfl⟩

theorem generateEntities_ok (hn : g.naming = some n) (hp : g.plan = some plan) (h : g.generateEntities = (g', none)) :
    ∃ w r, (Entity.Generator.mk g.project plan n).run g.workspace = (w, .ok r) ∧
      g' = ({ g with workspace := w, root := some r.root, table := some r.table } : Generation).report r.diagnostics := by
  obtain ⟨project, options, naming, plan, table, root, workspace, diagnostics⟩ := g
  cases hn
  cases hp
  unfold generateEntities at h
  simp only [resultFor, bind, Except.bind, pure, Except.pure] at h
  split at h
  · cases h
  next w r hrun =>
    cases h
    exact ⟨w, r, hrun, rfl⟩

theorem generateMappers_ok (hn : g.naming = some n) (hp : g.plan = some plan) (ht : g.table = some t)
    (h : g.generateMappers = (g', none)) :
    ∃ w ds, (Mapper.Setting.mk g.project n t).run plan g.workspace = (w, .ok ds) ∧
      g' = ({ g with workspace := w } : Generation).report ds := by
  obtain ⟨project, options, naming, plan, table, root, workspace, diagnostics⟩ := g
  cases hn
  cases hp
  cases ht
  unfold generateMappers at h
  simp only [resultFor, bind, Except.bind, pure, Except.pure] at h
  split at h
  · cases h
  next w ds hrun =>
    cases h
    exact ⟨w, ds, hrun, rfl⟩

end Generation

/-! ## Runs -/

/-- What a run over `p` made: the counterparts of the classes in the table, and the functions of the classes `cs`. -/
structure Generation.Made (g : Generation) (p : Project) (n : Naming) (plan : Plan) (t : Entity.Table)
    (cs : List ClassId) : Prop where
  naming : g.naming = some n
  dotless : n.Dotless
  table : g.table = some t
  alone : ∀ c r, t.ref? c = some r →
    g.workspace.alone? r = some ((Entity.Generator.mk p plan n).counterpart t c)
  functions : g.workspace.functions.Perm (cs.filterMap (Mapper.Setting.mk p n t).function?)
  nodup : cs.Nodup
  mem : ∀ c, c ∈ cs ↔ ReflTransGen (fun a b => b ∈ (Mapper.Setting.mk p n t).calls a) n.root c
  root : (t.ref? n.root).isSome = true
  led : ∀ c, (t.ref? c).isSome = true →
    ReflTransGen (fun a b => b ∈ (Entity.Generator.mk p plan n).leads t a) n.root c
  arranged : Entity.Arranged ⟨p, plan, n⟩ g.workspace t
  inPackage : g.workspace.InPackage (p.fileOf n.root).package

namespace Generation.Made

variable {g : Generation} {cs : List ClassId}

/-- A class that a function is made for has a counterpart. -/
theorem exists_ref? (h : g.Made p n plan t cs) {c : ClassId} (hc : c ∈ cs) : ∃ r, t.ref? c = some r := by
  refine Option.isSome_iff_exists.mp ?_
  cases (h.mem c).mp hc with
  | refl => exact h.root
  | tail _ hd => exact Mapper.Setting.isSome_of_mem_calls hd

/-- A function is that of its source, which has a counterpart. -/
theorem eq_draft (h : g.Made p n plan t cs) {f : Function} (hf : f ∈ g.workspace.functions) :
    ∃ r, t.ref? f.source = some r ∧ f = ((Mapper.Setting.mk p n t).draft f.source r).function := by
  obtain ⟨c, -, hcf⟩ := List.mem_filterMap.mp (h.functions.mem_iff.mp hf)
  obtain ⟨r, hr, rfl⟩ := Option.map_eq_some_iff.mp hcf
  rw [Mapper.Setting.source_function]
  exact ⟨r, hr, rfl⟩

/-- The functions are those of the classes called for, one for each. -/
theorem sources_perm (h : g.Made p n plan t cs) : (g.workspace.functions.map (·.source)).Perm cs := by
  refine (h.functions.map _).trans (.of_eq ?_)
  have : ∀ c ∈ cs, ((Mapper.Setting.mk p n t).function? c).map (·.source) = some c := by
    intro c hc
    obtain ⟨r, hr⟩ := h.exists_ref? hc
    rw [Mapper.Setting.function?, hr]
    exact congrArg some (Mapper.Setting.source_function c r)
  rw [List.map_filterMap, List.filterMap_congr this, List.filterMap_some]

/-- A class has the address of its declaration. -/
theorem ref?_iff (h : g.Made p n plan t cs) {c : ClassId} {r : Ref} :
    t.ref? c = some r ↔ ∃ d, g.workspace.declaration? r = some d ∧ d.source = c :=
  h.arranged.ref?_iff h.alone

theorem exists_ref?_of_declaration? (h : g.Made p n plan t cs) {r : Ref} (hr : (g.workspace.declaration? r).isSome = true) :
    ∃ c, t.ref? c = some r := by
  obtain ⟨d, hd⟩ := Option.isSome_iff_exists.mp hr
  exact ⟨d.source, h.ref?_iff.mpr ⟨d, hd, rfl⟩⟩

theorem isSome_declaration? (h : g.Made p n plan t cs) {c : ClassId} {r : Ref} (hr : t.ref? c = some r) :
    (g.workspace.declaration? r).isSome = true := by
  obtain ⟨d, hd, -⟩ := h.ref?_iff.mp hr
  rw [hd]
  rfl

theorem ref?_injective (h : g.Made p n plan t cs) {c d : ClassId} {r : Ref} (hc : t.ref? c = some r)
    (hd : t.ref? d = some r) : c = d := by
  obtain ⟨e, he, rfl⟩ := h.ref?_iff.mp hc
  obtain ⟨e', he', rfl⟩ := h.ref?_iff.mp hd
  cases he.symm.trans he'
  rfl

/-- A generated class has its counterpart at its address. -/
theorem exists_declaration? (h : g.Made p n plan t cs) {c : ClassId} {r : Ref} (hr : t.ref? c = some r) :
    ∃ d, g.workspace.declaration? r = some d ∧ d.params = (Entity.Generator.mk p plan n).params t c ∧
      d.entries = (p.decl c).entries ∧ ((p.decl c).isEnum = true → d.kind = .enum) := by
  obtain ⟨d, hd, halone⟩ := Option.map_eq_some_iff.mp (h.alone c r hr)
  refine ⟨d, hd, ?_, ?_, fun henum => ?_⟩
  · exact congrArg Declaration.params halone
  · exact congrArg Declaration.entries halone
  · refine (congrArg Declaration.kind halone).trans ?_
    rw [Entity.Generator.counterpart, Entity.Generator.kind_shell]
    simp [henum]

/-- A declaration has the parameters for the fields of its source. -/
theorem params_of_declaration? (h : g.Made p n plan t cs) {r : Ref} {d : Declaration}
    (hd : g.workspace.declaration? r = some d) : d.params = (Entity.Generator.mk p plan n).params t d.source := by
  obtain ⟨d', hd', hparams, -⟩ := h.exists_declaration? (h.ref?_iff.mpr ⟨d, hd, rfl⟩)
  cases hd.symm.trans hd'
  exact hparams

end Generation.Made

namespace Hooks

variable {σ : Type} {h : Hooks σ} {s s' : σ}

theorem runPhases_cons_ok {phase : Phase} {phases : List Phase} {g g' : Generation}
    (hrun : h.runPhases (phase :: phases) g s = (s', .ok g')) :
    ∃ onDisk g₁ s₁, phase.run onDisk g = (g₁, .none) ∧ h.runPhases phases g₁ s₁ = (s', .ok g') := by
  rw [runPhases] at hrun
  split at hrun
  · cases hrun
  split at hrun
  · cases hrun
  next g₁ hphase =>
    split at hrun
    · cases hrun
    next s₁ _ => exact ⟨_, g₁, s₁, hphase, hrun⟩

theorem runPhases_nil_ok {g g' : Generation} (hrun : h.runPhases [] g s = (s', .ok g')) : g' = g := by
  cases hrun
  rfl

/-- **A run that succeeds** has made the counterparts and the functions. -/
theorem made_of_run {o : Options} {g : Generation} (hrun : h.run [] p o s = (s', .ok g)) :
    ∃ n plan t cs, g.Made p n plan t cs := by
  rw [run, Phase.builtin, List.append_nil] at hrun
  obtain ⟨_, g₁, s₁, h₁, hrun⟩ := runPhases_cons_ok hrun
  obtain ⟨_, g₂, s₂, h₂, hrun⟩ := runPhases_cons_ok hrun
  obtain ⟨onDisk, g₃, s₃, h₃, hrun⟩ := runPhases_cons_ok hrun
  obtain ⟨_, g₄, s₄, h₄, hrun⟩ := runPhases_cons_ok hrun
  obtain ⟨_, g₅, s₅, h₅, hrun⟩ := runPhases_cons_ok hrun
  cases runPhases_nil_ok hrun
  simp only [Phase.select, Phase.validate, Phase.plan, Phase.entity, Phase.mapper] at h₁ h₂ h₃ h₄ h₅
  obtain ⟨n, rfl, hroot, hdotless⟩ := Generation.select_ok h₁
  obtain ⟨ds, rfl⟩ := Generation.validate_ok h₂
  obtain ⟨w₀, plan, hplan, rfl⟩ := Generation.planFiles_ok rfl h₃
  obtain ⟨w₁, r, w₂, ds', cs, hentity, hmapper, hcomplete, hconverted⟩ := Planner.exists_runs hroot hplan
  obtain ⟨w, r', hr', rfl⟩ := Generation.generateEntities_ok rfl rfl h₄
  cases hr'.symm.trans hentity
  obtain ⟨w', ds'', hw', rfl⟩ := Generation.generateMappers_ok rfl rfl rfl h₅
  cases hw'.symm.trans hmapper
  have hnone : w₁.functions = [] := by
    rw [hcomplete.functions]
    exact (Planner.run_planned hplan).functions_eq_nil
  have hfunctions := hconverted.functions
  rw [hnone, List.nil_append] at hfunctions
  exact ⟨n, plan, r.table, cs, {
    naming := rfl
    dotless := hdotless
    table := rfl
    alone := fun c r hr => (hconverted.same.alone r).trans (hcomplete.alone c r hr)
    functions := hfunctions
    nodup := hconverted.nodup
    mem := hconverted.mem
    root := hcomplete.root
    led := fun c hc => by
      obtain ⟨r, hr⟩ := Option.isSome_iff_exists.mp hc
      exact hcomplete.led (Entity.Table.contains_of_ref? hr)
    arranged := hcomplete.arranged.of_same hconverted.same
    inPackage := (hcomplete.same.trans hconverted.same.toSameFiles).inPackage (Planner.run_inPackage hplan) }⟩

end Hooks

/-! ## Runs on given sources -/

/-- The project of one file; no classes when the text is no source. -/
def Project.ofSource (source : String) : Project :=
  match SourceUnit.ofSource source with
  | .ok unit => Project.empty.add ⟨"demo/Demo.kt"⟩ unit
  | .error _ => .empty

end Counterpart
