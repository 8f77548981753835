/-
Warnings for what is left to the user. A class without a counterpart in the type of a field is met when the parameter of the
field is generated (`Entity.unsupported_ne_nil`); a placeholder in the conversion of the field, however deep, comes with its reason
(`Mapper.Setting.reasoned_element`). Both are reported at the field, but for a field whose own type was
skipped: there the report is at that class (`Hooks.omissions_warned`).
-/
import Counterpart.Proofs.DepthFirst
import Counterpart.Proofs.Drafts
import Counterpart.Proofs.Imported
import Counterpart.Proofs.Stages

namespace Counterpart

open Kotlin Output

/-- One of the messages is a warning located at the name. -/
def WarnsAt (ds : List Diagnostic) (location : String) : Prop := ∃ d ∈ ds, d.isWarning = true ∧ d.location = some location

theorem WarnsAt.mono {ds ds' : List Diagnostic} {location : String} (h : WarnsAt ds location) (hsub : ds ⊆ ds') :
    WarnsAt ds' location := by
  obtain ⟨d, hd, hat⟩ := h
  exact ⟨d, hsub hd, hat⟩

/-! ## Types that leave classes out -/

/-- A type is a class without a counterpart, one of the wrong kind or one that was skipped, or has it in an argument, however
deep. -/
inductive Project.LeavesOut (p : Project) (t : Entity.Table) : ResolvedType → Prop
  | unsupported {ty : ResolvedType} {d : ClassId} (h : p.categoryOf ty = .unsupported d) : LeavesOut p t ty
  | skipped {ty : ResolvedType} {d : ClassId} {k : UserKind} (h : p.categoryOf ty = .userClass d k)
    (hd : t.isSkipped d = true) : LeavesOut p t ty
  | inArgument {ty u : ResolvedType} {base : GenericBase} {variance : Variance} (h : p.categoryOf ty = .generic base)
    (hu : .type variance u ∈ ty.args) (hout : LeavesOut p t u) : LeavesOut p t ty

/-- A type that is a class which was skipped. -/
def Project.IsSkipped (p : Project) (t : Entity.Table) (ty : ResolvedType) (d : ClassId) : Prop :=
  t.isSkipped d = true ∧ ∃ k, p.categoryOf ty = .userClass d k

namespace Entity

variable {p : Project} {t : Table} {ty : ResolvedType}

theorem Table.ref?_of_isSkipped {d : ClassId} (h : t.isSkipped d = true) : t.ref? d = none := by
  rw [ref?, beq_iff_eq.mp h]
  rfl

/-- A class that was come to and has no counterpart was skipped. -/
theorem Table.isSkipped_of_contains {d : ClassId} (h : t.contains d = true) (hd : t.ref? d = none) :
    t.isSkipped d = true := by
  obtain ⟨o, ho⟩ := Option.isSome_iff_exists.mp h
  rw [ref?, ho] at hd
  cases o with
  | generated target => cases hd
  | skipped => rw [isSkipped, ho]; rfl

theorem unsupported_substituteArgs (u : ClassId → Option Ref) (as : List (TypeArg ResolvedType)) :
    (substituteArgs p u as).unsupported = as.flatMap fun a => (substituteArg p u a).unsupported := by
  induction as with
  | nil => rfl
  | cons a as ih => rw [substituteArgs, Substituted.both, ih, List.flatMap_cons]

/-- **A class that a type leaves out** comes out of its substitution. -/
theorem unsupported_ne_nil (h : p.LeavesOut t ty) : (substituteType p t.ref? ty).unsupported ≠ [] := by
  induction h with
  | @unsupported ty d hc =>
    obtain ⟨written, name, importName, classId, args⟩ := ty
    simp [substituteType, hc, unsupportedType]
  | @skipped ty d k hc hd =>
    obtain ⟨written, name, importName, classId, args⟩ := ty
    simp [substituteType, hc, Table.ref?_of_isSkipped hd, unsupportedType]
  | @inArgument ty u base variance hc hu _ ih =>
    obtain ⟨written, name, importName, classId, args⟩ := ty
    simp only [substituteType, hc, unsupported_substituteArgs, ne_eq, List.flatMap_eq_nil_iff, not_forall]
    exact ⟨_, hu, ih⟩

/-- The parameter for a field leaves out what its type does, unless the type itself is a class that was skipped. -/
theorem ParamDraft.unsupported_ofField {n : Naming} {c : ClassId} {f : Field} (h : p.LeavesOut t (p.resolve c f.ty)) :
    (ofField p n t c f).unsupported ≠ [] ∨ ∃ d, p.IsSkipped t (p.resolve c f.ty) d := by
  have hne := unsupported_ne_nil h
  unfold ofField
  generalize p.resolve c f.ty = ty at h hne ⊢
  cases h with
  | unsupported hc => exact .inl (by simp [hc])
  | skipped hc hd => exact .inr ⟨_, hd, _, hc⟩
  | inArgument hc hu hout =>
    obtain ⟨written, name, importName, classId, args⟩ := ty
    rw [substituteType, hc] at hne
    exact .inl (by simpa only [hc] using hne)

/-! ## Along the walk -/

namespace Generator

variable {g : Generator}

/-- A field that leaves something out is warned of. -/
def Warns (g : Generator) (t : Table) (ds : List Diagnostic) (c : ClassId) (f : Field) : Prop :=
  (ParamDraft.ofField g.project g.naming t c f).unsupported ≠ [] → WarnsAt ds (g.project.qualifiedName c ++ "." ++ f.name)

theorem diagnostics_foldl_warn (cs : List ClassId) (message : ClassId → String) (location : String) (s : State) :
    (cs.foldl (fun s c => s.warn (message c) location) s).diagnostics =
      s.diagnostics ++ cs.map fun c => .warning phaseName (message c) location := by
  induction cs generalizing s with
  | nil => simp
  | cons c cs ih => rw [List.foldl_cons, ih]; simp [State.warn]

theorem subset_addField (sc : Scope) (f : Field) (s : State) : s.diagnostics ⊆ (g.addField sc f s).diagnostics := by
  rw [addField, diagnostics_foldl_warn]
  exact List.subset_append_left _ _

theorem warns_addField (sc : Scope) (f : Field) (s : State) :
    g.Warns s.table (g.addField sc f s).diagnostics sc.source f := by
  intro hne
  obtain ⟨d, hd⟩ := List.exists_mem_of_ne_nil _ hne
  rw [addField, diagnostics_foldl_warn]
  exact ⟨_, List.mem_append_right _ (List.mem_map_of_mem hd), rfl, rfl⟩

theorem subset_finish {sc : Scope} {s s' : State} (h : g.finish sc s = .ok s') : s.diagnostics ⊆ s'.diagnostics := by
  obtain ⟨w, -, rfl | ⟨message, rfl⟩⟩ := finish_ok h
  · exact List.Subset.refl _
  · exact List.subset_append_left _ _

theorem warns_congr {t t' : Table} {ds ds' : List Diagnostic} {c : ClassId} {f : Field} (hw : g.Warns t ds c f)
    (ht : ∀ d ∈ g.project.mentionedBy c f, t'.ref? d = t.ref? d) (hds : ds ⊆ ds') : g.Warns t' ds' c f := by
  intro hne
  rw [ParamDraft.ofField_congr ht] at hne
  exact (hw hne).mono hds

end Generator

/-- The invariant of the warnings: a class that was skipped is warned of, and so is every field of a generated class whose step
was taken. -/
structure Warned (g : Generator) (s : State) (steps : List Step) : Prop where
  skipped : ∀ c, s.table.isSkipped c = true → WarnsAt s.diagnostics (g.project.qualifiedName c)
  fields : ∀ c r f, s.table.ref? c = some r → f ∈ (g.project.decl c).visibleFields →
    .field ⟨c, r⟩ f ∈ steps ∨ (∀ d ∈ g.project.mentionedBy c f, s.table.contains d = true) ∧
      g.Warns s.table s.diagnostics c f

namespace Warned

variable {g : Generator} {w₀ : Workspace} {remaining : List ClassId} {s s' : State} {steps new : List Step}
variable {c : ClassId} {sc : Scope} {f : Field} {scope : Option Scope}

theorem init (g : Generator) (w : Workspace) : Warned g ⟨w, .empty, []⟩ [.visit g.naming.root none] where
  skipped c h := by cases h
  fields c r f h := by cases h

theorem skip (h : Warned g s (.visit c scope :: steps)) : Warned g s steps :=
  ⟨h.skipped, fun d r f hr hf => (h.fields d r f hr hf).imp_left fun hmem => by simpa using hmem⟩

theorem field (hs : Sound g w₀ remaining s (.field sc f :: steps)) (h : Warned g s (.field sc f :: steps)) :
    Warned g (g.addField sc f s) steps := by
  have hsub := g.subset_addField sc f s
  constructor
  · intro c hc
    rw [Generator.table_addField] at hc
    exact (h.skipped c hc).mono hsub
  · intro c r f' hr hf'
    rw [Generator.table_addField] at hr ⊢
    rcases h.fields c r f' hr hf' with hmem | ⟨hdone, hwarns⟩
    · rcases List.mem_cons.mp hmem with heq | hmem
      · cases heq
        exact .inr ⟨hs.ready.1, Generator.warns_addField ⟨c, r⟩ f s⟩
      · exact .inl hmem
    · exact .inr ⟨hdone, Generator.warns_congr hwarns (fun _ _ => rfl) hsub⟩

theorem finish (h : Warned g s (.finish sc :: steps)) (hf : g.finish sc s = .ok s') : Warned g s' steps := by
  have hsub := Generator.subset_finish hf
  obtain ⟨ht, -⟩ := Generator.finish_cases hf
  constructor
  · intro c hc
    rw [ht] at hc
    exact (h.skipped c hc).mono hsub
  · intro c r f hr hf
    rw [ht] at hr ⊢
    refine (h.fields c r f hr hf).imp (fun hmem => by simpa using hmem) fun hdone => ?_
    exact ⟨hdone.1, Generator.warns_congr hdone.2 (fun _ _ => rfl) hsub⟩

/-- A class that is come to leaves the fields of the others as they are. -/
theorem fields_add {o : Outcome} {ds : List Diagnostic} (hfresh : s.table.contains c = false) (hsub : s.diagnostics ⊆ ds)
    {d : ClassId} (h : (∀ m ∈ g.project.mentionedBy d f, s.table.contains m = true) ∧ g.Warns s.table s.diagnostics d f) :
    (∀ m ∈ g.project.mentionedBy d f, (s.table.add c o).contains m = true) ∧ g.Warns (s.table.add c o) ds d f :=
  ⟨fun m hm => (Table.contains_add hfresh _ m).mpr (.inr (h.1 m hm)),
    Generator.warns_congr h.2 (fun m hm => Table.ref?_add_of_contains hfresh (h.1 m hm)) hsub⟩

theorem placeSkipped {message : String} (hfresh : s.table.contains c = false)
    (h : Warned g s (.visit c scope :: steps)) :
    Warned g { s.warn message (g.project.qualifiedName c) with table := s.table.add c .skipped } steps := by
  have hsub : s.diagnostics ⊆ (s.warn message (g.project.qualifiedName c)).diagnostics := List.subset_append_left _ _
  constructor
  · intro d hd
    simp only [Table.isSkipped, Table.outcome?_add hfresh] at hd
    split at hd
    next hdc =>
      subst hdc
      exact ⟨_, List.mem_append_right _ (List.mem_singleton_self _), rfl, rfl⟩
    next => exact (h.skipped d hd).mono hsub
  · intro d r f hr hf
    exact (h.skip.fields d r f ((Table.ref?_add_skipped hfresh d).symm.trans hr) hf).imp_right (fields_add hfresh hsub)

theorem placeGenerated {target : Ref} (hfresh : s.table.contains c = false) (h : Warned g s (.visit c scope :: steps))
    (ht : s'.table = s.table.add c (.generated target)) (hds : s'.diagnostics = s.diagnostics) :
    Warned g s' (g.fieldSteps ⟨c, target⟩ ++ steps) := by
  constructor
  · intro d hd
    rw [ht, Table.isSkipped, Table.outcome?_add hfresh] at hd
    rw [hds]
    split at hd
    next => cases hd
    next => exact h.skipped d hd
  · intro d r f hr hf
    rw [ht, Table.ref?_add_generated_iff hfresh] at hr
    rw [ht, hds]
    rcases hr with ⟨rfl, rfl⟩ | hr
    · exact .inl (List.mem_append_left _ (mem_fieldSteps.mpr ⟨rfl, hf⟩))
    · exact (h.skip.fields d r f hr hf).imp (List.mem_append_right _) (fields_add hfresh (List.Subset.refl _))

theorem place (hs : Sound g w₀ remaining s (.visit c scope :: steps)) (hc : c ∈ remaining)
    (hp : g.place c scope s = .ok (s', new)) (h : Warned g s (.visit c scope :: steps)) : Warned g s' (new ++ steps) := by
  have hfresh := ((hs.unvisited c).mp hc).2
  obtain ⟨place, -, ⟨-, rfl, message, rfl⟩ | ⟨-, target, w, -, -, rfl, rfl⟩⟩ := Generator.place_cases hp
  · exact h.placeSkipped hfresh
  · exact h.placeGenerated hfresh rfl rfl

/-- **Every step of the walk** warns of what it leaves out. -/
theorem kept (hroot : g.naming.root < g.project.classes.size) (hcover : Sound.Covered g w₀.files.size) :
    g.Kept fun remaining s steps => Sound g w₀ remaining s steps ∧ Warned g s steps where
  place hc hp h := ⟨h.1.place hcover hc hp, h.2.place h.1 hc hp⟩
  known hc h := ⟨h.1.skip hroot hc, h.2.skip⟩
  field h := ⟨h.1.field, field h.1 h.2⟩
  finish hf h := ⟨h.1.finish hf, h.2.finish hf⟩

end Warned

/-- **After generation** every class that was skipped and every field that leaves something out is warned of. -/
theorem Generator.warned_run {g : Generator} {w w' : Workspace} {result : Result}
    (hroot : g.naming.root < g.project.classes.size) (hcover : Sound.Covered g w.files.size)
    (hrun : g.run w = (w', .ok result)) :
    (∀ c, result.table.isSkipped c = true → WarnsAt result.diagnostics (g.project.qualifiedName c)) ∧
      ∀ c r f, result.table.ref? c = some r → f ∈ (g.project.decl c).visibleFields →
        g.Warns result.table result.diagnostics c f := by
  simp only [run] at hrun
  split at hrun
  · cases hrun
  next s hwalk =>
    obtain ⟨-, -, hwarned⟩ := (Warned.kept hroot hcover).walk ⟨Sound.init g w, Warned.init g w⟩ hwalk
    simp only [Prod.mk.injEq] at hrun
    obtain ⟨-, hresult⟩ := hrun
    split at hresult
    · cases hresult
      exact ⟨hwarned.skipped, fun c r f hr hf => ((hwarned.fields c r f hr hf).resolve_left List.not_mem_nil).2⟩
    · cases hresult

end Entity

/-! ## Placeholders in conversions -/

namespace Output.Conversion

theorem placeholder_of_ofCollection {e : Conversion} {n : Bool} {collect : Option String}
    (h : .placeholder ∈ (ofCollection e n collect).parts) : .placeholder ∈ e.parts := by
  rw [ofCollection] at h
  split at h
  · simp [parts] at h
  · simpa [parts] using h

theorem placeholder_of_ofMap {k v : Conversion} {kn vn : Bool} {builder : String}
    (h : .placeholder ∈ (ofMap builder k kn v vn).parts) : .placeholder ∈ k.parts ∨ .placeholder ∈ v.parts := by
  rw [ofMap] at h
  split at h
  · simp [parts] at h
  · simpa [parts] using h

theorem placeholder_of_ofPair {a b : Conversion} {an bn : Bool} (h : .placeholder ∈ (ofPair a an b bn).parts) :
    .placeholder ∈ a.parts ∨ .placeholder ∈ b.parts := by
  rw [ofPair] at h
  split at h
  · simp [parts] at h
  · simpa [parts] using h

end Output.Conversion

namespace Mapper

open Entity

/-- A conversion with a placeholder in it comes with a reason. -/
def Built.Reasoned (b : Built) : Prop := .placeholder ∈ b.conversion.parts → b.obstacles ≠ []

namespace Built

theorem reasoned_identity {b : Built} (h : b.conversion = .identity) : b.Reasoned := by
  intro hk
  simp [h, Conversion.parts] at hk

theorem reasoned_obstruct (b : Built) (o : Obstacle) : (b.obstruct o).Reasoned := by
  simp [Reasoned, obstruct]

end Built

namespace Setting

variable {g : Setting} {sides : List (Option Side)}

theorem reasoned_convertMap (kind : MapKind) (args : List (TypeArg ResolvedType)) {key value : Option Side}
    (hk : ∀ s ∈ key, s.built.Reasoned) (hv : ∀ s ∈ value, s.built.Reasoned) :
    (g.convertMap kind args key value).Reasoned := by
  have one : ∀ s : Side,
      (if s.built.conversion.isIdentity then s.built else s.built.obstruct .starMap).Reasoned := by
    intro s
    split
    next h => exact Built.reasoned_identity (Conversion.isIdentity_iff.mp h)
    next => exact Built.reasoned_obstruct _ _
  cases key with
  | none =>
    cases value with
    | none => exact Built.reasoned_identity rfl
    | some v => exact one v
  | some k =>
    cases value with
    | none => exact one k
    | some v =>
      simp only [convertMap]
      split
      next => exact Built.reasoned_identity rfl
      next =>
        intro hparts
        simp only [Built.replace, Built.importing, Built.both, ne_eq, List.append_eq_nil_iff, not_and_or]
        exact (Conversion.placeholder_of_ofMap hparts).imp (hk k rfl) (hv v rfl)

theorem reasoned_combine (base : GenericBase) (args : List (TypeArg ResolvedType))
    (h : ∀ s, some s ∈ sides → s.built.Reasoned) : (g.combine base args sides).Reasoned := by
  have hside : ∀ {i : Nat} {s : Side}, sides[i]?.join = some s → s.built.Reasoned := fun hi =>
    h _ (List.mem_of_getElem? (Option.join_eq_some_iff.mp hi))
  cases base with
  | collection kind =>
    simp only [combine]
    split
    next s hs => exact fun hparts => hside hs (Conversion.placeholder_of_ofCollection hparts)
    next => exact Built.reasoned_identity rfl
  | map kind => exact reasoned_convertMap kind args (fun s hs => hside hs) (fun s hs => hside hs)
  | pair =>
    simp only [combine]
    split
    next a b ha hb =>
      intro hparts
      simp only [Built.both, ne_eq, List.append_eq_nil_iff, not_and_or]
      exact (Conversion.placeholder_of_ofPair hparts).imp (hside ha) (hside hb)
    next => exact Built.reasoned_identity rfl
  | other =>
    simp only [combine]
    split
    next => exact Built.reasoned_identity (foldl_both_conversion _ rfl)
    next => exact Built.reasoned_obstruct _ _

/-- **A placeholder inside a conversion**, at whatever depth, has a reason. -/
theorem reasoned_element (t : ResolvedType) : (g.element t).Reasoned := by
  induction t using ResolvedType.induction with | _ t ih =>
  cases hc : g.project.categoryOf t with
  | generic base =>
    rw [element_of_generic hc]
    refine reasoned_combine base t.args fun s hs => ?_
    obtain ⟨u, hu, hus⟩ := List.mem_map.mp hs
    obtain ⟨u, rfl, rfl⟩ := Option.map_eq_some_iff.mp hus
    exact ih u hu
  | userClass d k =>
    rw [element_of_userClass hc]
    split
    · simp [Built.Reasoned, Conversion.parts]
    · exact Built.reasoned_identity rfl
  | _ =>
    obtain ⟨written, name, importName, classId, args⟩ := t
    rw [element, hc]
    exact Built.reasoned_identity rfl

/-- A placeholder in the conversion of a field has a reason, or the type of the field is itself a class without a counterpart. -/
theorem placeholder_argument {c : ClassId} {f : Field} (h : .placeholder ∈ (g.argument c f).1.conversion.parts) :
    (g.argument c f).2.obstacles ≠ [] ∨ (∃ d, g.project.categoryOf (g.project.resolve c f.ty) = .unsupported d) ∨
      ∃ d k, g.project.categoryOf (g.project.resolve c f.ty) = .userClass d k ∧ g.table.ref? d = none := by
  rw [conversion_argument] at h
  cases hc : g.project.categoryOf (g.project.resolve c f.ty) with
  | generic base =>
    have hk : (g.argument c f).2 = g.element (g.project.resolve c f.ty) := by
      rw [element_of_generic hc, ResolvedType.argTypes, ← elements_eq]
      simp only [argument, hc]
    rw [hk] at h ⊢
    exact .inl (reasoned_element _ h)
  | userClass d k =>
    refine .inr (.inr ⟨d, k, rfl, ?_⟩)
    cases hr : g.table.ref? d with
    | none => rfl
    | some target => cases k <;> simp [argument, hc, hr, Conversion.parts] at h
  | unsupported d => exact .inr (.inl ⟨d, rfl⟩)
  | basic b => simp [argument, hc, Built.pure, Conversion.parts] at h
  | foreign => simp [argument, hc, Built.pure, Conversion.parts] at h

/-- A function that constructs is that of a data class, with an argument for each field. -/
theorem args_draft {c : ClassId} {r : Ref} {name : String} {args : List Argument}
    (h : (g.draft c r).function.body = .construct name args) :
    (g.project.decl c).isEnum = false ∧ args = (g.project.decl c).visibleFields.map fun f => (g.argument c f).1 := by
  rw [draft] at h
  cases hdata : (g.project.decl c).isEnum with
  | true => simp [hdata] at h
  | false =>
    simp only [hdata, Bool.false_eq_true, if_false, FunctionBody.construct.injEq, List.map_map] at h
    exact ⟨rfl, h.2.symm⟩

/-- The function of a class warns of every field whose conversion has a reason for a placeholder. -/
theorem warnsAt_draft {c : ClassId} {f : Field} (r : Ref) (hdata : (g.project.decl c).isEnum = false)
    (hf : f ∈ (g.project.decl c).visibleFields) (h : (g.argument c f).2.obstacles ≠ []) :
    WarnsAt (g.draft c r).diagnostics (g.project.qualifiedName c ++ "." ++ f.name) := by
  obtain ⟨o, ho⟩ := List.exists_mem_of_ne_nil _ h
  refine ⟨g.warningFor c f o, ?_, rfl, rfl⟩
  simp only [draft, hdata, Bool.false_eq_true, if_false, List.mem_flatMap, List.mem_map]
  exact ⟨_, ⟨f, hf, rfl⟩, o, ho, rfl⟩

end Setting

end Mapper

/-! ## Runs -/

/-- The function of the class leaves a placeholder in the conversion of the field, at whatever depth. -/
def Generation.Stubs (g : Generation) (p : Project) (c : ClassId) (f : Field) : Prop :=
  ∃ fn ∈ g.workspace.functions, fn.source = c ∧ ∃ target args a, fn.body = .construct target args ∧
    (f, a) ∈ (p.decl c).visibleFields.zip args ∧ .placeholder ∈ a.conversion.parts

namespace Generation.Stages

variable {g : Generation} {p : Project} {o : Options} {n : Naming} {plan : Plan} {w w₁ : Workspace}
  {r : Entity.Generator.Result} {ms : List Diagnostic}

/-- Every function of the run is that of a draft whose messages were given out. -/
theorem exists_draft (h : g.Stages p o n plan w w₁ r ms) {fn : Function} (hfn : fn ∈ g.workspace.functions) :
    ∃ target, fn = ((Mapper.Setting.mk p n r.table).draft fn.source target).function ∧
      ((Mapper.Setting.mk p n r.table).draft fn.source target).diagnostics ⊆ ms := by
  obtain ⟨hw, hms⟩ := Mapper.Setting.run_ok h.functions
  obtain ⟨file, hfile, hfn⟩ := List.mem_flatMap.mp hfn
  obtain ⟨i, hi, rfl⟩ := List.getElem_of_mem hfile
  have hi' : i < g.workspace.files.size := by simpa using hi
  have hfile : g.workspace.files.toList[i] = g.workspace.file i := by simp [Workspace.file, hi']
  rw [hw, Mapper.Setting.size_afterDrafts] at hi'
  rw [hfile, hw, Mapper.Setting.file_afterDrafts hi'] at hfn
  simp only [h.functions_eq_nil, List.nil_append] at hfn
  obtain ⟨d, hd, rfl⟩ := List.mem_map.mp hfn
  have hd := (List.mem_filter.mp hd).1
  obtain ⟨c, target, -, rfl⟩ := Mapper.Setting.exists_of_mem_drafts hd
  rw [Mapper.Setting.source_function]
  refine ⟨target, rfl, ?_⟩
  rw [hms, Mapper.Setting.diagnostics_afterDrafts, List.nil_append]
  exact fun m hm => List.mem_flatMap.mpr ⟨_, hd, hm⟩

/-- A class that a field names was come to. -/
theorem isSkipped_of_ref? (h : g.Stages p o n plan w w₁ r ms) {c d : ClassId} {target : Ref} {f : Field} {k : UserKind}
    (hc : r.table.ref? c = some target) (hf : f ∈ (p.decl c).visibleFields)
    (hd : p.categoryOf (p.resolve c f.ty) = .userClass d k) (hnone : r.table.ref? d = .none) :
    p.IsSkipped r.table (p.resolve c f.ty) d := by
  refine ⟨Entity.Table.isSkipped_of_contains (h.complete.closed c target hc d ?_) hnone, k, hd⟩
  exact List.mem_flatMap.mpr ⟨f, hf, Project.mem_mentioned_iff.mpr (.itself hd)⟩

end Generation.Stages

/-- **Nothing is left to the user in silence**: after a run that succeeds, whenever the type of a visible field of a generated
class leaves a class out or its conversion has a placeholder, there is a warning at the field or, when the type of the field is
itself a class that was skipped, at that class. -/
theorem Hooks.omissions_warned {σ : Type} {h : Hooks σ} {p : Project} {o : Options} {s s' : σ} {g : Generation}
    (hrun : h.run [] p o s = (s', .ok g)) :
    ∃ t, g.table = some t ∧ ∀ c r, t.ref? c = some r → ∀ f ∈ (p.decl c).visibleFields,
      p.LeavesOut t (p.resolve c f.ty) ∨ g.Stubs p c f →
        WarnsAt g.diagnostics (p.qualifiedName c ++ "." ++ f.name) ∨
          ∃ d, p.IsSkipped t (p.resolve c f.ty) d ∧ WarnsAt g.diagnostics (p.qualifiedName d) := by
  obtain ⟨n, plan, w, w₁, r, ms, hstages⟩ := h.stages_of_run hrun
  refine ⟨r.table, hstages.table, fun c target hc f hf => ?_⟩
  obtain ⟨onDisk, hplan⟩ := hstages.planned
  have hroot := Project.lt_size_of_isSupported hstages.supported
  obtain ⟨hskipped, hfields⟩ := Entity.Generator.warned_run (g := ⟨p, plan, n⟩) hroot
    (Entity.covered_of_planned hroot (Planner.run_planned hplan)) hstages.entities
  have hentity : r.diagnostics ⊆ g.diagnostics := by
    rw [hstages.diagnostics]
    exact List.Subset.trans (List.subset_append_right _ _) (List.subset_append_left _ _)
  have hmapper : ms ⊆ g.diagnostics := by
    rw [hstages.diagnostics]
    exact List.subset_append_right _ _
  -- a type that leaves a class out is noticed when the parameter is generated
  have left : p.LeavesOut r.table (p.resolve c f.ty) → WarnsAt g.diagnostics (p.qualifiedName c ++ "." ++ f.name) ∨
      ∃ d, p.IsSkipped r.table (p.resolve c f.ty) d ∧ WarnsAt g.diagnostics (p.qualifiedName d) := by
    intro hout
    rcases Entity.ParamDraft.unsupported_ofField (n := n) hout with hne | ⟨d, hd⟩
    · exact .inl ((hfields c target f hc hf hne).mono hentity)
    · exact .inr ⟨d, hd, (hskipped d hd.1).mono hentity⟩
  rintro (hout | ⟨fn, hfn, rfl, name, args, a, hbody, ha, hparts⟩)
  · exact left hout
  obtain ⟨target', hdraft, hsub⟩ := hstages.exists_draft hfn
  generalize fn.source = c at hc hf hdraft hsub ha left ⊢
  subst hdraft
  obtain ⟨hdata, rfl⟩ := Mapper.Setting.args_draft hbody
  obtain ⟨i, hi⟩ := List.mem_iff_getElem?.mp ha
  obtain ⟨hfi, hai⟩ := List.getElem?_zip_eq_some.mp hi
  rw [List.getElem?_map, hfi, Option.map_some] at hai
  obtain rfl : ((Mapper.Setting.mk p n r.table).argument c f).1 = a := Option.some.inj hai
  rcases Mapper.Setting.placeholder_argument hparts with hne | ⟨d, hd⟩ | ⟨d, k, hd, hnone⟩
  · exact .inl (((Mapper.Setting.warnsAt_draft target' hdata hf hne).mono hsub).mono hmapper)
  · exact left (.unsupported hd)
  · exact left (.skipped hd (hstages.isSkipped_of_ref? hc hf hd hnone).1)

/-- A class that is skipped because another `S` took its name, and a list of maps with a star, which cannot be converted. -/
def gapsProject : Project :=
  .ofSource ("data class R(val a: O.S, val b: S, val c: List<Map<*, O.S>>)\ndata class S(val x: Int)\n" ++
    "class O \x7b data class S(val y: Int) \x7d")

/-- The placeholder for the maps inside the list is warned of. -/
theorem omissions_warned_gapsProject :
    ∃ g t f, (Hooks.none fun _ => false).run [] gapsProject (.ofClass "R") () = ((), .ok g) ∧ g.table = some t ∧
      t.isSkipped 1 = true ∧ f ∈ (gapsProject.decl 0).visibleFields ∧ f.name = "c" ∧ g.Stubs gapsProject 0 f ∧
      (WarnsAt g.diagnostics (gapsProject.qualifiedName 0 ++ "." ++ f.name) ∨
        ∃ d, gapsProject.IsSkipped t (gapsProject.resolve 0 f.ty) d ∧ WarnsAt g.diagnostics (gapsProject.qualifiedName d)) := by
  have hrun : (((Hooks.none fun _ => false).run [] gapsProject (.ofClass "R") ()).2.toOption.map fun g =>
      (g.table.map fun t => (t.ref? 0, t.isSkipped 1), g.workspace.functions.head?.map fun fn => (fn.source, fn.body))) =
        some (some (some ⟨0, ["RModel"]⟩, true), some (0, .construct "RModel" [⟨"aModel", "a", false, .mapper "mapToModel"⟩,
          ⟨"b", "b", false, .placeholder⟩, ⟨"c", "c", false, .collection .placeholder false none⟩])) := by decide +kernel
  have hfield : (((gapsProject.decl 0).visibleFields[2]?).map (·.name)) = some "c" := by decide +kernel
  obtain ⟨g, hg, hresult⟩ := Option.map_eq_some_iff.mp hrun
  obtain ⟨f, hf, hname⟩ := Option.map_eq_some_iff.mp hfield
  have hg := eq_ok_of_toOption hg
  obtain ⟨htable, hfunction⟩ := Prod.mk.inj hresult
  obtain ⟨t, ht, hentries⟩ := Option.map_eq_some_iff.mp htable
  obtain ⟨href, hskipped⟩ := Prod.mk.inj hentries
  obtain ⟨fn, hfn, hfn'⟩ := Option.map_eq_some_iff.mp hfunction
  obtain ⟨hsource, hbody⟩ := Prod.mk.inj hfn'
  have hmem := List.mem_of_getElem? hf
  have hstubs : g.Stubs gapsProject 0 f :=
    ⟨fn, List.mem_of_head? hfn, hsource, _, _, _, hbody,
      List.mem_of_getElem? (List.getElem?_zip_eq_some.mpr ⟨hf, rfl⟩), by decide⟩
  obtain ⟨t', ht', hadmits⟩ := Hooks.omissions_warned hg
  cases ht.symm.trans ht'
  exact ⟨g, t, f, hg, ht, hskipped, hmem, hname, hstubs, hadmits 0 _ href f hmem (.inr hstubs)⟩

end Counterpart
