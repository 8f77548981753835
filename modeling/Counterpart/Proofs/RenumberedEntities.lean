/-
Counterparts that differ in numbers. Over renumbered classes and planned files that correspond (`Generator.Renumbered`) types
are substituted alike and every step of the walk does the same (`Renumbered.place`, `addField`, `finish`), so the walk ends with
alike workspaces, the same table but for the numbers and the same messages (`Renumbered.run`).
-/
import Counterpart.Proofs.Placing
import Counterpart.Proofs.RenumberedOutput
import Counterpart.Proofs.Renumbering

namespace Counterpart

/-- The names when the classes have other numbers. -/
def Naming.renumber (f : ClassId → ClassId) (n : Naming) : Naming := { n with root := f n.root }

theorem Project.Renumbered.className {f : ClassId → ClassId} {dom : ClassId → Prop} {p p' : Project}
    (h : p.Renumbered f dom p') (n : Naming) (c : ClassId) : (n.renumber f).className p' (f c) = n.className p c := by
  simp only [Naming.className, Naming.renumber, h.injective.eq_iff, (h.decl c).name]

namespace Entity

open Kotlin Output

/-! ## Other numbers -/

/-- The outcome with another number for the file. -/
def Outcome.renumber (ρ : OutputId → OutputId) : Outcome → Outcome
  | generated target => .generated (target.renumber ρ)
  | skipped => .skipped

/-- The table with other numbers for classes and files. -/
def Table.renumber (f : ClassId → ClassId) (ρ : OutputId → OutputId) (t : Table) : Table :=
  ⟨t.entries.map fun e => (f e.1, e.2.renumber ρ)⟩

def Scope.renumber (f : ClassId → ClassId) (ρ : OutputId → OutputId) (sc : Scope) : Scope :=
  ⟨f sc.source, sc.target.renumber ρ⟩

def Step.renumber (f : ClassId → ClassId) (ρ : OutputId → OutputId) : Step → Step
  | visit c scope => .visit (f c) (scope.map (Scope.renumber f ρ))
  | field scope fd => .field (scope.renumber f ρ) fd
  | finish scope => .finish (scope.renumber f ρ)

/-- The class that a step is about. -/
def Step.subject : Step → ClassId
  | visit c _ => c
  | field scope _ => scope.source
  | finish scope => scope.source

def Substituted.renumber {α : Type} (f : ClassId → ClassId) (ρ : OutputId → OutputId) (r : Substituted α) : Substituted α :=
  ⟨r.value, r.dependencies.map (Ref.renumber ρ), r.imports, r.unsupported.map f⟩

def ParamDraft.renumber (f : ClassId → ClassId) (d : ParamDraft) : ParamDraft :=
  ⟨d.param, d.imports, d.unsupported.map f⟩

variable {f : ClassId → ClassId} {ρ : OutputId → OutputId}

namespace Table

theorem outcome?_renumber (hf : Function.Injective f) (t : Table) (c : ClassId) :
    (t.renumber f ρ).outcome? (f c) = (t.outcome? c).map (Outcome.renumber ρ) := by
  obtain ⟨entries⟩ := t
  induction entries with
  | nil => rfl
  | cons e es ih =>
    simp only [outcome?, renumber, List.map_cons, List.find?_cons] at ih ⊢
    rw [show (f e.1 == f c) = (e.1 == c) by rw [Bool.eq_iff_iff, beq_iff_eq, beq_iff_eq, hf.eq_iff]]
    split
    · rfl
    · exact ih

theorem ref?_renumber (hf : Function.Injective f) (t : Table) (c : ClassId) :
    (t.renumber f ρ).ref? (f c) = (t.ref? c).map (Ref.renumber ρ) := by
  rw [ref?, outcome?_renumber hf, ref?]
  cases t.outcome? c with
  | none => rfl
  | some o => cases o <;> rfl

theorem add_renumber (t : Table) (c : ClassId) (o : Outcome) :
    (t.add c o).renumber f ρ = (t.renumber f ρ).add (f c) (o.renumber ρ) := by
  simp only [add, renumber, List.map_append, List.map_singleton]

end Table

/-! ## Types -/

mutual

theorem importsOfType_renumber : ∀ t : ResolvedType, importsOfType (t.renumber f) = importsOfType t
  | ⟨_, _, _, _, args⟩ => by rw [ResolvedType.renumber, importsOfType, importsOfType, importsOfArgs_renumber args]

theorem importsOfArgs_renumber : ∀ as : List (TypeArg ResolvedType),
    importsOfArgs (ResolvedType.renumberArgs f as) = importsOfArgs as
  | [] => rfl
  | a :: as => by
    rw [ResolvedType.renumberArgs, importsOfArgs, importsOfArgs, importsOfArg_renumber a, importsOfArgs_renumber as]

theorem importsOfArg_renumber : ∀ a : TypeArg ResolvedType, importsOfArg (ResolvedType.renumberArg f a) = importsOfArg a
  | .star => rfl
  | .type _ ty => by rw [ResolvedType.renumberArg, importsOfArg, importsOfArg, importsOfType_renumber ty]

end

theorem counterpartType_renumber (t : ResolvedType) (target : Ref) :
    counterpartType (t.renumber f) (target.renumber ρ) = counterpartType t target := by
  simp only [counterpartType, Ref.qualifiedName_renumber, ResolvedType.argsText, ResolvedType.nullableMark,
    ResolvedType.written_renumber]

section

variable {dom : ClassId → Prop} {p p' : Project} {u u' : ClassId → Option Ref}

mutual

/-- **A type** is substituted alike. -/
theorem substituteType_renumber (h : p.Renumbered f dom p') (hu : ∀ c, u' (f c) = (u c).map (Ref.renumber ρ)) :
    ∀ t : ResolvedType, substituteType p' u' (t.renumber f) = (substituteType p u t).renumber f ρ
  | ⟨written, qualifiedName, importName, classId, args⟩ => by
    have hcategory := h.categoryOf ⟨written, qualifiedName, importName, classId, args⟩
    have htext := fun target : Ref =>
      counterpartType_renumber (f := f) (ρ := ρ) ⟨written, qualifiedName, importName, classId, args⟩ target
    rw [ResolvedType.renumber] at hcategory htext ⊢
    rw [substituteType, substituteType, hcategory]
    cases p.categoryOf ⟨written, qualifiedName, importName, classId, args⟩ with
    | userClass id kind =>
      simp only [Category.renumber, hu]
      cases u id with
      | none => rfl
      | some target =>
        simp only [Option.map_some, htext]
        rfl
    | generic base =>
      simp only [Category.renumber, substituteArgs_renumber h hu args]
      rfl
    | unsupported id => rfl
    | basic b => rfl
    | foreign => rfl

theorem substituteArgs_renumber (h : p.Renumbered f dom p') (hu : ∀ c, u' (f c) = (u c).map (Ref.renumber ρ)) :
    ∀ as : List (TypeArg ResolvedType),
      substituteArgs p' u' (ResolvedType.renumberArgs f as) = (substituteArgs p u as).renumber f ρ
  | [] => rfl
  | a :: as => by
    rw [ResolvedType.renumberArgs, substituteArgs, substituteArgs, substituteArg_renumber h hu a,
      substituteArgs_renumber h hu as]
    simp only [Substituted.both, Substituted.renumber, List.map_append]

theorem substituteArg_renumber (h : p.Renumbered f dom p') (hu : ∀ c, u' (f c) = (u c).map (Ref.renumber ρ)) :
    ∀ a : TypeArg ResolvedType,
      substituteArg p' u' (ResolvedType.renumberArg f a) = (substituteArg p u a).renumber f ρ
  | .star => rfl
  | .type _ ty => by
    rw [ResolvedType.renumberArg, substituteArg, substituteArg, substituteType_renumber h hu ty]
    rfl

end

theorem categoryOf_eq_unsupported {t : ResolvedType} {c : ClassId} (h : p.categoryOf t = .unsupported c) :
    t.classId = some c := by
  unfold Project.categoryOf at h
  split at h
  · cases h
  split at h
  next id hid =>
    split at h
    · cases h
    · cases h
    · split at h
      · cases h
        exact hid
      · cases h
  next =>
    split at h
    · cases h
    split at h <;> cases h

mutual

/-- What the placeholder stands for are classes of the type. -/
theorem dom_of_unsupported (h : p.Renumbered f dom p') {c : ClassId} :
    ∀ t : ResolvedType, t.Within dom → c ∈ (substituteType p u t).unsupported → dom c
  | ⟨written, qualifiedName, importName, classId, args⟩, ht, hc => by
    rw [substituteType] at hc
    cases hcategory : p.categoryOf ⟨written, qualifiedName, importName, classId, args⟩ with
    | userClass id kind =>
      simp only [hcategory] at hc
      split at hc
      · cases hc
      · rw [List.mem_singleton.mp hc]
        exact h.supported id (Project.isSupported_of_userClass hcategory)
    | generic base =>
      simp only [hcategory] at hc
      exact dom_of_unsupported_args h args ht.2 hc
    | unsupported id =>
      simp only [hcategory] at hc
      rw [List.mem_singleton.mp hc]
      exact ht.1 id (categoryOf_eq_unsupported hcategory)
    | basic b => simp [hcategory] at hc
    | foreign => simp [hcategory] at hc

theorem dom_of_unsupported_args (h : p.Renumbered f dom p') {c : ClassId} :
    ∀ as : List (TypeArg ResolvedType), ResolvedType.WithinArgs dom as → c ∈ (substituteArgs p u as).unsupported → dom c
  | [], _, hc => by cases hc
  | a :: as, has, hc => by
    rw [substituteArgs] at hc
    rcases List.mem_append.mp hc with hc | hc
    · exact dom_of_unsupported_arg h a has.1 hc
    · exact dom_of_unsupported_args h as has.2 hc

theorem dom_of_unsupported_arg (h : p.Renumbered f dom p') {c : ClassId} :
    ∀ a : TypeArg ResolvedType, ResolvedType.WithinArg dom a → c ∈ (substituteArg p u a).unsupported → dom c
  | .star, _, hc => by cases hc
  | .type _ ty, hty, hc => dom_of_unsupported h ty hty hc

end

/-! ## Parameters -/

variable {c : ClassId}

/-- **The parameter for a field** is the same. -/
theorem ParamDraft.ofField_renumber (h : p.Renumbered f dom p') (n : Naming) (t : Table) (hc : dom c) (fd : Field) :
    ofField p' (n.renumber f) (t.renumber f ρ) (f c) fd = (ofField p n t c fd).renumber f := by
  have hu := Table.ref?_renumber (ρ := ρ) h.injective t
  simp only [ofField, h.resolve hc, h.categoryOf]
  cases p.categoryOf (p.resolve c fd.ty) with
  | userClass id kind =>
    simp only [Category.renumber, hu]
    cases t.ref? id with
    | none => rfl
    | some target =>
      simp only [Option.map_some, counterpartType_renumber, ResolvedType.args_renumber, importsOfArgs_renumber]
      rfl
  | generic base =>
    simp only [Category.renumber, ResolvedType.args_renumber, substituteArgs_renumber h hu, ResolvedType.displayName,
      ResolvedType.nullableMark, ResolvedType.written_renumber, ResolvedType.importName_renumber]
    rfl
  | unsupported id => rfl
  | basic b =>
    simp only [Category.renumber, importsOfType_renumber]
    rfl
  | foreign =>
    simp only [Category.renumber, importsOfType_renumber]
    rfl

theorem dom_of_unsupported_ofField (h : p.Renumbered f dom p') {n : Naming} {t : Table} (hc : dom c) {fd : Field}
    {d : ClassId} (hd : d ∈ (ParamDraft.ofField p n t c fd).unsupported) : dom d := by
  have hwithin := ResolvedType.within_iff.mp (h.within_resolve hc fd.ty)
  simp only [ParamDraft.ofField] at hd
  cases hcategory : p.categoryOf (p.resolve c fd.ty) with
  | userClass id kind =>
    simp only [hcategory] at hd
    split at hd <;> cases hd
  | generic base =>
    simp only [hcategory] at hd
    exact dom_of_unsupported_args h _ hwithin.2 hd
  | unsupported id =>
    simp only [hcategory] at hd
    rw [List.mem_singleton.mp hd]
    exact hwithin.1 id (categoryOf_eq_unsupported hcategory)
  | basic b => simp [hcategory] at hd
  | foreign => simp [hcategory] at hd

end

/-! ## Steps -/

/-- What the two generations so far gave agrees but for the numbers. -/
structure State.Alike (f : ClassId → ClassId) (ρ : OutputId → OutputId) (s s' : State) : Prop where
  workspace : s.workspace.Alike f ρ s'.workspace
  table : s'.table = s.table.renumber f ρ
  diagnostics : s'.diagnostics = s.diagnostics

theorem State.Alike.warn {s s' : State} (h : s.Alike f ρ s') (message location : String) :
    (s.warn message location).Alike f ρ (s'.warn message location) :=
  ⟨h.workspace, h.table, by rw [State.warn, State.warn, h.diagnostics]⟩

/-- The two generators have the same to do, over classes and files with other numbers. -/
structure Generator.Renumbered (f : ClassId → ClassId) (ρ : OutputId → OutputId) (dom : ClassId → Prop)
    (g g' : Generator) : Prop where
  project : g.project.Renumbered f dom g'.project
  naming : g'.naming = g.naming.renumber f
  entityFile? : ∀ c, dom c →
    g'.plan.entityFile? (g'.project.decl (f c)).file = (g.plan.entityFile? (g.project.decl c).file).map ρ

namespace Generator.Renumbered

variable {dom : ClassId → Prop} {g g' : Generator} {c : ClassId} {s s' : State}

theorem placeOf (h : g.Renumbered f ρ dom g') (hc : dom c) (scope : Option Scope) :
    Agree (fun a b => b = a.renumber ρ) (g.placeOf c scope) (g'.placeOf (f c) (scope.map (Scope.renumber f ρ))) := by
  have htop : Agree (fun (a b : Place) => b = a.renumber ρ) (g.placeOf c none) (g'.placeOf (f c) none) := by
    simp only [Generator.placeOf, h.entityFile? c hc, h.project.qualifiedName hc, (h.project.fileOf c hc).path]
    cases g.plan.entityFile? (g.project.decl c).file with
    | none => exact .error _
    | some file => exact .ok rfl
  cases scope with
  | none => exact htop
  | some sc =>
    simp only [Generator.placeOf, Option.map_some, Scope.renumber, h.project.isNestedIn]
    split
    · exact .ok rfl
    · exact htop

theorem shell (h : g.Renumbered f ρ dom g') (c : ClassId) : g'.shell (f c) = (g.shell c).renumber f := by
  simp only [Generator.shell, h.naming, h.project.className, h.project.isEnum, (h.project.decl c).typeParams,
    (h.project.decl c).entries, Declaration.renumber_eq]
  rfl

theorem copiedImports (h : g.Renumbered f ρ dom g') (hc : dom c) : g'.copiedImports (f c) = g.copiedImports c := by
  simp only [Generator.copiedImports, h.project.visibleFields, (h.project.fileOf c hc).imports]

theorem fieldSteps (h : g.Renumbered f ρ dom g') (sc : Scope) (hc : dom sc.source) :
    g'.fieldSteps (sc.renumber f ρ) = (g.fieldSteps sc).map (Step.renumber f ρ) := by
  simp only [Generator.fieldSteps, Scope.renumber, h.project.visibleFields, h.project.mentionedBy hc, List.map_append,
    List.map_flatMap, List.map_map, List.map_singleton]
  rfl

/-- Placing the class, in both generations. -/
theorem place (h : g.Renumbered f ρ dom g') (hs : s.Alike f ρ s') (hc : dom c) (scope : Option Scope) :
    Agree (fun a b => a.1.Alike f ρ b.1 ∧ b.2 = a.2.map (Step.renumber f ρ)) (g.place c scope s)
      (g'.place (f c) (scope.map (Scope.renumber f ρ)) s') := by
  rw [Generator.place, Generator.place]
  refine (h.placeOf hc scope).bind fun place place' hplace => ?_
  rw [hplace]
  simp only [h.naming, h.project.className, hs.workspace.holds, h.project.qualifiedName hc]
  split
  · refine .ok ⟨⟨hs.workspace, ?_, ?_⟩, rfl⟩
    · simp only [State.warn, Table.add_renumber, hs.table]
      rfl
    · simp only [State.warn, hs.diagnostics]
  · rw [h.shell c]
    refine (hs.workspace.addDeclaration place (g.shell c)).bind fun w w' hw => ?_
    rw [h.copiedImports hc, Place.refTo_renumber]
    refine .ok ⟨⟨hw.addImports _ _, ?_, hs.diagnostics⟩, h.fieldSteps ⟨c, _⟩ hc⟩
    simp only [Table.add_renumber, hs.table]
    rfl

theorem addField (h : g.Renumbered f ρ dom g') (hs : s.Alike f ρ s') {scope : Scope} (hc : dom scope.source) (fd : Field) :
    (g.addField scope fd s).Alike f ρ (g'.addField (scope.renumber f ρ) fd s') := by
  have hwarn : ∀ (cs : List ClassId) (message : String → String) (location : String) {s s' : State}, (∀ c ∈ cs, dom c) →
      s.Alike f ρ s' →
      (cs.foldl (fun s c => s.warn (message (g.project.qualifiedName c)) location) s).Alike f ρ
        ((cs.map f).foldl (fun s c => s.warn (message (g'.project.qualifiedName c)) location) s') := by
    intro cs message location
    induction cs with
    | nil => exact fun _ hs => hs
    | cons c cs ih =>
      intro s s' hcs hs
      rw [List.map_cons, List.foldl_cons, List.foldl_cons, h.project.qualifiedName (hcs c List.mem_cons_self)]
      exact ih (fun d hd => hcs d (List.mem_cons_of_mem c hd)) (hs.warn _ _)
  simp only [Generator.addField, Scope.renumber, h.naming, hs.table, ParamDraft.ofField_renumber h.project _ _ hc,
    h.project.qualifiedName hc]
  refine hwarn _ (fun q => "`" ++ q ++ "` is not a data class or enum; implement `" ++ fd.name ++ "` manually") _
    (fun d hd => dom_of_unsupported_ofField h.project hc hd) ?_
  exact ⟨hs.workspace.addReferences _ _, rfl, hs.diagnostics⟩

theorem params (h : g.Renumbered f ρ dom g') (t : Table) (hc : dom c) :
    g'.params (t.renumber f ρ) (f c) = g.params t c := by
  simp only [Generator.params, h.project.visibleFields, h.naming, ParamDraft.ofField_renumber h.project _ _ hc]
  rfl

/-- Finishing the class, in both generations. -/
theorem finish (h : g.Renumbered f ρ dom g') (hs : s.Alike f ρ s') {scope : Scope} (hc : dom scope.source) :
    Agree (State.Alike f ρ) (g.finish scope s) (g'.finish (scope.renumber f ρ) s') := by
  have hparams : g'.params s'.table (scope.renumber f ρ).source = g.params s.table scope.source := by
    rw [hs.table]
    exact h.params s.table hc
  have hbare : (s'.workspace.declaration? (scope.renumber f ρ).target).any (·.kind == .data) =
      (s.workspace.declaration? scope.target).any (·.kind == .data) := by
    rw [Scope.renumber, hs.workspace.declaration?]
    cases s.workspace.declaration? scope.target <;> simp
  rw [Generator.finish, Generator.finish]
  simp only [hparams, hbare]
  refine (hs.workspace.updateDeclaration scope.target fun d => ?_).bind fun w w' hw => ?_
  · simp only [Declaration.renumber_eq]
  · have hs' : State.Alike f ρ { s with workspace := w } { s' with workspace := w' } := ⟨hw, hs.table, hs.diagnostics⟩
    simp only [Scope.renumber, h.project.qualifiedName hc, Ref.qualifiedName_renumber]
    split
    · exact .ok (hs'.warn _ _)
    · exact .ok hs'

end Generator.Renumbered

/-! ## The walk -/

namespace Generator

variable {g : Generator} {remaining : List ClassId} {s s' : State} {c : ClassId} {scope : Option Scope} {sc : Scope}
  {steps new : List Step} {e : Failure}

theorem walk_visit_of_not_mem (hc : c ∉ remaining) :
    g.walk remaining s (.visit c scope :: steps) = g.walk remaining s steps := by
  rw [walk, dif_neg hc]

theorem walk_visit_of_error (hc : c ∈ remaining) (hp : g.place c scope s = .error e) :
    g.walk remaining s (.visit c scope :: steps) = (s, some e) := by
  rw [walk, dif_pos hc]
  split
  next hp' => rw [hp] at hp'; cases hp'; rfl
  next hp' => rw [hp] at hp'; cases hp'

theorem walk_visit_of_ok (hc : c ∈ remaining) (hp : g.place c scope s = .ok (s', new)) :
    g.walk remaining s (.visit c scope :: steps) = g.walk (remaining.erase c) s' (new ++ steps) := by
  rw [walk, dif_pos hc]
  split
  next hp' => rw [hp] at hp'; cases hp'
  next hp' => rw [hp] at hp'; cases hp'; rfl

theorem walk_field (fd : Field) : g.walk remaining s (.field sc fd :: steps) = g.walk remaining (g.addField sc fd s) steps := by
  rw [walk]

theorem walk_finish_of_error (hf : g.finish sc s = .error e) : g.walk remaining s (.finish sc :: steps) = (s, some e) := by
  rw [walk, hf]

theorem walk_finish_of_ok (hf : g.finish sc s = .ok s') :
    g.walk remaining s (.finish sc :: steps) = g.walk remaining s' steps := by
  rw [walk, hf]

end Generator

namespace Generator.Renumbered

variable {dom : ClassId → Prop} {g g' : Generator} {c : ClassId} {s s' : State}

/-- The steps that a class adds are about classes of the project. -/
theorem dom_of_mem_fieldSteps (h : g.Renumbered f ρ dom g') (sc : Scope) (hc : dom sc.source) :
    ∀ step ∈ g.fieldSteps sc, dom step.subject := by
  intro step hstep
  rcases List.mem_append.mp hstep with hstep | hstep
  · obtain ⟨fd, hfd, hstep⟩ := List.mem_flatMap.mp hstep
    rcases List.mem_append.mp hstep with hstep | hstep
    · obtain ⟨d, hd, rfl⟩ := List.mem_map.mp hstep
      exact h.project.dom_of_mentions (List.mem_flatMap.mpr ⟨fd, hfd, hd⟩)
    · rw [List.mem_singleton.mp hstep]
      exact hc
  · rw [List.mem_singleton.mp hstep]
    exact hc

theorem dom_of_mem_place (h : g.Renumbered f ρ dom g') (hc : dom c) {scope : Option Scope} {new : List Step}
    (hp : g.place c scope s = .ok (s', new)) : ∀ step ∈ new, dom step.subject := by
  obtain ⟨place, _, ⟨_, rfl, _⟩ | ⟨_, target, w, _, _, rfl, _⟩⟩ := Generator.place_cases hp
  · nofun
  · exact h.dom_of_mem_fieldSteps ⟨c, target⟩ hc

/-- **The walk** does the same in both generations. -/
theorem walk (h : g.Renumbered f ρ dom g') {remaining remaining' : List ClassId}
    (hr : SameRemaining f remaining remaining') (hs : s.Alike f ρ s') {steps : List Step}
    (hsteps : ∀ step ∈ steps, dom step.subject) :
    (g.walk remaining s steps).1.Alike f ρ (g'.walk remaining' s' (steps.map (Step.renumber f ρ))).1 ∧
      (g'.walk remaining' s' (steps.map (Step.renumber f ρ))).2 = (g.walk remaining s steps).2 := by
  fun_induction g.walk remaining s steps generalizing remaining' s' with
  | case1 remaining s => simpa [Generator.walk] using hs
  | case2 remaining s c scope steps hc e hp =>
    have hsubject : dom c := hsteps _ List.mem_cons_self
    have hplace := h.place hs hsubject scope
    rw [hp] at hplace
    rw [List.map_cons, Step.renumber, walk_visit_of_error ((hr.mem c).mpr hc) hplace.of_error]
    exact ⟨hs, rfl⟩
  | case3 remaining s c scope steps hc s₁ new hp ih =>
    have hsubject : dom c := hsteps _ List.mem_cons_self
    have hplace := h.place hs hsubject scope
    rw [hp] at hplace
    obtain ⟨⟨s₁', new'⟩, hp', hs₁, rfl⟩ := hplace.of_ok
    rw [List.map_cons, Step.renumber, walk_visit_of_ok ((hr.mem c).mpr hc) hp', ← List.map_append]
    refine ih (hr.erase h.project.injective c) hs₁ fun step hstep => ?_
    rcases List.mem_append.mp hstep with hstep | hstep
    · exact h.dom_of_mem_place hsubject hp step hstep
    · exact hsteps step (List.mem_cons_of_mem _ hstep)
  | case4 remaining s c scope steps hc ih =>
    rw [List.map_cons, Step.renumber, walk_visit_of_not_mem (mt (hr.mem c).mp hc)]
    exact ih hr hs fun step hstep => hsteps step (List.mem_cons_of_mem _ hstep)
  | case5 remaining s scope fd steps ih =>
    rw [List.map_cons, Step.renumber, walk_field]
    exact ih hr (h.addField hs (hsteps _ List.mem_cons_self) fd) fun step hstep => hsteps step (List.mem_cons_of_mem _ hstep)
  | case6 remaining s scope steps e hf =>
    have hfinish := h.finish hs (hsteps _ List.mem_cons_self)
    rw [hf] at hfinish
    rw [List.map_cons, Step.renumber, walk_finish_of_error hfinish.of_error]
    exact ⟨hs, rfl⟩
  | case7 remaining s scope steps s₁ hf ih =>
    have hfinish := h.finish hs (hsteps _ List.mem_cons_self)
    rw [hf] at hfinish
    obtain ⟨s₁', hf', hs₁⟩ := hfinish.of_ok
    rw [List.map_cons, Step.renumber, walk_finish_of_ok hf']
    exact ih hr hs₁ fun step hstep => hsteps step (List.mem_cons_of_mem _ hstep)

/-- **The counterparts** are the same in both generations. -/
theorem run (h : g.Renumbered f ρ dom g') (hroot : dom g.naming.root) {w w' : Workspace} (hw : w.Alike f ρ w') :
    (g.run w).1.Alike f ρ (g'.run w').1 ∧
      Agree (fun r r' => r'.root = r.root.renumber ρ ∧ r'.table = r.table.renumber f ρ ∧ r'.diagnostics = r.diagnostics)
        (g.run w).2 (g'.run w').2 := by
  have hroot' : g'.naming.root = f g.naming.root := by rw [h.naming]; rfl
  have hstart : State.Alike f ρ ⟨w, .empty, []⟩ ⟨w', .empty, []⟩ := ⟨hw, rfl, rfl⟩
  have hsteps : ∀ step ∈ [Step.visit g.naming.root none], dom step.subject := by simpa [Step.subject] using hroot
  obtain ⟨hs, hfail⟩ := h.walk h.project.sameRemaining hstart hsteps
  simp only [Generator.run, hroot']
  rw [show [Step.visit (f g.naming.root) none] = [Step.visit g.naming.root none].map (Step.renumber f ρ) from rfl]
  generalize g.walk (List.range g.project.classes.size) ⟨w, .empty, []⟩ [.visit g.naming.root none] = r at hs hfail ⊢
  generalize g'.walk (List.range g'.project.classes.size) ⟨w', .empty, []⟩
    ([Step.visit g.naming.root none].map (Step.renumber f ρ)) = r' at hs hfail ⊢
  obtain ⟨s, o⟩ := r
  obtain ⟨s', o'⟩ := r'
  cases (hfail : o' = o)
  cases o with
  | some e => exact ⟨hs.workspace, .error e⟩
  | none =>
    refine ⟨hs.workspace, ?_⟩
    have href : s'.table.ref? (f g.naming.root) = (s.table.ref? g.naming.root).map (Ref.renumber ρ) := by
      rw [hs.table, Table.ref?_renumber h.project.injective]
    simp only [href, h.project.qualifiedName hroot]
    cases s.table.ref? g.naming.root with
    | none => exact .error _
    | some target => exact .ok ⟨rfl, hs.table, hs.diagnostics⟩

end Generator.Renumbered

end Entity

end Counterpart
