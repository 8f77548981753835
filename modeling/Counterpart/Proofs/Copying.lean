/-
Values that are copied as they are. Conversions and generated types come from two walks over one type. The walks part where
a conversion passes arguments over: there a generated type can name a counterpart while the value is copied, as with
`Pair<*, A>`. These are the only such places (`unchanged_iff`).
-/
import Counterpart.Proofs.Run

namespace Counterpart

open Kotlin Output

/-! ## Where values are copied -/

/-- Where a conversion copies: the conversion of a value of one type takes a part of the other type as it is. -/
inductive Copied : Conversion → TypeRef → TypeRef → Prop
  | here (ty : TypeRef) : Copied .identity ty ty
  | inside {k e : Conversion} {ty u part : TypeRef} {v : Variance} {i : Nat} (he : k.ofArg? i = some e)
    (hu : ty.args[i]? = some (.type v u)) (h : Copied e u part) : Copied k ty part

/-- A type of the class `c` in generated code. -/
def Project.generatedType (p : Project) (t : Entity.Table) (c : ClassId) (ty : TypeRef) : Entity.Substituted String :=
  Entity.substituteType p t.ref? (p.resolve c ty)

/-- The type is in generated code as it is written, or in part left to the user. -/
def Project.StaysAsWritten (p : Project) (t : Entity.Table) (c : ClassId) (ty : TypeRef) : Prop :=
  (p.generatedType t c ty).value = ty.render ∨ Entity.HasPlaceholder (p.generatedType t c ty).value

/-- The type in generated code names no counterpart. -/
def Project.NamesNone (p : Project) (t : Entity.Table) (c : ClassId) (ty : TypeRef) : Prop :=
  (p.generatedType t c ty).dependencies = []

/-- `P` holds of every part of a field that the argument for it copies. The parameter has the generated type of the field,
in which those of the parts are. -/
structure Project.ForParts (p : Project) (t : Entity.Table) (c : ClassId) (f : Field) (a : Argument) (q : Param)
    (P : TypeRef → Prop) : Prop where
  ty : q.ty = (p.generatedType t c f.ty).value
  copied : ∀ part, Copied a.conversion f.ty part → Entity.Within (p.generatedType t c part).value q.ty ∧ P part

/-- `P` holds of every part of a field that a function copies, given the table and the class of the field. -/
def Generation.ForCopies (g : Generation) (p : Project) (P : Entity.Table → ClassId → TypeRef → Prop) : Prop :=
  ∃ t, g.table = some t ∧ ∀ f ∈ g.workspace.functions, (p.decl f.source).isEnum = false →
    ∃ r d args, t.ref? f.source = some r ∧ g.workspace.declaration? r = some d ∧
      f.body = .construct r.qualifiedName args ∧
      ∀ (i : Nat) (field : Field), (p.decl f.source).visibleFields[i]? = some field →
        ∃ a q, args[i]? = some a ∧ d.params[i]? = some q ∧ p.ForParts t f.source field a q (P t f.source)

/-! ## Copied parts of a type -/

theorem Project.resolveArgs_eq (p : Project) (c : ClassId) (as : List (TypeArg TypeRef)) :
    p.resolveArgs c as = as.map (p.resolveArg c) := by
  induction as with
  | nil => rfl
  | cons a as ih => rw [resolveArgs, ih, List.map_cons]

theorem Project.mem_args_resolve {p : Project} {c : ClassId} {ty u : TypeRef} {v : Variance} {i : Nat}
    (h : ty.args[i]? = some (.type v u)) : .type v (p.resolve c u) ∈ (p.resolve c ty).args := by
  cases ty with
  | function nullable text => cases h
  | named name args nullable text =>
    rw [resolve, resolveArgs_eq]
    exact List.mem_map_of_mem (f := p.resolveArg c) (List.mem_of_getElem? h)

theorem Project.argTypes_resolve {p : Project} {c : ClassId} {ty u : TypeRef} {v : Variance} {i : Nat}
    (h : ty.args[i]? = some (.type v u)) : (p.resolve c ty).argTypes[i]? = some (some (p.resolve c u)) := by
  cases ty with
  | function nullable text => cases h
  | named name args nullable text =>
    rw [ResolvedType.argTypes, List.getElem?_map, resolve, resolveArgs_eq, List.getElem?_map]
    rw [TypeRef.args] at h
    rw [h]
    rfl

namespace Mapper.Setting

variable {g : Setting} {c : ClassId} {k : Conversion} {ty part : TypeRef}

/-- A copied part is one that a conversion of its own would copy, and its generated type is inside the whole. -/
theorem element_of_copied (h : Copied k ty part) (hk : k = (g.element (g.project.resolve c ty)).conversion) :
    (g.element (g.project.resolve c part)).conversion = .identity ∧
      Entity.Within (g.project.generatedType g.table c part).value (g.project.generatedType g.table c ty).value := by
  induction h with
  | here ty => exact ⟨hk.symm, .refl _⟩
  | inside he hu h ih =>
    -- only the conversion of a type with arguments has one for an argument
    obtain hk' | hk' | ⟨base, hc, hk'⟩ := g.element_cases (g.project.resolve c _) <;> rw [← hk] at hk'
    · rw [hk'] at he
      cases he
    · rw [hk'] at he
      cases he
    · obtain ⟨s, hs, rfl⟩ := hk'.side he
      obtain ⟨u', hu', rfl⟩ := side_of_getElem? hs
      rw [Project.argTypes_resolve hu] at hu'
      cases hu'
      obtain ⟨hidentity, hwithin⟩ := ih rfl
      exact ⟨hidentity, hwithin.trans (Entity.within_substituteType hc (Project.mem_args_resolve hu))⟩

/-- What is copied of a field is copied of any value of its type. -/
theorem element_of_copied_argument {f : Field} (h : Copied (g.argument c f).1.conversion f.ty part) :
    (g.element (g.project.resolve c part)).conversion = .identity ∧
      Entity.Within (g.project.generatedType g.table c part).value (g.project.generatedType g.table c f.ty).value := by
  rw [conversion_argument] at h
  rcases g.argument_cases c f with hk | ⟨hk, -⟩ | ⟨e, target, -, -, hk⟩
  · exact element_of_copied h (congrArg Built.conversion hk)
  · rw [hk] at h
    cases h with | inside he => cases he
  · rw [hk] at h
    cases h with | inside he => cases he

/-- **A copied part** stays as written and names no counterpart exactly when it conceals no class that has one. -/
theorem unchanged_iff (h : (g.element (g.project.resolve c part)).conversion = .identity) :
    g.project.StaysAsWritten g.table c part ∧ g.project.NamesNone g.table c part ↔
      ∀ d ∈ g.project.concealed (g.project.resolve c part), g.table.ref? d = none := by
  have hconverted : ∀ d ∈ g.project.converted (g.project.resolve c part), g.table.ref? d = none := by
    have hcalls := g.isIdentity_element (g.project.resolve c part)
    rw [h, Conversion.isIdentity_identity, eq_comm, List.isEmpty_iff, calls_element, List.filter_eq_nil_iff] at hcalls
    intro d hd
    simpa using hcalls d hd
  have hnames : g.project.NamesNone g.table c part ↔
      ∀ d ∈ g.project.mentioned (g.project.resolve c part), g.table.ref? d = none := by
    rw [Project.NamesNone, Project.generatedType, Entity.dependencies_substituteType, List.filterMap_eq_nil_iff]
  rw [hnames]
  constructor
  · intro ⟨_, hmentioned⟩ d hd
    exact hmentioned d (Project.mem_mentioned.mpr (.inr hd))
  · intro hconcealed
    have hmentioned : ∀ d ∈ g.project.mentioned (g.project.resolve c part), g.table.ref? d = none := by
      intro d hd
      exact (Project.mem_mentioned.mp hd).elim (hconverted d) (hconcealed d)
    exact ⟨Entity.value_substituteType c part hmentioned, hmentioned⟩

end Mapper.Setting

/-! ## Runs -/

/-- **What is copied in a run that succeeds** is as it was written exactly when none of the classes that the conversion
passes over has a counterpart. -/
theorem Hooks.copies_iff {σ : Type} {h : Hooks σ} {p : Project} {o : Options} {s s' : σ} {g : Generation}
    (hrun : h.run [] p o s = (s', .ok g)) :
    g.ForCopies p fun t c part =>
      (p.StaysAsWritten t c part ∧ p.NamesNone t c part ↔ ∀ d ∈ p.concealed (p.resolve c part), t.ref? d = .none) := by
  obtain ⟨n, plan, t, cs, hmade⟩ := h.made_of_run hrun
  refine ⟨t, hmade.table, fun f hf hdata => ?_⟩
  obtain ⟨r, hr, hfr⟩ := hmade.eq_draft hf
  obtain ⟨d, hd, hparams, -⟩ := hmade.exists_declaration? hr
  generalize f.source = c at hdata hr hfr hparams ⊢
  subst hfr
  refine ⟨r, d, (p.decl c).visibleFields.map fun f => ((Mapper.Setting.mk p n t).argument c f).1, hr, hd,
    by simp [Mapper.Setting.draft, hdata], fun i field hi => ?_⟩
  refine ⟨((Mapper.Setting.mk p n t).argument c field).1, (Entity.ParamDraft.ofField p n t c field).param, ?_, ?_,
    Entity.ParamDraft.ty_ofField n t c field, fun part hpart => ?_⟩
  · rw [List.getElem?_map, hi]
    rfl
  · rw [hparams, Entity.Generator.params, List.getElem?_map, hi]
    rfl
  · obtain ⟨hidentity, hwithin⟩ := Mapper.Setting.element_of_copied_argument hpart
    rw [Entity.ParamDraft.ty_ofField]
    exact ⟨hwithin, Mapper.Setting.unchanged_iff hidentity⟩

/-- A pair one half of which is a star: its conversion passes over the class `A` of the other half. -/
def starPairProject : Project :=
  .ofSource "package demo\ndata class R(val p: Pair<*, A>)\ndata class A(val x: Int)"

/-- What is generated for the pair: `Pair<*, AModel>`, for which the value is copied. -/
theorem starPair_generated :
    ∃ g t f d, (Hooks.none fun _ => false).run [] starPairProject (.ofClass "R") () = ((), .ok g) ∧
      g.table = some t ∧ (starPairProject.decl 0).visibleFields[0]? = some d ∧
      f ∈ g.workspace.functions ∧ f.source = 0 ∧ f.body = .construct "RModel" [⟨"p", "p", false, .identity⟩] ∧
      (starPairProject.decl 0).isEnum = false ∧ d.ty.render = "Pair<*, A>" ∧
      (starPairProject.generatedType t 0 d.ty).value = "Pair<*, AModel>" ∧
      (starPairProject.generatedType t 0 d.ty).dependencies = [⟨0, ["AModel"]⟩] := by
  let t : Entity.Table := ⟨[(0, .generated ⟨0, ["RModel"]⟩), (1, .generated ⟨0, ["AModel"]⟩)]⟩
  have hrun : (((Hooks.none fun _ => false).run [] starPairProject (.ofClass "R") ()).2.toOption.map fun g =>
      (g.table, g.workspace.functions.map fun f => (f.source, f.body))) =
        some (some t, [(0, .construct "RModel" [⟨"p", "p", false, .identity⟩])]) := by decide +kernel
  have hfield : ((starPairProject.decl 0).visibleFields[0]?.map fun d =>
      ((starPairProject.decl 0).isEnum, d.ty.render, (starPairProject.generatedType t 0 d.ty).value,
        (starPairProject.generatedType t 0 d.ty).dependencies)) =
          some (false, "Pair<*, A>", "Pair<*, AModel>", [⟨0, ["AModel"]⟩]) := by decide +kernel
  obtain ⟨g, hg, hresult⟩ := Option.map_eq_some_iff.mp hrun
  obtain ⟨d, hd, htype⟩ := Option.map_eq_some_iff.mp hfield
  simp only [Prod.mk.injEq] at hresult htype
  obtain ⟨ht, hfunctions⟩ := hresult
  obtain ⟨f, hf, hfd⟩ := List.mem_map.mp (hfunctions ▸ List.mem_singleton_self _)
  exact ⟨g, t, f, d, eq_ok_of_toOption hg, ht, hd, hf, congrArg Prod.fst hfd, congrArg Prod.snd hfd, htype⟩

theorem copies_iff_starPairProject :
    ∃ g, (Hooks.none fun _ => false).run [] starPairProject (.ofClass "R") () = ((), .ok g) ∧
      g.ForCopies starPairProject fun t c part =>
        (starPairProject.StaysAsWritten t c part ∧ starPairProject.NamesNone t c part ↔
          ∀ d ∈ starPairProject.concealed (starPairProject.resolve c part), t.ref? d = none) := by
  obtain ⟨g, -, -, -, hg, -⟩ := starPair_generated
  exact ⟨g, hg, Hooks.copies_iff hg⟩

/-- A copied pair neither stays as written nor does without counterparts. -/
theorem starPair_not_unchanged :
    ∃ g, (Hooks.none fun _ => false).run [] starPairProject (.ofClass "R") () = ((), .ok g) ∧
      ¬ g.ForCopies starPairProject starPairProject.StaysAsWritten ∧
      ¬ g.ForCopies starPairProject starPairProject.NamesNone := by
  obtain ⟨g, t, f, field, hg, ht, hfield, hf, hsource, hbody, henum, hrender, hvalue, hnames⟩ := starPair_generated
  have copied : ∀ {P}, g.ForCopies starPairProject P → P t 0 field.ty := by
    rintro P ⟨t', ht', h⟩
    cases ht.symm.trans ht'
    obtain ⟨r, d, args, -, -, hargs, hparts⟩ := h f hf (by rw [hsource, henum])
    rw [hbody] at hargs
    obtain ⟨-, rfl⟩ := FunctionBody.construct.inj hargs
    rw [hsource] at hparts
    obtain ⟨a, q, ha, -, hforParts⟩ := hparts 0 field hfield
    cases ha
    exact (hforParts.copied _ (.here _)).2
  refine ⟨g, hg, fun h => ?_, fun h => ?_⟩
  · rcases copied h with h | h
    · rw [hvalue, hrender] at h
      exact absurd h (by decide)
    · rw [hvalue] at h
      exact absurd h.length_le (by decide)
  · have hnone : (starPairProject.generatedType t 0 field.ty).dependencies = [] := copied h
    rw [hnames] at hnone
    cases hnone

end Counterpart
