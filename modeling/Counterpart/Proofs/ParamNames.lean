/-
The names of parameters. A field of a class with a counterpart gives its parameter a name with the suffix, any other field
its own name. So fields of different names give parameters of different names, unless one is called by the very name that
another one takes (`Hooks.paramNames_apart_iff`).
-/
import Counterpart.Proofs.Agreement

namespace Counterpart

open Kotlin Output

/-! ## Names of fields and of parameters -/

/-- Whether the type of a field of the class `c` is itself a counterpart in generated code. -/
def Project.takesSuffix (p : Project) (t : Entity.Table) (c : ClassId) (f : Field) : Bool :=
  match p.categoryOf (p.resolve c f.ty) with
  | .userClass e _ => (t.ref? e).isSome
  | _ => false

/-- One field of the class `c` takes the suffix into the name of its parameter, and another one has that name. -/
def Project.Clashes (p : Project) (n : Naming) (t : Entity.Table) (c : ClassId) : Prop :=
  ∃ f ∈ (p.decl c).visibleFields, ∃ f' ∈ (p.decl c).visibleFields,
    p.takesSuffix t c f = true ∧ p.takesSuffix t c f' = false ∧ f'.name = n.fieldName f.name

/-- The parameters of a declaration have different names, and so have the arguments of the functions that build it. -/
structure Generation.NamesApart (g : Generation) (d : Declaration) : Prop where
  params : (d.params.map (·.name)).Nodup
  arguments : ∀ f ∈ g.workspace.functions, f.source = d.source → ∀ target args, f.body = .construct target args →
    (args.map (·.name)).Nodup

/-- Declarations for classes whose fields have different names keep these apart. -/
def Generation.KeepsNamesApart (g : Generation) (p : Project) : Prop :=
  ∀ r d, g.workspace.declaration? r = some d → ((p.decl d.source).visibleFields.map (·.name)).Nodup → g.NamesApart d

namespace Entity

variable {g : Generator} {t : Table} {c : ClassId}

theorem name_ofField (p : Project) (n : Naming) (t : Table) (c : ClassId) (f : Field) :
    (ParamDraft.ofField p n t c f).param.name = if p.takesSuffix t c f then n.fieldName f.name else f.name := by
  unfold ParamDraft.ofField Project.takesSuffix
  cases hc : p.categoryOf (p.resolve c f.ty) with
  | userClass e k =>
    cases hs : t.ref? e with
    | none => simp [hc, hs]
    | some target => simp [hc, hs]
  | _ => simp only [hc, Bool.false_eq_true, if_false]

theorem fieldName_injective (n : Naming) : Function.Injective n.fieldName := by
  intro a b h
  have h' := congrArg String.toList h
  rw [Naming.fieldName, Naming.fieldName, String.toList_append, String.toList_append] at h'
  exact String.toList_injective (List.append_cancel_right h')

/-- **Parameters for fields of different names** have different names exactly when no field has the name that another one
takes. -/
theorem nodup_params_iff (hfields : ((g.project.decl c).visibleFields.map (·.name)).Nodup) :
    ((g.params t c).map (·.name)).Nodup ↔ ¬ g.project.Clashes g.naming t c := by
  have hinj := List.inj_on_of_nodup_map hfields
  rw [Generator.params, List.map_map, List.nodup_map_iff_inj_on (.of_map _ hfields)]
  simp only [Function.comp_apply, name_ofField]
  constructor
  · rintro hall ⟨f, hf, f', hf', htakes, hkeeps, hname⟩
    have : f = f' := hall f hf f' hf' (by rw [if_pos htakes, hkeeps, if_neg Bool.false_ne_true, hname])
    rw [this, hkeeps] at htakes
    cases htakes
  · intro hclear f hf f' hf' hname
    cases htakes : g.project.takesSuffix t c f <;> cases htakes' : g.project.takesSuffix t c f' <;>
      simp only [htakes, htakes', if_true, if_false, Bool.false_eq_true] at hname
    · exact hinj hf hf' hname
    · exact absurd ⟨f', hf', f, hf, htakes', htakes, hname⟩ hclear
    · exact absurd ⟨f, hf, f', hf', htakes, htakes', hname.symm⟩ hclear
    · exact hinj hf hf' (fieldName_injective _ hname)

end Entity

/-! ## Runs -/

namespace Generation.Made

variable {g : Generation} {p : Project} {n : Naming} {plan : Plan} {t : Entity.Table} {cs : List ClassId}

/-- The arguments of a function are called like the parameters of the declaration that it builds. -/
theorem names_args (h : g.Made p n plan t cs) {f : Function} (hf : f ∈ g.workspace.functions) {target : String}
    {args : List Argument} (hbody : f.body = .construct target args) :
    args.map (·.name) = ((Entity.Generator.mk p plan n).params t f.source).map (·.name) := by
  obtain ⟨r, -, hdraft⟩ := h.eq_draft hf
  generalize f.source = c at hdraft ⊢
  subst hdraft
  rw [← names_argument]
  cases henum : (p.decl c).isEnum with
  | true => simp [Mapper.Setting.draft, henum] at hbody
  | false =>
    simp only [Mapper.Setting.draft, henum, Bool.false_eq_true, if_false, FunctionBody.construct.injEq] at hbody
    rw [← hbody.2, List.map_map, List.map_map]
    rfl

theorem namesApart_iff (h : g.Made p n plan t cs) {r : Ref} {d : Declaration} (hd : g.workspace.declaration? r = some d)
    (hfields : ((p.decl d.source).visibleFields.map (·.name)).Nodup) :
    g.NamesApart d ↔ ¬ p.Clashes n t d.source := by
  have hparams := h.params_of_declaration? hd
  have hiff := Entity.nodup_params_iff (g := ⟨p, plan, n⟩) (t := t) hfields
  rw [← hparams] at hiff
  constructor
  · intro hapart
    exact hiff.mp hapart.params
  · intro hclear
    refine ⟨hiff.mpr hclear, fun f hf hsource target args hbody => ?_⟩
    rw [h.names_args hf hbody, hsource, ← hparams]
    exact hiff.mpr hclear

end Generation.Made

/-- **Names stay apart** from the fields of a class to the parameters of its counterpart, in a run that succeeds, exactly when no
field has the name that another one takes. -/
theorem Hooks.paramNames_apart_iff {σ : Type} {h : Hooks σ} {p : Project} {o : Options} {s s' : σ} {g : Generation}
    (hrun : h.run [] p o s = (s', .ok g)) :
    ∃ n t, g.naming = some n ∧ g.table = some t ∧ ∀ r d, g.workspace.declaration? r = some d →
      ((p.decl d.source).visibleFields.map (·.name)).Nodup → (g.NamesApart d ↔ ¬ p.Clashes n t d.source) := by
  obtain ⟨n, plan, t, cs, hmade⟩ := h.made_of_run hrun
  exact ⟨n, t, hmade.naming, hmade.table, fun r d hd hfields => hmade.namesApart_iff hd hfields⟩

/-- A class whose second field has the name that the first one takes. -/
def clashingProject : Project :=
  .ofSource "package demo\ndata class R(val a: A, val aModel: Int)\ndata class A(val x: Int)"

/-- What is generated for the class: two parameters `aModel`. -/
theorem clashing_generated :
    ∃ g d, (Hooks.none fun _ => false).run [] clashingProject (.ofClass "R") () = ((), .ok g) ∧
      g.workspace.declaration? ⟨0, ["RModel"]⟩ = some d ∧ d.source = 0 ∧ d.params.map (·.name) = ["aModel", "aModel"] ∧
      ((clashingProject.decl 0).visibleFields.map (·.name)).Nodup := by
  have hrun : (((Hooks.none fun _ => false).run [] clashingProject (.ofClass "R") ()).2.toOption.bind fun g =>
      (g.workspace.declaration? ⟨0, ["RModel"]⟩).map fun d => (d.source, d.params.map (·.name))) =
        some (0, ["aModel", "aModel"]) := by decide +kernel
  have hfields : ((clashingProject.decl 0).visibleFields.map (·.name)).Nodup := by decide +kernel
  obtain ⟨g, hg, hresult⟩ := Option.bind_eq_some_iff.mp hrun
  obtain ⟨d, hd, hnames⟩ := Option.map_eq_some_iff.mp hresult
  exact ⟨g, d, eq_ok_of_toOption hg, hd, congrArg Prod.fst hnames, congrArg Prod.snd hnames, hfields⟩

theorem paramNames_apart_iff_clashingProject :
    ∃ g d, (Hooks.none fun _ => false).run [] clashingProject (.ofClass "R") () = ((), .ok g) ∧
      g.workspace.declaration? ⟨0, ["RModel"]⟩ = some d ∧
      ((clashingProject.decl d.source).visibleFields.map (·.name)).Nodup ∧
      ∃ n t, g.naming = some n ∧ g.table = some t ∧ (g.NamesApart d ↔ ¬ clashingProject.Clashes n t d.source) := by
  obtain ⟨g, d, hg, hd, hsource, -, hfields⟩ := clashing_generated
  rw [← hsource] at hfields
  obtain ⟨n, t, hn, ht, hiff⟩ := Hooks.paramNames_apart_iff hg
  exact ⟨g, d, hg, hd, hfields, n, t, hn, ht, hiff _ d hd hfields⟩

/-- The fields of the class have different names, the parameters of its counterpart have one. -/
theorem clashing_not_apart :
    ∃ g, (Hooks.none fun _ => false).run [] clashingProject (.ofClass "R") () = ((), .ok g) ∧
      ¬ g.KeepsNamesApart clashingProject := by
  obtain ⟨g, d, hg, hd, hsource, hnames, hfields⟩ := clashing_generated
  refine ⟨g, hg, fun hapart => ?_⟩
  have hparams := (hapart _ d hd (by rwa [hsource])).params
  rw [hnames] at hparams
  exact absurd hparams (by decide)

end Counterpart
