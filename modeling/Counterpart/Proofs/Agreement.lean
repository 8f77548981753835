/-
Functions fit the counterparts that they build. A parameter is named while its class is being generated, in the middle of
whatever cycle the class is part of; the argument for it is named afterwards, from the finished table. The two come out the
same for every function of a run, and branches over an enum pair its constants with those of its counterpart.
-/
import Mathlib.Data.List.Forall2
import Counterpart.Proofs.Run

namespace Counterpart

open Kotlin Output

/-- The branches lead from each constant of the enum `c`, in order, to the constant of the same name in `d`, the enum at
the address `r`. -/
structure Project.PairsEntries (p : Project) (c : ClassId) (r : Ref) (d : Declaration) (arms : List Arm) : Prop where
  kind : d.kind = .enum
  entries : List.Forall₂ (fun (e : EnumEntry) (arm : Arm) =>
    arm.source = p.nestedPath c ++ "." ++ e.name ∧ arm.target = r.qualifiedName ++ "." ++ e.name ∧ e ∈ d.entries)
    (p.decl c).entries arms

/-- Every branch over constants in the argument for a field is the one for the enum that the field has as its type. -/
def Project.BranchesPair (p : Project) (t : Entity.Table) (w : Workspace) (owner : ClassId) (f : Field) (a : Argument) :
    Prop :=
  ∀ arms, .enumWhen arms ∈ a.conversion.parts →
    ∃ e r d, p.categoryOf (p.resolve owner f.ty) = .userClass e .enum ∧ t.ref? e = some r ∧
      w.declaration? r = some d ∧ p.PairsEntries e r d arms

/-- A function builds the declaration `d` at the address `r` from its source. -/
structure Project.Fits (p : Project) (t : Entity.Table) (w : Workspace) (f : Function) (r : Ref) (d : Declaration) :
    Prop where
  construct : (p.decl f.source).isEnum = false → ∃ args, f.body = .construct r.qualifiedName args ∧
    args.map (·.name) = d.params.map (·.name) ∧
    args.map (·.source) = (p.decl f.source).visibleFields.map (·.name) ∧
    List.Forall₂ (p.BranchesPair t w f.source) (p.decl f.source).visibleFields args
  enumWhen : (p.decl f.source).isEnum = true → ∃ arms, f.body = .enumWhen arms ∧ p.PairsEntries f.source r d arms

/-- Every function builds the counterpart of its source. -/
def Generation.FunctionsFit (g : Generation) (p : Project) : Prop :=
  ∃ t, g.table = some t ∧ ∀ f ∈ g.workspace.functions, ∃ r d, t.ref? f.source = some r ∧
    g.workspace.declaration? r = some d ∧ p.Fits t g.workspace f r d

namespace Generation.Made

variable {g : Generation} {p : Project} {n : Naming} {plan : Plan} {t : Entity.Table} {cs : List ClassId}
variable {c : ClassId} {r : Ref}

/-- The branches for an enum with a counterpart pair the constants of the two. -/
theorem exists_pairsEntries (h : g.Made p n plan t cs) (hr : t.ref? c = some r) (henum : (p.decl c).isEnum = true) :
    ∃ d, g.workspace.declaration? r = some d ∧ p.PairsEntries c r d ((Mapper.Setting.mk p n t).arms c r) := by
  obtain ⟨d, hd, -, hentries, hkind⟩ := h.exists_declaration? hr
  refine ⟨d, hd, hkind henum, ?_⟩
  rw [Mapper.Setting.arms, List.forall₂_map_right_iff, List.forall₂_same]
  intro e he
  exact ⟨rfl, rfl, hentries ▸ he⟩

theorem branchesPair (h : g.Made p n plan t cs) (c : ClassId) (f : Field) :
    p.BranchesPair t g.workspace c f ((Mapper.Setting.mk p n t).argument c f).1 := by
  intro arms harms
  obtain ⟨e, target, hcat, htarget, rfl⟩ := Mapper.Setting.enumWhen_of_mem_parts harms
  have henum : (p.decl e).isEnum = true := by
    simp [ClassDecl.isEnum, (Project.categoryOf_eq_userClass hcat).2]
  obtain ⟨d, hd, hpairs⟩ := h.exists_pairsEntries htarget henum
  exact ⟨e, target, d, hcat, htarget, hd, hpairs⟩

/-- The names of the arguments are those of the parameters. -/
theorem names_argument (c : ClassId) :
    ((p.decl c).visibleFields.map fun f => ((Mapper.Setting.mk p n t).argument c f).1.name) =
      ((Entity.Generator.mk p plan n).params t c).map (·.name) := by
  rw [Entity.Generator.params, List.map_map]
  exact List.map_congr_left fun f _ => Mapper.Setting.name_argument c f

theorem fits (h : g.Made p n plan t cs) {d : Declaration} (hr : t.ref? c = some r)
    (hd : g.workspace.declaration? r = some d) :
    p.Fits t g.workspace ((Mapper.Setting.mk p n t).draft c r).function r d := by
  obtain ⟨d', hd', hparams, -, -⟩ := h.exists_declaration? hr
  cases hd.symm.trans hd'
  constructor
  · rw [Mapper.Setting.source_function]
    intro hdata
    refine ⟨(p.decl c).visibleFields.map fun f => ((Mapper.Setting.mk p n t).argument c f).1, ?_, ?_, ?_, ?_⟩
    · simp [Mapper.Setting.draft, hdata]
    · rw [hparams, ← names_argument, List.map_map]
      rfl
    · rw [List.map_map]
      rfl
    · rw [List.forall₂_map_right_iff, List.forall₂_same]
      intro f _
      exact h.branchesPair c f
  · rw [Mapper.Setting.source_function]
    intro henum
    obtain ⟨d', hd', hpairs⟩ := h.exists_pairsEntries hr henum
    cases hd.symm.trans hd'
    exact ⟨_, by simp [Mapper.Setting.draft, henum], hpairs⟩

end Generation.Made

/-- **Every function of a run that succeeds** builds the counterpart of its source, argument by argument and constant by
constant. -/
theorem Hooks.functions_fit {σ : Type} {h : Hooks σ} {p : Project} {o : Options} {s s' : σ} {g : Generation}
    (hrun : h.run [] p o s = (s', .ok g)) : g.FunctionsFit p := by
  obtain ⟨n, plan, t, cs, hmade⟩ := h.made_of_run hrun
  refine ⟨t, hmade.table, fun f hf => ?_⟩
  obtain ⟨r, hr, hfr⟩ := hmade.eq_draft hf
  obtain ⟨d, hd, -⟩ := hmade.exists_declaration? hr
  refine ⟨r, d, hr, hd, ?_⟩
  rw [hfr]
  exact hmade.fits hr hd

/-- Two data classes that lead to each other, and an enum. -/
def paintProject : Project :=
  .ofSource ("data class Paint(val shade: Shade, val layers: List<Layer>)\n" ++
    "data class Layer(val under: Paint?)\nenum class Shade \x7b DARK, LIGHT \x7d")

theorem functions_fit_paintProject :
    ∃ g, (Hooks.none fun _ => false).run [] paintProject (.ofClass "Paint") () = ((), .ok g) ∧
      g.FunctionsFit paintProject := by
  obtain ⟨_, g, hg⟩ := exists_of_isSome
    (x := (Hooks.none fun _ => false).run [] paintProject (.ofClass "Paint") ()) (by decide +kernel)
  exact ⟨g, hg, Hooks.functions_fit hg⟩

end Counterpart
