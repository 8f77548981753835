/-
References to counterparts in the types of parameters. The type of a parameter has in its text, in order, the qualified names
of the counterparts of the classes that the field names, directly or inside arguments (`names_dependencies`); a property of
references is stated about all of them at once (`Generation.ForReferences`).
-/
import Mathlib.Data.List.Forall2
import Counterpart.Proofs.Run

namespace Counterpart

open Kotlin Output Text

namespace Entity

/-! ## Names in a text -/

/-- The qualified names of the addresses stand in the text one after the other, with other text around them. -/
inductive Names : List Ref → String → Prop
  | none (text : String) : Names [] text
  | next {r : Ref} {refs : List Ref} {rest : String} (before : String) (h : Names refs rest) :
    Names (r :: refs) (before ++ r.qualifiedName ++ rest)

namespace Names

variable {rs ss : List Ref} {a b : String}

theorem append_left (h : Names rs b) (a : String) : Names rs (a ++ b) := by
  cases h with
  | none => exact .none _
  | next before h =>
    rw [← String.append_assoc, ← String.append_assoc]
    exact .next (a ++ before) h

theorem append (h : Names rs a) (h' : Names ss b) : Names (rs ++ ss) (a ++ b) := by
  induction h with
  | none text => exact h'.append_left text
  | next before _ ih =>
    rw [List.cons_append, String.append_assoc]
    exact .next before ih

theorem append_right (h : Names rs a) (b : String) : Names rs (a ++ b) := by
  rw [← List.append_nil rs]
  exact h.append (.none b)

theorem join {sep : String} {texts : List String} (h : Names ss (Text.join sep texts)) (ha : Names rs a) :
    Names (rs ++ ss) (Text.join sep (a :: texts)) := by
  cases texts with
  | nil =>
    have := ha.append h
    rwa [Text.join, String.append_empty] at this
  | cons b texts =>
    rw [join_cons (List.cons_ne_nil b texts)]
    exact (ha.append_right sep).append h

end Names

/-! ## Names in a substituted type -/

variable {p : Project}

theorem names_counterpartType (t : ResolvedType) (target : Ref) : Names [target] (counterpartType t target) := by
  have : Names [target] ("" ++ target.qualifiedName ++ (t.argsText ++ t.nullableMark)) := .next "" (.none _)
  rwa [String.empty_append, ← String.append_assoc] at this

mutual

/-- **The text of a substituted type** has the names of the counterparts that it depends on, in order. -/
theorem names_dependencies (u : ClassId → Option Ref) :
    ∀ t : ResolvedType, Names (substituteType p u t).dependencies (substituteType p u t).value
  | ⟨written, name, importName, classId, args⟩ => by
    rw [substituteType]
    cases p.categoryOf ⟨written, name, importName, classId, args⟩ with
    | userClass c k =>
      simp only
      cases u c with
      | none => exact .none _
      | some target => exact names_counterpartType _ target
    | generic base =>
      simp only
      rw [Substituted.argsText]
      exact ((((names_dependencies_args u args).append_left "<").append_right ">").append_left _).append_right _
    | unsupported c => exact .none _
    | basic b => exact .none _
    | foreign => exact .none _

theorem names_dependencies_args (u : ClassId → Option Ref) :
    ∀ as : List (TypeArg ResolvedType), Names (substituteArgs p u as).dependencies
      (join ", " ((substituteArgs p u as).value.map SubstitutedArg.text))
  | [] => .none _
  | a :: as => by
    rw [substituteArgs]
    exact (names_dependencies_args u as).join (names_dependencies_arg u a)

theorem names_dependencies_arg (u : ClassId → Option Ref) :
    ∀ a : TypeArg ResolvedType, Names (substituteArg p u a).dependencies (substituteArg p u a).value.text
  | .star => .none _
  | .type variance ty => (names_dependencies u ty).append_left variance.marker

end

end Entity

/-! ## References in parameters -/

/-- The classes with a counterpart that a field of the class `c` names, in order, with the addresses of the counterparts. -/
def Project.references (p : Project) (t : Entity.Table) (c : ClassId) (f : Field) : List (ClassId × Ref) :=
  (p.mentionedBy c f).filterMap fun e => (t.ref? e).map (e, ·)

theorem Project.mem_references {p : Project} {t : Entity.Table} {c e : ClassId} {f : Field} {s : Ref} :
    (e, s) ∈ p.references t c f ↔ e ∈ p.mentionedBy c f ∧ t.ref? e = some s := by
  simp only [references, List.mem_filterMap, Option.map_eq_some_iff, Prod.mk.injEq]
  constructor
  · rintro ⟨e, he, s, hs, rfl, rfl⟩
    exact ⟨he, hs⟩
  · rintro ⟨he, hs⟩
    exact ⟨e, he, s, hs, rfl, rfl⟩

/-- `P` holds of every reference in the type of the parameter `q` that stands for a field of the class `c`. -/
structure Project.ForNames (p : Project) (t : Entity.Table) (c : ClassId) (f : Field) (q : Param)
    (P : ClassId → Ref → Prop) : Prop where
  ty : q.ty = (Entity.substituteType p t.ref? (p.resolve c f.ty)).value
  names : Entity.Names ((p.references t c f).map (·.2)) q.ty
  all : ∀ x ∈ p.references t c f, P x.1 x.2

/-- `P` holds of every reference to a counterpart in the type of a parameter, given the address of the declaration that has
the parameter, the class that the field names and the address of its counterpart. -/
def Generation.ForReferences (g : Generation) (p : Project) (P : Ref → ClassId → Ref → Prop) : Prop :=
  ∃ t, g.table = some t ∧ ∀ r d, g.workspace.declaration? r = some d →
    List.Forall₂ (fun f q => p.ForNames t d.source f q (P r)) (p.decl d.source).visibleFields d.params

theorem Generation.ForReferences.of_mem {g : Generation} {p : Project} {t : Entity.Table} {P : Ref → ClassId → Ref → Prop}
    (h : g.ForReferences p P) (ht : g.table = some t) {r : Ref} {d : Declaration} {c : ClassId}
    (hd : g.workspace.declaration? r = some d) (hc : d.source = c) {f : Field} (hf : f ∈ (p.decl c).visibleFields)
    {x : ClassId × Ref} (hx : x ∈ p.references t c f) : P r x.1 x.2 := by
  obtain ⟨t', ht', hall⟩ := h
  cases ht.symm.trans ht'
  have hfields := (List.forall₂_and_left _ _).mp ((hall r d hd).imp fun _ _ hq => ⟨hq.all, hq⟩)
  rw [hc] at hfields
  exact hfields.1 f hf x hx

/-- What holds of two counterparts one of which refers to the other holds of all references. -/
theorem Generation.Made.forReferences {g : Generation} {p : Project} {n : Naming} {plan : Plan} {t : Entity.Table}
    {cs : List ClassId} (h : g.Made p n plan t cs) {P : Ref → ClassId → Ref → Prop}
    (hP : ∀ c r e s, t.ref? c = some r → t.ref? e = some s → P r e s) : g.ForReferences p P := by
  refine ⟨t, h.table, fun r d hd => ?_⟩
  have hr := h.ref?_iff.mpr ⟨d, hd, rfl⟩
  rw [h.params_of_declaration? hd, Entity.Generator.params, List.forall₂_map_right_iff, List.forall₂_same]
  intro f _
  have hty := Entity.ParamDraft.ty_ofField (p := p) n t d.source f
  refine ⟨hty, ?_, fun x hx => hP d.source r x.1 x.2 hr (Project.mem_references.mp hx).2⟩
  have hrefs : (p.references t d.source f).map (·.2) =
      (Entity.substituteType p t.ref? (p.resolve d.source f.ty)).dependencies := by
    rw [Entity.dependencies_substituteType, Project.references, List.map_filterMap]
    refine List.filterMap_congr fun e _ => ?_
    cases t.ref? e <;> rfl
  rw [hrefs, hty]
  exact Entity.names_dependencies t.ref? _

end Counterpart
