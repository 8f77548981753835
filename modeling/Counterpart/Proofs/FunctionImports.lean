/-
What a function wants imported: the class that it converts, the enums over whose constants its arguments branch, and the
references that are kept bare in the type arguments of a map that it rebuilds (`Setting.mem_imports_draft`). It keeps more than
these as written (`Setting.Keeps`): the bounds of its type parameters, and what stands behind counterparts in those arguments.
-/
import Counterpart.Code.File
import Counterpart.Proofs.KeptReferences
import Counterpart.Proofs.Queue

namespace Counterpart

open Kotlin Output Entity

/-- Converting a value of the type `t` converts values of the type `m`. -/
inductive Project.Enters (p : Project) (m : ResolvedType) : ResolvedType → Prop
  | self : Enters p m m
  | arg {t a : ResolvedType} {base : GenericBase} (hc : p.categoryOf t = .generic base) (ha : a ∈ base.entered t.argTypes)
    (h : Enters p m a) : Enters p m t

theorem Project.enters_iff {p : Project} {m t : ResolvedType} :
    p.Enters m t ↔ m = t ∨ ∃ base a, p.categoryOf t = .generic base ∧ a ∈ base.entered t.argTypes ∧ p.Enters m a := by
  constructor
  · rintro (_ | ⟨hc, ha, h⟩)
    · exact .inl rfl
    · exact .inr ⟨_, _, hc, ha, h⟩
  · rintro (rfl | ⟨base, a, hc, ha, h⟩)
    · exact .self
    · exact .arg hc ha h

namespace Mapper.Setting

variable {g : Setting} {c : ClassId} {name : String}

/-! ## Maps that are rebuilt -/

/-- The map is rebuilt: neither side is a star, and one of them changes. -/
def Rebuilds (g : Setting) (kind : MapKind) (m : ResolvedType) : Prop :=
  g.project.categoryOf m = .generic (.map kind) ∧ ∃ key value, m.argTypes[0]? = some (some key) ∧
    m.argTypes[1]? = some (some value) ∧
    ((g.element key).conversion.isIdentity && (g.element value).conversion.isIdentity) = false

/-- The map is rebuilt somewhere in the conversion of a value of the type `t`. -/
def RebuildsIn (g : Setting) (kind : MapKind) (m t : ResolvedType) : Prop :=
  g.project.Enters m t ∧ g.Rebuilds kind m

/-- The class that the map is rebuilt as, with its type arguments. -/
def builderOf (g : Setting) (kind : MapKind) (m : ResolvedType) : String :=
  kind.builder ++ (substituteArgs g.project g.table.ref? m.args).invariantText?.getD ""

theorem mem_imports_convertMap (kind : MapKind) (args : List (TypeArg ResolvedType)) (key value : Option Side) :
    name ∈ (g.convertMap kind args key value).imports ↔ (∃ side ∈ key.toList ++ value.toList, name ∈ side.built.imports) ∨
      ∃ k v, key = some k ∧ value = some v ∧ (k.built.conversion.isIdentity && v.built.conversion.isIdentity) = false ∧
        name ∈ (substituteArgs g.project g.table.ref? args).imports := by
  cases key with
  | none =>
    cases value with
    | none => simp [convertMap, Built.pure]
    | some value => simp only [convertMap]; split <;> simp [Built.obstruct]
  | some key =>
    cases value with
    | none => simp only [convertMap]; split <;> simp [Built.obstruct]
    | some value =>
      have hboth : (∃ k v, some key = some k ∧ some value = some v ∧
          (k.built.conversion.isIdentity && v.built.conversion.isIdentity) = false ∧
          name ∈ (substituteArgs g.project g.table.ref? args).imports) ↔
          (key.built.conversion.isIdentity && value.built.conversion.isIdentity) = false ∧
            name ∈ (substituteArgs g.project g.table.ref? args).imports := by
        constructor
        · rintro ⟨_, _, ⟨⟩, ⟨⟩, h⟩
          exact h
        · exact fun h => ⟨key, value, rfl, rfl, h⟩
      rw [hboth, convertMap]
      cases key.built.conversion.isIdentity && value.built.conversion.isIdentity with
      | true => simp [Built.both]
      | false => simp [Built.both, Built.importing, Built.replace, or_assoc]

theorem imports_foldl_both (sides : List Side) (b : Built) :
    (sides.foldl (fun b side => b.both .identity side.built) b).imports = b.imports ++ sides.flatMap (·.built.imports) := by
  induction sides generalizing b with
  | nil => simp
  | cons side sides ih => rw [List.foldl_cons, ih]; simp [Built.both]

/-- A type with arguments wants what the entered ones want and, for a map that is rebuilt, what its arguments want. -/
theorem mem_imports_combine (base : GenericBase) (args : List (TypeArg ResolvedType)) (sides : List (Option Side)) :
    name ∈ (g.combine base args sides).imports ↔ (∃ side ∈ base.entered sides, name ∈ side.built.imports) ∨
      ∃ kind k v, base = .map kind ∧ sides[0]?.join = some k ∧ sides[1]?.join = some v ∧
        (k.built.conversion.isIdentity && v.built.conversion.isIdentity) = false ∧
        name ∈ (substituteArgs g.project g.table.ref? args).imports := by
  cases base with
  | collection kind =>
    rw [combine, GenericBase.entered_ofCollection]
    cases sides[0]?.join with
    | none => simp [Built.pure]
    | some side => simp [Built.replace]
  | map kind =>
    rw [combine, mem_imports_convertMap, GenericBase.entered_ofMap]
    exact or_congr Iff.rfl (by simp)
  | pair =>
    obtain ⟨first, second, hentered, hcombine⟩ | ⟨hentered, hcombine⟩ := g.combine_pair args sides
    · rw [hentered, hcombine]
      simp [Built.both]
    · rw [hentered, hcombine]
      simp [Built.pure]
  | other =>
    simp only [combine, GenericBase.entered]
    split <;> simp [imports_foldl_both, Built.obstruct, Built.pure]

/-- **The conversion of a type** wants the references that are kept bare in the arguments of the maps that are rebuilt. -/
theorem mem_imports_element (t : ResolvedType) :
    name ∈ (g.element t).imports ↔ ∃ kind m, g.RebuildsIn kind m t ∧
      ∃ v a, .type v a ∈ m.args ∧ ∃ r, Bare g.project r a ∧ r.importName = some name := by
  induction t using ResolvedType.induction with | _ t ih =>
  have hself : (∃ kind m, g.RebuildsIn kind m t ∧
      ∃ v a, .type v a ∈ m.args ∧ ∃ r, Bare g.project r a ∧ r.importName = some name) ↔
      (∃ kind, g.Rebuilds kind t ∧ name ∈ (substituteArgs g.project g.table.ref? t.args).imports) ∨
        ∃ base a, g.project.categoryOf t = .generic base ∧ a ∈ base.entered t.argTypes ∧ ∃ kind m, g.RebuildsIn kind m a ∧
          ∃ v b, .type v b ∈ m.args ∧ ∃ r, Bare g.project r b ∧ r.importName = some name := by
    simp only [mem_imports_substituteArgs]
    constructor
    · rintro ⟨kind, m, ⟨henters, hm⟩, hname⟩
      rcases Project.enters_iff.mp henters with rfl | ⟨base, a, hc, ha, henters⟩
      · exact .inl ⟨kind, hm, hname⟩
      · exact .inr ⟨base, a, hc, ha, kind, m, ⟨henters, hm⟩, hname⟩
    · rintro (⟨kind, hm, hname⟩ | ⟨base, a, hc, ha, kind, m, ⟨henters, hm⟩, hname⟩)
      · exact ⟨kind, t, ⟨.self, hm⟩, hname⟩
      · exact ⟨kind, m, ⟨.arg hc ha henters, hm⟩, hname⟩
  rw [hself]
  cases hc : g.project.categoryOf t with
  | generic base =>
    rw [element_of_generic hc, mem_imports_combine, GenericBase.entered_map, or_comm]
    refine or_congr ?_ ?_
    · simp only [Rebuilds, hc, Category.generic.injEq]
      constructor
      · rintro ⟨kind, k, v, hbase, hk, hv, hchanges, hname⟩
        obtain ⟨key, hkey, rfl⟩ := side_of_getElem? (Option.join_eq_some_iff.mp hk)
        obtain ⟨value, hvalue, rfl⟩ := side_of_getElem? (Option.join_eq_some_iff.mp hv)
        exact ⟨kind, ⟨hbase, key, value, hkey, hvalue, hchanges⟩, hname⟩
      · rintro ⟨kind, ⟨hbase, key, value, hkey, hvalue, hchanges⟩, hname⟩
        refine ⟨kind, g.side key, g.side value, hbase, ?_, ?_, hchanges, hname⟩
        · rw [List.getElem?_map, hkey]; rfl
        · rw [List.getElem?_map, hvalue]; rfl
    · simp only [List.mem_map, exists_exists_and_eq_and, Category.generic.injEq, exists_and_left, exists_eq_left']
      refine exists_congr fun a => and_congr_right fun ha => ?_
      exact ih a ((base.mem_entered_or_passedOver _ _).mpr (.inl ha))
  | userClass d k =>
    rw [element_of_userClass hc]
    split <;> simp [Rebuilds, hc, Built.pure]
  | _ =>
    obtain ⟨written, qualifiedName, importName, classId, args⟩ := t
    simp [element, Rebuilds, hc, Built.pure]

/-! ## Functions -/

/-- The function of a class wants a qualified name imported. -/
inductive Wants (g : Setting) (c : ClassId) (name : String) : Prop
  /-- To name the class. -/
  | source (h : g.importOf c = name)
  /-- To name the constants of an enum that a field has. -/
  | enum {f : Field} {e : ClassId} {target : Ref} (hc : (g.project.decl c).isEnum = false)
    (hf : f ∈ (g.project.decl c).visibleFields)
    (he : g.project.categoryOf (g.project.resolve c f.ty) = .userClass e .enum) (htarget : g.table.ref? e = some target)
    (h : g.importOf e = name)
  /-- To name the types in a map that is rebuilt. -/
  | map {f : Field} {kind : MapKind} {m a r : ResolvedType} {v : Variance} (hc : (g.project.decl c).isEnum = false)
    (hf : f ∈ (g.project.decl c).visibleFields) (hm : g.RebuildsIn kind m (g.project.resolve c f.ty))
    (ha : .type v a ∈ m.args) (hr : Bare g.project r a) (h : r.importName = some name)

theorem mem_imports_argument (c : ClassId) (f : Field) :
    name ∈ (g.argument c f).2.imports ↔
      (∃ e target, g.project.categoryOf (g.project.resolve c f.ty) = .userClass e .enum ∧ g.table.ref? e = some target ∧
        g.importOf e = name) ∨ name ∈ (g.element (g.project.resolve c f.ty)).imports := by
  simp only [argument]
  generalize g.project.resolve c f.ty = t
  obtain ⟨written, qualifiedName, importName, classId, args⟩ := t
  rw [element]
  cases hc : g.project.categoryOf ⟨written, qualifiedName, importName, classId, args⟩ with
  | userClass d k =>
    have hnone : name ∉ (if (g.table.ref? d).isSome then ⟨.mapper g.naming.functionName, [d], [], []⟩
        else Built.pure .identity).imports := by
      split <;> simp [Built.pure]
    cases hd : g.table.ref? d with
    | none => cases k <;> simp [Built.pure, hd]
    | some target => cases k <;> simp [hd, eq_comm]
  | _ => simp [Built.pure]

/-- **What a function imports** is what it wants imported. -/
theorem mem_imports_draft (c : ClassId) (target : Ref) : name ∈ (g.draft c target).imports ↔ g.Wants c name := by
  rw [draft]
  cases hkind : (g.project.decl c).isEnum with
  | true =>
    simp only [if_true, List.mem_singleton]
    constructor
    · exact fun h => .source h.symm
    · rintro (h | ⟨hc, -⟩ | ⟨hc, -⟩)
      · exact h.symm
      · rw [hkind] at hc; cases hc
      · rw [hkind] at hc; cases hc
  | false =>
    simp only [Bool.false_eq_true, if_false, List.mem_cons, List.flatMap_map, List.mem_flatMap, mem_imports_argument,
      mem_imports_element]
    constructor
    · rintro (h | ⟨f, hf, ⟨e, target, he, htarget, h⟩ | ⟨kind, m, hm, v, a, ha, r, hr, h⟩⟩)
      · exact .source h.symm
      · exact .enum hkind hf he htarget h
      · exact .map hkind hf hm ha hr h
    · rintro (h | ⟨-, hf, he, htarget, h⟩ | ⟨-, hf, hm, ha, hr, h⟩)
      · exact .inl h.symm
      · exact .inr ⟨_, hf, .inl ⟨_, _, he, htarget, h⟩⟩
      · exact .inr ⟨_, hf, .inr ⟨_, _, hm, _, _, ha, _, hr, h⟩⟩

end Mapper.Setting

/-! ## Text that is kept -/

/-- The classes that maps are rebuilt as in a conversion, with their type arguments. -/
def Output.Conversion.builders (k : Conversion) : List String :=
  k.parts.filterMap fun
    | .map builder _ _ _ _ => some builder
    | _ => none

/-- Where a function takes over types: in its type parameters, and in the arguments of the maps that it rebuilds. -/
def Output.Function.typeTexts (fn : Function) : List String :=
  fn.typeParams :: match fn.body with
    | .construct _ args => args.flatMap (·.conversion.builders)
    | .enumWhen _ => []

theorem Project.Enters.exists_resolve {p : Project} {m : ResolvedType} {c : ClassId} {ty : TypeRef}
    (h : p.Enters m (p.resolve c ty)) : ∃ ty', m = p.resolve c ty' := by
  generalize ht : p.resolve c ty = t at h
  induction h generalizing ty with
  | self => exact ⟨ty, ht.symm⟩
  | @arg t a base hc ha _ ih =>
    obtain ⟨b, hb, hba⟩ := List.mem_map.mp ((base.mem_entered_or_passedOver t.argTypes a).mpr (.inl ha))
    cases b with
    | star => cases hba
    | type v b =>
      cases hba
      rw [← ht] at hb
      obtain ⟨ty', -, hty'⟩ := exists_of_mem_args hb
      exact ih hty'.symm

theorem exists_of_mapM_eq_some {α β : Type} {f : α → Option β} {xs : List α} {ys : List β} (h : xs.mapM f = some ys) {x : α}
    (hx : x ∈ xs) : ∃ y ∈ ys, f x = some y := by
  induction xs generalizing ys with
  | nil => cases hx
  | cons x' xs ih =>
    simp only [List.mapM_cons, bind, pure, Option.bind_eq_some_iff] at h
    obtain ⟨y, hy, rest, hrest, ⟨⟩⟩ := h
    rcases List.mem_cons.mp hx with rfl | hx
    · exact ⟨y, List.mem_cons_self, hy⟩
    · obtain ⟨y', hy', heq⟩ := ih hrest hx
      exact ⟨y', List.mem_cons_of_mem y hy', heq⟩

theorem Entity.within_invariantText {p : Project} {u : ClassId → Option Ref} {as : List (TypeArg ResolvedType)} {v : Variance}
    {a : ResolvedType} {text : String} (ha : .type v a ∈ as) (h : (substituteArgs p u as).invariantText? = some text) :
    Within (substituteType p u a).value text := by
  obtain ⟨tys, htys, rfl⟩ := Option.map_eq_some_iff.mp h
  rw [value_substituteArgs_eq] at htys
  obtain ⟨ty, hty, heq⟩ := exists_of_mapM_eq_some htys (List.mem_map_of_mem ha)
  cases heq
  exact ((Within.join ⟨_, hty, .refl _⟩).append_left "<").append_right ">"

namespace Mapper.Setting

variable {g : Setting} {c : ClassId}

/-- The function of a class keeps a text as it is written in the source. -/
inductive Keeps (g : Setting) (c : ClassId) : String → Prop
  /-- The bound of a type parameter. -/
  | bound {q : TypeParam} {text : String} (hq : q ∈ (TypeParams.ofOption (g.project.decl c).typeParams).params)
    (h : q.bound = some text) : Keeps g c text
  /-- The name of a reference in the arguments of a map that is rebuilt. -/
  | reference {f : Field} {kind : MapKind} {m a r : ResolvedType} {v : Variance} {text : String}
    (hc : (g.project.decl c).isEnum = false) (hf : f ∈ (g.project.decl c).visibleFields)
    (hm : g.RebuildsIn kind m (g.project.resolve c f.ty))
    (hbuilder : g.builderOf kind m ∈ (g.argument c f).1.conversion.builders)
    (htext : (substituteArgs g.project g.table.ref? m.args).invariantText? = some text) (ha : .type v a ∈ m.args)
    (hr : KeptIn g.project g.table.ref? r a) : Keeps g c r.displayName

/-- **A text that is kept** stands in the function. -/
theorem Keeps.within {s : String} (h : g.Keeps c s) (target : Ref) :
    ∃ text ∈ (g.draft c target).function.typeTexts, Within s text := by
  cases h with
  | @bound q _ hq h =>
    refine ⟨(TypeParams.ofOption (g.project.decl c).typeParams).asFunctionDeclaration, ?_, ?_⟩
    · rw [draft, Function.typeTexts]
      split <;> exact List.mem_cons_self
    · have hne : (TypeParams.ofOption (g.project.decl c).typeParams).isEmpty = false := by
        rw [TypeParams.isEmpty, List.isEmpty_eq_false_iff_exists_mem]
        exact ⟨q, hq⟩
      have hdeclaration : Within s q.declaration := by
        rw [TypeParam.declaration, h]
        exact (Within.refl s).append_left _
      rw [TypeParams.asFunctionDeclaration, hne]
      exact ((Within.join ⟨_, List.mem_map_of_mem hq, hdeclaration⟩).append_left "<").append_right ">"
  | @reference f kind m a r v _ hc hf hm hbuilder htext ha hr =>
    refine ⟨g.builderOf kind m, ?_, ?_⟩
    · rw [draft, hc, Function.typeTexts]
      simp only [Bool.false_eq_true, if_false, List.map_map, List.flatMap_map]
      exact List.mem_cons_of_mem _ (List.mem_flatMap.mpr ⟨f, hf, hbuilder⟩)
    · obtain ⟨ty, rfl⟩ := hm.1.exists_resolve
      obtain ⟨ty', -, rfl⟩ := exists_of_mem_args ha
      rw [builderOf, htext]
      exact (hr.within.trans (within_invariantText ha htext)).append_left _

end Mapper.Setting

end Counterpart
