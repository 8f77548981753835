/-
What conversions call for. The conversion of a type calls the functions of the classes that it meets and that have a
counterpart (`calls_element`); it is the identity exactly when it calls none (`isIdentity_element`). So a value is copied as
it is, at whatever depth, only where the type meets no such class (`element_of_copied`).
-/
import Mathlib.Data.List.Basic
import Counterpart.Mapper.Queue
import Counterpart.Proofs.Traversal

namespace Counterpart.Output.Conversion

/-! ## The identity -/

theorem isIdentity_iff {k : Conversion} : k.isIdentity = true ↔ k = .identity := by
  cases k <;> simp [isIdentity]

@[simp] theorem isIdentity_identity : identity.isIdentity = true := rfl

@[simp] theorem isIdentity_placeholder : placeholder.isIdentity = false := rfl

@[simp] theorem isIdentity_ofCollection (e : Conversion) (n : Bool) (collect : Option String) :
    (ofCollection e n collect).isIdentity = e.isIdentity := by
  rw [ofCollection]
  split
  next h => exact h.symm
  next h => exact (Bool.eq_false_iff.mpr h).symm

@[simp] theorem isIdentity_ofMap (builder : String) (k : Conversion) (kn : Bool) (v : Conversion) (vn : Bool) :
    (ofMap builder k kn v vn).isIdentity = (k.isIdentity && v.isIdentity) := by
  rw [ofMap]
  split
  next h => exact h.symm
  next h => exact (Bool.eq_false_iff.mpr h).symm

@[simp] theorem isIdentity_ofPair (a : Conversion) (an : Bool) (b : Conversion) (bn : Bool) :
    (ofPair a an b bn).isIdentity = (a.isIdentity && b.isIdentity) := by
  rw [ofPair]
  split
  next h => exact h.symm
  next h => exact (Bool.eq_false_iff.mpr h).symm

/-! ## Parts -/

/-- The conversion and those inside it. -/
def parts : Conversion → List Conversion
  | collection e n collect => collection e n collect :: e.parts
  | map builder k kn v vn => map builder k kn v vn :: (k.parts ++ v.parts)
  | pair a an b bn => pair a an b bn :: (a.parts ++ b.parts)
  | k => [k]

/-- The conversion for an argument of the type: the element of a collection, the key and the value of a map, the halves of a
pair. -/
def ofArg? : Conversion → Nat → Option Conversion
  | collection e _ _, 0 => some e
  | map _ k _ _ _, 0 => some k
  | map _ _ _ v _, 1 => some v
  | pair a _ _ _, 0 => some a
  | pair _ _ b _, 1 => some b
  | _, _ => none

end Counterpart.Output.Conversion

namespace Counterpart.Mapper

open Kotlin Output Entity

namespace Setting

variable {g : Setting}

/-! ## Conversions from those of the arguments -/

theorem calls_convertMap (kind : MapKind) (args : List (TypeArg ResolvedType)) (key value : Option Side) :
    (g.convertMap kind args key value).calls = (key.toList ++ value.toList).flatMap (·.built.calls) := by
  cases key with
  | none =>
    cases value with
    | none => rfl
    | some value => simp only [convertMap]; split <;> simp [Built.obstruct]
  | some key =>
    cases value with
    | none => simp only [convertMap]; split <;> simp [Built.obstruct]
    | some value => simp only [convertMap]; split <;> simp [Built.both, Built.importing, Built.replace]

theorem isIdentity_convertMap (kind : MapKind) (args : List (TypeArg ResolvedType)) (key value : Option Side) :
    (g.convertMap kind args key value).conversion.isIdentity =
      (key.toList ++ value.toList).all (·.built.conversion.isIdentity) := by
  cases key with
  | none =>
    cases value with
    | none => rfl
    | some value =>
      simp only [convertMap]
      split
      next h => simp [h]
      next h => simpa [Built.obstruct] using h
  | some key =>
    cases value with
    | none =>
      simp only [convertMap]
      split
      next h => simp [h]
      next h => simpa [Built.obstruct] using h
    | some value =>
      simp only [convertMap]
      split
      next h => simpa [Built.both] using h
      next h => simp [Built.replace]

theorem foldl_both (sides : List Side) (b : Built) :
    (sides.foldl (fun b side => b.both .identity side.built) b).calls = b.calls ++ sides.flatMap (·.built.calls) := by
  induction sides generalizing b with
  | nil => simp
  | cons side sides ih => rw [List.foldl_cons, ih]; simp [Built.both]

theorem foldl_both_conversion (sides : List Side) {b : Built} (h : b.conversion = .identity) :
    (sides.foldl (fun b side => b.both .identity side.built) b).conversion = .identity := by
  induction sides generalizing b with
  | nil => exact h
  | cons side sides ih => exact ih rfl

/-- A pair is rebuilt from its halves, or left as it is when one of them is a star. -/
theorem combine_pair (args : List (TypeArg ResolvedType)) (sides : List (Option Side)) :
    (∃ first second, GenericBase.pair.entered sides = [first, second] ∧
      g.combine .pair args sides = first.built.both
        (.ofPair first.built.conversion first.nullable second.built.conversion second.nullable) second.built) ∨
      GenericBase.pair.entered sides = [] ∧ g.combine .pair args sides = .pure .identity := by
  obtain ⟨first, second, hfirst, hsecond, hentered⟩ | ⟨hstar, hentered⟩ := GenericBase.entered_ofPair sides
  · refine .inl ⟨first, second, hentered, ?_⟩
    simp only [combine, hfirst, hsecond]
  · refine .inr ⟨hentered, ?_⟩
    rcases hstar with hstar | hstar
    · simp only [combine, hstar]
    · rw [combine, hstar]
      cases sides[0]?.join <;> rfl

/-- A type with arguments calls for what the entered ones call for. -/
theorem calls_combine (base : GenericBase) (args : List (TypeArg ResolvedType)) (sides : List (Option Side)) :
    (g.combine base args sides).calls = (base.entered sides).flatMap (·.built.calls) := by
  cases base with
  | collection kind =>
    rw [combine, GenericBase.entered_ofCollection]
    cases sides[0]?.join with
    | none => rfl
    | some side => simp [Built.replace]
  | map kind =>
    rw [combine, calls_convertMap, GenericBase.entered_ofMap]
  | pair =>
    obtain ⟨first, second, hentered, hcombine⟩ | ⟨hentered, hcombine⟩ := g.combine_pair args sides
    · rw [hentered, hcombine]
      simp [Built.both]
    · rw [hentered, hcombine]
      rfl
  | other =>
    simp only [combine, GenericBase.entered]
    split <;> simp [foldl_both, Built.obstruct, Built.pure]

/-- A type with arguments is left as it is when the entered ones are. -/
theorem isIdentity_combine (base : GenericBase) (args : List (TypeArg ResolvedType)) (sides : List (Option Side)) :
    (g.combine base args sides).conversion.isIdentity =
      (base.entered sides).all (·.built.conversion.isIdentity) := by
  cases base with
  | collection kind =>
    rw [combine, GenericBase.entered_ofCollection]
    cases sides[0]?.join with
    | none => rfl
    | some side => simp [Built.replace]
  | map kind =>
    rw [combine, isIdentity_convertMap, GenericBase.entered_ofMap]
  | pair =>
    obtain ⟨first, second, hentered, hcombine⟩ | ⟨hentered, hcombine⟩ := g.combine_pair args sides
    · rw [hentered, hcombine]
      simp [Built.both]
    · rw [hentered, hcombine]
      rfl
  | other =>
    simp only [combine, GenericBase.entered]
    split
    next h => rw [foldl_both_conversion _ rfl, h]; rfl
    next h => simpa [Built.obstruct] using h

/-! ## Conversions of types -/

/-- The conversion of an argument. -/
def side (g : Setting) (t : ResolvedType) : Side := ⟨g.element t, t.nullable⟩

theorem elements_eq (as : List (TypeArg ResolvedType)) :
    g.elements as = (as.map TypeArg.type?).map (Option.map g.side) := by
  induction as with
  | nil => rfl
  | cons a as ih => cases a <;> simp [elements, elementOf, TypeArg.type?, side, ih]

variable {t : ResolvedType} {base : GenericBase}

theorem element_of_generic (h : g.project.categoryOf t = .generic base) :
    g.element t = g.combine base t.args (t.argTypes.map (Option.map g.side)) := by
  obtain ⟨written, name, importName, classId, args⟩ := t
  rw [element, h, elements_eq]
  rfl

theorem element_of_userClass {c : ClassId} {k : UserKind} (h : g.project.categoryOf t = .userClass c k) :
    g.element t = if (g.table.ref? c).isSome then ⟨.mapper g.naming.functionName, [c], [], []⟩ else .pure .identity := by
  obtain ⟨written, name, importName, classId, args⟩ := t
  rw [element, h]

/-- **The conversion of a type** calls for the classes with a counterpart that it meets. -/
theorem calls_element (t : ResolvedType) :
    (g.element t).calls = (g.project.converted t).filter fun c => (g.table.ref? c).isSome := by
  induction t using ResolvedType.induction with | _ t ih =>
  cases hc : g.project.categoryOf t with
  | generic base =>
    rw [element_of_generic hc, calls_combine, GenericBase.entered_map, List.flatMap_map,
      Project.converted_of_generic hc, List.filter_flatMap]
    exact List.flatMap_congr fun u hu => ih u ((base.mem_entered_or_passedOver _ _).mpr (.inl hu))
  | userClass d k =>
    obtain ⟨written, name, importName, classId, args⟩ := t
    cases hr : g.table.ref? d <;> simp [element, Project.converted, hc, hr, Built.pure]
  | _ =>
    obtain ⟨written, name, importName, classId, args⟩ := t
    simp [element, Project.converted, hc, Built.pure]

/-- **A conversion is the identity** exactly when it calls for nothing. -/
theorem isIdentity_element (t : ResolvedType) :
    (g.element t).conversion.isIdentity = (g.element t).calls.isEmpty := by
  induction t using ResolvedType.induction with | _ t ih =>
  cases hc : g.project.categoryOf t with
  | generic base =>
    have hall : ∀ u ∈ base.entered t.argTypes,
        (g.side u).built.conversion.isIdentity = (g.side u).built.calls.isEmpty :=
      fun u hu => ih u ((base.mem_entered_or_passedOver _ _).mpr (.inl hu))
    rw [element_of_generic hc, isIdentity_combine, calls_combine, GenericBase.entered_map, List.all_map,
      List.flatMap_map, Bool.eq_iff_iff]
    simp only [List.all_eq_true, List.isEmpty_iff, List.flatMap_eq_nil_iff, Function.comp]
    refine forall₂_congr fun u hu => ?_
    rw [hall u hu, List.isEmpty_iff]
  | userClass d k =>
    obtain ⟨written, name, importName, classId, args⟩ := t
    cases hr : g.table.ref? d <;> simp [element, hc, hr, Built.pure, Conversion.isIdentity]
  | _ =>
    obtain ⟨written, name, importName, classId, args⟩ := t
    simp [element, hc, Built.pure, Conversion.isIdentity]

/-! ## The shape of conversions -/

/-- Conversions of types with arguments, by what the arguments have. -/
inductive Combined (sides : List (Option Side)) : Conversion → Prop
  | identity : Combined sides .identity
  | placeholder : Combined sides .placeholder
  | collection {s : Side} {collect : Option String} (h : sides[0]? = some (some s)) :
    Combined sides (.collection s.built.conversion s.nullable collect)
  | map {k v : Side} {builder : String} (hk : sides[0]? = some (some k)) (hv : sides[1]? = some (some v)) :
    Combined sides (.map builder k.built.conversion k.nullable v.built.conversion v.nullable)
  | pair {a b : Side} (ha : sides[0]? = some (some a)) (hb : sides[1]? = some (some b)) :
    Combined sides (.pair a.built.conversion a.nullable b.built.conversion b.nullable)

/-- The conversion for an argument is what the argument has. -/
theorem Combined.side {sides : List (Option Side)} {k e : Conversion} {i : Nat} (h : Combined sides k)
    (he : k.ofArg? i = some e) : ∃ s, sides[i]? = some (some s) ∧ e = s.built.conversion := by
  cases h with
  | identity => cases he
  | placeholder => cases he
  | collection hs =>
    match i, he with
    | 0, he => cases he; exact ⟨_, hs, rfl⟩
  | map hk hv =>
    match i, he with
    | 0, he => cases he; exact ⟨_, hk, rfl⟩
    | 1, he => cases he; exact ⟨_, hv, rfl⟩
  | pair ha hb =>
    match i, he with
    | 0, he => cases he; exact ⟨_, ha, rfl⟩
    | 1, he => cases he; exact ⟨_, hb, rfl⟩

theorem combined_convertMap {sides : List (Option Side)} (kind : MapKind) (args : List (TypeArg ResolvedType)) :
    Combined sides (g.convertMap kind args sides[0]?.join sides[1]?.join).conversion := by
  have one : ∀ s : Side, Combined sides
      (if s.built.conversion.isIdentity then s.built else s.built.obstruct .starMap).conversion := by
    intro s
    split
    next h => rw [Conversion.isIdentity_iff.mp h]; exact .identity
    next => exact .placeholder
  cases hk : sides[0]?.join with
  | none =>
    cases hv : sides[1]?.join with
    | none => exact .identity
    | some v => exact one v
  | some k =>
    cases hv : sides[1]?.join with
    | none => exact one k
    | some v =>
      simp only [convertMap]
      split
      next => exact .identity
      next h =>
        rw [Built.replace, Conversion.ofMap, if_neg h]
        exact .map (Option.join_eq_some_iff.mp hk) (Option.join_eq_some_iff.mp hv)

theorem combined_combine (base : GenericBase) (args : List (TypeArg ResolvedType)) (sides : List (Option Side)) :
    Combined sides (g.combine base args sides).conversion := by
  cases base with
  | collection kind =>
    simp only [combine]
    split
    next s h =>
      rw [Built.replace, Conversion.ofCollection]
      split
      · exact .identity
      · exact .collection (Option.join_eq_some_iff.mp h)
    next => exact .identity
  | map kind => exact combined_convertMap kind args
  | pair =>
    simp only [combine]
    split
    next a b ha hb =>
      rw [Built.both, Conversion.ofPair]
      split
      · exact .identity
      · exact .pair (Option.join_eq_some_iff.mp ha) (Option.join_eq_some_iff.mp hb)
    next => exact .identity
  | other =>
    simp only [combine]
    split
    next => rw [foldl_both_conversion _ rfl]; exact .identity
    next => exact .placeholder

/-- The conversion at a place among the arguments is that of the type there. -/
theorem side_of_getElem? {ts : List (Option ResolvedType)} {i : Nat} {s : Side}
    (h : (ts.map (Option.map g.side))[i]? = some (some s)) : ∃ u, ts[i]? = some (some u) ∧ s = g.side u := by
  rw [List.getElem?_map, Option.map_eq_some_iff] at h
  obtain ⟨u, hu, hs⟩ := h
  obtain ⟨u, rfl, rfl⟩ := Option.map_eq_some_iff.mp hs
  exact ⟨u, hu, rfl⟩

/-- A value is converted by a call, or not, or through the arguments of its type. -/
theorem element_cases (t : ResolvedType) :
    (g.element t).conversion = .mapper g.naming.functionName ∨ (g.element t).conversion = .identity ∨
      ∃ base, g.project.categoryOf t = .generic base ∧
        Combined (t.argTypes.map (Option.map g.side)) (g.element t).conversion := by
  cases hc : g.project.categoryOf t with
  | generic base =>
    rw [element_of_generic hc]
    exact .inr (.inr ⟨base, rfl, combined_combine base t.args _⟩)
  | userClass d k =>
    rw [element_of_userClass hc]
    split
    · exact .inl rfl
    · exact .inr (.inl rfl)
  | _ =>
    obtain ⟨written, name, importName, classId, args⟩ := t
    rw [element, hc]
    exact .inr (.inl rfl)

/-- No conversion inside a type branches on the constants of an enum. -/
theorem enumWhen_not_mem_parts (arms : List Arm) (t : ResolvedType) :
    Conversion.enumWhen arms ∉ (g.element t).conversion.parts := by
  induction t using ResolvedType.induction with | _ t ih =>
  have inside : ∀ {i : Nat} {s : Side}, (t.argTypes.map (Option.map g.side))[i]? = some (some s) →
      Conversion.enumWhen arms ∉ s.built.conversion.parts := by
    intro i s h
    obtain ⟨u, hu, rfl⟩ := side_of_getElem? h
    exact ih u (List.mem_of_getElem? hu)
  have hk := g.element_cases t
  generalize (g.element t).conversion = k at hk ⊢
  rcases hk with rfl | rfl | ⟨base, -, hk⟩
  · simp [Conversion.parts]
  · simp [Conversion.parts]
  cases hk with
  | identity => simp [Conversion.parts]
  | placeholder => simp [Conversion.parts]
  | collection h => simpa [Conversion.parts] using inside h
  | map hk hv => simpa [Conversion.parts] using ⟨inside hk, inside hv⟩
  | pair ha hb => simpa [Conversion.parts] using ⟨inside ha, inside hb⟩

/-! ## Fields -/

/-- The argument for a field is called like the parameter for it. -/
theorem name_argument (c : ClassId) (f : Field) :
    (g.argument c f).1.name = (ParamDraft.ofField g.project g.naming g.table c f).param.name := by
  simp only [argument, ParamDraft.ofField]
  cases g.project.categoryOf (g.project.resolve c f.ty) with
  | userClass d k =>
    simp only
    cases g.table.ref? d with
    | none => rfl
    | some target => cases k <;> rfl
  | _ => rfl

/-- **A field is converted** like any value of its type, but for the placeholder and for an enum. -/
theorem argument_cases (c : ClassId) (f : Field) :
    (g.argument c f).2 = g.element (g.project.resolve c f.ty) ∨
      ((g.argument c f).2 = .pure .placeholder ∧ (g.element (g.project.resolve c f.ty)).calls = []) ∨
        ∃ e target, g.project.categoryOf (g.project.resolve c f.ty) = .userClass e .enum ∧
          g.table.ref? e = some target ∧
          (g.argument c f).2 = ⟨.enumWhen (g.arms e target), [e], [g.importOf e], []⟩ := by
  simp only [argument]
  generalize g.project.resolve c f.ty = ty
  obtain ⟨written, name, importName, classId, args⟩ := ty
  rw [element]
  cases hc : g.project.categoryOf ⟨written, name, importName, classId, args⟩ with
  | userClass d k =>
    simp only
    cases hr : g.table.ref? d with
    | none => exact .inr (.inl ⟨rfl, rfl⟩)
    | some target =>
      cases k with
      | data => exact .inl rfl
      | enum => exact .inr (.inr ⟨d, target, rfl, hr, rfl⟩)
  | unsupported d => exact .inr (.inl ⟨rfl, rfl⟩)
  | generic base => exact .inl rfl
  | basic b => exact .inl rfl
  | foreign => exact .inl rfl

theorem conversion_argument (c : ClassId) (f : Field) :
    (g.argument c f).1.conversion = (g.argument c f).2.conversion := rfl

/-- A field calls for the classes with a counterpart that its type meets. -/
theorem calls_argument (c : ClassId) (f : Field) :
    (g.argument c f).2.calls =
      (g.project.converted (g.project.resolve c f.ty)).filter fun d => (g.table.ref? d).isSome := by
  rw [← calls_element]
  rcases g.argument_cases c f with h | ⟨h, hcalls⟩ | ⟨e, target, hc, hr, h⟩
  · rw [h]
  · rw [h, hcalls]
    rfl
  · rw [h, element_of_userClass hc, hr]
    rfl

/-- A branch over constants in the conversion of a field is the whole, and the type is an enum with a counterpart. -/
theorem enumWhen_of_mem_parts {c : ClassId} {f : Field} {arms : List Arm}
    (h : .enumWhen arms ∈ (g.argument c f).1.conversion.parts) :
    ∃ e target, g.project.categoryOf (g.project.resolve c f.ty) = .userClass e .enum ∧
      g.table.ref? e = some target ∧ arms = g.arms e target := by
  rw [conversion_argument] at h
  rcases g.argument_cases c f with hk | ⟨hk, -⟩ | ⟨e, target, hc, hr, hk⟩
  · rw [hk] at h
    exact absurd h (enumWhen_not_mem_parts arms _)
  · rw [hk] at h
    simp [Built.pure, Conversion.parts] at h
  · rw [hk] at h
    exact ⟨e, target, hc, hr, by simpa [Conversion.parts] using h⟩

end Setting

end Counterpart.Mapper
