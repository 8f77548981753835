/-
Which references of a type stay as written in its substitute. A reference is kept bare, as the name of a type that is not
replaced, or in the arguments that are written behind a counterpart. The names that substitution wants imported are those of
the references that are kept bare (`mem_imports_substituteType`). A field that is of a class with a counterpart itself has its
arguments looked at too (`mem_imports_ofField`); behind a counterpart further inside nobody looks.
-/
import Counterpart.Proofs.Substitution

namespace Counterpart.Entity

open Kotlin Output Text

variable {p : Project} {u : ClassId → Option Ref} {r t a : ResolvedType} {v : Variance}

/-! ## References in a type -/

/-- The reference stands in a type, as itself or inside arguments. -/
inductive Occurs (r : ResolvedType) : ResolvedType → Prop
  | self : Occurs r r
  | arg {t a : ResolvedType} {v : Variance} (ha : .type v a ∈ t.args) (h : Occurs r a) : Occurs r t

/-- The type has a counterpart, which replaces its name. -/
def Replaced (p : Project) (u : ClassId → Option Ref) (t : ResolvedType) : Prop :=
  ∃ c k target, p.categoryOf t = .userClass c k ∧ u c = some target

/-- The name of the type is kept. -/
def Unchanged (p : Project) (t : ResolvedType) : Prop :=
  (∃ base, p.categoryOf t = .generic base) ∨ (∃ b, p.categoryOf t = .basic b) ∨ p.categoryOf t = .foreign

/-- The reference is kept in the substitute of a type and stands behind no counterpart there. -/
inductive Bare (p : Project) (r : ResolvedType) : ResolvedType → Prop
  | self (h : Unchanged p r) : Bare p r r
  | arg {t a : ResolvedType} {v : Variance} {base : GenericBase} (hc : p.categoryOf t = .generic base)
    (ha : .type v a ∈ t.args) (h : Bare p r a) : Bare p r t

/-- The reference is kept among the arguments written behind a counterpart. -/
inductive Behind (p : Project) (u : ClassId → Option Ref) (r : ResolvedType) : ResolvedType → Prop
  | here {t a : ResolvedType} {v : Variance} (ht : Replaced p u t) (ha : .type v a ∈ t.args) (h : Occurs r a) : Behind p u r t
  | arg {t a : ResolvedType} {v : Variance} {base : GenericBase} (hc : p.categoryOf t = .generic base)
    (ha : .type v a ∈ t.args) (h : Behind p u r a) : Behind p u r t

/-- The reference stays as written in the substitute of a type. -/
def KeptIn (p : Project) (u : ClassId → Option Ref) (r t : ResolvedType) : Prop := Bare p r t ∨ Behind p u r t

/-- The reference is looked at where a field has the type `t`: it is kept bare, or behind the counterpart of the whole type. -/
def NoticedIn (p : Project) (u : ClassId → Option Ref) (r t : ResolvedType) : Prop :=
  Bare p r t ∨ Replaced p u t ∧ ∃ v a, .type v a ∈ t.args ∧ Occurs r a

theorem NoticedIn.keptIn (h : NoticedIn p u r t) : KeptIn p u r t := by
  rcases h with h | ⟨ht, v, a, ha, h⟩
  · exact .inl h
  · exact .inr (.here ht ha h)

/-! ## Kept references in the text -/

theorem exists_of_mem_resolveArgs {scope : ClassId} {as : List (TypeArg TypeRef)} (h : .type v a ∈ p.resolveArgs scope as) :
    ∃ ty, .type v ty ∈ as ∧ a = p.resolve scope ty := by
  induction as with
  | nil => cases h
  | cons b as ih =>
    rw [Project.resolveArgs] at h
    rcases List.mem_cons.mp h with h | h
    · cases b with
      | star => cases h
      | type v' ty =>
        cases h
        exact ⟨ty, List.mem_cons_self, rfl⟩
    · obtain ⟨ty, hty, ha⟩ := ih h
      exact ⟨ty, List.mem_cons_of_mem b hty, ha⟩

theorem exists_of_mem_args {scope : ClassId} {ty : TypeRef} (h : .type v a ∈ (p.resolve scope ty).args) :
    ∃ ty', .type v ty' ∈ ty.args ∧ a = p.resolve scope ty' := by
  cases ty with
  | function nullable text => cases h
  | named name args nullable text => exact exists_of_mem_resolveArgs h

theorem within_renderArgs {ty : TypeRef} {as : List (TypeArg TypeRef)} (h : .type v ty ∈ as) :
    ∃ s ∈ TypeRef.renderArgs as, Within ty.render s := by
  induction as with
  | nil => cases h
  | cons b as ih =>
    rw [TypeRef.renderArgs]
    rcases List.mem_cons.mp h with rfl | h
    · exact ⟨_, List.mem_cons_self, (Within.refl _).append_left _⟩
    · obtain ⟨s, hs, hw⟩ := ih h
      exact ⟨s, List.mem_cons_of_mem _ hs, hw⟩

/-- Arguments are in the text of the arguments. -/
theorem within_argsText {ty ty' : TypeRef} (h : .type v ty' ∈ ty.args) : Within ty'.render ty.argsText := by
  have hne : ty.args.isEmpty = false := by
    cases hargs : ty.args with
    | nil => rw [hargs] at h; cases h
    | cons _ _ => rfl
  rw [TypeRef.argsText, hne]
  exact ((Within.join (within_renderArgs h)).append_left "<").append_right ">"

theorem within_name (ty : TypeRef) : Within ty.name ty.render := by
  cases ty with
  | function nullable text => exact .refl text
  | named name args nullable text =>
    rw [TypeRef.render_named]
    exact ((Within.refl name).append_right _).append_right _

theorem written_resolve (scope : ClassId) (ty : TypeRef) : (p.resolve scope ty).written = ty := by
  cases ty <;> rfl

theorem Occurs.within {scope : ClassId} {ty : TypeRef} (h : Occurs r (p.resolve scope ty)) :
    Within r.displayName ty.render := by
  generalize ht : p.resolve scope ty = t at h
  induction h generalizing ty with
  | self =>
    rw [← ht, ResolvedType.displayName, written_resolve]
    exact within_name ty
  | arg ha _ ih =>
    rw [← ht] at ha
    obtain ⟨ty', hty', ha⟩ := exists_of_mem_args ha
    have hargs : Within ty'.render ty.render := by
      cases ty with
      | function nullable text => cases hty'
      | named name args nullable text =>
        rw [TypeRef.render_named]
        exact ((within_argsText hty').append_left name).append_right _
    exact (ih ha.symm).trans hargs

theorem Unchanged.within (h : Unchanged p t) : Within t.displayName (substituteType p u t).value := by
  obtain ⟨written, name, importName, classId, args⟩ := t
  rw [substituteType]
  rcases h with ⟨base, hc⟩ | ⟨b, hc⟩ | hc <;> rw [hc]
  · exact ((Within.refl _).append_right _).append_right _
  · exact within_name written
  · exact within_name written

/-- **A kept reference** has its name in the text. -/
theorem KeptIn.within {scope : ClassId} {ty : TypeRef} (h : KeptIn p u r (p.resolve scope ty)) :
    Within r.displayName (substituteType p u (p.resolve scope ty)).value := by
  generalize ht : p.resolve scope ty = t at h
  rcases h with h | h
  · clear ht
    induction h with
    | self h => exact h.within
    | arg hc ha _ ih => exact ih.trans (within_substituteType hc ha)
  · induction h generalizing ty with
    | @here t a v hrep ha h =>
      subst ht
      obtain ⟨c, k, target, hc, hu⟩ := hrep
      obtain ⟨ty', hty', rfl⟩ := exists_of_mem_args ha
      have hvalue : (substituteType p u (p.resolve scope ty)).value = counterpartType (p.resolve scope ty) target := by
        generalize p.resolve scope ty = t at hc
        obtain ⟨written, name, importName, classId, args⟩ := t
        rw [substituteType, hc]
        simp only
        rw [hu]
      rw [hvalue, counterpartType, ResolvedType.argsText, written_resolve]
      exact ((h.within.trans (within_argsText hty')).append_left _).append_right _
    | arg hc ha _ ih =>
      have ha' := ha
      rw [← ht] at ha'
      obtain ⟨ty', -, hty'⟩ := exists_of_mem_args ha'
      exact (ih hty'.symm).trans (within_substituteType hc ha)

/-! ## Imports -/

theorem occurs_iff : Occurs r t ↔ r = t ∨ ∃ v a, .type v a ∈ t.args ∧ Occurs r a := by
  constructor
  · rintro (_ | ⟨ha, h⟩)
    · exact .inl rfl
    · exact .inr ⟨_, _, ha, h⟩
  · rintro (rfl | ⟨v, a, ha, h⟩)
    · exact .self
    · exact .arg ha h

mutual

theorem mem_importsOfType {name : String} :
    ∀ t : ResolvedType, name ∈ importsOfType t ↔ ∃ r, Occurs r t ∧ r.importName = some name
  | ⟨written, qualifiedName, importName, classId, args⟩ => by
    rw [importsOfType, List.mem_append, mem_importsOfArgs args, Option.mem_toList]
    constructor
    · rintro (h | ⟨v, a, ha, r, hr, hname⟩)
      · exact ⟨_, .self, h⟩
      · exact ⟨r, .arg ha hr, hname⟩
    · rintro ⟨r, hr, hname⟩
      rcases occurs_iff.mp hr with rfl | ⟨v, a, ha, hr⟩
      · exact .inl hname
      · exact .inr ⟨v, a, ha, r, hr, hname⟩

theorem mem_importsOfArgs {name : String} : ∀ as : List (TypeArg ResolvedType), name ∈ importsOfArgs as ↔
    ∃ v a, .type v a ∈ as ∧ ∃ r, Occurs r a ∧ r.importName = some name
  | [] => by simp [importsOfArgs]
  | .star :: as => by
    rw [importsOfArgs, List.mem_append, mem_importsOfArgs as, importsOfArg]
    simp
  | .type v a :: as => by
    rw [importsOfArgs, List.mem_append, mem_importsOfArgs as, importsOfArg, mem_importsOfType a]
    constructor
    · rintro (h | ⟨v', a', ha, h⟩)
      · exact ⟨v, a, List.mem_cons_self, h⟩
      · exact ⟨v', a', List.mem_cons_of_mem _ ha, h⟩
    · rintro ⟨v', a', ha, h⟩
      rcases List.mem_cons.mp ha with ha | ha
      · cases ha
        exact .inl h
      · exact .inr ⟨v', a', ha, h⟩

end

theorem bare_iff_of_generic {base : GenericBase} (hc : p.categoryOf t = .generic base) :
    Bare p r t ↔ r = t ∨ ∃ v a, .type v a ∈ t.args ∧ Bare p r a := by
  constructor
  · rintro (_ | ⟨_, ha, h⟩)
    · exact .inl rfl
    · exact .inr ⟨_, _, ha, h⟩
  · rintro (rfl | ⟨v, a, ha, h⟩)
    · exact .self (.inl ⟨base, hc⟩)
    · exact .arg hc ha h

theorem bare_iff_of_not_generic (hu : Unchanged p t) (hc : ∀ base, p.categoryOf t ≠ .generic base) :
    Bare p r t ↔ r = t := by
  constructor
  · rintro (_ | ⟨hg, -, -⟩)
    · rfl
    · exact absurd hg (hc _)
  · rintro rfl
    exact .self hu

theorem not_bare (hu : ¬ Unchanged p t) : ¬ Bare p r t := by
  rintro (h | ⟨hc, -, -⟩)
  · exact hu h
  · exact hu (.inl ⟨_, hc⟩)

mutual

/-- **The imports of a substituted type** are those of the references that are kept bare. -/
theorem mem_imports_substituteType (name : String) :
    ∀ t : ResolvedType, name ∈ (substituteType p u t).imports ↔ ∃ r, Bare p r t ∧ r.importName = some name
  | ⟨written, qualifiedName, importName, classId, args⟩ => by
    rw [substituteType]
    cases hc : p.categoryOf ⟨written, qualifiedName, importName, classId, args⟩ with
    | userClass c k =>
      have hnone : ∀ r, ¬ Bare p r ⟨written, qualifiedName, importName, classId, args⟩ :=
        fun r => not_bare (by simp [Unchanged, hc])
      simp only
      cases u c <;> simp [hnone, unsupportedType]
    | unsupported c =>
      have hnone : ∀ r, ¬ Bare p r ⟨written, qualifiedName, importName, classId, args⟩ :=
        fun r => not_bare (by simp [Unchanged, hc])
      simp [hnone, unsupportedType]
    | generic base =>
      simp only [List.mem_append, Option.mem_toList, mem_imports_substituteArgs name args]
      constructor
      · rintro (h | ⟨v, a, ha, r, hr, hname⟩)
        · exact ⟨_, .self (.inl ⟨base, hc⟩), h⟩
        · exact ⟨r, .arg hc ha hr, hname⟩
      · rintro ⟨r, hr, hname⟩
        rcases (bare_iff_of_generic hc).mp hr with rfl | ⟨v, a, ha, hr⟩
        · exact .inl hname
        · exact .inr ⟨v, a, ha, r, hr, hname⟩
    | basic b =>
      have hself : ∀ r, Bare p r ⟨written, qualifiedName, importName, classId, args⟩ ↔ r = _ :=
        fun r => bare_iff_of_not_generic (.inr (.inl ⟨b, hc⟩)) (by simp [hc])
      simp [hself]
    | foreign =>
      have hself : ∀ r, Bare p r ⟨written, qualifiedName, importName, classId, args⟩ ↔ r = _ :=
        fun r => bare_iff_of_not_generic (.inr (.inr hc)) (by simp [hc])
      simp [hself]

theorem mem_imports_substituteArgs (name : String) : ∀ as : List (TypeArg ResolvedType),
    name ∈ (substituteArgs p u as).imports ↔
      ∃ v a, .type v a ∈ as ∧ ∃ r, Bare p r a ∧ r.importName = some name
  | [] => by simp [substituteArgs]
  | .star :: as => by
    have htail := mem_imports_substituteArgs name as
    rw [substituteArgs, substituteArg]
    simp only [Substituted.both, List.nil_append, htail]
    simp
  | .type v a :: as => by
    have hhead := mem_imports_substituteType name a
    have htail := mem_imports_substituteArgs name as
    rw [substituteArgs, substituteArg]
    simp only [Substituted.both, Substituted.map, List.mem_append, hhead, htail]
    constructor
    · rintro (h | ⟨v', a', ha, h⟩)
      · exact ⟨v, a, List.mem_cons_self, h⟩
      · exact ⟨v', a', List.mem_cons_of_mem _ ha, h⟩
    · rintro ⟨v', a', ha, h⟩
      rcases List.mem_cons.mp ha with ha | ha
      · cases ha
        exact .inl h
      · exact .inr ⟨v', a', ha, h⟩

end

/-- A type that is neither generic nor a class of the project has no arguments. -/
theorem args_resolve_eq_nil {scope : ClassId} {ty : TypeRef}
    (h : (∃ b, p.categoryOf (p.resolve scope ty) = .basic b) ∨ p.categoryOf (p.resolve scope ty) = .foreign) :
    (p.resolve scope ty).args = [] := by
  cases ty with
  | function nullable text => rfl
  | named name args nullable text =>
    have hfunction : (p.resolve scope (.named name args nullable text)).written.isFunction = false := by
      rw [written_resolve]
      rfl
    unfold Project.categoryOf at h
    rw [hfunction, if_neg Bool.false_ne_true] at h
    cases hargs : (p.resolve scope (.named name args nullable text)).args with
    | nil => rfl
    | cons a as =>
      rw [hargs] at h
      cases hid : (p.resolve scope (.named name args nullable text)).classId with
      | none => simp [hid] at h
      | some id =>
        cases hkind : (p.decl id).kind <;> simp [hid, hkind] at h

/-- **The imports of a parameter** are those of the references that are noticed. -/
theorem ParamDraft.mem_imports_ofField {n : Naming} {t : Table} {c : ClassId} {f : Field} {name : String} :
    name ∈ (ofField p n t c f).imports ↔
      ∃ r, NoticedIn p t.ref? r (p.resolve c f.ty) ∧ r.importName = some name := by
  have hargs := @args_resolve_eq_nil p c f.ty
  unfold ofField
  generalize p.resolve c f.ty = ty at hargs ⊢
  have hbare : ¬ Replaced p t.ref? ty → ∀ r, NoticedIn p t.ref? r ty ↔ Bare p r ty :=
    fun hrep r => or_iff_left fun h => hrep h.1
  cases hc : p.categoryOf ty with
  | userClass d k =>
    have hnot : ∀ r, ¬ Bare p r ty := fun r => not_bare (by simp [Unchanged, hc])
    simp only [hc]
    cases hd : t.ref? d with
    | some target =>
      have hrep : Replaced p t.ref? ty := ⟨d, k, target, hc, hd⟩
      simp only [mem_importsOfArgs, NoticedIn, hnot, false_or, hrep, true_and]
      constructor
      · rintro ⟨v, a, ha, r, hr, hname⟩
        exact ⟨r, ⟨v, a, ha, hr⟩, hname⟩
      · rintro ⟨r, ⟨v, a, ha, hr⟩, hname⟩
        exact ⟨v, a, ha, r, hr, hname⟩
    | none => simp [hbare (by simp [Replaced, hc, hd]), hnot]
  | unsupported d =>
    have hnot : ∀ r, ¬ Bare p r ty := fun r => not_bare (by simp [Unchanged, hc])
    simp [hc, hbare (by simp [Replaced, hc]), hnot]
  | generic base =>
    simp only [hc, hbare (by simp [Replaced, hc]), ← mem_imports_substituteType (u := t.ref?)]
    obtain ⟨written, qualifiedName, importName, classId, args⟩ := ty
    rw [substituteType, hc]
  | basic b =>
    simp only [hc, hbare (by simp [Replaced, hc]), ← mem_imports_substituteType (u := t.ref?)]
    obtain ⟨written, qualifiedName, importName, classId, args⟩ := ty
    have hnil : args = [] := hargs (.inl ⟨b, hc⟩)
    subst hnil
    rw [substituteType, hc, importsOfType, importsOfArgs, List.append_nil]
  | foreign =>
    simp only [hc, hbare (by simp [Replaced, hc]), ← mem_imports_substituteType (u := t.ref?)]
    obtain ⟨written, qualifiedName, importName, classId, args⟩ := ty
    have hnil : args = [] := hargs (.inr hc)
    subst hnil
    rw [substituteType, hc, importsOfType, importsOfArgs, List.append_nil]

end Counterpart.Entity
