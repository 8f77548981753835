/-
Names, annotations and the directives at the top of a source, read side by side. The gap before a token is looked at in one
place only, before the arguments of an annotation; a word is a modifier only before a name or an annotation (`Aligned`).
-/
import Counterpart.Proofs.Respacing

namespace Counterpart.Kotlin

variable {T : String → String → Prop} {Z zs : List (Twin T)} {z : Twin T}

/-! ## Names -/

/-- Dotted names with as many segments, which are spelled as `T` says. -/
inductive Dotted (T : String → String → Prop) : String → String → Prop
  | one {s s' : String} (h : T s s') : Dotted T s s'
  | more {s s' t t' : String} (h : Dotted T s s') (ht : T t t') : Dotted T (s ++ "." ++ t) (s' ++ "." ++ t')

/-- The last segments of such names. -/
def LastOfDotted (T : String → String → Prop) (s s' : String) : Prop :=
  ∃ n n', Dotted T n n' ∧ s = Name.shortName n ∧ s' = Name.shortName n'

theorem dotted_eq {s s' : String} : Dotted Eq s s' ↔ s = s' := by
  refine ⟨fun h => ?_, .one⟩
  induction h with
  | one h => exact h
  | more _ ht ih => rw [ih, ht]

theorem eq_of_lastOfDotted {s s' : String} (h : LastOfDotted Eq s s') : s = s' := by
  obtain ⟨n, n', hn, rfl, rfl⟩ := h
  rw [dotted_eq.mp hn]

theorem moreSegments_took {name name' : String} (hname : Dotted T name name') : ∀ zs : List (Twin T),
    Took (Dotted T) zs [] (moreSegments name (lefts zs)) (moreSegments name' (rights zs))
  | [] => ⟨[], [], rfl, .nil, hname⟩
  | [z] => ⟨[], [z], rfl, .nil, hname⟩
  | dot :: z :: zs => by
    simp only [lefts_cons, rights_cons, moreSegments, Twin.isMark_right, Twin.isName_right]
    split
    next h =>
      rw [Bool.and_eq_true] at h
      have hrest := (moreSegments_took (hname.more (z.name h.2)) zs).plain (isBracket_of_isName h.2)
      exact ((hrest.past _ _).plain (isBracket_of_isMark h.1 (by decide))).past _ _
    next => exact ⟨[], dot :: z :: zs, rfl, .nil, hname⟩

theorem dottedName_alongside (role : NameRole) (hzs : zs <:+ Z) :
    Alongside Z (Dotted T) zs [] (dottedName role (lefts zs)) (dottedName role (rights zs)) := by
  cases zs with
  | nil => exact .errorAtEnd
  | cons z zs =>
    simp only [lefts_cons, rights_cons, dottedName, Twin.isName_right]
    split
    next h => exact .ok ((moreSegments_took (.one (z.name h)) zs).plain (isBracket_of_isName h))
    next => exact .errorAt (hzs.subset (by simp))

theorem simpleName_alongside (role : NameRole) (hzs : zs <:+ Z) :
    Alongside Z T zs [] (simpleName role (lefts zs)) (simpleName role (rights zs)) := by
  cases zs with
  | nil => exact .errorAtEnd
  | cons z zs =>
    simp only [lefts_cons, rights_cons, simpleName, Twin.isName_right]
    split
    next h => exact .plain (isBracket_of_isName h) (.done (z.name h))
    next => exact .errorAt (hzs.subset (by simp))

/-! ## Annotations -/

theorem dropUseSite_took : ∀ zs : List (Twin T), Took Eq zs [] (dropUseSite (lefts zs)) (dropUseSite (rights zs))
  | [] => ⟨[], [], rfl, .nil, rfl⟩
  | [z] => ⟨[], [z], rfl, .nil, rfl⟩
  | z :: colon :: zs => by
    simp only [lefts_cons, rights_cons, dropUseSite, Twin.isMark_right, Twin.isName_right, atMark_rights]
    split
    next h =>
      simp only [Bool.and_eq_true] at h
      have hcolon : Closes true [] (lefts [z, colon]) :=
        .plain (isBracket_of_isName h.1.1) (.plain (isBracket_of_isMark h.1.2 (by decide)) .nil)
      exact ⟨[z, colon], zs, rfl, hcolon, rfl⟩
    next => exact ⟨[], z :: colon :: zs, rfl, .nil, rfl⟩

/-- Between the same tokens there is a gap in both sources, save before the first. Before a name or an annotation a modifier is
the same in both. -/
structure Aligned (Z : List (Twin T)) : Prop where
  adjacent : ∀ z ∈ Z.tail, z.right.isAdjacent = z.left.isAdjacent
  modifier : ∀ z w vs, z :: w :: vs <:+ Z → (w.left.isName || w.left.isMark '@') = true →
    z.left.text ∈ modifierWords ∨ z.right.text ∈ modifierWords → z.right.text = z.left.text

namespace Aligned

variable (hZ : Aligned Z)
include hZ

theorem isAdjacent (hzs : zs <:+ Z) {vs : List (Twin T)} (hvs : z :: vs <:+ Z) (hlt : (z :: vs).length < zs.length) :
    z.right.isAdjacent = z.left.isAdjacent := by
  refine hZ.adjacent z ?_
  cases Z with
  | nil => simp at hvs
  | cons w Z =>
    obtain heq | hsuffix := List.suffix_cons_iff.mp hvs
    · have := hzs.length_le
      rw [heq] at hlt
      omega
    · exact hsuffix.subset (by simp)

theorem isModifier (hzs : z :: zs <:+ Z) : isModifier z.right (rights zs) = isModifier z.left (lefts zs) := by
  cases zs with
  | nil => simp [Kotlin.isModifier]
  | cons w zs =>
    simp only [Kotlin.isModifier, rights_cons, lefts_cons, List.head?_cons, Option.any_some, Twin.isName_right,
      Twin.isMark_right]
    by_cases hw : (w.left.isName || w.left.isMark '@') = true
    · rw [hw, Bool.and_true, Bool.and_true, Bool.eq_iff_iff, Bool.and_eq_true, Bool.and_eq_true, List.contains_iff_mem,
        List.contains_iff_mem]
      have hsame := hZ.modifier z w zs hzs hw
      exact and_congr_right fun _ => ⟨fun h => hsame (.inr h) ▸ h, fun h => (hsame (.inl h)).symm ▸ h⟩
    · rw [Bool.not_eq_true] at hw
      rw [hw, Bool.and_false, Bool.and_false]

theorem text_of_isModifier (hzs : z :: zs <:+ Z) (h : Kotlin.isModifier z.left (lefts zs) = true) :
    z.right.text = z.left.text := by
  cases zs with
  | nil => simp [Kotlin.isModifier] at h
  | cons w zs =>
    simp only [Kotlin.isModifier, lefts_cons, List.head?_cons, Option.any_some, Bool.and_eq_true, List.contains_iff_mem] at h
    exact hZ.modifier z w zs hzs h.2 (.inl h.1.2)

end Aligned

variable (hZ : Aligned Z)
include hZ

theorem annotationUse_alongside (hzs : zs <:+ Z) :
    Alongside Z (Option.Rel (LastOfDotted T)) zs [] (annotationUse (lefts zs)) (annotationUse (rights zs)) := by
  rw [annotationUse, annotationUse]
  have husesite := dropUseSite_took zs
  generalize dropUseSite (lefts zs) = p, dropUseSite (rights zs) = q at husesite
  obtain ⟨us, vs, hsplit, hcloses, -⟩ := husesite
  have hvs : vs <:+ Z := (hsplit ▸ List.suffix_append us vs).trans hzs
  refine .skip hcloses hsplit ?_
  cases vs with
  | nil => exact .errorAtEnd
  | cons bracket vs =>
    simp only [lefts_cons, rights_cons, Twin.isMark_right]
    split
    next hbracket => exact .group hbracket (by decide) hvs fun _ _ _ _ => .done .none
    next =>
      refine (dottedName_alongside .annotationName hvs).bind hvs fun us name name' hlt _ hus hname => ?_
      have hlast : Option.Rel (LastOfDotted T) (some (Name.shortName name)) (some (Name.shortName name')) :=
        .some ⟨name, name', hname, rfl, rfl⟩
      cases us with
      | nil => exact .done hlast
      | cons paren us =>
        simp only [lefts_cons, rights_cons, Twin.isMark_right, hZ.isAdjacent hvs hus (by simpa using hlt)]
        split
        next hparen =>
          rw [Bool.and_eq_true] at hparen
          exact .group hparen.1 (by decide) hus fun _ _ _ _ => .done hlast
        next => exact .done hlast

theorem skipAnnotations_alongside (zs : List (Twin T)) (hzs : zs <:+ Z) :
    Alongside Z Eq zs [] (skipAnnotations (lefts zs)) (skipAnnotations (rights zs)) := by
  cases zs with
  | nil =>
    rw [lefts_nil, rights_nil, skipAnnotations]
    exact .done rfl
  | cons z zs =>
    have hsuffix : zs <:+ Z := (List.suffix_cons z zs).trans hzs
    rw [lefts_cons, rights_cons, skipAnnotations, skipAnnotations, Twin.isMark_right]
    split
    next hat =>
      refine .plain (isBracket_of_isMark hat (by decide)) ?_
      refine (annotationUse_alongside hZ hsuffix).bind hsuffix fun vs _ _ hlt _ hvs _ => ?_
      exact (skipAnnotations_alongside vs hvs).bind hvs fun us _ _ _ _ _ hR => .done hR
    next => exact .done rfl
termination_by zs.length
decreasing_by all_goals grind [length_lefts]

omit hZ

/-! ## Package and imports -/

/-- Packages with as many segments; the default package has none. -/
inductive PackageAlike (T : String → String → Prop) : String → String → Prop
  | none : PackageAlike T "" ""
  | some {s s' : String} (h : Dotted T s s') : PackageAlike T s s'

/-- Directives with the same target but for its spelling. -/
structure Import.Alike (T : String → String → Prop) (i i' : Import) : Prop where
  path : Dotted T i.path i'.path
  localAlias : Option.Rel T i.localAlias i'.localAlias
  star : i'.star = i.star

theorem packageAlike_eq {s s' : String} (h : PackageAlike Eq s s') : s = s' := by
  cases h with
  | none => rfl
  | some h => exact dotted_eq.mp h

theorem Import.eq_of_alike {i i' : Import} (h : i.Alike Eq i') : i = i' := by
  obtain ⟨hpath, halias, hstar⟩ := h
  cases i
  cases i'
  simp only at hpath halias hstar
  rw [dotted_eq.mp hpath, hstar]
  cases halias with
  | none => rfl
  | some h => rw [h]

variable [Spelling T]

theorem packageDirective_alongside (hzs : zs <:+ Z) :
    Alongside Z (PackageAlike T) zs [] (packageDirective (lefts zs)) (packageDirective (rights zs)) := by
  rw [packageDirective, packageDirective]
  obtain ⟨z, vs, rfl, hword, _, _, hleft, hright⟩ | ⟨hleft, hright⟩ := takeWord_cases "package" (by decide) zs
  all_goals rw [hleft, hright]
  · have hvs : vs <:+ Z := (List.suffix_cons z vs).trans hzs
    refine .plain (isBracket_of_isWord hword) ?_
    refine (dottedName_alongside .package hvs).bind hvs fun us _ _ _ _ _ hname => ?_
    dsimp only
    obtain ⟨w, us, rfl, hmark, _, _, hleft, hright⟩ | ⟨hleft, hright⟩ := takeMark_cases ';' us
    all_goals rw [hleft, hright]
    · exact .plain (isBracket_of_isMark hmark (by decide)) (.done (.some hname))
    · exact .done (.some hname)
  · exact .done .none

theorem importDirective_alongside (hzs : zs <:+ Z) :
    Alongside Z (Import.Alike T) zs [] (importDirective (lefts zs)) (importDirective (rights zs)) := by
  rw [importDirective, importDirective]
  refine (dottedName_alongside .importPath hzs).bind hzs fun vs path path' _ _ hvs hpath => ?_
  cases vs with
  | nil => exact .done ⟨hpath, .none, rfl⟩
  | cons z vs =>
    have hsuffix : vs <:+ Z := (List.suffix_cons z vs).trans hvs
    simp only [lefts_cons, rights_cons, Twin.isMark_right, z.isWord_right "as" (by decide), atMark_rights]
    split
    next hstar =>
      rw [Bool.and_eq_true] at hstar
      cases vs with
      | nil => simp [atMark] at hstar
      | cons star vs =>
        refine .plain (isBracket_of_isMark hstar.1 (by decide)) ?_
        refine .plain (isBracket_of_isMark (c := '*') (by simpa [atMark] using hstar.2) (by decide)) (.done ?_)
        exact ⟨hpath, .none, rfl⟩
    next =>
      split
      next has =>
        refine .plain (isBracket_of_isWord has) ?_
        refine (simpleName_alongside .importAlias hsuffix).bind hsuffix fun us _ _ _ _ _ halias => .done ?_
        exact ⟨hpath, .some halias, rfl⟩
      next => exact .done ⟨hpath, .none, rfl⟩

theorem importDirectives_alongside (zs : List (Twin T)) (hzs : zs <:+ Z) :
    Alongside Z (List.Forall₂ (Import.Alike T)) zs [] (importDirectives (lefts zs)) (importDirectives (rights zs)) := by
  rw [importDirectives, importDirectives]
  obtain ⟨z, vs, hsplit, hword, _, _, hleft, hright⟩ | ⟨hleft, hright⟩ := takeWord_cases "import" (by decide) zs
  all_goals rw [hleft, hright]
  · have hvs : vs <:+ Z := (hsplit ▸ List.suffix_cons z vs).trans hzs
    have hclose : Closes true [] (lefts [z]) := .plain (isBracket_of_isWord hword) .nil
    refine .skip hclose hsplit ?_
    refine (importDirective_alongside hvs).bind hvs fun us i _ hlt _ hus hi => ?_
    dsimp only
    obtain ⟨w, us, rfl, hmark, _, _, hleft, hright⟩ | ⟨hleft, hright⟩ := takeMark_cases ';' us
    all_goals rw [hleft, hright]
    · have hsuffix : us <:+ Z := (List.suffix_cons w us).trans hus
      refine .plain (isBracket_of_isMark hmark (by decide)) ?_
      exact (importDirectives_alongside us hsuffix).bind hsuffix fun _ _ _ _ _ _ his => .done (.cons hi his)
    · exact (importDirectives_alongside us hus).bind hus fun _ _ _ _ _ _ his => .done (.cons hi his)
  · exact .done .nil
termination_by zs.length
decreasing_by all_goals subst hsplit; simp only [length_lefts, List.length_cons] at *; omega

end Counterpart.Kotlin
