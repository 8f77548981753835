/-
The parameters of a primary constructor, read side by side, with the expressions skipped among them.
-/
import Counterpart.Proofs.RespacedTypes

namespace Counterpart.Kotlin

/-- The field without the text of its type. -/
def Field.erased (f : Field) : Field := { f with ty := f.ty.erased }

/-- The same field but for the spelling of its type and its annotations. -/
structure Field.Alike (T : String → String → Prop) (f f' : Field) : Prop where
  name : f'.name = f.name
  ty : f.ty.Alike (Dotted T) f'.ty
  visibility : f'.visibility = f.visibility
  hasDefault : f'.hasDefault = f.hasDefault
  mutable : f'.mutable = f.mutable
  isProperty : f'.isProperty = f.isProperty
  annotations : List.Forall₂ (LastOfDotted T) f.annotations f'.annotations

theorem forall₂_lastOfDotted_eq {names names' : List String} (h : List.Forall₂ (LastOfDotted Eq) names names') :
    names = names' := by
  induction h with
  | nil => rfl
  | cons hname _ ih => rw [eq_of_lastOfDotted hname, ih]

theorem Field.erased_eq_of_alike {f f' : Field} (h : f.Alike Eq f') : f.erased = f'.erased := by
  obtain ⟨hname, hty, hvisibility, hdefault, hmutable, hproperty, hannotations⟩ := h
  rw [erased, erased, TypeRef.erased_eq_of_alike hty, hname, hvisibility, hdefault, hmutable, hproperty,
    forall₂_lastOfDotted_eq hannotations]

variable {T : String → String → Prop} {Z zs : List (Twin T)} {z : Twin T}

/-! ## Default values -/

@[simp] theorem closesTypeArgs_rights (angles parens : Nat) (zs : List (Twin T)) :
    closesTypeArgs angles parens (rights zs) = closesTypeArgs angles parens (lefts zs) := by
  induction zs generalizing angles parens with
  | nil => rfl
  | cons z zs ih => simp only [lefts_cons, rights_cons, closesTypeArgs, z.kind, ih]

theorem skipDefault_alongside (afterName : Bool) (angles : Nat) (zs : List (Twin T)) (hzs : zs <:+ Z) :
    Alongside Z Eq zs [] (skipDefault afterName angles (lefts zs)) (skipDefault afterName angles (rights zs)) := by
  cases zs with
  | nil =>
    rw [lefts_nil, rights_nil, skipDefault]
    exact .done rfl
  | cons z zs =>
    have hsuffix : zs <:+ Z := (List.suffix_cons z zs).trans hzs
    have hopens : closesTypeArgs 0 0 (z.right :: rights zs) = closesTypeArgs 0 0 (z.left :: lefts zs) :=
      closesTypeArgs_rights 0 0 (z :: zs)
    rw [lefts_cons, rights_cons, skipDefault, skipDefault]
    simp only [Twin.isMark_right, Twin.isName_right, hopens]
    split
    next => exact .done rfl
    next =>
      split
      next hopen =>
        simp only [Bool.and_eq_true] at hopen
        refine .plain (isBracket_of_isMark hopen.1.1 (by decide)) ?_
        exact (skipDefault_alongside false (angles + 1) zs hsuffix).bind hsuffix fun _ _ _ _ _ _ _ => .done rfl
      next =>
        split
        next hclose =>
          rw [Bool.and_eq_true] at hclose
          refine .plain (isBracket_of_isMark hclose.1 (by decide)) ?_
          exact (skipDefault_alongside false (angles - 1) zs hsuffix).bind hsuffix fun _ _ _ _ _ _ _ => .done rfl
        next =>
          refine (skipOne_alongside (hzs.subset (by simp)) hsuffix.subset).bind hzs fun vs _ _ hlt _ hvs _ => ?_
          exact (skipDefault_alongside z.left.isName angles vs hvs).bind hvs fun _ _ _ _ _ _ _ => .done rfl
termination_by zs.length
decreasing_by all_goals grind [length_lefts]

/-! ## Parameters -/

theorem takePropertyKeyword_took [Spelling T] (zs : List (Twin T)) :
    Took Eq zs [] (takePropertyKeyword (lefts zs)) (takePropertyKeyword (rights zs)) := by
  cases zs with
  | nil => exact ⟨[], [], rfl, .nil, rfl⟩
  | cons z zs =>
    simp only [lefts_cons, rights_cons, takePropertyKeyword, z.isWord_right "val" (by decide),
      z.isWord_right "var" (by decide)]
    split
    next hval => exact ⟨[z], zs, rfl, .plain (isBracket_of_isWord hval) .nil, rfl⟩
    next =>
      split
      next hvar => exact ⟨[z], zs, rfl, .plain (isBracket_of_isWord hvar) .nil, rfl⟩
      next => exact ⟨[], z :: zs, rfl, .nil, rfl⟩

theorem expectMark_alongside {cs : List Char} (role : MarkRole)
    (hcloses : ∀ t : Token, t.isMark role.mark = true → Closes true cs [t]) (hzs : zs <:+ Z) :
    Alongside Z Eq zs cs (expectMark role (lefts zs)) (expectMark role (rights zs)) := by
  cases zs with
  | nil => exact .errorAtEnd
  | cons z zs =>
    simp only [lefts_cons, rights_cons, expectMark, Twin.isMark_right]
    split
    next hmark => exact .ok ⟨[z], zs, rfl, hcloses z.left hmark, rfl⟩
    next => exact .errorAt (hzs.subset (by simp))

/-- Marks with the same visibility and annotations of the same names but for their spelling. -/
structure ParameterMarks.Alike (T : String → String → Prop) (m m' : ParameterMarks) : Prop where
  annotations : List.Forall₂ (LastOfDotted T) m.annotations m'.annotations
  visibility : m'.visibility = m.visibility

theorem ParameterMarks.Alike.addWord {m m' : ParameterMarks} (h : m.Alike T m') (word : String) :
    (m.addWord word).Alike T (m'.addWord word) := by
  unfold ParameterMarks.addWord
  split
  · exact ⟨h.annotations, rfl⟩
  · split
    · exact ⟨h.annotations, rfl⟩
    · split
      · exact ⟨h.annotations, rfl⟩
      · exact h

theorem parameterMarks_alongside (hZ : Aligned Z) {m m' : ParameterMarks} (hm : m.Alike T m') (zs : List (Twin T))
    (hzs : zs <:+ Z) :
    Alongside Z (ParameterMarks.Alike T) zs [] (parameterMarks m (lefts zs)) (parameterMarks m' (rights zs)) := by
  cases zs with
  | nil =>
    rw [lefts_nil, rights_nil, parameterMarks, parameterMarks]
    exact .done hm
  | cons z zs =>
    have hsuffix : zs <:+ Z := (List.suffix_cons z zs).trans hzs
    rw [lefts_cons, rights_cons, parameterMarks, parameterMarks]
    simp only [Twin.isMark_right, hZ.isModifier hzs]
    split
    next hat =>
      refine .plain (isBracket_of_isMark hat (by decide)) ?_
      refine (annotationUse_alongside hZ hsuffix).bind hsuffix fun vs name? name?' hlt _ hvs hname => ?_
      have hannotations : List.Forall₂ (LastOfDotted T) name?.toList name?'.toList := by
        cases hname with
        | none => exact .nil
        | some h => exact .cons h .nil
      have hmore : ParameterMarks.Alike T ⟨m.annotations ++ name?.toList, m.visibility⟩
          ⟨m'.annotations ++ name?'.toList, m'.visibility⟩ :=
        ⟨List.rel_append hm.annotations hannotations, hm.visibility⟩
      exact (parameterMarks_alongside hZ hmore vs hvs).bind hvs fun _ _ _ _ _ _ hm => .done hm
    next =>
      split
      next hmodifier =>
        rw [hZ.text_of_isModifier hzs hmodifier]
        simp only [isModifier, Bool.and_eq_true] at hmodifier
        refine .plain (isBracket_of_isName hmodifier.1.1) ?_
        exact (parameterMarks_alongside hZ (hm.addWord _) zs hsuffix).bind hsuffix fun _ _ _ _ _ _ hm => .done hm
      next => exact .done hm
termination_by zs.length
decreasing_by all_goals grind [length_lefts]

theorem parameter_alongside [Spelling T] (hZ : Aligned Z) (hzs : zs <:+ Z) :
    Alongside Z (Field.Alike T) zs [] (parameter (lefts zs)) (parameter (rights zs)) := by
  rw [parameter, parameter]
  refine (parameterMarks_alongside hZ ⟨.nil, rfl⟩ zs hzs).bind hzs fun vs₁ marks marks' _ _ hvs₁ hmarks => ?_
  dsimp only
  have hproperty := takePropertyKeyword_took vs₁
  generalize takePropertyKeyword (lefts vs₁) = p, takePropertyKeyword (rights vs₁) = q at hproperty
  obtain ⟨ws, vs₂, hsplit, hcloses, rfl⟩ := hproperty
  have hvs₂ : vs₂ <:+ Z := (hsplit ▸ List.suffix_append ws vs₂).trans hvs₁
  refine .skip hcloses hsplit ?_
  refine (simpleName_alongside .parameter hvs₂).bind hvs₂ fun vs₃ name name' _ _ hvs₃ hname => ?_
  have hcolon (t : Token) (ht : t.isMark ':' = true) : Closes true [] [t] := .plain (isBracket_of_isMark ht (by decide)) .nil
  refine (expectMark_alongside .parameterType hcolon hvs₃).bind hvs₃ fun vs₄ _ _ _ _ hvs₄ _ => ?_
  refine (typeRef_alongside hZ vs₄ hvs₄).bind hvs₄ fun vs₅ ty ty' _ _ hvs₅ hty => ?_
  dsimp only
  obtain ⟨z, vs₆, rfl, hmark, _, _, hleft, hright⟩ | ⟨hleft, hright⟩ := takeMark_cases '=' vs₅
  all_goals rw [hleft, hright]
  · have hvs₆ : vs₆ <:+ Z := (List.suffix_cons z vs₆).trans hvs₅
    refine .plain (isBracket_of_isMark hmark (by decide)) ?_
    refine (skipDefault_alongside false 0 vs₆ hvs₆).bind hvs₆ fun _ _ _ _ _ _ _ => .done ?_
    exact ⟨Spelling.unquote hname, hty, hmarks.visibility, rfl, rfl, rfl, hmarks.annotations⟩
  · exact .done ⟨Spelling.unquote hname, hty, hmarks.visibility, rfl, rfl, rfl, hmarks.annotations⟩

theorem parameters_alongside [Spelling T] (hZ : Aligned Z) (zs : List (Twin T)) (hzs : zs <:+ Z) :
    Alongside Z (List.Forall₂ (Field.Alike T)) zs [')'] (parameters (lefts zs)) (parameters (rights zs)) := by
  have hclose (t : Token) (ht : t.isMark ')' = true) : Closes true [')'] [t] :=
    .closes (by simp [Token.closing?, kind_of_isMark ht]) .nil
  rw [parameters, parameters]
  obtain ⟨z, vs, hsplit, hmark, _, _, hleft, hright⟩ | ⟨hleft, hright⟩ := takeMark_cases ')' zs
  all_goals rw [hleft, hright]
  · have hcloses : Closes true [')'] (lefts [z]) := hclose z.left hmark
    exact .after hcloses hsplit (.done .nil)
  · refine (parameter_alongside hZ hzs).bind hzs fun vs field field' hlt _ hvs hfield => ?_
    dsimp only
    obtain ⟨z, vs, rfl, hmark, _, _, hleft, hright⟩ | ⟨hleft, hright⟩ := takeMark_cases ',' vs
    all_goals rw [hleft, hright]
    · have hsuffix : vs <:+ Z := (List.suffix_cons z vs).trans hvs
      refine .plain (isBracket_of_isMark hmark (by decide)) ?_
      exact (parameters_alongside hZ vs hsuffix).bind hsuffix fun _ _ _ _ _ _ hfields => .done (.cons hfield hfields)
    · exact (expectMark_alongside .parametersEnd hclose hvs).bind hvs fun _ _ _ _ _ _ _ => .done (.cons hfield .nil)
termination_by zs.length
decreasing_by all_goals grind [length_lefts]

theorem skipConstructorWords_alongside [Spelling T] (hZ : Aligned Z) (zs : List (Twin T)) (hzs : zs <:+ Z) :
    Alongside Z Eq zs [] (skipConstructorWords (lefts zs)) (skipConstructorWords (rights zs)) := by
  cases zs with
  | nil =>
    rw [lefts_nil, rights_nil, skipConstructorWords]
    exact .done rfl
  | cons z zs =>
    have hsuffix : zs <:+ Z := (List.suffix_cons z zs).trans hzs
    rw [lefts_cons, rights_cons, skipConstructorWords, skipConstructorWords]
    simp only [Twin.isMark_right, Twin.isName_right,
      z.contains_right ["public", "private", "internal", "protected", "constructor"] (by decide)]
    split
    next hat =>
      refine .plain (isBracket_of_isMark hat (by decide)) ?_
      refine (annotationUse_alongside hZ hsuffix).bind hsuffix fun vs _ _ hlt _ hvs _ => ?_
      exact (skipConstructorWords_alongside hZ vs hvs).bind hvs fun _ _ _ _ _ _ _ => .done rfl
    next =>
      split
      next hword =>
        refine .plain (isBracket_of_isName (Bool.and_eq_true_iff.mp hword).1) ?_
        exact (skipConstructorWords_alongside hZ zs hsuffix).bind hsuffix fun _ _ _ _ _ _ _ => .done rfl
      next => exact .done rfl
termination_by zs.length
decreasing_by all_goals grind [length_lefts]

theorem primaryConstructor_alongside [Spelling T] (hZ : Aligned Z) (hzs : zs <:+ Z) :
    Alongside Z (List.Forall₂ (Field.Alike T)) zs [] (primaryConstructor (lefts zs))
      (primaryConstructor (rights zs)) := by
  rw [primaryConstructor, primaryConstructor]
  refine Together.bind (skipConstructorWords_alongside hZ zs hzs) fun p q hpq => ?_
  obtain ⟨ws, vs, hsplit, hcloses, -⟩ := hpq
  have hvs : vs <:+ Z := (hsplit ▸ List.suffix_append ws vs).trans hzs
  dsimp only
  -- without a parenthesis the words that were skipped are given back, so there is nothing that was taken
  obtain ⟨z, vs, rfl, hmark, _, _, hleft, hright⟩ | ⟨hleft, hright⟩ := takeMark_cases '(' vs
  all_goals rw [hleft, hright]
  · have hsuffix : vs <:+ Z := (List.suffix_cons z vs).trans hvs
    have hcloser : z.left.closer? = some ')' := by simp [Token.closer?, kind_of_isMark hmark]
    refine Alongside.skip hcloses hsplit (.opens hcloser ?_)
    exact (parameters_alongside hZ vs hsuffix).bind hsuffix fun _ _ _ _ _ _ hfields => .done hfields
  · exact Alongside.done .nil

end Counterpart.Kotlin
