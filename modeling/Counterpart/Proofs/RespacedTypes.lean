/-
Types, read side by side. They agree but for the spelling of their names and the text that a reference keeps of its source
(`TypeRef.Alike`).
-/
import Counterpart.Proofs.RespacedHeaders

namespace Counterpart.Kotlin

/-! ## Types without their texts -/

mutual

/-- The reference without the text it was read from. -/
def TypeRef.erased : TypeRef → TypeRef
  | .named name args nullable _ => .named name (erasedArgs args) nullable ""
  | .function nullable _ => .function nullable ""

/-- Type arguments without the texts they were read from. -/
def TypeRef.erasedArgs : List (TypeArg TypeRef) → List (TypeArg TypeRef)
  | [] => []
  | a :: as => erasedArg a :: erasedArgs as

def TypeRef.erasedArg : TypeArg TypeRef → TypeArg TypeRef
  | .star => .star
  | .type variance ty => .type variance ty.erased

end

/-! ## Types with other spellings -/

mutual

/-- References of the same form, in which the names in the same places are related by `R`. -/
inductive TypeRef.Alike (R : String → String → Prop) : TypeRef → TypeRef → Prop
  | named {name name' : String} {args args' : List (TypeArg TypeRef)} (hname : R name name')
    (hargs : TypeRef.ArgsAlike R args args') (nullable : Bool) (text text' : String) :
    TypeRef.Alike R (.named name args nullable text) (.named name' args' nullable text')
  | function (nullable : Bool) (text text' : String) : TypeRef.Alike R (.function nullable text) (.function nullable text')

inductive TypeRef.ArgsAlike (R : String → String → Prop) : List (TypeArg TypeRef) → List (TypeArg TypeRef) → Prop
  | nil : TypeRef.ArgsAlike R [] []
  | cons {a a' : TypeArg TypeRef} {as as' : List (TypeArg TypeRef)} (ha : TypeRef.ArgAlike R a a')
    (has : TypeRef.ArgsAlike R as as') : TypeRef.ArgsAlike R (a :: as) (a' :: as')

inductive TypeRef.ArgAlike (R : String → String → Prop) : TypeArg TypeRef → TypeArg TypeRef → Prop
  | star : TypeRef.ArgAlike R .star .star
  | type (variance : Variance) {ty ty' : TypeRef} (h : TypeRef.Alike R ty ty') :
    TypeRef.ArgAlike R (.type variance ty) (.type variance ty')

end

mutual

theorem TypeRef.erased_eq_of_alike {ty ty' : TypeRef} : ty.Alike (Dotted Eq) ty' → ty.erased = ty'.erased
  | .named hname hargs _ _ _ => by rw [erased, erased, dotted_eq.mp hname, erasedArgs_eq_of_alike hargs]
  | .function _ _ _ => by rw [erased, erased]

theorem TypeRef.erasedArgs_eq_of_alike {as as' : List (TypeArg TypeRef)} :
    ArgsAlike (Dotted Eq) as as' → erasedArgs as = erasedArgs as'
  | .nil => rfl
  | .cons ha has => by rw [erasedArgs, erasedArgs, erasedArg_eq_of_alike ha, erasedArgs_eq_of_alike has]

theorem TypeRef.erasedArg_eq_of_alike {a a' : TypeArg TypeRef} : ArgAlike (Dotted Eq) a a' → erasedArg a = erasedArg a'
  | .star => rfl
  | .type _ h => by rw [erasedArg, erasedArg, erased_eq_of_alike h]

end

variable {T : String → String → Prop} {Z zs : List (Twin T)} {z : Twin T}

/-! ## Variance and receivers -/

theorem takeVariance_took [Spelling T] : ∀ zs : List (Twin T), Took Eq zs [] (takeVariance (lefts zs)) (takeVariance (rights zs))
  | [] => ⟨[], [], rfl, .nil, rfl⟩
  | [z] => ⟨[], [z], rfl, .nil, rfl⟩
  | z :: w :: zs => by
    simp only [lefts_cons, rights_cons, takeVariance, z.isWord_right "out" (by decide),
      z.isWord_right "in" (by decide), Twin.isName_right]
    split
    next h =>
      exact ⟨[z], w :: zs, rfl, .plain (isBracket_of_isWord (Bool.and_eq_true_iff.mp h).1) .nil, rfl⟩
    next =>
      split
      next h =>
        exact ⟨[z], w :: zs, rfl, .plain (isBracket_of_isWord (Bool.and_eq_true_iff.mp h).1) .nil, rfl⟩
      next => exact ⟨[], z :: w :: zs, rfl, .nil, rfl⟩

/-- A dot and a parenthesis come next in both sources, or in none. -/
theorem receiverEnd_cases (zs : List (Twin T)) :
    (∃ dot paren vs, zs = dot :: paren :: vs ∧ dot.left.isMark '.' = true ∧ paren.left.isMark '(' = true ∧ ∃ h h',
      receiverEnd (lefts zs) = some ⟨paren.left, lefts vs, h⟩ ∧
      receiverEnd (rights zs) = some ⟨paren.right, rights vs, h'⟩) ∨
    receiverEnd (lefts zs) = none ∧ receiverEnd (rights zs) = none := by
  cases zs with
  | nil => exact .inr ⟨rfl, rfl⟩
  | cons dot zs =>
    cases zs with
    | nil => exact .inr ⟨rfl, rfl⟩
    | cons paren vs =>
      by_cases h : dot.left.isMark '.' && paren.left.isMark '('
      · rw [Bool.and_eq_true] at h
        refine .inl ⟨dot, paren, vs, rfl, h.1, h.2, (Parsed.taken paren.left paren.left (lefts vs)).rest_lt,
          (Parsed.taken paren.right paren.right (rights vs)).rest_lt, ?_⟩
        simp [receiverEnd, h, Parsed.taken]
      · exact .inr (by simpa [receiverEnd] using h)

/-! ## Types -/

mutual

theorem typeRef_alongside [Spelling T] (hZ : Aligned Z) (zs : List (Twin T)) (hzs : zs <:+ Z) :
    Alongside Z (TypeRef.Alike (Dotted T)) zs [] (typeRef (lefts zs)) (typeRef (rights zs)) := by
  rw [typeRef, typeRef]
  refine (skipAnnotations_alongside hZ zs hzs).bind hzs fun vs _ _ h₀ _ hvs _ => ?_
  dsimp only
  have hsuspend := takeWord_took "suspend" (by decide) vs
  generalize takeWord "suspend" (lefts vs) = p, takeWord "suspend" (rights vs) = q at hsuspend
  obtain ⟨ws, us, hsplit, hcloses, -⟩ := hsuspend
  have hus : us <:+ Z := (hsplit ▸ List.suffix_append ws us).trans hvs
  refine .skip hcloses hsplit ?_
  cases us with
  | nil => exact .errorAtEnd
  | cons z us =>
    simp only [lefts_cons, rights_cons, Twin.isMark_right]
    split
    next hparen =>
      refine .group hparen (by decide) hus fun vs₂ h₂ _ hvs₂ => ?_
      refine (resultType_alongside hZ vs₂ hvs₂).bind hvs₂ fun vs₃ _ _ _ _ hvs₃ _ => ?_
      have hnullable := takeMark_took (c := '?') (by decide) vs₃
      dsimp only
      generalize takeMark '?' (lefts vs₃) = p, takeMark '?' (rights vs₃) = q at hnullable
      obtain ⟨ws₄, vs₄, hsplit₄, hcloses₄, rfl⟩ := hnullable
      exact .after hcloses₄ hsplit₄ (.done (.function _ _ _))
    next =>
      refine (dottedName_alongside .type hus).bind hus fun vs₂ name name' h₂ _ hvs₂ hname => ?_
      refine (typeArgs_alongside hZ vs₂ hvs₂).bind hvs₂ fun vs₃ args args' h₃ _ hvs₃ hargs => ?_
      obtain ⟨dot, paren, vs₄, hsplit₄, hdot, hparen, _, _, hleft, hright⟩ | ⟨hleft, hright⟩ := receiverEnd_cases vs₃
      all_goals simp only [hleft, hright]
      · subst hsplit₄
        have hgroup : paren :: vs₄ <:+ Z := (List.suffix_cons dot _).trans hvs₃
        refine .plain (isBracket_of_isMark hdot (by decide)) ?_
        refine .group hparen (by decide) hgroup fun vs₅ h₅ _ hvs₅ => ?_
        refine (resultType_alongside hZ vs₅ hvs₅).bind hvs₅ fun vs₆ _ _ _ _ hvs₆ _ => ?_
        exact .done (.function _ _ _)
      · have hnullable := takeMark_took (c := '?') (by decide) vs₃
        generalize takeMark '?' (lefts vs₃) = p, takeMark '?' (rights vs₃) = q at hnullable
        obtain ⟨ws₄, vs₄, hsplit₄, hcloses₄, rfl⟩ := hnullable
        have hvs₄ : vs₄ <:+ Z := (hsplit₄ ▸ List.suffix_append ws₄ vs₄).trans hvs₃
        refine .skip hcloses₄ hsplit₄ ?_
        exact (otherBound_alongside hZ vs₄ hvs₄).bind hvs₄ fun _ _ _ _ _ _ _ => .done (.named hname hargs _ _ _)
termination_by 3 * zs.length
decreasing_by all_goals grind [length_lefts]

theorem resultType_alongside [Spelling T] (hZ : Aligned Z) (zs : List (Twin T)) (hzs : zs <:+ Z) :
    Alongside Z Eq zs [] (resultType (lefts zs)) (resultType (rights zs)) := by
  cases zs with
  | nil =>
    rw [lefts_nil, rights_nil, resultType]
    exact .done rfl
  | cons z zs =>
    have hsuffix : zs <:+ Z := (List.suffix_cons z zs).trans hzs
    rw [lefts_cons, rights_cons, resultType, resultType, z.kind]
    split
    next harrow =>
      refine .plain (isBracket_of_kind (by simpa using harrow) fun _ hk => by cases hk) ?_
      exact (typeRef_alongside hZ zs hsuffix).bind hsuffix fun _ _ _ _ _ _ _ => .done rfl
    next => exact .done rfl
termination_by 3 * zs.length

theorem otherBound_alongside [Spelling T] (hZ : Aligned Z) (zs : List (Twin T)) (hzs : zs <:+ Z) :
    Alongside Z Eq zs [] (otherBound (lefts zs)) (otherBound (rights zs)) := by
  cases zs with
  | nil =>
    rw [lefts_nil, rights_nil, otherBound]
    exact .done rfl
  | cons z zs =>
    have hsuffix : zs <:+ Z := (List.suffix_cons z zs).trans hzs
    rw [lefts_cons, rights_cons, otherBound, otherBound, Twin.isMark_right]
    split
    next hand =>
      refine .plain (isBracket_of_isMark hand (by decide)) ?_
      exact (typeRef_alongside hZ zs hsuffix).bind hsuffix fun _ _ _ _ _ _ _ => .done rfl
    next => exact .done rfl
termination_by 3 * zs.length

theorem typeArgs_alongside [Spelling T] (hZ : Aligned Z) (zs : List (Twin T)) (hzs : zs <:+ Z) :
    Alongside Z (TypeRef.ArgsAlike (Dotted T)) zs [] (typeArgs (lefts zs)) (typeArgs (rights zs)) := by
  cases zs with
  | nil =>
    rw [lefts_nil, rights_nil, typeArgs]
    exact .done .nil
  | cons z zs =>
    have hsuffix : zs <:+ Z := (List.suffix_cons z zs).trans hzs
    rw [lefts_cons, rights_cons, typeArgs, typeArgs, Twin.isMark_right]
    split
    next hangle =>
      refine .plain (isBracket_of_isMark hangle (by decide)) ?_
      exact (typeArgList_alongside hZ zs hsuffix).bind hsuffix fun _ _ _ _ _ _ hargs => .done hargs
    next => exact .done .nil
termination_by 3 * zs.length

theorem typeArgList_alongside [Spelling T] (hZ : Aligned Z) (zs : List (Twin T)) (hzs : zs <:+ Z) :
    Alongside Z (TypeRef.ArgsAlike (Dotted T)) zs [] (typeArgList (lefts zs)) (typeArgList (rights zs)) := by
  rw [typeArgList, typeArgList]
  refine (typeArg_alongside hZ zs hzs).bind hzs fun vs arg arg' h₁ _ hvs harg => ?_
  cases vs with
  | nil => exact .errorAtEnd
  | cons z vs =>
    have hsuffix : vs <:+ Z := (List.suffix_cons z vs).trans hvs
    simp only [lefts_cons, rights_cons, Twin.isMark_right]
    split
    next hcomma =>
      refine .plain (isBracket_of_isMark hcomma (by decide)) ?_
      exact (typeArgList_alongside hZ vs hsuffix).bind hsuffix fun _ _ _ _ _ _ hargs => .done (.cons harg hargs)
    next =>
      split
      next hangle =>
        exact .plain (isBracket_of_isMark hangle (by decide)) (.done (.cons harg .nil))
      next => exact .errorAt (hvs.subset (by simp))
termination_by 3 * zs.length + 2
decreasing_by all_goals grind [length_lefts]

theorem typeArg_alongside [Spelling T] (hZ : Aligned Z) (zs : List (Twin T)) (hzs : zs <:+ Z) :
    Alongside Z (TypeRef.ArgAlike (Dotted T)) zs [] (typeArg (lefts zs)) (typeArg (rights zs)) := by
  cases zs with
  | nil =>
    rw [lefts_nil, rights_nil, typeArg]
    exact .errorAtEnd
  | cons z zs =>
    rw [lefts_cons, rights_cons, typeArg, typeArg, Twin.isMark_right]
    split
    next hstar => exact .plain (isBracket_of_isMark hstar (by decide)) (.done .star)
    next =>
      have hvariance := takeVariance_took (z :: zs)
      simp only [lefts_cons, rights_cons] at hvariance
      generalize takeVariance (z.left :: lefts zs) = p, takeVariance (z.right :: rights zs) = q at hvariance
      obtain ⟨ws, vs, hsplit, hcloses, rfl⟩ := hvariance
      have hvs : vs <:+ Z := (hsplit ▸ List.suffix_append ws vs).trans hzs
      refine .skip hcloses hsplit ?_
      exact (typeRef_alongside hZ vs hvs).bind hvs fun _ _ _ _ _ _ hty => .done (.type _ hty)
termination_by 3 * zs.length + 1
decreasing_by all_goals grind [length_lefts]

end

end Counterpart.Kotlin
