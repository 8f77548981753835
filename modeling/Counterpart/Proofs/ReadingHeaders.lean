/-
The header of a class is read back: its keyword, its name between backticks where it needs them, its type parameters, and the
properties of its primary constructor, written on one line or on several.
-/
import Counterpart.Proofs.ReadingTypes
import Counterpart.Proofs.ReadingGroups
import Counterpart.Proofs.Pieces
import Counterpart.Code.Declaration

namespace Counterpart.Kotlin

open Text
open List (Forall₂)

variable {ts us : List Token} {es rest : List Lexeme} {c : Char}

theorem unquote_safeName {name : String} (hname : Name.isPlain name) : Name.unquote (safeName name) = name := by
  rw [safeName]
  split
  next =>
    simp [Name.unquote]
  next =>
    rw [Name.isPlain] at hname
    rw [Name.unquote]
    split
    next cs hcs =>
      rw [hcs] at hname
      simp [show isNameStart '\x60' = false by decide] at hname
    next => rfl

/-! ## Parameters -/

/-- Name, mutability and type. -/
def Field.outline (f : Field) : String × Bool × String := (f.name, f.mutable, f.ty.render)

theorem parameter_ok {p₁} (hmarks : parameterMarks ⟨[], .pub⟩ ts = .ok p₁) {p₂}
    (hname : simpleName .parameter (takePropertyKeyword p₁.rest).rest = .ok p₂) {p₃}
    (hcolon : expectMark .parameterType p₂.rest = .ok p₃) {p₄} (hty : typeRef p₃.rest = .ok p₄)
    (hdefault : (takeMark '=' p₄.rest).value = false) :
    ∃ q, parameter ts = .ok q ∧ q.value.name = Name.unquote p₂.value ∧ q.value.ty = p₄.value ∧
      q.value.mutable = (takePropertyKeyword p₁.rest).value.getD false ∧ q.rest = p₄.rest := by
  rw [parameter, hmarks]
  simp only [bind, Except.bind]
  rw [hname]
  simp only
  rw [hcolon]
  simp only
  rw [hty]
  simp only [hdefault, Bool.false_eq_true, if_false]
  exact ⟨_, rfl, rfl, rfl, rfl, rfl⟩

theorem simpleName_reads (role : NameRole) (w : String) : Reads (simpleName role) [.word w] rest (· = w) := by
  intro ts h
  obtain ⟨t, us, ht, hus, rfl⟩ := List.forall₂_cons_right_iff.mp h
  exact ⟨.keep t.text us, by rw [simpleName, if_pos ht.isName_word], ht.2.1, hus⟩

theorem expectMark_reads (role : MarkRole) : Reads (expectMark role) [.mark role.mark] rest fun _ => True := by
  intro ts h
  obtain ⟨t, us, ht, hus, rfl⟩ := List.forall₂_cons_right_iff.mp h
  refine ⟨.keep () us, ?_, trivial, hus⟩
  rw [expectMark, if_pos (by simp [ht.isMark_mark])]
  rfl

theorem takePropertyKeyword_reads (mutable : Bool)
    (h : Forall₂ Token.Fits ts (.word (if mutable then "var" else "val") :: rest)) :
    (takePropertyKeyword ts).value = some mutable ∧ Forall₂ Token.Fits (takePropertyKeyword ts).rest rest := by
  obtain ⟨t, us, ht, hus, rfl⟩ := List.forall₂_cons_right_iff.mp h
  rw [takePropertyKeyword, ht.isWord_word, ht.isWord_word]
  cases mutable <;> exact ⟨rfl, hus⟩

theorem parameterMarks_property (mutable : Bool) (m : ParameterMarks)
    (h : Forall₂ Token.Fits ts (.word (if mutable then "var" else "val") :: rest)) :
    parameterMarks m ts = .ok (.keep m ts) := by
  obtain ⟨t, us, ht, hus, rfl⟩ := List.forall₂_cons_right_iff.mp h
  have hmodifier : isModifier t us = false := by
    rw [isModifier, ht.2.1]
    cases mutable <;> simp [modifierWords, Lexeme.word]
  rw [parameterMarks, if_neg (by simp [ht.isMark_word]), if_neg (by simp [hmodifier])]
  rfl

theorem parameter_reads {name : String} (hname : Name.isPlain name) (mutable : Bool) {ty : TypeRef} (hty : ty.Simple)
    (hrest : FollowsType rest) :
    Reads parameter (.word (if mutable then "var" else "val") :: .word (safeName name) :: .mark ':' :: ty.lexemes) rest
      (Field.outline · = (name, mutable, ty.render)) := by
  intro ts h
  have hmarks := parameterMarks_property mutable ⟨[], .pub⟩ h
  obtain ⟨hkeyword, h₁⟩ := takePropertyKeyword_reads mutable h
  obtain ⟨p₂, hp₂, hvalue₂, h₂⟩ := simpleName_reads .parameter (safeName name) _ h₁
  obtain ⟨p₃, hp₃, -, h₃⟩ := expectMark_reads .parameterType _ h₂
  obtain ⟨p₄, hp₄, hrewritten, h₄⟩ := typeRef_reads hty hrest _ h₃
  have hdefault : (takeMark '=' p₄.rest).value = false := by
    rw [takeMark_of_notAt h₄ hrest.notAt (by decide)]
    rfl
  obtain ⟨q, hq, hqname, hqty, hqmutable, hqrest⟩ := parameter_ok hmarks hp₂ hp₃ hp₄ hdefault
  refine ⟨q, hq, ?_, by rwa [hqrest]⟩
  simp only [Field.outline, hqname, hqty, hqmutable, hvalue₂, unquote_safeName hname, TypeRef.render_eq hrewritten, Parsed.keep, hkeyword,
    Option.getD_some]

theorem parameters_nil {us : List Token} {hlt} (hclose : takeMark ')' ts = ⟨true, us, hlt⟩) :
    parameters ts = .ok ⟨[], us, hlt⟩ := by
  rw [parameters, hclose]
  rfl

theorem parameters_more (hclose : takeMark ')' ts = .keep false ts) {p} (hp : parameter ts = .ok p) {us : List Token} {hlt}
    (hcomma : takeMark ',' p.rest = ⟨true, us, hlt⟩) {q} (hq : parameters us = .ok q) :
    ∃ r, parameters ts = .ok r ∧ r.value = p.value :: q.value ∧ r.rest = q.rest := by
  rw [parameters, hclose]
  simp only [Parsed.keep, bind, Except.bind]
  rw [hp]
  simp only
  rw [hcomma]
  simp only
  rw [hq]
  exact ⟨_, rfl, rfl, rfl⟩

theorem parameters_last (hclose : takeMark ')' ts = .keep false ts) {p} (hp : parameter ts = .ok p)
    (hcomma : takeMark ',' p.rest = .keep false p.rest) {q} (hq : expectMark .parametersEnd p.rest = .ok q) :
    ∃ r, parameters ts = .ok r ∧ r.value = [p.value] ∧ r.rest = q.rest := by
  rw [parameters, hclose]
  simp only [Parsed.keep, bind, Except.bind]
  rw [hp]
  simp only
  rw [hcomma]
  simp only [Parsed.keep]
  rw [hq]
  exact ⟨_, rfl, rfl, rfl⟩

theorem parameters_reads {trailing : Bool} {ess : List (List Lexeme)} {vs : List (String × Bool × String)}
    (h : Forall₂ (fun es v => (∃ w us, es = .word w :: us) ∧
      ∀ rest, FollowsType rest → Reads parameter es rest (Field.outline · = v)) ess vs) :
    Reads parameters (Code.commaLexemes trailing ess ++ [.mark ')']) rest (List.map Field.outline · = vs) := by
  induction h with
  | nil =>
    intro ts hts
    obtain ⟨us, hlt, htake, hus⟩ := takeMark_mark hts
    exact ⟨_, parameters_nil htake, rfl, hus⟩
  | @cons es v ess vs hes hess ih =>
    intro ts hts
    obtain ⟨⟨w, tl, rfl⟩, hread⟩ := hes
    by_cases hmore : trailing = true ∨ ess ≠ []
    · rw [Code.commaLexemes_cons hmore, List.append_assoc, List.append_assoc] at hts
      have hclose := takeMark_of_notAt hts notAt_word (List.mem_singleton_self ')')
      obtain ⟨p, hp, hvalue, hfits⟩ := hread _ ⟨_, .inl rfl⟩ ts hts
      obtain ⟨us, hlt, hcomma, hus⟩ := takeMark_mark hfits
      obtain ⟨q, hq, hvalues, hrest⟩ := ih us (by rwa [List.append_assoc])
      obtain ⟨r, hr, hrvalue, hrrest⟩ := parameters_more hclose hp hcomma hq
      exact ⟨r, hr, by simp only [hrvalue, List.map_cons, hvalue, hvalues], by rwa [hrrest]⟩
    · rw [not_or, Bool.not_eq_true, not_not] at hmore
      obtain ⟨rfl, rfl⟩ := hmore
      cases hess
      rw [Code.commaLexemes, if_neg (by decide), List.append_nil, List.append_assoc] at hts
      have hclose := takeMark_of_notAt hts notAt_word (List.mem_singleton_self ')')
      obtain ⟨p, hp, hvalue, hfits⟩ := hread _ ⟨rest, .inr (.inr rfl)⟩ ts hts
      have hcomma := takeMark_of_notAt hfits (notAt_mark (by decide)) (List.mem_singleton_self ',')
      obtain ⟨q, hq, -, hrest⟩ := expectMark_reads .parametersEnd _ hfits
      obtain ⟨r, hr, hrvalue, hrrest⟩ := parameters_last hclose hp hcomma hq
      exact ⟨r, hr, by simp only [hrvalue, List.map_cons, List.map_nil, hvalue], by rwa [hrrest]⟩

/-! ## Headers -/

/-- What stands behind the header of a class: its body, the end of the body around it, or another class. -/
def FollowsHeader (es : List Lexeme) : Prop :=
  ∀ e ∈ es.head?, e ∈ [.mark '\x7b', .mark '\x7d', .word "data", .word "enum", .word "class"]

theorem FollowsHeader.notAt (h : FollowsHeader es) : NotAt ['<', '(', ':', '@'] es := by
  intro e he
  have := h e he
  simp only [List.mem_cons, List.not_mem_nil, or_false] at this
  rcases this with rfl | rfl | rfl | rfl | rfl <;> rintro c hc ⟨⟩
  all_goals simp at hc

theorem FollowsHeader.text_mem (hes : FollowsHeader es) (h : Forall₂ Token.Fits ts es) :
    ∀ t ∈ ts.head?, t.isName = true → t.text ∈ ["data", "enum", "class"] := by
  cases h with
  | nil => simp
  | @cons t e _ _ ht _ =>
    rintro _ ⟨⟩ hname
    have := hes e rfl
    simp only [List.mem_cons, List.not_mem_nil, or_false] at this
    rw [ht.2.1]
    rcases this with rfl | rfl | rfl | rfl | rfl
    · simp [ht.isName_mark] at hname
    · simp [ht.isName_mark] at hname
    all_goals simp [Lexeme.word]

theorem skipConstructorWords_of_notAt (h : Forall₂ Token.Fits ts es) (hat : NotAt ['@'] es)
    (hword : ∀ t ∈ ts.head?, t.isName = true → t.text ∈ ["data", "enum", "class"]) :
    skipConstructorWords ts = .ok (.keep () ts) := by
  have hmark := isMark_of_notAt h hat List.mem_cons_self
  have hother : ∀ w ∈ ["data", "enum", "class"],
      ["public", "private", "internal", "protected", "constructor"].contains w = false := by decide
  cases ts with
  | nil =>
    rw [skipConstructorWords]
    rfl
  | cons t ts =>
    rw [skipConstructorWords, if_neg (by simp [hmark t rfl]), if_neg ?_]
    · rfl
    · rw [Bool.and_eq_true, not_and]
      intro hname
      rw [hother _ (hword t rfl hname)]
      decide

theorem primaryConstructor_none (hskip : skipConstructorWords ts = .ok (.keep () ts)) (hopen : takeMark '(' ts = .keep false ts) :
    primaryConstructor ts = .ok (.keep [] ts) := by
  rw [primaryConstructor, hskip]
  simp only [bind, Except.bind, Parsed.keep]
  rw [hopen]
  rfl

theorem primaryConstructor_some (hskip : skipConstructorWords ts = .ok (.keep () ts)) {us : List Token} {hlt}
    (hopen : takeMark '(' ts = ⟨true, us, hlt⟩) {p} (hp : parameters us = .ok p) :
    ∃ q, primaryConstructor ts = .ok q ∧ q.value = p.value ∧ q.rest = p.rest := by
  rw [primaryConstructor, hskip]
  simp only [bind, Except.bind, Parsed.keep]
  rw [hopen]
  simp only
  rw [hp]
  exact ⟨_, rfl, rfl, rfl⟩

theorem primaryConstructor_reads {trailing : Bool} {ess : List (List Lexeme)} {vs : List (String × Bool × String)}
    (h : Forall₂ (fun es v => (∃ w us, es = .word w :: us) ∧
      ∀ rest, FollowsType rest → Reads parameter es rest (Field.outline · = v)) ess vs) (hrest : FollowsHeader rest) :
    Reads primaryConstructor
      (if ess.isEmpty then [] else .mark '(' :: (Code.commaLexemes trailing ess ++ [.mark ')'])) rest
      (List.map Field.outline · = vs) := by
  intro ts hts
  cases h with
  | nil =>
    have hskip := skipConstructorWords_of_notAt hts (hrest.notAt.of_subset (by decide)) (hrest.text_mem hts)
    exact ⟨_, primaryConstructor_none hskip (takeMark_of_notAt hts hrest.notAt (by decide)), rfl, hts⟩
  | @cons es v ess vs hes hess =>
    have hskip := skipConstructorWords_of_notAt hts (notAt_mark (by decide)) (by
      obtain ⟨t, us, ht, -, rfl⟩ := List.forall₂_cons_right_iff.mp hts
      rintro _ ⟨⟩ hname
      simp [ht.isName_mark] at hname)
    obtain ⟨us, hlt, hopen, hus⟩ := takeMark_mark hts
    obtain ⟨p, hp, hvalue, hfits⟩ := parameters_reads (.cons hes hess) us hus
    obtain ⟨q, hq, hqvalue, hqrest⟩ := primaryConstructor_some hskip hopen hp
    exact ⟨q, hq, by rwa [hqvalue], by rwa [hqrest]⟩

theorem skipSupertypes_of_followsHeader (h : Forall₂ Token.Fits ts es) (hes : FollowsHeader es) :
    skipSupertypes ts = .ok (.keep () ts) := by
  have hcolon := takeMark_of_notAt h hes.notAt (c := ':') (by decide)
  have hwhere : ts.head?.any (Token.isWord "where") = false := by
    cases ts with
    | nil => rfl
    | cons t ts =>
      have hother : ∀ w ∈ ["data", "enum", "class"], (w == "where") = false := by decide
      rw [List.head?_cons, Option.any_some, Token.isWord, Bool.and_eq_false_imp]
      exact fun hname => hother _ (hes.text_mem h t rfl hname)
  rw [skipSupertypes, hcolon]
  simp only [Parsed.keep]
  rw [hwhere]
  rfl

open Output in
/-- The kind of class that a declaration of this kind is written as. -/
def classKind : DeclarationKind → ClassKind
  | .data => .data
  | .enum => .enum
  | .plain => .plain

open Output in
/-- The words before the name of a class. -/
def keywordLexemes : DeclarationKind → List Lexeme
  | .data => [.word "data", .word "class"]
  | .enum => [.word "enum", .word "class"]
  | .plain => [.word "class"]

theorem modifiers_class {t : Token} (ht : t.Fits (.word "class")) (ts : List Token) :
    modifiers (t :: ts) = .ok (.keep [] (t :: ts)) := by
  have hmodifier : isModifier t ts = false := by
    rw [isModifier, ht.2.1]
    simp [modifierWords, Lexeme.word]
  rw [modifiers, if_neg (by simp [ht.isMark_word]), if_neg (by simp [hmodifier]), if_neg (by simp [ht.isWord_word])]
  rfl

theorem modifiers_word {w : String} {t u : Token} (ht : t.Fits (.word w)) (hw : w ∈ modifierWords)
    (hu : u.Fits (.word "class")) (ts : List Token) :
    ∃ p, modifiers (t :: u :: ts) = .ok p ∧ p.value = [w] ∧ p.rest = u :: ts := by
  have hmodifier : isModifier t (u :: ts) = true := by
    rw [isModifier, ht.isName_word, ht.2.1, List.head?_cons, Option.any_some, hu.isName_word]
    simpa [Lexeme.word] using hw
  rw [modifiers, if_neg (by simp [ht.isMark_word]), if_pos hmodifier, modifiers_class hu]
  refine ⟨_, rfl, ?_, rfl⟩
  simp [Parsed.past, Parsed.widen, Parsed.map, Parsed.keep, ht.2.1, Lexeme.word]

theorem modifiers_reads (kind : Output.DeclarationKind) (h : Forall₂ Token.Fits ts (keywordLexemes kind ++ rest)) :
    ∃ p keyword us, modifiers ts = .ok p ∧ p.rest = keyword :: us ∧
      ClassKind.ofKeyword? p.value keyword = some (classKind kind) ∧ Forall₂ Token.Fits us rest := by
  cases kind with
  | plain =>
    obtain ⟨t, us, ht, hus, rfl⟩ := List.forall₂_cons_right_iff.mp h
    refine ⟨_, t, us, modifiers_class ht us, rfl, ?_, hus⟩
    rw [ClassKind.ofKeyword?, if_pos (by simp [ht.isWord_word])]
    rfl
  | data | enum =>
    obtain ⟨t, us, ht, hus, rfl⟩ := List.forall₂_cons_right_iff.mp h
    obtain ⟨u, vs, hu, hvs, rfl⟩ := List.forall₂_cons_right_iff.mp hus
    obtain ⟨p, hp, hvalue, hrest⟩ := modifiers_word ht (by decide) hu vs
    refine ⟨p, u, vs, hp, hrest, ?_, hvs⟩
    rw [ClassKind.ofKeyword?, if_pos (by simp [hu.isWord_word]), hvalue]
    rfl

theorem className_reads {name : String} (hname : Name.isPlain name) (hfree : name ≠ "init" ∧ name ≠ "constructor")
    (kind : ClassKind) (keyword : Token) (h : Forall₂ Token.Fits ts (.word (safeName name) :: rest)) :
    ∃ p, className kind keyword ts = .ok (some p) ∧ Name.unquote p.value.text = name ∧ Forall₂ Token.Fits p.rest rest := by
  obtain ⟨t, us, ht, hus, rfl⟩ := List.forall₂_cons_right_iff.mp h
  have hword : declarationWords.contains (safeName name) = false := by
    have hcases : ∀ w ∈ declarationWords, w.toList.head? ≠ some '\x60' ∧ (isReserved w ∨ w = "init" ∨ w = "constructor") := by
      decide
    rw [← Bool.not_eq_true, List.contains_iff_mem]
    intro hmem
    obtain ⟨hhead, hreserved⟩ := hcases _ hmem
    rw [safeName] at hhead hreserved
    split at hhead
    next => simp at hhead
    next hnot =>
      rw [if_neg hnot] at hreserved
      rcases hreserved with h | h | h
      · exact hnot h
      · exact hfree.1 h
      · exact hfree.2 h
  refine ⟨.keep t us, ?_, ?_, hus⟩
  · rw [className, if_pos (by rw [ht.isName_word, ht.2.1]; simpa [Lexeme.word] using hword)]
    rfl
  · rw [Parsed.keep, ht.2.1]
    exact unquote_safeName hname

theorem typeParameters_none (h : Forall₂ Token.Fits ts es) (hes : NotAt ['<'] es) :
    typeParameters ts = .ok (.keep none ts) := by
  rw [typeParameters, takeMark_of_notAt h hes (List.mem_singleton_self '<')]
  rfl

end Counterpart.Kotlin
