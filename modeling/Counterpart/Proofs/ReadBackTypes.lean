/-
A type is read back as it is rendered: a simple type that is rendered in a source is read as the same type, and all texts in it
are as they are rendered (`ofSource_fieldType`).
-/
import Counterpart.Proofs.RenderedTexts
import Counterpart.Proofs.ReadingSources

namespace Counterpart.Kotlin

open Text Lexer TypeSyntax
open List (Forall₂)

variable {ts us : List Token}

/-! ## Simple types -/

mutual

theorem functions_eq_nil (s : TypeSyntax) (h : s.value.Simple) : s.functions = [] := by
  cases s with
  | named annotations suspended path args close mark bound =>
    rw [value] at h
    obtain ⟨-, -, -, hargs⟩ := h
    exact argsFunctions_eq_nil args hargs
  | function annotations body nullable =>
    rw [value] at h
    cases h

theorem argsFunctions_eq_nil (args : List (ArgSyntax TypeSyntax))
    (h : ∀ variance ty, TypeArg.type variance ty ∈ argsValue args → ty.Simple) : argsFunctions args = [] := by
  match args with
  | [] => rfl
  | ⟨separator, words, .star⟩ :: args =>
    rw [argsValue] at h
    exact argsFunctions_eq_nil args fun variance ty hty => h variance ty (List.mem_cons_of_mem _ hty)
  | ⟨separator, words, .type variance ty⟩ :: args =>
    rw [argsValue] at h
    rw [argsFunctions, functions_eq_nil ty (h variance ty.value List.mem_cons_self),
      argsFunctions_eq_nil args fun variance ty hty => h variance ty (List.mem_cons_of_mem _ hty)]
    rfl

end

theorem TypeRef.mem_of_rewrittenArgs {args args' : List (TypeArg TypeRef)} (h : rewrittenArgs args = rewrittenArgs args')
    {variance : Variance} {ty : TypeRef} (hty : .type variance ty ∈ args) :
    ∃ ty', .type variance ty' ∈ args' ∧ ty.rewritten = ty'.rewritten := by
  induction args generalizing args' with
  | nil => cases hty
  | cons a as ih =>
    cases args' with
    | nil => cases h
    | cons a' as' =>
      rw [rewrittenArgs, rewrittenArgs, List.cons.injEq] at h
      rcases List.mem_cons.mp hty with rfl | hty
      · cases a' with
        | star => cases h.1
        | type variance' ty' =>
          obtain ⟨rfl, hrewritten⟩ := TypeArg.type.inj h.1
          exact ⟨ty', List.mem_cons_self, hrewritten⟩
      · obtain ⟨ty', hty', hrewritten⟩ := ih h.2 hty
        exact ⟨ty', List.mem_cons_of_mem a' hty', hrewritten⟩

/-- Whether a type is simple does not depend on its texts. -/
theorem TypeRef.Simple.of_rewritten {ty ty' : TypeRef} (h : ty.Simple) (hrewritten : ty'.rewritten = ty.rewritten) :
    ty'.Simple := by
  induction h generalizing ty' with
  | @named name args nullable text hname hargs ih =>
    cases ty' with
    | function => cases hrewritten
    | named name' args' nullable' text' =>
      rw [rewritten, rewritten, TypeRef.named.injEq] at hrewritten
      obtain ⟨rfl, hsame, -, -⟩ := hrewritten
      refine .named nullable' text' hname fun variance ty hty => ?_
      obtain ⟨ty', hty', hrewritten⟩ := mem_of_rewrittenArgs hsame hty
      exact ih variance ty' hty' hrewritten

/-- Whether the lexemes have no blanks in them. -/
def Solid (es : List Lexeme) : Prop := ∀ e ∈ es, ∀ c ∈ e.text.toList, isBlank c = false

theorem solid_append {es us : List Lexeme} : Solid (es ++ us) ↔ Solid es ∧ Solid us := List.forall_mem_append

theorem solid_cons {e : Lexeme} {es : List Lexeme} :
    Solid (e :: es) ↔ (∀ c ∈ e.text.toList, isBlank c = false) ∧ Solid es := List.forall_mem_cons

theorem solid_mark {c : Char} (hc : isBlank c = false) : Solid [.mark c] := by
  simp [Solid, Lexeme.mark, hc]

theorem solid_word {w : String} (h : Name.isPlain w) : Solid [.word w] :=
  List.forall_mem_singleton.mpr (not_blank_of_isPlain h)

theorem solid_path {segments : List String} (h : ∀ s ∈ segments, Name.isPlain s) : Solid (pathLexemes segments) := by
  cases segments with
  | nil => simp [Solid, pathLexemes]
  | cons s ss =>
    obtain ⟨hs, hss⟩ := List.forall_mem_cons.mp h
    have hdotted : Solid (dottedLexemes ss) := by
      rw [dottedLexemes, Solid, List.forall_mem_flatMap]
      exact fun u hu => solid_append.mpr ⟨solid_mark (by decide), solid_word (hss u hu)⟩
    exact solid_append.mpr ⟨solid_word hs, hdotted⟩

theorem solid_args {args : List (TypeArg TypeRef)}
    (h : ∀ variance ty, TypeArg.type variance ty ∈ args → Solid ty.lexemes) : Solid (TypeRef.argsLexemes args) := by
  have harg {a} (ha : a ∈ args) : Solid (TypeRef.argLexemes a) := by
    cases a with
    | star => exact solid_mark (by decide)
    | type variance ty =>
      refine solid_append.mpr ⟨?_, h variance ty ha⟩
      cases variance with
      | invariant => exact List.forall_mem_nil _
      | outward | inward => exact solid_word (by decide)
  clear h
  induction args with
  | nil => exact List.forall_mem_nil _
  | cons a as ih =>
    have has := ih fun ha => harg (List.mem_cons_of_mem a ha)
    cases as with
    | nil => exact harg List.mem_cons_self
    | cons b bs =>
      rw [TypeRef.argsLexemes]
      · exact solid_append.mpr ⟨harg List.mem_cons_self, solid_append.mpr ⟨solid_mark (by decide), has⟩⟩
      · exact List.cons_ne_nil b bs

theorem TypeRef.Simple.solid {ty : TypeRef} (h : ty.Simple) : Solid ty.lexemes := by
  induction h with
  | @named name args nullable text hname hargs ih =>
    rw [TypeRef.lexemes, solid_append, solid_append]
    refine ⟨⟨solid_path fun s hs => (hname s hs).1, ?_⟩, ?_⟩
    · split
      · exact List.forall_mem_nil _
      · exact solid_append.mpr ⟨solid_append.mpr ⟨solid_mark (by decide), solid_args ih⟩, solid_mark (by decide)⟩
    · split
      · exact solid_mark (by decide)
      · exact List.forall_mem_nil _

/-! ## A type in a class -/

/-- What stands before the type of the only field of a class. -/
def classLexemes : List Lexeme := [.word "class", .word "C", .mark '(', .word "val", .word "f", .mark ':']

theorem lexes_class {cs : List Char} {es : List Lexeme} (h : Lexes cs es) :
    Lexes ("class C(val f: ".toList ++ cs) (classLexemes ++ es) := by
  show Lexes ("class".toList ++ ' ' :: ("C".toList ++ '(' :: ("val".toList ++ ' ' :: ("f".toList ++ ':' :: ' ' :: cs)))) _
  exact .word_blank (by decide) (by decide) (.word (by decide) (notNameChar_cons (by decide) _) (.mark (by decide)
    (.word_blank (by decide) (by decide) (.word (by decide) (notNameChar_cons (by decide) _)
      (.mark (by decide) (.blank (by decide) h))))))

/-- The list of parameters of such a class. -/
theorem parameters_field {es : List Lexeme} {P : TypeRef → Prop} (hes : Reads typeRef es [.mark ')'] P)
    (h : Forall₂ Token.Fits ts ([.word "val", .word "f", .mark ':'] ++ (es ++ [.mark ')']))) :
    ∃ f p q, parameters ts = .ok q ∧ q.value = [f] ∧ q.rest = [] ∧ typeRef (ts.drop 3) = .ok p ∧ f.ty = p.value ∧ P p.value ∧
      Forall₂ Token.Fits p.rest [.mark ')'] := by
  have hmarks := parameterMarks_property false ⟨[], .pub⟩ h
  have hclose := takeMark_of_notAt h (notAt_word : NotAt [')'] _) List.mem_cons_self
  obtain ⟨val, ts₁, hval, h₁, rfl⟩ := List.forall₂_cons_right_iff.mp h
  obtain ⟨name, ts₂, hname, h₂, rfl⟩ := List.forall₂_cons_right_iff.mp h₁
  obtain ⟨colon, us, hcolon, hus, rfl⟩ := List.forall₂_cons_right_iff.mp h₂
  obtain ⟨p, hp, hP, hrest⟩ := hes us hus
  have hkeyword : takePropertyKeyword (val :: name :: colon :: us) = .taken (some false) val (name :: colon :: us) := by
    rw [takePropertyKeyword, if_pos (by simp [hval.isWord_word])]
  have hsimple : ∃ p, simpleName .parameter (takePropertyKeyword (val :: name :: colon :: us)).rest = .ok p ∧
      p.rest = colon :: us := by
    rw [hkeyword]
    exact ⟨_, if_pos hname.isName_word, rfl⟩
  obtain ⟨p₂, hp₂, hrest₂⟩ := hsimple
  have hexpect : ∃ p, expectMark .parameterType p₂.rest = .ok p ∧ p.rest = us := by
    rw [hrest₂]
    exact ⟨_, if_pos (by simp [hcolon.isMark_mark, MarkRole.mark]), rfl⟩
  obtain ⟨p₃, hp₃, hrest₃⟩ := hexpect
  have hty : ∃ q, typeRef p₃.rest = .ok q ∧ q.value = p.value ∧ q.rest = p.rest := by
    rw [hrest₃]
    exact ⟨p, hp, rfl, rfl⟩
  obtain ⟨p₄, hp₄, hvalue₄, hrest₄⟩ := hty
  have hdefault : (takeMark '=' p₄.rest).value = false := by
    rw [hrest₄, takeMark_of_notAt hrest (notAt_mark (by decide) : NotAt ['='] _) List.mem_cons_self]
    rfl
  obtain ⟨q, hq, -, hqty, -, hqrest⟩ := parameter_ok hmarks hp₂ hp₃ hp₄ hdefault
  have hqrest : q.rest = p.rest := hqrest.trans hrest₄
  have hcomma : takeMark ',' q.rest = .keep false q.rest := by
    rw [hqrest]
    exact takeMark_of_notAt hrest (notAt_mark (by decide) : NotAt [','] _) List.mem_cons_self
  have hend : ∃ p, expectMark .parametersEnd q.rest = .ok p ∧ p.rest = [] := by
    rw [hqrest]
    obtain ⟨close, _, hclose, hnil, hclosing⟩ := List.forall₂_cons_right_iff.mp hrest
    cases hnil
    rw [hclosing]
    exact ⟨_, if_pos (by simp [hclose.isMark_mark, MarkRole.mark]), rfl⟩
  obtain ⟨p₅, hp₅, hrest₅⟩ := hend
  obtain ⟨r, hr, hrvalue, hrrest⟩ := parameters_last hclose hq hcomma hp₅
  exact ⟨q.value, p, r, hr, hrvalue, hrrest.trans hrest₅, hp, hqty.trans hvalue₄, hP, hrest⟩

/-- A class whose only member is a property in its constructor. -/
theorem ofTokens_field {es : List Lexeme} {P : TypeRef → Prop} (hes : Reads typeRef es [.mark ')'] P)
    (h : Forall₂ Token.Fits ts (classLexemes ++ (es ++ [.mark ')']))) :
    ∃ u c f p, SourceUnit.ofTokens ts = .ok u ∧ u.classes = [c] ∧ c.nested = [] ∧ c.fields = [f] ∧
      typeRef (ts.drop 6) = .ok p ∧ f.ty = p.value ∧ P p.value ∧ Forall₂ Token.Fits p.rest [.mark ')'] := by
  have hclass : ∀ w ≠ "class", ∀ e ∈ (classLexemes ++ (es ++ [Lexeme.mark ')'])).head?, e.text ≠ w := by
    intro w hw e he
    cases Option.some.inj he
    exact hw.symm
  have hskip := skipAnnotations_of_notAt h (notAt_word : NotAt ['@'] _) List.mem_cons_self
  have hpackage := packageDirective_none (takeWord_of_text_ne h (hclass "package" (by decide)))
  have himports := importDirectives_end (takeWord_of_text_ne h (hclass "import" (by decide)))
  obtain ⟨keyword, ts₁, hkeyword, h₁, rfl⟩ := List.forall₂_cons_right_iff.mp h
  obtain ⟨name, ts₂, hname, h₂, rfl⟩ := List.forall₂_cons_right_iff.mp h₁
  obtain ⟨paren, ts₃, hparen, h₃, rfl⟩ := List.forall₂_cons_right_iff.mp h₂
  obtain ⟨f, p, p₃, hp₃, hfields, hnil, hp, hty, hP, hrest⟩ := parameters_field hes h₃
  have hconstructor : ∃ q, primaryConstructor (paren :: ts₃) = .ok q ∧ q.value = [f] ∧ q.rest = [] := by
    have hwords := skipConstructorWords_of_notAt h₂ (notAt_mark (by decide)) (by
      rintro _ ⟨⟩ hname
      simp [hparen.isName_mark] at hname)
    have hopen : takeMark '(' (paren :: ts₃) = .taken true paren ts₃ := by
      rw [takeMark, if_pos (by simp [hparen.isMark_mark])]
    obtain ⟨q, hq, hvalue, hrest⟩ := primaryConstructor_some hwords hopen hp₃
    exact ⟨q, hq, hvalue.trans hfields, hrest.trans hnil⟩
  obtain ⟨p₂, hp₂, hvalue₂, hrest₂⟩ := hconstructor
  have hkind : ClassKind.ofKeyword? [] keyword = some .plain := by
    rw [ClassKind.ofKeyword?, if_pos (by simp [hkeyword.isWord_word])]
    rfl
  have hclassName : className .plain keyword (name :: paren :: ts₃) = .ok (some (.keep name (paren :: ts₃))) := by
    rw [className, if_pos (by rw [hname.isName_word, hname.2.1]; decide)]
    rfl
  have htypeParams := typeParameters_none h₂ (notAt_mark (by decide))
  have hend₂ : Forall₂ Token.Fits p₂.rest [] := hrest₂ ▸ .nil
  have hsupertypes : skipSupertypes p₂.rest = .ok (.keep () p₂.rest) :=
    skipSupertypes_of_followsHeader hend₂ (by simp [FollowsHeader])
  have hbody : classBody .plain (Name.unquote name.text) p₂.rest = .ok (.keep ([], []) p₂.rest) :=
    classBody_none hend₂ (by simp [NotAt])
  obtain ⟨q, hq, hvalue, hqrest⟩ :=
    classTree_ok (modifiers_class hkeyword _) rfl hkind hclassName htypeParams hp₂ hsupertypes hbody
  have hend : members q.rest = .ok (.keep [] q.rest) :=
    members_end (show Forall₂ Token.Fits q.rest [] from hqrest ▸ hend₂) (.inl rfl)
  obtain ⟨r, hr, hrvalue, hrrest⟩ := members_class hkeyword hq hend
  have hnone : r.rest = [] := hrrest.trans (hqrest.trans hrest₂)
  refine ⟨_, q.value, f, p, ofTokens_ok hskip hpackage himports hr hnone, hrvalue, ?_, ?_, hp, hty, hP, hrest⟩
  · rw [hvalue]
    rfl
  · rw [hvalue]
    exact hvalue₂

theorem lexemes_of_fits (h : Forall₂ Token.Fits ts (us.map Token.lexeme)) : ts.map Token.lexeme = us.map Token.lexeme := by
  induction us generalizing ts with
  | nil =>
    cases h
    rfl
  | cons u us ih =>
    obtain ⟨t, ts, ht, hts, rfl⟩ := List.forall₂_cons_right_iff.mp h
    have hlexeme : t.lexeme = u.lexeme := by rw [Token.lexeme, Token.lexeme, ht.1, ht.2.1, ht.2.2 u.gap rfl]; rfl
    rw [List.map_cons, List.map_cons, hlexeme, ih hts]

/-- Tokens that are those of a text but for the gap before the first one. -/
theorem asRendered_of_fits {written : List Token} (h : Forall₂ Token.Fits ts (lexemesOf us))
    (hus : us.map Token.lexeme = written.map Token.lexeme) (hgap : ∀ t ∈ written.head?, t.gap = "")
    (hplain : ∀ t ∈ ts, ∀ c ∈ t.text.toList, isBlank c = false) : AsRendered (behind "" ts) written := by
  cases us with
  | nil =>
    cases h
    exact ⟨hus, hplain⟩
  | cons u us =>
    obtain ⟨t, ts, ht, hts, rfl⟩ := List.forall₂_cons_right_iff.mp h
    cases written with
    | nil => cases hus
    | cons v vs =>
      obtain ⟨hhead, htail⟩ := List.cons.inj hus
      obtain ⟨hkind, htext, -⟩ := Lexeme.mk.inj hhead
      refine ⟨?_, fun w hw => ?_⟩
      · simp only [behind, List.map_cons, lexemes_of_fits hts, htail, Token.lexeme, ht.1, ht.2.1, Token.bare, hkind, htext,
          hgap v rfl]
      · rcases List.mem_cons.mp hw with rfl | hw
        · exact hplain t List.mem_cons_self
        · exact hplain w (List.mem_cons_of_mem t hw)

theorem plain_of_fits {es : List Lexeme} (h : Forall₂ Token.Fits ts es) (hes : Solid es) :
    ∀ t ∈ ts, ∀ c ∈ t.text.toList, isBlank c = false := by
  induction h with
  | nil => exact List.forall_mem_nil _
  | cons ht _ ih =>
    obtain ⟨he, hes⟩ := solid_cons.mp hes
    exact List.forall_mem_cons.mpr ⟨ht.2.1 ▸ he, ih hes⟩

/-- **Reading** a class whose only property has a simple type as it is rendered gives that type, with all texts in it as they are
rendered. -/
theorem ofSource_fieldType {ty : TypeRef} (hty : ty.Simple) :
    ∃ u c f, SourceUnit.ofSource ("class C(val f: " ++ ty.render ++ ")") = .ok u ∧ u.classes = [c] ∧ c.nested = [] ∧
      c.fields = [f] ∧ f.ty = ty.rewritten := by
  have hsource : ("class C(val f: " ++ ty.render ++ ")").toList = "class C(val f: ".toList ++ (ty.render.toList ++ [')']) := by
    simp [String.toList_append]
  have hclosing : Lexes [')'] [.mark ')'] := .mark (by decide) .nil
  have hlexes := lexes_class (.type hty (notNameChar_cons (by decide) []) hclosing)
  rw [← hsource] at hlexes
  obtain ⟨stream, hstream, hfits⟩ := ofSource_reads hlexes notAt_word
  obtain ⟨u, c, f, p, hu, hclasses, hnested, hfields, hp, hfty, hrewritten, hrest⟩ :=
    ofTokens_field (typeRef_reads hty ⟨[], .inr (.inr rfl)⟩) hfits
  refine ⟨u, c, f, ?_, hclasses, hnested, hfields, hfty.trans ?_⟩
  · rw [SourceUnit.ofSource]
    simp only [hstream, bind, Except.bind, hu]
    rfl
  obtain ⟨s, hsplit, hvalue, hwf, -⟩ := typeRef_syntax _ hp
  have hconsecutive : Consecutive (s.tokens ++ p.rest) :=
    .of_source hstream (show _ = stream.tokens.take 6 ++ _ by rw [← hsplit, List.take_append_drop])
  rw [← hvalue] at hrewritten ⊢
  have hnamed := functions_eq_nil s (hty.of_rewritten hrewritten)
  -- The tokens of the rendered type, which have their places in the source as well.
  obtain ⟨us, hus, hlexemes⟩ := tokens_render_inline hwf hconsecutive.left (by simp [hnamed])
  rw [writtenOut_written "" s hwf hconsecutive.left, String.empty_append, TypeRef.render_eq hrewritten] at hus
  have hlexes' := lexes_class (Lexes.text hus .nil (by simp [Separates]; decide) hclosing)
  rw [← hsource] at hlexes'
  obtain ⟨stream', hstream', hfits'⟩ := ofSource_reads hlexes' notAt_word
  cases Except.ok.inj (hstream'.symm.trans hstream)
  have hplace : Forall₂ Token.Fits (s.tokens ++ p.rest) (lexemesOf us ++ [.mark ')']) := hsplit ▸ List.forall₂_drop 6 hfits'
  have hplace' : Forall₂ Token.Fits (s.tokens ++ p.rest) (ty.lexemes ++ [.mark ')']) := hsplit ▸ List.forall₂_drop 6 hfits
  have htokens : Forall₂ Token.Fits s.tokens (lexemesOf us) := by
    have hlength := hplace.length_eq
    have := hrest.length_eq
    rw [List.length_append, List.length_append, this, Nat.add_right_cancel_iff] at hlength
    have := List.forall₂_take_append _ _ _ hplace
    rwa [← hlength, List.take_left] at this
  have hplain : ∀ t ∈ s.tokens, ∀ c ∈ t.text.toList, isBlank c = false := fun t ht =>
    plain_of_fits hplace' (solid_append.mpr ⟨hty.solid, solid_mark (by decide)⟩) t (List.mem_append_left _ ht)
  have hrendered := asRendered_of_fits htokens hlexemes (head?_written hwf) hplain
  rw [← hrewritten, value_rewritten s hwf hconsecutive.left hrendered hnamed]

/-- A type with keywords for names, next to the keywords themselves. -/
def keywordType : TypeRef :=
  .named "kotlin.Map" [.type .inward (.named "in" [] false ""), .type .outward (.named "a.out" [.star, .type .invariant
    (.named "List" [.type .invariant (.named "out" [] true "")] true "")] false "")] true ""

theorem ofSource_fieldType_keywordType : keywordType.Simple ∧ keywordType.render = "kotlin.Map<in in, out a.out<*, List<out?>?>>?" ∧
    ∃ u c f, SourceUnit.ofSource ("class C(val f: " ++ keywordType.render ++ ")") = .ok u ∧ u.classes = [c] ∧ c.nested = [] ∧
      c.fields = [f] ∧ f.ty = keywordType.rewritten := by
  have hin : (TypeRef.named "in" [] false "").Simple := .named _ _ (by decide) (by simp)
  have hout : (TypeRef.named "out" [] true "").Simple := .named _ _ (by decide) (by simp)
  have hlist : (TypeRef.named "List" [.type .invariant (.named "out" [] true "")] true "").Simple :=
    .named _ _ (by decide) (by simp [hout])
  have hlast : (TypeRef.named "a.out" [.star, .type .invariant (.named "List" [.type .invariant (.named "out" [] true "")] true "")]
      false "").Simple := .named _ _ (by decide) (by simp [hlist])
  have hsimple : keywordType.Simple := .named _ _ (by decide) (by
    intro variance ty hty
    simp only [List.mem_cons, TypeArg.type.injEq, List.not_mem_nil, or_false] at hty
    obtain ⟨-, rfl⟩ | ⟨-, rfl⟩ := hty
    · exact hin
    · exact hlast)
  exact ⟨hsimple, by decide +kernel, ofSource_fieldType hsimple⟩

end Counterpart.Kotlin
