/-
Code inside a string. A template `${ }` in a literal has tokens of its own, which the lexer passes over without cutting them:
it follows braces and literals, and nothing else. So a text that is cut into tokens is passed over in a template
(`literalLength_tokens`), provided that its comments and its names in quotes have nothing in them that a template would follow.
-/
import Counterpart.Proofs.Lossless
import Counterpart.Proofs.Nesting

namespace Counterpart.Kotlin

open Text

namespace Lexer

open List (Forall₂)

/-! ## Open parts below -/

/-- Parts that are open below a literal are closed by what stands behind it. -/
theorem literalLength_below {ps ps' below : List OpenPart} {pos : Nat} {cs : List Char} {n k : Nat}
    (hps : Forall₂ OpenPart.Alike ps ps') (h : literalLength ps pos cs = .ok n)
    (hbelow : ∀ pos, literalLength below pos (cs.drop n) = .ok k) (pos' : Nat) :
    literalLength (ps' ++ below) pos' cs = .ok (k + n) := by
  fun_induction literalLength ps pos cs generalizing ps' pos' n
  case case1 =>
    cases hps
    cases h
    exact hbelow pos'
  case case2 | case3 | case5 | case9 | case14 | case22 | case23 | case25 => cases h
  all_goals
    obtain ⟨m, hm, rfl⟩ := exists_of_map_ok h
    obtain ⟨part, up', hpart, hup, rfl⟩ := List.forall₂_cons_left_iff.mp hps
    cases hpart
    simp only [List.drop_succ_cons] at hbelow
  case case4.string ih _ | case24.character ih _ | case16.template ih _ | case11.rawString ih _ =>
    rw [List.cons_append, literalLength, ih hup hm hbelow]
    · rfl
    all_goals assumption
  case case6.string ih _ | case8.string ih _ =>
    rw [List.cons_append, literalLength, ← List.cons_append, ih (.cons (.string _ _) hup) hm hbelow]
    · rfl
    all_goals assumption
  case case7.string ih _ =>
    rw [List.cons_append, literalLength, ← List.cons_append, ← List.cons_append,
      ih (.cons (.template _ _ _) (.cons (.string _ _) hup)) hm hbelow]
    rfl
  case case10.rawString ih _ | case13.rawString ih _ =>
    rw [List.cons_append, literalLength, ← List.cons_append, ih (.cons (.rawString _ _) hup) hm hbelow]
    · rfl
    all_goals assumption
  case case12.rawString ih _ =>
    rw [List.cons_append, literalLength, ← List.cons_append, ← List.cons_append,
      ih (.cons (.template _ _ _) (.cons (.rawString _ _) hup)) hm hbelow]
    rfl
  case case15.template ih _ | case17.template ih _ | case21.template ih _ =>
    rw [List.cons_append, literalLength, ← List.cons_append, ih (.cons (.template _ _ _) hup) hm hbelow]
    · rfl
    all_goals assumption
  case case18.template ih _ =>
    rw [List.cons_append, literalLength, ← List.cons_append, ← List.cons_append,
      ih (.cons (.rawString _ _) (.cons (.template _ _ _) hup)) hm hbelow]
    rfl
  case case19.template ih _ =>
    rw [List.cons_append, literalLength, ← List.cons_append, ← List.cons_append,
      ih (.cons (.string _ _) (.cons (.template _ _ _) hup)) hm hbelow]
    · rfl
    all_goals assumption
  case case20.template ih _ =>
    rw [List.cons_append, literalLength, ← List.cons_append, ← List.cons_append,
      ih (.cons (.character _ _) (.cons (.template _ _ _) hup)) hm hbelow]
    rfl
  case case26.character ih _ | case27.character ih _ =>
    rw [List.cons_append, literalLength, ← List.cons_append, ih (.cons (.character _ _) hup) hm hbelow]
    · rfl
    all_goals assumption

/-! ## Text that a template does not follow -/

/-- The characters that a template follows. -/
def templateMarks : List Char := ['\x7b', '\x7d', '"', '\'']

/-- Text without quotes whose braces are properly nested. -/
inductive Inert : List Char → Prop
  | nil : Inert []
  | char {c : Char} {cs : List Char} (hc : c ∉ templateMarks) (h : Inert cs) : Inert (c :: cs)
  | braces {body cs : List Char} (hbody : Inert body) (h : Inert cs) : Inert ('\x7b' :: (body ++ '\x7d' :: cs))

theorem Inert.of_forall {cs : List Char} (h : ∀ c ∈ cs, c ∉ templateMarks) : Inert cs := by
  induction cs with
  | nil => exact .nil
  | cons c cs ih =>
    obtain ⟨hc, hcs⟩ := List.forall_mem_cons.mp h
    exact .char hc (ih hcs)

theorem Inert.of_all {cs : List Char} (h : cs.all (fun c => !templateMarks.contains c) = true) : Inert cs :=
  .of_forall (by simpa using h)

theorem not_templateMark_of_isNameChar {c : Char} (h : isNameChar c ∨ c = '.') : c ∉ templateMarks := by
  have hmarks : templateMarks.all (fun d => !(isNameChar d || d == '.')) = true := by decide
  intro hc
  have hmark := List.all_eq_true.mp hmarks c hc
  simp only [Bool.not_eq_true', Bool.or_eq_false_iff, beq_eq_false_iff_ne] at hmark
  obtain h | h := h
  · simp [h] at hmark
  · exact hmark.2 h

section
variable {below : List OpenPart} {opened inner : Nat} {cs rest : List Char} {n : Nat}

/-- Inert text leaves a template as deep as it was. -/
theorem literalLength_inert (h : Inert cs)
    (hrest : ∀ pos, literalLength (.template opened inner :: below) pos rest = .ok n) (pos : Nat) :
    literalLength (.template opened inner :: below) pos (cs ++ rest) = .ok (n + cs.length) := by
  induction h generalizing inner rest n pos with
  | nil => exact hrest pos
  | char hc _ ih =>
    rw [List.cons_append, literalLength_template_char hc, ih hrest]
    rfl
  | @braces body cs _ _ ihbody ih =>
    have hclose : ∀ pos, literalLength (.template opened (inner + 1) :: below) pos ('\x7d' :: (cs ++ rest)) =
        .ok (n + cs.length + 1) := by
      intro pos
      rw [literalLength, ih hrest]
      rfl
    rw [List.cons_append, List.append_assoc, List.cons_append, literalLength, ihbody hclose]
    simp only [Functor.map, Except.map, List.length_cons, List.length_append]
    exact congrArg Except.ok (by omega)

/-- A literal leaves a template as deep as it was. -/
theorem literalLength_literal {pos : Nat} {c : Char} {kind : TokenKind} {m : Nat} (h : lexeme pos c cs = .ok (kind, m))
    (hc : c = '"' ∨ c = '\'') (hquote : ∀ d ∈ rest.head?, d ≠ '"')
    (hrest : ∀ pos, literalLength (.template opened inner :: below) pos (cs.drop m ++ rest) = .ok n) (pos' : Nat) :
    literalLength (.template opened inner :: below) pos' (c :: (cs ++ rest)) = .ok (n + (m + 1)) := by
  have passed {part part' : OpenPart} {pos m : Nat} {ds : List Char} (hpart : part.Alike part')
      (h : literalLength [part] pos ds = .ok m)
      (hds : ∀ pos, literalLength (.template opened inner :: below) pos (ds.drop m ++ rest) = .ok n) (pos' : Nat) :
      literalLength (part' :: .template opened inner :: below) pos' (ds ++ rest) = .ok (n + m) := by
    have happend := literalLength_append (.cons hpart .nil) h hquote pos'
    have hdrop : (ds ++ rest).drop m = ds.drop m ++ rest := List.drop_append_of_le_length (literalLength_le h)
    have hparts : Forall₂ OpenPart.Alike [part'] [part'] := by
      cases hpart <;> exact .cons (by constructor) .nil
    exact literalLength_below hparts happend (by rwa [hdrop]) pos'
  rw [lexeme.eq_def] at h
  rcases hc with rfl | rfl
  · rw [if_pos (by rfl)] at h
    split at h
    next ds =>
      obtain ⟨k, hk, he⟩ := exists_of_map_ok h
      obtain ⟨-, rfl⟩ := Prod.mk.inj he
      simp only [List.cons_append]
      rw [literalLength, passed (.rawString _ _) hk hrest]
      rfl
    next hraw =>
      obtain ⟨k, hk, he⟩ := exists_of_map_ok h
      obtain ⟨-, rfl⟩ := Prod.mk.inj he
      rw [literalLength, passed (.string _ _) hk hrest]
      · rfl
      · intro ds hds
        cases cs with
        | nil => cases hk
        | cons d es =>
          cases es with
          | nil =>
            cases hds
            exact hquote '"' rfl rfl
          | cons e es =>
            cases hds
            exact hraw es rfl
  · rw [if_neg (by decide), if_pos (by rfl)] at h
    obtain ⟨k, hk, he⟩ := exists_of_map_ok h
    obtain ⟨-, rfl⟩ := Prod.mk.inj he
    rw [literalLength, passed (.character _ _) hk hrest]
    rfl

end

end Lexer

/-! ## Tokens in a template -/

/-- Whether the token opens or closes a block. -/
def Token.isBrace (t : Token) : Bool := t.isMark '\x7b' || t.isMark '\x7d'

namespace Lexer

/-- A token is a brace, or a template passes over it: it is a literal or inert. -/
theorem lexeme_passed {pos : Nat} {c : Char} {cs : List Char} {kind : TokenKind} {m : Nat}
    (h : lexeme pos c cs = .ok (kind, m)) (hname : kind = .name → Inert (c :: cs.take m)) :
    (kind = .mark c ∧ m = 0 ∧ (c = '\x7b' ∨ c = '\x7d')) ∨
      (∀ d ∈ ['\x7b', '\x7d'], kind ≠ .mark d) ∧ ((c = '"' ∨ c = '\'') ∨ Inert (c :: cs.take m)) := by
  rw [lexeme.eq_def] at h
  split at h
  next hc =>
    refine .inr ⟨?_, .inl (.inl (beq_iff_eq.mp hc))⟩
    split at h
    all_goals
      obtain ⟨k, -, he⟩ := exists_of_map_ok h
      cases he
      simp
  next hstring =>
  split at h
  next hc =>
    refine .inr ⟨?_, .inl (.inr (beq_iff_eq.mp hc))⟩
    obtain ⟨k, -, he⟩ := exists_of_map_ok h
    cases he
    simp
  next hcharacter =>
  split at h
  next =>
    obtain ⟨k, -, he⟩ := exists_of_map_ok h
    cases he
    exact .inr ⟨by simp, .inr (hname rfl)⟩
  split at h
  next hdigit =>
    cases h
    refine .inr ⟨by simp, .inr (.of_forall (List.forall_mem_cons.mpr ⟨not_templateMark_of_isNameChar (.inl ?_), ?_⟩))⟩
    · simp [isNameChar, isLetterOrNumeric, isNumeric, hdigit]
    · exact fun d hd => not_templateMark_of_isNameChar (mem_take_numberLength cs d hd)
  split at h
  next =>
    cases h
    exact .inr ⟨by simp, .inr (hname rfl)⟩
  split at h
  next harrow =>
    cases h
    rw [Bool.and_eq_true, beq_iff_eq, beq_iff_eq] at harrow
    obtain ⟨rfl, hhead⟩ := harrow
    obtain ⟨es, rfl⟩ := List.head?_eq_some_iff.mp hhead
    exact .inr ⟨by simp, .inr (.of_all (by rw [List.take_succ_cons, List.take_zero]; decide))⟩
  next =>
    cases h
    by_cases hbrace : c = '\x7b' ∨ c = '\x7d'
    · exact .inl ⟨rfl, rfl, hbrace⟩
    · rw [not_or] at hbrace
      refine .inr ⟨by simpa using hbrace, .inr (.char ?_ .nil)⟩
      simpa [templateMarks, hbrace] using ⟨by simpa using hstring, by simpa using hcharacter⟩

variable {state : GapState} {below : List OpenPart} {opened n : Nat} {cs rest : List Char} {ts : List Token} {tail : String}

/-- A template passes over a token, one level deeper behind an opening brace and one level up behind a closing one. -/
theorem literalLength_token (opened : Nat) (below : List OpenPart) {pos : Nat} {c : Char} {m : Nat} {t : Token} {closers : List Char}
    (h : lexeme pos c cs = .ok (t.kind, m)) (hname : t.kind = .name → Inert (c :: cs.take m))
    (hquote : ∀ d ∈ rest.head?, d ≠ '"') (hcloses : Closes false closers ((t :: ts).filter Token.isBrace)) :
    ∃ closers', Closes false closers' (ts.filter Token.isBrace) ∧ ∀ n,
      (∀ pos, literalLength (.template opened closers'.length :: below) pos (cs.drop m ++ rest) = .ok n) →
        ∀ pos, literalLength (.template opened closers.length :: below) pos (c :: (cs ++ rest)) = .ok (n + (m + 1)) := by
  obtain ⟨hkind, rfl, hc⟩ | ⟨hkind, hpassed⟩ := lexeme_passed h hname
  · rw [List.filter_cons_of_pos (by obtain rfl | rfl := hc <;> simp [Token.isBrace, Token.isMark, hkind])] at hcloses
    rw [List.drop_zero]
    cases hcloses with
    | plain ht => obtain rfl | rfl := hc <;> simp [Token.isBracket, Token.closer?, Token.closing?, hkind] at ht
    | @opens _ d _ _ ht hcloses =>
      obtain rfl | rfl := hc <;> simp [Token.closer?, hkind] at ht
      refine ⟨d :: closers, hcloses, fun n hn pos => ?_⟩
      rw [literalLength, ← List.length_cons (a := d), hn]
      rfl
    | @closes _ d closers _ ht hcloses =>
      obtain rfl | rfl := hc <;> simp [Token.closing?, hkind] at ht
      refine ⟨closers, hcloses, fun n hn pos => ?_⟩
      rw [List.length_cons, literalLength, hn]
      rfl
    | surplus hsurplus => cases hsurplus
  · rw [List.filter_cons_of_neg (by simpa [Token.isBrace, Token.isMark] using hkind)] at hcloses
    refine ⟨closers, hcloses, fun n hn pos => ?_⟩
    obtain hc | hinert := hpassed
    · exact literalLength_literal h hc hquote hn pos
    · have hm : m ≤ cs.length := (lexeme_append h (show Separates [] by simp [Separates]) 0).2
      have := literalLength_inert hinert hn pos
      rwa [List.cons_append, ← List.append_assoc, List.take_append_drop, List.length_cons, List.length_take_of_le hm] at this

/-- **The tokens of a text** are passed over in a template when the braces among them close those that are open, and what stands
between them is inert, as their names are. -/
theorem literalLength_tokens {pos : Nat} {closers : List Char} (h : tokens state pos cs = .ok (ts, tail))
    (hgaps : ∀ t ∈ ts, Inert t.gap.toList) (hnames : ∀ t ∈ ts, t.kind = .name → Inert t.text.toList)
    (htail : Inert tail.toList) (hcloses : Closes false closers (ts.filter Token.isBrace))
    (hquote : ∀ d ∈ rest.head?, d ≠ '"')
    (hrest : ∀ pos, literalLength (.template opened 0 :: below) pos rest = .ok n) (pos' : Nat) :
    literalLength (.template opened closers.length :: below) pos' (cs ++ rest) = .ok (n + cs.length) := by
  induction ts generalizing state pos cs closers pos' with
  | nil =>
    obtain ⟨-, -, -, rfl⟩ := tokens_nil_ok h
    cases hcloses
    rw [String.toList_ofList] at htail
    exact literalLength_inert htail hrest pos'
  | cons t ts ih =>
    obtain ⟨k, c, more, kind, m, -, hdrop, hlexeme, htokens, rfl⟩ := tokens_cons_ok h
    obtain ⟨hgap, hgaps⟩ := List.forall_mem_cons.mp hgaps
    obtain ⟨hname, hnames⟩ := List.forall_mem_cons.mp hnames
    rw [String.toList_ofList] at hgap hname
    obtain ⟨closers', hcloses', hstep⟩ := literalLength_token opened below hlexeme hname hquote hcloses
    have htoken := hstep _ (ih htokens hgaps hnames hcloses')
    have hcs : cs = cs.take k ++ c :: more := by rw [← hdrop, List.take_append_drop]
    have hlength : n + (more.drop m).length + (m + 1) + (cs.take k).length = n + cs.length := by
      have := (lexeme_append hlexeme (show Separates [] by simp [Separates]) 0).2
      have := length_of_drop_eq_cons hdrop
      rw [List.length_drop, List.length_take_of_le (by omega)]
      omega
    rw [← hlength]
    conv_lhs => rw [hcs, List.append_assoc, List.cons_append]
    exact literalLength_inert hgap htoken pos'

end Lexer

/-! ## Literals with a template -/

namespace TokenStream

/-- What the lexer takes as it stands, the text between the tokens and the names, is inert. -/
structure HidesNothing (s : TokenStream) : Prop where
  gaps : ∀ t ∈ s.tokens, Lexer.Inert t.gap.toList
  names : ∀ t ∈ s.tokens, t.kind = .name → Lexer.Inert t.text.toList
  tail : Lexer.Inert s.tail.toList

/-- A source that is one string. -/
def ofString (source : String) : TokenStream := ⟨[⟨.string, source, "", 0⟩], "", source.utf8ByteSize⟩

/-- Code as the template of a literal with these quotes. -/
def inTemplate (quotes code : String) : String := quotes ++ "$\x7b" ++ code ++ "\x7d" ++ quotes

theorem ofSource_string {source : String} {cs : List Char} (hsource : source.toList = '"' :: cs)
    (h : Lexer.lexeme 0 '"' cs = .ok (.string, cs.length)) : ofSource source = .ok (ofString source) := by
  have hstart : Lexer.GapState.between = if ['#', '!'].isPrefixOf source.toList then .lineComment else .between := by
    rw [hsource]
    rfl
  have hgap := Lexer.gapLength_between_start (show '"' ≠ '/' by decide) (by decide) 0 cs
  have hend (pos : Nat) : Lexer.tokens .between pos (cs.drop cs.length) = .ok ([], "") := by
    rw [List.drop_length]
    exact Lexer.tokens_eq_nil (n := 0) rfl rfl
  have hread := Lexer.tokens_eq_cons hgap List.drop_zero h (hend _)
  rw [List.take_length, ← hsource, String.ofList_toList] at hread
  exact ofSource_eq hstart hread

/-- **Code that is cut into tokens** with nested braces can stand in the template of a string, one with a quote at its ends or
with three, which is a single token then; provided that nothing is hidden in its comments and names. -/
theorem ofSource_inTemplate {code : String} {s : TokenStream} (hs : ofSource code = .ok s)
    (hbraces : Nested (s.tokens.filter Token.isBrace)) (h : s.HidesNothing) :
    ∀ quotes ∈ ["\"", "\"\"\""], ofSource (inTemplate quotes code) = .ok (ofString (inTemplate quotes code)) := by
  obtain ⟨htokens, -⟩ := ofSource_ok hs
  have passed {below : List Lexer.OpenPart} {opened n : Nat} {rest : List Char} (hrest : ∀ pos,
      Lexer.literalLength (.template opened 0 :: below) pos ('\x7d' :: rest) = .ok n) (pos : Nat) :
      Lexer.literalLength (.template opened 0 :: below) pos (code.toList ++ '\x7d' :: rest) = .ok (n + code.toList.length) :=
    Lexer.literalLength_tokens htokens h.gaps h.names h.tail hbraces.closes (by simp) hrest pos
  simp only [List.forall_mem_cons, List.not_mem_nil, false_implies, implies_true, and_true]
  constructor
  · have hsource : (inTemplate "\"" code).toList = '"' :: '$' :: '\x7b' :: (code.toList ++ ['\x7d', '"']) := by
      simp [inTemplate]
    refine ofSource_string hsource ?_
    rw [Lexer.lexeme.eq_def, if_pos (by rfl), Lexer.literalLength, passed fun pos => rfl]
    simp only [Functor.map, Except.map, List.length_cons, List.length_append, List.length_nil]
    exact congrArg (fun k => Except.ok (TokenKind.string, k)) (by omega)
  · have hsource : (inTemplate "\"\"\"" code).toList =
        '"' :: '"' :: '"' :: '$' :: '\x7b' :: (code.toList ++ ['\x7d', '"', '"', '"']) := by
      simp [inTemplate]
    refine ofSource_string hsource ?_
    rw [Lexer.lexeme.eq_def, if_pos (by rfl)]
    show (fun k => (TokenKind.string, k + 2)) <$> Lexer.literalLength [.rawString 0] 3 _ = _
    rw [Lexer.literalLength, passed fun pos => rfl]
    simp only [Functor.map, Except.map, List.length_cons, List.length_append, List.length_nil]
    exact congrArg (fun k => Except.ok (TokenKind.string, k)) (by omega)

/-- Code with a literal in it, a block, a name in quotes and braces in a comment. -/
def blockCode : String := "f(/*\x7b\x7d*/ `a b`) \x7b '\x7d' + \"$\x7bx\x7d\" \x7d"

theorem ofSource_inTemplate_blockCode : ∃ s, ofSource blockCode = .ok s ∧ Nested (s.tokens.filter Token.isBrace) ∧
    s.HidesNothing ∧
    ∀ quotes ∈ ["\"", "\"\"\""], ofSource (inTemplate quotes blockCode) = .ok (ofString (inTemplate quotes blockCode)) := by
  have hs : (ofSource blockCode).toOption = some ⟨[⟨.name, "f", "", 0⟩, ⟨.mark '(', "(", "", 1⟩,
      ⟨.name, "`a b`", "/*\x7b\x7d*/ ", 9⟩, ⟨.mark ')', ")", "", 14⟩, ⟨.mark '\x7b', "\x7b", " ", 16⟩,
      ⟨.character, "'\x7d'", " ", 18⟩, ⟨.mark '+', "+", " ", 22⟩, ⟨.string, "\"$\x7bx\x7d\"", " ", 24⟩,
      ⟨.mark '\x7d', "\x7d", " ", 31⟩], "", 32⟩ := by decide +kernel
  have hs := ok_of_toOption hs
  generalize hstream : TokenStream.mk _ _ _ = s at hs
  have hbraces : Nested (s.tokens.filter Token.isBrace) := by
    subst hstream
    exact .group (c := '\x7d') rfl Nested.nil rfl Nested.nil
  have hinert : s.HidesNothing := by
    subst hstream
    have plain : ∀ {text : String}, text.toList.all (fun c => !Lexer.templateMarks.contains c) = true → Lexer.Inert text.toList :=
      .of_all
    have hcomment : Lexer.Inert "/*\x7b\x7d*/ ".toList :=
      .char (by decide) (.char (by decide) (.braces .nil (.of_all (by decide))))
    refine ⟨?_, ?_, .nil⟩
    · simp only [List.forall_mem_cons]
      exact ⟨.nil, .nil, hcomment, .nil, plain (by decide), plain (by decide), plain (by decide), plain (by decide),
        plain (by decide), List.forall_mem_nil _⟩
    · simp only [List.forall_mem_cons, reduceCtorEq, false_implies, true_implies, true_and]
      exact ⟨plain (by decide), plain (by decide), List.forall_mem_nil _⟩
  exact ⟨s, hs, hbraces, hinert, ofSource_inTemplate hs hbraces hinert⟩

/-- A quote in a comment opens a literal in a template, which then has no end: the code is cut into tokens, and a string with the
code in it is refused. -/
theorem hiddenQuote_refused : ∃ s, ofSource "/* \" */" = .ok s ∧ ['#', '!'].isPrefixOf "/* \" */".toList = false ∧
    (∀ t ∈ s.tokens, Lexer.InlineGap t.gap.toList) ∧ Lexer.InlineGap s.tail.toList ∧ Nested (s.tokens.filter Token.isBrace) ∧
    ∀ quotes ∈ ["\"", "\"\"\""],
      ofSource (inTemplate quotes "/* \" */") = .error ⟨.unterminated .template, ⟨quotes.utf8ByteSize, 2⟩⟩ := by
  have hcomment : Lexer.InlineGap "/* \" */".toList :=
    .block (.char (by decide) (by decide) (.char (by decide) (by decide) (.char (by decide) (by decide) .close))) .nil
  refine ⟨⟨[], "/* \" */", 7⟩, ok_of_toOption (by decide +kernel), by decide, List.forall_mem_nil _, hcomment, .nil, ?_⟩
  simp only [List.forall_mem_cons, List.not_mem_nil, false_implies, implies_true, and_true]
  constructor
  · decide +kernel
  · decide +kernel

end TokenStream

end Counterpart.Kotlin
