/-
Plain names written between backticks. When some names of a source are quoted that are no words for its readers, the text that
comes out is cut into the same tokens but for the quotes (`TokenStream.ofSource_quoteSource`).
-/
import Counterpart.Proofs.Lossless

namespace Counterpart.Kotlin

open Text Lexer

/-- The token with its text between backticks. -/
def Token.quote (t : Token) : Token := { t with text := "`" ++ t.text ++ "`" }

/-- Whether a token in front of `ts` is a plain name, and none of the words that readers look for. -/
def Token.isQuotable (t : Token) (ts : List Token) : Bool :=
  t.isName && Name.isPlain t.text && !askedWords.contains t.text && !isModifier t ts

/-- The tokens with the chosen names between backticks. -/
def quoteTokens (chosen : Nat → Bool) : List Token → List Token
  | [] => []
  | t :: ts => (if chosen 0 && t.isQuotable ts then t.quote else t) :: quoteTokens (fun i => chosen (i + 1)) ts

/-- The source with the chosen names between backticks; tokens are counted from its start. -/
def quoteSource (chosen : Nat → Bool) (source : String) : String :=
  match TokenStream.ofSource source with
  | .ok s => writtenOut (quoteTokens chosen s.tokens) ++ s.tail
  | .error _ => source

variable {chosen : Nat → Bool} {t : Token} {ts : List Token} {tail : List Char}

theorem Token.isQuotable_iff : t.isQuotable ts = true ↔
    t.isName = true ∧ Name.isPlain t.text = true ∧ t.text ∉ askedWords ∧ isModifier t ts = false := by
  simp only [isQuotable, Bool.and_eq_true, Bool.not_eq_true', List.contains_eq_mem, decide_eq_false_iff_not, and_assoc]

theorem Token.toList_quote (t : Token) : t.quote.text.toList = '\x60' :: (t.text.toList ++ ['\x60']) := by
  simp [quote]

theorem map_gap_quoteTokens (chosen : Nat → Bool) (ts : List Token) :
    (quoteTokens chosen ts).map Token.gap = ts.map Token.gap := by
  induction ts generalizing chosen with
  | nil => rfl
  | cons t ts ih =>
    rw [quoteTokens, List.map_cons, List.map_cons, ih]
    split <;> rfl

/-! ## Texts with backticks put in -/

namespace Lexer

/-- The same text but for some backticks more. -/
inductive Backticked : List Char → List Char → Prop
  | nil : Backticked [] []
  | char (c : Char) {cs ds : List Char} (h : Backticked cs ds) : Backticked (c :: cs) (c :: ds)
  | quote {cs ds : List Char} (h : Backticked cs ds) : Backticked cs ('\x60' :: ds)

theorem Backticked.append_left (front : List Char) {cs ds : List Char} (h : Backticked cs ds) :
    Backticked (front ++ cs) (front ++ ds) := by
  induction front with
  | nil => exact h
  | cons c front ih => exact .char c ih

theorem Backticked.refl (cs : List Char) : Backticked cs cs := by
  have := Backticked.nil.append_left cs
  rwa [List.append_nil] at this

theorem Backticked.of_prefix {front cs ds : List Char} (h : Backticked cs ds) (hfront : '\x60' ∉ front) (hds : front <+: ds) :
    front <+: cs := by
  induction h generalizing front with
  | nil => exact hds
  | char c _ ih =>
    cases front with
    | nil => exact List.nil_prefix
    | cons d front =>
      rw [List.mem_cons, not_or] at hfront
      obtain ⟨hc, hrest⟩ := List.cons_prefix_cons.mp hds
      exact List.cons_prefix_cons.mpr ⟨hc, ih hfront.2 hrest⟩
  | quote _ ih =>
    cases front with
    | nil => exact List.nil_prefix
    | cons d front =>
      obtain ⟨rfl, -⟩ := List.cons_prefix_cons.mp hds
      exact absurd List.mem_cons_self hfront

/-- A token ends in front of whatever no token runs into. -/
theorem Cut.separated {kind : TokenKind} {text rest rest' : List Char} (h : Cut kind text rest) (hrest' : Separates rest') :
    Cut kind text rest' := by
  have hend : Cut kind text [] := h.condense (.refl _ _) (by simp [Resembles])
  obtain ⟨c, cs, rfl, hlexeme⟩ := hend.lexeme
  refine ⟨⟨c, cs, rfl, fun pos => ?_⟩, h.blank, fun hc d hd => ?_⟩
  · have := (lexeme_append (hlexeme 0) hrest' pos).1
    rwa [List.append_nil] at this
  · have hnil := length_of_lexeme (.inl (Option.some.inj hc)) (hlexeme 0)
    rw [List.tail_cons, List.length_eq_zero_iff.mp hnil, List.nil_append] at hd
    have := (hrest' d hd).2
    simp only [List.mem_cons, not_or] at this
    exact ⟨this.2.2.2.1, this.2.2.2.2.1⟩

/-- A token stays one when backticks are put into the text behind it. -/
theorem Cut.backticked {kind : TokenKind} {text rest rest' : List Char} (h : Cut kind text rest)
    (hrest : Backticked rest rest') : Cut kind text rest' := by
  cases hrest with
  | nil => exact h
  | quote _ =>
    refine h.separated ?_
    rintro _ ⟨⟩
    decide
  | char c hds =>
    refine h.condense (.refl _ _) fun d hd => .inr ⟨hd, fun _ e he hdigit => ?_⟩
    cases hds with
    | nil => exact he
    | char _ _ => exact he
    | quote _ =>
      cases he
      exact absurd hdigit (by decide)

/-- A plain name between backticks is a name in front of anything. -/
theorem Cut.quoted {name : String} (hname : Name.isPlain name) (rest : List Char) :
    Cut .name ('\x60' :: (name.toList ++ ['\x60'])) rest where
  lexeme := by
    refine ⟨'\x60', _, rfl, fun pos => ?_⟩
    rw [List.append_assoc, List.singleton_append, lexeme_quoted fun c hc => ?_]
    · simp
    have hchar := isNameChar_of_isPlain hname c hc
    constructor <;> rintro rfl <;> exact absurd hchar (by decide)
  blank := by
    rintro _ ⟨⟩
    decide
  comment h := by simp at h

theorem backticked_quoteTokens (chosen : Nat → Bool) (ts : List Token) (tail : List Char) :
    Backticked ((writtenOut ts).toList ++ tail) ((writtenOut (quoteTokens chosen ts)).toList ++ tail) := by
  induction ts generalizing chosen with
  | nil => exact .refl _
  | cons t ts ih =>
    rw [quoteTokens]
    split
    · rw [toList_writtenOut_cons, toList_writtenOut_cons, t.toList_quote]
      simp only [List.append_assoc, List.cons_append, List.nil_append]
      exact .append_left _ (.quote (.append_left _ (.quote (ih _))))
    · rw [toList_writtenOut_cons, toList_writtenOut_cons]
      simp only [List.append_assoc]
      exact .append_left _ (.append_left _ (ih _))

theorem cuts_quoteTokens (h : Cuts tail ts) (chosen : Nat → Bool) : Cuts tail (quoteTokens chosen ts) := by
  induction ts generalizing chosen with
  | nil => trivial
  | cons t ts ih =>
    refine ⟨?_, ih h.2 _⟩
    split
    next hchosen =>
      obtain ⟨hname, hplain, -⟩ := Token.isQuotable_iff.mp (Bool.and_eq_true_iff.mp hchosen).2
      have hkind : t.quote.kind = .name := beq_iff_eq.mp hname
      rw [hkind, t.toList_quote]
      exact .quoted hplain _
    next => exact h.1.backticked (backticked_quoteTokens _ ts tail)

end Lexer

/-! ## Sources with names quoted -/

/-- Tokens that are cut off one by one are read from a source that starts with them, when it has a first line for the shell
only in the gap before them. -/
theorem TokenStream.ofSource_writtenOut {tail : String} (hcuts : Cuts tail.toList (t :: ts))
    (hfirst : IsFirstGap false t.gap.toList) (hgaps : ∀ u ∈ ts, IsGap false u.gap.toList) (htail : IsGap true tail.toList)
    (hshell : IsGap false t.gap.toList → ¬['#', '!'] <+: (writtenOut (t :: ts) ++ tail).toList) :
    ∃ s, TokenStream.ofSource (writtenOut (t :: ts) ++ tail) = .ok s ∧
      s.tokens.map Token.lexeme = (t :: ts).map Token.lexeme := by
  have hsource : (writtenOut (t :: ts) ++ tail).toList =
      t.gap.toList ++ (t.text.toList ++ ((writtenOut ts).toList ++ tail.toList)) := by
    rw [String.toList_append, toList_writtenOut_cons, List.append_assoc, List.append_assoc]
  have hrest := tokens_writtenOut hcuts.2 hgaps htail
  rw [String.ofList_toList] at hrest
  suffices hlength : gapLength (if ['#', '!'].isPrefixOf (writtenOut (t :: ts) ++ tail).toList then .lineComment else .between) 0
      (t.gap.toList ++ (t.text.toList ++ ((writtenOut ts).toList ++ tail.toList))) = .ok t.gap.toList.length by
    obtain ⟨u, us, hus, hlexeme, hmap⟩ := tokens_cons_of_gap hlength hcuts.1 hrest
    rw [← hsource] at hus
    exact ⟨_, TokenStream.ofSource_eq rfl hus, by rw [List.map_cons, List.map_cons, hlexeme, hmap]⟩
  have hstarts := hcuts.1.startsToken
  obtain hgap | ⟨line, hgap, hline⟩ := hfirst
  · rw [if_neg fun h => hshell hgap (List.isPrefixOf_iff_prefix.mp h)]
    exact gapLength_isGap hgap (fun h => by cases h) hstarts 0
  · obtain ⟨hlast, -⟩ | ⟨text, gap, rfl, htext, hgap'⟩ := hline
    · cases hlast
    have hmark : '\n' ∉ '#' :: '!' :: text := by simp [htext]
    have := gapLength_line hmark (gapLength_isGap hgap' (fun h => by cases h) hstarts) 0
    rw [if_pos (by rw [hsource, hgap]; rfl), hgap]
    simp only [List.cons_append, List.append_assoc, List.length_cons, List.length_append] at this ⊢
    rw [this]
    exact congrArg Except.ok (by omega)

/-- A first line for the shell is passed before the first token. -/
theorem not_isGap_of_shell {source : String} {s : TokenStream} (h : TokenStream.ofSource source = .ok s)
    (hshell : ['#', '!'] <+: source.toList) (ht : t ∈ s.tokens.head?) : ¬IsGap false t.gap.toList := by
  obtain ⟨htokens, -⟩ := TokenStream.ofSource_ok h
  rw [if_pos (List.isPrefixOf_iff_prefix.mpr hshell)] at htokens
  obtain ⟨n, hlength, hfirst, -⟩ := tokens_firstGap htokens
  obtain ⟨-, hgap⟩ := hfirst t ht
  obtain ⟨line, hline⟩ := hshell
  rw [← hline] at hlength hgap
  obtain ⟨m, -, rfl⟩ := exists_of_map_ok hlength
  rw [hgap, List.cons_append, List.take_succ_cons]
  intro hcontra
  cases hcontra with
  | blank hc _ => exact absurd hc (by decide)

/-- **Quoting names** of a source changes its tokens in no other way. -/
theorem TokenStream.ofSource_quoteSource {source : String} {s : TokenStream} (h : TokenStream.ofSource source = .ok s)
    (chosen : Nat → Bool) : ∃ s', TokenStream.ofSource (quoteSource chosen source) = .ok s' ∧
      s'.tokens.map Token.lexeme = (quoteTokens chosen s.tokens).map Token.lexeme := by
  have hlossless := TokenStream.lossless h
  have hsource : writtenOut s.tokens ++ s.tail = source := hlossless.whole
  have hquote : quoteSource chosen source = writtenOut (quoteTokens chosen s.tokens) ++ s.tail := by rw [quoteSource, h]
  have hcuts := cuts_quoteTokens (tokens_cuts (TokenStream.ofSource_ok h).1) chosen
  have hbackticked := backticked_quoteTokens chosen s.tokens s.tail.toList
  have hgap := map_gap_quoteTokens chosen s.tokens
  rw [← String.toList_append, ← String.toList_append, hsource] at hbackticked
  cases htokens : s.tokens with
  | nil =>
    rw [hquote, htokens, quoteTokens, ← htokens, hsource]
    exact ⟨s, h, by rw [htokens]⟩
  | cons t ts =>
    have hfirst := hlossless.firstGap t (by rw [htokens]; rfl)
    have hgaps := hlossless.gaps
    have hlast := hlossless.lastGap
    rw [htokens] at hgap hgaps hlast hcuts hbackticked hquote
    rw [hquote]
    obtain ⟨u, us, hquoted⟩ : ∃ u us, quoteTokens chosen (t :: ts) = u :: us := ⟨_, _, rfl⟩
    rw [hquoted] at hgap hcuts hbackticked ⊢
    obtain ⟨hu, hus⟩ := List.cons.inj hgap
    refine TokenStream.ofSource_writtenOut hcuts (hu ▸ hfirst) (fun v hv => ?_) (by simpa using hlast) (fun hbetween hshell => ?_)
    · obtain ⟨w, hw, hsame⟩ := List.mem_map.mp (hus ▸ List.mem_map_of_mem hv)
      exact hsame ▸ hgaps w hw
    · -- only backticks are new, so the source had a line for the shell as well, in the gap
      have hprefix := hbackticked.of_prefix (by decide) hshell
      exact not_isGap_of_shell h hprefix (by rw [htokens]; rfl) (hu ▸ hbetween)

end Counterpart.Kotlin
