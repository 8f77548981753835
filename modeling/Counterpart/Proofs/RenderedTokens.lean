/-
Types that are rendered are cut into the tokens of their source again (`typeRef_rendered`): into all of them when none is dropped
and no line comment in a function type takes up what stands behind it, now that the type is on one line.
-/
import Counterpart.Proofs.RenderedTypes

namespace Counterpart.Kotlin

open Text Lexer

namespace TypeSyntax

mutual

/-- The tokens that are read but not rendered: a `suspend` before a name, and the other half of an intersection. -/
def dropped : TypeSyntax → List Token
  | .named _ suspended _ args _ _ bound => suspended ++ (argsDropped args ++ argsKept bound)
  | .function .. => []

def argsDropped : List (ArgSyntax TypeSyntax) → List Token
  | [] => []
  | ⟨_, _, .star⟩ :: args => argsDropped args
  | ⟨_, _, .type _ ty⟩ :: args => ty.dropped ++ argsDropped args

end

mutual

/-- The function types that are rendered. -/
def functions : TypeSyntax → List (List Token)
  | .named _ _ _ args _ _ _ => argsFunctions args
  | .function _ body _ => [body]

def argsFunctions : List (ArgSyntax TypeSyntax) → List (List Token)
  | [] => []
  | ⟨_, _, .star⟩ :: args => argsFunctions args
  | ⟨_, _, .type _ ty⟩ :: args => ty.functions ++ argsFunctions args

end

/-- Whether every token is rendered, and is still one with its function type on one line: no line comment before it makes it
part of the comment, and no blanks within it are made one space. -/
def Whole (s : TypeSyntax) : Prop :=
  s.dropped = [] ∧
    ∀ body ∈ s.functions, (∀ t ∈ body.tail, InlineGap t.gap.toList) ∧ ∀ t ∈ body, t.squeezed.text = t.text

end TypeSyntax

open TypeSyntax

variable {ts us : List Token} {t : Token} {c : Char} {gap : String}

/-! ## The gaps of what is rendered -/

theorem TypeSyntax.IsPath.plain {path : List Token} (h : IsPath path) : ∀ t ∈ path, t.isName ∨ ∃ c, t.isMark c := by
  induction h with
  | name ht => simp [ht]
  | dot ht hdot _ ih =>
    intro u hu
    rcases List.mem_cons.mp hu with rfl | hu
    · exact .inl ht
    rcases List.mem_cons.mp hu with rfl | hu
    · exact .inr ⟨'.', hdot⟩
    · exact ih u hu

/-- A name or a mark is on one line. -/
theorem Consecutive.not_line (h : Consecutive ts) (ht : t ∈ ts) (hplain : t.isName ∨ ∃ c, t.isMark c) :
    '\n' ∉ t.text.toList := by
  obtain ⟨rest, hcut⟩ := h.cut ht
  obtain hname | ⟨c, hmark⟩ := hplain
  · rw [show t.kind = .name by simpa [Token.isName] using hname] at hcut
    exact hcut.not_line
  · rw [h.text_of_isMark ht hmark, String.toList_singleton, List.mem_singleton]
    rintro rfl
    have := hcut.blank '\n' (by rw [h.text_of_isMark ht hmark]; rfl)
    simp [show isBlank '\n' = true by decide] at this

theorem mem_behind_glued (h : Consecutive ts) (hplain : ∀ u ∈ ts, u.isName ∨ ∃ c, u.isMark c)
    (ht : t ∈ behind gap (glued ts)) : '\n' ∉ t.text.toList ∧ t.gap ∈ [gap, ""] := by
  cases ts with
  | nil => simp [glued, behind] at ht
  | cons u us =>
    rcases List.mem_cons.mp ht with rfl | ht
    · exact ⟨h.not_line (t := u) List.mem_cons_self (hplain u List.mem_cons_self), List.mem_cons_self⟩
    · obtain ⟨v, hv, rfl⟩ := List.mem_map.mp ht
      have hv := List.mem_cons_of_mem u hv
      exact ⟨h.not_line (t := v) hv (hplain v hv), List.mem_cons_of_mem _ List.mem_cons_self⟩

theorem spaceBehind_mem (t : Token) : spaceBehind t ∈ ["", " "] := by
  rw [spaceBehind]
  split <;> decide

mutual

theorem functions_within (s : TypeSyntax) {body : List Token} (hbody : body ∈ s.functions) : body <:+: s.tokens := by
  cases s with
  | named annotations suspended path args close mark bound =>
    obtain ⟨front, back, hargs⟩ := argsFunctions_within args hbody
    exact ⟨annotations ++ (suspended ++ (path ++ front)), back ++ (close ++ (mark ++ argsTokens bound)), by
      simp [TypeSyntax.tokens, ← hargs]⟩
  | function annotations body' nullable =>
    rw [functions, List.mem_singleton] at hbody
    exact ⟨annotations, [], by simp [TypeSyntax.tokens, hbody]⟩

theorem argsFunctions_within (args : List (ArgSyntax TypeSyntax)) {body : List Token} (hbody : body ∈ argsFunctions args) :
    body <:+: argsTokens args := by
  match args with
  | [] => simp [argsFunctions] at hbody
  | ⟨separator, words, .star⟩ :: args =>
    exact (argsFunctions_within args hbody).trans (List.suffix_append (separator :: words) _).isInfix
  | ⟨separator, words, .type variance ty⟩ :: args =>
    rw [argsFunctions, List.mem_append] at hbody
    rw [argsTokens]
    obtain hbody | hbody := hbody
    · exact (functions_within ty hbody).trans ⟨separator :: words, argsTokens args, by simp⟩
    · refine (argsFunctions_within args hbody).trans (List.IsSuffix.isInfix ⟨separator :: (words ++ ty.tokens), by simp⟩)

end

/-- What a token of a rendered type is like: it is on one line, and before it stands nothing, a space, or a gap of one of the
function types on one line. -/
structure Lined (bodies : List (List Token)) (t : Token) : Prop where
  text : '\n' ∉ t.text.toList
  gap : t.gap ∈ ["", " "] ∨ ∃ body ∈ bodies, ∃ u ∈ body.tail, t.gap = u.squeezed.gap

theorem Lined.of_subset {bodies bodies' : List (List Token)} (h : Lined bodies t) (hsub : bodies ⊆ bodies') :
    Lined bodies' t :=
  ⟨h.text, h.gap.imp_right fun ⟨body, hbody, hgap⟩ => ⟨body, hsub hbody, hgap⟩⟩

/-- What is so of nothing, of a space and of the gaps of the function types on one line is so of all gaps. -/
theorem Lined.gap_of {bodies : List (List Token)} {P : List Char → Prop} (h : Lined bodies t) (hnil : P []) (hspace : P [' '])
    (hbodies : ∀ body ∈ bodies, ∀ u ∈ body.tail, P (squeeze false u.gap.toList)) : P t.gap.toList := by
  obtain hgap | ⟨body, hbody, u, hu, hgap⟩ := h.gap
  · simp only [List.mem_cons, List.not_mem_nil, or_false] at hgap
    obtain hgap | hgap := hgap <;> rw [hgap]
    · exact hnil
    · exact hspace
  · rw [hgap, Token.squeezed, String.toList_ofList]
    exact hbodies body hbody u hu

theorem lined_plain {bodies : List (List Token)} (h : Consecutive ts) (hplain : ∀ u ∈ ts, u.isName ∨ ∃ c, u.isMark c)
    (hgap : gap ∈ ["", " "]) : ∀ t ∈ behind gap (glued ts), Lined bodies t := by
  intro t ht
  obtain ⟨htext, hmem⟩ := mem_behind_glued h hplain ht
  simp only [List.mem_cons, List.not_mem_nil, or_false] at hmem
  obtain rfl | hmem := hmem
  · exact ⟨htext, .inl hgap⟩
  · exact ⟨htext, .inl (by simp [hmem])⟩

theorem lined_squeezed {bodies : List (List Token)} {body : List Token} (hbody : body ∈ bodies) (hgap : gap ∈ ["", " "]) :
    ∀ t ∈ behind gap (body.map Token.squeezed), Lined bodies t := by
  have htext (u : Token) : '\n' ∉ u.squeezed.text.toList := by
    rw [Token.squeezed, String.toList_ofList]
    exact not_mem_squeeze false _
  cases body with
  | nil => simp [behind]
  | cons u us =>
    intro t ht
    rcases List.mem_cons.mp ht with rfl | ht
    · exact ⟨htext u, .inl hgap⟩
    · obtain ⟨v, hv, rfl⟩ := List.mem_map.mp ht
      exact ⟨htext v, .inr ⟨_, hbody, v, hv, rfl⟩⟩

theorem TypeSyntax.Optional.plain {mark : List Token} (h : Optional (·.isMark c) mark) :
    ∀ t ∈ mark, t.isName ∨ ∃ c, t.isMark c := by
  obtain rfl | ⟨t, rfl, ht⟩ := h
  · simp
  · exact List.forall_mem_singleton.mpr (.inr ⟨c, ht⟩)

theorem TypeSyntax.IsVariance.plain {variance : Variance} {words : List Token} (h : IsVariance variance words) :
    ∀ t ∈ words, t.isName ∨ ∃ c, t.isMark c := by
  cases variance with
  | invariant =>
    cases h
    simp
  | outward | inward =>
    obtain ⟨t, rfl, ht⟩ := h
    exact List.forall_mem_singleton.mpr (.inl (Bool.and_eq_true_iff.mp ht).1)

mutual

theorem lined_written (s : TypeSyntax) {rest : List Token} (hwf : s.WellFormed rest) (h : Consecutive s.tokens) {gap : String}
    (hgap : gap ∈ ["", " "]) : ∀ t ∈ s.written gap, Lined s.functions t := by
  cases s with
  | named annotations suspended path args close mark bound =>
    obtain ⟨-, -, hpath, hargs, hclose, hmark, -, -⟩ := hwf
    have hcore : Consecutive (path ++ (argsTokens args ++ (close ++ (mark ++ argsTokens bound)))) := h.right.right
    have hclosing : Consecutive (close ++ mark) := by
      have : Consecutive ((close ++ mark) ++ argsTokens bound) := by
        rw [List.append_assoc]
        exact hcore.right.right
      exact this.left
    have hplain : ∀ t ∈ close ++ mark, t.isName ∨ ∃ c, t.isMark c := by
      refine List.forall_mem_append.mpr ⟨?_, hmark.plain⟩
      obtain ⟨-, rfl⟩ | ⟨-, hclose⟩ := hclose
      · simp
      · exact Optional.plain (.inr hclose)
    rw [written, List.forall_mem_append, List.forall_mem_append, functions, ← behind_glued (close ++ mark)]
    exact ⟨lined_plain hcore.left hpath.plain hgap, lined_argsWritten args hargs hcore.right.left,
      lined_plain hclosing hplain List.mem_cons_self⟩
  | function annotations body nullable => exact lined_squeezed List.mem_cons_self hgap

theorem lined_argsWritten (args : List (ArgSyntax TypeSyntax)) {c : Char} {rest : List Token}
    (hwf : ArgsWellFormed c args rest) (h : Consecutive (argsTokens args)) :
    ∀ t ∈ argsWritten args, Lined (argsFunctions args) t := by
  match args with
  | [] => simp [argsWritten]
  | ⟨separator, words, .star⟩ :: args =>
    obtain ⟨hseparator, hstar, hargs⟩ := hwf
    rw [argsTokens] at h
    rw [argsWritten, List.forall_mem_append, List.forall_mem_append, ← behind_glued [separator]]
    exact ⟨lined_plain h.head (Optional.plain (.inr ⟨separator, rfl, hseparator⟩)) List.mem_cons_self,
      lined_plain h.tail.left (Optional.plain (.inr hstar)) (spaceBehind_mem separator),
      lined_argsWritten args hargs h.tail.right⟩
  | ⟨separator, words, .type variance ty⟩ :: args =>
    obtain ⟨hseparator, hwords, hty, hargs⟩ := hwf
    rw [argsTokens] at h
    have hgap : (if words = [] then spaceBehind separator else " ") ∈ ["", " "] := by
      split
      · exact spaceBehind_mem separator
      · decide
    rw [argsWritten, List.forall_mem_append, List.forall_mem_append, List.forall_mem_append, ← behind_glued [separator],
      argsFunctions]
    exact ⟨lined_plain h.head (Optional.plain (.inr ⟨separator, rfl, hseparator⟩)) List.mem_cons_self,
      lined_plain h.tail.left hwords.plain (spaceBehind_mem separator),
      fun t ht => (lined_written ty hty h.tail.right.left hgap t ht).of_subset (List.subset_append_left _ _),
      fun t ht => (lined_argsWritten args hargs h.tail.right.right t ht).of_subset (List.subset_append_right _ _)⟩

end

mutual

/-- A function type is rendered with its own gaps. -/
theorem squeezed_mem_written (s : TypeSyntax) {body : List Token} (hbody : body ∈ s.functions) (ht : t ∈ body.tail)
    (gap : String) : t.squeezed ∈ s.written gap := by
  cases s with
  | named annotations suspended path args close mark bound =>
    have := squeezed_mem_argsWritten args hbody ht
    rw [written]
    simp [this]
  | function annotations body' nullable =>
    cases List.mem_singleton.mp hbody
    cases body with
    | nil => cases ht
    | cons u us => exact List.mem_cons_of_mem _ (List.mem_map_of_mem ht)

theorem squeezed_mem_argsWritten (args : List (ArgSyntax TypeSyntax)) {body : List Token} (hbody : body ∈ argsFunctions args)
    (ht : t ∈ body.tail) : t.squeezed ∈ argsWritten args := by
  match args with
  | [] => cases hbody
  | ⟨separator, words, .star⟩ :: args =>
    have := squeezed_mem_argsWritten args hbody ht
    rw [argsWritten]
    simp [this]
  | ⟨separator, words, .type variance ty⟩ :: args =>
    rw [argsWritten]
    rw [argsFunctions, List.mem_append] at hbody
    obtain hbody | hbody := hbody
    · have := squeezed_mem_written ty hbody ht (if words = [] then spaceBehind separator else " ")
      simp [this]
    · have := squeezed_mem_argsWritten args hbody ht
      simp [this]

end

/-! ## The tokens that are rendered -/

theorem length_glued (ts : List Token) : (glued ts).length = ts.length := List.length_map _

mutual

theorem length_written (s : TypeSyntax) (gap : String) : (s.written gap).length + s.dropped.length = s.kept.length := by
  cases s with
  | named annotations suspended path args close mark bound =>
    have := length_argsWritten args
    simp only [written, dropped, kept, List.length_append, length_behind, length_glued]
    omega
  | function annotations body nullable => simp [written, dropped, kept, length_behind]

theorem length_argsWritten (args : List (ArgSyntax TypeSyntax)) :
    (argsWritten args).length + (argsDropped args).length = (argsKept args).length := by
  match args with
  | [] => rfl
  | ⟨separator, words, .star⟩ :: args =>
    have := length_argsWritten args
    simp only [argsWritten, argsDropped, argsKept, List.length_append, List.length_cons, List.length_nil, length_behind,
      length_glued]
    omega
  | ⟨separator, words, .type variance ty⟩ :: args =>
    have := length_written ty (if words = [] then spaceBehind separator else " ")
    have := length_argsWritten args
    simp only [argsWritten, argsDropped, argsKept, List.length_append, List.length_cons, List.length_nil, length_behind,
      length_glued]
    omega

end

mutual

/-- When nothing is dropped, the texts are the same but for those that change on one line. -/
theorem texts_written (s : TypeSyntax) (gap : String) (hdropped : s.dropped = []) :
    (s.written gap).map Token.text = s.kept.map Token.text ↔ ∀ body ∈ s.functions, ∀ t ∈ body, t.squeezed.text = t.text := by
  cases s with
  | named annotations suspended path args close mark bound =>
    rw [dropped, List.append_eq_nil_iff, List.append_eq_nil_iff] at hdropped
    obtain ⟨rfl, hargs, hbound⟩ := hdropped
    have := texts_argsWritten args hargs
    simpa [written, kept, functions, hbound, map_text_behind, map_text_glued] using this
  | function annotations body nullable =>
    rw [written, kept, map_text_behind, List.map_map, List.map_inj_left]
    simp [functions]

theorem texts_argsWritten (args : List (ArgSyntax TypeSyntax)) (hdropped : argsDropped args = []) :
    (argsWritten args).map Token.text = (argsKept args).map Token.text ↔
      ∀ body ∈ argsFunctions args, ∀ t ∈ body, t.squeezed.text = t.text := by
  match args with
  | [] => simp [argsWritten, argsKept, argsFunctions]
  | ⟨separator, words, .star⟩ :: args =>
    have := texts_argsWritten args hdropped
    simpa [argsWritten, argsKept, argsFunctions, map_text_glued, map_text_behind] using this
  | ⟨separator, words, .type variance ty⟩ :: args =>
    rw [argsDropped, List.append_eq_nil_iff] at hdropped
    have hty := texts_written ty (if words = [] then spaceBehind separator else " ") hdropped.1
    have hargs := texts_argsWritten args hdropped.2
    have hlength := length_written ty (if words = [] then spaceBehind separator else " ")
    rw [hdropped.1, List.length_nil, Nat.add_zero] at hlength
    rw [argsWritten, argsKept, argsFunctions, List.forall_mem_append, ← hty, ← hargs]
    simp only [List.map_append, List.map_cons, List.map_nil, List.cons_append, List.nil_append, map_text_behind, map_text_glued,
      List.cons.injEq, true_and, List.append_right_inj]
    constructor
    · intro h
      exact List.append_inj h (by rw [List.length_map, List.length_map, hlength])
    · rintro ⟨hty, hargs⟩
      rw [hty, hargs]

end

theorem not_mem_writtenOut (h : ∀ t ∈ ts, c ∉ t.gap.toList ∧ c ∉ t.text.toList) : c ∉ (writtenOut ts).toList := by
  induction ts with
  | nil => simp [writtenOut]
  | cons t ts ih =>
    obtain ⟨hgap, htext⟩ := h t List.mem_cons_self
    simp [toList_writtenOut_cons, hgap, htext, ih fun u hu => h u (List.mem_cons_of_mem t hu)]

/-- A type does not begin like a line for the shell. -/
theorem not_shell_writtenOut {tail : List Char} (h : Cuts tail (t :: ts)) (ht : t.isName ∨ t.isMark '(') (hgap : t.gap = "") :
    ['#', '!'].isPrefixOf (writtenOut (t :: ts)).toList = false := by
  have hcut := h.1
  obtain ⟨c, cs, htext, hlexeme⟩ := hcut.lexeme
  have hc : c ≠ '#' := by
    rintro rfl
    obtain hname | hmark := ht
    · rw [show t.kind = .name by simpa [Token.isName] using hname] at hlexeme
      obtain ⟨hquote, -⟩ | ⟨hstart, -⟩ := lexeme_name (hlexeme 0)
      · cases hquote
      · exact absurd hstart (by decide)
    · rw [show t.kind = .mark '(' by simpa [Token.isMark] using hmark] at hcut
      have := hcut.mark_text
      rw [htext] at this
      cases this
  rw [toList_writtenOut_cons, hgap, htext, String.toList_empty, List.nil_append, List.cons_append, List.isPrefixOf_cons_cons]
  simp [Ne.symm hc]

theorem cuts_render {s : TypeSyntax} {rest : List Token} (hwf : s.WellFormed rest) (h : Consecutive s.tokens) :
    Cuts [] (s.written "") := by
  have := cuts_written "" s hwf h follows_nil
  rwa [List.append_nil] at this

theorem ofSource_render {s : TypeSyntax} {rest : List Token} (hwf : s.WellFormed rest) (h : Consecutive s.tokens) {tail : String}
    (hts : tokens .between 0 (writtenOut (s.written "")).toList = .ok (ts, tail)) :
    TokenStream.ofSource s.value.render = .ok ⟨ts, tail, s.value.render.utf8ByteSize⟩ := by
  have hcuts := cuts_render hwf h
  have hrender := writtenOut_written "" s hwf h
  obtain ⟨t, us, ht, hwritten⟩ := exists_written hwf
  rw [String.empty_append] at hrender
  refine TokenStream.ofSource_eq ?_ (hrender ▸ hts)
  rw [hwritten] at hcuts
  rw [← hrender, hwritten, not_shell_writtenOut hcuts ht rfl]
  rfl

/-- Without line comments in it, a type is rendered as the tokens it is written with. -/
theorem tokens_render_inline {s : TypeSyntax} {rest : List Token} (hwf : s.WellFormed rest) (h : Consecutive s.tokens)
    (hinline : ∀ body ∈ s.functions, ∀ t ∈ body.tail, InlineGap t.gap.toList) :
    ∃ us, tokens .between 0 (writtenOut (s.written "")).toList = .ok (us, "") ∧
      us.map Token.lexeme = (s.written "").map Token.lexeme := by
  have hgaps : ∀ t ∈ s.written "", IsGap false t.gap.toList := fun t ht =>
    ((lined_written s hwf h List.mem_cons_self t ht).gap_of .nil (.blank (by decide) .nil) fun body hbody u hu =>
      (hinline body hbody u hu).squeeze false).isGap
  have := tokens_writtenOut (cuts_render hwf h) hgaps .nil 0
  rwa [List.append_nil] at this

/-- A line comment in a type takes up what is rendered behind it. -/
theorem tokens_render_commented {s : TypeSyntax} {rest : List Token} (hwf : s.WellFormed rest) (h : Consecutive s.tokens)
    (hcomment : ∃ body ∈ s.functions, ∃ t ∈ body.tail, ¬InlineGap t.gap.toList) :
    ∃ stream, TokenStream.ofSource s.value.render = .ok stream ∧ stream.tokens.length < (s.written "").length := by
  have hlined := lined_written s hwf h List.mem_cons_self
  have hgap {body : List Token} (hbody : body ∈ s.functions) {u : Token} (hu : u ∈ body.tail) :
      InlineGap u.gap.toList ∨ Commented u.gap.toList :=
    ((h.within (functions_within s hbody)).gaps u hu).inline_or_commented
  have hgaps : ∀ t ∈ s.written "", InlineGap t.gap.toList ∨ Commented t.gap.toList := fun t ht =>
    (hlined t ht).gap_of (P := fun cs => InlineGap cs ∨ Commented cs) (.inl .nil) (.inl (.blank (by decide) .nil)) fun body hbody u hu =>
      (hgap hbody hu).imp (·.squeeze false) (·.squeeze false)
  have hcommented : ∃ t ∈ s.written "", Commented t.gap.toList := by
    obtain ⟨body, hbody, u, hu, hnot⟩ := hcomment
    refine ⟨_, squeezed_mem_written s hbody hu "", ?_⟩
    rw [Token.squeezed, String.toList_ofList]
    exact ((hgap hbody hu).resolve_left hnot).squeeze false
  have hline : '\n' ∉ (writtenOut (s.written "")).toList := not_mem_writtenOut fun t ht =>
    ⟨(hlined t ht).gap_of (P := fun cs => '\n' ∉ cs) (by decide) (by decide) fun _ _ _ _ => not_mem_squeeze false _, (hlined t ht).text⟩
  obtain ⟨us, tail, hus, hshort⟩ := tokens_commented (cuts_render hwf h) hline hgaps hcommented 0
  exact ⟨_, ofSource_render hwf h hus, hshort⟩

theorem tokens_render {s : TypeSyntax} {rest : List Token} (hwf : s.WellFormed rest) (h : Consecutive s.tokens) :
    ∃ stream, TokenStream.ofSource s.value.render = .ok stream ∧
      (stream.tokens.map Token.text = s.kept.map Token.text ↔ s.Whole) := by
  have hlength := length_written s ""
  by_cases hinline : ∀ body ∈ s.functions, ∀ t ∈ body.tail, InlineGap t.gap.toList
  · obtain ⟨us, hus, hlexemes⟩ := tokens_render_inline hwf h hinline
    have htexts : us.map Token.text = (s.written "").map Token.text := by
      have := congrArg (List.map Lexeme.text) hlexemes
      rwa [List.map_map, List.map_map] at this
    refine ⟨_, ofSource_render hwf h hus, ?_⟩
    rw [htexts]
    constructor
    · intro heq
      have hdropped : s.dropped = [] := by
        have := congrArg List.length heq
        rw [List.length_map, List.length_map] at this
        exact List.length_eq_zero_iff.mp (by omega)
      exact ⟨hdropped, fun body hbody => ⟨hinline body hbody, (texts_written s "" hdropped).mp heq body hbody⟩⟩
    · rintro ⟨hdropped, hwhole⟩
      exact (texts_written s "" hdropped).mpr fun body hbody => (hwhole body hbody).2
  · obtain ⟨stream, hstream, hshort⟩ := tokens_render_commented hwf h (by push Not at hinline; exact hinline)
    refine ⟨stream, hstream, iff_of_false ?_ ?_⟩
    · intro heq
      have := congrArg List.length heq
      rw [List.length_map, List.length_map] at this
      omega
    · rintro ⟨-, hwhole⟩
      exact hinline fun body hbody => (hwhole body hbody).1

/-- **Rendering** a type that was read from a source, in whatever place, gives a text that is cut into tokens. Their texts are those
of the tokens that were read, save annotations, iff none is dropped and the function types in it may be put on one line. -/
theorem typeRef_rendered {source : String} {stream : TokenStream} (hsource : TokenStream.ofSource source = .ok stream)
    {before ts : List Token} (hts : stream.tokens = before ++ ts) {p} (h : typeRef ts = .ok p) :
    ∃ s : TypeSyntax, s.WellFormed p.rest ∧ ts = s.tokens ++ p.rest ∧ s.value = p.value ∧
      ∃ stream', TokenStream.ofSource p.value.render = .ok stream' ∧
        (stream'.tokens.map Token.text = s.kept.map Token.text ↔ s.Whole) := by
  obtain ⟨s, hsplit, hvalue, hwf, -⟩ := typeRef_syntax ts h
  have hconsecutive : Consecutive (s.tokens ++ p.rest) := .of_source hsource (hts.trans (congrArg (before ++ ·) hsplit))
  refine ⟨s, hwf, hsplit, hvalue, ?_⟩
  rw [← hvalue]
  exact tokens_render hwf hconsecutive.left

/-- A type with annotations, blanks and line breaks in many places, and a function type among its arguments. -/
def spreadType : String :=
  "@A(1) a . `b c`< in suspend (x: Int , /* the rest */\n  vararg `y z`: String)->Unit ?, * , out out < @B in> ?>"

theorem typeRef_rendered_spreadType : ∃ stream, ∃ p : Parsed TypeRef stream.tokens.length,
    TokenStream.ofSource spreadType = .ok stream ∧ typeRef stream.tokens = .ok p ∧
    p.value.render = "a.`b c`<in suspend (x: Int , /* the rest */ vararg `y z`: String)->Unit ?, *, out out<in>?>" ∧
    ∃ s : TypeSyntax, s.WellFormed p.rest ∧ stream.tokens = s.tokens ++ p.rest ∧ s.value = p.value ∧
      ∃ stream', TokenStream.ofSource p.value.render = .ok stream' ∧
        (stream'.tokens.map Token.text = s.kept.map Token.text ↔ s.Whole) := by
  have hread : ((TokenStream.ofSource spreadType).toOption.bind fun stream =>
      (typeRef stream.tokens).toOption.map fun p => p.value.render) =
      some "a.`b c`<in suspend (x: Int , /* the rest */ vararg `y z`: String)->Unit ?, *, out out<in>?>" := by
    decide +kernel
  obtain ⟨stream, hstream, hread⟩ := Option.bind_eq_some_iff.mp hread
  obtain ⟨p, hp, hrender⟩ := Option.map_eq_some_iff.mp hread
  have hstream := ok_of_toOption hstream
  have hp := ok_of_toOption hp
  exact ⟨stream, p, hstream, hp, hrender, typeRef_rendered hstream (List.nil_append _).symm hp⟩

/-- A function type with a line comment in it. -/
def countedType : String := "(Int, // how many\n  String) -> Unit"

/-- The comment takes up the rest of the type. -/
theorem countedType_not_rendered : ∃ stream, ∃ p : Parsed TypeRef stream.tokens.length, ∃ stream',
    TokenStream.ofSource countedType = .ok stream ∧ typeRef stream.tokens = .ok p ∧
    TokenStream.ofSource p.value.render = .ok stream' ∧ p.rest = [] ∧
    stream.tokens.map Token.text = ["(", "Int", ",", "String", ")", "->", "Unit"] ∧
    stream'.tokens.map Token.text = ["(", "Int", ","] := by
  have hread : ((TokenStream.ofSource countedType).toOption.bind fun stream =>
      (typeRef stream.tokens).toOption.bind fun p => (TokenStream.ofSource p.value.render).toOption.map fun stream' =>
        (p.rest, stream.tokens.map Token.text, stream'.tokens.map Token.text)) =
      some ([], ["(", "Int", ",", "String", ")", "->", "Unit"], ["(", "Int", ","]) := by
    decide +kernel
  obtain ⟨stream, hstream, hread⟩ := Option.bind_eq_some_iff.mp hread
  obtain ⟨p, hp, hread⟩ := Option.bind_eq_some_iff.mp hread
  obtain ⟨stream', hstream', hread⟩ := Option.map_eq_some_iff.mp hread
  obtain ⟨hrest, htexts, htexts'⟩ : _ ∧ _ ∧ _ := by simpa only [Prod.mk.injEq] using hread
  exact ⟨stream, p, stream', ok_of_toOption hstream, ok_of_toOption hp, ok_of_toOption hstream', hrest, htexts, htexts'⟩

end Counterpart.Kotlin
