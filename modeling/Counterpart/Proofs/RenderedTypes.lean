/-
Types that are rendered. What `TypeRef.render` makes of a type that was read are tokens of its source with new gaps before them
(`TypeSyntax.written`, `writtenOut_written`), and each of them is cut off in front of the others (`cuts_written`).
-/
import Counterpart.Proofs.TypeSyntax
import Counterpart.Proofs.Lossless

namespace Counterpart.Kotlin

open Text Lexer

/-! ## Tokens of a source -/

/-- Whether the tokens may stand one behind the other in a source. -/
structure Consecutive (ts : List Token) : Prop where
  cuts : ∃ tail, Cuts tail ts
  gaps : ∀ t ∈ ts.tail, IsGap false t.gap.toList

variable {ts us : List Token} {t : Token} {c : Char} {gap : String}

theorem Consecutive.left (h : Consecutive (ts ++ us)) : Consecutive ts where
  cuts := h.cuts.imp' _ fun _ hcuts => (cuts_append.mp hcuts).1
  gaps t ht := h.gaps t (by cases ts <;> simp_all)

theorem Consecutive.right (h : Consecutive (ts ++ us)) : Consecutive us where
  cuts := h.cuts.imp fun _ hcuts => (cuts_append.mp hcuts).2
  gaps t ht := h.gaps t (by
    cases ts with
    | nil => exact ht
    | cons u ts => exact List.mem_append_right ts (List.mem_of_mem_tail ht))

theorem Consecutive.head (h : Consecutive (t :: ts)) : Consecutive [t] := (show Consecutive ([t] ++ ts) from h).left

theorem Consecutive.tail (h : Consecutive (t :: ts)) : Consecutive ts := (show Consecutive ([t] ++ ts) from h).right

theorem Consecutive.within (h : Consecutive ts) (hus : us <:+: ts) : Consecutive us := by
  obtain ⟨front, back, rfl⟩ := hus
  exact h.left.right

theorem Consecutive.cut (h : Consecutive ts) (ht : t ∈ ts) : ∃ rest, Cut t.kind t.text.toList rest := by
  obtain ⟨front, back, rfl⟩ := List.append_of_mem ht
  obtain ⟨tail, hcuts⟩ := h.right.cuts
  exact ⟨_, hcuts.1⟩

theorem Consecutive.of_source {source : String} {s : TokenStream} (h : TokenStream.ofSource source = .ok s) {before : List Token}
    (hts : s.tokens = before ++ ts) : Consecutive ts := by
  have : Consecutive s.tokens := ⟨⟨_, tokens_cuts (TokenStream.ofSource_ok h).1⟩, (TokenStream.lossless h).gaps⟩
  exact (hts ▸ this).right

theorem Consecutive.text_of_isMark (h : Consecutive ts) (ht : t ∈ ts) (hmark : t.isMark c) : t.text = String.singleton c := by
  obtain ⟨rest, hcut⟩ := h.cut ht
  rw [Token.isMark, beq_iff_eq] at hmark
  rw [hmark] at hcut
  rw [← String.ofList_toList (s := t.text), hcut.mark_text]
  rfl

/-! ## New gaps -/

/-- The tokens with nothing between them. -/
def glued (ts : List Token) : List Token := ts.map ({ · with gap := "" })

/-- The tokens with `gap` before the first one. -/
def behind (gap : String) : List Token → List Token
  | [] => []
  | t :: ts => { t with gap } :: ts

theorem writtenOut_glued (ts : List Token) : writtenOut (glued ts) = String.join (ts.map Token.text) := by
  simp [writtenOut, glued, Function.comp_def]

theorem writtenOut_behind (hts : ts ≠ []) (gap : String) : writtenOut (behind gap ts) = gap ++ writtenOut (behind "" ts) := by
  obtain ⟨t, ts, rfl⟩ := List.exists_cons_of_ne_nil hts
  simp [behind, writtenOut_cons]

theorem behind_glued (ts : List Token) : behind "" (glued ts) = glued ts := by
  cases ts <;> rfl

theorem map_text_glued (ts : List Token) : (glued ts).map Token.text = ts.map Token.text := by
  simp [glued]

theorem map_text_behind (gap : String) (ts : List Token) : (behind gap ts).map Token.text = ts.map Token.text := by
  cases ts <;> rfl

theorem length_behind (gap : String) (ts : List Token) : (behind gap ts).length = ts.length := by
  cases ts <;> rfl

theorem cuts_behind {tail : List Char} : Cuts tail (behind gap ts) ↔ Cuts tail ts := by
  cases ts <;> rfl

theorem verbatim_eq_writtenOut (ts : List Token) : Token.verbatim ts = writtenOut (behind "" ts) := by
  cases ts with
  | nil => rfl
  | cons t ts => simp [Token.verbatim, behind, writtenOut]

theorem oneLine_writtenOut {tail : List Char} (h : Cuts tail ts) (hgap : ∀ t ∈ ts.head?, t.gap = "") :
    oneLine (writtenOut ts) = writtenOut (ts.map Token.squeezed) := by
  cases ts with
  | nil => rfl
  | cons t ts =>
    have hhead : ∀ c ∈ (writtenOut (t :: ts)).toList.head?, isBlank c = false := by
      obtain ⟨c, cs, htext, -⟩ := h.1.lexeme
      rw [toList_writtenOut_cons, hgap t rfl, htext]
      rintro _ ⟨⟩
      exact h.1.blank c (by rw [htext]; rfl)
    apply String.toList_injective
    rw [oneLine_eq_squeeze hhead h.last, squeeze_writtenOut h]

/-- The text of tokens on one line. -/
theorem oneLine_verbatim (h : Consecutive ts) :
    oneLine (Token.verbatim ts) = writtenOut (behind "" (ts.map Token.squeezed)) := by
  obtain ⟨tail, hcuts⟩ := h.cuts
  have hgap : ∀ t ∈ (behind "" ts).head?, t.gap = "" := by
    cases ts with
    | nil => simp [behind]
    | cons t ts =>
      rintro _ ⟨⟩
      rfl
  rw [verbatim_eq_writtenOut, oneLine_writtenOut (cuts_behind.mpr hcuts) hgap]
  cases ts <;> rfl

/-! ## The tokens of a rendered type -/

namespace TypeSyntax

/-- What is rendered behind the mark before an argument. -/
def spaceBehind (separator : Token) : String := if separator.isMark ',' then " " else ""

mutual

/-- The tokens that the type is rendered with, the first one behind `gap`. -/
def written (gap : String) : TypeSyntax → List Token
  | .named _ _ path args close mark _ => behind gap (glued path) ++ (argsWritten args ++ glued (close ++ mark))
  | .function _ body _ => behind gap (body.map Token.squeezed)

def argsWritten : List (ArgSyntax TypeSyntax) → List Token
  | [] => []
  | ⟨separator, words, .star⟩ :: args =>
    glued [separator] ++ (behind (spaceBehind separator) (glued words) ++ argsWritten args)
  | ⟨separator, words, .type _ ty⟩ :: args =>
    glued [separator] ++ (behind (spaceBehind separator) (glued words) ++
      (ty.written (if words = [] then spaceBehind separator else " ") ++ argsWritten args))

end

end TypeSyntax

open TypeSyntax

/-! ## What is rendered -/

theorem TypeSyntax.IsPath.ne_nil {path : List Token} (h : IsPath path) : path ≠ [] := by cases h <;> simp

theorem writtenOut_path {path : List Token} (hpath : IsPath path) (h : Consecutive path) (gap : String) :
    writtenOut (behind gap (glued path)) = gap ++ pathName path := by
  have hname : path.map Token.text = path.map fun t => if t.isMark '.' then "." else t.text := by
    refine List.map_congr_left fun t ht => ?_
    split
    next hdot => exact h.text_of_isMark ht hdot
    next => rfl
  rw [writtenOut_behind (by simpa [glued] using hpath.ne_nil), behind_glued, writtenOut_glued, hname, pathName]

theorem writtenOut_mark {mark : List Token} (hmark : Optional (·.isMark c) mark) (h : Consecutive mark) :
    writtenOut (glued mark) = if !mark.isEmpty then String.singleton c else "" := by
  obtain rfl | ⟨t, rfl, ht⟩ := hmark
  · rfl
  · rw [writtenOut_glued, List.map_singleton, h.text_of_isMark List.mem_cons_self ht, String.join_cons]
    simp

theorem spaceBehind_eq (h : t.isMark c) : spaceBehind t = if c = ',' then " " else "" := by
  rw [Token.isMark, beq_iff_eq] at h
  simp [spaceBehind, Token.isMark, h]

theorem writtenOut_separator (ht : t.isMark c) (h : Consecutive (t :: ts)) : writtenOut (glued [t]) = String.singleton c := by
  rw [writtenOut_glued, List.map_singleton, h.text_of_isMark List.mem_cons_self ht, String.join_cons]
  simp

theorem argsValue_isEmpty (args : List (ArgSyntax TypeSyntax)) : (argsValue args).isEmpty = args.isEmpty := by
  match args with
  | [] => rfl
  | ⟨_, _, .star⟩ :: _ | ⟨_, _, .type _ _⟩ :: _ => rw [argsValue]; rfl

/-- What is rendered of arguments: the mark before the first one, and commas between them. -/
def argsText (c : Char) (args : List (TypeArg TypeRef)) : String :=
  if args.isEmpty then "" else
    String.singleton c ++ ((if c = ',' then " " else "") ++ join ", " (TypeRef.renderArgs args))

theorem argsText_cons (c : Char) (a : TypeArg TypeRef) (args : List (TypeArg TypeRef)) : argsText c (a :: args) =
    String.singleton c ++ ((if c = ',' then " " else "") ++ (TypeRef.renderArg a ++ argsText ',' args)) := by
  cases args with
  | nil => simp [argsText, TypeRef.renderArgs, join]
  | cons b args =>
    rw [argsText, argsText, TypeRef.renderArgs, join_cons (by rw [TypeRef.renderArgs]; exact List.cons_ne_nil _ _)]
    simp [String.append_assoc, show ", " = "," ++ " " from rfl]
    rfl

mutual

theorem writtenOut_written (gap : String) (s : TypeSyntax) {rest : List Token} (hwf : s.WellFormed rest)
    (h : Consecutive s.tokens) : writtenOut (s.written gap) = gap ++ s.value.render := by
  cases s with
  | named annotations suspended path args close mark bound =>
    obtain ⟨-, -, hpath, hargs, hclose, hmark, -, -⟩ := hwf
    have hcore : Consecutive (path ++ (argsTokens args ++ (close ++ (mark ++ argsTokens bound)))) := h.right.right
    have hclosing : writtenOut (glued close) = if args.isEmpty then "" else ">" := by
      have := hcore.right.right.left
      obtain ⟨rfl, rfl⟩ | ⟨hne, t, rfl, ht⟩ := hclose
      · rfl
      · rw [writtenOut_mark (.inr ⟨t, rfl, ht⟩) this, List.isEmpty_eq_false_iff.mpr hne]
        rfl
    rw [written, writtenOut_append, writtenOut_append, writtenOut_path hpath hcore.left,
      writtenOut_argsWritten args hargs hcore.right.left, glued, List.map_append, writtenOut_append, ← glued, ← glued,
      hclosing, writtenOut_mark hmark hcore.right.right.right.left, value, TypeRef.render, argsText, argsValue_isEmpty]
    cases args with
    | nil => simp [String.append_assoc]
    | cons a args => simp [String.append_assoc]
  | function annotations body nullable =>
    obtain ⟨-, ⟨t, us, hbody, -⟩, -⟩ := hwf
    have hne : body ≠ [] := by
      rw [hbody]
      exact List.cons_ne_nil t us
    rw [written, value, TypeRef.render, writtenOut_behind (by simpa using hne), oneLine_verbatim h.right]

theorem writtenOut_argsWritten (args : List (ArgSyntax TypeSyntax)) {c : Char} {rest : List Token}
    (hwf : ArgsWellFormed c args rest) (h : Consecutive (argsTokens args)) :
    writtenOut (argsWritten args) = argsText c (argsValue args) := by
  match args with
  | [] => rfl
  | ⟨separator, words, .star⟩ :: args =>
    obtain ⟨hseparator, ⟨t, rfl, ht⟩, hargs⟩ := hwf
    rw [argsTokens] at h
    rw [argsValue, argsText_cons, argsWritten, writtenOut_append, writtenOut_append, writtenOut_separator hseparator h,
      writtenOut_behind (by simp [glued]), behind_glued, writtenOut_mark (.inr ⟨t, rfl, ht⟩) h.tail.left,
      writtenOut_argsWritten args hargs h.tail.right, spaceBehind_eq hseparator, TypeRef.renderArg]
    simp [String.append_assoc, show String.singleton '*' = "*" from rfl]
  | ⟨separator, words, .type variance ty⟩ :: args =>
    obtain ⟨hseparator, hwords, hty, hargs⟩ := hwf
    rw [argsTokens] at h
    rw [argsValue, argsText_cons, argsWritten, writtenOut_append, writtenOut_append, writtenOut_append,
      writtenOut_separator hseparator h, writtenOut_written _ ty hty h.tail.right.left,
      writtenOut_argsWritten args hargs h.tail.right.right, spaceBehind_eq hseparator, TypeRef.renderArg]
    cases variance with
    | invariant =>
      cases hwords
      simp [Variance.marker, glued, behind, writtenOut, String.append_assoc]
    | outward | inward =>
      obtain ⟨t, rfl, ht⟩ := hwords
      rw [Token.isWord, Bool.and_eq_true, beq_iff_eq] at ht
      simp [Variance.marker, glued, behind, writtenOut, ht.2, String.append_assoc]
      rfl

end

/-! ## What is rendered is cut into tokens -/

/-- Whether the tokens are cut off one by one up to the end, and none of them goes on a name in front of them. -/
structure Follows (ts : List Token) : Prop where
  cuts : Cuts [] ts
  head : ∀ c ∈ (writtenOut ts).toList.head?, isNameChar c = false

theorem follows_nil : Follows [] := ⟨trivial, by simp [writtenOut]⟩

theorem follows_space (h : Cuts [] ({ t with gap := " " } :: ts)) : Follows ({ t with gap := " " } :: ts) := by
  refine ⟨h, ?_⟩
  rw [toList_writtenOut_cons, show " ".toList = [' '] from rfl]
  rintro _ ⟨⟩
  decide

theorem cuts_of_isMark (h : Consecutive ts) (ht : t ∈ ts) (hmark : t.isMark c) (hminus : c ≠ '-') (hslash : c ≠ '/')
    (hus : Cuts [] us) (gap : String) : Cuts [] ({ t with gap } :: us) := by
  obtain ⟨rest, hcut⟩ := h.cut ht
  have hkind : t.kind = .mark c := by simpa [Token.isMark] using hmark
  rw [hkind] at hcut
  refine ⟨?_, hus⟩
  dsimp only
  rw [hkind]
  exact hcut.mark hminus hslash _

theorem cuts_of_isName (h : Consecutive ts) (ht : t ∈ ts) (hname : t.isName) (hus : Follows us) (gap : String) :
    Cuts [] ({ t with gap } :: us) := by
  obtain ⟨rest, hcut⟩ := h.cut ht
  have hkind : t.kind = .name := by simpa [Token.isName] using hname
  rw [hkind] at hcut
  refine ⟨?_, hus.cuts⟩
  dsimp only
  rw [hkind, List.append_nil]
  exact hcut.name hus.head

theorem follows_mark (h : Consecutive ts) (ht : t ∈ ts) (hmark : t.isMark c) (hminus : c ≠ '-') (hslash : c ≠ '/')
    (hc : isNameChar c = false) (hus : Cuts [] us) : Follows (glued [t] ++ us) := by
  refine ⟨cuts_of_isMark h ht hmark hminus hslash hus "", ?_⟩
  rw [glued, List.map_singleton, List.singleton_append, toList_writtenOut_cons, h.text_of_isMark ht hmark,
    String.toList_singleton]
  rintro _ ⟨⟩
  exact hc

theorem follows_optional {mark : List Token} (h : Consecutive mark) (hmark : Optional (·.isMark c) mark) (hminus : c ≠ '-')
    (hslash : c ≠ '/') (hc : isNameChar c = false) (hus : Follows us) : Follows (glued mark ++ us) := by
  obtain rfl | ⟨t, rfl, ht⟩ := hmark
  · exact hus
  · exact follows_mark h List.mem_cons_self ht hminus hslash hc hus.cuts

theorem cuts_path {path : List Token} (hpath : IsPath path) (h : Consecutive path) (hus : Follows us) (gap : String) :
    Cuts [] (behind gap (glued path) ++ us) := by
  induction hpath generalizing gap with
  | name ht => exact cuts_of_isName h List.mem_cons_self ht hus gap
  | @dot t dot path ht hdot _ ih =>
    have hpath : Cuts [] (glued path ++ us) := by
      rw [← behind_glued]
      exact ih h.tail.tail ""
    exact cuts_of_isName h List.mem_cons_self ht
      (follows_mark h.tail List.mem_cons_self hdot (by decide) (by decide) (by decide) hpath) gap

theorem exists_written {s : TypeSyntax} {rest : List Token} (hwf : s.WellFormed rest) :
    ∃ (t : Token) (ts : List Token), (t.isName ∨ t.isMark '(') ∧ ∀ gap, s.written gap = { t with gap } :: ts := by
  cases s with
  | named annotations suspended path args close mark bound =>
    obtain ⟨-, -, hpath, -⟩ := hwf
    cases hpath with
    | name ht | dot ht => exact ⟨_, _, .inl ht, fun gap => rfl⟩
  | function annotations body nullable =>
    obtain ⟨-, ⟨t, us, rfl, ht⟩, -⟩ := hwf
    exact ⟨t.squeezed, us.map Token.squeezed, ht, fun gap => rfl⟩

mutual

theorem cuts_written (gap : String) (s : TypeSyntax) {rest us : List Token} (hwf : s.WellFormed rest)
    (h : Consecutive s.tokens) (hus : Follows us) : Cuts [] (s.written gap ++ us) := by
  cases s with
  | named annotations suspended path args close mark bound =>
    obtain ⟨-, -, hpath, hargs, hclose, hmark, -, -⟩ := hwf
    have hcore : Consecutive (path ++ (argsTokens args ++ (close ++ (mark ++ argsTokens bound)))) := h.right.right
    have hmarks : Follows (glued mark ++ us) :=
      follows_optional hcore.right.right.right.left hmark (by decide) (by decide) (by decide) hus
    have hclosing : Follows (glued close ++ (glued mark ++ us)) := by
      refine follows_optional hcore.right.right.left (c := '>') ?_ (by decide) (by decide) (by decide) hmarks
      obtain ⟨-, hnil⟩ | ⟨-, hmark⟩ := hclose
      · exact .inl hnil
      · exact .inr hmark
    have := cuts_path hpath hcore.left (follows_argsWritten args hargs (.inl rfl) hcore.right.left hclosing) gap
    simpa [written, glued] using this
  | function annotations body nullable =>
    obtain ⟨-, -, front, t, rfl, ht⟩ := hwf
    obtain ⟨tail, hcuts⟩ := h.right.cuts
    rw [written, cuts_append, cuts_behind, List.append_nil]
    exact ⟨cuts_squeezed hcuts (by simpa using ht) hus.head, hus.cuts⟩

theorem follows_argsWritten (args : List (ArgSyntax TypeSyntax)) {c : Char} {rest us : List Token}
    (hwf : ArgsWellFormed c args rest) (hc : c = '<' ∨ c = ',') (h : Consecutive (argsTokens args)) (hus : Follows us) :
    Follows (argsWritten args ++ us) := by
  match args with
  | [] => exact hus
  | ⟨separator, words, .star⟩ :: args =>
    obtain ⟨hseparator, ⟨t, rfl, ht⟩, hargs⟩ := hwf
    rw [argsTokens] at h
    rw [argsWritten, List.append_assoc, List.append_assoc]
    have hmore := follows_argsWritten args hargs (.inr rfl) h.tail.right hus
    refine follows_mark h List.mem_cons_self hseparator ?_ ?_ ?_
      (cuts_of_isMark h (List.mem_cons_of_mem _ List.mem_cons_self) ht (by decide) (by decide) hmore.cuts _) <;>
      · obtain rfl | rfl := hc <;> decide
  | ⟨separator, words, .type variance ty⟩ :: args =>
    obtain ⟨hseparator, hwords, hty, hargs⟩ := hwf
    rw [argsTokens] at h
    rw [argsWritten, List.append_assoc, List.append_assoc, List.append_assoc]
    have hmore := follows_argsWritten args hargs (.inr rfl) h.tail.right.right hus
    refine follows_mark h List.mem_cons_self hseparator ?_ ?_ ?_ ?_
    any_goals
      obtain rfl | rfl := hc <;> decide
    cases variance with
    | invariant =>
      cases hwords
      exact cuts_written _ ty hty h.tail.right.left hmore
    | outward | inward =>
      obtain ⟨t, rfl, ht⟩ := hwords
      obtain ⟨u, us, -, hwritten⟩ := exists_written hty
      have hty := cuts_written " " ty hty h.tail.right.left hmore
      rw [hwritten] at hty
      have hname : t.isName := (Bool.and_eq_true_iff.mp ht).1
      have := cuts_of_isName h (List.mem_cons_of_mem _ List.mem_cons_self) hname (follows_space hty) (spaceBehind separator)
      rw [if_neg (List.cons_ne_nil t []), hwritten]
      exact this

end

end Counterpart.Kotlin
