/-
The texts of types. Where the tokens of a type stand as they are rendered, the text that is kept of the type, and of every type in
it, is what it is rendered to (`value_rewritten`).
-/
import Counterpart.Proofs.RenderedTokens
import Counterpart.Proofs.ReadingTypes

namespace Counterpart.Kotlin

open Text Lexer TypeSyntax

variable {ts us : List Token} {t : Token}

/-! ## Types on one line -/

theorem behind_append (hts : ts ≠ []) (gap : String) (us : List Token) : behind gap (ts ++ us) = behind gap ts ++ us := by
  obtain ⟨t, ts, rfl⟩ := List.exists_cons_of_ne_nil hts
  rfl

mutual

theorem length_kept_le (s : TypeSyntax) : s.kept.length ≤ s.tokens.length := by
  cases s with
  | named annotations suspended path args close mark bound =>
    have := length_argsKept_le args
    have := length_argsKept_le bound
    simp only [kept, TypeSyntax.tokens, List.length_append]
    omega
  | function annotations body nullable => simp [kept, TypeSyntax.tokens]

theorem length_argsKept_le (args : List (ArgSyntax TypeSyntax)) : (argsKept args).length ≤ (argsTokens args).length := by
  match args with
  | [] => exact Nat.le_refl _
  | ⟨separator, words, .star⟩ :: args =>
    have := length_argsKept_le args
    simp only [argsKept, argsTokens, List.length_cons, List.length_append]
    omega
  | ⟨separator, words, .type variance ty⟩ :: args =>
    have := length_kept_le ty
    have := length_argsKept_le args
    simp only [argsKept, argsTokens, List.length_cons, List.length_append]
    omega

end

theorem length_written_le (s : TypeSyntax) (gap : String) : (s.written gap).length ≤ s.tokens.length := by
  have := length_written s gap
  have := length_kept_le s
  omega

theorem length_argsWritten_le (args : List (ArgSyntax TypeSyntax)) : (argsWritten args).length ≤ (argsTokens args).length := by
  have := length_argsWritten args
  have := length_argsKept_le args
  omega

theorem squeezed_eq (htext : ∀ c ∈ t.text.toList, isBlank c = false) (hgap : t.gap ∈ ["", " "]) : t.squeezed = t := by
  have hgap : String.ofList (squeeze false t.gap.toList) = t.gap := by
    simp only [List.mem_cons, List.not_mem_nil, or_false] at hgap
    obtain hgap | hgap := hgap <;> rw [hgap] <;> rfl
  rw [Token.squeezed, squeeze_of_not_blank htext, String.ofList_toList, hgap]

/-- Whether the tokens, without blanks in them, stand as they are rendered. -/
structure AsRendered (ts written : List Token) : Prop where
  lexemes : ts.map Token.lexeme = written.map Token.lexeme
  plain : ∀ t ∈ ts, ∀ c ∈ t.text.toList, isBlank c = false

namespace AsRendered

variable {vs ws : List Token}

theorem length_eq (h : AsRendered ts us) : ts.length = us.length := by
  simpa using congrArg List.length h.lexemes

theorem left (h : AsRendered (ts ++ us) (vs ++ ws)) (hlength : ts.length = vs.length) : AsRendered ts vs := by
  have := h.lexemes
  rw [List.map_append, List.map_append] at this
  exact ⟨(List.append_inj this (by simpa using hlength)).1, fun t ht => h.plain t (List.mem_append_left us ht)⟩

theorem right (h : AsRendered (ts ++ us) (vs ++ ws)) (hlength : ts.length = vs.length) : AsRendered us ws := by
  have := h.lexemes
  rw [List.map_append, List.map_append] at this
  exact ⟨(List.append_inj this (by simpa using hlength)).2, fun t ht => h.plain t (List.mem_append_right ts ht)⟩

theorem behind (h : AsRendered ts us) (gap : String) : AsRendered (behind gap ts) (Kotlin.behind gap us) := by
  obtain ⟨hlexemes, hplain⟩ := h
  cases ts with
  | nil =>
    cases us with
    | nil => exact ⟨rfl, hplain⟩
    | cons u us => cases hlexemes
  | cons t ts =>
    cases us with
    | nil => cases hlexemes
    | cons u us =>
      obtain ⟨hhead, htail⟩ := List.cons.inj hlexemes
      obtain ⟨hkind, htext, -⟩ := Lexeme.mk.inj hhead
      refine ⟨?_, ?_⟩
      · simp only [Kotlin.behind, List.map_cons, htail, Token.lexeme, hkind, htext]
      · intro v hv
        rcases List.mem_cons.mp hv with rfl | hv
        · exact hplain t List.mem_cons_self
        · exact hplain v (List.mem_cons_of_mem t hv)

theorem writtenOut (h : AsRendered ts us) : Kotlin.writtenOut ts = Kotlin.writtenOut us := by
  have hmap (ts : List Token) : Kotlin.writtenOut ts = String.join ((ts.map Token.lexeme).map fun e => e.gap?.getD "" ++ e.text) := by
    rw [Kotlin.writtenOut, List.map_map]
    rfl
  rw [hmap, hmap, h.lexemes]

theorem plain_written (h : AsRendered ts us) : ∀ t ∈ us, ∀ c ∈ t.text.toList, isBlank c = false := by
  intro t ht
  have hmem : t.lexeme ∈ ts.map Token.lexeme := by
    rw [h.lexemes]
    exact List.mem_map_of_mem ht
  obtain ⟨u, hu, heq⟩ := List.mem_map.mp hmem
  rw [← (Lexeme.mk.inj heq).2.1]
  exact h.plain u hu

end AsRendered

theorem head?_written {s : TypeSyntax} {rest : List Token} (hwf : s.WellFormed rest) :
    ∀ t ∈ (s.written "").head?, t.gap = "" := by
  obtain ⟨t, ts, -, hwritten⟩ := exists_written hwf
  rw [hwritten]
  rintro _ ⟨⟩
  rfl

theorem oneLine_asRendered {s : TypeSyntax} {rest : List Token} (hwf : s.WellFormed rest) (h : Consecutive s.tokens)
    (hs : AsRendered (behind "" s.tokens) (s.written "")) (hnamed : s.functions = []) :
    oneLine (Token.verbatim s.tokens) = s.value.render := by
  have hsqueezed : (s.written "").map Token.squeezed = s.written "" := by
    refine (List.map_congr_left fun t ht => ?_).trans (List.map_id _)
    obtain hgap | ⟨body, hbody, -⟩ := (lined_written s hwf h List.mem_cons_self t ht).gap
    · exact squeezed_eq (hs.plain_written t ht) hgap
    · rw [hnamed] at hbody
      cases hbody
  rw [verbatim_eq_writtenOut, hs.writtenOut, oneLine_writtenOut (cuts_render hwf h) (head?_written hwf), hsqueezed, writtenOut_written "" s hwf h,
    String.empty_append]

mutual

theorem value_rewritten (s : TypeSyntax) {rest : List Token} (hwf : s.WellFormed rest) (h : Consecutive s.tokens)
    (hs : AsRendered (behind "" s.tokens) (s.written "")) (hnamed : s.functions = []) : s.value.rewritten = s.value := by
  have htext := oneLine_asRendered hwf h hs hnamed
  cases s with
  | named annotations suspended path args close mark bound =>
    obtain ⟨-, -, hpath, hargs, hclose, hmark, -, -⟩ := hwf
    have hlength := hs.length_eq
    have hle := length_argsWritten_le args
    simp only [TypeSyntax.tokens, written, length_behind, length_glued, List.length_append] at hlength
    obtain rfl : annotations = [] := List.length_eq_zero_iff.mp (by omega)
    obtain rfl : suspended = [] := List.length_eq_zero_iff.mp (by omega)
    rw [TypeSyntax.tokens, List.nil_append, List.nil_append] at hs htext h
    rw [behind_append hpath.ne_nil, written] at hs
    have hsame := (hs.right (by simp [length_behind, length_glued])).left (by omega)
    rw [value, List.nil_append] at htext ⊢
    rw [TypeRef.rewritten, argsValue_rewritten args hargs h.right.left hsame hnamed, ← htext]
  | function annotations body nullable => rw [value, TypeRef.rewritten]

theorem argsValue_rewritten (args : List (ArgSyntax TypeSyntax)) {c : Char} {rest : List Token}
    (hwf : ArgsWellFormed c args rest) (h : Consecutive (argsTokens args))
    (hs : AsRendered (argsTokens args) (argsWritten args)) (hnamed : argsFunctions args = []) :
    TypeRef.rewrittenArgs (argsValue args) = argsValue args := by
  match args with
  | [] => rfl
  | ⟨separator, words, .star⟩ :: args =>
    obtain ⟨-, -, hargs⟩ := hwf
    rw [argsTokens] at h
    change AsRendered ([separator] ++ (words ++ argsTokens args))
      (glued [separator] ++ (behind (spaceBehind separator) (glued words) ++ argsWritten args)) at hs
    have hmore := (hs.right rfl).right (by rw [length_behind, length_glued])
    rw [argsValue, TypeRef.rewrittenArgs, argsValue_rewritten args hargs h.tail.right hmore hnamed]
    rfl
  | ⟨separator, words, .type variance ty⟩ :: args =>
    obtain ⟨-, -, hty, hargs⟩ := hwf
    rw [argsFunctions, List.append_eq_nil_iff] at hnamed
    rw [argsTokens] at h
    let gap := if words = [] then spaceBehind separator else " "
    change AsRendered ([separator] ++ (words ++ (ty.tokens ++ argsTokens args)))
      (glued [separator] ++ (behind (spaceBehind separator) (glued words) ++ (ty.written gap ++ argsWritten args))) at hs
    have hboth := (hs.right rfl).right (by rw [length_behind, length_glued])
    have hlength : ty.tokens.length = (ty.written gap).length := by
      have hlength := hboth.length_eq
      have := length_written_le ty gap
      have := length_argsWritten_le args
      rw [List.length_append, List.length_append] at hlength
      omega
    have hfirst := (hboth.left hlength).behind ""
    obtain ⟨t, ts, -, hwritten⟩ := exists_written hty
    rw [hwritten] at hfirst
    rw [argsValue, TypeRef.rewrittenArgs, argsValue_rewritten args hargs h.tail.right.right (hboth.right hlength) hnamed.2,
      TypeRef.rewrittenArg, value_rewritten ty hty h.tail.right.left (by rw [hwritten]; exact hfirst) hnamed.1]

end

end Counterpart.Kotlin
