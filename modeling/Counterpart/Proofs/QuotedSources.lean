/-
Sources with names quoted are read like the ones without the quotes: what is declared is called the same, and the names in types
and import directives stand in the same places, quoted or not (`SourceUnit.ofSource_quoteSource`).
-/
import Counterpart.Proofs.Phrases
import Counterpart.Proofs.Quoting

namespace Counterpart.Kotlin

open Text Lexer

/-- The text of a name, and the same text or, for a plain name that no reader looks for, that text between backticks. -/
inductive Requoted : String → String → Prop
  | same {s : String} (h : IsNameText s) : Requoted s s
  | quoted {s : String} (hplain : Name.isPlain s) (hword : s ∉ askedWords) : Requoted s ("`" ++ s ++ "`")

theorem toList_quoted (s : String) : ("`" ++ s ++ "`").toList = '\x60' :: (s.toList ++ ['\x60']) := by simp

theorem ne_quoted_of_isPlain {s w : String} (hw : Name.isPlain w) : "`" ++ s ++ "`" ≠ w := by
  rintro rfl
  exact ne_quote_of_isPlain hw '\x60' (by rw [toList_quoted]; rfl) rfl

theorem isPlain_of_mem_askedWords {w : String} (h : w ∈ askedWords) : Name.isPlain w = true := by
  have hall : askedWords.all Name.isPlain = true := by decide +kernel
  exact List.all_eq_true.mp hall w h

theorem isPlain_of_mem_modifierWords {w : String} (h : w ∈ modifierWords) : Name.isPlain w = true := by
  have hall : modifierWords.all Name.isPlain = true := by decide +kernel
  exact List.all_eq_true.mp hall w h

instance : Spelling Requoted where
  word h hw := by
    cases h with
    | same => rfl
    | quoted _ hword =>
      exact ⟨fun h => absurd h (ne_quoted_of_isPlain (isPlain_of_mem_askedWords hw)), fun h => absurd (h ▸ hw) hword⟩
  unquote h := by
    cases h with
    | same => rfl
    | quoted hplain _ => rw [unquote_quoted (toList_quoted _), String.ofList_toList, unquote_of_isPlain hplain]

/-! ## Tokens in step -/

variable {chosen : Nat → Bool} {ts us : List Token}

/-- A token in front of `ts` and what stands in its place when names are quoted. -/
structure Token.QuotedAs (t : Token) (ts : List Token) (u : Token) : Prop where
  kind : u.kind = t.kind
  gap : u.gap = t.gap
  text : u.text = t.text ∨ t.isQuotable ts = true ∧ u.text = "`" ++ t.text ++ "`"

theorem Token.quotedAs_of_lexeme {t u : Token}
    (h : u.lexeme = (if chosen 0 && t.isQuotable ts then t.quote else t).lexeme) : t.QuotedAs ts u := by
  simp only [lexeme, Lexeme.mk.injEq, Option.some.injEq] at h
  obtain ⟨hkind, htext, hgap⟩ := h
  split at hkind
  next hchosen =>
    rw [if_pos hchosen] at htext hgap
    exact ⟨hkind, hgap, .inr ⟨(Bool.and_eq_true_iff.mp hchosen).2, htext⟩⟩
  next hchosen =>
    rw [if_neg hchosen] at htext hgap
    exact ⟨hkind, hgap, .inl htext⟩

namespace Token.QuotedAs

variable {t u w : Token}

theorem alike (h : t.QuotedAs ts u) (hname : t.kind = .name → IsNameText t.text) : t.Alike Requoted u where
  kind := h.kind
  name ht := by
    obtain htext | ⟨hquotable, htext⟩ := h.text
    · rw [htext]
      exact .same (hname (beq_iff_eq.mp ht))
    · obtain ⟨-, hplain, hword, -⟩ := isQuotable_iff.mp hquotable
      rw [htext]
      exact .quoted hplain hword
  other ht := by
    obtain htext | ⟨hquotable, -⟩ := h.text
    · exact htext
    · rw [(isQuotable_iff.mp hquotable).1] at ht
      cases ht

/-- A modifier is never quoted, and no name between backticks is one. -/
theorem text_of_modifier (h : t.QuotedAs (w :: ts) u) (hw : (w.isName || w.isMark '@') = true)
    (hword : t.text ∈ modifierWords ∨ u.text ∈ modifierWords) : u.text = t.text := by
  obtain htext | ⟨hquotable, htext⟩ := h.text
  · exact htext
  rcases hword with hword | hword
  · obtain ⟨hname, -, -, hmodifier⟩ := isQuotable_iff.mp hquotable
    rw [isModifier, List.head?_cons, Option.any_some, hw, hname, List.contains_iff_mem.mpr hword] at hmodifier
    cases hmodifier
  · exact absurd htext.symm (ne_quoted_of_isPlain (isPlain_of_mem_modifierWords hword))

end Token.QuotedAs

/-- The tokens of a source and those of the source with names quoted, side by side. -/
theorem exists_quotedTwins (hnames : ∀ t ∈ ts, t.kind = .name → IsNameText t.text)
    (h : us.map Token.lexeme = (quoteTokens chosen ts).map Token.lexeme) :
    ∃ Z : List (Twin Requoted), lefts Z = ts ∧ rights Z = us ∧ (∀ z ∈ Z, z.right.gap = z.left.gap) ∧
      ∀ z vs, z :: vs <:+ Z → z.left.QuotedAs (lefts vs) z.right := by
  induction ts generalizing chosen us with
  | nil =>
    rw [quoteTokens, List.map_nil, List.map_eq_nil_iff] at h
    subst h
    exact ⟨[], rfl, rfl, List.forall_mem_nil _, fun z vs hsuffix => by simp at hsuffix⟩
  | cons t ts ih =>
    rw [quoteTokens, List.map_cons] at h
    obtain ⟨u, us, rfl, hu, hus⟩ := List.map_eq_cons_iff.mp h
    obtain ⟨Z, rfl, rfl, hgaps, hquoted⟩ := ih (fun v hv => hnames v (List.mem_cons_of_mem t hv)) hus
    have htoken := Token.quotedAs_of_lexeme hu
    obtain ⟨hkind, hname, hother⟩ := htoken.alike (hnames t List.mem_cons_self)
    refine ⟨⟨t, u, hkind, hname, hother⟩ :: Z, rfl, rfl, ?_, fun z vs hsuffix => ?_⟩
    · exact List.forall_mem_cons.mpr ⟨htoken.gap, hgaps⟩
    · obtain heq | hsuffix := List.suffix_cons_iff.mp hsuffix
      · cases heq
        exact htoken
      · exact hquoted z vs hsuffix

/-! ## Sources -/

/-- **A source with names quoted** declares the same but for the spelling of the names in types and directives. -/
theorem SourceUnit.ofSource_quoteSource {source : String} {u : SourceUnit} (h : SourceUnit.ofSource source = .ok u)
    (chosen : Nat → Bool) : ∃ u', SourceUnit.ofSource (quoteSource chosen source) = .ok u' ∧ u.Alike Requoted u' := by
  obtain ⟨s, hs, hu⟩ := SourceUnit.ofSource_ok h
  obtain ⟨s', hs', hlexemes⟩ := TokenStream.ofSource_quoteSource hs chosen
  obtain ⟨Z, hleft, hright, hgaps, hquoted⟩ := exists_quotedTwins (fun t => isNameText_of_mem_stream hs) hlexemes
  have haligned : Aligned Z := by
    constructor
    · intro z hz
      rw [Token.isAdjacent, Token.isAdjacent, hgaps z (List.mem_of_mem_tail hz)]
    · intro z w vs hsuffix hw hword
      exact (hquoted z (w :: vs) hsuffix).text_of_modifier hw hword
  have hrun := ofTokens_together haligned
  rw [hleft, hright, hu] at hrun
  rw [SourceUnit.ofSource, hs']
  change ∃ u', (SourceUnit.ofTokens s'.tokens).mapError (Fault.toError s'.size) = .ok u' ∧ _
  generalize SourceUnit.ofTokens s'.tokens = y at hrun
  cases hrun with
  | ok halike => exact ⟨_, rfl, halike.1⟩

end Counterpart.Kotlin
