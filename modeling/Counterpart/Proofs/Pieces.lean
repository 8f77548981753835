/-
Layout does not change the tokens. `Piece` says what a text on a line is cut into, `Written` what fragments are cut into at
whatever level they stand; a list in parentheses has the same tokens on one line and on several, but for the comma behind the
last item.
-/
import Counterpart.Proofs.Lexemes
import Counterpart.Code.Layout

namespace Counterpart.Code

open Kotlin Text Lexer
open List (Forall₂)

/-- Whether a text is cut into these tokens in front of what separates. -/
def Piece (text : String) (es : List Lexeme) : Prop :=
  ∀ cs us, Separates cs → Lexes cs us → Lexes (text.toList ++ cs) (es ++ us)

/-- Whether a text is cut into these tokens in front of anything. -/
def Block (text : String) (es : List Lexeme) : Prop :=
  ∀ cs us, Lexes cs us → Lexes (text.toList ++ cs) (es ++ us)

/-- Whether fragments are cut into these tokens at every level, however that is indented. -/
def Written (fs : List Fragment) (es : List Lexeme) : Prop :=
  ∀ i level cs us, Lexes cs us → Lexes ((Fragment.renderAll i level fs).toList ++ cs) (es ++ us)

/-! ## Blocks -/

namespace Block

variable {text text' : String} {es es' : List Lexeme}

theorem empty : Block "" [] := fun _ _ h => h

theorem append (h : Block text es) (h' : Block text' es') : Block (text ++ text') (es ++ es') := by
  intro cs us hus
  rw [String.toList_append, List.append_assoc, List.append_assoc]
  exact h _ _ (h' cs us hus)

theorem newline : Block "\n" [] := fun _ _ h => .blank (by decide) h

end Block

/-! ## Fragments -/

theorem separates_cons {c : Char} (hc : isNameChar c = false ∧ c ∉ ['.', '"', '>', '/', '*']) (cs : List Char) :
    Separates (c :: cs) := by
  rintro _ ⟨⟩
  exact hc

theorem isBlank_of_mem_indent {i : Indent} {level : Nat} {c : Char}
    (hc : c ∈ (String.join (List.replicate level i.text)).toList) : isBlank c := by
  induction level with
  | zero => cases hc
  | succ level ih =>
    rw [List.replicate_succ, String.join_cons, String.toList_append, List.mem_append] at hc
    rcases hc with hc | hc
    · have hblank : i.text.toList.all isBlank := by
        rw [Indent.text.eq_def]
        split <;> decide
      exact List.all_eq_true.mp hblank c hc
    · exact ih hc

theorem Fragment.renderAll_append (i : Indent) (level : Nat) (fs gs : List Fragment) :
    renderAll i level (fs ++ gs) = renderAll i level fs ++ renderAll i level gs := by
  induction fs with
  | nil => simp [renderAll]
  | cons f fs ih => rw [List.cons_append, renderAll, renderAll, ih, String.append_assoc]

namespace Written

variable {fs gs : List Fragment} {es es' : List Lexeme}

theorem nil : Written [] [] := by
  intro i level cs us h
  simpa [Fragment.renderAll] using h

theorem append (hfs : Written fs es) (hgs : Written gs es') : Written (fs ++ gs) (es ++ es') := by
  intro i level cs us h
  rw [Fragment.renderAll_append, String.toList_append, List.append_assoc, List.append_assoc]
  exact hfs i level _ _ (hgs i level cs us h)

theorem blank : Written [.blank] [] := by
  intro i level cs us h
  have : (Fragment.renderAll i level [.blank]).toList = ['\n'] := by simp [Fragment.renderAll, Fragment.render]
  rw [this]
  exact .blank (by decide) h

theorem indented (h : Written fs es) : Written [.indented fs] es := by
  intro i level cs us hcs
  have := h i (level + 1) cs us hcs
  simpa [Fragment.renderAll, Fragment.render] using this

theorem sequence (h : Written fs es) : Written [.sequence fs] es := by
  intro i level cs us hcs
  have := h i level cs us hcs
  simpa [Fragment.renderAll, Fragment.render] using this

theorem line {text : String} (h : Piece text es) : Written [.line text] es := by
  intro i level cs us hcs
  have hline := h ('\n' :: cs) us (separates_cons (by decide) cs) (.blank (by decide) hcs)
  rw [Fragment.renderAll, Fragment.render, Fragment.renderAll, String.append_empty, lineText]
  split
  next hempty =>
    rw [String.isEmpty_iff] at hempty
    subst hempty
    exact hline
  next =>
    simp only [String.toList_append, List.append_assoc]
    exact .blanks (fun c hc => isBlank_of_mem_indent hc) hline

theorem separated {fss : List (List Fragment)} {ess : List (List Lexeme)} (h : Forall₂ Written fss ess) :
    Written (Fragment.separated fss) ess.flatten := by
  induction h with
  | nil => exact nil
  | @cons fs es fss ess hfs hfss ih =>
    cases hfss with
    | nil =>
      rw [List.flatten_cons, List.flatten_nil, List.append_nil]
      exact hfs
    | cons =>
      rw [Fragment.separated, List.flatten_cons]
      · exact hfs.append (blank.append ih)
      · exact List.cons_ne_nil _ _

theorem lines {texts : List String} {ess : List (List Lexeme)} (h : Forall₂ Piece texts ess) :
    Written (texts.map .line) ess.flatten := by
  induction h with
  | nil => exact nil
  | cons htext _ ih => exact (line htext).append ih

end Written

/-! ## Lists -/

/-- Items with a comma between each two, and one behind the last if it trails. -/
def commaLexemes (trailing : Bool) : List (List Lexeme) → List Lexeme
  | [] => []
  | [e] => e ++ if trailing then [.mark ','] else []
  | e :: es => e ++ .mark ',' :: commaLexemes trailing es

theorem commaLexemes_cons {trailing : Bool} {ess : List (List Lexeme)} (h : trailing = true ∨ ess ≠ []) (es : List Lexeme) :
    commaLexemes trailing (es :: ess) = es ++ .mark ',' :: commaLexemes trailing ess := by
  cases ess with
  | nil =>
    rcases h with rfl | h
    · rfl
    · exact absurd rfl h
  | cons => rfl

theorem commaLexemes_true (ess : List (List Lexeme)) : commaLexemes true ess = (ess.map (· ++ [.mark ','])).flatten := by
  induction ess with
  | nil => rfl
  | cons es ess ih =>
    rw [commaLexemes_cons (.inl rfl), ih]
    simp

theorem piece_join {texts : List String} {ess : List (List Lexeme)} (h : Forall₂ Piece texts ess) :
    Piece (join ", " texts) (commaLexemes false ess) := by
  induction h with
  | nil => exact fun cs us _ h => h
  | @cons text es texts ess htext htexts ih =>
    intro cs us hcs h
    cases htexts with
    | nil => simpa [join, commaLexemes] using htext cs us hcs h
    | cons =>
      rw [join_cons (List.cons_ne_nil _ _), commaLexemes]
      · simp only [String.toList_append, List.append_assoc]
        exact htext _ _ (separates_cons (by decide) _) (.mark (by decide) (.blank (by decide) (ih cs us hcs h)))
      · exact List.cons_ne_nil _ _

namespace Piece

variable {text text' : String} {es es' : List Lexeme}

/-- A piece with a text behind it that starts with a mark. -/
theorem append_mark {c : Char} (h : Piece text es) (hc : c ∈ ['(', ')', '\x7b', '\x7d', ':', ',', ';', '<'])
    (h' : Piece text' es') : Piece (text ++ (String.singleton c ++ text')) (es ++ .mark c :: es') := by
  have hmark : isNameChar c = false ∧ c ∉ ['.', '"', '>', '/', '*'] ∧
      c ∈ ['(', ')', '\x7b', '\x7d', ':', ',', ';', '.', '<', '>', '?', '*', '='] := by
    simp only [List.mem_cons, List.not_mem_nil, or_false] at hc
    rcases hc with rfl | rfl | rfl | rfl | rfl | rfl | rfl | rfl <;> decide
  intro cs us hcs hus
  simp only [String.toList_append, String.toList_singleton, List.append_assoc]
  exact h _ _ (separates_cons ⟨hmark.1, hmark.2.1⟩ _) (.mark hmark.2.2 (h' cs us hcs hus))

theorem empty : Piece "" [] := fun _ _ _ h => h

/-- A piece with a mark behind it. -/
theorem mark_behind {c : Char} (h : Piece text es) (hc : c ∈ ['(', ')', '\x7b', '\x7d', ':', ',', ';', '<']) :
    Piece (text ++ String.singleton c) (es ++ [.mark c]) := by
  simpa using h.append_mark hc empty

end Piece

/-- Whether the lines of an item are cut into these tokens. -/
def Item (lines : List String) (es : List Lexeme) : Prop :=
  lines ≠ [] ∧ ∃ ess, Forall₂ Piece lines ess ∧ ess.flatten = es

namespace Item

variable {lines : List String} {es : List Lexeme}

theorem single {text : String} (h : Piece text es) : Item [text] es :=
  ⟨List.cons_ne_nil _ _, [es], .cons h .nil, by simp⟩

/-- An item on one line, when no line of it runs into the one before. -/
theorem join (h : Item lines es) (hlines : ∀ line ∈ lines.tail, line ≠ "" ∧ Separates line.toList) : Piece (String.join lines) es := by
  obtain ⟨hne, ess, hess, rfl⟩ := h
  induction hess with
  | nil => exact absurd rfl hne
  | @cons line es lines ess hline hrest ih =>
    cases hrest with
    | nil => simpa using hline
    | @cons next es' lines ess' =>
      rw [List.tail_cons] at hlines
      obtain ⟨hnext, hseparates⟩ := hlines next List.mem_cons_self
      have htail := ih (fun line h => hlines line (List.mem_of_mem_tail h)) (List.cons_ne_nil _ _)
      intro cs us hcs hus
      rw [String.join_cons, List.flatten_cons, String.toList_append, List.append_assoc, List.append_assoc]
      refine hline _ _ ?_ (htail cs us hcs hus)
      rw [String.join_cons, String.toList_append, List.append_assoc]
      obtain ⟨c, ds, hds⟩ := List.exists_cons_of_ne_nil (by simpa using hnext : next.toList ≠ [])
      rw [hds] at hseparates ⊢
      exact hseparates

/-- An item on lines of its own, with a comma behind it. -/
theorem written (h : Item lines es) : Written ((Listing.withComma lines).map .line) (es ++ [.mark ',']) := by
  obtain ⟨hne, ess, hess, rfl⟩ := h
  induction hess with
  | nil => exact absurd rfl hne
  | @cons line es lines ess hline hlines ih =>
    cases hlines with
    | nil =>
      rw [List.flatten_cons, List.flatten_nil, List.append_nil]
      exact .line (hline.mark_behind (c := ',') (by decide))
    | cons =>
      rw [Listing.withComma, List.map_cons, List.flatten_cons, List.append_assoc]
      · exact (Written.line hline).append (ih (List.cons_ne_nil _ _))
      · exact List.cons_ne_nil _ _

end Item

/-- Items in parentheses, one behind the other. -/
theorem written_flat {before after : String} {items : List (List String)} {bs as : List Lexeme} {ess : List (List Lexeme)}
    (hbefore : Piece before bs) (htexts : Forall₂ (fun lines es => Piece (String.join lines) es) items ess) (hafter : Piece after as) :
    Written [.line (Listing.mk before items after).flat] (bs ++ .mark '(' :: (commaLexemes false ess ++ .mark ')' :: as)) := by
  have hflat : (Listing.mk before items after).flat =
      before ++ (String.singleton '(' ++ (join ", " (items.map String.join) ++ (String.singleton ')' ++ after))) := by
    rw [Listing.flat]
    simp only [String.append_assoc]
    rfl
  have hjoin := piece_join (List.forall₂_map_left_iff.mpr htexts)
  rw [hflat]
  exact .line (hbefore.append_mark (by decide) (hjoin.append_mark (by decide) hafter))

/-- Items in parentheses, each on lines of its own. -/
theorem written_broken {before after : String} {items : List (List String)} {bs as : List Lexeme} {ess : List (List Lexeme)}
    (hbefore : Piece before bs) (hitems : Forall₂ Item items ess) (hafter : Piece after as) :
    Written (Listing.mk before items after).broken (bs ++ .mark '(' :: (commaLexemes true ess ++ .mark ')' :: as)) := by
  rw [commaLexemes_true]
  have hlines : Written ((items.flatMap Listing.withComma).map .line) (ess.map (· ++ [.mark ','])).flatten := by
    induction hitems with
    | nil => exact .nil
    | cons hitem _ ih =>
      rw [List.flatMap_cons, List.map_append, List.map_cons, List.flatten_cons]
      exact hitem.written.append ih
  have hopen : Written [.line (before ++ String.singleton '(')] (bs ++ [.mark '(']) :=
    .line (hbefore.mark_behind (by decide))
  have hclose : Written [.line (String.singleton ')' ++ after)] (.mark ')' :: as) := by
    have := Piece.empty.append_mark (c := ')') (by decide) hafter
    rw [String.empty_append] at this
    exact .line this
  have hwritten := hopen.append (hlines.sequence.indented.append hclose)
  rw [Listing.broken]
  rw [List.append_assoc] at hwritten
  exact hwritten

/-- Items in parentheses, on as many lines as they take. -/
theorem written_listing {before after : String} {items : List (List String)} {bs as : List Lexeme} {ess : List (List Lexeme)}
    (hbefore : Piece before bs) (hitems : Forall₂ Item items ess) (hafter : Piece after as) :
    Written (Listing.mk before items after).fragments
      (bs ++ .mark '(' :: (commaLexemes (!(Listing.mk before items after).fits) ess ++ .mark ')' :: as)) := by
  rw [Listing.fragments]
  split
  next hfits =>
    have hlength : ∀ lines ∈ items, lines.length ≤ 1 := by
      rw [Listing.fits, Bool.or_eq_true, List.isEmpty_iff, Bool.and_eq_true, List.all_eq_true] at hfits
      rcases hfits with hnone | ⟨hall, -⟩
      · dsimp only at hnone
        simp [hnone]
      · intro lines hlines
        simpa using hall lines hlines
    have htexts : Forall₂ (fun lines es => Piece (String.join lines) es) items ess :=
      ((List.forall₂_and_left items ess).mpr ⟨hlength, hitems⟩).imp fun lines es ⟨hone, hitem⟩ => hitem.join <| by
        have hnone : lines.tail = [] := List.length_eq_zero_iff.mp (by rw [List.length_tail]; omega)
        simp [hnone]
    rw [hfits]
    exact written_flat hbefore htexts hafter
  next hfits =>
    rw [Bool.not_eq_true] at hfits
    rw [hfits]
    exact written_broken hbefore hitems hafter

end Counterpart.Code
