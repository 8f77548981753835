/-
Texts on one line. `squeeze` makes one space of every run of blanks; so does `oneLine` with a text that has no blanks at its ends
(`oneLine_eq_squeeze`). The tokens of a text are then its tokens squeezed, up to the first line comment, which goes on to the
end: no line ends any more.
-/
import Counterpart.Proofs.Recutting

namespace Counterpart.Kotlin

open Text Lexer

/-! ## Squeezing -/

/-- Every run of blanks made one space; none at the start where a blank stands before the text. -/
def squeeze : (behind : Bool) → List Char → List Char
  | _, [] => []
  | behind, c :: cs =>
    if isBlank c then if behind then squeeze true cs else ' ' :: squeeze true cs
    else c :: squeeze false cs

/-- Whether a blank stands at the end of a text, or before it when it is empty. -/
def endsBlank (behind : Bool) (cs : List Char) : Bool :=
  (cs.getLast?.map isBlank).getD behind

theorem squeeze_condensed (behind : Bool) (cs : List Char) : Condensed behind cs (squeeze behind cs) := by
  induction cs generalizing behind with
  | nil => exact .nil
  | cons c cs ih =>
    rw [squeeze]
    split
    next hc =>
      split
      next hbehind => exact hbehind ▸ .skip hc (ih true)
      next => exact .blank hc (.inr rfl) (ih true)
    next hc => exact .char (by simpa using hc) (ih false)

theorem not_mem_squeeze (behind : Bool) (cs : List Char) : '\n' ∉ squeeze behind cs := by
  induction cs generalizing behind with
  | nil => simp [squeeze]
  | cons c cs ih =>
    rw [squeeze]
    split
    · split <;> simp [ih]
    next hc =>
      have : '\n' ≠ c := by
        rintro rfl
        exact hc (by decide)
      simp [this, ih]

theorem endsBlank_cons (behind : Bool) (c : Char) (cs : List Char) : endsBlank behind (c :: cs) = endsBlank (isBlank c) cs := by
  cases cs with
  | nil => rfl
  | cons d ds => simp [endsBlank, List.getLast?_cons]

theorem squeeze_append (behind : Bool) (cs ds : List Char) :
    squeeze behind (cs ++ ds) = squeeze behind cs ++ squeeze (endsBlank behind cs) ds := by
  induction cs generalizing behind with
  | nil => rfl
  | cons c cs ih =>
    rw [List.cons_append, squeeze, squeeze, endsBlank_cons, ih, ih]
    cases isBlank c <;> cases behind <;> rfl

/-- In front of a character that is no blank it does not matter what stands before it. -/
theorem squeeze_behind {cs : List Char} (hcs : ∀ c ∈ cs.head?, isBlank c = false) (behind : Bool) :
    squeeze behind cs = squeeze false cs := by
  cases cs with
  | nil => rfl
  | cons c cs => simp [squeeze, hcs c rfl]

theorem squeeze_of_not_blank {cs : List Char} (hcs : ∀ c ∈ cs, isBlank c = false) (behind : Bool) : squeeze behind cs = cs :=
  (squeeze_condensed behind cs).eq_of_not_blank hcs

theorem squeeze_ne_nil {cs : List Char} (hne : cs ≠ []) (hlast : ∀ c ∈ cs.getLast?, isBlank c = false) (behind : Bool) :
    squeeze behind cs ≠ [] := by
  obtain ⟨front, c, rfl⟩ := (List.eq_nil_or_concat cs).resolve_left hne
  have hc : isBlank c = false := hlast c (by simp)
  simp [squeeze_append, squeeze, hc]

/-! ## Words -/

/-- Words with one space between them, where the empty ones are left out. -/
def joinWords (ws : List (List Char)) : List Char := joinBy [' '] (ws.filter (· ≠ []))

theorem joinWords_cons {w : List Char} (hw : w ≠ []) (ws : List (List Char)) :
    joinWords (w :: ws) = w ++ if ws.filter (· ≠ []) = [] then [] else ' ' :: joinWords ws := by
  rw [joinWords, List.filter_cons_of_pos (by simpa using hw), joinWords]
  cases ws.filter (· ≠ []) <;> simp [joinBy]

theorem squeeze_words {cs w : List Char} {ws : List (List Char)} (hlast : ∀ c ∈ cs.getLast?, isBlank c = false)
    (h : splitBy isBlank cs = w :: ws) : squeeze true cs = joinWords (w :: ws) ∧
      squeeze false cs = w ++ if ws.filter (· ≠ []) = [] then [] else ' ' :: joinWords ws := by
  induction cs generalizing w ws with
  | nil =>
    cases h
    exact ⟨rfl, rfl⟩
  | cons c cs ih =>
    obtain ⟨v, vs, hsplit⟩ := List.exists_cons_of_ne_nil (splitBy_ne_nil isBlank cs)
    have hlast' : ∀ d ∈ cs.getLast?, isBlank d = false := by
      intro d hd
      exact hlast d (by rw [List.getLast?_cons, Option.mem_def.mp hd]; rfl)
    obtain ⟨hbehind, hfront⟩ := ih hlast' hsplit
    rw [splitBy, hsplit] at h
    cases hc : isBlank c with
    | true =>
      rw [hc, if_pos rfl] at h
      cases h
      have hcs : cs ≠ [] := by
        rintro rfl
        rw [hlast c rfl] at hc
        cases hc
      have hne : (v :: vs).filter (· ≠ []) ≠ [] := by
        intro hnil
        exact squeeze_ne_nil hcs hlast' true (by rw [hbehind, joinWords, hnil]; rfl)
      rw [squeeze, squeeze, hc, if_neg hne, ← hbehind]
      exact ⟨by rw [joinWords, List.filter_cons_of_neg (by simp)]; exact hbehind, rfl⟩
    | false =>
      rw [hc, if_neg Bool.false_ne_true] at h
      cases h
      rw [joinWords_cons (List.cons_ne_nil c v), squeeze, squeeze, hc, hfront]
      exact ⟨rfl, rfl⟩

/-- A text that begins and ends without a blank. -/
theorem oneLine_eq_squeeze {s : String} (hhead : ∀ c ∈ s.toList.head?, isBlank c = false)
    (hlast : ∀ c ∈ s.toList.getLast?, isBlank c = false) : (oneLine s).toList = squeeze false s.toList := by
  obtain ⟨w, ws, hsplit⟩ := List.exists_cons_of_ne_nil (splitBy_ne_nil isBlank s.toList)
  have hjoin : (oneLine s).toList = joinWords (w :: ws) := by
    rw [oneLine, toList_join, words, hsplit, List.map_map, joinWords]
    have : (String.toList ∘ String.ofList : List Char → List Char) = id := by
      funext cs
      exact String.toList_ofList
    rw [this, List.map_id]
    rfl
  rw [hjoin, ← (squeeze_words hlast hsplit).1, squeeze_behind hhead]

/-! ## Gaps on one line -/

theorem head?_of_squeeze {cs : List Char} {c : Char} (hc : isBlank c = false) (h : (squeeze false cs).head? = some c) :
    cs.head? = some c := by
  cases cs with
  | nil => simp [squeeze] at h
  | cons d ds =>
    rw [squeeze] at h
    split at h
    · rw [if_neg Bool.false_ne_true, List.head?_cons] at h
      cases h
      simp [show isBlank ' ' = true by decide] at hc
    · exact h

theorem Lexer.BlockComment.squeeze {cs : List Char} (h : BlockComment cs) (behind : Bool) : BlockComment (squeeze behind cs) := by
  induction h generalizing behind with
  | close =>
    rw [squeeze_of_not_blank (List.forall_mem_cons.mpr ⟨by decide, List.forall_mem_singleton.mpr (by decide)⟩)]
    exact .close
  | @nested inner cs _ _ ih₁ ih₂ =>
    have : Kotlin.squeeze behind ('/' :: '*' :: (inner ++ cs)) =
        '/' :: '*' :: (Kotlin.squeeze false inner ++ Kotlin.squeeze (endsBlank false inner) cs) := by
      rw [← squeeze_append]
      rfl
    rw [this]
    exact .nested (ih₁ false) (ih₂ _)
  | @char c cs hopen hclose _ ih =>
    rw [Kotlin.squeeze]
    split
    · split
      · exact ih true
      · exact .char (by simp) (by simp) (ih true)
    next hc =>
      rw [Bool.not_eq_true] at hc
      refine .char ?_ ?_ (ih false)
      · intro hslash hhead
        exact hopen hslash (head?_of_squeeze (by decide) hhead)
      · intro hstar hhead
        exact hclose hstar (head?_of_squeeze (by decide) hhead)

theorem Lexer.InlineGap.squeeze {cs : List Char} (h : InlineGap cs) (behind : Bool) : InlineGap (squeeze behind cs) := by
  induction h generalizing behind with
  | nil => exact .nil
  | blank hc _ ih =>
    rw [Kotlin.squeeze, if_pos hc]
    split
    · exact ih true
    · exact .blank (by decide) (ih true)
  | @block comment cs hcomment _ ih =>
    have : Kotlin.squeeze behind ('/' :: '*' :: (comment ++ cs)) =
        '/' :: '*' :: (Kotlin.squeeze false comment ++ Kotlin.squeeze (endsBlank false comment) cs) := by
      rw [← squeeze_append]
      rfl
    rw [this]
    exact .block (hcomment.squeeze false) (ih _)

theorem Lexer.Commented.squeeze {cs : List Char} (h : Commented cs) (behind : Bool) : Commented (squeeze behind cs) := by
  obtain ⟨front, rest, rfl, hfront⟩ := h
  refine ⟨_, Kotlin.squeeze false rest, ?_, hfront.squeeze behind⟩
  rw [squeeze_append]
  rfl

/-! ## Tokens on one line -/

/-- The token with its text and its gap on one line. -/
def Token.squeezed (t : Token) : Token :=
  { t with text := .ofList (squeeze false t.text.toList), gap := .ofList (squeeze false t.gap.toList) }

theorem Lexer.Cut.endsBlank {kind : TokenKind} {text rest : List Char} (h : Cut kind text rest) (behind : Bool) :
    endsBlank behind text = false := by
  obtain ⟨c, cs, rfl, -⟩ := h.lexeme
  have := h.last
  rw [Kotlin.endsBlank]
  rw [List.getLast?_cons] at this ⊢
  exact this _ rfl

theorem Lexer.Cuts.last {tail : List Char} {ts : List Token} (h : Cuts tail ts) :
    ∀ c ∈ (writtenOut ts).toList.getLast?, isBlank c = false := by
  induction ts with
  | nil => simp [writtenOut]
  | cons t ts ih =>
    obtain ⟨hcut, hcuts⟩ := h
    obtain ⟨d, cs, htext, -⟩ := hcut.lexeme
    have hsome : t.text.toList.getLast?.isSome := by simp [htext]
    intro c hc
    rw [toList_writtenOut_cons, List.getLast?_append, List.getLast?_append, Option.or_assoc, Option.or_of_isSome hsome,
      Option.mem_def, Option.or_eq_some_iff] at hc
    obtain hlast | ⟨-, hlast⟩ := hc
    · exact ih hcuts c hlast
    · exact hcut.last c hlast

theorem squeeze_writtenOut {tail : List Char} {ts : List Token} (h : Cuts tail ts) :
    squeeze false (writtenOut ts).toList = (writtenOut (ts.map Token.squeezed)).toList := by
  induction ts with
  | nil => rfl
  | cons t ts ih =>
    obtain ⟨hcut, hcuts⟩ := h
    have hstart : ∀ c ∈ (t.text.toList ++ (writtenOut ts).toList).head?, isBlank c = false := by
      obtain ⟨c, cs, htext, -⟩ := hcut.lexeme
      rw [htext]
      rintro _ ⟨⟩
      exact hcut.blank c (by rw [htext]; rfl)
    rw [List.map_cons, toList_writtenOut_cons, toList_writtenOut_cons, squeeze_append, squeeze_behind hstart, squeeze_append,
      hcut.endsBlank, ih hcuts]
    simp [Token.squeezed]

theorem resembles_squeeze {cs : List Char} (hne : cs ≠ []) (hdot : cs ≠ ['.']) (tail tail' : List Char) :
    Resembles (cs ++ tail) (squeeze false cs ++ tail') := by
  obtain ⟨c, cs, rfl⟩ := List.exists_cons_of_ne_nil hne
  rw [squeeze]
  split
  · rintro _ ⟨⟩
    exact .inl (by decide)
  · rintro _ ⟨⟩
    refine .inr ⟨rfl, fun hc d hd hdigit => ?_⟩
    have hcs : cs ≠ [] := by
      rintro rfl
      exact hdot (by rw [hc])
    have hblank : isBlank d = false := not_blank_of_isNameChar (by simp [isNameChar, isLetterOrNumeric, isNumeric, hdigit])
    have hhead : (squeeze false cs).head? = some d := by
      rw [List.cons_append, List.tail_cons, List.head?_append_of_ne_nil] at hd
      · exact hd
      · obtain ⟨e, es, rfl⟩ := List.exists_cons_of_ne_nil hcs
        rw [squeeze]
        split <;> simp
    rw [List.cons_append, List.tail_cons, List.head?_append_of_ne_nil _ hcs]
    exact head?_of_squeeze hblank hhead

/-- Whether the token may be the last one of a type: a name, or a mark that closes something. -/
def Token.EndsType (t : Token) : Prop :=
  t.kind = .name ∨ ∃ c ∈ [')', ']', '\x7d', '>', '?'], t.kind = .mark c

theorem Token.EndsType.cut {t : Token} (ht : t.EndsType) {rest rest' : List Char} (h : Cut t.kind t.text.toList rest)
    (hrest' : ∀ c ∈ rest'.head?, isNameChar c = false) : Cut t.kind t.text.toList rest' := by
  obtain hname | ⟨c, hc, hmark⟩ := ht
  · rw [hname] at h ⊢
    exact h.name hrest'
  · rw [hmark] at h ⊢
    refine h.mark ?_ ?_ rest' <;>
      · rintro rfl
        simp at hc

/-- Only a dot is written as a dot. -/
theorem Token.EndsType.writtenOut_ne {t : Token} (ht : t.EndsType) {rest : List Char} (h : Cut t.kind t.text.toList rest) :
    (writtenOut [t]).toList ≠ ['.'] := by
  obtain ⟨c, cs, htext, hlexeme⟩ := h.lexeme
  intro hdot
  rw [toList_writtenOut_cons, htext] at hdot
  cases hgap : t.gap.toList with
  | cons => simp [hgap] at hdot
  | nil =>
    rw [hgap] at hdot
    obtain ⟨rfl, -⟩ := List.cons.inj hdot
    have : t.kind = .mark '.' := (Prod.mk.inj (Except.ok.inj (hlexeme 0))).1.symm
    obtain hname | ⟨c, hc, hmark⟩ := ht
    · rw [hname] at this
      cases this
    · rw [hmark] at this
      cases this
      simp at hc

theorem cuts_squeezed {tail tail' : List Char} {ts : List Token} (h : Cuts tail ts) (hlast : ∀ t ∈ ts.getLast?, t.EndsType)
    (htail' : ∀ c ∈ tail'.head?, isNameChar c = false) : Cuts tail' (ts.map Token.squeezed) := by
  induction ts with
  | nil => trivial
  | cons t ts ih =>
    obtain ⟨hcut, hcuts⟩ := h
    have htext : Condensed false t.text.toList t.squeezed.text.toList := by
      rw [Token.squeezed, String.toList_ofList]
      exact squeeze_condensed false _
    cases ts with
    | nil => exact ⟨((hlast t rfl).cut hcut htail').condense htext (.refl _), trivial⟩
    | cons u us =>
      refine ⟨hcut.condense htext ?_, ih hcuts fun v hv => hlast v (by rw [List.getLast?_cons_cons]; exact hv)⟩
      rw [← squeeze_writtenOut hcuts]
      refine resembles_squeeze ?_ ?_ tail tail'
      · obtain ⟨c, cs, hu, -⟩ := hcuts.1.lexeme
        rw [toList_writtenOut_cons, hu]
        simp
      · cases us with
        | nil => exact (hlast u rfl).writtenOut_ne hcuts.1
        | cons v vs =>
          obtain ⟨c, cs, hu, -⟩ := hcuts.1.lexeme
          obtain ⟨d, ds, hv, -⟩ := hcuts.2.1.lexeme
          intro hdot
          have := congrArg List.length hdot
          rw [toList_writtenOut_cons, toList_writtenOut_cons, hu, hv] at this
          simp only [List.length_append, List.length_cons, List.length_nil] at this
          omega

end Counterpart.Kotlin
