/-
Tokens on their own. `Cut` says that a text is one token in front of another text; it depends on little of what stands there:
on nothing that the text there does not resemble as well, for a name only on whether it goes on, for most marks on nothing.
-/
import Counterpart.Proofs.Condensing

namespace Counterpart.Kotlin.Lexer

open Text

theorem Resembles.refl (cs : List Char) : Resembles cs cs := fun _ hc => .inr ⟨hc, fun _ _ hd _ => hd⟩

/-- Whether a text is cut off as a token of this kind in front of `rest`. -/
structure Cut (kind : TokenKind) (text rest : List Char) : Prop where
  lexeme : ∃ c cs, text = c :: cs ∧ ∀ pos, lexeme pos c (cs ++ rest) = .ok (kind, cs.length)
  blank : ∀ c ∈ text.head?, isBlank c = false
  comment : text.head? = some '/' → ∀ c ∈ (text.tail ++ rest).head?, c ≠ '/' ∧ c ≠ '*'

theorem Cut.of_lexeme {pos : Nat} {c : Char} {cs : List Char} {kind : TokenKind} {m : Nat}
    (h : Lexer.lexeme pos c cs = .ok (kind, m)) (hblank : isBlank c = false)
    (hcomment : c = '/' → ∀ d ∈ cs.head?, d ≠ '/' ∧ d ≠ '*') : Cut kind (c :: cs.take m) (cs.drop m) where
  lexeme := by
    have hm : m ≤ cs.length := (lexeme_append h (show Separates [] by simp [Separates]) 0).2
    refine ⟨c, cs.take m, rfl, fun pos => ?_⟩
    rw [List.length_take_of_le hm]
    exact lexeme_take h (.refl _) pos
  blank := by
    rintro _ ⟨⟩
    exact hblank
  comment hc d hd := by
    rw [List.tail_cons, List.take_append_drop] at hd
    exact hcomment (Option.some.inj hc) d hd

/-- A token stays one when its text is condensed and when the text behind it only resembles the one that stood there. -/
theorem Cut.condense {kind : TokenKind} {text text' rest rest' : List Char} (h : Cut kind text rest)
    (htext : Condensed false text text') (hrest : Resembles rest rest') : Cut kind text' rest' := by
  obtain ⟨c, cs, rfl, hlexeme⟩ := h.lexeme
  have hblank : isBlank c = false := h.blank c rfl
  obtain ⟨ds, rfl, hds⟩ := htext.exists_cons hblank
  refine ⟨⟨c, ds, rfl, fun pos => ?_⟩, h.blank, ?_⟩
  · exact lexeme_condensed (hlexeme 0) (by rwa [List.take_left]) (by rwa [List.drop_left]) pos
  · intro hc d hd
    cases Option.some.inj hc
    have hnil := List.length_eq_zero_iff.mp (length_of_lexeme (.inl rfl) (hlexeme 0))
    subst hnil
    cases hds
    constructor <;> rintro rfl
    · exact (h.comment rfl _ (hrest.head? (by decide) hd)).1 rfl
    · exact (h.comment rfl _ (hrest.head? (by decide) hd)).2 rfl

/-! ## The end of a token -/

/-- The marks that a token of several characters ends with, when it is no name without quotes and no number. -/
def closingMarks : List Char := ['"', '\x7d', '\'', '\x60', '>']

theorem not_blank_of_closingMark : ∀ c ∈ closingMarks, isBlank c = false := by
  simp only [closingMarks, List.forall_mem_cons]
  exact ⟨by decide, by decide, by decide, by decide, by decide, List.forall_mem_nil _⟩

theorem not_isNameChar_of_closingMark : ∀ c ∈ closingMarks, isNameChar c = false := by
  simp only [closingMarks, List.forall_mem_cons]
  exact ⟨by decide, by decide, by decide, by decide, by decide, List.forall_mem_nil _⟩

/-- A literal ends with the mark that closes it. -/
theorem literalLength_last {ps : List OpenPart} {pos : Nat} {cs : List Char} {n : Nat} (hps : ps ≠ [])
    (h : literalLength ps pos cs = .ok n) : ∃ c ∈ closingMarks, (cs.take n).getLast? = some c := by
  have hclosed {up : List OpenPart} {pos m : Nat} {cs : List Char} (c : Char) (hc : c ∈ closingMarks)
      (ih : up ≠ [] → ∃ d ∈ closingMarks, (cs.take m).getLast? = some d) (hm : literalLength up pos cs = .ok m) :
      ∃ d ∈ closingMarks, (c :: cs.take m).getLast? = some d := by
    cases up with
    | nil =>
      rw [literalLength] at hm
      cases hm
      exact ⟨c, hc, rfl⟩
    | cons part up =>
      obtain ⟨d, hd, hlast⟩ := ih (List.cons_ne_nil part up)
      exact ⟨d, hd, by rw [List.getLast?_cons, hlast]; rfl⟩
  fun_induction literalLength ps pos cs generalizing n
  case case1 => exact absurd rfl hps
  case case2 | case3 | case5 | case9 | case14 | case22 | case23 | case25 => cases h
  all_goals
    obtain ⟨m, hm, rfl⟩ := exists_of_map_ok h
    simp only [List.take_succ_cons]
  case case4 ih => exact hclosed '"' (by decide) (fun hup => ih hup hm) hm
  case case16 ih => exact hclosed '\x7d' (by decide) (fun hup => ih hup hm) hm
  case case24 ih => exact hclosed '\'' (by decide) (fun hup => ih hup hm) hm
  case case11 ih =>
    obtain ⟨d, hd, hlast⟩ := hclosed '"' (by decide) (fun hup => ih hup hm) hm
    exact ⟨d, hd, by rw [List.getLast?_cons, List.getLast?_cons, hlast]; rfl⟩
  all_goals
    rename_i ih
    obtain ⟨d, hd, hlast⟩ := ih (List.cons_ne_nil _ _) hm
    exact ⟨d, hd, by simp only [List.getLast?_cons, hlast, Option.getD_some]⟩

theorem quotedNameLength_last {opened : Nat} {cs : List Char} {n : Nat} (h : quotedNameLength opened cs = .ok n) :
    (cs.take n).getLast? = some '\x60' := by
  fun_induction quotedNameLength opened cs generalizing n
  case case1 | case2 => cases h
  case case3 =>
    cases h
    rfl
  case case4 ih =>
    obtain ⟨m, hm, rfl⟩ := exists_of_map_ok h
    rw [List.take_succ_cons, List.getLast?_cons, ih hm]
    rfl

/-- A token is a name without quotes, a number or one character, or it is closed by a mark. -/
theorem lexeme_cases {pos : Nat} {c : Char} {cs : List Char} {kind : TokenKind} {m : Nat}
    (h : lexeme pos c cs = .ok (kind, m)) :
    isNameStart c ∧ kind = .name ∧ m = (cs.takeWhile isNameChar).length ∨ c.isDigit ∧ m = numberLength cs ∨
      isNameStart c = false ∧ m = 0 ∨ isNameStart c = false ∧ ∃ d ∈ closingMarks, (c :: cs.take m).getLast? = some d := by
  have hclosed {ds : List Char} (hds : ∃ d ∈ closingMarks, ds.getLast? = some d) :
      ∃ d ∈ closingMarks, (c :: ds).getLast? = some d := by
    obtain ⟨d, hd, hlast⟩ := hds
    exact ⟨d, hd, by rw [List.getLast?_cons, hlast]; rfl⟩
  rw [lexeme.eq_def] at h
  split at h
  next hc =>
    obtain rfl := beq_iff_eq.mp hc
    refine .inr (.inr (.inr ⟨by decide, ?_⟩))
    split at h
    next es =>
      obtain ⟨n, hn, he⟩ := exists_of_map_ok h
      obtain ⟨rfl, rfl⟩ := Prod.mk.inj he
      obtain ⟨d, hd, hlast⟩ := literalLength_last (List.cons_ne_nil _ _) hn
      refine hclosed ⟨d, hd, ?_⟩
      simp only [List.take_succ_cons, List.getLast?_cons, hlast, Option.getD_some]
    next =>
      obtain ⟨n, hn, he⟩ := exists_of_map_ok h
      obtain ⟨rfl, rfl⟩ := Prod.mk.inj he
      exact hclosed (literalLength_last (List.cons_ne_nil _ _) hn)
  split at h
  next hc =>
    obtain rfl := beq_iff_eq.mp hc
    obtain ⟨n, hn, he⟩ := exists_of_map_ok h
    obtain ⟨rfl, rfl⟩ := Prod.mk.inj he
    exact .inr (.inr (.inr ⟨by decide, hclosed (literalLength_last (List.cons_ne_nil _ _) hn)⟩))
  split at h
  next hc =>
    obtain rfl := beq_iff_eq.mp hc
    obtain ⟨n, hn, he⟩ := exists_of_map_ok h
    obtain ⟨rfl, rfl⟩ := Prod.mk.inj he
    exact .inr (.inr (.inr ⟨by decide, hclosed ⟨_, by decide, quotedNameLength_last hn⟩⟩))
  split at h
  next hc =>
    cases h
    exact .inr (.inl ⟨hc, rfl⟩)
  split at h
  next hc =>
    cases h
    exact .inl ⟨hc, rfl, rfl⟩
  next hc =>
  rw [Bool.not_eq_true] at hc
  split at h
  next harrow =>
    cases h
    rw [Bool.and_eq_true, beq_iff_eq, beq_iff_eq] at harrow
    obtain ⟨es, rfl⟩ := List.head?_eq_some_iff.mp harrow.2
    exact .inr (.inr (.inr ⟨hc, hclosed ⟨'>', by decide, rfl⟩⟩))
  next =>
    cases h
    exact .inr (.inr (.inl ⟨hc, rfl⟩))

theorem lexeme_last {pos : Nat} {c : Char} {cs : List Char} {kind : TokenKind} {m : Nat} (h : lexeme pos c cs = .ok (kind, m))
    (hc : isBlank c = false) : ∀ d ∈ (c :: cs.take m).getLast?, isBlank d = false := by
  have hnone {ds : List Char} (hds : ∀ d ∈ ds, isBlank d = false) : ∀ d ∈ (c :: ds).getLast?, isBlank d = false := by
    intro d hd
    rcases List.mem_cons.mp (List.mem_of_getLast? hd) with rfl | hd
    · exact hc
    · exact hds d hd
  obtain ⟨-, -, rfl⟩ | ⟨-, rfl⟩ | ⟨-, rfl⟩ | ⟨-, e, he, hlast⟩ := lexeme_cases h
  · rw [take_length_takeWhile]
    exact hnone fun d hd => not_blank_of_isNameChar (List.mem_takeWhile_imp hd)
  · exact hnone (not_blank_of_numberLength cs)
  · exact hnone (by simp)
  · rw [hlast]
    rintro _ ⟨⟩
    exact not_blank_of_closingMark e he

theorem Cut.last {kind : TokenKind} {text rest : List Char} (h : Cut kind text rest) :
    ∀ c ∈ text.getLast?, isBlank c = false := by
  obtain ⟨c, cs, rfl, hlexeme⟩ := h.lexeme
  have := lexeme_last (hlexeme 0) (h.blank c rfl)
  rwa [List.take_left] at this

/-- A token that is no name without quotes does not start like one; it goes on with characters of names and dots, or it ends with
a character of neither kind. -/
theorem lexeme_characters {pos : Nat} {c : Char} {cs : List Char} {kind : TokenKind} {m : Nat}
    (h : lexeme pos c cs = .ok (kind, m)) :
    isNameStart c ∧ kind = .name ∧ m = (cs.takeWhile isNameChar).length ∨ isNameStart c = false ∧
      ((∀ d ∈ c :: cs.take m, isNameChar d ∨ d = '.') ∨ ∀ d ∈ (c :: cs.take m).getLast?, isNameChar d = false) := by
  obtain hname | ⟨hc, rfl⟩ | ⟨hc, rfl⟩ | ⟨hc, e, he, hlast⟩ := lexeme_cases h
  · exact .inl hname
  · have hstart : isNameStart c = false := by
      rw [← Bool.not_eq_true]
      intro hstart
      rw [isDigit_of_isNameStart hstart] at hc
      cases hc
    refine .inr ⟨hstart, .inl (List.forall_mem_cons.mpr ⟨.inl ?_, mem_take_numberLength cs⟩)⟩
    simp [isNameChar, isLetterOrNumeric, isNumeric, hc]
  · refine .inr ⟨hc, ?_⟩
    rw [List.take_zero]
    cases hname : isNameChar c with
    | true => exact .inl (by simp [hname])
    | false => exact .inr (by simp [hname])
  · refine .inr ⟨hc, .inr ?_⟩
    rw [hlast]
    rintro _ ⟨⟩
    exact not_isNameChar_of_closingMark e he

/-- What a token is in front of `rest`: a name without quotes, which ends there, or nothing that starts like one. -/
theorem Cut.characters {kind : TokenKind} {text rest : List Char} (h : Cut kind text rest) :
    (kind = .name ∧ (∀ c ∈ text, isNameChar c) ∧ ∀ c ∈ rest.head?, isNameChar c = false) ∨
      (∀ c ∈ text.head?, isNameStart c = false) ∧
        ((∀ c ∈ text, isNameChar c ∨ c = '.') ∨ ∀ c ∈ text.getLast?, isNameChar c = false) := by
  obtain ⟨c, cs, rfl, hlexeme⟩ := h.lexeme
  obtain ⟨hstart, hkind, hlength⟩ | ⟨hstart, hchars⟩ := lexeme_characters (hlexeme 0)
  · have hwhile : (cs ++ rest).takeWhile isNameChar = cs := by
      rw [← take_length_takeWhile, ← hlength, List.take_left]
    have hchars : ∀ d ∈ cs, isNameChar d := by
      intro d hd
      rw [← hwhile] at hd
      exact List.mem_takeWhile_imp hd
    refine .inl ⟨hkind, List.forall_mem_cons.mpr ⟨isNameChar_of_isNameStart hstart, hchars⟩, fun d hd => ?_⟩
    obtain ⟨ds, rfl⟩ := List.head?_eq_some_iff.mp hd
    rw [List.takeWhile_append_of_pos hchars, List.append_right_eq_self] at hwhile
    by_contra hname
    rw [List.takeWhile_cons_of_pos (by simpa using hname)] at hwhile
    cases hwhile
  · rw [List.take_left] at hchars
    refine .inr ⟨?_, hchars⟩
    rintro _ ⟨⟩
    exact hstart

/-! ## Marks and names -/

theorem Cut.mark_text {c : Char} {text rest : List Char} (h : Cut (.mark c) text rest) : text = [c] := by
  obtain ⟨d, cs, rfl, hlexeme⟩ := h.lexeme
  obtain ⟨rfl, hnil, -⟩ := lexeme_mark (hlexeme 0)
  rw [List.length_eq_zero_iff.mp hnil]

/-- A mark that begins nothing longer is cut off in front of anything. -/
theorem Cut.mark {c : Char} {text rest : List Char} (h : Cut (.mark c) text rest) (hminus : c ≠ '-') (hslash : c ≠ '/')
    (rest' : List Char) : Cut (.mark c) text rest' where
  lexeme := by
    obtain ⟨d, cs, rfl, hlexeme⟩ := h.lexeme
    obtain ⟨rfl, hnil, hmark⟩ := lexeme_mark (hlexeme 0)
    rw [List.length_eq_zero_iff.mp hnil]
    exact ⟨c, [], rfl, fun pos => hmark hminus pos rest'⟩
  blank := h.blank
  comment hc := by
    rw [h.mark_text] at hc
    exact absurd (Option.some.inj hc) hslash

/-- A name that is cut off is in quotes or made of the characters of names. -/
theorem Cut.name_cases {text rest : List Char} (h : Cut .name text rest) :
    (∃ cs, text = '\x60' :: cs ∧ ∀ pos, quotedNameLength pos (cs ++ rest) = .ok cs.length) ∨
      ∃ c cs, text = c :: cs ∧ isNameStart c ∧ ∀ d ∈ cs, isNameChar d := by
  obtain ⟨c, cs, rfl, hlexeme⟩ := h.lexeme
  obtain ⟨rfl, -⟩ | ⟨hstart, hlength⟩ := lexeme_name (hlexeme 0)
  · refine .inl ⟨cs, rfl, fun pos => ?_⟩
    obtain ⟨-, hn⟩ | ⟨hstart, -⟩ := lexeme_name (hlexeme pos)
    · exact hn
    · exact absurd hstart (by decide)
  · have hprefix : (cs ++ rest).takeWhile isNameChar = cs := by
      rw [← take_length_takeWhile, ← hlength, List.take_left]
    refine .inr ⟨c, cs, rfl, hstart, fun d hd => ?_⟩
    rw [← hprefix] at hd
    exact List.mem_takeWhile_imp hd

/-- A name is cut off in front of anything that does not go on with it. -/
theorem Cut.name {text rest rest' : List Char} (h : Cut .name text rest) (hrest' : ∀ c ∈ rest'.head?, isNameChar c = false) :
    Cut .name text rest' := by
  obtain ⟨cs, rfl, hn⟩ | ⟨c, cs, rfl, hstart, hchars⟩ := h.name_cases
  · refine ⟨⟨_, cs, rfl, fun pos => ?_⟩, h.blank, by simp⟩
    have := quotedNameLength_condensed (hn pos) (.refl false _) pos rest'
    rw [List.take_left] at this
    show (TokenKind.name, ·) <$> quotedNameLength pos (cs ++ rest') = _
    rw [this]
    rfl
  · refine ⟨⟨c, cs, rfl, fun pos => ?_⟩, h.blank, fun hc => ?_⟩
    · rw [lexeme_of_isNameStart hstart, takeWhile_append_eq hrest', List.takeWhile_eq_self_iff.mpr hchars]
    · exact absurd (Option.some.inj hc) (ne_of_isNameStart hstart (by decide))

theorem not_mem_quotedName {opened n : Nat} {cs : List Char} (h : quotedNameLength opened cs = .ok n) : '\n' ∉ cs.take n := by
  fun_induction quotedNameLength opened cs generalizing n
  case case1 | case2 => cases h
  case case3 =>
    cases h
    simp
  case case4 c cs hline _ ih =>
    obtain ⟨m, hm, rfl⟩ := exists_of_map_ok h
    rw [List.take_succ_cons, List.mem_cons, not_or]
    exact ⟨Ne.symm hline, ih hm⟩

theorem Cut.not_line {text rest : List Char} (h : Cut .name text rest) : '\n' ∉ text := by
  obtain ⟨cs, rfl, hn⟩ | ⟨c, cs, rfl, hstart, hchars⟩ := h.name_cases
  · have := not_mem_quotedName (hn 0)
    rw [List.take_left] at this
    simp [this]
  · rw [List.mem_cons, not_or]
    refine ⟨(ne_of_isNameStart hstart (by decide)).symm, fun hline => ?_⟩
    exact absurd (hchars _ hline) (by decide)

end Counterpart.Kotlin.Lexer
