/-
Where a token ends. A token is cut off again by whatever resembles the text that stood behind it, since the lexer looks at no
more of that text than `Resembles` compares; and it stays one token when the blanks in it are condensed (`lexeme_condensed`).
-/
import Counterpart.Proofs.Lexemes

namespace Counterpart.Kotlin.Lexer

open Text
open List (Forall₂)

/-- Whether a token in front of `rest` ends in front of `rest'` as well: the text is over, a blank comes next, or the same
character as before, and behind a dot no digit that was not there. -/
def Resembles (rest rest' : List Char) : Prop :=
  ∀ c ∈ rest'.head?, isBlank c ∨
    rest.head? = some c ∧ (c = '.' → ∀ d ∈ rest'.tail.head?, d.isDigit → rest.tail.head? = some d)

/-- The same text with blanks turned into spaces and runs of them made shorter; `behind` says that a blank stands before it. -/
inductive Condensed : (behind : Bool) → List Char → List Char → Prop
  | nil {behind : Bool} : Condensed behind [] []
  | char {behind : Bool} {c : Char} {cs ds : List Char} (hc : isBlank c = false) (h : Condensed false cs ds) :
    Condensed behind (c :: cs) (c :: ds)
  | blank {behind : Bool} {c d : Char} {cs ds : List Char} (hc : isBlank c) (hd : d = c ∨ d = ' ') (h : Condensed true cs ds) :
    Condensed behind (c :: cs) (d :: ds)
  | skip {c : Char} {cs ds : List Char} (hc : isBlank c) (h : Condensed true cs ds) : Condensed true (c :: cs) ds

/-! ## Condensed texts -/

namespace Condensed

variable {behind : Bool} {c : Char} {cs ds rest : List Char}

theorem refl (behind : Bool) (cs : List Char) : Condensed behind cs cs := by
  induction cs generalizing behind with
  | nil => exact .nil
  | cons c cs ih =>
    cases hc : isBlank c with
    | false => exact .char hc (ih false)
    | true => exact .blank hc (.inl rfl) (ih true)

/-- A character that is no blank is kept. -/
theorem exists_cons (hc : isBlank c = false) (h : Condensed behind (c :: cs) ds) :
    ∃ ds', ds = c :: ds' ∧ Condensed false cs ds' := by
  cases h with
  | char _ h => exact ⟨_, rfl, h⟩
  | blank hblank | skip hblank => simp [hc] at hblank

/-- In front of a text that starts without a blank before it, some character is kept. -/
theorem exists_cons_of_cons (h : Condensed false (c :: cs) ds) : ∃ d ds' b, ds = d :: ds' ∧ Condensed b cs ds' := by
  cases h with
  | char _ h | blank _ _ h => exact ⟨_, _, _, rfl, h⟩

theorem cases_cons (h : Condensed behind (c :: cs) ds) : Condensed true cs ds ∨
    ∃ d ds' b, ds = d :: ds' ∧ Condensed b cs ds' ∧ (d = c ∧ (isBlank c = false → b = false) ∨ d = ' ') := by
  cases h with
  | char hc h => exact .inr ⟨_, _, _, rfl, h, .inl ⟨rfl, fun _ => rfl⟩⟩
  | blank hc hd h =>
    obtain rfl | rfl := hd
    · exact .inr ⟨_, _, _, rfl, h, .inl ⟨rfl, fun hblank => by simp [hc] at hblank⟩⟩
    · exact .inr ⟨_, _, _, rfl, h, .inr rfl⟩
  | skip _ h => exact .inl h

/-- What stands at the front that is no blank stood there. -/
theorem cons_of_take {m : Nat} {es : List Char} (h : Condensed false (cs.take m) ds) (hm : 0 < m) (hlength : m ≤ cs.length)
    (hes : ds ++ rest = c :: es) (hc : isBlank c = false) :
    ∃ cs' ds', cs = c :: cs' ∧ Condensed false (cs'.take (m - 1)) ds' ∧ ds' ++ rest = es := by
  obtain ⟨k, rfl⟩ : ∃ k, m = k + 1 := ⟨m - 1, by omega⟩
  cases cs with
  | nil => simp at hlength
  | cons d cs =>
    rw [List.take_succ_cons] at h
    cases h with
    | char _ h =>
      obtain ⟨rfl, rfl⟩ := List.cons.inj hes
      exact ⟨cs, _, rfl, h, rfl⟩
    | blank hblank hd _ =>
      obtain ⟨rfl, -⟩ := List.cons.inj hes
      obtain rfl | rfl := hd
      · simp [hc] at hblank
      · simp [show isBlank ' ' = true by decide] at hc

theorem head?_of_take {m : Nat} (h : Condensed false (cs.take m) ds) (hm : 0 < m) (hlength : m ≤ cs.length)
    (hhead : (ds ++ rest).head? = some c) (hc : isBlank c = false) : cs.head? = some c := by
  obtain ⟨es, hes⟩ := List.head?_eq_some_iff.mp hhead
  obtain ⟨cs', -, rfl, -⟩ := h.cons_of_take hm hlength hes hc
  rfl

theorem pair_of_take {m : Nat} {d : Char} {es : List Char} (h : Condensed false (cs.take m) ds) (hm : 1 < m)
    (hlength : m ≤ cs.length) (hes : ds ++ rest = c :: d :: es) (hc : isBlank c = false) (hd : isBlank d = false) :
    ∃ cs', cs = c :: d :: cs' := by
  obtain ⟨cs, ds, rfl, hds, hes⟩ := h.cons_of_take (by omega) hlength hes hc
  rw [List.length_cons] at hlength
  obtain ⟨cs, -, rfl, -⟩ := hds.cons_of_take (by omega) (by omega) hes hd
  exact ⟨cs, rfl⟩

/-- Two quotes at the front stood there, the second one possibly behind the text that is condensed. -/
theorem quotes_of_take {m : Nat} {es : List Char} (h : Condensed false (cs.take m) ds) (hm : 1 ≤ m) (hlength : m ≤ cs.length)
    (hes : ds ++ rest = '"' :: '"' :: es) (hquote : rest.head? = some '"' → (cs.drop m).head? = some '"') :
    ∃ cs', cs = '"' :: '"' :: cs' := by
  obtain rfl | hlt := Nat.eq_or_lt_of_le hm
  · obtain ⟨cs, ds, rfl, hds, hes⟩ := h.cons_of_take hm hlength hes (by decide)
    rw [Nat.sub_self, List.take_zero] at hds
    cases hds
    rw [List.nil_append] at hes
    obtain ⟨cs', hcs⟩ := List.head?_eq_some_iff.mp (hquote (by rw [hes]; rfl))
    exact ⟨cs', congrArg (List.cons '"') hcs⟩
  · exact h.pair_of_take hlt hlength hes (by decide) (by decide)

theorem eq_of_not_blank (hcs : ∀ c ∈ cs, isBlank c = false) (h : Condensed behind cs ds) : ds = cs := by
  induction h with
  | nil => rfl
  | char _ _ ih => rw [ih fun d hd => hcs d (List.mem_cons_of_mem _ hd)]
  | blank hblank | skip hblank =>
    rw [hcs _ List.mem_cons_self] at hblank
    cases hblank

end Condensed

/-! ## Literals -/

/-- How many characters it takes at least to close all the open parts. -/
def closingLength : List OpenPart → Nat
  | [] => 0
  | .rawString _ :: up => closingLength up + 3
  | _ :: up => closingLength up + 1

theorem closingLength_le {ps : List OpenPart} {pos : Nat} {cs : List Char} {n : Nat}
    (h : literalLength ps pos cs = .ok n) : closingLength ps ≤ n := by
  fun_induction literalLength ps pos cs generalizing n
  case case1 => simp [closingLength]
  case case2 | case3 | case5 | case9 | case14 | case22 | case23 | case25 => cases h
  all_goals
    rename_i ih
    obtain ⟨m, hm, rfl⟩ := exists_of_map_ok h
    have := ih hm
    simp only [closingLength] at this ⊢
    omega

section
variable {up : List OpenPart} {pos opened inner : Nat} {c : Char} {cs : List Char}

theorem literalLength_string_char (hc : c ∉ ['\n', '"', '\\']) (hopen : c = '$' → cs.head? ≠ some '\x7b') :
    literalLength (.string opened :: up) pos (c :: cs) =
      (· + 1) <$> literalLength (.string opened :: up) (pos + c.utf8Size) cs := by
  simp only [List.mem_cons, List.not_mem_nil, or_false, not_or] at hc
  have hbrace : ∀ ds, c = '$' → cs = '\x7b' :: ds → False := fun ds hc hcs => hopen hc (by rw [hcs]; rfl)
  rw [literalLength]
  all_goals simp_all

theorem literalLength_rawString_char (hend : c = '"' → ∀ ds, cs ≠ '"' :: '"' :: ds)
    (hopen : c = '$' → cs.head? ≠ some '\x7b') :
    literalLength (.rawString opened :: up) pos (c :: cs) =
      (· + 1) <$> literalLength (.rawString opened :: up) (pos + c.utf8Size) cs := by
  rw [literalLength]
  · exact fun ds hc hcs => hend hc _ hcs
  · exact fun ds hc hcs => hend hc _ hcs
  · intro ds hc hcs
    exact hopen hc (by rw [hcs]; rfl)

theorem literalLength_template_char (hc : c ∉ ['\x7b', '\x7d', '"', '\'']) :
    literalLength (.template opened inner :: up) pos (c :: cs) =
      (· + 1) <$> literalLength (.template opened inner :: up) (pos + c.utf8Size) cs := by
  simp only [List.mem_cons, List.not_mem_nil, or_false, not_or] at hc
  rw [literalLength]
  all_goals simp_all

theorem literalLength_character_char (hc : c ∉ ['\n', '\'', '\\']) :
    literalLength (.character opened :: up) pos (c :: cs) =
      (· + 1) <$> literalLength (.character opened :: up) (pos + c.utf8Size) cs := by
  simp only [List.mem_cons, List.not_mem_nil, or_false, not_or] at hc
  rw [literalLength]
  all_goals simp_all

/-- A character that begins neither an escape nor the end of a text in one. -/
theorem ne_escape (hend : c = '\\' → cs = [] → False) (hescape : ∀ d ds, c = '\\' → cs = d :: ds → False) : c ≠ '\\' := by
  intro hc
  cases cs with
  | nil => exact hend hc rfl
  | cons d ds => exact hescape d ds hc rfl

end

/-- A literal with condensed blanks ends where its text does. The cases are those of the lexer: a mark that means something stands
there again, and any other character is kept, made a space or left out, with nothing behind it that gives it a meaning. -/
theorem literalLength_condensed {ps ps' : List OpenPart} {behind : Bool} {pos : Nat} {cs ds rest : List Char} {n : Nat}
    (hps : Forall₂ OpenPart.Alike ps ps') (h : literalLength ps pos cs = .ok n) (hds : Condensed behind (cs.take n) ds)
    (hrest : rest.head? = some '"' → (cs.drop n).head? = some '"') (pos' : Nat) :
    literalLength ps' pos' (ds ++ rest) = .ok ds.length := by
  fun_induction literalLength ps pos cs generalizing ps' behind pos' n ds
  case case1 =>
    cases hps
    cases h
    cases hds
    rw [literalLength]
    rfl
  case case2 | case3 | case5 | case9 | case14 | case22 | case23 | case25 => cases h
  all_goals
    obtain ⟨m, hm, rfl⟩ := exists_of_map_ok h
    obtain ⟨part, up', hpart, hup, rfl⟩ := List.forall₂_cons_left_iff.mp hps
    have hlength := literalLength_le hm
    have hclosing := closingLength_le hm
    cases hpart
    simp only [closingLength, List.take_succ_cons, List.drop_succ_cons] at hrest hclosing hds ⊢
  case case4.string ih _ | case24.character ih _ =>
    obtain ⟨ds₁, rfl, hds₁⟩ := hds.exists_cons (by decide)
    rw [List.cons_append, literalLength, ih hup hm hds₁ hrest]
    rfl
  case case6.string ih _ =>
    obtain ⟨ds₁, rfl, hds₁⟩ := hds.exists_cons (by decide)
    obtain ⟨d, ds₂, b, rfl, hds₂⟩ := hds₁.exists_cons_of_cons
    rw [List.cons_append, List.cons_append, literalLength, ih (.cons (.string _ _) hup) hm hds₂ hrest]
    rfl
  case case7.string ih _ =>
    obtain ⟨ds₁, rfl, hds₁⟩ := hds.exists_cons (by decide)
    obtain ⟨ds₂, rfl, hds₂⟩ := hds₁.exists_cons (by decide)
    rw [List.cons_append, List.cons_append, literalLength,
      ih (.cons (.template _ _ _) (.cons (.string _ _) hup)) hm hds₂ hrest]
    rfl
  case case8.string c cs hline hquote hend hescape hopen ih _ =>
    obtain hds₁ | ⟨d, ds₁, b, rfl, hds₁, hd⟩ := hds.cases_cons
    · exact ih (.cons (.string _ _) hup) hm hds₁ hrest pos'
    rw [List.cons_append, literalLength_string_char, ih (.cons (.string _ _) hup) hm hds₁ hrest]
    · rfl
    · obtain ⟨rfl, -⟩ | rfl := hd
      · simpa using ⟨hline, hquote, ne_escape hend hescape⟩
      · decide
    · intro hdollar hbrace
      obtain ⟨rfl, hb⟩ | rfl := hd
      · cases hb (by rw [hdollar]; decide)
        have := hds₁.head?_of_take (by omega) hlength hbrace (by decide)
        obtain ⟨es, rfl⟩ := List.head?_eq_some_iff.mp this
        exact hopen es hdollar rfl
      · simp at hdollar
  case case10.rawString ih o =>
    obtain ⟨k, rfl⟩ : ∃ k, m = k + 3 := ⟨m - 3, by omega⟩
    obtain ⟨ds₁, rfl, hds₁⟩ := hds.exists_cons (by decide)
    have := ih (.cons (.rawString _ o) hup) hm hds₁ hrest
    simp only [List.take_succ_cons] at hds₁
    obtain ⟨ds₂, rfl, hds₂⟩ := hds₁.exists_cons (by decide)
    obtain ⟨ds₃, rfl, hds₃⟩ := hds₂.exists_cons (by decide)
    obtain ⟨ds₄, rfl, hds₄⟩ := hds₃.exists_cons (by decide)
    simp only [List.cons_append] at this ⊢
    rw [literalLength, this]
    rfl
  case case11.rawString cs hend ih _ =>
    obtain ⟨ds₁, rfl, hds₁⟩ := hds.exists_cons (by decide)
    obtain ⟨ds₂, rfl, hds₂⟩ := hds₁.exists_cons (by decide)
    obtain ⟨ds₃, rfl, hds₃⟩ := hds₂.exists_cons (by decide)
    rw [List.cons_append, List.cons_append, List.cons_append, literalLength, ih hup hm hds₃ hrest]
    · rfl
    · intro es hes
      cases hzero : m with
      | zero =>
        subst hzero
        rw [List.take_zero] at hds₃
        cases hds₃
        rw [List.nil_append] at hes
        obtain ⟨es', rfl⟩ := List.head?_eq_some_iff.mp (hrest (by rw [hes]; rfl))
        exact hend es' rfl
      | succ =>
        obtain ⟨es', -, rfl, -⟩ := hds₃.cons_of_take (by omega) hlength hes (by decide)
        exact hend es' rfl
  case case12.rawString ih _ =>
    obtain ⟨ds₁, rfl, hds₁⟩ := hds.exists_cons (by decide)
    obtain ⟨ds₂, rfl, hds₂⟩ := hds₁.exists_cons (by decide)
    rw [List.cons_append, List.cons_append, literalLength,
      ih (.cons (.template _ _ _) (.cons (.rawString _ _) hup)) hm hds₂ hrest]
    rfl
  case case13.rawString c cs hlong hend hopen ih o =>
    obtain hds₁ | ⟨d, ds₁, b, rfl, hds₁, hd⟩ := hds.cases_cons
    · exact ih (.cons (.rawString _ o) hup) hm hds₁ hrest pos'
    rw [List.cons_append, literalLength_rawString_char, ih (.cons (.rawString _ o) hup) hm hds₁ hrest]
    · rfl
    · intro hquote es hes
      obtain ⟨rfl, hb⟩ | rfl := hd
      · cases hb (by rw [hquote]; decide)
        obtain ⟨cs₁, ds₂, rfl, hds₂, hes₂⟩ := hds₁.cons_of_take (by omega) hlength hes (by decide)
        obtain ⟨cs₂, -, rfl, -⟩ := hds₂.cons_of_take (by omega) (by simpa using hlength) hes₂ (by decide)
        exact hend cs₂ hquote rfl
      · simp at hquote
    · intro hdollar hbrace
      obtain ⟨rfl, hb⟩ | rfl := hd
      · cases hb (by rw [hdollar]; decide)
        have := hds₁.head?_of_take (by omega) hlength hbrace (by decide)
        obtain ⟨es, rfl⟩ := List.head?_eq_some_iff.mp this
        exact hopen es hdollar rfl
      · simp at hdollar
  case case15.template ih _ | case17.template ih _ =>
    obtain ⟨ds₁, rfl, hds₁⟩ := hds.exists_cons (by decide)
    rw [List.cons_append, literalLength, ih (.cons (.template _ _ _) hup) hm hds₁ hrest]
    rfl
  case case16.template ih _ =>
    obtain ⟨ds₁, rfl, hds₁⟩ := hds.exists_cons (by decide)
    rw [List.cons_append, literalLength, ih hup hm hds₁ hrest]
    rfl
  case case18.template ih _ =>
    obtain ⟨ds₁, rfl, hds₁⟩ := hds.exists_cons (by decide)
    obtain ⟨ds₂, rfl, hds₂⟩ := hds₁.exists_cons (by decide)
    obtain ⟨ds₃, rfl, hds₃⟩ := hds₂.exists_cons (by decide)
    rw [List.cons_append, List.cons_append, List.cons_append, literalLength,
      ih (.cons (.rawString _ _) (.cons (.template _ _ _) hup)) hm hds₃ hrest]
    rfl
  case case19.template cs hraw ih o =>
    obtain ⟨ds₁, rfl, hds₁⟩ := hds.exists_cons (by decide)
    rw [List.cons_append, literalLength, ih (.cons (.string _ pos') (.cons (.template _ o _) hup)) hm hds₁ hrest]
    · rfl
    · intro es hes
      obtain ⟨cs, rfl⟩ := hds₁.pair_of_take (by omega) hlength hes (by decide) (by decide)
      exact hraw cs rfl
  case case20.template ih _ =>
    obtain ⟨ds₁, rfl, hds₁⟩ := hds.exists_cons (by decide)
    rw [List.cons_append, literalLength, ih (.cons (.character _ _) (.cons (.template _ _ _) hup)) hm hds₁ hrest]
    rfl
  case case21.template inner _ _ c cs hopen hclose hinner hraw hquote hchar ih _ =>
    obtain hds₁ | ⟨d, ds₁, b, rfl, hds₁, hd⟩ := hds.cases_cons
    · exact ih (.cons (.template _ _ _) hup) hm hds₁ hrest pos'
    have hbrace : c ≠ '\x7d' := by
      intro hc
      cases inner with
      | zero => exact hclose rfl hc
      | succ inner => exact hinner inner rfl hc
    rw [List.cons_append, literalLength_template_char, ih (.cons (.template _ _ _) hup) hm hds₁ hrest]
    · rfl
    · obtain ⟨rfl, -⟩ | rfl := hd
      · simpa using ⟨hopen, hbrace, hquote, hchar⟩
      · decide
  case case26.character ih _ =>
    obtain ⟨ds₁, rfl, hds₁⟩ := hds.exists_cons (by decide)
    obtain ⟨d, ds₂, b, rfl, hds₂⟩ := hds₁.exists_cons_of_cons
    rw [List.cons_append, List.cons_append, literalLength, ih (.cons (.character _ _) hup) hm hds₂ hrest]
    rfl
  case case27.character c cs hline hquote hend hescape ih _ =>
    obtain hds₁ | ⟨d, ds₁, b, rfl, hds₁, hd⟩ := hds.cases_cons
    · exact ih (.cons (.character _ _) hup) hm hds₁ hrest pos'
    rw [List.cons_append, literalLength_character_char, ih (.cons (.character _ _) hup) hm hds₁ hrest]
    · rfl
    · obtain ⟨rfl, -⟩ | rfl := hd
      · simpa using ⟨hline, hquote, ne_escape hend hescape⟩
      · decide

/-! ## Single tokens -/

theorem quotedNameLength_condensed {opened : Nat} {behind : Bool} {cs ds : List Char} {n : Nat}
    (h : quotedNameLength opened cs = .ok n) (hds : Condensed behind (cs.take n) ds) (opened' : Nat) (rest : List Char) :
    quotedNameLength opened' (ds ++ rest) = .ok ds.length := by
  fun_induction quotedNameLength opened cs generalizing n behind ds
  case case1 | case2 => cases h
  case case3 cs =>
    cases h
    obtain ⟨ds₁, rfl, hds₁⟩ := hds.exists_cons (by decide)
    rw [List.take_zero] at hds₁
    cases hds₁
    rfl
  case case4 c cs hline hquote ih =>
    obtain ⟨m, hm, rfl⟩ := exists_of_map_ok h
    rw [List.take_succ_cons] at hds
    obtain hds₁ | ⟨d, ds₁, b, rfl, hds₁, hd⟩ := hds.cases_cons
    · exact ih hm hds₁
    have hd' : d ≠ '\n' ∧ d ≠ '\x60' := by
      obtain ⟨rfl, -⟩ | rfl := hd
      · exact ⟨hline, hquote⟩
      · decide
    rw [List.cons_append, quotedNameLength.eq_4 _ _ _ hd'.1 hd'.2, ih hm hds₁]
    rfl

/-- A number goes on with characters of names and with dots. -/
theorem mem_take_numberLength (cs : List Char) : ∀ c ∈ cs.take (numberLength cs), isNameChar c = true ∨ c = '.' := by
  fun_induction numberLength cs
  case case1 => simp
  case case2 d cs hd ih =>
    intro c hc
    rcases List.mem_cons.mp hc with rfl | hc
    · exact .inr rfl
    · exact ih c hc
  case case3 | case5 => simp
  case case4 c cs hdot hc ih =>
    intro d hd
    rcases List.mem_cons.mp hd with rfl | hd
    · exact .inl hc
    · exact ih d hd

theorem not_blank_of_numberLength (cs : List Char) : ∀ c ∈ cs.take (numberLength cs), isBlank c = false := by
  intro c hc
  rcases mem_take_numberLength cs c hc with hc | rfl
  · exact not_blank_of_isNameChar hc
  · decide

theorem numberLength_eq_zero {cs rest : List Char} (hcs : numberLength cs = 0) (hrest : Resembles cs rest) :
    numberLength rest = 0 := by
  have hdot : isNameChar '.' = false ∧ isBlank '.' = false := by decide
  cases rest with
  | nil => rfl
  | cons c rest =>
    obtain hc | ⟨hc, hdigit⟩ := hrest c rfl
    · rw [numberLength, if_neg (by simp [isNameChar_eq_false_of_isBlank hc])]
      intro d ds hd _
      subst hd
      simp [hdot.2] at hc
    · obtain ⟨cs, rfl⟩ : ∃ cs', cs = c :: cs' := by
        cases cs with
        | nil => simp at hc
        | cons => simp_all
      by_cases hc : c = '.'
      · subst hc
        cases rest with
        | nil => simp [numberLength, hdot.1]
        | cons d ds =>
          by_cases hd : d.isDigit
          · obtain ⟨ds', rfl⟩ : ∃ ds', cs = d :: ds' := by
              have := hdigit rfl d rfl hd
              cases cs <;> simp_all
            simp [numberLength, hd] at hcs
          · simp [numberLength, hd]
      · rw [numberLength] at hcs ⊢
        · split at hcs
          · omega
          next hname => rw [if_neg hname]
        all_goals exact fun _ _ h => absurd h hc

theorem numberLength_take {cs rest : List Char} (hrest : Resembles (cs.drop (numberLength cs)) rest) :
    numberLength (cs.take (numberLength cs) ++ rest) = numberLength cs := by
  fun_induction numberLength cs
  case case1 => exact numberLength_eq_zero rfl hrest
  case case2 d cs hd ih =>
    have hpos : 1 ≤ numberLength (d :: cs) := by
      rw [numberLength, if_pos]
      · omega
      · simp [isNameChar, isLetterOrNumeric, isNumeric, hd]
      · intro _ _ h _
        subst h
        simp [show '.'.isDigit = false by decide] at hd
    obtain ⟨k, hk⟩ : ∃ k, numberLength (d :: cs) = k + 1 := ⟨numberLength (d :: cs) - 1, by omega⟩
    have := ih hrest
    rw [hk] at this ⊢
    rw [List.take_succ_cons, List.take_succ_cons, List.cons_append, List.cons_append, numberLength, if_pos hd]
    rw [List.take_succ_cons, List.cons_append] at this
    rw [this]
  case case3 d cs hd => exact numberLength_eq_zero (by simp [numberLength, hd]) hrest
  case case4 c cs hdot hc ih =>
    rw [List.take_succ_cons, List.cons_append, numberLength, if_pos hc, ih hrest]
    intro _ _ h _
    subst h
    simp [show isNameChar '.' = false by decide] at hc
  case case5 c cs hdot hc =>
    have hzero : numberLength (c :: cs) = 0 := by rw [numberLength.eq_3 _ _ hdot, if_neg hc]
    exact numberLength_eq_zero hzero hrest

theorem Resembles.of_isNameChar {rest rest' : List Char} (h : Resembles rest rest')
    (hrest : ∀ c ∈ rest.head?, isNameChar c = false) : ∀ c ∈ rest'.head?, isNameChar c = false := by
  intro c hc
  obtain hblank | ⟨hhead, -⟩ := h c hc
  · exact isNameChar_eq_false_of_isBlank hblank
  · exact hrest c hhead

theorem Resembles.head? {rest rest' : List Char} (h : Resembles rest rest') {c : Char} (hc : isBlank c = false)
    (hrest : rest'.head? = some c) : rest.head? = some c := by
  obtain hblank | ⟨hhead, -⟩ := h c hrest
  · rw [hc] at hblank
    cases hblank
  · exact hhead

theorem takeWhile_condensed {cs ds rest : List Char} (hds : Condensed false (cs.take (cs.takeWhile isNameChar).length) ds)
    (hrest : Resembles (cs.drop (cs.takeWhile isNameChar).length) rest) :
    ds = cs.takeWhile isNameChar ∧ (ds ++ rest).takeWhile isNameChar = ds := by
  have hdrop : cs.drop (cs.takeWhile isNameChar).length = cs.dropWhile isNameChar := by
    have := @List.drop_left _ (cs.takeWhile isNameChar) (cs.dropWhile isNameChar)
    rwa [List.takeWhile_append_dropWhile] at this
  have hstop : ∀ d ∈ rest.head?, isNameChar d = false := by
    refine hrest.of_isNameChar fun d hd => ?_
    rw [hdrop] at hd
    have := List.head?_dropWhile_not isNameChar cs
    rw [Option.mem_def.mp hd] at this
    simpa using this
  have hchars : ∀ d ∈ cs.takeWhile isNameChar, isNameChar d := fun d hd => List.mem_takeWhile_imp hd
  rw [take_length_takeWhile] at hds
  obtain rfl : ds = cs.takeWhile isNameChar := hds.eq_of_not_blank fun d hd => not_blank_of_isNameChar (hchars d hd)
  exact ⟨rfl, by rw [takeWhile_append_eq hstop, List.takeWhile_eq_self_iff.mpr hchars]⟩

/-- A mark that could begin a comment or a first line for the shell stands alone. -/
theorem length_of_lexeme {pos : Nat} {c : Char} {kind : TokenKind} {m : Nat} {rest : List Char} (hc : c = '/' ∨ c = '#')
    (h : lexeme pos c rest = .ok (kind, m)) : m = 0 := by
  rcases hc with rfl | rfl <;> cases h <;> rfl

theorem lexeme_condensed {pos : Nat} {c : Char} {cs ds rest : List Char} {kind : TokenKind} {m : Nat}
    (h : lexeme pos c cs = .ok (kind, m)) (hds : Condensed false (cs.take m) ds) (hrest : Resembles (cs.drop m) rest)
    (pos' : Nat) : lexeme pos' c (ds ++ rest) = .ok (kind, ds.length) := by
  have hquote : rest.head? = some '"' → (cs.drop m).head? = some '"' := hrest.head? (by decide)
  rw [lexeme.eq_def] at h ⊢
  by_cases hstring : c == '"'
  · rw [if_pos hstring] at h ⊢
    split at h
    next es =>
      obtain ⟨n, hn, he⟩ := exists_of_map_ok h
      obtain ⟨rfl, rfl⟩ := Prod.mk.inj he
      obtain ⟨ds₁, rfl, hds₁⟩ := hds.exists_cons (by decide)
      obtain ⟨ds₂, rfl, hds₂⟩ := hds₁.exists_cons (by decide)
      simp only [List.cons_append, literalLength_condensed (.cons (.rawString _ _) .nil) hn hds₂ hquote]
      rfl
    next hraw =>
      obtain ⟨n, hn, he⟩ := exists_of_map_ok h
      obtain ⟨rfl, rfl⟩ := Prod.mk.inj he
      have hclosing : 1 ≤ n := closingLength_le hn
      have hlength := literalLength_le hn
      split
      next es hes =>
        obtain ⟨cs', rfl⟩ := hds.quotes_of_take hclosing hlength hes hquote
        exact absurd rfl (hraw cs')
      next => rw [literalLength_condensed (.cons (.string _ pos') .nil) hn hds hquote]; rfl
  rw [if_neg hstring] at h ⊢
  by_cases hcharacter : c == '\''
  · rw [if_pos hcharacter] at h ⊢
    obtain ⟨n, hn, he⟩ := exists_of_map_ok h
    obtain ⟨rfl, rfl⟩ := Prod.mk.inj he
    rw [literalLength_condensed (.cons (.character _ pos') .nil) hn hds hquote]
    rfl
  rw [if_neg hcharacter] at h ⊢
  by_cases hquoted : c == '\x60'
  · rw [if_pos hquoted] at h ⊢
    obtain ⟨n, hn, he⟩ := exists_of_map_ok h
    obtain ⟨rfl, rfl⟩ := Prod.mk.inj he
    rw [quotedNameLength_condensed hn hds]
    rfl
  rw [if_neg hquoted] at h ⊢
  by_cases hdigit : c.isDigit
  · rw [if_pos hdigit] at h ⊢
    cases h
    cases hds.eq_of_not_blank (not_blank_of_numberLength cs)
    rw [numberLength_take hrest, List.length_take_of_le (numberLength_le cs)]
  rw [if_neg hdigit] at h ⊢
  by_cases hname : isNameStart c
  · rw [if_pos hname] at h ⊢
    cases h
    obtain ⟨rfl, hchars⟩ := takeWhile_condensed hds hrest
    rw [hchars]
  rw [if_neg hname] at h ⊢
  split at h
  next harrow =>
    cases h
    rw [Bool.and_eq_true] at harrow
    cases cs with
    | nil => simp at harrow
    | cons d es =>
      rw [List.head?_cons, beq_iff_eq, beq_iff_eq, Option.some.injEq] at harrow
      obtain ⟨rfl, rfl⟩ := harrow
      cases hds.eq_of_not_blank (by simp [show isBlank '>' = false by decide])
      rfl
  next harrow =>
    cases h
    rw [List.take_zero] at hds
    cases hds
    rw [if_neg]
    · rfl
    intro hcontra
    rw [List.nil_append, Bool.and_eq_true, beq_iff_eq, beq_iff_eq] at hcontra
    have := hrest.head? (by decide) hcontra.2
    simp [hcontra.1, List.drop_zero ▸ this] at harrow

/-- A token is cut off by what resembles the text that stood behind it. -/
theorem lexeme_take {pos : Nat} {c : Char} {cs rest : List Char} {kind : TokenKind} {m : Nat}
    (h : lexeme pos c cs = .ok (kind, m)) (hrest : Resembles (cs.drop m) rest) (pos' : Nat) :
    lexeme pos' c (cs.take m ++ rest) = .ok (kind, m) := by
  have hm : m ≤ cs.length := (lexeme_append h (show Separates [] by simp [Separates]) 0).2
  have := lexeme_condensed h (.refl _ _) hrest pos'
  rwa [List.length_take_of_le hm] at this

end Counterpart.Kotlin.Lexer
