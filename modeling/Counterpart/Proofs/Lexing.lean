/-
The lexer and what follows a text. Tokens do not depend on where a text stands, and a text that separates ends them: a text
that is cut into tokens without a rest is cut into the same ones in front of it (`lexeme_append` is the step). Nothing is
lost: the gaps and texts written out are the source (`tokens_source`).
-/
import Mathlib.Data.List.Forall2
import Mathlib.Data.List.TakeWhile
import Counterpart.Kotlin.Token.Lexer
import Counterpart.Proofs.Outcomes

namespace Counterpart.Kotlin.Lexer

open Text

/-! ## Characters -/

theorem byteSize_append (cs ds : List Char) : byteSize (cs ++ ds) = byteSize cs + byteSize ds := by
  induction cs with
  | nil => simp [byteSize]
  | cons c cs ih => rw [List.cons_append, byteSize, byteSize, ih, Nat.add_assoc]

theorem isDigit_of_not_isNameChar {c : Char} (h : isNameChar c = false) : c.isDigit = false := by
  simp only [isNameChar, isLetterOrNumeric, isNumeric, Bool.or_eq_false_iff] at h
  exact h.1.2.1

theorem ne_of_isNameStart {c d : Char} (hc : isNameStart c) (hd : isNameStart d = false) : c ≠ d := by
  rintro rfl
  rw [hd] at hc
  cases hc

theorem isDigit_of_isNameStart {c : Char} (hc : isNameStart c) : c.isDigit = false := by
  have hdigit : ∀ n ∈ List.range' 48 10, isNameStart (.ofNat n) = false := by decide
  by_contra h
  rw [Bool.not_eq_false, Char.isDigit, Bool.and_eq_true, decide_eq_true_eq, decide_eq_true_eq] at h
  have hnat : 48 ≤ c.toNat ∧ c.toNat ≤ 57 := h
  have := hdigit c.toNat (List.mem_range'_1.mpr (by omega))
  rw [Char.ofNat_toNat, hc] at this
  cases this

theorem isNameChar_eq_false_of_isBlank {c : Char} (hc : isBlank c) : isNameChar c = false := by
  have hblank : ∀ r ∈ blankRanges, ∀ n ∈ List.range' r.1 (r.2 + 1 - r.1),
      isNameChar (.ofNat n) = false := by decide +kernel
  rw [isBlank, inRanges, List.any_eq_true] at hc
  obtain ⟨r, hr, hc⟩ := hc
  rw [Bool.and_eq_true, decide_eq_true_eq, decide_eq_true_eq] at hc
  rw [← Char.ofNat_toNat c]
  exact hblank r hr c.toNat (List.mem_range'_1.mpr (by omega))

theorem not_blank_of_isNameChar {c : Char} (hc : isNameChar c) : isBlank c = false := by
  rw [← Bool.not_eq_true]
  intro h
  rw [isNameChar_eq_false_of_isBlank h] at hc
  cases hc

/-! ## Gaps -/

/-- The same state, perhaps of a comment opened elsewhere. -/
inductive GapState.Alike : GapState → GapState → Prop
  | between : Alike .between .between
  | lineComment : Alike .lineComment .lineComment
  | blockComment (o o' inner : Nat) : Alike (.blockComment o inner) (.blockComment o' inner)

theorem not_comment_append {c : Char} {cs rest : List Char} (hslash : ∀ cs', c = '/' → cs = '/' :: cs' → False)
    (hstar : ∀ cs', c = '/' → cs = '*' :: cs' → False) (hrest : ∀ d ∈ rest.head?, d ≠ '/' ∧ d ≠ '*') :
    (∀ cs', c = '/' → cs ++ rest = '/' :: cs' → False) ∧ (∀ cs', c = '/' → cs ++ rest = '*' :: cs' → False) := by
  cases cs with
  | nil => cases rest <;> simp_all
  | cons d ds => simp_all

theorem gapLength_append {s s' : GapState} {pos : Nat} {cs rest : List Char} {n : Nat} (hs : s.Alike s')
    (h : gapLength s pos cs = .ok n) (hn : n < cs.length) (hrest : ∀ d ∈ rest.head?, d ≠ '/' ∧ d ≠ '*') (pos' : Nat) :
    gapLength s' pos' (cs ++ rest) = .ok n := by
  fun_induction gapLength s pos cs generalizing s' pos' n
  case case1 | case2 => simp at hn h
  case case6 c cs hslash hstar hblank =>
    cases hs
    cases h
    obtain ⟨hslash', hstar'⟩ := not_comment_append hslash hstar hrest
    rw [List.cons_append, gapLength.eq_5 _ _ _ hslash' hstar', if_neg hblank]
  all_goals
    cases hs
    obtain ⟨m, hm, rfl⟩ := exists_of_map_ok h
    simp only [List.cons_append, List.length_cons, Nat.add_lt_add_iff_right] at hn ⊢
  case case3 ih =>
    rw [gapLength, ih .lineComment hm (by omega)]
    rfl
  case case4 ih =>
    rw [gapLength, ih (.blockComment _ _ _) hm (by omega)]
    rfl
  case case5 c cs hslash hstar hblank ih =>
    obtain ⟨hslash', hstar'⟩ := not_comment_append hslash hstar hrest
    rw [gapLength.eq_5 _ _ _ hslash' hstar', if_pos hblank, ih .between hm (by omega)]
    rfl
  case case7 ih =>
    rw [gapLength, ih .between hm (by omega)]
    rfl
  case case8 hline ih =>
    rw [gapLength, ih .lineComment hm (by omega)]
    · rfl
    · exact hline
  case case9 ih _ =>
    rw [gapLength, ih (.blockComment _ _ _) hm (by omega)]
    rfl
  case case10 ih _ =>
    rw [gapLength, ih .between hm (by omega)]
    rfl
  case case11 ih _ =>
    rw [gapLength, ih (.blockComment _ _ _) hm (by omega)]
    rfl
  case case12 cs hopen hend hinner ih _ =>
    cases cs with
    | nil => cases hm
    | cons d ds =>
      rw [gapLength, ih (.blockComment _ _ _) hm (by omega)]
      · rfl
      · rintro ds' hc hds
        cases hds
        exact hopen ds hc rfl
      · rintro ds' hi hc hds
        cases hds
        exact hend ds hi hc rfl
      · rintro i ds' hi hc hds
        cases hds
        exact hinner i ds hi hc rfl

theorem gapLength_between_blank {c : Char} (hc : isBlank c) (pos : Nat) (cs : List Char) :
    gapLength .between pos (c :: cs) = (· + 1) <$> gapLength .between (pos + c.utf8Size) cs := by
  have hslash : c ≠ '/' := by rintro rfl; simp [show isBlank '/' = false by decide] at hc
  rw [gapLength.eq_5 _ _ _ (fun _ h => absurd h hslash) (fun _ h => absurd h hslash), if_pos hc]

theorem gapLength_between_start {c : Char} (hslash : c ≠ '/') (hc : isBlank c = false) (pos : Nat) (cs : List Char) :
    gapLength .between pos (c :: cs) = .ok 0 := by
  rw [gapLength.eq_5 _ _ _ (fun _ h => absurd h hslash) (fun _ h => absurd h hslash), if_neg (by simp [hc])]

/-! ## Literals -/

/-- The same part, perhaps opened elsewhere. -/
inductive OpenPart.Alike : OpenPart → OpenPart → Prop
  | string (o o' : Nat) : Alike (.string o) (.string o')
  | rawString (o o' : Nat) : Alike (.rawString o) (.rawString o')
  | template (o o' inner : Nat) : Alike (.template o inner) (.template o' inner)
  | character (o o' : Nat) : Alike (.character o) (.character o')

theorem literalLength_append {ps ps' : List OpenPart} {pos : Nat} {cs rest : List Char} {n : Nat}
    (hps : List.Forall₂ OpenPart.Alike ps ps') (h : literalLength ps pos cs = .ok n) (hrest : ∀ d ∈ rest.head?, d ≠ '"')
    (pos' : Nat) : literalLength ps' pos' (cs ++ rest) = .ok n := by
  fun_induction literalLength ps pos cs generalizing ps' pos' n
  case case1 =>
    cases hps
    cases h
    rw [literalLength]
  case case2 | case3 | case5 | case9 | case14 | case22 | case23 | case25 => cases h
  all_goals
    obtain ⟨m, hm, rfl⟩ := exists_of_map_ok h
    obtain ⟨part, up', hpart, hup, rfl⟩ := List.forall₂_cons_left_iff.mp hps
    cases hpart
    simp only [List.cons_append]
  case case4.string ih _ | case24.character ih _ | case16.template ih _ =>
    rw [literalLength, ih hup hm]
    rfl
  case case6.string ih _ =>
    rw [literalLength, ih (.cons (.string _ _) hup) hm]
    rfl
  case case7.string ih _ =>
    rw [literalLength, ih (.cons (.template _ _ _) (.cons (.string _ _) hup)) hm]
    rfl
  case case8.string cs _ _ _ _ hopen ih _ =>
    cases cs with
    | nil => cases hm
    | cons d ds =>
      rw [literalLength, ih (.cons (.string _ _) hup) hm]
      · rfl
      all_goals simp_all
  case case10.rawString ih o =>
    have := ih (.cons (.rawString _ o) hup) hm
    simp only [List.cons_append] at this
    rw [literalLength, this]
    rfl
  case case11.rawString cs hend ih _ =>
    rw [literalLength, ih hup hm]
    · rfl
    · intro ds hds
      cases cs with
      | nil => exact hrest '"' (by rw [List.nil_append] at hds; rw [hds]; rfl) rfl
      | cons d ds' =>
        cases hds
        exact hend ds' rfl
  case case12.rawString ih _ =>
    rw [literalLength, ih (.cons (.template _ _ _) (.cons (.rawString _ _) hup)) hm]
    rfl
  case case13.rawString cs hlong hend hopen ih _ =>
    match cs with
    | [] => cases hm
    | [d] =>
      rw [literalLength, ih (.cons (.rawString _ _) hup) hm]
      · rfl
      · rintro ds - hds
        cases hds
        exact hrest '"' rfl rfl
      · rintro ds - hds
        cases hds
        exact hrest '"' rfl rfl
      · rintro ds hc hds
        cases hds
        exact hopen [] hc rfl
    | d :: e :: ds =>
      rw [literalLength, ih (.cons (.rawString _ _) hup) hm]
      · rfl
      · rintro ds' hc hds
        injection hds with hd hds
        injection hds with he
        exact hend ds hc (by rw [hd, he])
      · rintro ds' hc hds
        cases hds
        exact hend ds hc rfl
      · rintro ds' hc hds
        cases hds
        exact hopen (e :: ds) hc rfl
  case case15.template ih _ | case17.template ih _ =>
    rw [literalLength, ih (.cons (.template _ _ _) hup) hm]
    rfl
  case case18.template ih _ =>
    rw [literalLength, ih (.cons (.rawString _ _) (.cons (.template _ _ _) hup)) hm]
    rfl
  case case19.template cs hraw ih _ =>
    match cs with
    | [] => cases hm
    | [d] =>
      rw [literalLength, ih (.cons (.string _ _) (.cons (.template _ _ _) hup)) hm]
      · rfl
      all_goals cases rest <;> simp_all
    | d :: e :: ds =>
      rw [literalLength, ih (.cons (.string _ _) (.cons (.template _ _ _) hup)) hm]
      · rfl
      all_goals simp_all
  case case20.template ih _ =>
    rw [literalLength, ih (.cons (.character _ _) (.cons (.template _ _ _) hup)) hm]
    rfl
  case case21.template ih _ =>
    rw [literalLength, ih (.cons (.template _ _ _) hup) hm]
    · rfl
    all_goals simp_all
  case case26.character ih _ =>
    rw [literalLength, ih (.cons (.character _ _) hup) hm]
    rfl
  case case27.character cs _ _ _ _ ih _ =>
    cases cs with
    | nil => cases hm
    | cons d ds =>
      rw [literalLength, ih (.cons (.character _ _) hup) hm]
      · rfl
      all_goals simp_all

theorem literalLength_le {ps : List OpenPart} {pos : Nat} {cs : List Char} {n : Nat}
    (h : literalLength ps pos cs = .ok n) : n ≤ cs.length := by
  fun_induction literalLength ps pos cs generalizing n
  case case1 =>
    cases h
    exact Nat.zero_le _
  case case2 | case3 | case5 | case9 | case14 | case22 | case23 | case25 => cases h
  all_goals
    rename_i ih
    obtain ⟨m, hm, rfl⟩ := exists_of_map_ok h
    have := ih hm
    simp only [List.length_cons] at this ⊢
    omega

/-! ## Single tokens -/

theorem quotedNameLength_append {opened : Nat} {cs : List Char} {n : Nat} (h : quotedNameLength opened cs = .ok n)
    (opened' : Nat) (rest : List Char) : quotedNameLength opened' (cs ++ rest) = .ok n ∧ n ≤ cs.length := by
  fun_induction quotedNameLength opened cs generalizing n
  case case1 | case2 => cases h
  case case3 cs =>
    cases h
    exact ⟨rfl, by simp⟩
  case case4 cs hline hquote ih =>
    obtain ⟨m, hm, rfl⟩ := exists_of_map_ok h
    obtain ⟨happend, hle⟩ := ih hm
    refine ⟨?_, Nat.succ_le_succ hle⟩
    rw [List.cons_append, quotedNameLength.eq_4 _ _ _ hline hquote, happend]
    rfl

/-- Whether no token of another text runs into one that starts here. -/
def Separates (rest : List Char) : Prop :=
  ∀ c ∈ rest.head?, isNameChar c = false ∧ c ∉ ['.', '"', '>', '/', '*']

theorem numberLength_append {cs rest : List Char} (hrest : Separates rest) :
    numberLength (cs ++ rest) = numberLength cs := by
  fun_induction numberLength cs
  case case1 =>
    cases rest with
    | nil => rfl
    | cons c rest =>
      obtain ⟨hname, hmark⟩ := hrest c rfl
      rw [List.nil_append, numberLength, if_neg (by simp [hname])]
      rintro d ds rfl
      simp at hmark
  case case2 d cs hd ih =>
    rw [← ih]
    simp only [List.cons_append, numberLength, hd, if_true]
  case case3 d cs hd =>
    simp only [List.cons_append, numberLength, hd, Bool.false_eq_true, if_false]
  case case4 c cs hdot hc ih =>
    rw [List.cons_append, numberLength, if_pos hc, ih]
    rintro d ds rfl hds
    simp [show isNameChar '.' = false by decide] at hc
  case case5 c cs hdot hc =>
    match cs, rest with
    | d :: ds, rest =>
      rw [List.cons_append, numberLength, if_neg hc]
      rintro d' ds' rfl hds
      exact hdot d ds rfl rfl
    | [], [] => rw [List.append_nil, numberLength, if_neg hc]; exact hdot
    | [], d :: ds =>
      have hd : d.isDigit = false := isDigit_of_not_isNameChar (hrest d rfl).1
      by_cases hc' : c = '.'
      · subst hc'
        simp only [List.cons_append, List.nil_append, numberLength, hd, Bool.false_eq_true, if_false]
      · rw [List.cons_append, numberLength, if_neg hc]
        exact fun _ _ h => absurd h hc'

theorem numberLength_le (cs : List Char) : numberLength cs ≤ cs.length := by
  fun_induction numberLength cs <;> simp_all only [List.length_cons, List.length_nil] <;> omega

theorem take_length_takeWhile (p : Char → Bool) (cs : List Char) : cs.take (cs.takeWhile p).length = cs.takeWhile p :=
  (List.prefix_iff_eq_take.mp (List.takeWhile_prefix p)).symm

theorem takeWhile_append_eq {p : Char → Bool} {rest : List Char} (hrest : ∀ c ∈ rest.head?, p c = false)
    (cs : List Char) : (cs ++ rest).takeWhile p = cs.takeWhile p := by
  have hnil : rest.takeWhile p = [] := by
    cases rest with
    | nil => rfl
    | cons c rest => rw [List.takeWhile_cons, hrest c rfl]; rfl
  rw [List.takeWhile_append, hnil, List.append_nil]
  split
  next hlen => rw [(List.takeWhile_prefix p).eq_of_length hlen]
  next => rfl

theorem lexeme_of_isNameStart {c : Char} (hc : isNameStart c) (pos : Nat) (cs : List Char) :
    lexeme pos c cs = .ok (.name, (cs.takeWhile isNameChar).length) := by
  rw [lexeme.eq_def, if_neg (by simpa using ne_of_isNameStart hc (by decide)),
    if_neg (by simpa using ne_of_isNameStart hc (by decide)), if_neg (by simpa using ne_of_isNameStart hc (by decide)),
    if_neg (by simp [isDigit_of_isNameStart hc]), if_pos hc]

/-- A name is in quotes or made of the characters of names. -/
theorem lexeme_name {pos : Nat} {c : Char} {cs : List Char} {m : Nat} (h : lexeme pos c cs = .ok (.name, m)) :
    c = '\x60' ∧ quotedNameLength pos cs = .ok m ∨ isNameStart c ∧ m = (cs.takeWhile isNameChar).length := by
  rw [lexeme.eq_def] at h
  split at h
  next =>
    split at h <;>
      · obtain ⟨n, -, he⟩ := exists_of_map_ok h
        cases he
  split at h
  next =>
    obtain ⟨n, -, he⟩ := exists_of_map_ok h
    cases he
  split at h
  next hquote =>
    obtain ⟨n, hn, he⟩ := exists_of_map_ok h
    cases he
    exact .inl ⟨by simpa using hquote, hn⟩
  split at h
  next => cases h
  split at h
  next hstart =>
    cases h
    exact .inr ⟨hstart, rfl⟩
  split at h <;> cases h

theorem lexeme_append {pos : Nat} {c : Char} {cs rest : List Char} {kind : TokenKind} {m : Nat}
    (h : lexeme pos c cs = .ok (kind, m)) (hrest : Separates rest) (pos' : Nat) :
    lexeme pos' c (cs ++ rest) = .ok (kind, m) ∧ m ≤ cs.length := by
  have hquote : ∀ d ∈ rest.head?, d ≠ '"' := fun d hd he => by simpa [he] using (hrest d hd).2
  have hangle : ∀ d ∈ rest.head?, d ≠ '>' := fun d hd he => by simpa [he] using (hrest d hd).2
  rw [lexeme.eq_def] at h ⊢
  by_cases hstring : c == '"'
  · rw [if_pos hstring] at h ⊢
    split at h
    next ds =>
      obtain ⟨n, hn, he⟩ := exists_of_map_ok h
      obtain ⟨rfl, rfl⟩ := Prod.mk.inj he
      simp only [List.cons_append, literalLength_append (.cons (.rawString _ _) .nil) hn hquote]
      exact ⟨rfl, Nat.add_le_add_right (literalLength_le hn) 2⟩
    next hraw =>
      obtain ⟨n, hn, he⟩ := exists_of_map_ok h
      obtain ⟨rfl, rfl⟩ := Prod.mk.inj he
      refine ⟨?_, literalLength_le hn⟩
      split
      next ds hds =>
        match cs with
        | [] => cases hn
        | [d] =>
          cases hds
          exact absurd rfl (hquote '"' rfl)
        | d :: e :: es =>
          cases hds
          exact absurd rfl (hraw es)
      next => rw [literalLength_append (.cons (.string _ pos') .nil) hn hquote]; rfl
  rw [if_neg hstring] at h ⊢
  by_cases hcharacter : c == '\''
  · rw [if_pos hcharacter] at h ⊢
    obtain ⟨n, hn, he⟩ := exists_of_map_ok h
    obtain ⟨rfl, rfl⟩ := Prod.mk.inj he
    rw [literalLength_append (.cons (.character _ pos') .nil) hn hquote]
    exact ⟨rfl, literalLength_le hn⟩
  rw [if_neg hcharacter] at h ⊢
  by_cases hquoted : c == '\x60'
  · rw [if_pos hquoted] at h ⊢
    obtain ⟨n, hn, he⟩ := exists_of_map_ok h
    obtain ⟨rfl, rfl⟩ := Prod.mk.inj he
    obtain ⟨happend, hle⟩ := quotedNameLength_append hn pos' rest
    rw [happend]
    exact ⟨rfl, hle⟩
  rw [if_neg hquoted] at h ⊢
  by_cases hdigit : c.isDigit
  · rw [if_pos hdigit] at h ⊢
    cases h
    rw [numberLength_append hrest]
    exact ⟨rfl, numberLength_le cs⟩
  rw [if_neg hdigit] at h ⊢
  by_cases hname : isNameStart c
  · rw [if_pos hname] at h ⊢
    cases h
    rw [takeWhile_append_eq fun d hd => (hrest d hd).1]
    exact ⟨rfl, (List.takeWhile_prefix _).length_le⟩
  rw [if_neg hname] at h ⊢
  have hhead : ((cs ++ rest).head? == some '>') = (cs.head? == some '>') := by
    cases cs with
    | cons d ds => rfl
    | nil =>
      cases rest with
      | nil => rfl
      | cons d ds => simpa using hangle d rfl
  rw [hhead]
  split at h
  next harrow =>
    cases h
    rw [if_pos harrow]
    refine ⟨rfl, ?_⟩
    cases cs with
    | nil => simp at harrow
    | cons d ds => simp
  next harrow =>
    cases h
    rw [if_neg harrow]
    exact ⟨rfl, Nat.zero_le _⟩

/-- A mark is one character; only a minus sign asks for the next one. -/
theorem lexeme_mark {pos : Nat} {c d : Char} {cs : List Char} {m : Nat} (h : lexeme pos c cs = .ok (.mark d, m)) :
    d = c ∧ m = 0 ∧ (c ≠ '-' → ∀ pos' cs', lexeme pos' c cs' = .ok (.mark c, 0)) := by
  rw [lexeme.eq_def] at h
  split at h
  · split at h
    all_goals
      obtain ⟨n, -, he⟩ := exists_of_map_ok h
      cases he
  next hstring =>
  split at h
  · obtain ⟨n, -, he⟩ := exists_of_map_ok h
    cases he
  next hcharacter =>
  split at h
  · obtain ⟨n, -, he⟩ := exists_of_map_ok h
    cases he
  next hquoted =>
  split at h
  · cases h
  next hdigit =>
  split at h
  · cases h
  next hname =>
  split at h
  · cases h
  · cases h
    refine ⟨rfl, rfl, fun hminus pos' cs' => ?_⟩
    rw [lexeme.eq_def, if_neg hstring, if_neg hcharacter, if_neg hquoted, if_neg hdigit, if_neg hname,
      if_neg (by simp [hminus])]

/-! ## Sources -/

theorem tokens_eq_nil {state : GapState} {pos : Nat} {cs : List Char} {n : Nat} (hgap : gapLength state pos cs = .ok n)
    (hdrop : cs.drop n = []) : tokens state pos cs = .ok ([], String.ofList (cs.take n)) := by
  rw [tokens, hgap]
  simp only [bind, Except.bind]
  split
  next => rfl
  next h => simp [hdrop] at h

theorem tokens_eq_cons {state : GapState} {pos : Nat} {cs : List Char} {n : Nat} {c : Char} {rest : List Char}
    {kind : TokenKind} {m : Nat} {ts : List Token} {tail : String} (hgap : gapLength state pos cs = .ok n)
    (hdrop : cs.drop n = c :: rest) (hlexeme : lexeme (pos + byteSize (cs.take n)) c rest = .ok (kind, m))
    (htokens : tokens .between (pos + byteSize (cs.take n) + byteSize (c :: rest.take m)) (rest.drop m) = .ok (ts, tail)) :
    tokens state pos cs =
      .ok (⟨kind, .ofList (c :: rest.take m), .ofList (cs.take n), pos + byteSize (cs.take n)⟩ :: ts, tail) := by
  rw [tokens, hgap]
  simp only [bind, Except.bind]
  split
  next h => simp [hdrop] at h
  next h =>
    obtain ⟨rfl, rfl⟩ := List.cons.inj (hdrop.symm.trans h)
    simp only [hlexeme, htokens]
    rfl

theorem tokens_ok {state : GapState} {pos : Nat} {cs : List Char} {ts : List Token} {tail : String}
    (h : tokens state pos cs = .ok (ts, tail)) : ∃ n, gapLength state pos cs = .ok n ∧
      (cs.drop n = [] ∧ ts = [] ∧ tail = String.ofList (cs.take n) ∨
        ∃ c rest kind m us, cs.drop n = c :: rest ∧ lexeme (pos + byteSize (cs.take n)) c rest = .ok (kind, m) ∧
          tokens .between (pos + byteSize (cs.take n) + byteSize (c :: rest.take m)) (rest.drop m) = .ok (us, tail) ∧
          ts = ⟨kind, .ofList (c :: rest.take m), .ofList (cs.take n), pos + byteSize (cs.take n)⟩ :: us) := by
  rw [tokens] at h
  obtain ⟨n, hgap, h⟩ := exists_of_bind_ok h
  refine ⟨n, hgap, ?_⟩
  split at h
  next hdrop =>
    cases h
    exact .inl ⟨hdrop, rfl, rfl⟩
  next c rest hdrop =>
    obtain ⟨⟨kind, m⟩, hlexeme, h⟩ := exists_of_bind_ok h
    obtain ⟨⟨us, tail'⟩, htokens, h⟩ := exists_of_bind_ok h
    cases h
    exact .inr ⟨c, rest, kind, m, us, hdrop, hlexeme, htokens, rfl⟩

/-- A source without tokens is a gap. -/
theorem tokens_nil_ok {state : GapState} {pos : Nat} {cs : List Char} {tail : String}
    (h : tokens state pos cs = .ok ([], tail)) : ∃ n, gapLength state pos cs = .ok n ∧ cs.take n = cs ∧ tail = .ofList cs := by
  obtain ⟨n, hgap, ⟨hdrop, -, rfl⟩ | ⟨c, rest, kind, m, us, -, -, -, hcons⟩⟩ := tokens_ok h
  · have hwhole : cs.take n = cs := List.take_of_length_le (List.drop_eq_nil_iff.mp hdrop)
    exact ⟨n, hgap, hwhole, congrArg String.ofList hwhole⟩
  · cases hcons

/-- The first token of a source, and the tokens behind it. -/
theorem tokens_cons_ok {state : GapState} {pos : Nat} {cs : List Char} {t : Token} {ts : List Token} {tail : String}
    (h : tokens state pos cs = .ok (t :: ts, tail)) : ∃ n c rest kind m, gapLength state pos cs = .ok n ∧ cs.drop n = c :: rest ∧
      lexeme (pos + byteSize (cs.take n)) c rest = .ok (kind, m) ∧
      tokens .between (pos + byteSize (cs.take n) + byteSize (c :: rest.take m)) (rest.drop m) = .ok (ts, tail) ∧
      t = ⟨kind, .ofList (c :: rest.take m), .ofList (cs.take n), pos + byteSize (cs.take n)⟩ := by
  obtain ⟨n, hgap, ⟨-, hnil, -⟩ | ⟨c, rest, kind, m, us, hdrop, hlexeme, htokens, hcons⟩⟩ := tokens_ok h
  · cases hnil
  · cases hcons
    exact ⟨n, c, rest, kind, m, hgap, hdrop, hlexeme, htokens, rfl⟩

theorem length_of_drop_eq_cons {n : Nat} {c : Char} {cs rest : List Char} (h : cs.drop n = c :: rest) :
    cs.length = n + rest.length + 1 := by
  have := congrArg List.length h
  simp only [List.length_drop, List.length_cons] at this
  omega

theorem tokens_source {state : GapState} {pos : Nat} {cs : List Char} {ts : List Token} {tail : String}
    (h : tokens state pos cs = .ok (ts, tail)) : String.join (ts.map fun t => t.gap ++ t.text) ++ tail = .ofList cs := by
  induction ts generalizing state pos cs with
  | nil =>
    obtain ⟨n, -, -, rfl⟩ := tokens_nil_ok h
    simp [String.join]
  | cons t ts ih =>
    obtain ⟨n, c, rest, kind, m, -, hdrop, -, htokens, rfl⟩ := tokens_cons_ok h
    have hcs : cs = cs.take n ++ c :: (rest.take m ++ rest.drop m) := by
      rw [List.take_append_drop, ← hdrop, List.take_append_drop]
    apply String.toList_injective
    rw [List.map_cons, String.join_cons, String.append_assoc, ih htokens]
    simp only [String.toList_append, String.toList_ofList]
    conv_rhs => rw [hcs]
    simp

end Counterpart.Kotlin.Lexer

namespace Counterpart.Kotlin.TokenStream

theorem ofSource_eq {source : String} {state : Lexer.GapState} {ts : List Token} {tail : String}
    (hstate : state = if ['#', '!'].isPrefixOf source.toList then .lineComment else .between)
    (h : Lexer.tokens state 0 source.toList = .ok (ts, tail)) :
    ofSource source = .ok ⟨ts, tail, source.utf8ByteSize⟩ := by
  rw [ofSource, ← hstate]
  simp only [bind, Except.bind, h]
  rfl

theorem ofSource_ok {source : String} {s : TokenStream} (h : ofSource source = .ok s) :
    Lexer.tokens (if ['#', '!'].isPrefixOf source.toList then .lineComment else .between) 0 source.toList =
      .ok (s.tokens, s.tail) ∧ s.size = source.utf8ByteSize := by
  rw [ofSource] at h
  obtain ⟨⟨ts, tail⟩, htokens, h⟩ := exists_of_bind_ok h
  cases h
  exact ⟨htokens, rfl⟩

end Counterpart.Kotlin.TokenStream
