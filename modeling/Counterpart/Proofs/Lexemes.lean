/-
What a text is cut into, wherever it stands. `Lexes` says it of a text up to the end of the source; its rules add a piece
in front, so the tokens of a rendered file are collected from its end.
-/
import Counterpart.Proofs.Gaps
import Counterpart.Kotlin.Keyword

namespace Counterpart.Kotlin

open Text Lexer

theorem isNameChar_of_isPlain {name : String} (h : Name.isPlain name) : ∀ c ∈ name.toList, isNameChar c = true := by
  rw [Name.isPlain] at h
  intro c hc
  cases hs : name.toList with
  | nil =>
    rw [hs] at hc
    cases hc
  | cons d ds =>
    rw [hs, Bool.and_eq_true, List.all_eq_true] at h
    rw [hs] at hc
    rcases List.mem_cons.mp hc with rfl | hc
    · exact isNameChar_of_isNameStart h.1
    · exact h.2 c hc

theorem not_blank_of_isPlain {name : String} (h : Name.isPlain name) : ∀ c ∈ name.toList, isBlank c = false :=
  fun c hc => not_blank_of_isNameChar (isNameChar_of_isPlain h c hc)

/-- What can be said of a token wherever it stands: its gap only where that is fixed. -/
structure Lexeme where
  kind : TokenKind
  text : String
  gap? : Option String
deriving DecidableEq

namespace Lexeme

def word (text : String) : Lexeme := ⟨.name, text, none⟩

def mark (c : Char) : Lexeme := ⟨.mark c, .singleton c, none⟩

/-- The same behind any gap. -/
def bare (e : Lexeme) : Lexeme := { e with gap? := none }

end Lexeme

namespace Token

def Fits (t : Token) (e : Lexeme) : Prop :=
  t.kind = e.kind ∧ t.text = e.text ∧ ∀ gap ∈ e.gap?, t.gap = gap

/-- The token with its gap. -/
def lexeme (t : Token) : Lexeme := ⟨t.kind, t.text, some t.gap⟩

/-- The token behind any gap. -/
def bare (t : Token) : Lexeme := ⟨t.kind, t.text, none⟩

theorem Fits.bare {t : Token} {e : Lexeme} (h : t.Fits e) : t.Fits e.bare := ⟨h.1, h.2.1, by simp [Lexeme.bare]⟩

theorem Fits.bare_eq {t : Token} {e : Lexeme} (h : t.Fits e) : t.bare = e.bare := by
  obtain ⟨kind, text, gap?⟩ := e
  obtain ⟨hkind, htext, -⟩ := h
  cases hkind
  cases htext
  rfl

end Token

theorem map_bare_of_fits {ts : List Token} {es : List Lexeme} (h : List.Forall₂ Token.Fits ts es) :
    ts.map Token.bare = es.map Lexeme.bare := by
  induction h with
  | nil => rfl
  | cons ht _ ih => rw [List.map_cons, List.map_cons, ht.bare_eq, ih]

theorem fits_bare_append {ts : List Token} {es us : List Lexeme} (h : List.Forall₂ Token.Fits ts (es ++ us)) :
    List.Forall₂ Token.Fits ts (es.map Lexeme.bare ++ us) := by
  induction es generalizing ts with
  | nil => exact h
  | cons e es ih =>
    obtain ⟨t, ts, ht, hts, rfl⟩ := List.forall₂_cons_right_iff.mp h
    exact .cons ht.bare (ih hts)

/-- The tokens as they stand, behind any gap. -/
def lexemesOf : List Token → List Lexeme
  | [] => []
  | t :: ts => t.bare :: ts.map Token.lexeme

/-- Whether a text is cut into such tokens, behind any gap and at any offset. -/
structure Lexes (cs : List Char) (es : List Lexeme) : Prop where
  free : ∀ e ∈ es.head?, e.gap? = none
  tokens : ∀ pos, ∃ ts tail, Lexer.tokens .between pos cs = .ok (ts, tail) ∧ List.Forall₂ Token.Fits ts es

/-- A gap without line comments in front does not matter. -/
theorem Lexes.behind {gap cs : List Char} {es : List Lexeme} (h : Lexes cs es) (hgap : InlineGap gap) : Lexes (gap ++ cs) es where
  free := h.free
  tokens pos := by
    obtain ⟨ts, tail, hts, hfits⟩ := h.tokens (pos + byteSize gap)
    obtain ⟨n, hlength, ⟨hdrop, rfl, rfl⟩ | ⟨c, rest, kind, m, us, hdrop, hlexeme, htokens, rfl⟩⟩ := tokens_ok hts
    · have hwhole : cs.take n = cs := by simpa [hdrop] using List.take_append_drop n cs
      have hcs : IsGap true cs := hwhole ▸ gapFrom_take hlength fun _ => rfl
      have hlast := gapLength_isGap (hgap.append_isGap hcs) (fun _ => rfl) (by simp [StartsToken] : StartsToken []) pos
      rw [List.append_nil] at hlast
      exact ⟨[], _, tokens_eq_nil hlast List.drop_length, hfits⟩
    · have hn : n < cs.length := by
        have := length_of_drop_eq_cons hdrop
        omega
      have hcs : IsGap false (cs.take n) := gapFrom_take hlength fun hlength => by omega
      have hstart : StartsToken (cs.drop n) := by
        rw [hdrop]
        rintro _ ⟨⟩
        exact gapLength_stops hlength hdrop
      have hlength' := gapLength_isGap (hgap.append_isGap hcs) (fun h => by cases h) hstart pos
      have hsplit : gap ++ cs = (gap ++ cs.take n) ++ cs.drop n := by rw [List.append_assoc, List.take_append_drop]
      rw [← hsplit] at hlength'
      have htake : (gap ++ cs).take (gap ++ cs.take n).length = gap ++ cs.take n := by rw [hsplit, List.take_left]
      have hdrop' : (gap ++ cs).drop (gap ++ cs.take n).length = c :: rest := by rw [hsplit, List.drop_left, hdrop]
      have hpos : pos + byteSize (gap ++ cs.take n) = pos + byteSize gap + byteSize (cs.take n) := by
        rw [byteSize_append, Nat.add_assoc]
      refine ⟨_, tail, tokens_eq_cons hlength' hdrop' (by rwa [htake, hpos]) (by rwa [htake, hpos]), ?_⟩
      obtain ⟨e, es', he, hes, rfl⟩ := List.forall₂_cons_left_iff.mp hfits
      exact .cons ⟨he.1, he.2.1, by simp [h.free e rfl]⟩ hes

namespace Lexer

theorem tokens_append {pos : Nat} {cs rest : List Char} {ts : List Token} {tail : String} {es : List Lexeme}
    (h : tokens .between pos cs = .ok (ts, tail)) (htail : InlineGap tail.toList) (hsep : Separates rest) (hrest : Lexes rest es)
    (pos' : Nat) : ∃ us tail, tokens .between pos' (cs ++ rest) = .ok (us, tail) ∧
      List.Forall₂ Token.Fits us (ts.map Token.lexeme ++ es) := by
  induction hlen : cs.length using Nat.strongRecOn generalizing pos cs ts pos' with
  | ind len ih =>
    obtain ⟨n, hgap, ⟨hdrop, rfl, rfl⟩ | ⟨c, rest', kind, m, us, hdrop, hlexeme, htokens, rfl⟩⟩ := tokens_ok h
    · have hwhole : cs.take n = cs := by simpa [hdrop] using List.take_append_drop n cs
      rw [hwhole, String.toList_ofList] at htail
      exact (hrest.behind htail).tokens pos'
    · have hlength := length_of_drop_eq_cons hdrop
      have hn : n < cs.length := by omega
      have hcomment : ∀ d ∈ rest.head?, d ≠ '/' ∧ d ≠ '*' := by
        intro d hd
        have := (hsep d hd).2
        simp only [List.mem_cons, not_or] at this
        exact ⟨this.2.2.2.1, this.2.2.2.2.1⟩
      have hgap' := gapLength_append .between hgap hn hcomment pos'
      have htake : (cs ++ rest).take n = cs.take n := List.take_append_of_le_length (Nat.le_of_lt hn)
      have hdrop' : (cs ++ rest).drop n = c :: (rest' ++ rest) := by
        rw [List.drop_append_of_le_length (Nat.le_of_lt hn), hdrop, List.cons_append]
      obtain ⟨hlexeme', hm⟩ := lexeme_append hlexeme hsep (pos' + byteSize ((cs ++ rest).take n))
      have htake' : (rest' ++ rest).take m = rest'.take m := List.take_append_of_le_length hm
      have hlt : (rest'.drop m).length < len := by
        rw [List.length_drop]
        omega
      obtain ⟨vs, tail, hvs, hfits⟩ := ih _ hlt htokens
        (pos' + byteSize ((cs ++ rest).take n) + byteSize (c :: (rest' ++ rest).take m)) rfl
      rw [← List.drop_append_of_le_length hm] at hvs
      refine ⟨_, tail, tokens_eq_cons hgap' hdrop' hlexeme' hvs, .cons ⟨rfl, ?_, ?_⟩ hfits⟩
      · rw [htake']
        rfl
      · rintro _ ⟨⟩
        rw [htake]

theorem quotedNameLength_quoted {ds : List Char} (hname : ∀ c ∈ ds, c ≠ '\n' ∧ c ≠ '\x60') (opened : Nat) (cs : List Char) :
    quotedNameLength opened (ds ++ '\x60' :: cs) = .ok (ds.length + 1) := by
  induction ds with
  | nil => rfl
  | cons d ds ih =>
    obtain ⟨hline, hquote⟩ := hname d List.mem_cons_self
    rw [List.cons_append, quotedNameLength, ih fun e he => hname e (List.mem_cons_of_mem d he)]
    · rfl
    · exact fun h => absurd h hline
    · exact fun h => absurd h hquote

/-- A text in quotes is a name. -/
theorem lexeme_quoted {ds : List Char} (hname : ∀ c ∈ ds, c ≠ '\n' ∧ c ≠ '\x60') (pos : Nat) (cs : List Char) :
    lexeme pos '\x60' (ds ++ '\x60' :: cs) = .ok (.name, ds.length + 1) := by
  rw [lexeme.eq_def, if_neg (by decide), if_neg (by decide), if_pos (by decide), quotedNameLength_quoted hname]
  rfl

end Lexer

/-- Segments with a dot before each. -/
def dottedLexemes (segments : List String) : List Lexeme :=
  segments.flatMap fun s => [.mark '.', .word s]

/-- A dotted name. -/
def pathLexemes : List String → List Lexeme
  | [] => []
  | s :: ss => .word s :: dottedLexemes ss

/-! ## Adding a piece in front -/

theorem notNameChar_cons {c : Char} (hc : isNameChar c = false) (cs : List Char) :
    ∀ d ∈ (c :: cs).head?, isNameChar d = false := by
  rintro _ ⟨⟩
  exact hc

theorem Lexer.Separates.notNameChar {cs : List Char} (h : Separates cs) : ∀ c ∈ cs.head?, isNameChar c = false :=
  fun c hc => (h c hc).1

namespace Lexes

variable {cs rest : List Char} {es us : List Lexeme}

theorem bare (h : Lexes cs (es ++ us)) : Lexes cs (es.map Lexeme.bare ++ us) where
  free := by
    cases es with
    | nil => exact h.free
    | cons e es => simp [Lexeme.bare]
  tokens pos := by
    obtain ⟨ts, tail, hts, hfits⟩ := h.tokens pos
    exact ⟨ts, tail, hts, fits_bare_append hfits⟩

theorem nil : Lexes [] [] where
  free := by simp
  tokens pos := ⟨[], _, tokens_eq_nil (n := 0) (by simp [gapLength]) rfl, .nil⟩

theorem text {s tail : String} {ts : List Token} (hs : Lexer.tokens .between 0 s.toList = .ok (ts, tail))
    (htail : InlineGap tail.toList) (hsep : Separates rest) (h : Lexes rest es) : Lexes (s.toList ++ rest) (lexemesOf ts ++ es) where
  free := by
    cases ts with
    | nil => exact h.free
    | cons t ts => simp [lexemesOf, Token.bare]
  tokens pos := by
    obtain ⟨us, tail, hus, hfits⟩ := tokens_append hs htail hsep h pos
    refine ⟨us, tail, hus, ?_⟩
    cases ts with
    | nil => exact hfits
    | cons t ts =>
      obtain ⟨u, us', hu, hus', rfl⟩ := List.forall₂_cons_right_iff.mp hfits
      exact .cons ⟨hu.1, hu.2.1, by simp [Token.bare]⟩ hus'

theorem blank {c : Char} (hc : isBlank c) (h : Lexes cs es) : Lexes (c :: cs) es where
  free := h.free
  tokens pos := by
    obtain ⟨ts, tail, hts, hfits⟩ := h.tokens (pos + c.utf8Size)
    obtain ⟨n, hgap, ⟨hdrop, rfl, rfl⟩ | ⟨d, rest, kind, m, us, hdrop, hlexeme, htokens, rfl⟩⟩ := tokens_ok hts
    all_goals
      have hgap' : gapLength .between pos (c :: cs) = .ok (n + 1) := by
        rw [gapLength_between_blank hc, hgap]
        rfl
    · exact ⟨[], _, tokens_eq_nil hgap' hdrop, hfits⟩
    · have hpos : pos + byteSize ((c :: cs).take (n + 1)) = pos + c.utf8Size + byteSize (cs.take n) := by
        rw [List.take_succ_cons, byteSize, Nat.add_assoc]
      refine ⟨_, tail, tokens_eq_cons hgap' hdrop (by rwa [hpos]) (by rwa [hpos]), ?_⟩
      obtain ⟨e, es', he, hes, rfl⟩ := List.forall₂_cons_left_iff.mp hfits
      exact .cons ⟨he.1, he.2.1, by simp [h.free e rfl]⟩ hes

theorem token {c : Char} {kind : TokenKind} {m : Nat} (hslash : c ≠ '/') (hblank : isBlank c = false)
    (hlexeme : ∀ pos, lexeme pos c cs = .ok (kind, m)) (h : Lexes (cs.drop m) es) :
    Lexes (c :: cs) (⟨kind, .ofList (c :: cs.take m), none⟩ :: es) where
  free := by simp
  tokens pos := by
    obtain ⟨ts, tail, hts, hfits⟩ := h.tokens (pos + byteSize [] + byteSize (c :: cs.take m))
    have hgap := gapLength_between_start hslash hblank pos cs
    exact ⟨_, tail, tokens_eq_cons hgap rfl (hlexeme _) hts, .cons ⟨rfl, rfl, by simp⟩ hfits⟩

theorem blanks {gap : List Char} (hgap : ∀ c ∈ gap, isBlank c) (h : Lexes cs es) : Lexes (gap ++ cs) es := by
  induction gap with
  | nil => exact h
  | cons c gap ih => exact .blank (hgap c List.mem_cons_self) (ih fun d hd => hgap d (List.mem_cons_of_mem c hd))

theorem mark {c : Char} (hc : c ∈ ['(', ')', '\x7b', '\x7d', ':', ',', ';', '.', '<', '>', '?', '*', '='])
    (h : Lexes cs es) : Lexes (c :: cs) (.mark c :: es) := by
  have hstart : c ≠ '/' ∧ isBlank c = false ∧ ∀ pos, lexeme pos c cs = .ok (.mark c, 0) := by
    simp only [List.mem_cons, List.not_mem_nil, or_false] at hc
    rcases hc with rfl | rfl | rfl | rfl | rfl | rfl | rfl | rfl | rfl | rfl | rfl | rfl | rfl <;>
      exact ⟨by decide, by decide, fun pos => rfl⟩
  exact .token (m := 0) hstart.1 hstart.2.1 hstart.2.2 h

theorem word {name : String} (hname : Name.isPlain name) (hrest : ∀ c ∈ cs.head?, isNameChar c = false)
    (h : Lexes cs es) : Lexes (name.toList ++ cs) (.word name :: es) := by
  rw [Name.isPlain] at hname
  split at hname
  next => cases hname
  next c ds hds =>
    rw [Bool.and_eq_true, List.all_eq_true] at hname
    obtain ⟨hstart, hall⟩ := hname
    have htake : (ds ++ cs).takeWhile isNameChar = ds := by
      rw [takeWhile_append_eq hrest, List.takeWhile_eq_self_iff.mpr hall]
    have hlexeme (pos : Nat) : lexeme pos c (ds ++ cs) = .ok (.name, ds.length) := by
      rw [lexeme_of_isNameStart hstart, htake]
    have hblank : isBlank c = false := not_blank_of_isNameChar (isNameChar_of_isNameStart hstart)
    have htoken : Lexes (c :: (ds ++ cs)) (⟨.name, .ofList (c :: (ds ++ cs).take ds.length), none⟩ :: es) :=
      token (ne_of_isNameStart hstart (by decide)) hblank hlexeme (by rwa [List.drop_left])
    rw [List.take_left, ← hds, String.ofList_toList] at htoken
    rwa [hds]

/-- A word with a blank behind it. -/
theorem word_blank {name : String} {c : Char} (hname : Name.isPlain name) (hc : isBlank c) (h : Lexes cs es) :
    Lexes (name.toList ++ c :: cs) (.word name :: es) :=
  .word hname (notNameChar_cons (isNameChar_eq_false_of_isBlank hc) cs) (.blank hc h)

theorem quoted {name : String} (hname : ∀ c ∈ name.toList, c ≠ '\n' ∧ c ≠ '\x60') (h : Lexes cs es) :
    Lexes (("`" ++ name ++ "`").toList ++ cs) (.word ("`" ++ name ++ "`") :: es) := by
  have hlexeme (pos : Nat) : lexeme pos '\x60' (name.toList ++ '\x60' :: cs) = .ok (.name, name.toList.length + 1) :=
    lexeme_quoted hname pos cs
  have htoken : Lexes ('\x60' :: (name.toList ++ '\x60' :: cs))
      (⟨.name, .ofList ('\x60' :: (name.toList ++ '\x60' :: cs).take (name.toList.length + 1)), none⟩ :: es) :=
    token (by decide) (by decide) hlexeme (by simpa using h)
  have htext : String.ofList ('\x60' :: (name.toList ++ '\x60' :: cs).take (name.toList.length + 1)) = "`" ++ name ++ "`" := by
    apply String.toList_injective
    simp [List.take_append, List.take_of_length_le (Nat.le_succ name.toList.length)]
  rw [htext] at htoken
  simpa [Lexeme.word] using htoken

theorem safeName {name : String} (hname : Name.isPlain name) (hrest : ∀ c ∈ cs.head?, isNameChar c = false)
    (h : Lexes cs es) : Lexes ((Kotlin.safeName name).toList ++ cs) (.word (Kotlin.safeName name) :: es) := by
  have hall : reservedWords.all (fun w => w.toList.all fun c => c ≠ '\n' ∧ c ≠ '\x60') := by decide +kernel
  have hreserved : ∀ w ∈ reservedWords, ∀ c ∈ w.toList, c ≠ '\n' ∧ c ≠ '\x60' := by
    simpa only [List.all_eq_true, decide_eq_true_eq] using hall
  rw [Kotlin.safeName]
  split
  next hname => exact .quoted (hreserved name (List.contains_iff_mem.mp hname)) h
  next => exact .word hname hrest h

theorem path {segments : List String} (hne : segments ≠ [])
    (hplain : ∀ s ∈ segments, Name.isPlain s) (hcs : ∀ c ∈ cs.head?, isNameChar c = false) (h : Lexes cs es) :
    Lexes ((join "." segments).toList ++ cs) (pathLexemes segments ++ es) := by
  obtain ⟨s, ss, rfl⟩ := List.exists_cons_of_ne_nil hne
  clear hne
  induction ss generalizing s with
  | nil => exact .word (hplain s List.mem_cons_self) hcs h
  | cons u us ih =>
    have hus := ih u fun v hv => hplain v (List.mem_cons_of_mem s hv)
    rw [join_cons (List.cons_ne_nil u us), String.toList_append, String.toList_append, List.append_assoc,
      List.append_assoc]
    exact .word (hplain s List.mem_cons_self) (notNameChar_cons (by decide) _) (.mark (by decide) hus)

end Lexes

end Counterpart.Kotlin
