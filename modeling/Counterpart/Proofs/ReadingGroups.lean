/-
Bracketed groups are read back verbatim. A text that is one group of type parameters or of arguments when it is a source of
its own is the same group in front of anything: brackets are matched by kind (`closeGroup_fits`, `closeAngles_fits`), and
the text of a group is the texts and inner gaps of its tokens.
-/
import Counterpart.Proofs.Reading
import Counterpart.Kotlin.Body

namespace Counterpart.Kotlin

open Text
open List (Forall₂)

/-! ## The text of tokens -/

namespace Lexer

theorem text_of_mark {state : GapState} {pos : Nat} {cs : List Char} {t : Token} {ts : List Token} {tail : String} {c : Char}
    (h : tokens state pos cs = .ok (t :: ts, tail)) (hc : t.kind = .mark c) : t.text = .singleton c := by
  obtain ⟨n, d, rest, kind, m, -, -, hlexeme, -, rfl⟩ := tokens_cons_ok h
  cases hc
  obtain ⟨rfl, rfl, -⟩ := lexeme_mark hlexeme
  rfl

end Lexer

theorem verbatim_eq (t : Token) (ts : List Token) :
    String.join ((t :: ts).map fun u => u.gap ++ u.text) = t.gap ++ Token.verbatim (t :: ts) := by
  rw [List.map_cons, String.join_cons, Token.verbatim, String.append_assoc]

theorem tokens_of_ofSource {text : String} {st : TokenStream} {t : Token} {ts : List Token} {c : Char}
    (h : TokenStream.ofSource text = .ok st) (hts : st.tokens = t :: ts) (hmark : t.kind = .mark c) (hc : c ≠ '#')
    (hverbatim : Token.verbatim st.tokens = text) :
    Lexer.tokens .between 0 text.toList = .ok (st.tokens, "") ∧ ∃ cs, text.toList = c :: cs := by
  obtain ⟨htokens, -⟩ := TokenStream.ofSource_ok h
  rw [hts] at htokens hverbatim ⊢
  have htext := Lexer.text_of_mark htokens hmark
  have hsource := Lexer.tokens_source htokens
  rw [String.ofList_toList, verbatim_eq, hverbatim] at hsource
  have hlength := congrArg String.length hsource
  simp only [String.length_append] at hlength
  have htail : st.tail = "" := by
    rw [← String.length_eq_zero_iff]
    omega
  have hhead : ∃ cs, text.toList = c :: cs := by
    have := congrArg String.toList hverbatim
    rw [Token.verbatim, htext, String.toList_append, String.toList_singleton, List.singleton_append] at this
    exact ⟨_, this.symm⟩
  obtain ⟨cs, hcs⟩ := hhead
  have hhash : ['#', '!'].isPrefixOf text.toList = false := by
    rw [hcs]
    simp [List.isPrefixOf, Ne.symm hc]
  rw [hhash, htail] at htokens
  exact ⟨htokens, cs, hcs⟩

theorem verbatim_of_fits {ts us : List Token} (h : Forall₂ Token.Fits us (lexemesOf ts)) :
    Token.verbatim us = Token.verbatim ts := by
  have hlexemes {us ts : List Token} (h : Forall₂ Token.Fits us (ts.map Token.lexeme)) :
      us.map (fun u => u.gap ++ u.text) = ts.map fun u => u.gap ++ u.text := by
    induction ts generalizing us with
    | nil => cases h; rfl
    | cons t ts ih =>
      obtain ⟨u, vs, hu, hvs, rfl⟩ := List.forall₂_cons_right_iff.mp h
      rw [List.map_cons, List.map_cons, ih hvs, hu.2.1, hu.2.2 t.gap rfl]
      rfl
  cases ts with
  | nil => cases h; rfl
  | cons t ts =>
    obtain ⟨u, vs, hu, hvs, rfl⟩ := List.forall₂_cons_right_iff.mp h
    rw [Token.verbatim, Token.verbatim, hlexemes hvs, hu.2.1]
    rfl

/-! ## Matching brackets -/

variable {ts us : List Token} {rest : List Lexeme} {c : Char}

theorem closer?_of_kind {t u : Token} (h : u.kind = t.kind) : u.closer? = t.closer? := by
  rw [Token.closer?, Token.closer?, h]

theorem closing?_of_kind {t u : Token} (h : u.kind = t.kind) : u.closing? = t.closing? := by
  rw [Token.closing?, Token.closing?, h]

theorem isMark_of_kind {t u : Token} (h : u.kind = t.kind) (c : Char) : u.isMark c = t.isMark c := by
  rw [Token.isMark, Token.isMark, h]

theorem closeGroup_fits {opened opened' left : List Token}
    (hopened : Forall₂ (fun u t => u.closer? = t.closer?) opened' opened) (h : closeGroup opened ts = .ok left)
    (hfits : Forall₂ Token.Fits us (ts.map Token.lexeme ++ rest)) :
    ∃ left', closeGroup opened' us = .ok left' ∧ Forall₂ Token.Fits left' (left.map Token.lexeme ++ rest) := by
  fun_induction closeGroup opened ts generalizing opened' us
  case case1 ts =>
    cases hopened
    cases h
    exact ⟨us, by rw [closeGroup], hfits⟩
  case case2 => cases h
  all_goals
    obtain ⟨u, vs, hu, hvs, rfl⟩ := List.forall₂_cons_right_iff.mp hfits
    obtain ⟨top', up', htop, hup, rfl⟩ := List.forall₂_cons_right_iff.mp hopened
    rw [closeGroup, closer?_of_kind hu.1, closing?_of_kind hu.1]
  case case3 hcloser ih =>
    rw [if_pos hcloser]
    exact ih (.cons (closer?_of_kind hu.1) (.cons htop hup)) h hvs
  case case4 hcloser hclosing ih =>
    rw [if_neg hcloser, hclosing]
    exact ih (.cons htop hup) h hvs
  case case5 hcloser expected hclosing ih =>
    rw [if_neg hcloser, hclosing]
    simp only [htop]
    rw [if_pos (show expected = _ from rfl)]
    exact ih hup h hvs
  case case6 => cases h

theorem closeGroup_of_skipGroup {opener : Token} {p} (h : skipGroup opener ts = .ok p) :
    closeGroup [opener] ts = .ok p.rest := by
  rw [skipGroup] at h
  split at h
  next rest hrest =>
    cases h
    exact hrest
  next => cases h

theorem exists_skipGroup {opener : Token} {left : List Token} (h : closeGroup [opener] ts = .ok left) :
    ∃ p, skipGroup opener ts = .ok p ∧ p.rest = left := by
  rw [skipGroup]
  split
  next rest hrest =>
    cases h.symm.trans hrest
    exact ⟨_, rfl, rfl⟩
  next e he => cases h.symm.trans he

theorem skipGroup_fits {t u : Token} (hkind : u.kind = t.kind) {p} (h : skipGroup t ts = .ok p)
    (hfits : Forall₂ Token.Fits us (ts.map Token.lexeme ++ rest)) :
    ∃ q, skipGroup u us = .ok q ∧ Forall₂ Token.Fits q.rest (p.rest.map Token.lexeme ++ rest) := by
  obtain ⟨left, hleft, hfits'⟩ := closeGroup_fits (.cons (closer?_of_kind hkind) .nil) (closeGroup_of_skipGroup h) hfits
  obtain ⟨q, hq, rfl⟩ := exists_skipGroup hleft
  exact ⟨q, hq, hfits'⟩

theorem skipOne_fits {t u : Token} (hkind : u.kind = t.kind) {p} (h : skipOne t ts = .ok p)
    (hfits : Forall₂ Token.Fits us (ts.map Token.lexeme ++ rest)) :
    ∃ q, skipOne u us = .ok q ∧ Forall₂ Token.Fits q.rest (p.rest.map Token.lexeme ++ rest) := by
  rw [skipOne] at h
  rw [skipOne, closer?_of_kind hkind, isMark_of_kind hkind, isMark_of_kind hkind]
  split at h
  next hcloser =>
    rw [if_pos hcloser]
    exact skipGroup_fits hkind h hfits
  next hcloser =>
    rw [if_neg hcloser]
    split at h
    next => cases h
    next hparen =>
      rw [if_neg hparen]
      split at h
      next => cases h
      next hbracket =>
        cases h
        rw [if_neg hbracket]
        exact ⟨_, rfl, hfits⟩

theorem closeAngles_fits {opener opener' : Token} {depth : Nat} {p} (h : closeAngles opener depth ts = .ok p) (hp : p.rest = [])
    (hfits : Forall₂ Token.Fits us (ts.map Token.lexeme ++ rest)) :
    ∃ q, closeAngles opener' depth us = .ok q ∧ Forall₂ Token.Fits q.rest rest := by
  induction hlen : ts.length using Nat.strongRecOn generalizing ts us depth with
  | ind len ih =>
    cases ts with
    | nil =>
      rw [closeAngles] at h
      split at h
      next hdepth =>
        subst hdepth
        refine ⟨.keep () us, ?_, hfits⟩
        rw [closeAngles.eq_def]
        cases us <;> rfl
      next => cases h
    | cons t ts =>
      obtain ⟨u, vs, hu, hvs, rfl⟩ := List.forall₂_cons_right_iff.mp hfits
      rw [closeAngles] at h
      rw [closeAngles, isMark_of_kind hu.1, isMark_of_kind hu.1, isMark_of_kind hu.1, isMark_of_kind hu.1]
      split at h
      next =>
        cases h
        cases hp
      next hdepth =>
        rw [if_neg hdepth]
        split at h
        next => cases h
        next hmark =>
          rw [if_neg hmark]
          simp only [bind, Except.bind] at h ⊢
          split at h
          next => cases h
          next r hr =>
            split at h
            next => cases h
            next r' hr' =>
              cases h
              obtain ⟨q, hq, hq'⟩ := skipOne_fits hu.1 hr hvs
              have hlt : r.rest.length < len := by
                have := r.rest_lt
                rwa [← hlen, List.length_cons]
              obtain ⟨q', hq₁, hq₂⟩ := ih _ hlt hr' hp hq' rfl
              rw [hq]
              simp only
              rw [hq₁]
              exact ⟨_, rfl, hq₂⟩

/-! ## Groups -/

/-- Whether a text, as a source of its own, is one group that `read` takes whole. -/
def isGroup (read : (ts : List Token) → Except Fault (Parsed (Option String) (ts.length + 1))) (text : String) : Bool :=
  match TokenStream.ofSource text with
  | .ok st =>
    match read st.tokens with
    | .ok p => p.value == some text && p.rest.isEmpty
    | .error _ => false
  | .error _ => false

theorem exists_of_isGroup {read} {text : String} (h : isGroup read text) :
    ∃ st p, TokenStream.ofSource text = .ok st ∧ read st.tokens = .ok p ∧ p.value = some text ∧ p.rest = [] := by
  rw [isGroup] at h
  split at h
  next st hst =>
    split at h
    next p hp =>
      rw [Bool.and_eq_true, beq_iff_eq, List.isEmpty_iff] at h
      exact ⟨st, p, hst, hp, h.1, h.2⟩
    next => cases h
  next => cases h

theorem verbatimBetween_nil (ts : List Token) : verbatimBetween ts [] = Token.verbatim ts := by
  rw [verbatimBetween, List.length_nil, Nat.sub_zero, List.take_length]

theorem verbatimBetween_of_fits {left : List Token} (h : Forall₂ Token.Fits us (lexemesOf ts ++ rest))
    (hleft : Forall₂ Token.Fits left rest) : verbatimBetween us left = Token.verbatim ts := by
  have hlength : us.length - left.length = (lexemesOf ts).length := by
    rw [h.length_eq, hleft.length_eq, List.length_append, Nat.add_sub_cancel]
  rw [verbatimBetween, hlength]
  exact verbatim_of_fits (List.forall₂_take_append _ _ _ h)

theorem kind_of_isMark {t : Token} (h : t.isMark c) : t.kind = .mark c := by
  simpa [Token.isMark] using h

/-- A group that `read` takes verbatim from the mark `c` on is read in front of anything. -/
theorem group_reads {read : (ts : List Token) → Except Fault (Parsed (Option String) (ts.length + 1))} (hc : c ≠ '#')
    (hread : ∀ {ts p text}, read ts = .ok p → p.value = some text → p.rest = [] →
      ∃ t us, ts = t :: us ∧ t.isMark c ∧ text = verbatimBetween ts [] ∧
        ∀ {u vs rest}, u.kind = t.kind → Forall₂ Token.Fits vs (us.map Token.lexeme ++ rest) →
          ∃ q, read (u :: vs) = .ok q ∧ q.value = some (verbatimBetween (u :: vs) q.rest) ∧
            Forall₂ Token.Fits q.rest rest)
    {text : String} (h : isGroup read text) : ∃ ts cs,
      Lexer.tokens .between 0 text.toList = .ok (ts, "") ∧ text.toList = c :: cs ∧
        ∀ rest, Reads read (lexemesOf ts) rest (· = some text) := by
  obtain ⟨st, p, hst, hp, hvalue, hrest⟩ := exists_of_isGroup h
  obtain ⟨t, ts, hts, ht, rfl, hfits⟩ := hread hp hvalue hrest
  rw [verbatimBetween_nil] at hst ⊢
  obtain ⟨htokens, cs, hcs⟩ := tokens_of_ofSource hst hts (kind_of_isMark ht) hc rfl
  refine ⟨st.tokens, cs, htokens, hcs, fun rest us hus => ?_⟩
  have hus' := hus
  rw [hts] at hus'
  obtain ⟨u, vs, hu, hvs, rfl⟩ := List.forall₂_cons_right_iff.mp hus'
  obtain ⟨q, hq, hqvalue, hqfits⟩ := hfits hu.1 hvs
  exact ⟨q, hq, by rw [hqvalue, verbatimBetween_of_fits hus hqfits], hqfits⟩

/-! ### Type parameters -/

theorem typeParameters_angle {t : Token} (ht : t.isMark '<') {p} (hp : closeAngles t 1 ts = .ok p) :
    ∃ q, typeParameters (t :: ts) = .ok q ∧ q.value = some (verbatimBetween (t :: ts) p.rest) ∧ q.rest = p.rest := by
  have htake : takeMark '<' (t :: ts) = .taken true t ts := by rw [takeMark, if_pos ht]
  rw [typeParameters, htake]
  simp only [Parsed.taken, List.head?_cons, bind, Except.bind]
  rw [hp]
  exact ⟨_, rfl, rfl, rfl⟩

theorem typeParameters_some {p} (h : typeParameters ts = .ok p) {text : String} (hvalue : p.value = some text) :
    ∃ t us q, ts = t :: us ∧ t.isMark '<' ∧ closeAngles t 1 us = .ok q ∧ text = verbatimBetween ts q.rest ∧
      p.rest = q.rest := by
  rw [typeParameters] at h
  cases ts with
  | nil =>
    cases h
    cases hvalue
  | cons t us =>
    by_cases ht : t.isMark '<'
    · have htake : takeMark '<' (t :: us) = .taken true t us := by rw [takeMark, if_pos ht]
      rw [htake] at h
      simp only [Parsed.taken, List.head?_cons, bind, Except.bind] at h
      split at h
      next => cases h
      next q hq =>
        cases h
        cases hvalue
        exact ⟨t, us, q, rfl, ht, hq, rfl, rfl⟩
    · have htake : takeMark '<' (t :: us) = .keep false (t :: us) := by rw [takeMark, if_neg ht]
      rw [htake] at h
      cases h
      cases hvalue

theorem typeParameters_reads {text : String} (h : isGroup typeParameters text) : ∃ ts cs,
    Lexer.tokens .between 0 text.toList = .ok (ts, "") ∧ text.toList = '<' :: cs ∧
      ∀ rest, Reads typeParameters (lexemesOf ts) rest (· = some text) := by
  refine group_reads (by decide) (fun {ts p text} hp hvalue hrest => ?_) h
  obtain ⟨t, us, q, rfl, ht, hq, htext, hprest⟩ := typeParameters_some hp hvalue
  have hnil : q.rest = [] := hprest ▸ hrest
  refine ⟨t, us, rfl, ht, hnil ▸ htext, fun {u vs rest} hkind hvs => ?_⟩
  obtain ⟨q', hq', hfits⟩ := closeAngles_fits hq hnil hvs
  obtain ⟨r, hr, hrvalue, hrrest⟩ := typeParameters_angle ((isMark_of_kind hkind '<').trans ht) hq'
  exact ⟨r, hr, by rw [hrvalue, hrrest], by rwa [hrrest]⟩

/-! ### Arguments -/

theorem entryArguments_paren {t : Token} (ht : t.isMark '(') {p} (hp : skipGroup t ts = .ok p) :
    ∃ q, entryArguments (t :: ts) = .ok q ∧ q.value = some (verbatimBetween (t :: ts) p.rest) ∧ q.rest = p.rest := by
  rw [entryArguments, if_pos ht]
  simp only [bind, Except.bind]
  rw [hp]
  exact ⟨_, rfl, rfl, rfl⟩

theorem entryArguments_some {p} (h : entryArguments ts = .ok p) {text : String} (hvalue : p.value = some text) :
    ∃ t us q, ts = t :: us ∧ t.isMark '(' ∧ skipGroup t us = .ok q ∧ text = verbatimBetween ts q.rest ∧
      p.rest = q.rest := by
  cases ts with
  | nil =>
    cases h
    cases hvalue
  | cons t us =>
    rw [entryArguments] at h
    split at h
    next ht =>
      simp only [bind, Except.bind] at h
      split at h
      next => cases h
      next q hq =>
        cases h
        cases hvalue
        exact ⟨t, us, q, rfl, ht, hq, rfl, rfl⟩
    next =>
      cases h
      cases hvalue

theorem entryArguments_reads {text : String} (h : isGroup entryArguments text) : ∃ ts cs,
    Lexer.tokens .between 0 text.toList = .ok (ts, "") ∧ text.toList = '(' :: cs ∧
      ∀ rest, Reads entryArguments (lexemesOf ts) rest (· = some text) := by
  refine group_reads (by decide) (fun {ts p text} hp hvalue hrest => ?_) h
  obtain ⟨t, us, q, rfl, ht, hq, htext, hprest⟩ := entryArguments_some hp hvalue
  have hnil : q.rest = [] := hprest ▸ hrest
  refine ⟨t, us, rfl, ht, hnil ▸ htext, fun {u vs rest} hkind hvs => ?_⟩
  obtain ⟨q', hq', hfits⟩ := skipGroup_fits hkind hq hvs
  rw [hnil] at hfits
  obtain ⟨r, hr, hrvalue, hrrest⟩ := entryArguments_paren ((isMark_of_kind hkind '(').trans ht) hq'
  exact ⟨r, hr, by rw [hrvalue, hrrest], by rwa [hrrest]⟩

end Counterpart.Kotlin
