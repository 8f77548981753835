/-
Reading tokens that fit given lexemes. `Reads` says of a reader that it takes some lexemes off the front and what it makes
of them; it holds under a condition on what follows, since a reader looks at the token behind what it takes.
-/
import Counterpart.Proofs.Lexemes
import Counterpart.Kotlin.Header

namespace Counterpart.Kotlin

open Text
open List (Forall₂)

/-! ## Tokens that fit -/

namespace Token.Fits

variable {t : Token} {w : String} {c : Char}

theorem isName_word (h : t.Fits (.word w)) : t.isName = true := by
  rw [isName, h.1]
  rfl

theorem isMark_word (h : t.Fits (.word w)) (c : Char) : t.isMark c = false := by
  rw [isMark, h.1]
  rfl

theorem isWord_word (h : t.Fits (.word w)) (v : String) : t.isWord v = (w == v) := by
  rw [isWord, h.isName_word, h.2.1]
  rfl

theorem isName_mark (h : t.Fits (.mark c)) : t.isName = false := by
  rw [isName, h.1]
  rfl

theorem isMark_mark (h : t.Fits (.mark c)) (d : Char) : t.isMark d = (c == d) := by
  rw [isMark, h.1, Bool.eq_iff_iff]
  simp [Lexeme.mark]

end Token.Fits

/-! ## What comes next -/

/-- Whether none of the marks comes next. -/
def NotAt (marks : List Char) (es : List Lexeme) : Prop :=
  ∀ e ∈ es.head?, ∀ c ∈ marks, e.kind ≠ .mark c

/-- Whether `read` takes `es` off the front where `rest` follows, and gives a value with `P`. -/
def Reads {α : Type} {bound : List Token → Nat} (read : (ts : List Token) → Except Fault (Parsed α (bound ts)))
    (es rest : List Lexeme) (P : α → Prop) : Prop :=
  ∀ ts, Forall₂ Token.Fits ts (es ++ rest) → ∃ p, read ts = .ok p ∧ P p.value ∧ Forall₂ Token.Fits p.rest rest

variable {ts : List Token} {es rest : List Lexeme} {c : Char}

theorem notAt_mark {marks : List Char} (hc : c ∉ marks) : NotAt marks (.mark c :: es) := by
  rintro _ ⟨⟩ d hd hcd
  cases hcd
  exact hc hd

theorem notAt_word {marks : List Char} {w : String} : NotAt marks (.word w :: es) := by
  rintro _ ⟨⟩ d hd hcd
  cases hcd

theorem NotAt.of_subset {marks marks' : List Char} (h : NotAt marks es) (hsub : marks' ⊆ marks) : NotAt marks' es :=
  fun e he c hc => h e he c (hsub hc)

theorem takeMark_mark (h : Forall₂ Token.Fits ts (.mark c :: es)) :
    ∃ us hlt, takeMark c ts = ⟨true, us, hlt⟩ ∧ Forall₂ Token.Fits us es := by
  obtain ⟨t, us, ht, hus, rfl⟩ := List.forall₂_cons_right_iff.mp h
  refine ⟨us, Nat.lt_succ_of_lt (Nat.lt_succ_self us.length), ?_, hus⟩
  rw [takeMark, if_pos (by simp [ht.isMark_mark])]
  rfl

theorem isMark_of_notAt (h : Forall₂ Token.Fits ts es) {marks} (hes : NotAt marks es) (hc : c ∈ marks) :
    ∀ t ∈ ts.head?, t.isMark c = false := by
  cases h with
  | nil => simp
  | cons ht hts =>
    rintro _ ⟨⟩
    rw [Token.isMark, ht.1]
    simpa using hes _ rfl c hc

theorem takeMark_of_notAt (h : Forall₂ Token.Fits ts es) {marks} (hes : NotAt marks es) (hc : c ∈ marks) :
    takeMark c ts = .keep false ts := by
  have := isMark_of_notAt h hes hc
  cases ts with
  | nil => rfl
  | cons t ts => simp [takeMark, this t rfl]

theorem takeMark_optional {present : Bool} {marks : List Char}
    (h : Forall₂ Token.Fits ts ((if present then [.mark c] else []) ++ rest)) (hrest : NotAt marks rest) (hc : c ∈ marks) :
    (takeMark c ts).value = present ∧ Forall₂ Token.Fits (takeMark c ts).rest rest := by
  cases present with
  | false =>
    rw [takeMark_of_notAt h hrest hc]
    exact ⟨rfl, h⟩
  | true =>
    obtain ⟨us, hlt, htake, hus⟩ := takeMark_mark h
    rw [htake]
    exact ⟨rfl, hus⟩

theorem skipAnnotations_of_notAt (h : Forall₂ Token.Fits ts es) {marks} (hes : NotAt marks es) (hat : '@' ∈ marks) :
    skipAnnotations ts = .ok (.keep () ts) := by
  have := isMark_of_notAt h hes hat
  rw [skipAnnotations.eq_def]
  cases ts with
  | nil => rfl
  | cons t ts => simp only [this t rfl, Bool.false_eq_true, if_false]

/-! ## Dotted names -/

/-- No segment of a name follows: no dot, or the dot before a star. -/
def EndsPath (es : List Lexeme) : Prop :=
  NotAt ['.'] es ∨ ∃ us, es = .mark '.' :: .mark '*' :: us

theorem moreSegments_of_endsPath (name : String) (hrest : EndsPath rest) (h : Forall₂ Token.Fits ts rest) :
    moreSegments name ts = .keep name ts := by
  rw [moreSegments.eq_def]
  split
  next dot t ts =>
    rcases hrest with hrest | ⟨us, rfl⟩
    · have hdot := isMark_of_notAt h hrest List.mem_cons_self
      rw [if_neg (by simp [hdot dot rfl])]
    · cases h with
      | cons _ hts =>
        cases hts with
        | cons hstar _ => rw [if_neg (by simp [hstar.isName_mark])]
  next => rfl

theorem moreSegments_reads (name : String) (segments : List String) (hrest : EndsPath rest)
    (h : Forall₂ Token.Fits ts (dottedLexemes segments ++ rest)) :
    (moreSegments name ts).value = join "." (name :: segments) ∧
      Forall₂ Token.Fits (moreSegments name ts).rest rest := by
  induction segments generalizing name ts with
  | nil =>
    rw [moreSegments_of_endsPath name hrest h]
    exact ⟨rfl, h⟩
  | cons s ss ih =>
    obtain ⟨t, us, ht, hus, rfl⟩ := List.forall₂_cons_right_iff.mp h
    obtain ⟨u, vs, hu, hvs, rfl⟩ := List.forall₂_cons_right_iff.mp hus
    obtain ⟨hvalue, hrest⟩ := ih (name ++ "." ++ s) hvs
    simp only [moreSegments, ht.isMark_mark, hu.isName_word, hu.2.1, beq_self_eq_true, Bool.and_self, if_true]
    refine ⟨hvalue.trans ?_, hrest⟩
    cases ss <;> simp [join, String.append_assoc]

theorem dottedName_reads (role : NameRole) {segments : List String} (hne : segments ≠ []) (hrest : EndsPath rest) :
    Reads (dottedName role) (pathLexemes segments) rest (· = join "." segments) := by
  intro ts h
  obtain ⟨s, ss, rfl⟩ := List.exists_cons_of_ne_nil hne
  obtain ⟨t, us, ht, hus, rfl⟩ := List.forall₂_cons_right_iff.mp h
  obtain ⟨hvalue, hrest⟩ := moreSegments_reads t.text ss hrest hus
  rw [ht.2.1] at hvalue
  exact ⟨moreSegments t.text us, by rw [dottedName, if_pos ht.isName_word], by rwa [ht.2.1], hrest⟩

end Counterpart.Kotlin
