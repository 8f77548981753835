/-
The bodies of classes: the entries of an enum, with the comma or the semicolon behind the last, and the classes nested in
one. Each branch of a reader has a lemma of its own, so that the readings are put together without opening a reader again.
-/
import Counterpart.Proofs.ReadingHeaders

namespace Counterpart.Kotlin

open Text
open List (Forall₂)

variable {ts us : List Token} {es rest : List Lexeme}

/-! ## Enum entries -/

/-- Entries with what ends them: a comma behind each, or a semicolon behind the last where members follow. -/
def constantLexemes (hasMembers : Bool) : List (List Lexeme) → List Lexeme
  | [] => if hasMembers then [.mark ';'] else []
  | [es] => es ++ [.mark (if hasMembers then ';' else ',')]
  | es :: ess => es ++ .mark ',' :: constantLexemes hasMembers ess

theorem constantLexemes_cons {hasMembers : Bool} {ess : List (List Lexeme)} (h : hasMembers = false ∨ ess ≠ [])
    (es : List Lexeme) :
    constantLexemes hasMembers (es :: ess) = es ++ .mark ',' :: constantLexemes hasMembers ess := by
  cases ess with
  | nil =>
    rcases h with rfl | h
    · rfl
    · exact absurd rfl h
  | cons => rfl

theorem entryArguments_none (h : Forall₂ Token.Fits ts es) (hes : NotAt ['('] es) :
    entryArguments ts = .ok (.keep none ts) := by
  have hmark := isMark_of_notAt h hes List.mem_cons_self
  cases ts with
  | nil => rfl
  | cons t ts =>
    rw [entryArguments, if_neg (by simp [hmark t rfl])]
    rfl

theorem skipEntryBody_none (h : Forall₂ Token.Fits ts es) (hes : NotAt ['\x7b'] es) :
    skipEntryBody ts = .ok (.keep () ts) := by
  have hmark := isMark_of_notAt h hes List.mem_cons_self
  cases ts with
  | nil => rfl
  | cons t ts =>
    rw [skipEntryBody, if_neg (by simp [hmark t rfl])]
    rfl

theorem enumEntry_ok {t : Token} {p} (hargs : entryArguments ts = .ok p)
    (hbody : skipEntryBody p.rest = .ok (.keep () p.rest)) :
    ∃ q, enumEntry t ts = .ok q ∧ q.value = ⟨Name.unquote t.text, p.value⟩ ∧ q.rest = p.rest := by
  rw [enumEntry, hargs]
  simp only [bind, Except.bind]
  rw [hbody]
  exact ⟨_, rfl, rfl, rfl⟩

theorem enumEntries_semicolon {t : Token} (ht : t.Fits (.mark ';')) (hus : Forall₂ Token.Fits us rest) :
    ∃ p, enumEntries (t :: us) = .ok p ∧ p.value = [] ∧ p.rest = us := by
  have hskip := skipAnnotations_of_notAt (.cons ht hus) (notAt_mark (by decide)) (List.mem_singleton_self '@')
  rw [enumEntries, hskip]
  simp only [bind, Except.bind, Parsed.keep]
  rw [if_pos (by simp [ht.isMark_mark])]
  exact ⟨_, rfl, rfl, rfl⟩

theorem enumEntries_close {t : Token} (ht : t.Fits (.mark '\x7d')) (hus : Forall₂ Token.Fits us rest) :
    ∃ p, enumEntries (t :: us) = .ok p ∧ p.value = [] ∧ p.rest = t :: us := by
  have hskip := skipAnnotations_of_notAt (.cons ht hus) (notAt_mark (by decide)) (List.mem_singleton_self '@')
  rw [enumEntries, hskip]
  simp only [bind, Except.bind, Parsed.keep]
  rw [if_neg (by simp [ht.isMark_mark]), if_pos (by simp [ht.isMark_mark])]
  exact ⟨_, rfl, rfl, rfl⟩

theorem enumEntries_more {t : Token} {w : String} (ht : t.Fits (.word w)) (hus : Forall₂ Token.Fits us rest) {p}
    (hp : enumEntry t us = .ok p) {vs : List Token} {hlt} (hcomma : takeMark ',' p.rest = ⟨true, vs, hlt⟩) {q}
    (hq : enumEntries vs = .ok q) :
    ∃ r, enumEntries (t :: us) = .ok r ∧ r.value = p.value :: q.value ∧ r.rest = q.rest := by
  have hskip := skipAnnotations_of_notAt (.cons ht hus) notAt_word (List.mem_singleton_self '@')
  rw [enumEntries, hskip]
  simp only [bind, Except.bind, Parsed.keep]
  rw [if_neg (by simp [ht.isMark_word]), if_neg (by simp [ht.isMark_word]), if_pos ht.isName_word, hp]
  simp only
  rw [hcomma]
  simp only
  rw [hq]
  exact ⟨_, rfl, rfl, rfl⟩

theorem enumEntries_last {t : Token} {w : String} (ht : t.Fits (.word w)) (hus : Forall₂ Token.Fits us rest) {p}
    (hp : enumEntry t us = .ok p) (hcomma : takeMark ',' p.rest = .keep false p.rest) :
    ∃ r, enumEntries (t :: us) = .ok r ∧ r.value = [p.value] ∧ r.rest = (takeMark ';' p.rest).rest := by
  have hskip := skipAnnotations_of_notAt (.cons ht hus) notAt_word (List.mem_singleton_self '@')
  rw [enumEntries, hskip]
  simp only [bind, Except.bind, Parsed.keep]
  rw [if_neg (by simp [ht.isMark_word]), if_neg (by simp [ht.isMark_word]), if_pos ht.isName_word, hp]
  simp only
  rw [hcomma]
  exact ⟨_, rfl, rfl, rfl⟩

/-- Whether the lexemes are an entry of an enum. -/
def IsEntry (es : List Lexeme) (e : EnumEntry) : Prop :=
  Name.isPlain e.name ∧ ∃ args, es = .word (safeName e.name) :: args ∧
    ∀ rest, NotAt ['('] rest → Reads entryArguments args rest (· = e.args)

theorem IsEntry.reads {e : EnumEntry} (h : IsEntry es e) (hrest : NotAt ['(', '\x7b'] rest)
    (hts : Forall₂ Token.Fits ts (es ++ rest)) : ∃ t us args p, ts = t :: us ∧ t.Fits (.word (safeName e.name)) ∧
      Forall₂ Token.Fits us (args ++ rest) ∧ enumEntry t us = .ok p ∧ p.value = e ∧ Forall₂ Token.Fits p.rest rest := by
  obtain ⟨hname, args, rfl, hread⟩ := h
  obtain ⟨t, us, ht, hus, rfl⟩ := List.forall₂_cons_right_iff.mp hts
  obtain ⟨p, hp, hvalue, hfits⟩ := hread rest (hrest.of_subset (by decide)) us hus
  obtain ⟨q, hq, hqvalue, hqrest⟩ := enumEntry_ok (t := t) hp (skipEntryBody_none hfits (hrest.of_subset (by decide)))
  refine ⟨t, us, args, q, rfl, ht, hus, hq, ?_, by rwa [hqrest]⟩
  rw [hqvalue, hvalue, ht.2.1]
  simp only [Lexeme.word, unquote_safeName hname]

theorem enumEntries_reads {hasMembers : Bool} {ess : List (List Lexeme)} {entries : List EnumEntry}
    (h : Forall₂ IsEntry ess entries) (hrest : hasMembers = false → ∃ us, rest = .mark '\x7d' :: us) :
    Reads enumEntries (constantLexemes hasMembers ess) rest (· = entries) := by
  induction h with
  | nil =>
    intro ts hts
    cases hasMembers with
    | true =>
      obtain ⟨t, us, ht, hus, rfl⟩ := List.forall₂_cons_right_iff.mp hts
      obtain ⟨p, hp, hvalue, hprest⟩ := enumEntries_semicolon ht hus
      exact ⟨p, hp, hvalue, by rwa [hprest]⟩
    | false =>
      obtain ⟨es, rfl⟩ := hrest rfl
      obtain ⟨t, us, ht, hus, rfl⟩ := List.forall₂_cons_right_iff.mp hts
      obtain ⟨p, hp, hvalue, hprest⟩ := enumEntries_close ht hus
      exact ⟨p, hp, hvalue, by rwa [hprest]⟩
  | @cons es e ess entries he hess ih =>
    intro ts hts
    by_cases hmore : hasMembers = false ∨ ess ≠ []
    · rw [constantLexemes_cons hmore, List.append_assoc] at hts
      obtain ⟨t, us, args, p, rfl, ht, hus, hp, hvalue, hfits⟩ := he.reads (notAt_mark (by decide)) hts
      obtain ⟨vs, hlt, hcomma, hvs⟩ := takeMark_mark hfits
      obtain ⟨q, hq, hvalues, hrest⟩ := ih vs hvs
      obtain ⟨r, hr, hrvalue, hrrest⟩ := enumEntries_more ht hus hp hcomma hq
      exact ⟨r, hr, by rw [hrvalue, hvalue, hvalues], by rwa [hrrest]⟩
    · rw [not_or, Bool.not_eq_false, not_not] at hmore
      obtain ⟨rfl, rfl⟩ := hmore
      cases hess
      rw [constantLexemes, if_pos rfl, List.append_assoc] at hts
      obtain ⟨t, us, args, p, rfl, ht, hus, hp, hvalue, hfits⟩ := he.reads (notAt_mark (by decide)) hts
      have hcomma := takeMark_of_notAt hfits (notAt_mark (by decide)) (List.mem_singleton_self ',')
      obtain ⟨vs, hlt, hsemicolon, hvs⟩ := takeMark_mark hfits
      obtain ⟨r, hr, hrvalue, hrrest⟩ := enumEntries_last ht hus hp hcomma
      exact ⟨r, hr, by rw [hrvalue, hvalue], by rwa [hrrest, hsemicolon]⟩

/-! ## Classes -/

theorem classBody_none {kind : ClassKind} {name : String} (h : Forall₂ Token.Fits ts es) (hes : NotAt ['\x7b'] es) :
    classBody kind name ts = .ok (.keep ([], []) ts) := by
  have hmark := isMark_of_notAt h hes List.mem_cons_self
  rw [classBody.eq_def]
  cases ts with
  | nil => rfl
  | cons t ts =>
    simp only [hmark t rfl, Bool.false_eq_true, if_false]
    rfl

theorem classBody_some {kind : ClassKind} (name : String) {t : Token} (ht : t.Fits (.mark '\x7b')) {p}
    (hp : entriesOf kind us = .ok p) {q} (hq : members p.rest = .ok q) {vs : List Token} {hlt}
    (hclose : takeMark '\x7d' q.rest = ⟨true, vs, hlt⟩) :
    ∃ r, classBody kind name (t :: us) = .ok r ∧ r.value = (p.value, q.value) ∧ r.rest = vs := by
  rw [classBody, if_pos (by simp [ht.isMark_mark])]
  simp only [bind, Except.bind]
  rw [hp]
  simp only
  rw [hq]
  simp only
  rw [hclose]
  exact ⟨_, rfl, rfl, rfl⟩

theorem members_end (h : Forall₂ Token.Fits ts es) (hes : es = [] ∨ ∃ us, es = .mark '\x7d' :: us) :
    members ts = .ok (.keep [] ts) := by
  rcases hes with rfl | ⟨us, rfl⟩
  · cases h
    rw [members]
    rfl
  · obtain ⟨t, us, ht, hus, rfl⟩ := List.forall₂_cons_right_iff.mp h
    rw [members, if_pos (by simp [ht.isMark_mark])]
    rfl

theorem members_class {t : Token} {w : String} (ht : t.Fits (.word w)) {p} (hp : classTree (t :: us) = .ok (some p)) {q}
    (hq : members p.rest = .ok q) :
    ∃ r, members (t :: us) = .ok r ∧ r.value = p.value :: q.value ∧ r.rest = q.rest := by
  rw [members, if_neg (by simp [ht.isMark_word]), if_neg (by simp [ht.isMark_word])]
  simp only [bind, Except.bind]
  rw [hp]
  simp only
  rw [hq]
  exact ⟨_, rfl, rfl, rfl⟩

theorem classTree_ok {p₀} (hmodifiers : modifiers ts = .ok p₀) {keyword : Token} (hkeyword : p₀.rest = keyword :: us)
    {kind : ClassKind} (hkind : ClassKind.ofKeyword? p₀.value keyword = some kind) {p₁}
    (hname : className kind keyword us = .ok (some p₁)) {p₂} (htypeParams : typeParameters p₁.rest = .ok p₂) {p₃}
    (hfields : primaryConstructor p₂.rest = .ok p₃) (hsupertypes : skipSupertypes p₃.rest = .ok (.keep () p₃.rest)) {p₄}
    (hbody : classBody kind (Name.unquote p₁.value.text) p₃.rest = .ok p₄) :
    ∃ q, classTree ts = .ok (some q) ∧ q.value = ⟨Name.unquote p₁.value.text, kind, p₂.value, p₃.value, p₄.value.1, p₄.value.2,
      p₁.value.start⟩ ∧ q.rest = p₄.rest := by
  obtain ⟨words, _, hlt⟩ := p₀
  subst hkeyword
  rw [classTree, hmodifiers]
  simp only [bind, Except.bind]
  rw [hkind]
  simp only
  rw [hname]
  simp only
  rw [htypeParams]
  simp only
  rw [hfields]
  simp only
  rw [hsupertypes]
  simp only [Parsed.keep]
  rw [hbody]
  exact ⟨_, rfl, rfl, rfl⟩

end Counterpart.Kotlin
