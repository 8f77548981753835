/-
Texts that end where a name or a bracket does. A `Phrase` is cut into the same tokens in front of everything that does not go
on with a name, so phrases are put together from names, marks and blanks. The other way round, a token of the kind of names is
a plain name or a quoted one.
-/
import Counterpart.Proofs.Pieces

namespace Counterpart.Kotlin

open Text Lexer

/-- The mark of branches and function types. -/
def Lexeme.arrow : Lexeme := ⟨.arrow, "->", none⟩

theorem Lexes.arrow {cs : List Char} {es : List Lexeme} (h : Lexes cs es) : Lexes ('-' :: '>' :: cs) (.arrow :: es) :=
  .token (m := 1) (by decide) (by decide) (fun _ => rfl) h

/-! ## Name tokens -/

theorem quotedNameLength_ok {opened m : Nat} {cs : List Char} (h : quotedNameLength opened cs = .ok m) :
    ∃ ds, cs.take m = ds ++ ['\x60'] ∧ '\x60' ∉ ds := by
  induction cs generalizing m with
  | nil => cases h
  | cons c cs ih =>
    by_cases hline : c = '\n'
    · subst hline
      cases h
    by_cases hquote : c = '\x60'
    · subst hquote
      cases h
      exact ⟨[], rfl, List.not_mem_nil⟩
    rw [quotedNameLength] at h
    · obtain ⟨n, hn, rfl⟩ := exists_of_map_ok h
      obtain ⟨ds, hds, hnot⟩ := ih hn
      refine ⟨c :: ds, ?_, ?_⟩
      · rw [List.take_succ_cons, hds, List.cons_append]
      · rw [List.mem_cons, not_or]
        exact ⟨Ne.symm hquote, hnot⟩
    · exact hline
    · exact hquote

/-- The text of a name token: a name that needs no quotes, or a text in quotes. -/
def IsNameText (s : String) : Prop :=
  Name.isPlain s ∨ ∃ ds, s.toList = '\x60' :: (ds ++ ['\x60']) ∧ '\x60' ∉ ds

theorem isNameText_of_lexeme {pos m : Nat} {c : Char} {cs : List Char} (h : lexeme pos c cs = .ok (.name, m)) :
    IsNameText (.ofList (c :: cs.take m)) := by
  obtain ⟨rfl, hquoted⟩ | ⟨hstart, rfl⟩ := lexeme_name h
  · obtain ⟨ds, hds, hnot⟩ := quotedNameLength_ok hquoted
    exact .inr ⟨ds, by rw [String.toList_ofList, hds], hnot⟩
  · rw [take_length_takeWhile]
    refine .inl ?_
    rw [Name.isPlain, String.toList_ofList, Bool.and_eq_true]
    exact ⟨hstart, List.all_takeWhile⟩

theorem isNameText_of_mem_tokens {state : GapState} {pos : Nat} {cs : List Char} {ts : List Token} {tail : String}
    (h : tokens state pos cs = .ok (ts, tail)) {t : Token} (ht : t ∈ ts) (hkind : t.kind = .name) : IsNameText t.text := by
  induction ts generalizing state pos cs with
  | nil => cases ht
  | cons u ts ih =>
    obtain ⟨n, c, rest, kind, m, -, -, hlexeme, htokens, rfl⟩ := tokens_cons_ok h
    rcases List.mem_cons.mp ht with rfl | ht
    · cases hkind
      exact isNameText_of_lexeme hlexeme
    · exact ih htokens ht

theorem isNameText_of_mem_stream {source : String} {stream : TokenStream} (h : TokenStream.ofSource source = .ok stream)
    {t : Token} (ht : t ∈ stream.tokens) (hkind : t.kind = .name) : IsNameText t.text :=
  isNameText_of_mem_tokens (TokenStream.ofSource_ok h).1 ht hkind

/-! ## Quotes -/

theorem ne_quote_of_isPlain {s : String} (h : Name.isPlain s) : ∀ c ∈ s.toList.head?, c ≠ '\x60' := by
  rw [Name.isPlain] at h
  intro c hc
  cases hs : s.toList with
  | nil =>
    rw [hs] at h
    cases h
  | cons d ds =>
    rw [hs, Bool.and_eq_true] at h
    rw [hs] at hc
    cases hc
    exact ne_of_isNameStart h.1 (by decide)

theorem unquote_of_isPlain {s : String} (h : Name.isPlain s) : Name.unquote s = s := by
  rw [Name.unquote]
  split
  next hs => exact absurd rfl (ne_quote_of_isPlain h '\x60' (by rw [hs]; rfl))
  next => rfl

theorem unquote_quoted {s : String} {ds : List Char} (h : s.toList = '\x60' :: (ds ++ ['\x60'])) :
    Name.unquote s = String.ofList ds := by
  rw [Name.unquote, h]
  simp

theorem isPlain_of_isReserved {name : String} (h : isReserved name = true) : Name.isPlain name = true := by
  have hall : reservedWords.all Name.isPlain = true := by decide +kernel
  exact List.all_eq_true.mp hall name (List.contains_iff_mem.mp h)

/-! ## Dotted names -/

theorem safePath_of_isPlain {name : String} (h : Name.isPlain name) : safePath name = safeName name := by
  have hsplit : split '.' name = [name] := by
    rw [split, splitBy_of_forall_not, List.map_singleton, String.ofList_toList]
    intro c hc
    rw [beq_eq_false_iff_ne]
    rintro rfl
    exact absurd (isNameChar_of_isPlain h _ hc) (by decide)
  rw [safePath, hsplit]
  rfl

theorem splitBy_append {p : Char → Bool} {c : Char} (hc : p c = true) (w cs : List Char) :
    splitBy p (w ++ c :: cs) = splitBy p w ++ splitBy p cs := by
  induction w with
  | nil => simp [splitBy, hc]
  | cons d w ih =>
    rw [List.cons_append, splitBy, splitBy, ih]
    split
    next => rfl
    next =>
      obtain ⟨v, vs, hw⟩ := List.exists_cons_of_ne_nil (splitBy_ne_nil p w)
      rw [hw]
      rfl

theorem safePath_append (s t : String) : safePath (s ++ "." ++ t) = safePath s ++ "." ++ safePath t := by
  have hsplit : split '.' (s ++ "." ++ t) = split '.' s ++ split '.' t := by
    have htext : (s ++ "." ++ t).toList = s.toList ++ '.' :: t.toList := by
      rw [String.toList_append, String.toList_append, List.append_assoc]
      rfl
    rw [split, htext, splitBy_append rfl, List.map_append]
    rfl
  rw [safePath, hsplit, List.map_append, join_append]
  · rfl
  · simpa using split_ne_nil '.' s
  · simpa using split_ne_nil '.' t

/-- Names are quoted one by one. -/
theorem safePath_join {ss : List String} (h : ss ≠ []) : safePath (join "." ss) = join "." (ss.map safePath) := by
  induction ss with
  | nil => exact absurd rfl h
  | cons s ss ih =>
    cases ss with
    | nil => rfl
    | cons t ss =>
      rw [join_cons (List.cons_ne_nil t ss), safePath_append, ih (List.cons_ne_nil t ss)]
      rfl

end Counterpart.Kotlin

namespace Counterpart.Code

open Kotlin Text Lexer

/-! ## Phrases -/

/-- Whether a text is cut into these tokens in front of everything but a character of a name. -/
def Phrase (text : String) (es : List Lexeme) : Prop :=
  ∀ cs us, (∀ c ∈ cs.head?, isNameChar c = false) → Lexes cs us → Lexes (text.toList ++ cs) (es ++ us)

/-- Whether no name goes on in the text. -/
def Opens (text : String) : Prop := ∀ c ∈ text.toList.head?, isNameChar c = false

theorem opens_empty : Opens "" := by
  rintro _ ⟨⟩

theorem opens_append {text text' : String} {c : Char} {cs : List Char} (htext : text.toList = c :: cs)
    (hc : isNameChar c = false) : Opens (text ++ text') := by
  intro d hd
  rw [String.toList_append, htext] at hd
  cases hd
  exact hc

namespace Phrase

variable {text text' : String} {es es' : List Lexeme}

theorem piece (h : Phrase text es) : Piece text es := fun cs us hcs => h cs us hcs.notNameChar

theorem empty : Phrase "" [] := fun _ _ _ h => h

theorem append (h : Phrase text es) (h' : Phrase text' es') (hopens : Opens text') : Phrase (text ++ text') (es ++ es') := by
  intro cs us hcs hus
  rw [String.toList_append, List.append_assoc, List.append_assoc]
  refine h _ _ (fun c hc => ?_) (h' cs us hcs hus)
  cases htext : text'.toList with
  | nil =>
    rw [htext] at hc
    exact hcs c hc
  | cons d ds =>
    rw [htext] at hc
    exact hopens c (by rwa [htext])

theorem word {name : String} (hname : Name.isPlain name) : Phrase name [.word name] :=
  fun _ _ hcs h => .word hname hcs h

theorem safeName {name : String} (hname : Name.isPlain name) : Phrase (safeName name) [.word (Kotlin.safeName name)] :=
  fun _ _ hcs h => .safeName hname hcs h

end Phrase

theorem Block.phrase {text : String} {es : List Lexeme} (h : Block text es) : Phrase text es := fun cs us _ => h cs us

theorem Block.append_phrase {text text' : String} {es es' : List Lexeme} (h : Block text es) (h' : Phrase text' es') :
    Phrase (text ++ text') (es ++ es') := by
  intro cs us hcs hus
  rw [String.toList_append, List.append_assoc, List.append_assoc]
  exact h _ _ (h' cs us hcs hus)

/-- Two phrases with a text between them that separates. -/
theorem Phrase.glue {text glue text' : String} {es gs es' : List Lexeme} (h : Phrase text es) (hglue : Block glue gs)
    {c : Char} {cs : List Char} (hstart : glue.toList = c :: cs) (hc : isNameChar c = false) (h' : Phrase text' es') :
    Phrase (text ++ (glue ++ text')) (es ++ (gs ++ es')) :=
  h.append (hglue.append_phrase h') (opens_append hstart hc)

end Counterpart.Code
