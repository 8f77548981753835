/-
Imports that a body needs. The search goes by single characters and not by tokens: a name in the tokens of a body keeps its
directive unless a character next to it counts as part of a name or a path, and so do comments, literals and quoted names that
mention it (`FileCode.prune_keeps_iff`). The second dot of a range is such a character; what a range ends with is lost.
-/
import Counterpart.Proofs.MentionedTokens
import Counterpart.Proofs.Phrases
import Counterpart.Proofs.Run

namespace Counterpart.Code

open Kotlin Text Lexer

/-! ## Names in the tokens -/

/-- Whether no character next to a token counts as part of it or of a path that leads to it. -/
structure StandsFree (before : List Token) (t : Token) (after : List Token) : Prop where
  behind : t.isAdjacent → FreeBehind (before.getLast?.bind fun u => u.text.toList.getLast?)
  ahead : ∀ u ∈ after.head?, u.isAdjacent → FreeAhead u.text.toList.head?
  /-- A name in quotes does not stand before itself up to its first quote. -/
  apart : '\x60' ∈ t.text.toList → ¬ t.text.toList.dropLast <:+ (writtenOut before ++ t.gap).toList

/-- Whether a token reads as the name, in quotes or without. -/
def IsNamed (n : String) (t : Token) : Prop := t.isName ∧ (t.text = n ∨ t.text = "`" ++ n ++ "`")

section Names

variable {s : TokenStream} {source n : String} {before after : List Token} {t : Token}

theorem ne_nil_of_lossless (h : s.Lossless source) : ∀ t ∈ s.tokens, t.text.toList ≠ [] := by
  intro t ht hnil
  have hlt := h.nonempty t ht
  rw [Token.stop, show t.text = "" from String.toList_injective hnil] at hlt
  exact absurd hlt (lt_irrefl _)

theorem getLast?_writtenOut {ts : List Token} (h : ∀ t ∈ ts, t.text.toList ≠ []) :
    (writtenOut ts).toList.getLast? = ts.getLast?.bind fun u => u.text.toList.getLast? := by
  obtain rfl | ⟨us, u, rfl⟩ := List.eq_nil_or_concat ts
  · rfl
  · have hu : u.text.toList ≠ [] := h u (by simp)
    have hlast : (writtenOut [u]).toList = u.gap.toList ++ u.text.toList := by
      rw [toList_writtenOut_cons]
      simp [writtenOut, String.join]
    rw [List.concat_eq_append, writtenOut_append, String.toList_append, hlast, List.getLast?_append, List.getLast?_append,
      List.getLast?_concat, List.getLast?_eq_some_getLast hu]
    exact (List.getLast?_eq_some_getLast hu).symm

theorem standsAlone_iff_free (h : s.Lossless source) (hsplit : s.tokens = before ++ t :: after) :
    StandsAlone (writtenOut before ++ t.gap).toList ((writtenOut after).toList ++ s.tail.toList) ↔
      (t.isAdjacent → FreeBehind (before.getLast?.bind fun u => u.text.toList.getLast?)) ∧
        ∀ u ∈ after.head?, u.isAdjacent → FreeAhead u.text.toList.head? := by
  obtain ⟨hgaps, htail⟩ := quietEnds_of_lossless h
  have hne := ne_nil_of_lossless h
  have hadjacent (u : Token) : u.isAdjacent = true ↔ u.gap.toList = [] := by
    rw [Token.isAdjacent, String.isEmpty_iff, ← String.toList_eq_nil_iff]
  rw [hsplit] at hgaps hne
  refine and_congr ?_ ?_
  · rw [String.toList_append, List.getLast?_append, hadjacent,
      getLast?_writtenOut fun u hu => hne u (List.mem_append_left _ hu)]
    cases hlast : t.gap.toList.getLast? with
    | none =>
      rw [List.getLast?_eq_none_iff] at hlast
      simp [hlast]
    | some c =>
      have hc := (hgaps t (by simp)).2 c hlast
      have hgap : t.gap.toList ≠ [] := by
        intro hnil
        rw [hnil] at hlast
        cases hlast
      refine ⟨fun _ hnil => absurd hnil hgap, ?_⟩
      rintro - _ ⟨⟩
      exact hc
  · cases after with
    | nil => exact ⟨fun _ => by simp, fun _ c hc => (htail c hc).1⟩
    | cons u after =>
      obtain ⟨d, ds, hds⟩ := List.exists_cons_of_ne_nil (hne u (by simp))
      rw [toList_writtenOut_cons]
      simp only [List.head?_cons, Option.mem_def, Option.some.injEq, forall_eq', hadjacent, hds]
      cases hgap : u.gap.toList with
      | nil => simp
      | cons c cs =>
        have hc := (hgaps u (by simp)).1 c (by rw [hgap]; rfl)
        refine ⟨fun _ => by simp, ?_⟩
        rintro - _ ⟨⟩
        exact hc.1

/-- A name in quotes overlaps itself only from its last quote on. -/
theorem dropLast_suffix_of_overlaps {ds u : List Char} (hds : '\x60' ∉ ds)
    (h : Overlaps ('\x60' :: (ds ++ ['\x60'])) u) : ('\x60' :: (ds ++ ['\x60'])).dropLast <:+ u := by
  obtain ⟨p, q, hsplit, hp, hq, hsuffix, hstart⟩ := h
  obtain ⟨c, p, rfl⟩ := List.exists_cons_of_ne_nil hp
  obtain ⟨d, q, rfl⟩ := List.exists_cons_of_ne_nil hq
  rw [List.cons_append, List.cons.injEq] at hsplit
  obtain ⟨rfl, hsplit⟩ := hsplit
  obtain rfl : d = '\x60' := (List.cons_prefix_cons.mp hstart).1
  have hnil : q = [] := by
    by_contra hne
    rw [← List.dropLast_append_getLast hne, ← List.cons_append, ← List.append_assoc] at hsplit
    have hfront := List.append_inj_left' hsplit rfl
    exact hds (by rw [hfront]; simp)
  subst hnil
  have hfront : ds = p := List.append_inj_left' hsplit rfl
  rwa [← List.cons_append, List.dropLast_concat, hfront]

theorem mentions_of_free (h : TokenStream.ofSource source = .ok s) (hsplit : s.tokens = before ++ t :: after)
    (hname : t.isName) (hfree : StandsFree before t after) : mentions source t.text = true := by
  have hlossless := TokenStream.lossless h
  have hsource : source.toList =
      (writtenOut before ++ t.gap).toList ++ t.text.toList ++ ((writtenOut after).toList ++ s.tail.toList) := by
    have hwhole : writtenOut s.tokens ++ s.tail = source := hlossless.whole
    rw [← hwhole, hsplit, writtenOut_append, String.toList_append, String.toList_append, toList_writtenOut_cons,
      String.toList_append]
    simp only [List.append_assoc]
  have halone := (standsAlone_iff_free hlossless hsplit).mpr ⟨hfree.behind, hfree.ahead⟩
  refine mentions_of_alone hsource ?_ halone
  obtain hplain | ⟨ds, hds, hquote⟩ := isNameText_of_mem_stream h (t := t) (by simp [hsplit]) (by simpa [Token.isName] using hname)
  · exact not_overlaps (isNameChar_of_isPlain hplain) halone.1
  · intro hoverlaps
    have hapart := hfree.apart (by rw [hds]; exact List.mem_cons_self)
    rw [hds] at hoverlaps hapart
    exact hapart (dropLast_suffix_of_overlaps hquote hoverlaps)

theorem mentions_of_quoted (h : TokenStream.ofSource source = .ok s) (ht : t ∈ s.tokens) (hname : t.isName)
    (htext : t.text = "`" ++ n ++ "`") : mentions source n = true := by
  obtain ⟨before, after, hsplit⟩ := List.append_of_mem ht
  have hsource : source.toList = ((writtenOut before ++ t.gap).toList ++ ['\x60']) ++ n.toList ++
      ('\x60' :: ((writtenOut after).toList ++ s.tail.toList)) := by
    have hwhole : writtenOut s.tokens ++ s.tail = source := (TokenStream.lossless h).whole
    rw [← hwhole, hsplit, writtenOut_append, String.toList_append, String.toList_append, toList_writtenOut_cons,
      String.toList_append, htext]
    simp [String.toList_append]
  refine mentions_of_alone hsource ?_ ⟨?_, ?_⟩
  · rintro ⟨p, q, hsplit, hp, -, hsuffix, -⟩
    have hquote : '\x60' ∈ n.toList := by
      rw [hsplit]
      obtain ⟨p, c, rfl⟩ := (List.eq_nil_or_concat p).resolve_left hp
      rw [List.concat_eq_append] at hsuffix ⊢
      obtain ⟨front, hfront⟩ := hsuffix
      rw [← List.append_assoc] at hfront
      obtain rfl : c = '\x60' := by simpa using (List.append_inj_right' hfront rfl)
      simp
    obtain hplain | ⟨ds, hds, hnot⟩ := isNameText_of_mem_stream h ht (by simpa [Token.isName] using hname)
    · exact ne_quote_of_isPlain hplain '\x60' (by rw [htext]; simp [String.toList_append]) rfl
    · rw [htext, String.toList_append, String.toList_append] at hds
      have := List.append_inj_left' (List.cons.inj hds).2 rfl
      exact hnot (this ▸ hquote)
  · rw [List.getLast?_concat]
    rintro _ ⟨⟩
    exact ⟨by decide, by decide⟩
  · rintro _ ⟨⟩
    decide

end Names

/-! ## Directives -/

/-- Whether the name is in the tokens, in quotes or with no character next to it that counts as part of it. -/
def Shown (n : String) (ts : List Token) : Prop :=
  ∃ before t after, ts = before ++ t :: after ∧ IsNamed n t ∧ (t.text = n → StandsFree before t after)

namespace FileCode

theorem mem_prune {f : FileCode} {d n : String} (hd : d ∈ f.imports) (hn : Output.localName? (Name.shortName d) = some n) :
    d ∈ f.prune.imports ↔ mentions f.body n = true := by
  rw [prune, List.mem_filter, isNeeded, hn]
  exact and_iff_right hd

theorem mentions_of_shown {source n : String} {s : TokenStream} (hs : TokenStream.ofSource source = .ok s)
    (h : Shown n s.tokens) : mentions source n = true := by
  obtain ⟨before, t, after, hsplit, ⟨hname, htext | htext⟩, hfree⟩ := h
  · rw [← htext]
    exact mentions_of_free hs hsplit hname (hfree htext)
  · exact mentions_of_quoted hs (by simp [hsplit]) hname htext

/-- **Directives** whose name is in the tokens of the body are kept where no character next to the name counts as part of it; for
a name that needs no quotes, all others are dropped but those whose name a comment or another token mentions. -/
theorem prune_keeps_iff {f : FileCode} {s : TokenStream} {d n : String} (hs : TokenStream.ofSource f.body = .ok s)
    (hd : d ∈ f.imports) (hn : Output.localName? (Name.shortName d) = some n) :
    (Shown n s.tokens → d ∈ f.prune.imports) ∧
      (Name.isPlain n → (d ∈ f.prune.imports ↔ Shown n s.tokens ∨ Remarked n s.tokens s.tail)) := by
  rw [mem_prune hd hn]
  refine ⟨mentions_of_shown hs, fun hplain => ⟨fun hmention => ?_, ?_⟩⟩
  · have hlossless := TokenStream.lossless hs
    have hwhole : writtenOut s.tokens ++ s.tail = f.body := hlossless.whole
    obtain ⟨u, v, htext, halone⟩ := exists_of_mentions hmention
    rw [← hwhole, String.toList_append, List.append_assoc] at htext
    obtain hremark | ⟨before, t, after, hsplit, hname, rfl, rfl⟩ :=
      tokens_mention hplain (tokens_cuts (TokenStream.ofSource_ok hs).1) (quietEnds_of_lossless hlossless).1 htext halone
    · exact .inr hremark
    · rw [hsplit, writtenOut_append, String.toList_append, toList_writtenOut_cons, String.toList_append] at htext
      simp only [List.append_assoc, List.append_cancel_left_eq] at htext
      subst htext
      obtain ⟨hbehind, hahead⟩ := (standsAlone_iff_free hlossless hsplit).mp halone
      have hquote : '\x60' ∉ t.text.toList := fun hquote => absurd (isNameChar_of_isPlain hplain _ hquote) (by decide)
      exact .inl ⟨before, t, after, hsplit, ⟨hname, .inl rfl⟩, fun _ => ⟨hbehind, hahead, fun h => absurd h hquote⟩⟩
  · rintro (hshown | hremark)
    · exact mentions_of_shown hs hshown
    · have hlossless := TokenStream.lossless hs
      have hwhole : writtenOut s.tokens ++ s.tail = f.body := hlossless.whole
      obtain ⟨hgaps, htail⟩ := quietEnds_of_lossless hlossless
      exact mentions_of_remarked hplain (tokens_cuts (TokenStream.ofSource_ok hs).1) hgaps htail
        (by rw [← hwhole, String.toList_append]) hremark

/-- A body with names behind a dot, a range and a dollar sign, in quotes and in a comment. -/
def keyedFile : FileCode :=
  ⟨"demo", ["lib.Key", "lib.MAX"], [[.line "class A(val k: lib.Key, val l: `Key`, val r: R = 0..MAX) // $MAX"]]⟩

/-- The name in quotes is in the tokens. -/
theorem keyed_shown : ∃ s, TokenStream.ofSource keyedFile.body = .ok s ∧ Shown "Key" s.tokens := by
  have hresult : ((TokenStream.ofSource keyedFile.body).toOption.bind fun s =>
      s.tokens[13]?.map fun t => (t.isName, t.text)) = some (true, "`Key`") := by
    decide +kernel
  obtain ⟨s, hs, hresult⟩ := Option.bind_eq_some_iff.mp hresult
  obtain ⟨t, ht, hresult⟩ := Option.map_eq_some_iff.mp hresult
  obtain ⟨hname, htext⟩ := Prod.mk.inj hresult
  obtain ⟨before, after, hsplit⟩ := List.append_of_mem (List.mem_of_getElem? ht)
  refine ⟨s, ok_of_toOption hs, before, t, after, hsplit, ⟨hname, .inr htext⟩, fun hplain => ?_⟩
  rw [htext] at hplain
  exact absurd hplain (by decide)

/-- The directive is kept for the name in quotes. -/
theorem prune_keeps_iff_keyedFile :
    ∃ s, TokenStream.ofSource keyedFile.body = .ok s ∧ "lib.Key" ∈ keyedFile.imports ∧
      Output.localName? (Name.shortName "lib.Key") = some "Key" ∧ Shown "Key" s.tokens ∧ Name.isPlain "Key" ∧
      "lib.Key" ∈ keyedFile.prune.imports ∧
      ("lib.Key" ∈ keyedFile.prune.imports ↔ Shown "Key" s.tokens ∨ Remarked "Key" s.tokens s.tail) := by
  obtain ⟨s, hs, hshown⟩ := keyed_shown
  have hd : "lib.Key" ∈ keyedFile.imports := by decide
  have hn : Output.localName? (Name.shortName "lib.Key") = some "Key" := by decide +kernel
  have hplain : Name.isPlain "Key" := by decide +kernel
  obtain ⟨hkept, hiff⟩ := prune_keeps_iff hs hd hn
  exact ⟨s, hs, hd, hn, hshown, hplain, hkept hshown, hiff hplain⟩

example : keyedFile.prune.imports = ["lib.Key"] := by decide +kernel

/-! ## Uses -/

end FileCode

/-- Whether the tokens before a name select it from something: they end with a dot that is not the second one of a range. -/
def Selected (before : List Token) : Prop :=
  ∃ dot ∈ before.getLast?, dot.isMark '.' ∧ ¬ (dot.isAdjacent ∧ ∃ u ∈ before.dropLast.getLast?, u.isMark '.')

instance : DecidablePred Selected := fun before =>
  inferInstanceAs (Decidable (∃ dot ∈ before.getLast?, dot.isMark '.' ∧
    ¬ (dot.isAdjacent ∧ ∃ u ∈ before.dropLast.getLast?, u.isMark '.')))

/-- Whether a string has the name as a template without braces, its dollar sign not escaped. -/
def HasTemplate (n : String) (text : List Char) : Prop :=
  ∃ u v, text = u ++ '$' :: (n.toList ++ v) ∧ (∀ c ∈ v.head?, isNameChar c = false) ∧
    (['"', '"', '"'] <+: text ∨ (u.reverse.takeWhile (· == '\\')).length % 2 = 0)

/-- Whether tokens use the name. -/
def Used (n : String) (ts : List Token) : Prop :=
  (∃ before t after, ts = before ++ t :: after ∧ IsNamed n t ∧ ¬ Selected before) ∨
    ∃ t ∈ ts, t.kind = .string ∧ HasTemplate n t.text.toList

/-- Every directive whose name the body uses is kept. -/
def FileCode.KeepsUsed (f : FileCode) : Prop :=
  ∀ s, TokenStream.ofSource f.body = .ok s → ∀ d ∈ f.imports, ∀ n, Output.localName? (Name.shortName d) = some n →
    Used n s.tokens → d ∈ f.prune.imports

/-- An enum with a constant that is imported and ends a range. -/
def rangeProject : Project :=
  .ofSource "package demo\nimport lib.MAX\nenum class E(val r: IntRange) \x7b A(0..MAX) \x7d"

/-- The tokens of the generated file up to the name, which follows on two dots. -/
theorem range_generated :
    ∃ g f s before t after, (Hooks.none fun _ => false).run [] rangeProject (.ofClass "E") () = ((), .ok g) ∧
      f ∈ g.workspace.files.toList ∧ TokenStream.ofSource (FileCode.ofFile f).body = .ok s ∧
      "lib.MAX" ∈ (FileCode.ofFile f).imports ∧ "lib.MAX" ∉ (FileCode.ofFile f).prune.imports ∧
      s.tokens = before ++ t :: after ∧ IsNamed "MAX" t ∧ ¬ Selected before := by
  have hresult : (((Hooks.none fun _ => false).run [] rangeProject (.ofClass "E") ()).2.toOption.bind fun g =>
      g.workspace.files.toList.head?.bind fun f => (TokenStream.ofSource (FileCode.ofFile f).body).toOption.bind fun s =>
        s.tokens[15]?.map fun t => ((FileCode.ofFile f).imports, (FileCode.ofFile f).prune.imports, t.isName, t.text,
          decide (Selected (s.tokens.take 15)))) = some (["lib.MAX"], [], true, "MAX", false) := by
    decide +kernel
  obtain ⟨g, hg, hresult⟩ := Option.bind_eq_some_iff.mp hresult
  obtain ⟨f, hf, hresult⟩ := Option.bind_eq_some_iff.mp hresult
  obtain ⟨s, hs, hresult⟩ := Option.bind_eq_some_iff.mp hresult
  obtain ⟨t, ht, hresult⟩ := Option.map_eq_some_iff.mp hresult
  simp only [Prod.mk.injEq, decide_eq_false_iff_not] at hresult
  obtain ⟨himports, hpruned, hname, htext, hselected⟩ := hresult
  obtain ⟨hlt, hget⟩ := List.getElem?_eq_some_iff.mp ht
  refine ⟨g, f, s, s.tokens.take 15, t, s.tokens.drop 16, eq_ok_of_toOption hg, List.mem_of_mem_head? hf, ok_of_toOption hs,
    by simp [himports], by simp [hpruned], ?_, ⟨hname, .inl htext⟩, hselected⟩
  rw [← hget, List.getElem_cons_drop, List.take_append_drop]

theorem range_not_kept :
    ∃ g f, (Hooks.none fun _ => false).run [] rangeProject (.ofClass "E") () = ((), .ok g) ∧
      f ∈ g.workspace.files.toList ∧ ¬ (FileCode.ofFile f).KeepsUsed := by
  obtain ⟨g, f, s, before, t, after, hg, hf, hs, hd, hdropped, hsplit, hreads, hselected⟩ := range_generated
  refine ⟨g, f, hg, hf, fun hkeeps => hdropped ?_⟩
  exact hkeeps s hs "lib.MAX" hd "MAX" (by decide +kernel) (.inl ⟨before, t, after, hsplit, hreads, hselected⟩)

end Counterpart.Code
