/-
Mentions in tokens. What stands alone in the text of tokens is one of them, or a gap or another token mentions it
(`tokens_mention`), and what is mentioned there stands in the text (`mentions_of_remarked`): gaps end with characters that leave a
name free, and a token that is no name without quotes does not start like one.
-/
import Counterpart.Proofs.Lossless
import Counterpart.Proofs.Mentions

namespace Counterpart

open Kotlin Text

namespace Code

open Lexer

/-! ## Characters next to a name -/

/-- A character that leaves a name next to it free. -/
def Quiet (c : Char) : Prop := continuesName c = false ∧ c ≠ '.'

theorem quiet_of_isBlank {c : Char} (hc : isBlank c) : Quiet c := by
  refine ⟨?_, by rintro rfl; exact absurd hc (by decide)⟩
  rw [continuesName, isNameChar_eq_false_of_isBlank hc, Bool.false_or, beq_eq_false_iff_ne]
  rintro rfl
  exact absurd hc (by decide)

theorem Quiet.not_name {c : Char} (hc : Quiet c) : isNameChar c = false := by
  have := hc.1
  rw [continuesName, Bool.or_eq_false_iff] at this
  exact this.1

theorem not_free_of_name {c : Char} (hc : isNameChar c ∨ c = '.') : ¬ FreeBehind (some c) := by
  intro h
  obtain ⟨hcontinues, hdot⟩ := h c rfl
  rcases hc with hc | hc
  · simp [continuesName, hc] at hcontinues
  · exact hdot hc

/-- Whether a gap starts and ends with characters that leave names next to it free. -/
def QuietEnds (gap : String) : Prop := (∀ c ∈ gap.toList.head?, Quiet c) ∧ ∀ c ∈ gap.toList.getLast?, Quiet c

theorem quietEnds_of_lossless {s : TokenStream} {source : String} (h : s.Lossless source) :
    (∀ t ∈ s.tokens, QuietEnds t.gap) ∧ ∀ c ∈ s.tail.toList.head?, Quiet c := by
  have hquiet {c : Char} (hc : isBlank c ∨ c = '/') : Quiet c := by
    rcases hc with hc | rfl
    · exact quiet_of_isBlank hc
    · exact ⟨by decide, by decide⟩
  have hfirst {c : Char} (hc : isBlank c ∨ c = '/' ∨ c = '#') : Quiet c := by
    rw [← or_assoc] at hc
    rcases hc with hc | rfl
    · exact hquiet hc
    · exact ⟨by decide, by decide⟩
  constructor
  · intro t ht
    cases htokens : s.tokens with
    | nil => rw [htokens] at ht; cases ht
    | cons u us =>
      rw [htokens] at ht
      rcases List.mem_cons.mp ht with rfl | ht
      · have hgap := h.firstGap t (by rw [htokens]; rfl)
        exact ⟨fun c hc => hfirst (hgap.mem_head? c hc), fun c hc => hquiet (hgap.mem_getLast? c hc)⟩
      · have hgap := h.gaps t (by rw [htokens]; exact ht)
        exact ⟨fun c hc => hquiet (hgap.mem_head? c hc), fun c hc => hquiet (hgap.mem_getLast? c hc)⟩
  · have hgap := h.lastGap
    split at hgap
    · exact fun c hc => hfirst (hgap.mem_head? c hc)
    · exact fun c hc => hquiet (hgap.mem_head? c hc)

/-! ## Occurrences in a piece of a text -/

section Pieces

variable {n : String} {x rest u v : List Char}

theorem exists_cons_of_isPlain (h : Name.isPlain n) : ∃ c cs, n.toList = c :: cs ∧ isNameStart c := by
  rw [Name.isPlain] at h
  split at h
  next => cases h
  next c cs hn => exact ⟨c, cs, hn, (Bool.and_eq_true_iff.mp h).1⟩

/-- What starts in a piece that does not end with a character of names is all in it. -/
theorem exists_inside (hn : Name.isPlain n) (hlast : ∀ c ∈ x.getLast?, isNameChar c = false)
    (h : x ++ rest = u ++ (n.toList ++ v)) (hlt : u.length < x.length) :
    ∃ w, x = u ++ n.toList ++ w ∧ v = w ++ rest := by
  obtain ⟨y, rfl⟩ : u <+: x :=
    List.prefix_of_prefix_length_le (h ▸ List.prefix_append u _) (List.prefix_append x rest) hlt.le
  rw [List.append_assoc, List.append_cancel_left_eq] at h
  obtain ⟨w, rfl, hv⟩ | ⟨w, hw, rfl⟩ := List.append_eq_append_iff.mp h.symm
  · exact ⟨w, (List.append_assoc _ _ _).symm, hv⟩
  · have hy : y ≠ [] := by
      rintro rfl
      simp at hlt
    have hname := isNameChar_of_isPlain hn (y.getLast hy) (by rw [hw]; exact List.mem_append_left w (List.getLast_mem hy))
    rw [hlast _ (by rw [List.getLast?_append, List.getLast?_eq_some_getLast hy]; rfl)] at hname
    cases hname

theorem mentions_of_inside {piece : String} (hn : Name.isPlain n) (hlast : ∀ c ∈ piece.toList.getLast?, isNameChar c = false)
    (h : piece.toList ++ rest = u ++ (n.toList ++ v)) (hlt : u.length < piece.toList.length) (halone : StandsAlone u v) :
    mentions piece n = true := by
  obtain ⟨w, hpiece, rfl⟩ := exists_inside hn hlast h hlt
  refine (mentions_iff hn).mpr ⟨u, w, hpiece, halone.1, fun c hc => halone.2 c ?_⟩
  obtain ⟨ds, rfl⟩ := List.head?_eq_some_iff.mp hc
  rfl

/-- What does not start in a piece starts behind it. -/
theorem exists_behind (h : x ++ rest = u ++ v) (hlt : ¬ u.length < x.length) : ∃ w, u = x ++ w ∧ rest = w ++ v := by
  obtain ⟨w, rfl⟩ : x <+: u :=
    List.prefix_of_prefix_length_le (List.prefix_append x rest) (h ▸ List.prefix_append u v) (not_lt.mp hlt)
  rw [List.append_assoc, List.append_cancel_left_eq] at h
  exact ⟨w, rfl, h⟩

theorem FreeBehind.of_append {w : List Char} (h : FreeBehind (x ++ w).getLast?) : FreeBehind w.getLast? := by
  intro c hc
  refine h c ?_
  rw [List.getLast?_append, Option.mem_def.mp hc]
  rfl

end Pieces

/-! ## Mentions in tokens -/

/-- Whether the name is mentioned by what stands between tokens or by another token. -/
def Remarked (n : String) (ts : List Token) (tail : String) : Prop :=
  (∃ t ∈ ts, mentions t.gap n = true ∨ t.text ≠ n ∧ mentions t.text n = true) ∨ mentions tail n = true

section Tokens

variable {n : String} {ts : List Token} {t : Token} {tail : String} {rest u v : List Char}

theorem ne_of_head (hn : Name.isPlain n) (hhead : ∀ c ∈ t.text.toList.head?, isNameStart c = false) : t.text ≠ n := by
  rintro rfl
  obtain ⟨c, cs, hcs, hc⟩ := exists_cons_of_isPlain hn
  rw [hhead c (by rw [hcs]; rfl)] at hc
  cases hc

/-- What starts in a token and stands alone there is the token, or the token mentions it. -/
theorem token_mention (hn : Name.isPlain n) (hcut : Cut t.kind t.text.toList rest)
    (h : t.text.toList ++ rest = u ++ (n.toList ++ v)) (hlt : u.length < t.text.toList.length) (halone : StandsAlone u v) :
    t.isName ∧ t.text = n ∧ u = [] ∨ t.text ≠ n ∧ mentions t.text n = true := by
  obtain ⟨y, hy⟩ : u <+: t.text.toList :=
    List.prefix_of_prefix_length_le (h ▸ List.prefix_append u _) (List.prefix_append _ rest) hlt.le
  have hempty (hchars : ∀ c ∈ t.text.toList, isNameChar c ∨ c = '.') : u = [] := by
    by_contra hu
    have hlast : u.getLast hu ∈ t.text.toList := hy ▸ List.mem_append_left y (List.getLast_mem hu)
    exact not_free_of_name (hchars _ hlast) (List.getLast?_eq_some_getLast hu ▸ halone.1)
  obtain ⟨hkind, hchars, hrest⟩ | ⟨hhead, hchars⟩ := hcut.characters
  · obtain rfl := hempty fun c hc => .inl (hchars c hc)
    have hahead : ∀ c ∈ v.head?, isNameChar c = false := fun c hc => (Bool.or_eq_false_iff.mp (halone.2 c hc)).1
    refine .inl ⟨by rw [Token.isName, hkind]; rfl, String.toList_injective ?_, rfl⟩
    calc t.text.toList = (t.text.toList ++ rest).takeWhile isNameChar := by
          rw [takeWhile_append_eq hrest, List.takeWhile_eq_self_iff.mpr hchars]
      _ = (n.toList ++ v).takeWhile isNameChar := congrArg _ h
      _ = n.toList := by rw [takeWhile_append_eq hahead, List.takeWhile_eq_self_iff.mpr (isNameChar_of_isPlain hn)]
  · have hu : u ≠ [] := by
      rintro rfl
      obtain ⟨c, cs, hcs, hc⟩ := exists_cons_of_isPlain hn
      obtain ⟨d, ds, hds⟩ := List.exists_cons_of_ne_nil (List.ne_nil_of_length_pos hlt)
      rw [hds, hcs] at h
      obtain rfl := (List.cons.inj h).1
      rw [hhead d (by rw [hds]; rfl)] at hc
      cases hc
    obtain hchars | hlast := hchars
    · exact absurd (hempty hchars) hu
    · exact .inr ⟨ne_of_head hn hhead, mentions_of_inside hn hlast h hlt halone⟩

/-- What stands alone in the text of tokens is one of them, or mentioned in one or between two. -/
theorem tokens_mention (hn : Name.isPlain n) (hcuts : Cuts tail.toList ts) (hgaps : ∀ t ∈ ts, QuietEnds t.gap)
    (h : (writtenOut ts).toList ++ tail.toList = u ++ (n.toList ++ v)) (halone : StandsAlone u v) :
    Remarked n ts tail ∨ ∃ before t after, ts = before ++ t :: after ∧ t.isName ∧ t.text = n ∧
      u = (writtenOut before ++ t.gap).toList := by
  induction ts generalizing u with
  | nil =>
    refine .inl (.inr ((mentions_iff hn).mpr ⟨u, v, ?_, halone⟩))
    rw [List.append_assoc]
    exact h
  | cons t ts ih =>
    rw [toList_writtenOut_cons, List.append_assoc, List.append_assoc] at h
    have hgap := hgaps t List.mem_cons_self
    by_cases hinGap : u.length < t.gap.toList.length
    · exact .inl (.inl ⟨t, List.mem_cons_self,
        .inl (mentions_of_inside hn (fun c hc => (hgap.2 c hc).not_name) h hinGap halone)⟩)
    obtain ⟨u, rfl, htoken⟩ := exists_behind h hinGap
    have hbehind := halone.1.of_append
    by_cases hinText : u.length < t.text.toList.length
    · obtain ⟨hname, htext, rfl⟩ | hmention := token_mention hn hcuts.1 htoken hinText ⟨hbehind, halone.2⟩
      · exact .inr ⟨[], t, ts, rfl, hname, htext, by simp [writtenOut, String.join]⟩
      · exact .inl (.inl ⟨t, List.mem_cons_self, .inr hmention⟩)
    obtain ⟨u, rfl, hrest⟩ := exists_behind htoken hinText
    obtain (⟨t', ht', hmention⟩ | hmention) | ⟨before, t', after, rfl, hname, htext, rfl⟩ :=
      ih hcuts.2 (fun t' ht' => hgaps t' (List.mem_cons_of_mem t ht')) hrest ⟨hbehind.of_append, halone.2⟩
    · exact .inl (.inl ⟨t', List.mem_cons_of_mem t ht', hmention⟩)
    · exact .inl (.inr hmention)
    · refine .inr ⟨t :: before, t', after, rfl, hname, htext, ?_⟩
      rw [writtenOut_cons, String.toList_append, String.toList_append, String.toList_append, String.toList_append,
        List.append_assoc, List.append_assoc]

/-- A mention in a piece stands in the text, since the ends of the piece do not touch it. -/
theorem mentions_of_piece {text piece : String} {front : List Char} (hn : Name.isPlain n)
    (htext : text.toList = front ++ (piece.toList ++ rest))
    (hends : ∀ u v, piece.toList = u ++ n.toList ++ v → StandsAlone u v → u ≠ [] ∧ (v = [] → rest = []))
    (h : mentions piece n = true) : mentions text n = true := by
  obtain ⟨u, v, hpiece, halone⟩ := exists_of_mentions h
  obtain ⟨hu, hv⟩ := hends u v hpiece halone
  refine (mentions_iff hn).mpr ⟨front ++ u, v ++ rest, by rw [htext, hpiece]; simp, ?_, ?_⟩
  · have hfree := halone.1
    rw [List.getLast?_eq_some_getLast hu] at hfree
    rw [List.getLast?_append, List.getLast?_eq_some_getLast hu]
    exact hfree
  · cases v with
    | nil =>
      rw [hv rfl]
      exact halone.2
    | cons c v => exact halone.2

theorem ne_nil_of_quiet {gap : String} (hn : Name.isPlain n) (hgap : ∀ c ∈ gap.toList.head?, Quiet c)
    (h : gap.toList = u ++ n.toList ++ v) : u ≠ [] := by
  rintro rfl
  obtain ⟨c, cs, hcs, hc⟩ := exists_cons_of_isPlain hn
  have := (hgap c (by rw [h, hcs]; rfl)).not_name
  rw [isNameChar_of_isNameStart hc] at this
  cases this

/-- The last character of a text that ends with a name. -/
theorem exists_getLast? (hn : Name.isPlain n) (u : List Char) : ∃ c, (u ++ n.toList).getLast? = some c ∧ isNameChar c := by
  have hne : n.toList ≠ [] := by
    obtain ⟨c, cs, hcs, -⟩ := exists_cons_of_isPlain hn
    rw [hcs]
    exact List.cons_ne_nil c cs
  refine ⟨_, ?_, isNameChar_of_isPlain hn _ (List.getLast_mem hne)⟩
  rw [List.getLast?_append, List.getLast?_eq_some_getLast hne]
  rfl

theorem token_ends (hn : Name.isPlain n) (hcut : Cut t.kind t.text.toList rest) (hne : t.text ≠ n)
    (h : t.text.toList = u ++ n.toList ++ v) (halone : StandsAlone u v) : u ≠ [] ∧ v ≠ [] := by
  have hempty (hchars : ∀ c ∈ t.text.toList, isNameChar c ∨ c = '.') : u = [] := by
    by_contra hu
    have hlast : u.getLast hu ∈ t.text.toList := by
      rw [h, List.append_assoc]
      exact List.mem_append_left _ (List.getLast_mem hu)
    exact not_free_of_name (hchars _ hlast) (List.getLast?_eq_some_getLast hu ▸ halone.1)
  obtain ⟨c, cs, hcs, hc⟩ := exists_cons_of_isPlain hn
  obtain ⟨-, hchars, -⟩ | ⟨hhead, hchars⟩ := hcut.characters
  · -- a name without quotes goes on up to its end
    obtain rfl := hempty fun c hc => .inl (hchars c hc)
    cases v with
    | nil => exact absurd (String.toList_injective (by simpa using h)) hne
    | cons d v =>
      have hd := hchars d (by rw [h]; simp)
      have := halone.2 d rfl
      simp [continuesName, hd] at this
  · have hu : u ≠ [] := by
      rintro rfl
      rw [hhead c (by rw [h, hcs]; rfl)] at hc
      cases hc
    refine ⟨hu, ?_⟩
    rintro rfl
    obtain hchars | hlast := hchars
    · exact hu (hempty hchars)
    · obtain ⟨d, hd, hname⟩ := exists_getLast? hn u
      rw [hlast d (by rw [h, List.append_nil, hd]; rfl)] at hname
      cases hname

theorem mentions_of_remarked {text : String} (hn : Name.isPlain n) (hcuts : Cuts tail.toList ts)
    (hgaps : ∀ t ∈ ts, QuietEnds t.gap) (htail : ∀ c ∈ tail.toList.head?, Quiet c)
    (htext : text.toList = (writtenOut ts).toList ++ tail.toList) (h : Remarked n ts tail) : mentions text n = true := by
  obtain ⟨t, ht, hmention⟩ | hmention := h
  · obtain ⟨before, after, rfl⟩ := List.append_of_mem ht
    have hcut := (cuts_append.mp hcuts).2.1
    rw [writtenOut_append, String.toList_append, toList_writtenOut_cons, List.append_assoc, List.append_assoc,
      List.append_assoc] at htext
    obtain hmention | ⟨hne, hmention⟩ := hmention
    · have hgap := hgaps t ht
      refine mentions_of_piece hn htext (fun u v hpiece halone => ⟨ne_nil_of_quiet hn hgap.1 hpiece, ?_⟩) hmention
      rintro rfl
      obtain ⟨c, hc, hname⟩ := exists_getLast? hn u
      rw [(hgap.2 c (by rw [hpiece, List.append_nil, hc]; rfl)).not_name] at hname
      cases hname
    · rw [← List.append_assoc] at htext
      refine mentions_of_piece hn htext (fun u v hpiece halone => ?_) hmention
      obtain ⟨hu, hv⟩ := token_ends hn hcut hne hpiece halone
      exact ⟨hu, fun hnil => absurd hnil hv⟩
  · rw [← List.append_nil tail.toList] at htext
    exact mentions_of_piece hn htext (fun u v hpiece _ => ⟨ne_nil_of_quiet hn htail hpiece, fun _ => rfl⟩) hmention

end Tokens

end Code

end Counterpart
