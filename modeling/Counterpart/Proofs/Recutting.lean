/-
Tokens that are written out again. Tokens that are cut off one by one in front of what stands behind them (`Cuts`) are the tokens
of their text, with the gaps they are written with (`tokens_writtenOut`); the tokens of a source are cut off in it.
-/
import Counterpart.Proofs.Cutting
import Counterpart.Proofs.Gaps

namespace Counterpart.Kotlin

open Text

/-- Tokens with the gaps before them. -/
def writtenOut (ts : List Token) : String := String.join (ts.map fun t => t.gap ++ t.text)

theorem writtenOut_cons (t : Token) (ts : List Token) : writtenOut (t :: ts) = t.gap ++ (t.text ++ writtenOut ts) := by
  rw [writtenOut, List.map_cons, String.join_cons, String.append_assoc]
  rfl

theorem writtenOut_append (ts us : List Token) : writtenOut (ts ++ us) = writtenOut ts ++ writtenOut us := by
  rw [writtenOut, List.map_append, String.join_append]
  rfl

namespace Lexer

variable {state : GapState} {pos : Nat} {cs : List Char} {ts us : List Token} {tail : List Char}

/-- Whether each token is cut off when the tokens are written out in front of `tail`. -/
def Cuts (tail : List Char) : List Token → Prop
  | [] => True
  | t :: ts => Cut t.kind t.text.toList ((writtenOut ts).toList ++ tail) ∧ Cuts tail ts

theorem Cut.startsToken {kind : TokenKind} {text rest : List Char} (h : Cut kind text rest) : StartsToken (text ++ rest) := by
  obtain ⟨c, cs, rfl, -⟩ := h.lexeme
  rintro _ ⟨⟩
  exact ⟨h.blank c rfl, fun hc d hd => h.comment (by rw [hc]; rfl) d hd⟩

theorem toList_writtenOut_cons (t : Token) (ts : List Token) :
    (writtenOut (t :: ts)).toList = t.gap.toList ++ (t.text.toList ++ (writtenOut ts).toList) := by
  rw [writtenOut_cons, String.toList_append, String.toList_append]

theorem cuts_append {ts us : List Token} :
    Cuts tail (ts ++ us) ↔ Cuts ((writtenOut us).toList ++ tail) ts ∧ Cuts tail us := by
  induction ts with
  | nil => simp [Cuts]
  | cons t ts ih =>
    rw [List.cons_append, Cuts, Cuts, ih, writtenOut_append, String.toList_append, List.append_assoc, and_assoc]

theorem tokens_cuts {last : String} (h : tokens state pos cs = .ok (ts, last)) : Cuts last.toList ts := by
  induction ts generalizing state pos cs with
  | nil => trivial
  | cons t ts ih =>
    obtain ⟨n, c, rest, kind, m, hgap, hdrop, hlexeme, htokens, rfl⟩ := tokens_cons_ok h
    obtain ⟨hblank, hcomment⟩ := gapLength_stops hgap hdrop
    refine ⟨?_, ih htokens⟩
    have hrest : rest.drop m = (writtenOut ts).toList ++ last.toList := by
      have := congrArg String.toList (tokens_source htokens)
      rw [String.toList_append, String.toList_ofList] at this
      exact this.symm
    rw [String.toList_ofList, ← hrest]
    exact .of_lexeme hlexeme hblank hcomment

/-- A token that is cut off, where the reader has the gap before it still to pass, and the tokens of what stands behind it. -/
theorem tokens_cons_of_gap {t : Token} {rest : List Char} {last : String} {P : List Token → Prop}
    (hgap : gapLength state pos (t.gap.toList ++ (t.text.toList ++ rest)) = .ok t.gap.toList.length)
    (hcut : Cut t.kind t.text.toList rest) (h : ∀ pos, ∃ us, tokens .between pos rest = .ok (us, last) ∧ P us) :
    ∃ u us, tokens state pos (t.gap.toList ++ (t.text.toList ++ rest)) = .ok (u :: us, last) ∧ u.lexeme = t.lexeme ∧
      P us := by
  obtain ⟨c, cs, htext, hlexeme⟩ := hcut.lexeme
  rw [htext, List.cons_append] at hgap ⊢
  obtain ⟨us, hus, hP⟩ := h (pos + byteSize t.gap.toList + byteSize (c :: cs))
  have hread := tokens_eq_cons hgap List.drop_left (hlexeme _) (by rwa [List.take_left, List.take_left, List.drop_left])
  rw [List.take_left, List.take_left, String.ofList_toList, ← htext, String.ofList_toList] at hread
  exact ⟨_, us, hread, rfl, hP⟩

/-- A token that is cut off behind a gap, and the tokens of what stands behind it. -/
theorem tokens_cons {t : Token} {rest : List Char} {last : String} {P : List Token → Prop} (hgap : IsGap false t.gap.toList)
    (hcut : Cut t.kind t.text.toList rest) (h : ∀ pos, ∃ us, tokens .between pos rest = .ok (us, last) ∧ P us) (pos : Nat) :
    ∃ u us, tokens .between pos (t.gap.toList ++ (t.text.toList ++ rest)) = .ok (u :: us, last) ∧ u.lexeme = t.lexeme ∧
      P us :=
  tokens_cons_of_gap (gapLength_isGap hgap (fun h => by cases h) hcut.startsToken pos) hcut h

/-- A gap to the end of a source. -/
theorem tokens_lastGap {gap : List Char} (h : IsGap true gap) (pos : Nat) : tokens .between pos gap = .ok ([], .ofList gap) := by
  have hlength := gapLength_isGap h (fun _ => rfl) (show StartsToken [] by simp [StartsToken]) pos
  rw [List.append_nil] at hlength
  have := tokens_eq_nil hlength List.drop_length
  rwa [List.take_length] at this

/-- Tokens that are cut off, with gaps between them, are read from what they are written out as. -/
theorem tokens_writtenOut (hcuts : Cuts tail ts) (hgaps : ∀ t ∈ ts, IsGap false t.gap.toList) (htail : IsGap true tail)
    (pos : Nat) : ∃ us, tokens .between pos ((writtenOut ts).toList ++ tail) = .ok (us, .ofList tail) ∧
      us.map Token.lexeme = ts.map Token.lexeme := by
  induction ts generalizing pos with
  | nil => exact ⟨[], tokens_lastGap htail pos, rfl⟩
  | cons t ts ih =>
    rw [toList_writtenOut_cons, List.append_assoc, List.append_assoc]
    obtain ⟨u, us, hus, hlexeme, hmap⟩ := tokens_cons (hgaps t List.mem_cons_self) hcuts.1
      (ih hcuts.2 fun u hu => hgaps u (List.mem_cons_of_mem t hu)) pos
    exact ⟨u :: us, hus, by rw [List.map_cons, List.map_cons, hlexeme, hmap]⟩

/-- Tokens on one line are read up to the first line comment, which has no end. -/
theorem tokens_commented (hcuts : Cuts [] ts) (hline : '\n' ∉ (writtenOut ts).toList)
    (hgaps : ∀ t ∈ ts, InlineGap t.gap.toList ∨ Commented t.gap.toList) (h : ∃ t ∈ ts, Commented t.gap.toList) (pos : Nat) :
    ∃ us last, tokens .between pos (writtenOut ts).toList = .ok (us, last) ∧ us.length < ts.length := by
  suffices ∃ last, ∀ pos, ∃ us, tokens .between pos (writtenOut ts).toList = .ok (us, last) ∧ us.length < ts.length by
    obtain ⟨last, h⟩ := this
    obtain ⟨us, hus⟩ := h pos
    exact ⟨us, last, hus⟩
  induction ts with
  | nil => simp at h
  | cons t ts ih =>
    rw [toList_writtenOut_cons] at hline ⊢
    by_cases hcomment : Commented t.gap.toList
    · exact ⟨_, fun pos => ⟨[], tokens_lastGap (hcomment.isGap_append hline) pos, Nat.succ_pos _⟩⟩
    · have hmore : ∃ u ∈ ts, Commented u.gap.toList := by
        obtain ⟨u, hu, hcommented⟩ := h
        rcases List.mem_cons.mp hu with rfl | hu
        · exact absurd hcommented hcomment
        · exact ⟨u, hu, hcommented⟩
      have hrest : '\n' ∉ (writtenOut ts).toList := fun hmem => hline (by simp [hmem])
      obtain ⟨last, hend⟩ := ih hcuts.2 hrest (fun u hu => hgaps u (List.mem_cons_of_mem t hu)) hmore
      refine ⟨last, fun pos => ?_⟩
      have hgap : IsGap false t.gap.toList := ((hgaps t List.mem_cons_self).resolve_right hcomment).isGap
      have hcut := hcuts.1
      rw [List.append_nil] at hcut
      obtain ⟨u, us, hus, -, hlength⟩ := tokens_cons hgap hcut hend pos
      exact ⟨u :: us, hus, Nat.succ_lt_succ hlength⟩

end Lexer

end Counterpart.Kotlin
