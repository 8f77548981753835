/-
Two texts with a line break between them. They are cut into the tokens of the first and then those of the second, which stand
further on by the size of what is in front of them (`ofSource_joined`).
-/
import Counterpart.Proofs.Lossless
import Counterpart.Proofs.MovedTokens

namespace Counterpart.Kotlin

open Text Lexer

variable {pos bytes : Nat} {cs : List Char} {ts : List Token} {tail : String}

/-! ## Gaps -/

/-- A line break ends the last gap of a text, also where that ends within a comment. -/
theorem Lexer.IsGap.append_line {last : Bool} {gap rest : List Char} (h : IsGap true gap) (hrest : IsGap last rest) :
    IsGap last (gap ++ '\n' :: rest) := by
  induction h with
  | nil => exact .blank (by decide) hrest
  | blank hc _ ih => exact .blank hc ih
  | line htext _ ih =>
    rw [List.cons_append, List.cons_append, List.append_assoc, List.cons_append]
    exact .line htext ih
  | lastLine _ htext => exact .line htext hrest
  | block hcomment _ ih =>
    rw [List.cons_append, List.cons_append, List.append_assoc]
    exact .block hcomment ih

/-! ## Tokens further on -/

/-- The first token of a text, its gap, and the tokens behind it. -/
theorem tokens_first {t : Token} (h : tokens .between pos cs = .ok (t :: ts, tail)) :
    ∃ rest, cs = t.gap.toList ++ (t.text.toList ++ rest) ∧ IsGap false t.gap.toList ∧ Cut t.kind t.text.toList rest ∧
      t.start = pos + byteSize t.gap.toList ∧
      tokens .between (pos + byteSize t.gap.toList + byteSize t.text.toList) rest = .ok (ts, tail) := by
  obtain ⟨n, c, rest, kind, m, hgap, hdrop, hlexeme, htokens, rfl⟩ := tokens_cons_ok h
  have hlength := length_of_drop_eq_cons hdrop
  obtain ⟨hblank, hcomment⟩ := gapLength_stops hgap hdrop
  refine ⟨rest.drop m, ?_, ?_, ?_, ?_, ?_⟩ <;> simp only [String.toList_ofList]
  · rw [List.cons_append, List.take_append_drop, ← hdrop, List.take_append_drop]
  · exact gapFrom_take hgap fun hn => by omega
  · exact .of_lexeme hlexeme hblank hcomment
  · exact htokens

/-- A token behind its gap, and the tokens behind it. -/
theorem tokens_behind {t : Token} {rest : List Char} (hgap : IsGap false t.gap.toList) (hcut : Cut t.kind t.text.toList rest)
    (hstart : t.start = pos + byteSize t.gap.toList)
    (h : tokens .between (pos + byteSize t.gap.toList + byteSize t.text.toList) rest = .ok (ts, tail)) :
    tokens .between pos (t.gap.toList ++ (t.text.toList ++ rest)) = .ok (t :: ts, tail) := by
  have hlength := gapLength_isGap hgap (fun h => by cases h) hcut.startsToken pos
  obtain ⟨c, cs, htext, hlexeme⟩ := hcut.lexeme
  rw [htext, List.cons_append] at hlength ⊢
  rw [htext] at h
  have hread := tokens_eq_cons hlength List.drop_left (hlexeme _) (by rwa [List.take_left, List.take_left, List.drop_left])
  rw [List.take_left, List.take_left, String.ofList_toList, ← htext, String.ofList_toList, ← hstart] at hread
  exact hread

/-- A text without tokens is the last gap of its source. -/
theorem tokens_none (h : tokens .between pos cs = .ok ([], tail)) : IsGap true cs ∧ tail = .ofList cs := by
  obtain ⟨n, hgap, htake, rfl⟩ := tokens_nil_ok h
  have hlast : IsGap true (cs.take n) := gapFrom_take hgap fun _ => rfl
  rw [htake] at hlast
  exact ⟨hlast, rfl⟩

theorem tokens_moved (h : tokens .between pos cs = .ok (ts, tail)) (bytes : Nat) :
    tokens .between (pos + bytes) cs = .ok (ts.map (Token.moved bytes), tail) := by
  induction ts generalizing pos cs with
  | nil =>
    obtain ⟨hlast, rfl⟩ := tokens_none h
    exact tokens_lastGap hlast _
  | cons t ts ih =>
    obtain ⟨rest, rfl, hgap, hcut, hstart, hrest⟩ := tokens_first h
    have hrest := ih hrest
    rw [Nat.add_right_comm, Nat.add_right_comm pos] at hrest
    refine tokens_behind (t := t.moved bytes) hgap hcut ?_ hrest
    rw [Token.moved, hstart, Nat.add_right_comm]

/-! ## Joined texts -/

/-- A token that starts a new text in front of which another one stands, which ends with the gap `tail`. -/
def Token.joined (bytes : Nat) (tail : String) (t : Token) : Token := { t.moved bytes with gap := tail ++ "\n" ++ t.gap }

theorem resembles_line (ds rest : List Char) : Resembles ds (ds ++ '\n' :: rest) := by
  intro c hc
  match ds with
  | [] =>
    cases hc
    exact .inl (by decide)
  | [d] =>
    cases hc
    refine .inr ⟨rfl, fun _ e he hdigit => ?_⟩
    cases he
    cases hdigit
  | d :: e :: ds =>
    cases hc
    exact .inr ⟨rfl, fun _ _ hd _ => hd⟩

theorem tokens_joined {u : Token} {us : List Token} {rest : List Char} {last : String}
    (h : tokens .between pos cs = .ok (ts, tail)) (hrest : tokens .between 0 rest = .ok (u :: us, last)) :
    tokens .between pos (cs ++ '\n' :: rest) =
      .ok (ts ++ u.joined (pos + byteSize cs + 1) tail :: us.map (Token.moved (pos + byteSize cs + 1)), last) := by
  induction ts generalizing pos cs with
  | nil =>
    obtain ⟨hlast, rfl⟩ := tokens_none h
    obtain ⟨rest, rfl, hgap, hcut, hstart, hus⟩ := tokens_first hrest
    have hjoined : (u.joined (pos + byteSize cs + 1) (.ofList cs)).gap.toList = cs ++ '\n' :: u.gap.toList := by
      simp [Token.joined]
    have hsize : pos + byteSize (cs ++ '\n' :: u.gap.toList) = byteSize u.gap.toList + (pos + byteSize cs + 1) := by
      rw [byteSize_append, byteSize, show '\n'.utf8Size = 1 by decide]
      omega
    have hread : tokens .between (pos + byteSize (cs ++ '\n' :: u.gap.toList) + byteSize u.text.toList) rest =
        .ok (us.map (Token.moved (pos + byteSize cs + 1)), last) := by
      have hmoved := tokens_moved hus (pos + byteSize cs + 1)
      rwa [Nat.zero_add, Nat.add_right_comm, ← hsize] at hmoved
    rw [← hjoined] at hread hsize
    have := tokens_behind (t := u.joined (pos + byteSize cs + 1) (.ofList cs)) (by rw [hjoined]; exact hlast.append_line hgap) hcut
      (by rw [hsize, Token.joined, Token.moved, hstart, Nat.zero_add]) hread
    rwa [hjoined, List.append_assoc, List.cons_append] at this
  | cons t ts ih =>
    obtain ⟨ds, rfl, hgap, hcut, hstart, hds⟩ := tokens_first h
    have hjoined := ih hds
    rw [List.append_assoc, List.append_assoc]
    have hsize : pos + byteSize (t.gap.toList ++ (t.text.toList ++ ds)) =
        pos + byteSize t.gap.toList + byteSize t.text.toList + byteSize ds := by
      rw [byteSize_append, byteSize_append]
      omega
    rw [hsize]
    exact tokens_behind hgap (hcut.condense (.refl _ _) (resembles_line ds rest)) hstart hjoined

/-- The second of two texts stands further on by the size of the first one and the line break. -/
theorem ofSource_joined {first second : String} {s t : TokenStream} {u : Token} {us : List Token}
    (hs : TokenStream.ofSource first = .ok s) (ht : TokenStream.ofSource second = .ok t) (hu : t.tokens = u :: us)
    (hfirst : ¬['#', '!'] <+: first.toList) (hsecond : ¬['#', '!'] <+: second.toList) :
    ∃ joined, TokenStream.ofSource (first ++ "\n" ++ second) = .ok joined ∧ joined.tokens =
      s.tokens ++ u.joined (first.utf8ByteSize + 1) s.tail :: us.map (Token.moved (first.utf8ByteSize + 1)) := by
  have hplain {source : String} {r : TokenStream} (h : TokenStream.ofSource source = .ok r) (hshell : ¬['#', '!'] <+: source.toList) :
      tokens .between 0 source.toList = .ok (r.tokens, r.tail) := by
    obtain ⟨⟨ts, tail⟩, htokens, hr⟩ := exists_of_bind_ok h
    cases hr
    rwa [if_neg (by rwa [List.isPrefixOf_iff_prefix])] at htokens
  have hread := tokens_joined (hplain hs hfirst) (hu ▸ hplain ht hsecond)
  rw [Nat.zero_add, byteSize_eq, String.ofList_toList] at hread
  have hsource : (first ++ "\n" ++ second).toList = first.toList ++ '\n' :: second.toList := by simp
  have hshell : ¬['#', '!'] <+: (first ++ "\n" ++ second).toList := by
    rw [hsource]
    intro h
    refine hfirst ?_
    generalize first.toList = cs at h
    match cs with
    | [] => simp [List.cons_prefix_cons] at h
    | [c] => simp [List.cons_prefix_cons] at h
    | c :: d :: cs => simpa [List.cons_prefix_cons] using h
  refine ⟨⟨_, t.tail, (first ++ "\n" ++ second).utf8ByteSize⟩, ?_, rfl⟩
  rw [TokenStream.ofSource, if_neg (by rwa [List.isPrefixOf_iff_prefix]), hsource, hread]
  rfl

end Counterpart.Kotlin
