/-
Nothing of a source is lost. The tokens stand in it one behind the other, on whole characters, with only blanks and comments
between them (`TokenStream.Lossless`); and each token is cut off by a space, so the texts of the tokens with a space between
them are cut into the same tokens again (`tokens_spaced`).
-/
import Counterpart.Proofs.Recutting
import Counterpart.Proofs.RespacedSources

namespace Counterpart.Kotlin

open Text Lexer

/-- A source as spans, with gaps between them that are none of the program. -/
structure TokenStream.Lossless (s : TokenStream) (source : String) : Prop where
  whole : s.source = source
  /-- The end of the source, behind all tokens. -/
  size : s.size = source.utf8ByteSize
  /-- A token starts behind what stands before it. -/
  placed : ∀ before t after, s.tokens = before ++ t :: after → t.start = (writtenOut before ++ t.gap).utf8ByteSize
  boundaries : ∀ t ∈ s.tokens, String.Pos.Raw.IsValid source ⟨t.start⟩ ∧ String.Pos.Raw.IsValid source ⟨t.stop⟩
  nonempty : ∀ t ∈ s.tokens, t.start < t.stop
  ordered : s.tokens.Pairwise fun t u => t.stop ≤ u.start
  inside : ∀ t ∈ s.tokens, t.stop ≤ s.size
  firstGap : ∀ t ∈ s.tokens.head?, IsFirstGap false t.gap.toList
  gaps : ∀ t ∈ s.tokens.tail, IsGap false t.gap.toList
  /-- The gap behind the last token; all of the source when there is none. -/
  lastGap : if s.tokens = [] then IsFirstGap true s.tail.toList else IsGap true s.tail.toList

variable {state : GapState} {pos : Nat} {cs : List Char} {ts : List Token} {tail : String}

/-! ## Spans -/

theorem byteSize_eq (cs : List Char) : byteSize cs = (String.ofList cs).utf8ByteSize := by
  induction cs with
  | nil => rfl
  | cons c cs ih => rw [byteSize, ih, String.ofList_cons, String.utf8ByteSize_append, String.utf8ByteSize_singleton]

theorem tokens_placed {before after : List Token} {t : Token}
    (h : tokens state pos cs = .ok (before ++ t :: after, tail)) :
    t.start = pos + (writtenOut before ++ t.gap).utf8ByteSize := by
  induction before generalizing state pos cs with
  | nil =>
    obtain ⟨n, c, rest, kind, m, -, -, -, -, rfl⟩ := tokens_cons_ok h
    simp [writtenOut, String.join, byteSize_eq]
  | cons u before ih =>
    obtain ⟨n, c, rest, kind, m, -, -, -, htokens, rfl⟩ := tokens_cons_ok h
    have := ih htokens
    simp only [writtenOut, List.map_cons, String.join_cons, String.utf8ByteSize_append, byteSize_eq] at this ⊢
    omega

theorem tokens_nonempty (h : tokens state pos cs = .ok (ts, tail)) : ∀ t ∈ ts, t.start < t.stop := by
  induction ts generalizing state pos cs with
  | nil => simp
  | cons t ts ih =>
    obtain ⟨n, c, rest, kind, m, -, -, -, htokens, rfl⟩ := tokens_cons_ok h
    intro u hu
    rcases List.mem_cons.mp hu with rfl | hu
    · have := c.utf8Size_pos
      rw [Token.stop, String.ofList_cons, String.utf8ByteSize_append, String.utf8ByteSize_singleton]
      omega
    · exact ih htokens u hu

theorem tokens_ordered (h : tokens state pos cs = .ok (ts, tail)) :
    (∀ t ∈ ts, pos ≤ t.start) ∧ ts.Pairwise fun t u => t.stop ≤ u.start := by
  induction ts generalizing state pos cs with
  | nil => simp
  | cons t ts ih =>
    obtain ⟨n, c, rest, kind, m, -, -, -, htokens, rfl⟩ := tokens_cons_ok h
    obtain ⟨hstart, hpairs⟩ := ih htokens
    constructor
    · intro u hu
      rcases List.mem_cons.mp hu with rfl | hu
      · exact Nat.le_add_right _ _
      · have := hstart u hu
        omega
    · refine .cons (fun u hu => ?_) hpairs
      rw [Token.stop, ← byteSize_eq]
      exact hstart u hu

/-! ## Gaps -/

theorem tokens_firstGap (h : tokens state pos cs = .ok (ts, tail)) : ∃ n, gapLength state pos cs = .ok n ∧
    (∀ t ∈ ts.head?, n < cs.length ∧ t.gap.toList = cs.take n) ∧ (ts = [] → tail.toList = cs.take n) := by
  obtain ⟨n, hgap, ⟨-, rfl, rfl⟩ | ⟨c, rest, kind, m, us, hdrop, -, -, rfl⟩⟩ := tokens_ok h
  · exact ⟨n, hgap, by simp, fun _ => String.toList_ofList⟩
  · have := length_of_drop_eq_cons hdrop
    refine ⟨n, hgap, ?_, fun hnil => absurd hnil (List.cons_ne_nil _ _)⟩
    rintro _ ⟨⟩
    exact ⟨by omega, String.toList_ofList⟩

theorem tokens_gaps (h : tokens state pos cs = .ok (ts, tail)) :
    (∀ t ∈ ts.tail, IsGap false t.gap.toList) ∧ (ts ≠ [] → IsGap true tail.toList) := by
  induction ts generalizing state pos cs with
  | nil => simp
  | cons t ts ih =>
    obtain ⟨n, c, rest, kind, m, -, -, -, htokens, rfl⟩ := tokens_cons_ok h
    obtain ⟨hgaps, hlast⟩ := ih htokens
    obtain ⟨k, hgap, hfirst, htail⟩ := tokens_firstGap htokens
    cases ts with
    | nil =>
      refine ⟨by simp, fun _ => ?_⟩
      rw [htail rfl]
      exact gapFrom_take hgap fun _ => rfl
    | cons u ts =>
      refine ⟨?_, fun _ => hlast (List.cons_ne_nil u ts)⟩
      intro v hv
      rcases List.mem_cons.mp hv with rfl | hv
      · obtain ⟨hlt, htext⟩ := hfirst v rfl
        rw [htext]
        exact gapFrom_take hgap fun hk => by omega
      · exact hgaps v hv

/-! ## Tokens with a space between them -/

/-- The tokens with a space before each, but for the first one, which stands behind `gap`. -/
def spaced (gap : String) : List Token → List Token
  | [] => []
  | t :: ts => { t with gap } :: spaced " " ts

theorem toList_spaced (gap : String) (ts : List Token) : (writtenOut (spaced gap ts)).toList =
    if ts = [] then [] else gap.toList ++ (join " " (ts.map Token.text)).toList := by
  induction ts generalizing gap with
  | nil => rfl
  | cons t ts ih =>
    rw [spaced, toList_writtenOut_cons, ih, if_neg (List.cons_ne_nil t ts)]
    cases ts with
    | nil => simp [join]
    | cons u ts => simp [join_cons, String.toList_append]

theorem written_spaced (gap : String) (ts : List Token) : (spaced gap ts).map Token.written = ts.map Token.written := by
  induction ts generalizing gap with
  | nil => rfl
  | cons t ts ih => rw [spaced, List.map_cons, List.map_cons, ih]; rfl

theorem isGap_spaced {gap : String} (hgap : IsGap false gap.toList) (ts : List Token) :
    ∀ t ∈ spaced gap ts, IsGap false t.gap.toList := by
  induction ts generalizing gap with
  | nil => simp [spaced]
  | cons t ts ih =>
    intro u hu
    rcases List.mem_cons.mp hu with rfl | hu
    · exact hgap
    · exact ih (.blank (by decide) .nil) u hu

theorem cuts_spaced (gap : String) {tail : List Char} (h : Cuts tail ts) : Cuts [] (spaced gap ts) := by
  induction ts generalizing gap with
  | nil => trivial
  | cons t ts ih =>
    refine ⟨h.1.condense (.refl _ _) ?_, ih " " h.2⟩
    rw [List.append_nil, toList_spaced]
    split
    · simp [Resembles]
    · rintro _ ⟨⟩
      exact .inl (by decide)

theorem written_of_lexeme {us : List Token} (h : us.map Token.lexeme = ts.map Token.lexeme) :
    us.map Token.written = ts.map Token.written := by
  have := congrArg (List.map fun e : Lexeme => (e.kind, e.text)) h
  rwa [List.map_map, List.map_map] at this

theorem tokens_spaced (h : tokens state pos cs = .ok (ts, tail)) :
    ∃ us, tokens .between 0 (join " " (ts.map Token.text)).toList = .ok (us, "") ∧
      us.map Token.written = ts.map Token.written := by
  obtain ⟨us, hus, hmap⟩ := tokens_writtenOut (cuts_spaced "" (tokens_cuts h)) (isGap_spaced .nil ts) .nil 0
  refine ⟨us, ?_, (written_of_lexeme hmap).trans (written_spaced "" ts)⟩
  rw [List.append_nil, toList_spaced] at hus
  split at hus
  next hnil =>
    rw [hnil]
    exact hus
  next => simpa using hus

/-- No mark before an exclamation mark but the one that begins a source. -/
theorem not_shell_join (h : tokens state pos cs = .ok (ts, tail)) :
    ['#', '!'].isPrefixOf (join " " (ts.map Token.text)).toList = false := by
  cases ts with
  | nil => rfl
  | cons t ts =>
    obtain ⟨n, c, rest, kind, m, -, -, hlexeme, -, rfl⟩ := tokens_cons_ok h
    by_cases hc : c = '#'
    · subst hc
      cases length_of_lexeme (.inr rfl) hlexeme
      cases ts with
      | nil => simp [join]
      | cons u ts =>
        rw [List.map_cons, join_cons (by simp), String.toList_append, String.toList_append, String.toList_ofList]
        rfl
    · have hhead : ∃ ds, (join " " (String.ofList (c :: rest.take m) :: ts.map Token.text)).toList = c :: ds := by
        cases ts with
        | nil => exact ⟨_, String.toList_ofList⟩
        | cons u ts =>
          rw [List.map_cons, join_cons (by simp), String.toList_append, String.toList_append, String.toList_ofList]
          exact ⟨_, rfl⟩
      obtain ⟨ds, hds⟩ := hhead
      rw [List.map_cons, hds, List.isPrefixOf_cons_cons]
      simp [Ne.symm hc]

theorem TokenStream.lossless {source : String} {s : TokenStream} (h : TokenStream.ofSource source = .ok s) :
    s.Lossless source := by
  obtain ⟨htokens, hsize⟩ := TokenStream.ofSource_ok h
  have hwhole : s.source = source := by
    have := tokens_source htokens
    rwa [String.ofList_toList] at this
  have hplaced : ∀ before t after, s.tokens = before ++ t :: after →
      t.start = (writtenOut before ++ t.gap).utf8ByteSize := by
    intro before t after hsplit
    rw [hsplit] at htokens
    rw [tokens_placed htokens, Nat.zero_add]
  have hsplit : ∀ t ∈ s.tokens, ∃ lead rest, source = lead ++ t.text ++ rest ∧ t.start = lead.utf8ByteSize := by
    intro t ht
    obtain ⟨before, after, hsplit⟩ := List.append_of_mem ht
    refine ⟨writtenOut before ++ t.gap, writtenOut after ++ s.tail, ?_, hplaced _ _ _ hsplit⟩
    rw [← hwhole, TokenStream.source, hsplit, List.map_append, List.map_cons, String.join_append, String.join_cons]
    simp only [writtenOut, String.append_assoc]
  obtain ⟨n, hgap, hfirst, hlast⟩ := tokens_firstGap htokens
  obtain ⟨hgaps, htail⟩ := tokens_gaps htokens
  refine ⟨hwhole, hsize, hplaced, ?_, tokens_nonempty htokens, (tokens_ordered htokens).2, ?_, ?_, hgaps, ?_⟩
  · intro t ht
    obtain ⟨lead, rest, rfl, hstart⟩ := hsplit t ht
    refine ⟨String.Pos.Raw.isValid_iff_exists_append.mpr ⟨lead, t.text ++ rest, String.append_assoc, ?_⟩,
      String.Pos.Raw.isValid_iff_exists_append.mpr ⟨lead ++ t.text, rest, rfl, ?_⟩⟩
    · rw [hstart]
      rfl
    · rw [Token.stop, hstart, ← String.utf8ByteSize_append]
      rfl
  · intro t ht
    obtain ⟨lead, rest, rfl, hstart⟩ := hsplit t ht
    rw [hsize, Token.stop, hstart, String.utf8ByteSize_append, String.utf8ByteSize_append]
    omega
  · intro t ht
    obtain ⟨hlt, htext⟩ := hfirst t ht
    rw [htext]
    exact isFirstGap_take hgap fun hn => by omega
  · split
    next hnil =>
      rw [hlast hnil]
      exact isFirstGap_take hgap fun _ => rfl
    next hne => exact htail hne

/-- **Lexing** loses nothing: the spans of the tokens lie in the source one behind the other with only blanks and comments
between them, and the texts of the tokens with a space between them are cut into the same tokens. -/
theorem TokenStream.ofSource_lossless {source : String} {s : TokenStream} (h : TokenStream.ofSource source = .ok s) :
    s.Lossless source ∧ ∃ s', TokenStream.ofSource (join " " (s.tokens.map Token.text)) = .ok s' ∧
      s'.tokens.map Token.written = s.tokens.map Token.written := by
  refine ⟨TokenStream.lossless h, ?_⟩
  obtain ⟨htokens, -⟩ := TokenStream.ofSource_ok h
  obtain ⟨us, hus, hwritten⟩ := tokens_spaced htokens
  exact ⟨_, TokenStream.ofSource_eq (by rw [not_shell_join htokens]; rfl) hus, hwritten⟩

/-- A source with a line for the shell, nested comments, and literals with code in them. -/
def scriptSource : String :=
  "#!/usr/bin/env kotlin\n/* a /* b */ ** c */ val größe = 1.5e3..2 // end\n" ++
  "fun `f g`(): (Int) -> String = \x7b \"\"\"raw \"$\x7b \"x$\x7b'\x7d'\x7d\" \x7d\"\"\"\" \x7d -/- '\\''/"

theorem ofSource_lossless_scriptSource : ∃ s, TokenStream.ofSource scriptSource = .ok s ∧ s.tokens.length = 26 ∧
    s.Lossless scriptSource ∧ ∃ s', TokenStream.ofSource (join " " (s.tokens.map Token.text)) = .ok s' ∧
      s'.tokens.map Token.written = s.tokens.map Token.written := by
  have hs : ((TokenStream.ofSource scriptSource).toOption.map fun s => s.tokens.length) = some 26 := by decide +kernel
  obtain ⟨s, hs, hlength⟩ := Option.map_eq_some_iff.mp hs
  exact ⟨s, ok_of_toOption hs, hlength, TokenStream.ofSource_lossless (ok_of_toOption hs)⟩

end Counterpart.Kotlin
