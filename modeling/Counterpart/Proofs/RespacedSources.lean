/-
Sources, read side by side (`ofTokens_together`). Blanks and comments do not count: two sources with the same tokens, in which the
same tokens follow one another without a gap, declare the same, or are refused for the same reason at the same token
(`SourceUnit.ofSource_respaced`).
-/
import Counterpart.Proofs.RespacedClasses
import Counterpart.Proofs.Run

namespace Counterpart.Kotlin

variable {T : String → String → Prop}

/-- Two sources whose tokens are alike declare the same but for the spelling of names, or are refused alike. -/
theorem ofTokens_together [Spelling T] {Z : List (Twin T)} (hZ : Aligned Z) :
    Together Z (fun u u' => u.Alike T u' ∧ Closes true [] (lefts Z)) (SourceUnit.ofTokens (lefts Z))
      (SourceUnit.ofTokens (rights Z)) := by
  rw [SourceUnit.ofTokens, SourceUnit.ofTokens]
  refine Together.bind (skipAnnotations_alongside hZ Z (List.suffix_refl Z)) fun _ _ h₁ => ?_
  obtain ⟨ws₁, vs₁, hsplit₁, hcloses₁, -⟩ := h₁
  have hvs₁ : vs₁ <:+ Z := hsplit₁ ▸ List.suffix_append ws₁ vs₁
  refine Together.bind (packageDirective_alongside hvs₁) fun _ _ h₂ => ?_
  obtain ⟨ws₂, vs₂, hsplit₂, hcloses₂, hpackage⟩ := h₂
  have hvs₂ : vs₂ <:+ Z := (hsplit₂ ▸ List.suffix_append ws₂ vs₂).trans hvs₁
  refine Together.bind (importDirectives_alongside vs₂ hvs₂) fun _ _ h₃ => ?_
  obtain ⟨ws₃, vs₃, hsplit₃, hcloses₃, himports⟩ := h₃
  have hvs₃ : vs₃ <:+ Z := (hsplit₃ ▸ List.suffix_append ws₃ vs₃).trans hvs₂
  refine Together.bind (members_alongside hZ vs₃ hvs₃) fun _ _ h₄ => ?_
  obtain ⟨ws₄, vs₄, hsplit₄, hcloses₄, hclasses⟩ := h₄
  have hvs₄ : vs₄ <:+ Z := (hsplit₄ ▸ List.suffix_append ws₄ vs₄).trans hvs₃
  cases vs₄ with
  | nil =>
    refine .ok ⟨⟨hpackage, himports, hclasses⟩, ?_⟩
    have hZ : Z = ws₁ ++ (ws₂ ++ (ws₃ ++ ws₄)) := by simpa [hsplit₂, hsplit₃, hsplit₄] using hsplit₁
    rw [hZ, lefts_append, lefts_append, lefts_append]
    exact hcloses₁.append (hcloses₂.append (hcloses₃.append hcloses₄))
  | cons z vs => exact .errorAt (hvs₄.subset (by simp))

/-! ## Tokens in step -/

/-- Two tokens that are alike: the same but for their gaps, or names that are spelled as `T` says. -/
structure Token.Alike (T : String → String → Prop) (t t' : Token) : Prop where
  kind : t'.kind = t.kind
  name : t.isName = true → T t.text t'.text
  other : t.isName = false → t'.text = t.text

theorem exists_twins {ts ts' : List Token} (h : List.Forall₂ (Token.Alike T) ts ts') :
    ∃ Z : List (Twin T), lefts Z = ts ∧ rights Z = ts' := by
  induction h with
  | nil => exact ⟨[], rfl, rfl⟩
  | cons ht _ ih =>
    obtain ⟨Z, rfl, rfl⟩ := ih
    exact ⟨⟨_, _, ht.kind, ht.name, ht.other⟩ :: Z, rfl, rfl⟩

/-- Gaps that stand between the same tokens, as twins tell them. -/
theorem adjacent_of_twins {Z : List (Twin T)}
    (h : (lefts Z).tail.map Token.isAdjacent = (rights Z).tail.map Token.isAdjacent) :
    ∀ z ∈ Z.tail, z.right.isAdjacent = z.left.isAdjacent := by
  rw [lefts, rights, ← List.map_tail, ← List.map_tail, List.map_map, List.map_map] at h
  exact fun z hz => (List.map_inj_left.mp h z hz).symm

/-! ## Sources with the same tokens -/

/-- The kind of a token and its text. -/
def Token.written (t : Token) : TokenKind × String := (t.kind, t.text)

/-- Two token streams that differ in blanks and comments, which stand between the same tokens in both. -/
structure TokenStream.Respaced (s s' : TokenStream) : Prop where
  written : s.tokens.map Token.written = s'.tokens.map Token.written
  /-- Before the first token there may be a gap in just one of them. -/
  adjacent : s.tokens.tail.map Token.isAdjacent = s'.tokens.tail.map Token.isAdjacent

instance (s s' : TokenStream) : Decidable (s.Respaced s') :=
  decidable_of_iff (s.tokens.map Token.written = s'.tokens.map Token.written ∧
    s.tokens.tail.map Token.isAdjacent = s'.tokens.tail.map Token.isAdjacent) ⟨fun h => ⟨h.1, h.2⟩, fun h => ⟨h.1, h.2⟩⟩

/-- Where the token of a number is; the end of the source when there are no more tokens. -/
def TokenStream.spanAt (s : TokenStream) (i : Nat) : Text.Span :=
  match s.tokens[i]? with
  | some t => t.span
  | none => ⟨s.size, 0⟩

theorem TokenStream.Respaced.exists_twins {s s' : TokenStream} (h : s.Respaced s') :
    ∃ Z : List (Twin Eq), lefts Z = s.tokens ∧ rights Z = s'.tokens ∧ Aligned Z := by
  have halike : List.Forall₂ (Token.Alike Eq) s.tokens s'.tokens := by
    have hwritten : List.Forall₂ Eq (s.tokens.map Token.written) (s'.tokens.map Token.written) := by
      rw [List.forall₂_eq_eq_eq]
      exact h.written
    refine (List.forall₂_map_right_iff.mp (List.forall₂_map_left_iff.mp hwritten)).imp fun t t' heq => ?_
    obtain ⟨hkind, htext⟩ := Prod.mk.inj heq
    exact ⟨hkind.symm, fun _ => htext, fun _ => htext.symm⟩
  obtain ⟨Z, hleft, hright⟩ := Kotlin.exists_twins halike
  refine ⟨Z, hleft, hright, adjacent_of_twins (by rw [hleft, hright, h.adjacent]), fun z _ _ _ _ _ => ?_⟩
  exact z.text_eq.symm

theorem ofTokens_alongside {Z : List (Twin Eq)} (hZ : Aligned Z) :
    Together Z (fun u u' => u.erased = u'.erased ∧ Closes true [] (lefts Z)) (SourceUnit.ofTokens (lefts Z))
      (SourceUnit.ofTokens (rights Z)) :=
  (ofTokens_together hZ).mono fun _ _ h => ⟨SourceUnit.erased_eq_of_alike h.1, h.2⟩

/-- **Blanks and comments** change neither what a source declares nor why it is refused and at which token. -/
theorem SourceUnit.ofSource_respaced {source source' : String} {s s' : TokenStream}
    (hs : TokenStream.ofSource source = .ok s) (hs' : TokenStream.ofSource source' = .ok s') (h : s.Respaced s') :
    match SourceUnit.ofSource source, SourceUnit.ofSource source' with
    | .ok u, .ok u' => u.erased = u'.erased
    | .error e, .error e' => e.cause = e'.cause ∧ ∃ i ≤ s.tokens.length, e.span = s.spanAt i ∧ e'.span = s'.spanAt i
    | _, _ => False := by
  obtain ⟨Z, hleft, hright, hZ⟩ := h.exists_twins
  have hrun := ofTokens_alongside hZ
  rw [hleft, hright] at hrun
  have hsource : SourceUnit.ofSource source = (SourceUnit.ofTokens s.tokens).mapError (Fault.toError s.size) := by
    rw [SourceUnit.ofSource, hs]
    rfl
  have hsource' : SourceUnit.ofSource source' = (SourceUnit.ofTokens s'.tokens).mapError (Fault.toError s'.size) := by
    rw [SourceUnit.ofSource, hs']
    rfl
  rw [hsource, hsource']
  generalize SourceUnit.ofTokens s.tokens = x, SourceUnit.ofTokens s'.tokens = y at hrun
  cases hrun with
  | ok hu => exact hu.1
  | error cause z hz =>
    refine ⟨rfl, ?_⟩
    cases z with
    | none =>
      have hlength : s'.tokens.length = s.tokens.length := by simpa using congrArg List.length h.written.symm
      refine ⟨s.tokens.length, le_rfl, ?_, ?_⟩ <;> simp [TokenStream.spanAt, Fault.toError, hlength]
    | some z =>
      obtain ⟨i, hi, hget⟩ := List.mem_iff_getElem.mp (hz z rfl)
      refine ⟨i, ?_, ?_, ?_⟩
      · rw [← hleft, length_lefts]
        exact hi.le
      · simp [TokenStream.spanAt, Fault.toError, ← hleft, lefts, hi, hget]
      · simp [TokenStream.spanAt, Fault.toError, ← hright, rights, hi, hget]

/-- A class on one line. -/
def denseSource : String := "data class A(val items: List<Int>, @Key(1) val n: Int = 0)"

/-- The same class with comments and line breaks where the other one has spaces, and one before the first word. -/
def looseSource : String :=
  "\n// model\ndata\tclass A(val /* all */ items:\n  List<Int>,\n  @Key(1)\n  val n: Int /* none */ =  0)"

theorem ofSource_respaced_looseSource : ∃ s s', TokenStream.ofSource denseSource = .ok s ∧
    TokenStream.ofSource looseSource = .ok s' ∧ s.Respaced s' ∧
    match SourceUnit.ofSource denseSource, SourceUnit.ofSource looseSource with
    | .ok u, .ok u' => u.erased = u'.erased
    | .error e, .error e' => e.cause = e'.cause ∧ ∃ i ≤ s.tokens.length, e.span = s.spanAt i ∧ e'.span = s'.spanAt i
    | _, _ => False := by
  have hrespaced : ((TokenStream.ofSource denseSource).toOption.bind fun s =>
      (TokenStream.ofSource looseSource).toOption.map fun s' => decide (s.Respaced s')) = some true := by
    decide +kernel
  obtain ⟨s, hs, hrespaced⟩ := Option.bind_eq_some_iff.mp hrespaced
  obtain ⟨s', hs', hrespaced⟩ := Option.map_eq_some_iff.mp hrespaced
  have hs := ok_of_toOption hs
  have hs' := ok_of_toOption hs'
  have hrespaced := of_decide_eq_true hrespaced
  exact ⟨s, s', hs, hs', hrespaced, SourceUnit.ofSource_respaced hs hs' hrespaced⟩

end Counterpart.Kotlin
