/-
Reading constructor parameters with checks. Angle brackets and parentheses are counted where a default value may hold type
arguments; no count goes below zero, since the first token counted opens an angle bracket.
-/
import Counterpart.Proofs.CheckedTypes
import Counterpart.Proofs.DefaultValues

namespace Counterpart.Kotlin

open Text

namespace TokenSpans

open Reader

variable {source : String} (toks : TokenSpans)

/-! ## Modifiers -/

def atModifier : Reader source Bool := do
  match ← toks.nameAt 0 with
  | some word =>
    if modifierWords.contains word then do
      let next ← toks.tokenAt 1
      return next.isName || next.isMark '@'
    else return false
  | none => return false

/-! ## Default values -/

/-- Whether type syntax alone leads to the angle bracket that closes the open ones, of which there are `angles`. -/
def typeArgsFrom : (angles parens : Nat) → List TokenSpan → Reader source Bool
  | _, _, [] => return false
  | angles, parens, t :: ts =>
    if t.isMark '<' then typeArgsFrom (angles + 1) parens ts
    else if t.isMark '>' then do
      let angles ← less angles
      if angles = 0 then return true else typeArgsFrom angles parens ts
    else if t.isMark '(' then typeArgsFrom angles (parens + 1) ts
    else if t.isMark ')' && 0 < parens then do typeArgsFrom angles (← less parens) ts
    else if t.isName || t.kind? == some .arrow || [',', '.', '?', '*', '@', ':'].any fun c => t.isMark c then
      typeArgsFrom angles parens ts
    else return false

/-- Whether the next token opens type arguments. -/
def atTypeArgs : Reader source Bool := do
  if (← toks.tokenAt 0).isMark '<' then
    match ← toks.tokenBefore with
    | some t =>
      if t.isName then do
        let pos ← get
        if pos ≤ toks.length then typeArgsFrom 0 0 (toks.drop pos) else throw (.broken .index)
      else return false
    | none => return false
  else return false

/-- Skips a default value, with so many lists of type arguments open. -/
def skipDefault (toks : TokenSpans) (angles : Nat) : Reader source Unit := do
  let t ← toks.tokenAt 0
  if t.isEnd then return ()
  else if angles = 0 && (t.isMark ',' || t.isMark ')') then return ()
  else if ← toks.atTypeArgs then do
    let _ ← toks.advance
    toks |>.skipDefault (angles + 1)
  else if t.isMark '>' && 0 < angles then do
    let angles ← less angles
    let _ ← toks.advance
    toks |>.skipDefault angles
  else do
    toks.skipNext
    toks |>.skipDefault angles
partial_fixpoint

/-! ## Parameters -/

/-- The annotations and modifiers before a parameter. -/
def parameterMarks (toks : TokenSpans) (m : ParameterMarks) : Reader source ParameterMarks := do
  if (← toks.tokenAt 0).isMark '@' then do
    let name? ← toks.annotationName
    toks |>.parameterMarks { m with annotations := m.annotations ++ name?.toList }
  else if ← toks.atModifier then do
    let t ← toks.advance
    toks |>.parameterMarks (m.addWord (← textOf t))
  else return m
partial_fixpoint

/-- The keyword that makes a parameter a property, if it comes next. -/
def propertyKeyword : Reader source (Option Bool) := do
  if ← toks.eatWord "val" then return some false
  else if ← toks.eatWord "var" then return some true
  else return none

def parameter : Reader source Field := do
  let marks ← toks.parameterMarks ⟨[], .pub⟩
  let property ← toks.propertyKeyword
  let name ← toks.expectName .parameter
  toks.expect .parameterType
  let ty ← toks.typeRef
  let field (hasDefault : Bool) : Field :=
    ⟨Name.unquote name, ty, marks.visibility, hasDefault, property.getD false, property.isSome, marks.annotations⟩
  if ← toks.eat '=' then do
    toks.skipDefault 0
    return field true
  else return field false

/-- Parameters up to the closing parenthesis. -/
def parameters (toks : TokenSpans) : Reader source (List Field) := do
  if ← toks.eat ')' then return []
  else do
    let field ← toks.parameter
    if ← toks.eat ',' then return field :: (← toks |>.parameters)
    else do
      toks.expect .parametersEnd
      return [field]
partial_fixpoint

/-- Goes over the annotations and words before the parameters of a primary constructor. -/
def constructorWords (toks : TokenSpans) : Reader source Unit := do
  if (← toks.tokenAt 0).isMark '@' then do
    let _ ← toks.annotationName
    toks |>.constructorWords
  else
    match ← toks.nameAt 0 with
    | some word =>
      if ["public", "private", "internal", "protected", "constructor"].contains word then do
        let _ ← toks.advance
        toks |>.constructorWords
      else return ()
    | none => return ()
partial_fixpoint

/-- The parameters of the primary constructor; the reader goes back when there are none. -/
def primaryConstructor : Reader source (List Field) := do
  let start ← get
  toks.constructorWords
  if ← toks.eat '(' then toks.parameters
  else do
    set start
    return []

end TokenSpans

namespace Tracks

variable {source : String} {s : TokenStream} {t : Token} {ts : List Token} (hs : s.Lossless source)

/-! ## Modifiers -/

include hs in
theorem ends_atModifier (hts : ts <:+ s.tokens) : ((s.spans source).atModifier : Reader source Bool).Ends (s.index ts)
    (.ok (ts.head?.any fun t => isModifier t ts.tail, s.index ts)) := by
  rw [TokenSpans.atModifier, Reader.Ends.bind_iff (ends_nameAt hs hts 0)]
  cases ts with
  | nil => exact .pure _ _
  | cons t ts =>
    rw [List.getElem?_cons_zero, Option.filter_some, List.head?_cons, Option.any_some, List.tail_cons, isModifier]
    by_cases hname : t.isName = true
    · rw [if_pos hname, hname, Bool.true_and]
      dsimp only [Option.map_some]
      by_cases hword : modifierWords.contains t.text = true
      · have hnext : ((ahead source (t :: ts) 1).isName || (ahead source (t :: ts) 1).isMark '@') =
            ts.head?.any fun u => u.isName || u.isMark '@' := by cases ts <;> rfl
        rw [if_pos hword, hword, Bool.true_and, Reader.Ends.bind_iff (ends_tokenAt hts 1), hnext]
        exact .pure _ _
      · rw [if_neg hword, Bool.of_not_eq_true hword, Bool.false_and]
        exact .pure _ _
    · rw [if_neg hname, Bool.of_not_eq_true hname, Bool.false_and, Bool.false_and]
      exact .pure _ _

/-! ## Default values -/

theorem isTypePart_bounds (t : Token) : (t.bounds.isName || t.bounds.kind? == some .arrow ||
    [',', '.', '?', '*', '@', ':'].any fun c => t.bounds.isMark c) = t.isTypePart := by
  obtain ⟨kind, text, gap, start⟩ := t
  cases kind <;> simp [Token.isTypePart, TokenSpan.isName, TokenSpan.isMark, Token.bounds, beq_eq_decide]

theorem closesTypeArgs_stop (hless : t.isMark '<' = false) (hgreater : t.isMark '>' = false) (hopener : t.isMark '(' = false)
    {angles parens : Nat} (hcloser : ¬(t.isMark ')' && 0 < parens) = true) (hpart : t.isTypePart = false) :
    closesTypeArgs angles parens (t :: ts) = false := by
  rw [closesTypeArgs]
  split <;> simp_all [Token.isMark, Token.isTypePart]

theorem ends_typeArgsFrom (angles parens : Nat) (ts : List Token) (pos : Nat) :
    (TokenSpans.typeArgsFrom (angles + 1) parens (ts.map Token.bounds ++ [Reader.endBounds source]) : Reader source Bool).Ends pos
      (.ok (closesTypeArgs (angles + 1) parens ts, pos)) := by
  induction ts generalizing angles parens with
  | nil => exact .pure _ _
  | cons t ts ih =>
    rw [List.map_cons, List.cons_append, TokenSpans.typeArgsFrom, isTypePart_bounds, isMark_bounds, isMark_bounds, isMark_bounds,
      isMark_bounds]
    split_ifs with hless hgreater hopener hcloser hpart
    · rw [closesTypeArgs_less hless]
      exact ih (angles + 1) parens
    · rw [closesTypeArgs_greater hgreater, Reader.Ends.bind_iff (.less _)]
      cases angles with
      | zero => exact .pure _ _
      | succ n =>
        rw [if_neg (Nat.succ_ne_zero n), decide_eq_false (by omega), Bool.false_or]
        exact ih n parens
    · rw [closesTypeArgs_opener hopener]
      exact ih angles (parens + 1)
    · obtain ⟨hcloser, hparens⟩ := Bool.and_eq_true_iff.mp hcloser
      rw [closesTypeArgs_closer hcloser, hparens, Bool.true_and]
      obtain ⟨n, rfl⟩ := Nat.exists_eq_add_one_of_ne_zero (Nat.ne_of_gt (of_decide_eq_true hparens))
      rw [Reader.Ends.bind_iff (.less _)]
      exact ih angles n
    · rw [closesTypeArgs_part hpart]
      exact ih angles parens
    · rw [closesTypeArgs_stop (Bool.of_not_eq_true hless) (Bool.of_not_eq_true hgreater) (Bool.of_not_eq_true hopener) hcloser
        (Bool.of_not_eq_true hpart)]
      exact .pure _ _

theorem ends_atTypeArgs (hts : ts <:+ s.tokens) : ((s.spans source).atTypeArgs : Reader source Bool).Ends (s.index ts)
    (.ok (ts.head?.any (Token.isMark '<') && (s.behind ts).any Token.isName && closesTypeArgs 0 0 ts, s.index ts)) := by
  rw [TokenSpans.atTypeArgs, Reader.Ends.bind_iff (ends_tokenAt hts 0)]
  cases ts with
  | nil => exact .pure _ _
  | cons t ts =>
    rw [ahead_zero, isMark_bounds, List.head?_cons, Option.any_some]
    by_cases hless : t.isMark '<' = true
    · rw [if_pos hless, Reader.Ends.bind_iff (ends_tokenBefore hts), hless, Bool.true_and]
      cases hbehind : s.behind (t :: ts) with
      | none => exact .pure _ _
      | some u =>
        rw [Option.map_some, Option.any_some]
        by_cases hname : u.isName = true
        · have hle : s.index (t :: ts) ≤ (s.spans source).length := by
            rw [TokenStream.length_spans]
            exact Nat.le_succ_of_le (Nat.sub_le _ _)
          dsimp only
          rw [isName_bounds, if_pos hname, Reader.Ends.bind_iff (.get _), if_pos hle, TokenStream.spans_drop hts, hname,
            Bool.true_and, List.map_cons, List.cons_append, TokenSpans.typeArgsFrom, isMark_bounds, if_pos hless,
            closesTypeArgs_less hless]
          exact ends_typeArgsFrom 0 0 ts _
        · dsimp only
          rw [isName_bounds, if_neg hname, Bool.of_not_eq_true hname, Bool.false_and]
          exact .pure _ _
    · rw [if_neg hless, Bool.of_not_eq_true hless, Bool.false_and, Bool.false_and]
      exact .pure _ _

include hs

theorem skipDefault (afterName : Bool) (angles : Nat) (ts : List Token) (hts : ts <:+ s.tokens)
    (hname : (s.behind ts).any Token.isName = afterName) :
    Tracks s ((s.spans source).skipDefault angles : Reader source Unit) ts (Kotlin.skipDefault afterName angles ts) := by
  rw [TokenSpans.skipDefault]
  refine .peek hts ?_
  cases ts with
  | nil =>
    rw [Kotlin.skipDefault]
    exact .done _ _
  | cons t ts =>
    have hsuffix := (List.suffix_cons t ts).trans hts
    have hbehind := TokenStream.behind_cons hts
    rw [ahead_zero, isEnd_bounds, if_neg Bool.false_ne_true, isMark_bounds, isMark_bounds, isMark_bounds, Kotlin.skipDefault]
    split
    · exact .done _ _
    refine step (ends_atTypeArgs hts) (List.suffix_refl _) ?_
    rw [List.head?_cons, Option.any_some, hname]
    split
    next hless =>
      have hmark := (Bool.and_eq_true_iff.mp (Bool.and_eq_true_iff.mp hless).1).1
      refine .advance hts (.relabel (fun _ => ⟨_, rfl⟩) (skipDefault false (angles + 1) ts hsuffix ?_))
      rw [hbehind, Option.any_some, Token.not_isName_of_isMark hmark]
    split
    next hgreater =>
      obtain ⟨hmark, hangles⟩ := Bool.and_eq_true_iff.mp hgreater
      obtain ⟨n, rfl⟩ := Nat.exists_eq_add_one_of_ne_zero (Nat.ne_of_gt (of_decide_eq_true hangles))
      refine step (.less _) (List.suffix_refl _)
        (.advance hts (.relabel (fun _ => ⟨_, rfl⟩) (skipDefault false n ts hsuffix ?_)))
      rw [hbehind, Option.any_some, Token.not_isName_of_isMark hmark]
    · refine .bind (skipNext hs hts) fun _ rest h hskip hrest => ?_
      obtain ⟨u, hbehind, hname, -⟩ := behind_of_skipOne hts hskip
      refine .relabel (fun _ => ⟨_, rfl⟩) (skipDefault t.isName angles rest (hrest.trans hts) ?_)
      rw [hbehind, Option.any_some, hname]
termination_by ts.length
decreasing_by all_goals grind

/-! ## Parameters -/

theorem parameterMarks (m : ParameterMarks) (ts : List Token) (hts : ts <:+ s.tokens) :
    Tracks s ((s.spans source).parameterMarks m : Reader source ParameterMarks) ts (Kotlin.parameterMarks m ts) := by
  rw [TokenSpans.parameterMarks]
  refine .peek hts ?_
  cases ts with
  | nil =>
    rw [Kotlin.parameterMarks]
    exact step (ends_atModifier hs hts) (List.suffix_refl _) (.done _ _)
  | cons t ts =>
    have hsuffix := (List.suffix_cons t ts).trans hts
    rw [ahead_zero, isMark_bounds, Kotlin.parameterMarks]
    split
    · refine .bind (annotationName hs hts) fun name? rest _ _ hrest => ?_
      exact .relabel (fun _ => ⟨_, rfl⟩) (parameterMarks _ rest (hrest.trans hts))
    refine step (ends_atModifier hs hts) (List.suffix_refl _) ?_
    rw [List.head?_cons, Option.any_some, List.tail_cons]
    split
    · refine .advance hts (.text hs (hts.subset List.mem_cons_self) ?_)
      exact .relabel (fun _ => ⟨_, rfl⟩) (parameterMarks _ ts hsuffix)
    · exact .done _ _
termination_by ts.length

theorem propertyKeyword (hts : ts <:+ s.tokens) :
    Tracks s ((s.spans source).propertyKeyword : Reader source (Option Bool)) ts (.ok (takePropertyKeyword ts)) := by
  rw [TokenSpans.propertyKeyword]
  cases ts with
  | nil => exact .after (eatWord hs hts "val") fun _ => .after (eatWord hs hts "var") fun _ => .done _ _
  | cons t ts =>
    rw [takePropertyKeyword]
    split
    next hval => exact .eatWord_next hs hts hval (.done _ _)
    split
    next hval hvar => exact .eatWord_none hs hts hval (.eatWord_next hs hts hvar (.done _ _))
    next hval hvar => exact .eatWord_none hs hts hval (.eatWord_none hs hts hvar (.done _ _))

theorem parameter (hts : ts <:+ s.tokens) :
    Tracks s ((s.spans source).parameter : Reader source Field) ts (Kotlin.parameter ts) := by
  rw [TokenSpans.parameter, Kotlin.parameter]
  refine .bind (parameterMarks hs ⟨[], .pub⟩ ts hts) fun marks ts₁ h₁ _ hsuffix₁ => ?_
  have hts₁ := hsuffix₁.trans hts
  have hproperty := propertyKeyword hs hts₁
  dsimp only
  generalize takePropertyKeyword ts₁ = p at hproperty
  obtain ⟨property, ts₂, h₂⟩ := p
  refine .after hproperty fun hsuffix₂ => ?_
  have hts₂ := hsuffix₂.trans hts₁
  refine .bind (expectName hs hts₂ .parameter) fun name ts₃ h₃ _ hsuffix₃ => ?_
  have hts₃ := hsuffix₃.trans hts₂
  refine .bind (expect hs hts₃ .parameterType) fun _ ts₄ h₄ _ hsuffix₄ => ?_
  have hts₄ := hsuffix₄.trans hts₃
  refine .bind (typeRef hs ts₄ hts₄) fun ty ts₅ h₅ _ hsuffix₅ => ?_
  have hts₅ := hsuffix₅.trans hts₄
  have hequals := eat source hts₅ '='
  generalize htake : takeMark '=' ts₅ = p at hequals
  obtain ⟨hasDefault, ts₆, h₆⟩ := p
  refine .after hequals fun hsuffix₆ => ?_
  cases hasDefault with
  | false =>
    cases takeMark_false htake
    exact .done _ _
  | true =>
    obtain ⟨t, rfl, hmark⟩ := takeMark_true htake
    refine .bind (skipDefault hs false 0 ts₆ (hsuffix₆.trans hts₅) ?_) fun _ rest _ _ _ => .done _ _
    rw [TokenStream.behind_cons hts₅, Option.any_some, Token.not_isName_of_isMark hmark]

theorem parameters (ts : List Token) (hts : ts <:+ s.tokens) :
    Tracks s ((s.spans source).parameters : Reader source (List Field)) ts (Kotlin.parameters ts) := by
  have hclose := eat source hts ')'
  rw [TokenSpans.parameters, Kotlin.parameters]
  generalize htake : takeMark ')' ts = p at hclose
  obtain ⟨found, rest, h⟩ := p
  refine .after hclose fun hrest => ?_
  cases found with
  | true => exact .done _ _
  | false =>
    cases takeMark_false htake
    refine .bind (parameter hs hts) fun field ts₁ h₁ _ hsuffix₁ => ?_
    have hts₁ := hsuffix₁.trans hts
    have hcomma := eat source hts₁ ','
    dsimp only
    generalize htake : takeMark ',' ts₁ = p at hcomma
    obtain ⟨found, ts₂, h₂⟩ := p
    refine .after hcomma fun hsuffix₂ => ?_
    cases found with
    | true => exact .bind (parameters ts₂ (hsuffix₂.trans hts₁)) fun _ _ _ _ _ => .done _ _
    | false =>
      cases takeMark_false htake
      exact .bind (expect hs hts₁ .parametersEnd) fun _ _ _ _ _ => .done _ _
termination_by ts.length
decreasing_by all_goals grind

theorem constructorWords (ts : List Token) (hts : ts <:+ s.tokens) :
    Tracks s ((s.spans source).constructorWords : Reader source Unit) ts (skipConstructorWords ts) := by
  rw [TokenSpans.constructorWords]
  refine .peek hts ?_
  cases ts with
  | nil =>
    rw [skipConstructorWords]
    exact .name hs hts (.done _ _)
  | cons t ts =>
    rw [ahead_zero, isMark_bounds, skipConstructorWords]
    split
    · refine .bind (annotationName hs hts) fun _ rest _ _ hrest => ?_
      exact .relabel (fun _ => ⟨_, rfl⟩) (constructorWords rest (hrest.trans hts))
    · refine .name hs hts ?_
      rw [List.getElem?_cons_zero, Option.filter_some]
      by_cases hname : t.isName = true
      · rw [if_pos hname, hname, Bool.true_and]
        dsimp only [Option.map_some]
        split
        · exact .advance hts (.relabel (fun _ => ⟨_, rfl⟩) (constructorWords ts ((List.suffix_cons t ts).trans hts)))
        · exact .done _ _
      · rw [if_neg hname, Bool.of_not_eq_true hname, Bool.false_and]
        exact .done _ _
termination_by ts.length

theorem primaryConstructor (hts : ts <:+ s.tokens) :
    Tracks s ((s.spans source).primaryConstructor : Reader source (List Field)) ts (Kotlin.primaryConstructor ts) := by
  rw [TokenSpans.primaryConstructor, Kotlin.primaryConstructor]
  refine step (.get _) (List.suffix_refl ts) ?_
  have hwords := constructorWords hs ts hts
  cases hskip : skipConstructorWords ts with
  | error f =>
    rw [hskip] at hwords
    exact Reader.Ends.bind_error hwords _
  | ok p =>
    obtain ⟨_, ts₁, h₁⟩ := p
    rw [hskip] at hwords
    have hts₁ := hwords.1.trans hts
    have hparen := eat source hts₁ '('
    refine .of_ok_bind ?_
    dsimp only
    generalize takeMark '(' ts₁ = p at hparen ⊢
    obtain ⟨found, ts₂, h₂⟩ := p
    cases found with
    | true =>
      refine .after hwords fun _ => .after hparen fun hrest => ?_
      exact .relabel (fun _ => ⟨_, rfl⟩) (parameters hs ts₂ (hrest.trans hts₁))
    | false =>
      refine ⟨List.suffix_refl ts, ?_⟩
      rw [Reader.Ends.bind_iff hwords.2, Reader.Ends.bind_iff hparen.2, if_neg Bool.false_ne_true,
        Reader.Ends.bind_iff (.set _ _)]
      exact .pure _ _

end Tracks

end Counterpart.Kotlin
