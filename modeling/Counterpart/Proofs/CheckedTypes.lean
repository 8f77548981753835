/-
Reading annotations, directives and types with checks. Captured texts are cut out of the source between the first token of a
type and the one before the position.
-/
import Counterpart.Proofs.CheckedTokens

namespace Counterpart.Kotlin

open Text

namespace TokenSpans

open Reader

variable {source : String} (toks : TokenSpans)

/-! ## Annotations -/

/-- Goes over the target of an annotation, if it comes next. -/
def skipUseSite : Reader source Unit := do
  if (← toks.tokenAt 0).isName && (← toks.tokenAt 1).isMark ':' && !(← toks.tokenAt 2).isMark ':' then do
    let _ ← toks.advance
    let _ ← toks.advance
    return ()
  else return ()

/-- What stands behind the target of an annotation. -/
def annotated : Reader source (Option String) := do
  if (← toks.tokenAt 0).isMark '[' then do
    toks.skipBalanced
    return none
  else do
    let name ← toks.dotted .annotationName
    let paren ← toks.tokenAt 0
    if paren.isMark '(' && paren.start == (← toks.endBefore) then do
      toks.skipBalanced
      return some (Name.shortName name)
    else return some (Name.shortName name)

/-- An annotation from its mark on. -/
def annotationName : Reader source (Option String) := do
  let _ ← toks.advance
  if (← toks.tokenAt 0).isMark '[' then toks.annotated
  else do
    toks.skipUseSite
    toks.annotated

/-- Goes over the annotations that come next. -/
def annotations (toks : TokenSpans) : Reader source Unit := do
  if (← toks.tokenAt 0).isMark '@' then do
    let _ ← toks.annotationName
    toks |>.annotations
  else return ()
partial_fixpoint

/-! ## Directives -/

def package : Reader source String := do
  if ← toks.eatWord "package" then do
    let name ← toks.dotted .package
    let _ ← toks.eat ';'
    return name
  else return ""

/-- An import directive after its keyword. -/
def imported : Reader source Import := do
  let path ← toks.dotted .importPath
  if (← toks.tokenAt 0).isMark '.' && (← toks.tokenAt 1).isMark '*' then do
    let _ ← toks.advance
    let _ ← toks.advance
    return .everything path
  else if ← toks.eatWord "as" then return ⟨path, some (← toks.expectName .importAlias), false⟩
  else return .symbol path

def imports (toks : TokenSpans) : Reader source (List Import) := do
  if ← toks.eatWord "import" then do
    let i ← toks.imported
    let _ ← toks.eat ';'
    return i :: (← toks |>.imports)
  else return []
partial_fixpoint

/-! ## Types -/

/-- The variance before a type argument. -/
def variance : Reader source Variance := do
  let word ← toks.nameAt 0
  let next ← toks.tokenAt 1
  if word == some "out" && next.isName then do
    let _ ← toks.advance
    return .outward
  else if word == some "in" && next.isName then do
    let _ ← toks.advance
    return .inward
  else return .invariant

mutual

def typeRef (toks : TokenSpans) : Reader source TypeRef := do
  toks.annotations
  let start := (← toks.tokenAt 0).start
  let _ ← toks.eatWord "suspend"
  if (← toks.tokenAt 0).isMark '(' then do
    toks.skipBalanced
    toks |>.resultType
    let nullable ← toks.eat '?'
    return .function nullable (oneLine (← toks.textFrom start))
  else do
    let name ← toks.dotted .type
    let args ← toks |>.typeArgs
    if (← toks.tokenAt 0).isMark '.' && (← toks.tokenAt 1).isMark '(' then do
      let _ ← toks.advance
      toks.skipBalanced
      toks |>.resultType
      return .function false (oneLine (← toks.textFrom start))
    else do
      let nullable ← toks.eat '?'
      toks |>.otherBound
      return .named name args nullable (oneLine (← toks.textFrom start))
partial_fixpoint

/-- The arrow and the result of a function type, if they come next. -/
def resultType (toks : TokenSpans) : Reader source Unit := do
  if (← toks.tokenAt 0).kind? == some .arrow then do
    let _ ← toks.advance
    let _ ← toks |>.typeRef
    return ()
  else return ()
partial_fixpoint

/-- The other half of an intersection type, if it comes next. -/
def otherBound (toks : TokenSpans) : Reader source Unit := do
  if ← toks.eat '&' then do
    let _ ← toks |>.typeRef
    return ()
  else return ()
partial_fixpoint

/-- The type arguments in angle brackets, if they come next. -/
def typeArgs (toks : TokenSpans) : Reader source (List (TypeArg TypeRef)) := do
  if (← toks.tokenAt 0).isMark '<' then do
    let _ ← toks.advance
    toks |>.typeArgList
  else return []
partial_fixpoint

/-- Type arguments up to the closing angle bracket. -/
def typeArgList (toks : TokenSpans) : Reader source (List (TypeArg TypeRef)) := do
  let arg ← toks |>.typeArg
  if ← toks.eat ',' then return arg :: (← toks |>.typeArgList)
  else do
    toks.expect .typeArgumentsEnd
    return [arg]
partial_fixpoint

def typeArg (toks : TokenSpans) : Reader source (TypeArg TypeRef) := do
  if ← toks.eat '*' then return .star
  else do
    let variance ← toks.variance
    return .type variance (← toks |>.typeRef)
partial_fixpoint

end

end TokenSpans

namespace Tracks

variable {source : String} {s : TokenStream} {t : Token} {ts : List Token} (hs : s.Lossless source)

/-! ## Annotations -/

theorem skipUseSite (hts : ts <:+ s.tokens) :
    Tracks s ((s.spans source).skipUseSite : Reader source Unit) ts (.ok (dropUseSite ts)) := by
  refine .peek hts (.peek hts (.peek hts ?_))
  match ts, hts with
  | [], _ => exact .done _ _
  | [_], _ =>
    rw [ahead_succ, ahead_nil, isMark_endBounds, Bool.and_false, Bool.false_and, if_neg Bool.false_ne_true]
    exact .done _ _
  | t :: colon :: ts, hts =>
    have hafter : (ahead source (t :: colon :: ts) 2).isMark ':' = atMark ':' ts := by cases ts <;> rfl
    rw [ahead_zero, ahead_succ, ahead_zero, hafter, isName_bounds, isMark_bounds, dropUseSite]
    split
    · exact .advance hts (.advance ((List.suffix_cons t _).trans hts) (.done _ _))
    · exact .done _ _

include hs

theorem annotated {us : List Token} {h} (hus : dropUseSite us = ⟨(), ts, h⟩) (hts : ts <:+ s.tokens) :
    Tracks s ((s.spans source).annotated : Reader source (Option String)) ts (annotationUse us) := by
  rw [annotationUse, hus, TokenSpans.annotated]
  refine .peek hts ?_
  cases ts with
  | nil => exact Reader.Ends.bind_error (dotted hs .annotationName hts) _
  | cons bracket ts =>
    rw [ahead_zero, isMark_bounds]
    dsimp only
    split
    · exact .bind (skipBalanced hs hts) fun _ _ _ _ _ => .done _ _
    · refine .bind (dotted hs .annotationName hts) fun name rest _ _ hrest => ?_
      have hrest := hrest.trans hts
      refine .peek hrest (step (ends_endBefore hrest) (List.suffix_refl _) ?_)
      cases rest with
      | nil => exact .done _ _
      | cons paren rest =>
        have hadjacent : (paren.bounds.start == s.stopBehind (paren :: rest)) = paren.isAdjacent := by
          rw [Bool.eq_iff_iff, beq_iff_eq]
          exact hs.start_eq_stopBehind hrest
        rw [ahead_zero, isMark_bounds, hadjacent]
        dsimp only
        split
        · exact .bind (skipBalanced hs hrest) fun _ _ _ _ _ => .done _ _
        · exact .done _ _

theorem annotationName (hts : t :: ts <:+ s.tokens) :
    Tracks s ((s.spans source).annotationName : Reader source (Option String)) (t :: ts) (annotationUse ts) := by
  have hsuffix := (List.suffix_cons t ts).trans hts
  rw [TokenSpans.annotationName]
  refine .advance hts (.peek hsuffix ?_)
  split
  next hbracket =>
    cases ts with
    | nil => cases hbracket
    | cons bracket ts => exact annotated hs (dropUseSite_of_isMark hbracket ts) hsuffix
  next => exact .after (skipUseSite hsuffix) fun h => annotated hs rfl (h.trans hsuffix)

theorem annotations (ts : List Token) (hts : ts <:+ s.tokens) :
    Tracks s ((s.spans source).annotations : Reader source Unit) ts (skipAnnotations ts) := by
  rw [TokenSpans.annotations]
  refine .peek hts ?_
  cases ts with
  | nil =>
    rw [skipAnnotations]
    exact .done _ _
  | cons t ts =>
    rw [ahead_zero, isMark_bounds, skipAnnotations]
    split
    · refine .bind (annotationName hs hts) fun _ rest _ _ hrest => ?_
      exact .relabel (fun _ => ⟨_, rfl⟩) (annotations rest (hrest.trans hts))
    · exact .done _ _
termination_by ts.length

/-! ## Directives -/

theorem package (hts : ts <:+ s.tokens) :
    Tracks s ((s.spans source).package : Reader source String) ts (packageDirective ts) := by
  have hword := eatWord hs hts "package"
  rw [TokenSpans.package, packageDirective]
  generalize htake : takeWord "package" ts = p at hword
  obtain ⟨found, us, h⟩ := p
  refine .after hword fun hrest => ?_
  cases found with
  | false =>
    cases takeWord_false htake
    exact .done _ _
  | true =>
    have hus := hrest.trans hts
    refine .bind (dotted hs .package hus) fun name rest _ _ hrest => ?_
    exact .after (eat source (hrest.trans hus) ';') fun _ => .done _ _

theorem imported (hts : ts <:+ s.tokens) :
    Tracks s ((s.spans source).imported : Reader source Import) ts (importDirective ts) := by
  rw [TokenSpans.imported, importDirective]
  refine .bind (dotted hs .importPath hts) fun path rest _ _ hrest => ?_
  have hrest := hrest.trans hts
  refine .peek hrest (.peek hrest ?_)
  cases rest with
  | nil =>
    rw [ahead_nil, isMark_endBounds, Bool.false_and, if_neg Bool.false_ne_true]
    exact .after (eatWord hs hrest "as") fun _ => .done _ _
  | cons t us =>
    have hus := (List.suffix_cons t us).trans hrest
    have hstar : (ahead source (t :: us) 1).isMark '*' = atMark '*' us := by cases us <;> rfl
    rw [ahead_zero, isMark_bounds, hstar]
    dsimp only
    split
    next hstar =>
      cases us with
      | nil => simp [atMark] at hstar
      | cons star us => exact .advance hrest (.advance hus (.done _ _))
    next =>
      split
      next has => exact .eatWord_next hs hrest has (.bind (expectName hs hus .importAlias) fun _ _ _ _ _ => .done _ _)
      next has => exact .eatWord_none hs hrest has (.done _ _)

theorem imports (ts : List Token) (hts : ts <:+ s.tokens) :
    Tracks s ((s.spans source).imports : Reader source (List Import)) ts (importDirectives ts) := by
  have hword := eatWord hs hts "import"
  rw [TokenSpans.imports, importDirectives]
  generalize htake : takeWord "import" ts = p at hword
  obtain ⟨found, us, h⟩ := p
  refine .after hword fun hrest => ?_
  cases found with
  | false =>
    cases takeWord_false htake
    exact .done _ _
  | true =>
    have hus := hrest.trans hts
    refine .bind (imported hs hus) fun i rest hlt _ hrest => ?_
    have hsemicolon := eat source (hrest.trans hus) ';'
    dsimp only
    generalize takeMark ';' rest = p at hsemicolon
    obtain ⟨_, left, hleft⟩ := p
    refine .after hsemicolon fun hp => ?_
    exact .bind (imports left (hp.trans (hrest.trans hus))) fun _ _ _ _ _ => .done _ _
termination_by ts.length
decreasing_by all_goals grind

/-! ## Types -/

omit hs in
/-- A dot and a parenthesis come next, or not. -/
theorem receiverEnd_eq (source : String) (ts : List Token) :
    (∃ dot paren us h, ts = dot :: paren :: us ∧ receiverEnd ts = some ⟨paren, us, h⟩ ∧
      ((ahead source ts 0).isMark '.' && (ahead source ts 1).isMark '(') = true) ∨
    receiverEnd ts = none ∧ ((ahead source ts 0).isMark '.' && (ahead source ts 1).isMark '(') = false := by
  match ts with
  | [] => exact .inr ⟨rfl, rfl⟩
  | [dot] => exact .inr ⟨rfl, Bool.and_false _⟩
  | dot :: paren :: us =>
    rw [ahead_succ, ahead_zero, ahead_zero, isMark_bounds, isMark_bounds, receiverEnd]
    split
    next h => exact .inl ⟨dot, paren, us, (Parsed.taken paren paren us).rest_lt, rfl, rfl, h⟩
    next h => exact .inr ⟨rfl, Bool.of_not_eq_true h⟩

theorem variance (hts : ts <:+ s.tokens) :
    Tracks s ((s.spans source).variance : Reader source Variance) ts (.ok (takeVariance ts)) := by
  refine .name hs hts (.peek hts ?_)
  match ts, hts with
  | [], _ => exact .done _ _
  | [t], _ =>
    rw [ahead_succ, ahead_nil, isName_endBounds, Bool.and_false, Bool.and_false]
    exact .done _ _
  | t :: u :: ts, hts =>
    rw [nameText_beq, nameText_beq, List.getElem?_cons_zero, Option.any_some, Option.any_some, ahead_succ, ahead_zero,
      isName_bounds, takeVariance]
    split_ifs
    · exact .advance hts (.done _ _)
    · exact .advance hts (.done _ _)
    · exact .done _ _

omit hs

mutual

theorem typeRef (hs : s.Lossless source) (ts : List Token) (hts : ts <:+ s.tokens) :
    Tracks s ((s.spans source).typeRef : Reader source TypeRef) ts (Kotlin.typeRef ts) := by
  rw [TokenSpans.typeRef, Kotlin.typeRef]
  refine .bind (annotations hs ts hts) fun _ start h₀ _ hstart => ?_
  have hstart := hstart.trans hts
  have hsuspend := eatWord hs hstart "suspend"
  refine .peek hstart ?_
  dsimp only
  generalize takeWord "suspend" start = p at hsuspend
  obtain ⟨_, us, hus⟩ := p
  refine .after hsuspend fun hsuffix => ?_
  have hustokens := hsuffix.trans hstart
  refine .peek hustokens ?_
  cases us with
  | nil => exact Reader.Ends.bind_error (dotted hs .type hustokens) _
  | cons t us =>
    rw [ahead_zero, isMark_bounds]
    dsimp only
    split
    · refine .bind (skipBalanced hs hustokens) fun _ vs hvs _ hsuffix₁ => ?_
      have hvstokens := hsuffix₁.trans hustokens
      refine .bind (resultType hs vs hvstokens) fun _ ws hws _ hsuffix₂ => ?_
      have hnullable := eat source (hsuffix₂.trans hvstokens) '?'
      dsimp only
      generalize takeMark '?' ws = p at hnullable
      obtain ⟨nullable, rest, hrest⟩ := p
      refine .after hnullable fun hsuffix₃ => ?_
      have hbehind : rest <:+ start := hsuffix₃.trans (hsuffix₂.trans (hsuffix₁.trans hsuffix))
      exact step (ends_textFrom hs hstart hbehind (by grind)) (List.suffix_refl _) (.done _ _)
    · refine .bind (dotted hs .type hustokens) fun name vs hvs _ hsuffix₁ => ?_
      have hvstokens := hsuffix₁.trans hustokens
      refine .bind (typeArgs hs vs hvstokens) fun args ws hws _ hsuffix₂ => ?_
      have hwstokens := hsuffix₂.trans hvstokens
      have hbehind : ws <:+ start := hsuffix₂.trans (hsuffix₁.trans hsuffix)
      refine .peek hwstokens (.peek hwstokens ?_)
      obtain ⟨dot, paren, rest, _, rfl, hreceiver, hdot⟩ | ⟨hreceiver, hdot⟩ := receiverEnd_eq source ws
      all_goals
        rw [hreceiver, hdot]
        dsimp only
      · have hgroup := (List.suffix_cons dot _).trans hwstokens
        refine .advance hwstokens (.bind (skipBalanced hs hgroup) fun _ us₅ h₅ _ hsuffix₅ => ?_)
        refine .bind (resultType hs us₅ (hsuffix₅.trans hgroup)) fun _ rest h₆ _ hsuffix₆ => ?_
        have hbehind : rest <:+ start := hsuffix₆.trans (hsuffix₅.trans ((List.suffix_cons dot _).trans hbehind))
        exact step (ends_textFrom hs hstart hbehind (by grind)) (List.suffix_refl _) (.done _ _)
      · have hnullable := eat source hwstokens '?'
        generalize takeMark '?' ws = p at hnullable
        obtain ⟨nullable, rest, hrest⟩ := p
        refine .after hnullable fun hsuffix₃ => ?_
        refine .bind (otherBound hs rest (hsuffix₃.trans hwstokens)) fun _ rest h₄ _ hsuffix₄ => ?_
        have hbehind : rest <:+ start := hsuffix₄.trans (hsuffix₃.trans hbehind)
        exact step (ends_textFrom hs hstart hbehind (by grind)) (List.suffix_refl _) (.done _ _)
termination_by 3 * ts.length
decreasing_by all_goals grind

theorem resultType (hs : s.Lossless source) (ts : List Token) (hts : ts <:+ s.tokens) :
    Tracks s ((s.spans source).resultType : Reader source Unit) ts (Kotlin.resultType ts) := by
  rw [TokenSpans.resultType]
  refine .peek hts ?_
  cases ts with
  | nil =>
    rw [Kotlin.resultType]
    exact .done _ _
  | cons t ts =>
    have harrow : (t.bounds.kind? == some .arrow) = (t.kind == .arrow) := rfl
    rw [ahead_zero, harrow, Kotlin.resultType]
    split
    · exact .advance hts (.bind (typeRef hs ts ((List.suffix_cons t ts).trans hts)) fun _ _ _ _ _ => .done _ _)
    · exact .done _ _
termination_by 3 * ts.length

theorem otherBound (hs : s.Lossless source) (ts : List Token) (hts : ts <:+ s.tokens) :
    Tracks s ((s.spans source).otherBound : Reader source Unit) ts (Kotlin.otherBound ts) := by
  rw [TokenSpans.otherBound]
  cases ts with
  | nil =>
    rw [Kotlin.otherBound]
    exact .after (eat source hts '&') fun _ => .done _ _
  | cons t ts =>
    rw [Kotlin.otherBound]
    split
    next h => exact .eat_next hts h (.bind (typeRef hs ts ((List.suffix_cons t ts).trans hts)) fun _ _ _ _ _ => .done _ _)
    next h => exact .eat_none hts h (.done _ _)
termination_by 3 * ts.length

theorem typeArgs (hs : s.Lossless source) (ts : List Token) (hts : ts <:+ s.tokens) :
    Tracks s ((s.spans source).typeArgs : Reader source (List (TypeArg TypeRef))) ts (Kotlin.typeArgs ts) := by
  rw [TokenSpans.typeArgs]
  refine .peek hts ?_
  cases ts with
  | nil =>
    rw [Kotlin.typeArgs]
    exact .done _ _
  | cons t ts =>
    rw [ahead_zero, isMark_bounds, Kotlin.typeArgs]
    split
    · exact .advance hts (.relabel (fun _ => ⟨_, rfl⟩) (typeArgList hs ts ((List.suffix_cons t ts).trans hts)))
    · exact .done _ _
termination_by 3 * ts.length

theorem typeArgList (hs : s.Lossless source) (ts : List Token) (hts : ts <:+ s.tokens) :
    Tracks s ((s.spans source).typeArgList : Reader source (List (TypeArg TypeRef))) ts (Kotlin.typeArgList ts) := by
  rw [TokenSpans.typeArgList, Kotlin.typeArgList]
  refine .bind (typeArg hs ts hts) fun arg rest hlt _ hrest => ?_
  have hrest := hrest.trans hts
  cases rest with
  | nil => exact .after (eat source hrest ',') fun _ => Reader.Ends.bind_error (expect hs hrest .typeArgumentsEnd) _
  | cons t us =>
    dsimp only
    split
    next h =>
      refine .eat_next hrest h ?_
      exact .bind (typeArgList hs us ((List.suffix_cons t us).trans hrest)) fun _ _ _ _ _ => .done _ _
    next h =>
      have hangle := expect hs hrest .typeArgumentsEnd
      rw [expectMark, MarkRole.mark] at hangle
      refine .eat_none hrest h ?_
      rw [if_neg Bool.false_ne_true]
      split
      next h =>
        rw [if_pos h] at hangle
        exact .after hangle fun _ => .done _ _
      next h =>
        rw [if_neg h] at hangle
        exact Reader.Ends.bind_error hangle _
termination_by 3 * ts.length + 2
decreasing_by all_goals grind

theorem typeArg (hs : s.Lossless source) (ts : List Token) (hts : ts <:+ s.tokens) :
    Tracks s ((s.spans source).typeArg : Reader source (TypeArg TypeRef)) ts (Kotlin.typeArg ts) := by
  rw [TokenSpans.typeArg]
  cases ts with
  | nil =>
    rw [Kotlin.typeArg]
    have htype : Kotlin.typeRef [] = .error ⟨.missingName .type, none⟩ := by
      rw [Kotlin.typeRef, skipAnnotations]
      rfl
    have hty := typeRef hs [] hts
    rw [htype] at hty
    exact .after (eat source hts '*') fun _ => .after (variance hs hts) fun _ => Reader.Ends.bind_error hty _
  | cons t ts =>
    rw [Kotlin.typeArg]
    split
    next h => exact .eat_next hts h (.done _ _)
    next h =>
      refine .eat_none hts h ?_
      have hvariance := variance hs hts
      generalize takeVariance (t :: ts) = p at hvariance
      obtain ⟨word, rest, hlt⟩ := p
      refine .after hvariance fun hrest => ?_
      exact .bind (typeRef hs rest (hrest.trans hts)) fun _ _ _ _ _ => .done _ _
termination_by 3 * ts.length + 1
decreasing_by all_goals grind

end

end Tracks

end Counterpart.Kotlin
