/-
Reading constructors and classes with a trail. Where a reader looks ahead, or goes back to read tokens again, it looks at no more
than all the tokens that are left, and takes a token next.
-/
import Counterpart.Proofs.WalkedTypes

namespace Counterpart.Kotlin

open Text

namespace WalkedSpans

open Walk Reader

variable {source : String} (toks : WalkedSpans)

/-! ## Default values -/

def typeArgsFrom : (angles parens : Nat) → List TokenSpan → Walk source Bool
  | _, _, [] => return false
  | angles, parens, t :: ts => do
    step (return ())
    if t.isMark '<' then typeArgsFrom (angles + 1) parens ts
    else if t.isMark '>' then do
      let angles ← step (less angles)
      if angles = 0 then return true else typeArgsFrom angles parens ts
    else if t.isMark '(' then typeArgsFrom angles (parens + 1) ts
    else if t.isMark ')' && 0 < parens then do typeArgsFrom angles (← step (less parens)) ts
    else if t.isName || t.kind? == some .arrow || [',', '.', '?', '*', '@', ':'].any fun c => t.isMark c then
      typeArgsFrom angles parens ts
    else return false

def atTypeArgs : Walk source Bool := do
  if (← step (toks.tokenAt 0)).isMark '<' then
    match ← step toks.tokenBefore with
    | some t =>
      if t.isName then do
        let pos ← place
        if pos ≤ toks.length then typeArgsFrom 0 0 (toks.drop pos) else step (throw (.broken .index))
      else return false
    | none => return false
  else return false

def skipDefault (toks : WalkedSpans) (angles : Nat) : Walk source Unit := do
  let start ← place
  let t ← step (toks.tokenAt 0)
  if t.isEnd then return ()
  else if angles = 0 && (t.isMark ',' || t.isMark ')') then return ()
  else if ← toks.atTypeArgs then do
    let _ ← step toks.advance
    again start
    toks |>.skipDefault (angles + 1)
  else if t.isMark '>' && 0 < angles then do
    let angles ← step (less angles)
    let _ ← step toks.advance
    again start
    toks |>.skipDefault angles
  else do
    toks.skipNext
    again start
    toks |>.skipDefault angles
partial_fixpoint

/-! ## Parameters -/

def parameterMarks (toks : WalkedSpans) (m : ParameterMarks) : Walk source ParameterMarks := do
  let start ← place
  if (← step (toks.tokenAt 0)).isMark '@' then do
    let name? ← toks.annotationName
    again start
    toks |>.parameterMarks { m with annotations := m.annotations ++ name?.toList }
  else if ← step toks.atModifier then do
    let t ← step toks.advance
    let text ← step (textOf t)
    again start
    toks |>.parameterMarks (m.addWord text)
  else return m
partial_fixpoint

def parameter : Walk source Field := do
  let marks ← toks.parameterMarks ⟨[], .pub⟩
  let property ← step toks.propertyKeyword
  let name ← step (toks.expectName .parameter)
  step (toks.expect .parameterType)
  let ty ← toks.typeRef
  let field (hasDefault : Bool) : Field :=
    ⟨Name.unquote name, ty, marks.visibility, hasDefault, property.getD false, property.isSome, marks.annotations⟩
  if ← step (toks.eat '=') then do
    toks.skipDefault 0
    return field true
  else return field false

def parameters (toks : WalkedSpans) : Walk source (List Field) := do
  let start ← place
  if ← step (toks.eat ')') then return []
  else do
    let field ← toks.parameter
    if ← step (toks.eat ',') then do
      again start
      return field :: (← toks |>.parameters)
    else do
      step (toks.expect .parametersEnd)
      return [field]
partial_fixpoint

def constructorWords (toks : WalkedSpans) : Walk source Unit := do
  let start ← place
  if (← step (toks.tokenAt 0)).isMark '@' then do
    let _ ← toks.annotationName
    again start
    toks |>.constructorWords
  else
    match ← step (toks.nameAt 0) with
    | some word =>
      if ["public", "private", "internal", "protected", "constructor"].contains word then do
        let _ ← step toks.advance
        again start
        toks |>.constructorWords
      else return ()
    | none => return ()
partial_fixpoint

def primaryConstructor : Walk source (List Field) := do
  let start ← place
  toks.constructorWords
  if ← step (toks.eat '(') then toks.parameters
  else do
    step (set start)
    return []

/-! ## Members that are no classes -/

def skipToDeclaration (toks : WalkedSpans) (stopAtBrace : Bool) : Walk source Unit := do
  let start ← place
  let t ← step (toks.tokenAt 0)
  if t.isEnd || t.isMark '\x7d' || t.isMark ';' || t.isMark '@' || (stopAtBrace && t.isMark '\x7b') then return ()
  else if ← step toks.startsDeclaration then return ()
  else do
    toks.skipNext
    again start
    toks |>.skipToDeclaration stopAtBrace
partial_fixpoint

def skipMember : Walk source Unit := do
  toks.skipNext
  toks.skipToDeclaration false

/-! ## Class headers -/

def modifiers (toks : WalkedSpans) : Walk source (List String) := do
  let start ← place
  if (← step (toks.tokenAt 0)).isMark '@' then do
    let _ ← toks.annotationName
    again start
    toks |>.modifiers
  else if ← step toks.atModifier then do
    let word ← step (textOf (← step toks.advance))
    again start
    return word :: (← toks |>.modifiers)
  else if (← step (toks.atWord "fun")) && (← step (toks.nameAt 1)) == some "interface" then do
    let _ ← step toks.advance
    again start
    toks |>.modifiers
  else return []
partial_fixpoint

def closeAngles (toks : WalkedSpans) (opener : TokenSpan) (depth : Nat) : Walk source Unit := do
  if depth = 0 then return ()
  else do
    let start ← place
    let t ← step (toks.tokenAt 0)
    if t.isEnd || t.isMark '\x7b' || t.isMark ')' then step (refuse (.unclosed "<") opener.start opener.stop)
    else do
      let depth ← step (TokenSpans.anglesBehind t depth)
      toks.skipNext
      again start
      toks |>.closeAngles opener depth
partial_fixpoint

def typeParameters : Walk source (Option String) := do
  let opener ← step (toks.tokenAt 0)
  if opener.isMark '<' then do
    let _ ← step toks.advance
    toks.closeAngles opener 1
    return some (← step (toks.textFrom opener.start))
  else return none

def skipSupertypes : Walk source Unit := do
  if ← step (toks.eat ':') then toks.skipToDeclaration true
  else if ← step (toks.atWord "where") then toks.skipToDeclaration true
  else return ()

/-! ## Enum entries -/

def entryArguments : Walk source (Option String) := do
  if (← step (toks.tokenAt 0)).isMark '(' then return some (← toks.captureBalanced) else return none

def skipEntryBody : Walk source Unit := do
  if (← step (toks.tokenAt 0)).isMark '\x7b' then toks.skipBalanced else return ()

def enumEntry (t : TokenSpan) : Walk source EnumEntry := do
  let name ← step (textOf t)
  let args ← toks.entryArguments
  toks.skipEntryBody
  return ⟨Name.unquote name, args⟩

def enumEntries (toks : WalkedSpans) : Walk source (List EnumEntry) := do
  let start ← place
  toks.annotations
  let t ← step (toks.tokenAt 0)
  if t.isMark ';' then do
    let _ ← step toks.advance
    return []
  else if t.isMark '\x7d' then return []
  else if t.isName then do
    let entry ← toks.enumEntry (← step toks.advance)
    if ← step (toks.eat ',') then do
      again start
      return entry :: (← toks |>.enumEntries)
    else do
      let _ ← step (toks.eat ';')
      return [entry]
  else step (refuse .missingEnumEntry t.start t.stop)
partial_fixpoint

def entriesOf (kind : ClassKind) : Walk source (List EnumEntry) :=
  if kind = .enum then toks.enumEntries else return []

/-! ## Classes -/

mutual

def classTree (toks : WalkedSpans) : Walk source (Option ClassTree) := do
  match ← step (toks.classKind (← toks.modifiers)) with
  | some kind => do
    match ← step (toks.classNamed kind (← step toks.advance)) with
    | some token => do
      let name := Name.unquote (← step (textOf token))
      let typeParams ← toks.typeParameters
      let fields ← toks.primaryConstructor
      toks.skipSupertypes
      let (entries, nested) ← toks |>.classBody kind name
      return some ⟨name, kind, typeParams, fields, entries, nested, token.start⟩
    | none => return none
  | none => return none
partial_fixpoint

def classBody (toks : WalkedSpans) (kind : ClassKind) (name : String) : Walk source (List EnumEntry × List ClassTree) := do
  let opener ← step (toks.tokenAt 0)
  if opener.isMark '\x7b' then do
    let _ ← step toks.advance
    let entries ← toks.entriesOf kind
    let nested ← toks |>.members
    if ← step (toks.eat '\x7d') then return (entries, nested)
    else step (refuse (.unclosedBody name) opener.start opener.stop)
  else return ([], [])
partial_fixpoint

def members (toks : WalkedSpans) : Walk source (List ClassTree) := do
  let start ← place
  let t ← step (toks.tokenAt 0)
  if t.isEnd || t.isMark '\x7d' then return []
  else if t.isMark ';' then do
    let _ ← step toks.advance
    again start
    toks |>.members
  else do
    match ← toks |>.classTree with
    | some c => do
      again start
      return c :: (← toks |>.members)
    | none => do
      step (set start)
      toks.skipMember
      again start
      toks |>.members
partial_fixpoint

end

end WalkedSpans

namespace Retraces

variable {n limit : Nat} {source : String} {toks : TokenSpans} {t : Trail}

/-! ## Default values -/

theorem typeArgsFrom (angles parens : Nat) (ts : List TokenSpan) (ht : t.Within n limit)
    (hroom : t.toll n + 2 * ts.length ≤ limit) :
    Retraces n limit (TokenSpans.typeArgsFrom angles parens ts : Reader source Bool) (WalkedSpans.typeArgsFrom angles parens ts) t
      fun _ u => u.place = t.place ∧ u.toll n ≤ t.toll n + 2 * ts.length := by
  induction ts generalizing angles parens t with
  | nil =>
    rw [TokenSpans.typeArgsFrom, WalkedSpans.typeArgsFrom]
    exact .pure ht (by omega)
  | cons token ts ih =>
    rw [List.length_cons] at hroom ⊢
    rw [TokenSpans.typeArgsFrom, WalkedSpans.typeArgsFrom]
    refine .tick ht (by omega) fun u hu htick => ?_
    have hnext : ∀ angles parens v, v.Within n limit → v.place = t.place ∧ v.toll n ≤ t.toll n + 2 →
        Retraces n limit (TokenSpans.typeArgsFrom angles parens ts : Reader source Bool) (WalkedSpans.typeArgsFrom angles parens ts) v
          fun _ w => w.place = t.place ∧ w.toll n ≤ t.toll n + 2 * (ts.length + 1) := by
      intro angles parens v hv hplace
      refine (ih angles parens hv (by omega)).mono fun _ w hw => ?_
      omega
    split_ifs with hless hgreater hopener hcloser hpart
    · exact hnext _ _ u hu (by omega)
    · refine .bind (.look (.less _) hu (by omega)) fun angles v hv hstep => ?_
      split
      · exact .pure hv (by omega)
      · exact hnext _ _ v hv (by omega)
    · exact hnext _ _ u hu (by omega)
    · exact .bind (.look (.less _) hu (by omega)) fun parens v hv hstep => hnext _ _ v hv (by omega)
    · exact hnext _ _ u hu (by omega)
    · exact .pure hu (by omega)

/-- Looking ahead goes no further than to the end. -/
theorem atTypeArgs (h : toks.EndsAt n) (ht : t.Within n limit) (hroom : t.toll n + 2 * (n - t.place) + 4 ≤ limit) :
    Retraces n limit (toks.atTypeArgs : Reader source Bool) (WalkedSpans.atTypeArgs toks) t fun _ u =>
      u.place = t.place ∧ u.toll n ≤ t.toll n + 2 * (n - t.place) + 4 := by
  refine .bind (.look (h.tokenAt 0) ht (by omega)) fun token u hu hlook => ?_
  split
  · refine .bind (.look (.tokenBefore toks) hu (by omega)) fun before v hv hbefore => ?_
    cases before with
    | none => exact .pure hv (by omega)
    | some token =>
      dsimp only
      split
      · refine .get ?_
        have hlength := h.length_eq
        have hend := hv.place_le
        rw [if_pos (by omega), if_pos (by omega)]
        have hdrop : (toks.drop v.place).length = n + 1 - v.place := by rw [List.length_drop, hlength]
        refine (typeArgsFrom 0 0 (toks.drop v.place) hv (by omega)).mono fun _ w hw => ?_
        omega
      · exact .pure hv (by omega)
  · exact .pure hu (by omega)

theorem skipDefault (h : toks.EndsAt n) (angles : Nat) (t : Trail) (ht : t.Within n limit)
    (hroom : t.toll n + t.ahead n + 8 ≤ limit) :
    Retraces n limit (toks.skipDefault angles : Reader source Unit) (WalkedSpans.skipDefault toks angles) t fun _ u =>
      t.place ≤ u.place ∧ u.toll n + u.ahead n ≤ t.toll n + t.ahead n + 1 := by
  rw [TokenSpans.skipDefault, WalkedSpans.skipDefault]
  have hahead := t.le_ahead n
  refine .place (.bind (.look (h.tokenAt 0) ht (by omega)) fun token u hu hlook => ?_)
  have hstays := Trail.ahead_le (n := n) (Nat.le_of_eq hlook.2.1.symm)
  split
  · exact .pure hu (by omega)
  next hend =>
  have hlt : t.place < n := hlook.1.mp (Bool.of_not_eq_true hend)
  split
  · exact .pure hu (by omega)
  refine .bind (atTypeArgs h hu (by omega)) fun found v hv hlookahead => ?_
  -- a token is taken, and what was set aside for it pays for the look at those behind it
  have hnext : ∀ angles w, w.Within n limit → t.place < w.place → w.toll n ≤ v.toll n →
      Retraces n limit (toks.skipDefault angles : Reader source Unit)
        (Walk.again t.place >>= fun _ => WalkedSpans.skipDefault toks angles) w fun _ x =>
          t.place ≤ x.place ∧ x.toll n + x.ahead n ≤ t.toll n + t.ahead n + 1 := by
    intro angles w hw hlt' htoll
    have hpays := Trail.ahead_lt hlt' hw.place_le
    refine .again hlt' hw fun x hx hround => ?_
    refine (skipDefault h angles x hx (by omega)).mono fun _ y hy => ?_
    omega
  split_ifs
  · exact .bind (.take (h.advance hv.place_le) hv (by omega)) fun _ w hw hstep => hnext _ w hw (by omega) (by omega)
  · refine .bind (.look (.less _) hv (by omega)) fun angles w hw hless => ?_
    exact .bind (.take (h.advance hw.place_le) hw (by omega)) fun _ x hx hstep => hnext _ x hx (by omega) (by omega)
  · exact .bind (skipNext h (by omega) hv (by omega)) fun _ w hw hskip => hnext _ w hw (by omega) (by omega)
termination_by n - t.place

/-! ## Parameters -/

theorem parameterMarks (h : toks.EndsAt n) (m : ParameterMarks) (t : Trail) (ht : t.Within n limit) (hroom : t.toll n + 13 ≤ limit) :
    Retraces n limit (toks.parameterMarks m : Reader source ParameterMarks) (WalkedSpans.parameterMarks toks m) t fun _ u =>
      t.place ≤ u.place ∧ u.toll n ≤ t.toll n + 2 := by
  rw [TokenSpans.parameterMarks, WalkedSpans.parameterMarks]
  refine .place (.bind (.look (h.tokenAt 0) ht (by omega)) fun mark u hu hmark => ?_)
  split
  · refine .bind (annotationName h hu (by omega)) fun name? v hv hname => ?_
    refine .again (by omega) hv fun w hw hround => ?_
    refine (parameterMarks h _ w hw (by omega)).mono fun _ x hx => ?_
    omega
  refine .bind (.look h.atModifier hu (by omega)) fun found v hv hmodifier => ?_
  split
  next hfound =>
    have hlt := hmodifier.1 hfound
    refine .bind (.take (h.advance hv.place_le) hv (by omega)) fun word w hw hstep => ?_
    refine .bind (.look (.slice _ _) hw (by omega)) fun text x hx htext => ?_
    refine .again (by omega) hx fun y hy hround => ?_
    refine (parameterMarks h _ y hy (by omega)).mono fun _ z hz => ?_
    omega
  next => exact .pure hv (by omega)
termination_by n - t.place

theorem parameter (h : toks.EndsAt n) (ht : t.Within n limit) (hroom : t.toll n + t.ahead n + 13 ≤ limit) :
    Retraces n limit (toks.parameter : Reader source Field) (WalkedSpans.parameter toks) t fun _ u =>
      t.place < u.place ∧ u.toll n + u.ahead n + 64 ≤ t.toll n + t.ahead n := by
  refine .bind (parameterMarks h _ t ht (by omega)) fun marks u hu hmarks => ?_
  refine .bind (.take (h.propertyKeyword hu.place_le) hu (by omega)) fun property v hv hproperty => ?_
  refine .bind (.take (h.expectName .parameter hv.place_le) hv (by omega)) fun name w hw hname => ?_
  refine .bind (.take (h.expect .parameterType hw.place_le) hw (by omega)) fun _ x hx hcolon => ?_
  refine .bind (typeRef h x hx (by omega)) fun ty y hy hty => ?_
  refine .bind (.take (h.eat '=' hy.place_le) hy (by omega)) fun hasDefault z hz hequals => ?_
  have hahead : z.ahead n ≤ t.ahead n := Trail.ahead_le (by omega)
  split
  · exact .bind (skipDefault h 0 z hz (by omega)) fun _ a ha hdefault => .pure ha (by omega)
  · exact .pure hz (by omega)

theorem parameters (h : toks.EndsAt n) (t : Trail) (ht : t.Within n limit) (hroom : t.toll n + t.ahead n + 14 ≤ limit) :
    Retraces n limit (toks.parameters : Reader source (List Field)) (WalkedSpans.parameters toks) t fun _ u =>
      t.place < u.place ∧ u.toll n + u.ahead n + 31 ≤ t.toll n + t.ahead n := by
  rw [TokenSpans.parameters, WalkedSpans.parameters]
  refine .place (.bind (.take (h.eat ')' ht.place_le) ht (by omega)) fun found u hu hclose => ?_)
  have hahead : u.ahead n ≤ t.ahead n := Trail.ahead_le hclose.2.1
  split
  next hfound =>
    have hlt := hclose.1 hfound
    exact .pure hu (by omega)
  next =>
    refine .bind (parameter h hu (by omega)) fun field v hv hparameter => ?_
    refine .bind (.take (h.eat ',' hv.place_le) hv (by omega)) fun found w hw hcomma => ?_
    have hahead' : w.ahead n ≤ v.ahead n := Trail.ahead_le hcomma.2.1
    split
    · refine .again (by omega) hw fun x hx hround => ?_
      exact .bind (parameters h x hx (by omega)) fun _ y hy hmore => .pure hy (by omega)
    · refine .bind (.take (h.expect .parametersEnd hw.place_le) hw (by omega)) fun _ x hx hparen => .pure hx ?_
      have hahead'' : x.ahead n ≤ w.ahead n := Trail.ahead_le hparen.2.1
      omega
termination_by n - t.place

theorem constructorWords (h : toks.EndsAt n) (t : Trail) (ht : t.Within n limit) (hroom : t.toll n + 13 ≤ limit) :
    Retraces n limit (toks.constructorWords : Reader source Unit) (WalkedSpans.constructorWords toks) t fun _ u =>
      t.place ≤ u.place ∧ u.toll n ≤ t.toll n + 2 := by
  rw [TokenSpans.constructorWords, WalkedSpans.constructorWords]
  refine .place (.bind (.look (h.tokenAt 0) ht (by omega)) fun mark u hu hmark => ?_)
  split
  · refine .bind (annotationName h hu (by omega)) fun _ v hv hname => ?_
    refine .again (by omega) hv fun w hw hround => ?_
    refine (constructorWords h w hw (by omega)).mono fun _ x hx => ?_
    omega
  refine .bind (.look (h.nameAt 0) hu (by omega)) fun word v hv hword => ?_
  cases word with
  | none => exact .pure hv (by omega)
  | some word =>
    have hlt := hword.1 rfl
    dsimp only
    split
    · refine .bind (.take (h.advance hv.place_le) hv (by omega)) fun _ w hw hstep => ?_
      refine .again (by omega) hw fun x hx hround => ?_
      refine (constructorWords h x hx (by omega)).mono fun _ y hy => ?_
      omega
    · exact .pure hv (by omega)
termination_by n - t.place

/-- Words may be read in vain, up to the end. -/
theorem primaryConstructor (h : toks.EndsAt n) (ht : t.Within n limit) (hroom : t.toll n + t.ahead n + 17 ≤ limit) :
    Retraces n limit (toks.primaryConstructor : Reader source (List Field)) (WalkedSpans.primaryConstructor toks) t fun _ u =>
      t.place ≤ u.place ∧ u.toll n + u.ahead n ≤ t.toll n + t.ahead n + 32 * (n - t.place) + 4 := by
  refine .get (.bind (constructorWords h t ht (by omega)) fun _ u hu hwords => ?_)
  refine .bind (.take (h.eat '(' hu.place_le) hu (by omega)) fun found v hv hparen => ?_
  have hahead : v.ahead n ≤ t.ahead n := Trail.ahead_le (by omega)
  split
  · refine (parameters h v hv (by omega)).mono fun _ w hw => ?_
    omega
  · refine .bind (.back (by omega) hv (by omega)) fun _ w hw hback => .pure hw ?_
    have hahead' : w.ahead n ≤ t.ahead n := Trail.ahead_le (Nat.le_of_eq hback.1.symm)
    have hend := hv.place_le
    omega

/-! ## Members that are no classes -/

theorem skipToDeclaration (h : toks.EndsAt n) (stopAtBrace : Bool) (t : Trail) (ht : t.Within n limit)
    (hroom : t.toll n + 7 ≤ limit) :
    Retraces n limit (toks.skipToDeclaration stopAtBrace : Reader source Unit)
      (WalkedSpans.skipToDeclaration toks stopAtBrace) t fun _ u => t.place ≤ u.place ∧ u.toll n ≤ t.toll n + 2 := by
  rw [TokenSpans.skipToDeclaration, WalkedSpans.skipToDeclaration]
  refine .place (.bind (.look (h.tokenAt 0) ht (by omega)) fun token u hu hlook => ?_)
  split
  · exact .pure hu (by omega)
  next hstop =>
  have hlt : t.place < n := hlook.1.mp (by simp_all)
  refine .bind (.look h.startsDeclaration hu (by omega)) fun found v hv hdeclaration => ?_
  split
  · exact .pure hv (by omega)
  refine .bind (skipNext h (by omega) hv (by omega)) fun _ w hw hskip => ?_
  refine .again (by omega) hw fun x hx hround => ?_
  refine (skipToDeclaration h stopAtBrace x hx (by omega)).mono fun _ y hy => ?_
  omega
termination_by n - t.place

theorem skipMember (h : toks.EndsAt n) (hlt : t.place < n) (ht : t.Within n limit) (hroom : t.toll n + 5 ≤ limit) :
    Retraces n limit (toks.skipMember : Reader source Unit) (WalkedSpans.skipMember toks) t fun _ u =>
      t.place < u.place ∧ u.toll n + 27 ≤ t.toll n := by
  refine .bind (skipNext h hlt ht (by omega)) fun _ u hu hskip => ?_
  refine (skipToDeclaration h false u hu (by omega)).mono fun _ v hv => ?_
  omega

/-! ## Class headers -/

theorem modifiers (h : toks.EndsAt n) (t : Trail) (ht : t.Within n limit) (hroom : t.toll n + 13 ≤ limit) :
    Retraces n limit (toks.modifiers : Reader source (List String)) (WalkedSpans.modifiers toks) t fun _ u =>
      t.place ≤ u.place ∧ u.toll n ≤ t.toll n + 4 := by
  rw [TokenSpans.modifiers, WalkedSpans.modifiers]
  refine .place (.bind (.look (h.tokenAt 0) ht (by omega)) fun mark u hu hmark => ?_)
  split
  · refine .bind (annotationName h hu (by omega)) fun _ v hv hname => ?_
    refine .again (by omega) hv fun w hw hround => ?_
    refine (modifiers h w hw (by omega)).mono fun _ x hx => ?_
    omega
  refine .bind (.look h.atModifier hu (by omega)) fun found v hv hmodifier => ?_
  split
  next hfound =>
    have hlt := hmodifier.1 hfound
    refine .bind (.take (h.advance hv.place_le) hv (by omega)) fun word w hw hstep => ?_
    refine .bind (.look (.slice _ _) hw (by omega)) fun text x hx htext => ?_
    refine .again (by omega) hx fun y hy hround => ?_
    exact .bind (modifiers h y hy (by omega)) fun _ z hz hmore => .pure hz (by omega)
  next =>
  refine .bind (.look (h.atWord "fun") hv (by omega)) fun found w hw hfun => ?_
  refine .bind (.look (h.nameAt 1) hw (by omega)) fun next x hx hnext => ?_
  split
  next hfound =>
    have hlt := hfun.1 (Bool.and_eq_true_iff.mp hfound).1
    refine .bind (.take (h.advance hx.place_le) hx (by omega)) fun _ y hy hstep => ?_
    refine .again (by omega) hy fun z hz hround => ?_
    refine (modifiers h z hz (by omega)).mono fun _ a ha => ?_
    omega
  next => exact .pure hx (by omega)
termination_by n - t.place

theorem closeAngles (h : toks.EndsAt n) (opener : TokenSpan) (depth : Nat) (t : Trail) (ht : t.Within n limit)
    (hroom : t.toll n + 7 ≤ limit) :
    Retraces n limit (toks.closeAngles opener depth : Reader source Unit) (WalkedSpans.closeAngles toks opener depth) t fun _ u =>
      t.place ≤ u.place ∧ u.toll n ≤ t.toll n := by
  rw [TokenSpans.closeAngles, WalkedSpans.closeAngles]
  split
  · exact .pure ht (by omega)
  refine .place (.bind (.look (h.tokenAt 0) ht (by omega)) fun token u hu hlook => ?_)
  split
  · exact .refuse _ _ _ hu (by omega)
  next hstop =>
  have hlt : t.place < n := hlook.1.mp (by simp_all)
  refine .bind (.look (.anglesBehind _ _) hu (by omega)) fun depth v hv hdepth => ?_
  refine .bind (skipNext h (by omega) hv (by omega)) fun _ w hw hskip => ?_
  refine .again (by omega) hw fun x hx hround => ?_
  refine (closeAngles h opener depth x hx (by omega)).mono fun _ y hy => ?_
  omega
termination_by n - t.place

theorem typeParameters (h : toks.EndsAt n) (ht : t.Within n limit) (hroom : t.toll n + 9 ≤ limit) :
    Retraces n limit (toks.typeParameters : Reader source (Option String)) (WalkedSpans.typeParameters toks) t fun _ u =>
      t.place ≤ u.place ∧ u.toll n ≤ t.toll n + 3 := by
  refine .bind (.look (h.tokenAt 0) ht (by omega)) fun opener u hu hopener => ?_
  split
  · refine .bind (.take (h.advance hu.place_le) hu (by omega)) fun _ v hv hstep => ?_
    refine .bind (closeAngles h opener 1 v hv (by omega)) fun _ w hw hclose => ?_
    exact .bind (.look (.textFrom toks _) hw (by omega)) fun text x hx htext => .pure hx (by omega)
  · exact .pure hu (by omega)

theorem skipSupertypes (h : toks.EndsAt n) (ht : t.Within n limit) (hroom : t.toll n + 9 ≤ limit) :
    Retraces n limit (toks.skipSupertypes : Reader source Unit) (WalkedSpans.skipSupertypes toks) t fun _ u =>
      t.place ≤ u.place ∧ u.toll n ≤ t.toll n + 4 := by
  refine .bind (.take (h.eat ':' ht.place_le) ht (by omega)) fun found u hu hcolon => ?_
  split
  · refine (skipToDeclaration h true u hu (by omega)).mono fun _ v hv => ?_
    omega
  refine .bind (.look (h.atWord "where") hu (by omega)) fun found v hv hword => ?_
  split
  · refine (skipToDeclaration h true v hv (by omega)).mono fun _ w hw => ?_
    omega
  · exact .pure hv (by omega)

/-! ## Enum entries -/

theorem entryArguments (h : toks.EndsAt n) (ht : t.Within n limit) (hroom : t.toll n + 6 ≤ limit) :
    Retraces n limit (toks.entryArguments : Reader source (Option String)) (WalkedSpans.entryArguments toks) t fun _ u =>
      t.place ≤ u.place ∧ u.toll n ≤ t.toll n + 1 := by
  refine .bind (.look (h.tokenAt 0) ht (by omega)) fun paren u hu hparen => ?_
  split
  · exact .bind (captureBalanced h hu (by omega)) fun _ v hv hcapture => .pure hv (by omega)
  · exact .pure hu (by omega)

theorem skipEntryBody (h : toks.EndsAt n) (ht : t.Within n limit) (hroom : t.toll n + 5 ≤ limit) :
    Retraces n limit (toks.skipEntryBody : Reader source Unit) (WalkedSpans.skipEntryBody toks) t fun _ u =>
      t.place ≤ u.place ∧ u.toll n ≤ t.toll n + 1 := by
  refine .bind (.look (h.tokenAt 0) ht (by omega)) fun brace u hu hbrace => ?_
  split
  · refine (skipBalanced h hu (by omega)).mono fun _ v hv => ?_
    omega
  · exact .pure hu (by omega)

theorem enumEntry (h : toks.EndsAt n) (token : TokenSpan) (ht : t.Within n limit) (hroom : t.toll n + 7 ≤ limit) :
    Retraces n limit (toks.enumEntry token : Reader source EnumEntry) (WalkedSpans.enumEntry toks token) t fun _ u =>
      t.place ≤ u.place ∧ u.toll n ≤ t.toll n + 3 := by
  refine .bind (.look (.slice _ _) ht (by omega)) fun name u hu hname => ?_
  refine .bind (entryArguments h hu (by omega)) fun args v hv hargs => ?_
  exact .bind (skipEntryBody h hv (by omega)) fun _ w hw hbody => .pure hw (by omega)

theorem enumEntries (h : toks.EndsAt n) (t : Trail) (ht : t.Within n limit) (hroom : t.toll n + 13 ≤ limit) :
    Retraces n limit (toks.enumEntries : Reader source (List EnumEntry)) (WalkedSpans.enumEntries toks) t fun _ u =>
      t.place ≤ u.place ∧ u.toll n ≤ t.toll n + 3 := by
  rw [TokenSpans.enumEntries, WalkedSpans.enumEntries]
  refine .place (.bind (annotations h t ht (by omega)) fun _ u hu hannotations => ?_)
  refine .bind (.look (h.tokenAt 0) hu (by omega)) fun token v hv hlook => ?_
  split
  · exact .bind (.take (h.advance hv.place_le) hv (by omega)) fun _ w hw hstep => .pure hw (by omega)
  split
  · exact .pure hv (by omega)
  split
  next hname =>
    have hlt := hlook.1.mp (TokenSpan.isEnd_of_isName hname)
    refine .bind (.take (h.advance hv.place_le) hv (by omega)) fun name w hw hstep => ?_
    refine .bind (enumEntry h name hw (by omega)) fun entry x hx hentry => ?_
    refine .bind (.take (h.eat ',' hx.place_le) hx (by omega)) fun found y hy hcomma => ?_
    split
    · refine .again (by omega) hy fun z hz hround => ?_
      exact .bind (enumEntries h z hz (by omega)) fun _ a ha hmore => .pure ha (by omega)
    · exact .bind (.take (h.eat ';' hy.place_le) hy (by omega)) fun _ z hz hsemicolon => .pure hz (by omega)
  next => exact .refuse _ _ _ hv (by omega)
termination_by n - t.place

theorem entriesOf (h : toks.EndsAt n) (kind : ClassKind) (ht : t.Within n limit) (hroom : t.toll n + 13 ≤ limit) :
    Retraces n limit (toks.entriesOf kind : Reader source (List EnumEntry)) (WalkedSpans.entriesOf toks kind) t fun _ u =>
      t.place ≤ u.place ∧ u.toll n ≤ t.toll n + 3 := by
  rw [TokenSpans.entriesOf, WalkedSpans.entriesOf]
  split
  · exact enumEntries h t ht hroom
  · exact .pure ht (by omega)

/-! ## Classes -/

mutual

/-- Where there is a class, its keyword pays for words that are read in vain; where there is none, few steps are added. -/
theorem classTree (h : toks.EndsAt n) (t : Trail) (ht : t.Within n limit) (hroom : t.toll n + t.ahead n + 14 ≤ limit) :
    Retraces n limit (toks.classTree : Reader source (Option ClassTree)) (WalkedSpans.classTree toks) t fun c u =>
      t.place ≤ u.place ∧ (c = none → u.toll n ≤ t.toll n + 8) ∧
        (c ≠ none → t.place < u.place ∧ u.toll n + u.ahead n + 12 ≤ t.toll n + t.ahead n) := by
  rw [TokenSpans.classTree, WalkedSpans.classTree]
  refine .bind (modifiers h t ht (by omega)) fun words u hu hwords => ?_
  refine .bind (.look (h.classKind words) hu (by omega)) fun kind v hv hkind => ?_
  cases kind with
  | none => exact .pure hv ⟨by omega, fun _ => by omega, fun hne => absurd rfl hne⟩
  | some kind =>
    have hlt := hkind.1 rfl
    refine .bind (.take (h.advance hv.place_le) hv (by omega)) fun keyword w hw hstep => ?_
    refine .bind (.take (h.classNamed kind keyword hw.place_le) hw (by omega)) fun named x hx hnamed => ?_
    cases named with
    | none => exact .pure hx ⟨by omega, fun _ => by omega, fun hne => absurd rfl hne⟩
    | some token =>
      have hpays := Trail.ahead_lt (show v.place < x.place by omega) hx.place_le
      have hahead := Trail.ahead_le (n := n) (show t.place ≤ v.place by omega)
      refine .bind (.look (.slice _ _) hx (by omega)) fun name y hy hname => ?_
      refine .bind (typeParameters h hy (by omega)) fun params z hz hparams => ?_
      have hahead' := Trail.ahead_le (n := n) (show x.place ≤ z.place by omega)
      refine .bind (primaryConstructor h hz (by omega)) fun fields a ha hfields => ?_
      refine .bind (skipSupertypes h ha (by omega)) fun _ b hb hsupertypes => ?_
      have hahead'' := Trail.ahead_le (n := n) hsupertypes.1
      have hend := hb.place_le
      refine .bind (classBody h kind _ b hb (by omega)) fun body c hc hbody => .pure hc ?_
      exact ⟨by omega, fun heq => absurd heq (Option.some_ne_none _), fun _ => by omega⟩
termination_by 2 * (n - t.place)

theorem classBody (h : toks.EndsAt n) (kind : ClassKind) (name : String) (t : Trail) (ht : t.Within n limit)
    (hroom : t.toll n + t.ahead n + 2 ≤ limit) :
    Retraces n limit (toks.classBody kind name : Reader source (List EnumEntry × List ClassTree))
      (WalkedSpans.classBody toks kind name) t fun _ u => t.place ≤ u.place ∧ u.toll n + u.ahead n ≤ t.toll n + t.ahead n + 1 := by
  rw [TokenSpans.classBody, WalkedSpans.classBody]
  refine .bind (.look (h.tokenAt 0) ht (by omega)) fun opener u hu hopener => ?_
  have hahead := Trail.ahead_le (n := n) (Nat.le_of_eq hopener.2.1.symm)
  split
  next hbrace =>
    have hlt := hopener.1.mp (TokenSpan.isEnd_of_isMark hbrace)
    refine .bind (.take (h.advance hu.place_le) hu (by omega)) fun _ v hv hstep => ?_
    refine .bind (entriesOf h kind hv (by omega)) fun entries w hw hentries => ?_
    have hahead' := Trail.ahead_le (n := n) (show t.place ≤ w.place by omega)
    have hend := hw.place_le
    refine .bind (members h w hw (by omega)) fun nested x hx hmembers => ?_
    refine .bind (.take (h.eat '\x7d' hx.place_le) hx (by omega)) fun found y hy hclose => ?_
    have hahead'' := Trail.ahead_le (n := n) hclose.2.1
    split
    · exact .pure hy (by omega)
    · exact .refuse _ _ _ hy (by omega)
  next => exact .pure hu (by omega)
termination_by 2 * (n - t.place)

/-- A member that is no class is read again from where it starts, and a token of it is taken. -/
theorem members (h : toks.EndsAt n) (t : Trail) (ht : t.Within n limit) (hroom : t.toll n + t.ahead n + 15 ≤ limit) :
    Retraces n limit (toks.members : Reader source (List ClassTree)) (WalkedSpans.members toks) t fun _ u =>
      t.place ≤ u.place ∧ u.toll n + u.ahead n ≤ t.toll n + t.ahead n + 1 := by
  rw [TokenSpans.members, WalkedSpans.members]
  refine .place (.bind (.look (h.tokenAt 0) ht (by omega)) fun token u hu hlook => ?_)
  have hahead := Trail.ahead_le (n := n) (Nat.le_of_eq hlook.2.1.symm)
  split
  · exact .pure hu (by omega)
  next hstop =>
  have hlt : t.place < n := hlook.1.mp (by simp_all)
  split
  · refine .bind (.take (h.advance hu.place_le) hu (by omega)) fun _ v hv hstep => ?_
    have hpays := Trail.ahead_lt (show t.place < v.place by omega) hv.place_le
    refine .again (by omega) hv fun w hw hround => ?_
    refine (members h w hw (by omega)).mono fun _ x hx => ?_
    omega
  refine .getPlace (.bind (classTree h u hu (by omega)) fun found v hv hclass => ?_)
  cases found with
  | some c =>
    have hclass := hclass.2.2 (Option.some_ne_none c)
    refine .again (by omega) hv fun w hw hround => ?_
    exact .bind (members h w hw (by omega)) fun _ x hx hmore => .pure hx (by omega)
  | none =>
    have hclass := hclass.2.1 rfl
    have hend := hv.place_le
    have hleft := t.le_ahead n
    rw [hlook.2.1]
    refine .bind (.back (by omega) hv (by omega)) fun _ w hw hback => ?_
    refine .bind (skipMember h (by omega) hw (by omega)) fun _ x hx hskip => ?_
    have hpays := Trail.ahead_lt (show t.place < x.place by omega) hx.place_le
    refine .again (by omega) hx fun y hy hround => ?_
    refine (members h y hy (by omega)).mono fun _ z hz => ?_
    omega
termination_by 2 * (n - t.place) + 1

end

end Retraces

end Counterpart.Kotlin
