/-
Reading types with a trail. Each round of a loop takes a token, so a reader of groups, names, annotations, directives or types is
charged no more than 32 steps for each token that it takes.
-/
import Counterpart.Proofs.Trails

namespace Counterpart.Kotlin

open Text

namespace WalkedSpans

open Walk Reader

variable {source : String} (toks : WalkedSpans)

/-! ## Groups and names -/

def closeAll (toks : WalkedSpans) : (opened : List TokenSpan) → Walk source Unit
  | [] => return ()
  | top :: up => do
    let start ← place
    let t ← step toks.advance
    if t.opens then do
      again start
      toks |>.closeAll (t :: top :: up)
    else
      match t.closing? with
      | some c =>
        if c = top.closer then do
          again start
          toks |>.closeAll up
        else step (refuse (.mismatched c top.closer) t.start t.stop)
      | none =>
        if t.isEnd then do
          let text ← step (textOf top)
          step (refuse (.unclosed text) top.start top.stop)
        else do
          again start
          toks |>.closeAll (top :: up)
partial_fixpoint

def skipBalanced : Walk source Unit := do
  let opener ← step toks.advance
  toks.closeAll [opener]

def captureBalanced : Walk source String := do
  let start := (← step (toks.tokenAt 0)).start
  toks.skipBalanced
  step (toks.textFrom start)

def skipNext : Walk source Unit := do
  let t ← step (toks.tokenAt 0)
  if t.opens then toks.skipBalanced
  else if t.isMark ')' then step (refuse (.unexpected ')') t.start t.stop)
  else if t.isMark ']' then step (refuse (.unexpected ']') t.start t.stop)
  else do
    let _ ← step toks.advance
    return ()

def moreNames (toks : WalkedSpans) (name : String) : Walk source String := do
  let start ← place
  if (← step (toks.tokenAt 0)).isMark '.' && (← step (toks.tokenAt 1)).isName then do
    let _ ← step toks.advance
    let segment ← step toks.advance
    let text ← step (textOf segment)
    again start
    toks |>.moreNames (name ++ "." ++ text)
  else return name
partial_fixpoint

def dotted (role : NameRole) : Walk source String := do
  toks.moreNames (← step (toks.expectName role))

/-! ## Annotations -/

def annotated : Walk source (Option String) := do
  if (← step (toks.tokenAt 0)).isMark '[' then do
    toks.skipBalanced
    return none
  else do
    let name ← toks.dotted .annotationName
    let paren ← step (toks.tokenAt 0)
    if paren.isMark '(' && paren.start == (← step toks.endBefore) then do
      toks.skipBalanced
      return some (Name.shortName name)
    else return some (Name.shortName name)

def annotationName : Walk source (Option String) := do
  let _ ← step toks.advance
  if (← step (toks.tokenAt 0)).isMark '[' then toks.annotated
  else do
    step toks.skipUseSite
    toks.annotated

def annotations (toks : WalkedSpans) : Walk source Unit := do
  let start ← place
  if (← step (toks.tokenAt 0)).isMark '@' then do
    let _ ← toks.annotationName
    again start
    toks |>.annotations
  else return ()
partial_fixpoint

/-! ## Directives -/

def package : Walk source String := do
  if ← step (toks.eatWord "package") then do
    let name ← toks.dotted .package
    let _ ← step (toks.eat ';')
    return name
  else return ""

def imported : Walk source Import := do
  let path ← toks.dotted .importPath
  if (← step (toks.tokenAt 0)).isMark '.' && (← step (toks.tokenAt 1)).isMark '*' then do
    let _ ← step toks.advance
    let _ ← step toks.advance
    return .everything path
  else if ← step (toks.eatWord "as") then return ⟨path, some (← step (toks.expectName .importAlias)), false⟩
  else return .symbol path

def imports (toks : WalkedSpans) : Walk source (List Import) := do
  let start ← place
  if ← step (toks.eatWord "import") then do
    let i ← toks.imported
    let _ ← step (toks.eat ';')
    again start
    return i :: (← toks |>.imports)
  else return []
partial_fixpoint

/-! ## Types -/

mutual

def typeRef (toks : WalkedSpans) : Walk source TypeRef := do
  toks.annotations
  let start := (← step (toks.tokenAt 0)).start
  let _ ← step (toks.eatWord "suspend")
  if (← step (toks.tokenAt 0)).isMark '(' then do
    toks.skipBalanced
    toks |>.resultType
    let nullable ← step (toks.eat '?')
    return .function nullable (oneLine (← step (toks.textFrom start)))
  else do
    let name ← toks.dotted .type
    let args ← toks |>.typeArgs
    if (← step (toks.tokenAt 0)).isMark '.' && (← step (toks.tokenAt 1)).isMark '(' then do
      let _ ← step toks.advance
      toks.skipBalanced
      toks |>.resultType
      return .function false (oneLine (← step (toks.textFrom start)))
    else do
      let nullable ← step (toks.eat '?')
      toks |>.otherBound
      return .named name args nullable (oneLine (← step (toks.textFrom start)))
partial_fixpoint

def resultType (toks : WalkedSpans) : Walk source Unit := do
  if (← step (toks.tokenAt 0)).kind? == some .arrow then do
    let _ ← step toks.advance
    let _ ← toks |>.typeRef
    return ()
  else return ()
partial_fixpoint

def otherBound (toks : WalkedSpans) : Walk source Unit := do
  if ← step (toks.eat '&') then do
    let _ ← toks |>.typeRef
    return ()
  else return ()
partial_fixpoint

def typeArgs (toks : WalkedSpans) : Walk source (List (TypeArg TypeRef)) := do
  if (← step (toks.tokenAt 0)).isMark '<' then do
    let _ ← step toks.advance
    toks |>.typeArgList
  else return []
partial_fixpoint

def typeArgList (toks : WalkedSpans) : Walk source (List (TypeArg TypeRef)) := do
  let start ← place
  let arg ← toks |>.typeArg
  if ← step (toks.eat ',') then do
    again start
    return arg :: (← toks |>.typeArgList)
  else do
    step (toks.expect .typeArgumentsEnd)
    return [arg]
partial_fixpoint

def typeArg (toks : WalkedSpans) : Walk source (TypeArg TypeRef) := do
  if ← step (toks.eat '*') then return .star
  else do
    let variance ← step toks.variance
    return .type variance (← toks |>.typeRef)
partial_fixpoint

end

end WalkedSpans

namespace Retraces

variable {n limit : Nat} {source : String} {toks : TokenSpans} {t : Trail}

/-! ## Groups and names -/

theorem closeAll (h : toks.EndsAt n) (opened : List TokenSpan) (t : Trail) (ht : t.Within n limit) (hroom : t.toll n + 3 ≤ limit) :
    Retraces n limit (toks.closeAll opened : Reader source Unit) (WalkedSpans.closeAll toks opened) t fun _ u =>
      t.place ≤ u.place ∧ u.toll n ≤ t.toll n ∧ (opened ≠ [] → t.place < u.place ∧ u.toll n + 31 ≤ t.toll n) := by
  cases opened with
  | nil =>
    rw [TokenSpans.closeAll, WalkedSpans.closeAll]
    exact .pure ht ⟨Nat.le_refl _, Nat.le_refl _, fun hne => absurd rfl hne⟩
  | cons top up =>
    rw [TokenSpans.closeAll, WalkedSpans.closeAll]
    refine .place (.bind (.take (h.advance ht.place_le) ht (by omega)) fun token u hu hstep => ?_)
    obtain ⟨⟨hlt, htoken⟩, hle, htoll⟩ := hstep
    have hnext : token.isEnd = false → ∀ opened, Retraces n limit (toks.closeAll opened : Reader source Unit)
        (Walk.again t.place >>= fun _ => WalkedSpans.closeAll toks opened) u fun _ v =>
          t.place ≤ v.place ∧ v.toll n ≤ t.toll n ∧ (top :: up ≠ [] → t.place < v.place ∧ v.toll n + 31 ≤ t.toll n) := by
      intro hend opened
      have hlt := hlt (htoken hend)
      refine .again hlt hu fun v hv hround => ?_
      refine (closeAll h opened v hv (by omega)).mono fun _ w hw => ?_
      omega
    split
    next hopens => exact hnext (TokenSpan.isEnd_of_opens hopens) _
    cases hclosing : token.closing? with
    | some c =>
      dsimp only
      split
      · exact hnext (TokenSpan.isEnd_of_closing? hclosing) _
      · exact .refuse _ _ _ hu (by omega)
    | none =>
      dsimp only
      split
      · exact .bind (.look (.slice _ _) hu (by omega)) fun text v hv hlook => .refuse _ _ _ hv (by omega)
      next hend => exact hnext (Bool.of_not_eq_true hend) _
termination_by n - t.place

theorem skipBalanced (h : toks.EndsAt n) (ht : t.Within n limit) (hroom : t.toll n + 4 ≤ limit) :
    Retraces n limit (toks.skipBalanced : Reader source Unit) (WalkedSpans.skipBalanced toks) t fun _ u =>
      t.place < u.place ∧ u.toll n + 30 ≤ t.toll n := by
  refine .bind (.take (h.advance ht.place_le) ht (by omega)) fun opener u hu hstep => ?_
  refine (closeAll h [opener] u hu (by omega)).mono fun _ v hclose => ?_
  have hclose := hclose.2.2 (List.cons_ne_nil _ _)
  omega

theorem captureBalanced (h : toks.EndsAt n) (ht : t.Within n limit) (hroom : t.toll n + 5 ≤ limit) :
    Retraces n limit (toks.captureBalanced : Reader source String) (WalkedSpans.captureBalanced toks) t fun _ u =>
      t.place < u.place ∧ u.toll n + 28 ≤ t.toll n := by
  refine .bind (.look (h.tokenAt 0) ht (by omega)) fun opener u hu hlook => ?_
  refine .bind (skipBalanced h hu (by omega)) fun _ v hv hskip => ?_
  refine (look (.textFrom toks opener.start) hv (by omega)).mono fun _ w htext => ?_
  omega

/-- Short of the end, a token or a group is taken. -/
theorem skipNext (h : toks.EndsAt n) (hlt : t.place < n) (ht : t.Within n limit) (hroom : t.toll n + 5 ≤ limit) :
    Retraces n limit (toks.skipNext : Reader source Unit) (WalkedSpans.skipNext toks) t fun _ u =>
      t.place < u.place ∧ u.toll n + 29 ≤ t.toll n := by
  refine .bind (.look (h.tokenAt 0) ht (by omega)) fun token u hu hlook => ?_
  split_ifs
  · refine (skipBalanced h hu (by omega)).mono fun _ v hskip => ?_
    omega
  · exact .refuse _ _ _ hu (by omega)
  · exact .refuse _ _ _ hu (by omega)
  · refine .bind (.take (h.advance hu.place_le) hu (by omega)) fun _ v hv hstep => .pure hv ?_
    omega

theorem moreNames (h : toks.EndsAt n) (name : String) (t : Trail) (ht : t.Within n limit) (hroom : t.toll n + 4 ≤ limit) :
    Retraces n limit (toks.moreNames name : Reader source String) (WalkedSpans.moreNames toks name) t fun _ u =>
      t.place ≤ u.place ∧ u.toll n ≤ t.toll n + 2 := by
  rw [TokenSpans.moreNames, WalkedSpans.moreNames]
  refine .place (.bind (.look (h.tokenAt 0) ht (by omega)) fun dot u hu hdot => ?_)
  refine .bind (.look (h.tokenAt 1) hu (by omega)) fun next v hv hnext => ?_
  split
  next hmore =>
    have hlt := hdot.1.mp (TokenSpan.isEnd_of_isMark (Bool.and_eq_true_iff.mp hmore).1)
    refine .bind (.take (h.advance hv.place_le) hv (by omega)) fun _ w hw hstep => ?_
    refine .bind (.take (h.advance hw.place_le) hw (by omega)) fun segment x hx hstep' => ?_
    refine .bind (.look (.slice _ _) hx (by omega)) fun text y hy htext => ?_
    refine .again (by omega) hy fun z hz hround => ?_
    refine (moreNames h _ z hz (by omega)).mono fun _ r hr => ?_
    omega
  next => exact .pure hv (by omega)
termination_by n - t.place

theorem dotted (h : toks.EndsAt n) (role : NameRole) (ht : t.Within n limit) (hroom : t.toll n + 2 ≤ limit) :
    Retraces n limit (toks.dotted role : Reader source String) (WalkedSpans.dotted toks role) t fun _ u =>
      t.place < u.place ∧ u.toll n + 29 ≤ t.toll n := by
  refine .bind (.take (h.expectName role ht.place_le) ht (by omega)) fun name u hu hname => ?_
  refine (moreNames h name u hu (by omega)).mono fun _ v hv => ?_
  omega

/-! ## Annotations -/

theorem annotated (h : toks.EndsAt n) (ht : t.Within n limit) (hroom : t.toll n + 8 ≤ limit) :
    Retraces n limit (toks.annotated : Reader source (Option String)) (WalkedSpans.annotated toks) t fun _ u =>
      t.place < u.place ∧ u.toll n + 26 ≤ t.toll n := by
  refine .bind (.look (h.tokenAt 0) ht (by omega)) fun bracket u hu hbracket => ?_
  split
  · exact .bind (skipBalanced h hu (by omega)) fun _ v hv hskip => .pure hv (by omega)
  refine .bind (dotted h .annotationName hu (by omega)) fun name v hv hname => ?_
  refine .bind (.look (h.tokenAt 0) hv (by omega)) fun paren w hw hparen => ?_
  refine .bind (.look (.endBefore toks) hw (by omega)) fun stop x hx hstop => ?_
  split
  · exact .bind (skipBalanced h hx (by omega)) fun _ y hy hskip => .pure hy (by omega)
  · exact .pure hx (by omega)

theorem annotationName (h : toks.EndsAt n) (ht : t.Within n limit) (hroom : t.toll n + 12 ≤ limit) :
    Retraces n limit (toks.annotationName : Reader source (Option String)) (WalkedSpans.annotationName toks) t fun _ u =>
      t.place < u.place ∧ u.toll n + 23 ≤ t.toll n := by
  refine .bind (.take (h.advance ht.place_le) ht (by omega)) fun _ u hu hstep => ?_
  refine .bind (.look (h.tokenAt 0) hu (by omega)) fun bracket v hv hbracket => ?_
  split
  · refine (annotated h hv (by omega)).mono fun _ w hw => ?_
    omega
  refine .bind (.take (h.skipUseSite hv.place_le) hv (by omega)) fun _ w hw htarget => ?_
  refine (annotated h hw (by omega)).mono fun _ x hx => ?_
  omega

theorem annotations (h : toks.EndsAt n) (t : Trail) (ht : t.Within n limit) (hroom : t.toll n + 13 ≤ limit) :
    Retraces n limit (toks.annotations : Reader source Unit) (WalkedSpans.annotations toks) t fun _ u =>
      t.place ≤ u.place ∧ u.toll n ≤ t.toll n + 1 := by
  rw [TokenSpans.annotations, WalkedSpans.annotations]
  refine .place (.bind (.look (h.tokenAt 0) ht (by omega)) fun mark u hu hmark => ?_)
  split
  · refine .bind (annotationName h hu (by omega)) fun _ v hv hname => ?_
    refine .again (by omega) hv fun w hw hround => ?_
    refine (annotations h w hw (by omega)).mono fun _ x hx => ?_
    omega
  · exact .pure hu (by omega)
termination_by n - t.place

/-! ## Directives -/

theorem package (h : toks.EndsAt n) (ht : t.Within n limit) (hroom : t.toll n + 3 ≤ limit) :
    Retraces n limit (toks.package : Reader source String) (WalkedSpans.package toks) t fun _ u =>
      t.place ≤ u.place ∧ u.toll n ≤ t.toll n + 1 := by
  refine .bind (.take (h.eatWord "package" ht.place_le) ht (by omega)) fun found u hu hword => ?_
  split
  · refine .bind (dotted h .package hu (by omega)) fun name v hv hname => ?_
    exact .bind (.take (h.eat ';' hv.place_le) hv (by omega)) fun _ w hw hmark => .pure hw (by omega)
  · exact .pure hu (by omega)

theorem imported (h : toks.EndsAt n) (ht : t.Within n limit) (hroom : t.toll n + 2 ≤ limit) :
    Retraces n limit (toks.imported : Reader source Import) (WalkedSpans.imported toks) t fun _ u =>
      t.place < u.place ∧ u.toll n + 25 ≤ t.toll n := by
  refine .bind (dotted h .importPath ht (by omega)) fun path u hu hpath => ?_
  refine .bind (.look (h.tokenAt 0) hu (by omega)) fun dot v hv hdot => ?_
  refine .bind (.look (h.tokenAt 1) hv (by omega)) fun star w hw hstar => ?_
  split
  · refine .bind (.take (h.advance hw.place_le) hw (by omega)) fun _ x hx hstep => ?_
    exact .bind (.take (h.advance hx.place_le) hx (by omega)) fun _ y hy hstep' => .pure hy (by omega)
  refine .bind (.take (h.eatWord "as" hw.place_le) hw (by omega)) fun found x hx hword => ?_
  split
  · exact .bind (.take (h.expectName .importAlias hx.place_le) hx (by omega)) fun _ y hy hname => .pure hy (by omega)
  · exact .pure hx (by omega)

theorem imports (h : toks.EndsAt n) (t : Trail) (ht : t.Within n limit) (hroom : t.toll n + 3 ≤ limit) :
    Retraces n limit (toks.imports : Reader source (List Import)) (WalkedSpans.imports toks) t fun _ u =>
      t.place ≤ u.place ∧ u.toll n ≤ t.toll n + 1 := by
  rw [TokenSpans.imports, WalkedSpans.imports]
  refine .place (.bind (.take (h.eatWord "import" ht.place_le) ht (by omega)) fun found u hu hword => ?_)
  split
  · refine .bind (imported h hu (by omega)) fun i v hv himported => ?_
    refine .bind (.take (h.eat ';' hv.place_le) hv (by omega)) fun _ w hw hmark => ?_
    refine .again (by omega) hw fun x hx hround => ?_
    exact .bind (imports h x hx (by omega)) fun _ y hy hmore => .pure hy (by omega)
  · exact .pure hu (by omega)
termination_by n - t.place

/-! ## Types -/

mutual

theorem typeRef (h : toks.EndsAt n) (t : Trail) (ht : t.Within n limit) (hroom : t.toll n + 16 ≤ limit) :
    Retraces n limit (toks.typeRef : Reader source TypeRef) (WalkedSpans.typeRef toks) t fun _ u =>
      t.place < u.place ∧ u.toll n + 19 ≤ t.toll n := by
  rw [TokenSpans.typeRef, WalkedSpans.typeRef]
  refine .bind (annotations h t ht (by omega)) fun _ u hu hannotations => ?_
  refine .bind (.look (h.tokenAt 0) hu (by omega)) fun start v hv hstart => ?_
  refine .bind (.take (h.eatWord "suspend" hv.place_le) hv (by omega)) fun _ w hw hsuspend => ?_
  refine .bind (.look (h.tokenAt 0) hw (by omega)) fun paren x hx hparen => ?_
  have hend := hx.place_le
  split
  · refine .bind (skipBalanced h hx (by omega)) fun _ y hy hskip => ?_
    have hend := hy.place_le
    refine .bind (resultType h y hy (by omega)) fun _ z hz hresult => ?_
    refine .bind (.take (h.eat '?' hz.place_le) hz (by omega)) fun nullable a ha hmark => ?_
    exact .bind (.look (.textFrom toks _) ha (by omega)) fun text b hb htext => .pure hb (by omega)
  refine .bind (dotted h .type hx (by omega)) fun name y hy hname => ?_
  have hend := hy.place_le
  refine .bind (typeArgs h y hy (by omega)) fun args z hz hargs => ?_
  refine .bind (.look (h.tokenAt 0) hz (by omega)) fun dot a ha hdot => ?_
  refine .bind (.look (h.tokenAt 1) ha (by omega)) fun paren b hb hparen => ?_
  split
  · refine .bind (.take (h.advance hb.place_le) hb (by omega)) fun _ c hc hstep => ?_
    refine .bind (skipBalanced h hc (by omega)) fun _ d hd hskip => ?_
    have hend := hd.place_le
    refine .bind (resultType h d hd (by omega)) fun _ e he hresult => ?_
    exact .bind (.look (.textFrom toks _) he (by omega)) fun text f hf htext => .pure hf (by omega)
  refine .bind (.take (h.eat '?' hb.place_le) hb (by omega)) fun nullable c hc hmark => ?_
  have hend := hc.place_le
  refine .bind (otherBound h c hc (by omega)) fun _ d hd hbound => ?_
  exact .bind (.look (.textFrom toks _) hd (by omega)) fun text e he htext => .pure he (by omega)
termination_by 3 * (n - t.place)

theorem resultType (h : toks.EndsAt n) (t : Trail) (ht : t.Within n limit) (hroom : t.toll n + 2 ≤ limit) :
    Retraces n limit (toks.resultType : Reader source Unit) (WalkedSpans.resultType toks) t fun _ u =>
      t.place ≤ u.place ∧ u.toll n ≤ t.toll n + 1 := by
  rw [TokenSpans.resultType, WalkedSpans.resultType]
  refine .bind (.look (h.tokenAt 0) ht (by omega)) fun arrow u hu harrow => ?_
  split
  next hkind =>
    have hlt := harrow.1.mp (by rw [TokenSpan.isEnd, eq_of_beq hkind]; rfl)
    refine .bind (.take (h.advance hu.place_le) hu (by omega)) fun _ v hv hstep => ?_
    have hend := hv.place_le
    exact .bind (typeRef h v hv (by omega)) fun _ w hw hty => .pure hw (by omega)
  next => exact .pure hu (by omega)
termination_by 3 * (n - t.place)

theorem otherBound (h : toks.EndsAt n) (t : Trail) (ht : t.Within n limit) (hroom : t.toll n + 2 ≤ limit) :
    Retraces n limit (toks.otherBound : Reader source Unit) (WalkedSpans.otherBound toks) t fun _ u =>
      t.place ≤ u.place ∧ u.toll n ≤ t.toll n + 1 := by
  rw [TokenSpans.otherBound, WalkedSpans.otherBound]
  refine .bind (.take (h.eat '&' ht.place_le) ht (by omega)) fun found u hu hmark => ?_
  split
  next hfound =>
    have hlt := hmark.1 hfound
    have hend := hu.place_le
    exact .bind (typeRef h u hu (by omega)) fun _ v hv hty => .pure hv (by omega)
  next => exact .pure hu (by omega)
termination_by 3 * (n - t.place)

theorem typeArgs (h : toks.EndsAt n) (t : Trail) (ht : t.Within n limit) (hroom : t.toll n + 2 ≤ limit) :
    Retraces n limit (toks.typeArgs : Reader source (List (TypeArg TypeRef))) (WalkedSpans.typeArgs toks) t fun _ u =>
      t.place ≤ u.place ∧ u.toll n ≤ t.toll n + 1 := by
  rw [TokenSpans.typeArgs, WalkedSpans.typeArgs]
  refine .bind (.look (h.tokenAt 0) ht (by omega)) fun opener u hu hopener => ?_
  split
  next hmark =>
    have hlt := hopener.1.mp (TokenSpan.isEnd_of_isMark hmark)
    refine .bind (.take (h.advance hu.place_le) hu (by omega)) fun _ v hv hstep => ?_
    have hend := hv.place_le
    refine (typeArgList h v hv (by omega)).mono fun _ w hw => ?_
    omega
  next => exact .pure hu (by omega)
termination_by 3 * (n - t.place)

theorem typeArgList (h : toks.EndsAt n) (t : Trail) (ht : t.Within n limit) (hroom : t.toll n + 18 ≤ limit) :
    Retraces n limit (toks.typeArgList : Reader source (List (TypeArg TypeRef))) (WalkedSpans.typeArgList toks) t fun _ u =>
      t.place < u.place ∧ u.toll n + 17 ≤ t.toll n := by
  rw [TokenSpans.typeArgList, WalkedSpans.typeArgList]
  refine .place (.bind (typeArg h t ht (by omega)) fun arg u hu harg => ?_)
  refine .bind (.take (h.eat ',' hu.place_le) hu (by omega)) fun found v hv hmark => ?_
  split
  next =>
    refine .again (by omega) hv fun w hw hround => ?_
    exact .bind (typeArgList h w hw (by omega)) fun _ x hx hmore => .pure hx (by omega)
  next => exact .bind (.take (h.expect .typeArgumentsEnd hv.place_le) hv (by omega)) fun _ w hw hangle => .pure hw (by omega)
termination_by 3 * (n - t.place) + 2

theorem typeArg (h : toks.EndsAt n) (t : Trail) (ht : t.Within n limit) (hroom : t.toll n + 18 ≤ limit) :
    Retraces n limit (toks.typeArg : Reader source (TypeArg TypeRef)) (WalkedSpans.typeArg toks) t fun _ u =>
      t.place < u.place ∧ u.toll n + 17 ≤ t.toll n := by
  rw [TokenSpans.typeArg, WalkedSpans.typeArg]
  refine .bind (.take (h.eat '*' ht.place_le) ht (by omega)) fun found u hu hmark => ?_
  split
  next hfound =>
    have hlt := hmark.1 hfound
    exact .pure hu (by omega)
  next =>
    refine .bind (.take (h.variance hu.place_le) hu (by omega)) fun variance v hv hvariance => ?_
    have hend := hv.place_le
    exact .bind (typeRef h v hv (by omega)) fun ty w hw hty => .pure hw (by omega)
termination_by 3 * (n - t.place) + 1

end

end Retraces

end Counterpart.Kotlin
