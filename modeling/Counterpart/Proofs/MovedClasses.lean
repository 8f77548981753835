/-
Classes that stand elsewhere. What a source declares is the same further on, but for the offsets of the classes
(`members_placed`). Behind the keyword of a class its kind is all that counts of the words before (`classTree_of_modifiers`).
-/
import Counterpart.Proofs.MovedTokens

namespace Counterpart.Kotlin

variable {k : Nat} {behind : List Token}

/-! ## Parameters -/

theorem takePropertyKeyword_placed (hstop : Stops behind) (ts : List Token) :
    Carried k behind id (takePropertyKeyword ts) (takePropertyKeyword (placed k behind ts)) := by
  cases ts with
  | nil =>
    cases behind with
    | nil => exact .mk none []
    | cons t behind =>
      simp only [placed_nil, takePropertyKeyword, hstop.isWord_eq_false]
      exact .mk none []
  | cons t ts =>
    simp only [placed_cons, takePropertyKeyword, Token.isWord_moved]
    split
    next => exact .mk (some false) ts
    next =>
      split
      next => exact .mk (some true) ts
      next => exact .mk none (t :: ts)

theorem expectMark_placed (role : MarkRole) (ts : List Token) :
    Repeats k behind id (expectMark role ts) (expectMark role (placed k behind ts)) := by
  cases ts with
  | nil => exact .error _
  | cons t ts =>
    simp only [placed_cons, expectMark, Token.isMark_moved]
    split
    next => exact .done rfl
    next => exact .error _

theorem parameterMarks_of_stops {ts : List Token} (hstop : Stops ts) (m : ParameterMarks) :
    parameterMarks m ts = .ok (.keep m ts) := by
  cases ts with
  | nil =>
    rw [parameterMarks]
    rfl
  | cons t ts =>
    rw [parameterMarks, if_neg (by simp [hstop.isMark_eq_false]), if_neg (by simp [isModifier, hstop.isName_eq_false])]
    rfl

theorem parameterMarks_placed (hstop : Stops behind) (m : ParameterMarks) (ts : List Token) :
    Repeats k behind id (parameterMarks m ts) (parameterMarks m (placed k behind ts)) := by
  cases ts with
  | nil => exact .nothing (parameterMarks_of_stops .nil m) (parameterMarks_of_stops hstop m)
  | cons t ts =>
    rw [placed_cons, parameterMarks, parameterMarks]
    simp only [Token.isMark_moved, isModifier_placed hstop, Token.text_moved]
    split
    next =>
      refine (annotationUse_placed hstop ts).bind fun name? us hlt _ => ?_
      exact (parameterMarks_placed hstop _ us).bind fun _ _ _ _ => .done rfl
    next =>
      split
      next => exact (parameterMarks_placed hstop _ ts).bind fun _ _ _ _ => .done rfl
      next => exact .done (l := t :: ts) rfl
termination_by ts.length

theorem closesTypeArgs_placed (angles parens : Nat) (ts : List Token) :
    closesTypeArgs angles parens (placed k [] ts) = closesTypeArgs angles parens ts := by
  fun_induction closesTypeArgs angles parens ts <;> simp_all [closesTypeArgs]

theorem skipDefault_placed (afterName : Bool) (angles : Nat) (ts : List Token) :
    Repeats k [] id (skipDefault afterName angles ts) (skipDefault afterName angles (placed k [] ts)) := by
  cases ts with
  | nil =>
    rw [placed_nil, skipDefault]
    exact .done (l := []) rfl
  | cons t ts =>
    have hcloses := closesTypeArgs_placed (k := k) 0 0 (t :: ts)
    rw [placed_cons] at hcloses
    rw [placed_cons, skipDefault, skipDefault]
    simp only [Token.isMark_moved, Token.isName_moved, hcloses]
    split
    next => exact .done (l := t :: ts) rfl
    next =>
      split
      next => exact (skipDefault_placed false _ ts).bind fun _ _ _ _ => .done rfl
      next =>
        split
        next => exact (skipDefault_placed false _ ts).bind fun _ _ _ _ => .done rfl
        next =>
          refine (skipOne_placed t ts).bind fun _ us hlt _ => ?_
          exact (skipDefault_placed _ _ us).bind fun _ _ _ _ => .done rfl
termination_by ts.length

theorem parameter_placed (ts : List Token) : Repeats k [] id (parameter ts) (parameter (placed k [] ts)) := by
  rw [parameter, parameter]
  refine (parameterMarks_placed .nil _ ts).bind fun marks ts₁ _ _ => ?_
  have hproperty := takePropertyKeyword_placed (k := k) .nil ts₁
  dsimp only
  generalize takePropertyKeyword ts₁ = p, takePropertyKeyword (placed k [] ts₁) = q at hproperty
  obtain ⟨property, ts₂⟩ := hproperty
  refine (simpleName_placed .parameter ts₂).bind fun name ts₃ _ _ => ?_
  refine (expectMark_placed .parameterType ts₃).bind fun _ ts₄ _ _ => ?_
  refine (typeRef_placed .nil ts₄).bind fun ty ts₅ _ _ => ?_
  have hdefault := takeMark_placed (k := k) (show atMark '=' [] = false from rfl) ts₅
  dsimp only
  generalize takeMark '=' ts₅ = p, takeMark '=' (placed k [] ts₅) = q at hdefault
  obtain ⟨hasDefault, ts₆⟩ := hdefault
  cases hasDefault with
  | true => exact (skipDefault_placed false 0 ts₆).bind fun _ _ _ _ => .done rfl
  | false => exact .done rfl

theorem parameters_placed (ts : List Token) : Repeats k [] id (parameters ts) (parameters (placed k [] ts)) := by
  have hclose := takeMark_placed (k := k) (show atMark ')' [] = false from rfl) ts
  rw [parameters, parameters]
  generalize takeMark ')' ts = p, takeMark ')' (placed k [] ts) = q at hclose
  obtain ⟨closed, us⟩ := hclose
  cases closed with
  | true => exact .done rfl
  | false =>
    refine (parameter_placed ts).bind fun field ts₁ hlt _ => ?_
    have hcomma := takeMark_placed (k := k) (show atMark ',' [] = false from rfl) ts₁
    dsimp only
    generalize takeMark ',' ts₁ = p, takeMark ',' (placed k [] ts₁) = q at hcomma
    obtain @⟨more, ts₂, h₂, _⟩ := hcomma
    cases more with
    | true => exact (parameters_placed ts₂).bind fun _ _ _ _ => .done rfl
    | false => exact (expectMark_placed .parametersEnd ts₁).bind fun _ _ _ _ => .done rfl
termination_by ts.length

theorem skipConstructorWords_placed (ts : List Token) :
    Repeats k [] id (skipConstructorWords ts) (skipConstructorWords (placed k [] ts)) := by
  cases ts with
  | nil =>
    rw [placed_nil, skipConstructorWords]
    exact .done (l := []) rfl
  | cons t ts =>
    rw [placed_cons, skipConstructorWords, skipConstructorWords]
    simp only [Token.isMark_moved, Token.isName_moved, Token.text_moved]
    split
    next =>
      refine (annotationUse_placed .nil ts).bind fun _ us hlt _ => ?_
      exact (skipConstructorWords_placed us).bind fun _ _ _ _ => .done rfl
    next =>
      split
      next => exact (skipConstructorWords_placed ts).bind fun _ _ _ _ => .done rfl
      next => exact .done (l := t :: ts) rfl
termination_by ts.length

theorem primaryConstructor_placed (ts : List Token) :
    Repeats k [] id (primaryConstructor ts) (primaryConstructor (placed k [] ts)) := by
  rw [primaryConstructor, primaryConstructor]
  refine (skipConstructorWords_placed ts).bind fun _ ts₁ _ _ => ?_
  have hopen := takeMark_placed (k := k) (show atMark '(' [] = false from rfl) ts₁
  dsimp only
  generalize takeMark '(' ts₁ = p, takeMark '(' (placed k [] ts₁) = q at hopen
  obtain ⟨opened, ts₂⟩ := hopen
  cases opened with
  | true => exact (parameters_placed ts₂).bind fun _ _ _ _ => .done rfl
  | false => exact .done (l := ts) rfl

/-! ## Skipping members -/

theorem startsDeclaration_placed (afterColon : Bool) (t : Token) (ts : List Token) :
    startsDeclaration afterColon (t.moved k) (placed k [] ts) = startsDeclaration afterColon t ts := by
  rw [startsDeclaration, startsDeclaration, Token.isName_moved, Token.text_moved, isModifier_placed .nil]

theorem skipToDeclaration_placed (stopAtBrace afterColon : Bool) (ts : List Token) :
    Repeats k [] id (skipToDeclaration stopAtBrace afterColon ts)
      (skipToDeclaration stopAtBrace afterColon (placed k [] ts)) := by
  cases ts with
  | nil =>
    rw [placed_nil, skipToDeclaration]
    exact .done (l := []) rfl
  | cons t ts =>
    rw [placed_cons, skipToDeclaration, skipToDeclaration]
    simp only [Token.isMark_moved, startsDeclaration_placed]
    split
    next => exact .done (l := t :: ts) rfl
    next =>
      refine (skipOne_placed t ts).bind fun _ us hlt _ => ?_
      exact (skipToDeclaration_placed stopAtBrace _ us).bind fun _ _ _ _ => .done rfl
termination_by ts.length

theorem skipMember_placed (t : Token) (ts : List Token) :
    Repeats k [] id (skipMember t ts) (skipMember (t.moved k) (placed k [] ts)) := by
  rw [skipMember, skipMember]
  simp only [Token.isMark_moved]
  refine (skipOne_placed t ts).bind fun _ us _ _ => ?_
  exact (skipToDeclaration_placed false _ us).bind fun _ _ _ _ => .done rfl

/-! ## Class headers -/

theorem headIsWord_placed (word : String) (ts : List Token) :
    (placed k [] ts).head?.any (Token.isWord word) = ts.head?.any (Token.isWord word) := by
  cases ts with
  | nil => rfl
  | cons t ts => exact t.isWord_moved k word

theorem modifiers_placed (ts : List Token) : Repeats k [] id (modifiers ts) (modifiers (placed k [] ts)) := by
  cases ts with
  | nil =>
    rw [placed_nil, modifiers]
    exact .done (l := []) rfl
  | cons t ts =>
    rw [placed_cons, modifiers, modifiers]
    simp only [Token.isMark_moved, Token.isWord_moved, Token.text_moved, isModifier_placed .nil, headIsWord_placed]
    split
    next =>
      refine (annotationUse_placed .nil ts).bind fun _ us hlt _ => ?_
      exact (modifiers_placed us).bind fun _ _ _ _ => .done rfl
    next =>
      split
      next => exact (modifiers_placed ts).bind fun _ _ _ _ => .done rfl
      next =>
        split
        next => exact (modifiers_placed ts).bind fun _ _ _ _ => .done rfl
        next => exact .done (l := t :: ts) rfl
termination_by ts.length

@[simp] theorem ClassKind.ofKeyword?_moved (words : List String) (t : Token) :
    ClassKind.ofKeyword? words (t.moved k) = ClassKind.ofKeyword? words t := by
  simp only [ClassKind.ofKeyword?, Token.isWord_moved]

theorem closeAngles_placed (opener : Token) (depth : Nat) (ts : List Token) :
    Repeats k behind id (closeAngles opener depth ts) (closeAngles (opener.moved k) depth (placed k behind ts)) := by
  cases ts with
  | nil =>
    rw [closeAngles]
    split
    next hdepth =>
      have hkeep : closeAngles (opener.moved k) depth behind = .ok (.keep () behind) := by
        cases behind with
        | nil =>
          rw [closeAngles, if_pos hdepth]
          rfl
        | cons t behind =>
          rw [closeAngles, if_pos hdepth]
          rfl
      exact .nothing rfl hkeep
    next => exact .error _
  | cons t ts =>
    rw [placed_cons, closeAngles, closeAngles]
    simp only [Token.isMark_moved]
    split
    next => exact .done (l := t :: ts) rfl
    next =>
      split
      next => exact .error _
      next =>
        refine (skipOne_placed t ts).bind fun _ us hlt _ => ?_
        exact (closeAngles_placed opener _ us).bind fun _ _ _ _ => .done rfl
termination_by ts.length

theorem typeParameters_placed (hangle : atMark '<' behind = false) (ts : List Token) :
    Repeats k behind id (typeParameters ts) (typeParameters (placed k behind ts)) := by
  have hopen := takeMark_placed (k := k) hangle ts
  cases ts with
  | nil =>
    have hnone : typeParameters behind = .ok (.keep none behind) := by
      cases behind with
      | nil => rfl
      | cons t behind =>
        rw [typeParameters, takeMark, if_neg (show ¬t.isMark '<' from Bool.eq_false_iff.mp hangle)]
        rfl
    exact .nothing rfl hnone
  | cons t ts =>
    rw [typeParameters, typeParameters]
    generalize takeMark '<' (t :: ts) = p, takeMark '<' (placed k behind (t :: ts)) = q at hopen
    obtain ⟨opened, ts₁⟩ := hopen
    cases opened with
    | true =>
      simp only [placed_cons, List.head?_cons]
      refine (closeAngles_placed t 1 ts₁).bind fun _ rest _ _ => ?_
      refine .done ?_
      rw [← placed_cons, verbatimBetween_placed]
      rfl
    | false => exact .done (l := t :: ts) rfl

theorem skipSupertypes_placed (ts : List Token) :
    Repeats k [] id (skipSupertypes ts) (skipSupertypes (placed k [] ts)) := by
  have hcolon := takeMark_placed (k := k) (show atMark ':' [] = false from rfl) ts
  rw [skipSupertypes, skipSupertypes, headIsWord_placed]
  generalize takeMark ':' ts = p, takeMark ':' (placed k [] ts) = q at hcolon
  obtain ⟨found, ts₁⟩ := hcolon
  cases found with
  | true => exact (skipToDeclaration_placed true true ts₁).bind fun _ _ _ _ => .done rfl
  | false =>
    dsimp only
    split
    next => exact skipToDeclaration_placed true false ts
    next => exact .done (l := ts) rfl

/-! ## Enum entries -/

theorem entryArguments_placed (ts : List Token) :
    Repeats k [] id (entryArguments ts) (entryArguments (placed k [] ts)) := by
  cases ts with
  | nil => exact .done (l := []) rfl
  | cons t ts =>
    simp only [placed_cons, entryArguments, Token.isMark_moved]
    split
    next =>
      refine (skipGroup_placed t ts).bind fun _ us _ _ => ?_
      refine .done ?_
      simp only [Parsed.map]
      rw [← placed_cons, verbatimBetween_placed]
      rfl
    next => exact .done (l := t :: ts) rfl

theorem skipEntryBody_placed (ts : List Token) :
    Repeats k [] id (skipEntryBody ts) (skipEntryBody (placed k [] ts)) := by
  cases ts with
  | nil => exact .done (l := []) rfl
  | cons t ts =>
    simp only [placed_cons, skipEntryBody, Token.isMark_moved]
    split
    next => exact (skipGroup_placed t ts).bind fun _ _ _ _ => .done rfl
    next => exact .done (l := t :: ts) rfl

theorem enumEntry_placed (t : Token) (ts : List Token) :
    Repeats k [] id (enumEntry t ts) (enumEntry (t.moved k) (placed k [] ts)) := by
  rw [enumEntry, enumEntry, Token.text_moved]
  refine (entryArguments_placed ts).bind fun args us _ _ => ?_
  exact (skipEntryBody_placed us).bind fun _ _ _ _ => .done rfl

theorem enumEntries_placed (ts : List Token) : Repeats k [] id (enumEntries ts) (enumEntries (placed k [] ts)) := by
  rw [enumEntries, enumEntries]
  refine (skipAnnotations_placed .nil ts).bind fun _ us hlt _ => ?_
  cases us with
  | nil => exact .error _
  | cons t us =>
    simp only [placed_cons, Token.isMark_moved, Token.isName_moved]
    split
    next => exact .done rfl
    next =>
      split
      next => exact .done (l := t :: us) rfl
      next =>
        split
        next =>
          refine (enumEntry_placed t us).bind fun entry vs h₂ _ => ?_
          have hcomma := takeMark_placed (k := k) (show atMark ',' [] = false from rfl) vs
          dsimp only
          generalize takeMark ',' vs = p, takeMark ',' (placed k [] vs) = q at hcomma
          obtain @⟨more, ws, h₃, _⟩ := hcomma
          cases more with
          | true => exact (enumEntries_placed ws).bind fun _ _ _ _ => .done rfl
          | false =>
            have hend := takeMark_placed (k := k) (show atMark ';' [] = false from rfl) vs
            dsimp only
            generalize takeMark ';' vs = p, takeMark ';' (placed k [] vs) = q at hend
            obtain ⟨_, ws⟩ := hend
            exact .done rfl
        next => exact .error _
termination_by ts.length
decreasing_by all_goals grind

theorem entriesOf_placed (kind : ClassKind) (ts : List Token) :
    Repeats k [] id (entriesOf kind ts) (entriesOf kind (placed k [] ts)) := by
  rw [entriesOf, entriesOf]
  split
  next => exact enumEntries_placed ts
  next => exact .done rfl

/-! ## Classes -/

mutual

/-- The class, declared `k` bytes further on. -/
def ClassTree.moved (k : Nat) : ClassTree → ClassTree
  | ⟨name, kind, typeParams, fields, entries, nested, offset⟩ =>
    ⟨name, kind, typeParams, fields, entries, movedAll k nested, offset + k⟩

def ClassTree.movedAll (k : Nat) : List ClassTree → List ClassTree
  | [] => []
  | c :: cs => c.moved k :: movedAll k cs

end

/-- The second run finds what the first one finds, `f` of it, or neither finds anything. -/
abbrev RepeatsIfAny (k : Nat) (behind : List Token) {α β : Type} {m n : Nat} (f : α → β)
    (x : Except Fault (Option (Parsed α m))) (y : Except Fault (Option (Parsed β n))) : Prop :=
  Simulates (Option.Rel (Carried k behind f)) x y

theorem RepeatsIfAny.widen {α β : Type} {m n m' n' : Nat} {f : α → β} {x : Except Fault (Option (Parsed α m))}
    {y : Except Fault (Option (Parsed β n))} (hm : m ≤ m') (hn : n ≤ n') (h : RepeatsIfAny k behind f x y) :
    RepeatsIfAny k behind f (Option.map (Parsed.widen hm) <$> x) (Option.map (Parsed.widen hn) <$> y) := by
  rw [map_eq_pure_bind, map_eq_pure_bind]
  refine h.bind fun o o' ho => .ok ?_
  cases ho with
  | none => exact .none
  | some hp =>
    obtain ⟨a, ts⟩ := hp
    exact .some (.mk a ts)

theorem RepeatsIfAny.some {α β : Type} {m n : Nat} {f : α → β} {x : Except Fault (Option (Parsed α m))}
    {y : Except Fault (Option (Parsed β n))} (h : RepeatsIfAny k behind f x y) {a : α} {us : List Token} {hlt}
    (hx : x = .ok (some ⟨a, us, hlt⟩)) : ∃ hlt', y = .ok (some ⟨f a, placed k behind us, hlt'⟩) := by
  obtain ⟨_, rfl, hq⟩ := h _ hx
  cases hq with
  | some hq =>
    cases hq
    exact ⟨_, rfl⟩

theorem behind_class {ts ts₂ ts₃ ts₄ ts₅ rest : List Token} (h₂ : ts₂.length < ts.length) (h₃ : ts₃.length < ts₂.length + 1)
    (h₄ : ts₄.length < ts₃.length + 1) (h₅ : ts₅.length < ts₄.length + 1) (h : rest.length < ts₅.length + 1) :
    rest.length < ts.length := by
  omega

/-- A class behind its keyword. -/
def classAfter (kind : ClassKind) (keyword : Token) (ts : List Token) : Except Fault (Option (Parsed ClassTree ts.length)) := do
  let some ⟨name, ts₂, h₂⟩ ← className kind keyword ts | return none
  let ⟨typeParams, ts₃, h₃⟩ ← typeParameters ts₂
  let ⟨fields, ts₄, h₄⟩ ← primaryConstructor ts₃
  let ⟨_, ts₅, h₅⟩ ← skipSupertypes ts₄
  let ⟨(entries, nested), rest, h⟩ ← classBody kind (Name.unquote name.text) ts₅
  return some ⟨⟨Name.unquote name.text, kind, typeParams, fields, entries, nested, name.start⟩, rest,
    behind_class h₂ h₃ h₄ h₅ h⟩

/-- A class is read on behind its keyword. -/
theorem classTree_of_modifiers {ts ts₁ : List Token} {words : List String} {keyword : Token} {kind : ClassKind} {h}
    (hwords : modifiers ts = .ok ⟨words, keyword :: ts₁, h⟩) (hkind : ClassKind.ofKeyword? words keyword = some kind) :
    classTree ts = Option.map (Parsed.widen (Nat.le_of_lt_succ (Nat.lt_of_succ_lt h))) <$> classAfter kind keyword ts₁ := by
  rw [classTree, hwords, classAfter, map_bind]
  refine (pure_bind (m := Except Fault) _ _).trans ?_
  simp only [hkind]
  refine bind_congr fun name? => ?_
  cases name? with
  | none => rfl
  | some name =>
    simp only [map_bind]
    rfl

theorem className_placed (kind : ClassKind) (keyword keyword' : Token) (ts : List Token) :
    RepeatsIfAny k [] (Token.moved k) (className kind keyword ts) (className kind keyword' (placed k [] ts)) := by
  cases ts with
  | nil =>
    simp only [placed_nil, className]
    split
    next => exact .ok .none
    next => exact .error _
  | cons t ts =>
    simp only [placed_cons, className, Token.isName_moved, Token.text_moved]
    split
    next => exact .ok (.some (.mk t ts))
    next =>
      split
      next => exact .ok .none
      next => exact .error _

mutual

theorem classAfter_placed (kind : ClassKind) (keyword keyword' : Token) (ts : List Token) :
    RepeatsIfAny k [] (ClassTree.moved k) (classAfter kind keyword ts)
      (classAfter kind keyword' (placed k [] ts)) := by
  rw [classAfter, classAfter]
  refine (className_placed kind keyword keyword' ts).bind fun name? name?' hname => ?_
  cases hname with
  | none => exact .ok .none
  | some hname =>
    obtain @⟨name, ts₂, h₂, _⟩ := hname
    refine (typeParameters_placed rfl ts₂).bind fun typeParams ts₃ h₃ _ => ?_
    refine (primaryConstructor_placed ts₃).bind fun fields ts₄ h₄ _ => ?_
    refine (skipSupertypes_placed ts₄).bind fun _ ts₅ h₅ _ => ?_
    refine (classBody_placed kind _ ts₅).bind fun body rest _ _ => ?_
    exact .ok (.some (.mk (⟨_, kind, typeParams, fields, body.1, body.2, name.start⟩ : ClassTree) rest))
termination_by 2 * ts.length + 1

theorem classTree_placed (ts : List Token) :
    RepeatsIfAny k [] (ClassTree.moved k) (classTree ts) (classTree (placed k [] ts)) := by
  cases hwords : modifiers ts with
  | error e =>
    rw [classTree, hwords]
    exact .error e
  | ok p =>
    obtain ⟨q, hwords', hq⟩ := modifiers_placed (k := k) ts p hwords
    obtain @⟨words, us, hlt, _⟩ := hq
    cases us with
    | nil =>
      rw [classTree, hwords, classTree, hwords']
      exact .ok .none
    | cons keyword us =>
      cases hkind : ClassKind.ofKeyword? words keyword with
      | none =>
        have hkind' : ClassKind.ofKeyword? (id words) (keyword.moved k) = none := by rwa [ClassKind.ofKeyword?_moved]
        rw [classTree, hwords, classTree, hwords']
        simp only [bind, Except.bind, placed_cons, hkind, hkind']
        exact .ok .none
      | some kind =>
        have hkind' : ClassKind.ofKeyword? (id words) (keyword.moved k) = some kind := by rwa [ClassKind.ofKeyword?_moved]
        rw [classTree_of_modifiers hwords hkind, classTree_of_modifiers hwords' hkind']
        exact (classAfter_placed kind keyword _ us).widen _ _
termination_by 2 * ts.length
decreasing_by simp only [List.length_cons] at hlt; omega

theorem classBody_placed (kind : ClassKind) (name : String) (ts : List Token) :
    Repeats k [] (Prod.map id (ClassTree.movedAll k)) (classBody kind name ts)
      (classBody kind name (placed k [] ts)) := by
  cases ts with
  | nil =>
    rw [placed_nil, classBody]
    exact .done (l := []) rfl
  | cons opener ts =>
    rw [placed_cons, classBody, classBody, Token.isMark_moved]
    split
    next =>
      refine (entriesOf_placed kind ts).bind fun entries us h₁ _ => ?_
      refine (members_placed us).bind fun nested vs _ _ => ?_
      have hclose := takeMark_placed (k := k) (show atMark '\x7d' [] = false from rfl) vs
      dsimp only
      generalize takeMark '\x7d' vs = p, takeMark '\x7d' (placed k [] vs) = q at hclose
      obtain ⟨closed, rest⟩ := hclose
      cases closed with
      | true => exact .done rfl
      | false => exact .error _
    next => exact .done (l := opener :: ts) rfl
termination_by 2 * ts.length

theorem members_placed (ts : List Token) :
    Repeats k [] (ClassTree.movedAll k) (members ts) (members (placed k [] ts)) := by
  cases ts with
  | nil =>
    rw [placed_nil, members]
    exact .done (l := []) rfl
  | cons t ts =>
    rw [placed_cons, members, members, Token.isMark_moved, Token.isMark_moved]
    split
    next => exact .done (l := t :: ts) rfl
    next =>
      split
      next => exact (members_placed ts).bind fun _ _ _ _ => .done rfl
      next =>
        refine (classTree_placed (t :: ts)).bind fun c? c?' hc => ?_
        cases hc with
        | none =>
          refine (skipMember_placed t ts).bind fun _ us hlt _ => ?_
          exact (members_placed us).bind fun _ _ _ _ => .done rfl
        | some hc =>
          obtain @⟨c, us, hlt, _⟩ := hc
          have hle : us.length ≤ ts.length := Nat.le_of_lt_succ hlt
          exact (members_placed us).bind fun _ _ _ _ => .done rfl
termination_by 2 * ts.length + 1
decreasing_by all_goals simp only [List.length_cons]; omega

end

end Counterpart.Kotlin
