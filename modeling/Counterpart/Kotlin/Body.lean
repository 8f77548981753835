/-
Reading the classes of a source. Members that are no classes are skipped up to the next word or mark that
starts a declaration; groups in brackets are skipped whole, so nothing inside them counts.
-/
import Counterpart.Kotlin.Parameter
import Counterpart.Kotlin.Token.Lexer

namespace Counterpart.Kotlin

/-! ## Skipping members -/

/-- The words that start a member wherever they stand. -/
def declarationWords : List String :=
  ["class", "interface", "object", "fun", "val", "var", "typealias", "init", "constructor"]

/-- Whether `t`, with `ts` after it, starts a declaration. The word `class` right after a colon does not: it
ends a class reference. -/
def startsDeclaration (afterColon : Bool) (t : Token) (ts : List Token) : Bool :=
  t.isName && !(afterColon && t.text == "class") && (declarationWords.contains t.text || isModifier t ts)

/-- Skips up to a semicolon, a closing brace, an annotation or a declaration, and up to an opening brace too
when `stopAtBrace` is set. `afterColon` tells whether a colon was skipped last. -/
def skipToDeclaration (stopAtBrace afterColon : Bool) :
    (ts : List Token) → Except Fault (Parsed Unit (ts.length + 1))
  | [] => return .keep () []
  | t :: ts =>
    if t.isMark '\x7d' || t.isMark ';' || t.isMark '@' || (stopAtBrace && t.isMark '\x7b')
        || startsDeclaration afterColon t ts then
      return .keep () (t :: ts)
    else do
      let ⟨_, ts₁, h₁⟩ ← skipOne t ts
      return ((← skipToDeclaration stopAtBrace (t.isMark ':') ts₁).widen h₁).past t
termination_by ts => ts.length

/-- Skips the member that `t` starts. -/
def skipMember (t : Token) (ts : List Token) : Except Fault (Parsed Unit (ts.length + 1)) := do
  let ⟨_, ts₁, h₁⟩ ← skipOne t ts
  return (← skipToDeclaration false (t.isMark ':') ts₁).widen h₁

/-! ## Class headers -/

/-- The modifiers before a declaration, with the annotations between them skipped. The word `fun` before
`interface` is skipped as well. -/
def modifiers : (ts : List Token) → Except Fault (Parsed (List String) (ts.length + 1))
  | [] => return .keep [] []
  | t :: ts =>
    if t.isMark '@' then do
      let ⟨_, ts₁, h₁⟩ ← annotationUse ts
      return ((← modifiers ts₁).widen h₁).past t
    else if isModifier t ts then do
      return ((← modifiers ts).map (t.text :: ·)).past t
    else if t.isWord "fun" && ts.head?.any (Token.isWord "interface") then do
      return (← modifiers ts).past t
    else return .keep [] (t :: ts)
termination_by ts => ts.length

/-- The kind of class that a keyword declares after the given modifiers; none when it declares no class. -/
def ClassKind.ofKeyword? (modifiers : List String) (keyword : Token) : Option ClassKind :=
  if keyword.isWord "class" then
    if modifiers.contains "data" then some .data
    else if modifiers.contains "enum" then some .enum
    else if modifiers.contains "annotation" then some .annotationClass
    else if modifiers.contains "value" || modifiers.contains "inline" then some .value
    else some .plain
  else if keyword.isWord "interface" then some .interface
  else if keyword.isWord "object" then some .object
  else none

/-- The tokens after the angle brackets of which `depth` are open; `opener` is the first of them. -/
def closeAngles (opener : Token) (depth : Nat) : (ts : List Token) → Except Fault (Parsed Unit (ts.length + 1))
  | [] => if depth = 0 then return .keep () [] else throw ⟨.unclosed "<", some opener⟩
  | t :: ts =>
    if depth = 0 then return .keep () (t :: ts)
    else if t.isMark '\x7b' || t.isMark ')' then throw ⟨.unclosed "<", some opener⟩
    else do
      let ⟨_, ts₁, h₁⟩ ← skipOne t ts
      let depth := if t.isMark '<' then depth + 1 else if t.isMark '>' then depth - 1 else depth
      return ((← closeAngles opener depth ts₁).widen h₁).past t
termination_by ts => ts.length

/-- The tokens from `start` up to `rest` as the source has them. -/
def verbatimBetween (start rest : List Token) : String :=
  Token.verbatim (start.take (start.length - rest.length))

/-- The type parameters as written, if they come next. -/
def typeParameters (ts : List Token) : Except Fault (Parsed (Option String) (ts.length + 1)) := do
  match takeMark '<' ts, ts.head? with
  | ⟨true, ts₁, h₁⟩, some opener =>
    let ⟨_, rest, h⟩ ← closeAngles opener 1 ts₁
    return ⟨some (verbatimBetween ts rest), rest, by omega⟩
  | _, _ => return .keep none ts

/-- Skips the supertypes and the constraints between a class header and its body. -/
def skipSupertypes (ts : List Token) : Except Fault (Parsed Unit (ts.length + 1)) := do
  match takeMark ':' ts with
  | ⟨true, ts₁, h₁⟩ =>
    let ⟨_, rest, h⟩ ← skipToDeclaration true true ts₁
    return ⟨(), rest, by omega⟩
  | ⟨false, _, _⟩ =>
    if ts.head?.any (Token.isWord "where") then skipToDeclaration true false ts else return .keep () ts

/-! ## Enum entries -/

/-- A group in parentheses as written, if it comes next. -/
def entryArguments : (ts : List Token) → Except Fault (Parsed (Option String) (ts.length + 1))
  | t :: ts =>
    if t.isMark '(' then do
      let p ← skipGroup t ts
      return (p.map fun _ => some (verbatimBetween (t :: ts) p.rest)).past t
    else return .keep none (t :: ts)
  | [] => return .keep none []

/-- Skips a group in braces, if it comes next. -/
def skipEntryBody : (ts : List Token) → Except Fault (Parsed Unit (ts.length + 1))
  | t :: ts =>
    if t.isMark '\x7b' then do
      return (← skipGroup t ts).past t
    else return .keep () (t :: ts)
  | [] => return .keep () []

/-- The rest of the entry that the name `t` starts. -/
def enumEntry (t : Token) (ts : List Token) : Except Fault (Parsed EnumEntry (ts.length + 1)) := do
  let ⟨args, ts₁, h₁⟩ ← entryArguments ts
  return ((← skipEntryBody ts₁).map fun _ => ⟨Name.unquote t.text, args⟩).widen h₁

/-- The entries at the start of an enum body, with the semicolon after them. -/
def enumEntries (ts : List Token) : Except Fault (Parsed (List EnumEntry) (ts.length + 1)) := do
  match ← skipAnnotations ts with
  | ⟨_, [], _⟩ => throw ⟨.missingEnumEntry, none⟩
  | ⟨_, t :: ts₁, h₁⟩ =>
    if t.isMark ';' then return (Parsed.taken [] t ts₁).widen h₁
    else if t.isMark '\x7d' then return ⟨[], t :: ts₁, h₁⟩
    else if t.isName then
      let ⟨entry, ts₂, h₂⟩ ← enumEntry t ts₁
      match takeMark ',' ts₂ with
      | ⟨true, ts₃, h₃⟩ =>
        let p ← enumEntries ts₃
        return ((((p.map (entry :: ·)).widen h₃).widen h₂).past t).widen h₁
      | ⟨false, _, _⟩ => return ((((takeMark ';' ts₂).map fun _ => [entry]).widen h₂).past t).widen h₁
    else throw ⟨.missingEnumEntry, some t⟩
termination_by ts.length
decreasing_by simp only [List.length_cons] at *; omega

/-- The entries of an enum; a class of another kind has none. -/
def entriesOf (kind : ClassKind) (ts : List Token) : Except Fault (Parsed (List EnumEntry) (ts.length + 1)) :=
  if kind = .enum then enumEntries ts else return .keep [] ts

/-! ## Classes -/

/-- The name of a class after its keyword; none for an object without one. -/
def className (kind : ClassKind) (keyword : Token) :
    (ts : List Token) → Except Fault (Option (Parsed Token ts.length))
  | t :: ts =>
    if t.isName && !declarationWords.contains t.text then return some (.keep t ts)
    else if kind = .object then return none
    else throw ⟨.namelessClass keyword.text, some t⟩
  | [] => if kind = .object then return none else throw ⟨.namelessClass keyword.text, none⟩

mutual

/-- A class with its modifiers; none when something else comes next. -/
def classTree (ts : List Token) : Except Fault (Option (Parsed ClassTree ts.length)) := do
  match ← modifiers ts with
  | ⟨_, [], _⟩ => return none
  | ⟨words, keyword :: ts₁, h₁⟩ =>
    let some kind := ClassKind.ofKeyword? words keyword | return none
    let some ⟨name, ts₂, h₂⟩ ← className kind keyword ts₁ | return none
    let ⟨typeParams, ts₃, h₃⟩ ← typeParameters ts₂
    let ⟨fields, ts₄, h₄⟩ ← primaryConstructor ts₃
    let ⟨_, ts₅, h₅⟩ ← skipSupertypes ts₄
    let ⟨(entries, nested), rest, h⟩ ← classBody kind (Name.unquote name.text) ts₅
    return some ⟨⟨Name.unquote name.text, kind, typeParams, fields, entries, nested, name.start⟩, rest, by
      simp only [List.length_cons] at h₁; omega⟩
termination_by 2 * ts.length
decreasing_by simp only [List.length_cons] at *; omega

/-- The body in braces, if it comes next: the entries of an enum and the classes. -/
def classBody (kind : ClassKind) (name : String) :
    (ts : List Token) → Except Fault (Parsed (List EnumEntry × List ClassTree) (ts.length + 1))
  | [] => return .keep ([], []) []
  | opener :: ts =>
    if opener.isMark '\x7b' then do
      let ⟨entries, ts₁, h₁⟩ ← entriesOf kind ts
      let ⟨nested, ts₂, h₂⟩ ← members ts₁
      match takeMark '\x7d' ts₂ with
      | ⟨true, rest, h⟩ => return ⟨(entries, nested), rest, by simp only [List.length_cons]; omega⟩
      | ⟨false, _, _⟩ => throw ⟨.unclosedBody name, some opener⟩
    else return .keep ([], []) (opener :: ts)
termination_by ts => 2 * ts.length

/-- The classes among the members up to a closing brace or the end. -/
def members : (ts : List Token) → Except Fault (Parsed (List ClassTree) (ts.length + 1))
  | [] => return .keep [] []
  | t :: ts =>
    if t.isMark '\x7d' then return .keep [] (t :: ts)
    else if t.isMark ';' then do
      return (← members ts).past t
    else do
      match ← classTree (t :: ts) with
      | some ⟨c, ts₁, h₁⟩ =>
        let ⟨cs, rest, h⟩ ← members ts₁
        return ⟨c :: cs, rest, by omega⟩
      | none =>
        let ⟨_, ts₁, h₁⟩ ← skipMember t ts
        return ((← members ts₁).widen h₁).past t
termination_by ts => 2 * ts.length + 1
decreasing_by all_goals (try simp only [List.length_cons] at *); omega

end

/-! ## Sources -/

/-- What the tokens of a source declare. -/
def SourceUnit.ofTokens (ts : List Token) : Except Fault SourceUnit := do
  let ⟨_, ts₁, _⟩ ← skipAnnotations ts
  let ⟨package, ts₂, _⟩ ← packageDirective ts₁
  let ⟨imports, ts₃, _⟩ ← importDirectives ts₂
  match ← members ts₃ with
  | ⟨classes, [], _⟩ => return ⟨package, imports, classes⟩
  | ⟨_, t :: _, _⟩ => throw ⟨.unexpected '\x7d', some t⟩

/-- What a source declares. -/
def SourceUnit.ofSource (source : String) : Except SyntaxError SourceUnit := do
  let stream ← TokenStream.ofSource source
  (SourceUnit.ofTokens stream.tokens).mapError (Fault.toError stream.size)

theorem SourceUnit.ofSource_ok {source : String} {u : SourceUnit} (h : ofSource source = .ok u) :
    ∃ s, TokenStream.ofSource source = .ok s ∧ ofTokens s.tokens = .ok u := by
  rw [ofSource] at h
  cases hs : TokenStream.ofSource source with
  | error e =>
    rw [hs] at h
    cases h
  | ok s =>
    rw [hs] at h
    refine ⟨s, rfl, ?_⟩
    change (ofTokens s.tokens).mapError (Fault.toError s.size) = .ok u at h
    cases htokens : ofTokens s.tokens with
    | error f =>
      rw [htokens] at h
      cases h
    | ok v =>
      rw [htokens] at h
      cases h
      rfl

end Counterpart.Kotlin
