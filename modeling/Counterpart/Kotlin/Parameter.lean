/-
Reading the parameters of a primary constructor. A default value is skipped; inside it an angle bracket after a
name opens type arguments when type syntax alone leads to its closing bracket, and is a comparison otherwise.
-/
import Counterpart.Kotlin.Type.Reader

namespace Counterpart.Kotlin

/-! ## Modifiers -/

/-- The words that may stand before a declaration and are names elsewhere. -/
def modifierWords : List String :=
  ["public", "private", "internal", "protected", "open", "final", "abstract", "sealed", "data", "enum",
   "annotation", "value", "inline", "inner", "companion", "override", "lateinit", "const", "external", "expect",
   "actual", "suspend", "tailrec", "operator", "infix", "vararg", "noinline", "crossinline", "reified"]

/-- Whether `t`, with `ts` after it, is a modifier: such a word before a name or an annotation. -/
def isModifier (t : Token) (ts : List Token) : Bool :=
  t.isName && modifierWords.contains t.text && ts.head?.any fun u => u.isName || u.isMark '@'

/-! ## Default values -/

/-- Whether type syntax alone leads from here to the angle bracket that closes `angles` open ones. -/
def closesTypeArgs : (angles parens : Nat) → List Token → Bool
  | _, _, [] => false
  | angles, parens, t :: ts =>
    match t.kind with
    | .mark '<' => closesTypeArgs (angles + 1) parens ts
    | .mark '>' => angles ≤ 1 || closesTypeArgs (angles - 1) parens ts
    | .mark '(' => closesTypeArgs angles (parens + 1) ts
    | .mark ')' => 0 < parens && closesTypeArgs angles (parens - 1) ts
    | .name | .arrow => closesTypeArgs angles parens ts
    | .mark c => [',', '.', '?', '*', '@', ':'].contains c && closesTypeArgs angles parens ts
    | _ => false

/-- Skips an expression up to the comma or the parenthesis that ends it. `afterName` tells whether a name was
skipped last, `angles` how many lists of type arguments are open. -/
def skipDefault (afterName : Bool) (angles : Nat) : (ts : List Token) → Except Fault (Parsed Unit (ts.length + 1))
  | [] => return .keep () []
  | t :: ts =>
    if angles = 0 && (t.isMark ',' || t.isMark ')') then return .keep () (t :: ts)
    else if t.isMark '<' && afterName && closesTypeArgs 0 0 (t :: ts) then do
      return (← skipDefault false (angles + 1) ts).past t
    else if t.isMark '>' && 0 < angles then do
      return (← skipDefault false (angles - 1) ts).past t
    else do
      let ⟨_, ts₁, h₁⟩ ← skipOne t ts
      return ((← skipDefault t.isName angles ts₁).widen h₁).past t
termination_by ts => ts.length

/-! ## Parameters -/

/-- What the words before a parameter say. -/
structure ParameterMarks where
  annotations : List String
  visibility : Visibility

/-- Takes one modifier into account; the last word on visibility counts. -/
def ParameterMarks.addWord (m : ParameterMarks) (word : String) : ParameterMarks :=
  if word = "private" then { m with visibility := .priv }
  else if word = "protected" then { m with visibility := .prot }
  else if word = "internal" then { m with visibility := .internal }
  else m

/-- The annotations and modifiers before a parameter. -/
def parameterMarks (m : ParameterMarks) : (ts : List Token) → Except Fault (Parsed ParameterMarks (ts.length + 1))
  | [] => return .keep m []
  | t :: ts =>
    if t.isMark '@' then do
      let ⟨name?, ts₁, h₁⟩ ← annotationUse ts
      let p ← parameterMarks { m with annotations := m.annotations ++ name?.toList } ts₁
      return (p.widen h₁).past t
    else if isModifier t ts then do
      return (← parameterMarks (m.addWord t.text) ts).past t
    else return .keep m (t :: ts)
termination_by ts => ts.length

/-- The keyword that makes a parameter a property, if there is one; true stands for `var`. -/
def takePropertyKeyword (ts : List Token) : Parsed (Option Bool) (ts.length + 1) :=
  match ts with
  | t :: ts =>
    if t.isWord "val" then .taken (some false) t ts
    else if t.isWord "var" then .taken (some true) t ts
    else .keep none (t :: ts)
  | [] => .keep none []

/-- A mark that must come next. -/
def expectMark (role : MarkRole) : (ts : List Token) → Except Fault (Parsed Unit ts.length)
  | t :: ts => if t.isMark role.mark then return .keep () ts else throw ⟨.missingMark role, some t⟩
  | [] => throw ⟨.missingMark role, none⟩

/-- A parameter of a primary constructor. -/
def parameter (ts : List Token) : Except Fault (Parsed Field ts.length) := do
  let ⟨marks, ts₁, h₁⟩ ← parameterMarks ⟨[], .pub⟩ ts
  let ⟨property, ts₂, h₂⟩ := takePropertyKeyword ts₁
  let ⟨name, ts₃, h₃⟩ ← simpleName .parameter ts₂
  let ⟨_, ts₄, h₄⟩ ← expectMark .parameterType ts₃
  let ⟨ty, ts₅, h₅⟩ ← typeRef ts₄
  let field (hasDefault : Bool) : Field :=
    ⟨Name.unquote name, ty, marks.visibility, hasDefault, property.getD false, property.isSome, marks.annotations⟩
  let ⟨hasDefault, ts₆, h₆⟩ := takeMark '=' ts₅
  if hasDefault then
    let ⟨_, rest, h⟩ ← skipDefault false 0 ts₆
    return ⟨field true, rest, by omega⟩
  else return ⟨field false, ts₅, by omega⟩

/-- Parameters up to the closing parenthesis. A comma may stand after the last. -/
def parameters (ts : List Token) : Except Fault (Parsed (List Field) (ts.length + 1)) := do
  match takeMark ')' ts with
  | ⟨true, rest, h⟩ => return ⟨[], rest, h⟩
  | ⟨false, _, _⟩ =>
    let ⟨field, ts₁, h₁⟩ ← parameter ts
    match takeMark ',' ts₁ with
    | ⟨true, ts₂, h₂⟩ =>
      let ⟨fields, rest, h⟩ ← parameters ts₂
      return ⟨field :: fields, rest, by omega⟩
    | ⟨false, _, _⟩ =>
      let ⟨_, rest, h⟩ ← expectMark .parametersEnd ts₁
      return ⟨[field], rest, by omega⟩
termination_by ts.length

/-- Skips the annotations, visibilities and the keyword before the parameters of a primary constructor. -/
def skipConstructorWords : (ts : List Token) → Except Fault (Parsed Unit (ts.length + 1))
  | [] => return .keep () []
  | t :: ts =>
    if t.isMark '@' then do
      let ⟨_, ts₁, h₁⟩ ← annotationUse ts
      return ((← skipConstructorWords ts₁).widen h₁).past t
    else if t.isName && ["public", "private", "internal", "protected", "constructor"].contains t.text then do
      return (← skipConstructorWords ts).past t
    else return .keep () (t :: ts)
termination_by ts => ts.length

/-- The parameters of the primary constructor; none when the class header has no list of them. -/
def primaryConstructor (ts : List Token) : Except Fault (Parsed (List Field) (ts.length + 1)) := do
  let ⟨_, ts₁, h₁⟩ ← skipConstructorWords ts
  match takeMark '(' ts₁ with
  | ⟨true, ts₂, h₂⟩ =>
    let ⟨fields, rest, h⟩ ← parameters ts₂
    return ⟨fields, rest, by omega⟩
  | ⟨false, _, _⟩ => return .keep [] ts

end Counterpart.Kotlin
