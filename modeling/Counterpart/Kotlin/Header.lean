/-
Dotted names, annotations, and what stands at the top of a source: its package and its imports.
-/
import Counterpart.Kotlin.Declaration
import Counterpart.Kotlin.Group

namespace Counterpart.Kotlin

/-! ## Names -/

/-- The name extended by every segment that follows after a dot. -/
def moreSegments (name : String) : (ts : List Token) → Parsed String (ts.length + 1)
  | dot :: t :: ts =>
    if dot.isMark '.' && t.isName then ((moreSegments (name ++ "." ++ t.text) ts).past t).past dot
    else .keep name (dot :: t :: ts)
  | ts => .keep name ts

/-- A dotted name; its segments keep their backticks. -/
def dottedName (role : NameRole) : (ts : List Token) → Except Fault (Parsed String ts.length)
  | t :: ts => if t.isName then .ok (moreSegments t.text ts) else .error ⟨.missingName role, some t⟩
  | [] => .error ⟨.missingName role, none⟩

/-- A single identifier, with its backticks. -/
def simpleName (role : NameRole) : (ts : List Token) → Except Fault (Parsed String ts.length)
  | t :: ts => if t.isName then .ok (.keep t.text ts) else .error ⟨.missingName role, some t⟩
  | [] => .error ⟨.missingName role, none⟩

/-! ## Annotations -/

/-- Drops the target of an annotation: a name and a colon that no other colon follows. -/
def dropUseSite : (ts : List Token) → Parsed Unit (ts.length + 1)
  | t :: colon :: ts =>
    if t.isName && colon.isMark ':' && !atMark ':' ts then (Parsed.taken () colon ts).past t
    else .keep () (t :: colon :: ts)
  | ts => .keep () ts

/-- An annotation, or a list of them in brackets, after the at sign. The value is the last segment of the name
of a single annotation. -/
def annotationUse (ts : List Token) : Except Fault (Parsed (Option String) (ts.length + 1)) :=
  match dropUseSite ts with
  | ⟨_, bracket :: ts₁, h₁⟩ =>
    if bracket.isMark '[' then do
      let ⟨_, ts₂, h₂⟩ ← skipGroup bracket ts₁
      return ⟨none, ts₂, by simp only [List.length_cons] at h₁; omega⟩
    else do
      match ← dottedName .annotationName (bracket :: ts₁) with
      | ⟨name, [], _⟩ => return ⟨some (Name.shortName name), [], Nat.succ_pos _⟩
      | ⟨name, paren :: ts₂, h₂⟩ =>
        if paren.isMark '(' && paren.isAdjacent then
          let ⟨_, ts₃, h₃⟩ ← skipGroup paren ts₂
          return ⟨some (Name.shortName name), ts₃, by simp only [List.length_cons] at h₁ h₂; omega⟩
        else return ⟨some (Name.shortName name), paren :: ts₂, by omega⟩
  | ⟨_, [], _⟩ => .error ⟨.missingName .annotationName, none⟩

/-- Skips the annotations that come next. -/
def skipAnnotations (ts : List Token) : Except Fault (Parsed Unit (ts.length + 1)) :=
  match ts with
  | t :: ts =>
    if t.isMark '@' then do
      let ⟨_, rest, h⟩ ← annotationUse ts
      return ((← skipAnnotations rest).widen h).past t
    else .ok (.keep () (t :: ts))
  | [] => .ok (.keep () [])
termination_by ts.length

/-! ## Package and imports -/

/-- The package directive, if there is one, with the semicolon after it. -/
def packageDirective (ts : List Token) : Except Fault (Parsed String (ts.length + 1)) := do
  let ⟨found, ts₁, h₁⟩ := takeWord "package" ts
  if found then
    let ⟨name, ts₂, h₂⟩ ← dottedName .package ts₁
    let ⟨_, ts₃, h₃⟩ := takeMark ';' ts₂
    return ⟨name, ts₃, by omega⟩
  else return .keep "" ts

/-- An import directive after its keyword. -/
def importDirective (ts : List Token) : Except Fault (Parsed Import ts.length) := do
  match ← dottedName .importPath ts with
  | ⟨path, [], h₁⟩ => return ⟨.symbol path, [], h₁⟩
  | ⟨path, t :: ts₁, h₁⟩ =>
    if t.isMark '.' && atMark '*' ts₁ then
      return ⟨.everything path, ts₁.drop 1, by simp only [List.length_cons, List.length_drop] at h₁ ⊢; omega⟩
    else if t.isWord "as" then
      let ⟨name, ts₂, h₂⟩ ← simpleName .importAlias ts₁
      return ⟨⟨path, some name, false⟩, ts₂, by simp only [List.length_cons] at h₁; omega⟩
    else return ⟨.symbol path, t :: ts₁, h₁⟩

/-- The import directives that come next, each with the semicolon after it. -/
def importDirectives (ts : List Token) : Except Fault (Parsed (List Import) (ts.length + 1)) := do
  match takeWord "import" ts with
  | ⟨false, _, _⟩ => return .keep [] ts
  | ⟨true, ts₁, h₁⟩ =>
    let ⟨i, ts₂, h₂⟩ ← importDirective ts₁
    let ⟨_, ts₃, h₃⟩ := takeMark ';' ts₂
    let ⟨is, ts₄, h₄⟩ ← importDirectives ts₃
    return ⟨i :: is, ts₄, by omega⟩
termination_by ts.length

end Counterpart.Kotlin
