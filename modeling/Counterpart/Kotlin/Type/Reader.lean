/-
Reading types. A parenthesis starts a function type; a dotted name with arguments does so when a dot and a
parenthesis follow it. Anything else is a named type.
-/
import Counterpart.Kotlin.Header

namespace Counterpart.Kotlin

open Text

/-- The text of the tokens from `start` up to `rest`, on one line. -/
def textBetween (start rest : List Token) : String :=
  oneLine (Token.verbatim (start.take (start.length - rest.length)))

/-- The variance before a type argument: a word `out` or `in` that a name follows. -/
def takeVariance (ts : List Token) : Parsed Variance (ts.length + 1) :=
  match ts with
  | t :: u :: ts =>
    if t.isWord "out" && u.isName then .taken .outward t (u :: ts)
    else if t.isWord "in" && u.isName then .taken .inward t (u :: ts)
    else .keep .invariant (t :: u :: ts)
  | ts => .keep .invariant ts

/-- The dot and the parenthesis that make the type before them the receiver of a function type. The value is
the parenthesis. -/
def receiverEnd (ts : List Token) : Option (Parsed Token ts.length) :=
  match ts with
  | dot :: paren :: ts =>
    if dot.isMark '.' && paren.isMark '(' then some (.taken paren paren ts) else none
  | _ => none

mutual

/-- A type with the annotations before it. -/
def typeRef (ts : List Token) : Except Fault (Parsed TypeRef ts.length) := do
  let ⟨_, start, h₀⟩ ← skipAnnotations ts
  match takeWord "suspend" start with
  | ⟨_, [], _⟩ => throw ⟨.missingName .type, none⟩
  | ⟨_, t :: ts₁, h₁⟩ =>
    if t.isMark '(' then
      let ⟨_, ts₂, h₂⟩ ← skipGroup t ts₁
      let ⟨_, ts₃, h₃⟩ ← resultType ts₂
      let ⟨nullable, rest, h⟩ := takeMark '?' ts₃
      return ⟨.function nullable (textBetween start rest), rest, by simp only [List.length_cons] at h₁; omega⟩
    else
      let ⟨name, ts₂, h₂⟩ ← dottedName .type (t :: ts₁)
      let ⟨args, ts₃, h₃⟩ ← typeArgs ts₂
      match receiverEnd ts₃ with
      | some ⟨paren, ts₄, h₄⟩ =>
        let ⟨_, ts₅, h₅⟩ ← skipGroup paren ts₄
        let ⟨_, rest, h⟩ ← resultType ts₅
        return ⟨.function false (textBetween start rest), rest, by omega⟩
      | none =>
        let ⟨nullable, ts₄, h₄⟩ := takeMark '?' ts₃
        let ⟨_, rest, h⟩ ← otherBound ts₄
        return ⟨.named name args nullable (textBetween start rest), rest, by omega⟩
termination_by 3 * ts.length
decreasing_by all_goals (try simp only [List.length_cons] at *); omega

/-- The arrow and the result of a function type, if they come next. -/
def resultType : (ts : List Token) → Except Fault (Parsed Unit (ts.length + 1))
  | t :: ts =>
    if t.kind == .arrow then do
      let ⟨_, rest, h⟩ ← typeRef ts
      return ⟨(), rest, by simp only [List.length_cons]; omega⟩
    else return .keep () (t :: ts)
  | [] => return .keep () []
termination_by ts => 3 * ts.length

/-- The other half of an intersection type, if it comes next. -/
def otherBound : (ts : List Token) → Except Fault (Parsed Unit (ts.length + 1))
  | t :: ts =>
    if t.isMark '&' then do
      let ⟨_, rest, h⟩ ← typeRef ts
      return ⟨(), rest, by simp only [List.length_cons]; omega⟩
    else return .keep () (t :: ts)
  | [] => return .keep () []
termination_by ts => 3 * ts.length

/-- The type arguments in angle brackets, if they come next. -/
def typeArgs : (ts : List Token) → Except Fault (Parsed (List (TypeArg TypeRef)) (ts.length + 1))
  | t :: ts =>
    if t.isMark '<' then do
      let ⟨args, rest, h⟩ ← typeArgList ts
      return ⟨args, rest, by simp only [List.length_cons]; omega⟩
    else return .keep [] (t :: ts)
  | [] => return .keep [] []
termination_by ts => 3 * ts.length

/-- Type arguments up to the closing angle bracket. -/
def typeArgList (ts : List Token) : Except Fault (Parsed (List (TypeArg TypeRef)) (ts.length + 1)) := do
  match ← typeArg ts with
  | ⟨arg, t :: ts₁, h₁⟩ =>
    if t.isMark ',' then
      let ⟨args, rest, h⟩ ← typeArgList ts₁
      return ⟨arg :: args, rest, by simp only [List.length_cons] at h₁; omega⟩
    else if t.isMark '>' then return ⟨[arg], ts₁, by simp only [List.length_cons] at h₁; omega⟩
    else throw ⟨.missingMark .typeArgumentsEnd, some t⟩
  | ⟨_, [], _⟩ => throw ⟨.missingMark .typeArgumentsEnd, none⟩
termination_by 3 * ts.length + 2
decreasing_by all_goals (try simp only [List.length_cons] at *); omega

/-- A star or a type with its variance. -/
def typeArg : (ts : List Token) → Except Fault (Parsed (TypeArg TypeRef) ts.length)
  | t :: ts =>
    if t.isMark '*' then return .keep .star ts
    else do
      let ⟨variance, ts₁, h₁⟩ := takeVariance (t :: ts)
      let ⟨ty, rest, h⟩ ← typeRef ts₁
      return ⟨.type variance ty, rest, by simp only [List.length_cons] at h₁ ⊢; omega⟩
  | [] => throw ⟨.missingName .type, none⟩
termination_by ts => 3 * ts.length + 1
decreasing_by all_goals (try simp only [List.length_cons] at *); omega

end

end Counterpart.Kotlin
