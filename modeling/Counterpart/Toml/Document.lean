/-
Reading TOML documents. A document is a table: a line with a header opens a table inside it, any other line gives a
key of the open table a value. Inside brackets and braces lines do not count. Lists of tables are refused, and so is
what is nested too deeply.
-/
import Counterpart.Toml.Scalar
import Counterpart.Toml.Token
import Counterpart.Toml.Value

namespace Counterpart.Toml

open Text

/-- What was read, and the tokens left: fewer than `bound`. -/
structure Taken (α : Type) (bound : Nat) where
  value : α
  rest : List Token
  rest_lt : rest.length < bound

/-- How many brackets and braces may be open at a time, and how many parts a dotted key may have. -/
def maxDepth : Nat := 80

/-! ## Gaps -/

def isBlankToken (t : Token) : Bool := t == .mark ' ' || t == .mark '\t'

/-- Skips the blanks that come next. -/
def skipBlanks (ts : List Token) : Taken Unit (ts.length + 1) :=
  ⟨(), ts.dropWhile isBlankToken, Nat.lt_succ_of_le (List.dropWhile_suffix _).length_le⟩

/-- Skips the blanks and line breaks that come next. -/
def skipGap (ts : List Token) : Taken Unit (ts.length + 1) :=
  ⟨(), ts.dropWhile fun t => isBlankToken t || t == .newline, Nat.lt_succ_of_le (List.dropWhile_suffix _).length_le⟩

/-- Takes the mark `c`, if it comes next. -/
def takeMark (c : Char) : (ts : List Token) → Option (Taken Unit ts.length)
  | t :: ts => if t = .mark c then some ⟨(), ts, Nat.lt_succ_self _⟩ else none
  | [] => none

/-! ## Keys -/

/-- What a key without quotes consists of. -/
def isKeyChar (c : Char) : Bool := c.isAlphanum || c == '_' || c == '-'

/-- The key that a token can be. -/
def key? : Token → Option String
  | .atom text => if text.toList.all isKeyChar then some text else none
  | .quoted value => some value
  | _ => none

/-- The parts of a dotted key; blanks may stand around its dots and behind it. -/
def keyParts : (ts : List Token) → Option (Taken (List String) ts.length)
  | [] => none
  | t :: ts => do
    let part ← key? t
    let ⟨_, ts₁, h₁⟩ := skipBlanks ts
    match takeMark '.' ts₁ with
    | none => return ⟨[part], ts₁, h₁⟩
    | some ⟨_, ts₂, h₂⟩ =>
      let ⟨_, ts₃, h₃⟩ := skipBlanks ts₂
      let ⟨parts, rest, h⟩ ← keyParts ts₃
      return ⟨part :: parts, rest, by simp only [List.length_cons]; omega⟩
termination_by ts => ts.length
decreasing_by simp only [List.length_cons]; omega

/-- A dotted key. -/
def dottedKey (ts : List Token) : Option (Taken (List String) ts.length) :=
  (keyParts ts).filter fun k => k.value.length ≤ maxDepth

/-! ## Values -/

/-- Whether a token can belong to a value without quotes. -/
def isScalarPart : Token → Bool
  | .atom _ => true
  | t => t == .mark '.' || isBlankToken t

def scalarText : Token → List Char
  | .atom text => text.toList
  | .mark c => [c]
  | _ => []

/-- The value that a text without quotes stands for. -/
def scalarOf? (cs : List Char) : Option Value :=
  let text := String.ofList cs
  if text = "true" then some (.bool true)
  else if text = "false" then some (.bool false)
  else if isNumber cs || isDateTime cs then some (.scalar text)
  else none

/-- A boolean, a number or a date, given its first token. Blanks at its end do not belong to it. -/
def scalar (t : Token) (ts : List Token) : Option (Taken Value (ts.length + 1)) :=
  let text := (t :: ts.takeWhile isScalarPart).flatMap scalarText
  (scalarOf? (trimEnd (fun c => c == ' ' || c == '\t') text)).map fun v =>
    ⟨v, ts.dropWhile isScalarPart, Nat.lt_succ_of_le (List.dropWhile_suffix _).length_le⟩

/-- The value of a token that is a string. -/
def string? : Token → Option String
  | .quoted value | .block value => some value
  | _ => none

mutual

/-- A value inside which `room` brackets and braces may be open at a time. -/
def value (room : Nat) : (ts : List Token) → Option (Taken Value ts.length)
  | [] => none
  | t :: ts =>
    if let some s := string? t then some ⟨.string s, ts, Nat.lt_succ_self _⟩
    else if isScalarPart t then scalar t ts
    else match room with
      | 0 => none
      | room + 1 =>
        let ⟨_, ts₁, h₁⟩ := skipGap ts
        if t = .mark '[' then do
          let ⟨items, rest, h⟩ ← items room ts₁
          return ⟨.array items, rest, by simp only [List.length_cons]; omega⟩
        else if t = .mark '\x7b' then do
          let ⟨entries, rest, h⟩ ← fields room [] ts₁
          return ⟨.table .inline entries, rest, by simp only [List.length_cons]; omega⟩
        else none
termination_by ts => 2 * ts.length
decreasing_by all_goals (simp only [List.length_cons]; omega)

/-- The items of an array up to its closing bracket. -/
def items (room : Nat) (ts : List Token) : Option (Taken (List Value) ts.length) :=
  match takeMark ']' ts with
  | some ⟨_, rest, h⟩ => some ⟨[], rest, h⟩
  | none => do
    let ⟨item, ts₁, h₁⟩ ← value room ts
    match skipGap ts₁ with
    | ⟨_, [], _⟩ => none
    | ⟨_, t :: ts₂, h₂⟩ =>
      if t = .mark ']' then return ⟨[item], ts₂, by simp only [List.length_cons] at h₂; omega⟩
      else if t = .mark ',' then
        let ⟨_, ts₃, h₃⟩ := skipGap ts₂
        let ⟨more, rest, h⟩ ← items room ts₃
        return ⟨item :: more, rest, by simp only [List.length_cons] at h₂; omega⟩
      else none
termination_by 2 * ts.length + 1
decreasing_by
  · omega
  · simp only [List.length_cons] at h₂; omega

/-- The fields of an inline table up to its closing brace, behind those of `found`. -/
def fields (room : Nat) (found : Entries) (ts : List Token) : Option (Taken Entries ts.length) :=
  match takeMark '\x7d' ts with
  | some ⟨_, rest, h⟩ => some ⟨found, rest, h⟩
  | none => do
    let ⟨keys, ts₁, h₁⟩ ← dottedKey ts
    let ⟨_, ts₂, h₂⟩ := skipGap ts₁
    let ⟨_, ts₃, h₃⟩ ← takeMark '=' ts₂
    let ⟨_, ts₄, h₄⟩ := skipGap ts₃
    let ⟨v, ts₅, h₅⟩ ← value room ts₄
    let found ← found.insertAt keys v
    match skipGap ts₅ with
    | ⟨_, [], _⟩ => none
    | ⟨_, t :: ts₆, h₆⟩ =>
      if t = .mark '\x7d' then return ⟨found, ts₆, by simp only [List.length_cons] at h₆; omega⟩
      else if t = .mark ',' then
        let ⟨_, ts₇, h₇⟩ := skipGap ts₆
        let ⟨found, rest, h⟩ ← fields room found ts₇
        return ⟨found, rest, by simp only [List.length_cons] at h₆; omega⟩
      else none
termination_by 2 * ts.length + 1
decreasing_by
  · omega
  · simp only [List.length_cons] at h₆; omega

end

/-! ## Lines -/

/-- Takes the end of a line and the blanks before it. -/
def lineEnd (ts : List Token) : Option (Taken Unit (ts.length + 1)) :=
  match skipBlanks ts with
  | ⟨_, [], _⟩ => some ⟨(), [], Nat.succ_pos _⟩
  | ⟨_, t :: ts, h⟩ => if t = .newline then some ⟨(), ts, Nat.lt_of_succ_lt h⟩ else none

/-- The lines of a document, given the table that is open and all that was read. -/
def lines (opened : List String) (found : Entries) : (ts : List Token) → Option Entries
  | [] => some found
  | t :: ts =>
    if t = .newline || isBlankToken t then lines opened found ts
    else if t = .mark '[' then do
      let ⟨_, ts₁, _⟩ := skipBlanks ts
      let ⟨path, ts₂, _⟩ ← dottedKey ts₁
      let ⟨_, ts₃, _⟩ ← takeMark ']' ts₂
      let found ← found.openTable path
      let ⟨_, ts₄, _⟩ ← lineEnd ts₃
      lines path found ts₄
    else do
      let ⟨keys, ts₁, _⟩ ← dottedKey (t :: ts)
      let ⟨_, ts₂, _⟩ ← takeMark '=' ts₁
      let ⟨_, ts₃, _⟩ := skipBlanks ts₂
      let ⟨v, ts₄, _⟩ ← value maxDepth ts₃
      let found ← found.updateTable (·.insertAt keys v) opened
      let ⟨_, ts₅, _⟩ ← lineEnd ts₄
      lines opened found ts₅
termination_by ts => ts.length
decreasing_by all_goals (simp only [List.length_cons] at *; omega)

/-- The table that a document stands for; none when it is no TOML. -/
def read (s : String) : Option Entries := (tokensOf s).bind (lines [] [])

end Counterpart.Toml
