/-
JSON values and their text. The text has every element and every field on a line of its own, two spaces deeper
than what holds it; fields keep their order.
-/
import Counterpart.Text.Split

namespace Counterpart.Json

open Text

inductive Value
  | null
  | bool (b : Bool)
  | number (n : Nat)
  | string (s : String)
  | array (items : List Value)
  | object (fields : List (String × Value))

namespace Value

/-- The value, or null. -/
def ofOption {α : Type} (f : α → Value) : Option α → Value
  | some a => f a
  | none => null

def strings (ss : List String) : Value := array (ss.map string)

/-! ## Text -/

/-- A hexadecimal digit. -/
def hexDigit (n : Nat) : Char :=
  if n < 10 then Char.ofNat (48 + n) else Char.ofNat (87 + n)

/-- A character inside a string. Quotes, backslashes and control characters are escaped. -/
def escapeChar (c : Char) : List Char :=
  if c = '"' then ['\\', '"']
  else if c = '\\' then ['\\', '\\']
  else if c = '\n' then ['\\', 'n']
  else if c = '\r' then ['\\', 'r']
  else if c = '\t' then ['\\', 't']
  else if c = '\x08' then ['\\', 'b']
  else if c = '\x0c' then ['\\', 'f']
  else if c.toNat < 32 then ['\\', 'u', '0', '0', hexDigit (c.toNat / 16), hexDigit (c.toNat % 16)]
  else [c]

def quote (s : String) : String :=
  "\"" ++ String.ofList (s.toList.flatMap escapeChar) ++ "\""

/-- A line break and the indentation of a level. -/
def newline (level : Nat) : String :=
  "\n" ++ String.ofList (List.replicate (2 * level) ' ')

/-- Items between brackets, each on its own line. -/
def bracket (level : Nat) (opening closing : String) (items : List String) : String :=
  if items.isEmpty then opening ++ closing
  else opening ++ newline (level + 1) ++ join ("," ++ newline (level + 1)) items ++ newline level ++ closing

mutual

/-- The text of a value that stands at a level. -/
def textAt (level : Nat) : Value → String
  | null => "null"
  | bool b => if b then "true" else "false"
  | number n => toString n
  | string s => quote s
  | array items => bracket level "[" "]" (itemTexts (level + 1) items)
  | object fields => bracket level "\x7b" "\x7d" (fieldTexts (level + 1) fields)

def itemTexts (level : Nat) : List Value → List String
  | [] => []
  | v :: vs => textAt level v :: itemTexts level vs

def fieldTexts (level : Nat) : List (String × Value) → List String
  | [] => []
  | f :: fs => fieldText level f :: fieldTexts level fs

def fieldText (level : Nat) : String × Value → String
  | (key, v) => quote key ++ ": " ++ textAt level v

end

def text (v : Value) : String := textAt 0 v

end Value

end Counterpart.Json
