/-
Names: identifiers and dotted names. A dotted name is its package, a dot and its last segment.
-/
import Counterpart.Text.Split

namespace Counterpart.Name

open Text

/-- The longest identifier taken over from user input, in characters. -/
def maxLength : Nat := 252

/-- The letters, digits, underscores and dollar signs of a text, at most `maxLength` of them. -/
def keepIdentifier (s : String) : String :=
  String.ofList ((s.toList.filter fun c => isNameChar c || c == '$').take maxLength)

/-- Whether a text is an identifier that needs no quotes. -/
def isPlain (s : String) : Bool :=
  match s.toList with
  | [] => false
  | c :: cs => isNameStart c && cs.all isNameChar

/-- The last segment of a dotted name. -/
def shortName (s : String) : String :=
  String.ofList (s.toList.reverse.takeWhile (· != '.')).reverse

/-- A dotted name without its last segment; empty when there is but one. -/
def packageOf (s : String) : String :=
  String.ofList ((s.toList.reverse.dropWhile (· != '.')).drop 1).reverse

/-- The name between backticks; any other text stays. -/
def unquote (s : String) : String :=
  match s.toList with
  | '\x60' :: cs => if cs.getLast? = some '\x60' then String.ofList cs.dropLast else s
  | _ => s

/-- `name` inside the package `package`; the empty package adds nothing. -/
def inPackage (package name : String) : String :=
  if package.isEmpty then name else package ++ "." ++ name

end Counterpart.Name
