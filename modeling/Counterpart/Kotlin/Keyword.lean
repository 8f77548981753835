/-
Kotlin's hard keywords. A name that is one of them is written between backticks; `safePath` does so segment
by segment.
-/
import Counterpart.Text.Name

namespace Counterpart.Kotlin

open Text

/-- The words that cannot be used as plain identifiers. -/
def reservedWords : List String :=
  ["as", "break", "class", "continue", "do", "else", "false", "for", "fun", "if", "in", "interface", "is", "null",
   "object", "package", "return", "super", "this", "throw", "true", "try", "typealias", "typeof", "val", "var",
   "when", "while"]

def isReserved (name : String) : Bool :=
  reservedWords.contains name

/-- The name, quoted when it is reserved. -/
def safeName (name : String) : String :=
  if isReserved name then "`" ++ name ++ "`" else name

/-- A dotted name with every reserved segment quoted. -/
def safePath (path : String) : String :=
  join "." ((split '.' path).map safeName)

end Counterpart.Kotlin
