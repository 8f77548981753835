/-
What can be wrong with a Kotlin source. A fault is a cause and the place where it shows; `Cause.message` and
`Cause.help` hold every wording.
-/
import Counterpart.Text.Span

namespace Counterpart.Kotlin

open Text

/-- The parts of a source that have an opening and a closing mark. -/
inductive Delimited
  | blockComment
  | string
  | rawString
  | template
  | character
  | quotedName
deriving DecidableEq, Repr

/-- The size of the opening mark in bytes. -/
def Delimited.openingSize : Delimited → Nat
  | .blockComment => 2
  | .string => 1
  | .rawString => 3
  | .template => 2
  | .character => 1
  | .quotedName => 1

def Delimited.describe : Delimited → String
  | .blockComment => "block comment"
  | .string => "string literal"
  | .rawString => "raw string literal"
  | .template => "string template"
  | .character => "character literal"
  | .quotedName => "quoted identifier"

/-- The places of the grammar where a name must stand. -/
inductive NameRole
  | package
  | importPath
  | importAlias
  | annotationName
  | parameter
  | type
deriving DecidableEq, Repr

def NameRole.describe : NameRole → String
  | .package => "package name"
  | .importPath => "import path"
  | .importAlias => "import alias"
  | .annotationName => "annotation name"
  | .parameter => "parameter name"
  | .type => "type name"

/-- The places of the grammar where a certain mark must stand. -/
inductive MarkRole
  /-- The parenthesis that closes the constructor parameters. -/
  | parametersEnd
  /-- The colon between a parameter and its type. -/
  | parameterType
  /-- The angle bracket that closes a list of type arguments. -/
  | typeArgumentsEnd
deriving DecidableEq, Repr

def MarkRole.mark : MarkRole → Char
  | .parametersEnd => ')'
  | .parameterType => ':'
  | .typeArgumentsEnd => '>'

def MarkRole.hint : MarkRole → String
  | .parametersEnd => "separate constructor parameters with ','"
  | .parameterType => "constructor parameters need a declared type"
  | .typeArgumentsEnd => "close the type argument list with '>'"

/-- The reasons to refuse a source. -/
inductive Cause
  /-- The source, or the line where that matters, ends before the closing mark. -/
  | unterminated (what : Delimited)
  | missingMark (role : MarkRole)
  | missingName (role : NameRole)
  /-- A closing bracket where nothing is open. -/
  | unexpected (mark : Char)
  /-- A closing bracket of another kind than the innermost open one. -/
  | mismatched (found expected : Char)
  | unclosed (opener : String)
  | unclosedBody (className : String)
  | namelessClass (keyword : String)
  | missingEnumEntry
deriving DecidableEq, Repr

namespace Cause

def message : Cause → String
  | unterminated what => "unterminated " ++ what.describe
  | missingMark role => "expected '" ++ role.mark.toString ++ "'"
  | missingName role => "expected " ++ role.describe
  | unexpected mark => "unexpected '" ++ mark.toString ++ "'"
  | mismatched found _ => "mismatched '" ++ found.toString ++ "'"
  | unclosed opener => "unclosed '" ++ opener ++ "'"
  | unclosedBody className => "unclosed body of '" ++ className ++ "'"
  | namelessClass keyword => "expected a name after '" ++ keyword ++ "'"
  | missingEnumEntry => "expected an enum entry"

/-- A hint how to mend the source, for some of the causes. -/
def help : Cause → Option String
  | unterminated .string => some "close the string with '\"' on the same line, or use a raw string (\"\"\")"
  | missingMark role => some role.hint
  | mismatched _ expected => some ("expected '" ++ expected.toString ++ "' to close the group opened here")
  | namelessClass _ => some "class declarations need a name"
  | _ => none

end Cause

/-- Why a source is refused, and the stretch of it that shows why. -/
structure SyntaxError where
  cause : Cause
  span : Span
deriving DecidableEq, Repr

end Counterpart.Kotlin
