/-
Tokens. A token keeps the text it stands for and the gap before it, the blanks and comments that carry no
meaning; so a source is its tokens written out, and the verbatim text of any run of tokens can be read off them.
-/
import Counterpart.Text.Split
import Counterpart.Kotlin.SyntaxError

namespace Counterpart.Kotlin

open Text

/-- The classes of tokens. -/
inductive TokenKind
  /-- An identifier or a keyword; a quoted identifier keeps its backticks. -/
  | name
  /-- A string literal with its templates. -/
  | string
  | character
  | number
  /-- The mark of function types. -/
  | arrow
  /-- Any other character. -/
  | mark (c : Char)
deriving DecidableEq, Repr

structure Token where
  kind : TokenKind
  text : String
  /-- The blanks and comments between the token before and this one. -/
  gap : String
  /-- The offset of the first byte of `text`. -/
  start : Nat
deriving DecidableEq, Repr

namespace Token

/-- The offset after the last byte. -/
def stop (t : Token) : Nat := t.start + t.text.utf8ByteSize

def span (t : Token) : Span := ⟨t.start, t.text.utf8ByteSize⟩

def isMark (c : Char) (t : Token) : Bool := t.kind == .mark c

def isName (t : Token) : Bool := t.kind == .name

/-- Whether the token is this keyword, or an identifier of this text. -/
def isWord (word : String) (t : Token) : Bool := t.isName && t.text == word

/-- Whether nothing separates the token from the one before. -/
def isAdjacent (t : Token) : Bool := t.gap.isEmpty

/-- The bracket that closes the group which the token opens. -/
def closer? (t : Token) : Option Char :=
  match t.kind with
  | .mark '(' => some ')'
  | .mark '[' => some ']'
  | .mark '\x7b' => some '\x7d'
  | _ => none

/-- The bracket that the token is, when it closes a group. -/
def closing? (t : Token) : Option Char :=
  match t.kind with
  | .mark ')' => some ')'
  | .mark ']' => some ']'
  | .mark '\x7d' => some '\x7d'
  | _ => none

/-- Tokens as they stand in the source, without the gap before the first. -/
def verbatim : List Token → String
  | [] => ""
  | t :: ts => t.text ++ String.join (ts.map fun u => u.gap ++ u.text)

end Token

/-- A source cut into tokens. -/
structure TokenStream where
  tokens : List Token
  /-- The blanks and comments after the last token. -/
  tail : String
  /-- The size of the source in bytes. -/
  size : Nat
deriving DecidableEq, Repr

/-- The source of a token stream. -/
def TokenStream.source (s : TokenStream) : String :=
  String.join (s.tokens.map fun t => t.gap ++ t.text) ++ s.tail

end Counterpart.Kotlin
