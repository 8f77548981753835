/-
TOML cut into tokens. Comments are dropped and strings decoded; blanks are kept one by one, since a value without
quotes must not be torn apart by them.
-/
import Counterpart.Toml.Quoted

namespace Counterpart.Toml

inductive Token
  | newline
  /-- A run of characters that are no marks: a key, or a part of a value without quotes. -/
  | atom (text : String)
  /-- A string on one line. -/
  | quoted (value : String)
  /-- A string between triple quotes. -/
  | block (value : String)
  /-- A blank, or a mark between keys and values. -/
  | mark (c : Char)
deriving DecidableEq, Repr

def marks : List Char := [' ', '\t', '.', ',', '=', '[', ']', '\x7b', '\x7d']

/-- What an atom goes on with; quotes count only at the start of a token. -/
def isAtomChar (c : Char) : Bool := !marks.contains c && c != '#' && c != '\r' && c != '\n'

/-- Whether a comment holds nothing that is forbidden; it may end with the first half of a line break. -/
def isComment (comment rest : List Char) : Bool :=
  let text := if rest.isEmpty || comment.getLast? != some '\r' then comment else comment.dropLast
  text.all isPrintable

theorem length_dropWhile_lt (p : Char → Bool) (c : Char) (cs : List Char) :
    (cs.dropWhile p).length < (c :: cs).length :=
  Nat.lt_succ_of_le (List.dropWhile_suffix p).length_le

/-- The tokens of a document; none when something in it is no token. -/
def tokens : List Char → Option (List Token)
  | [] => some []
  | '\r' :: '\n' :: cs => (tokens cs).map (Token.newline :: ·)
  | c :: cs =>
    if c ∈ marks then (tokens cs).map (Token.mark c :: ·)
    else if c = '\n' then (tokens cs).map (Token.newline :: ·)
    else if c = '#' then
      let rest := cs.dropWhile (· != '\n')
      if isComment (cs.takeWhile (· != '\n')) rest then tokens rest else none
    else if c = '"' ∨ c = '\'' then
      match _ : stringAfter c cs with
      | none => none
      | some (isBlock, raw, rest) => do
        let value ← decode c raw
        return (if isBlock then Token.block value else .quoted value) :: (← tokens rest)
    else if isAtomChar c then
      (tokens (cs.dropWhile isAtomChar)).map (Token.atom (String.ofList (c :: cs.takeWhile isAtomChar)) :: ·)
    else none
termination_by cs => cs.length
decreasing_by
  · simp only [List.length_cons]; omega
  · exact Nat.lt_succ_self _
  · exact Nat.lt_succ_self _
  · exact length_dropWhile_lt _ _ _
  · exact stringAfter_length ‹_›
  · exact length_dropWhile_lt _ _ _

/-- The tokens of a text, without the mark of byte order that may stand at its start. -/
def tokensOf (s : String) : Option (List Token) :=
  match s.toList with
  | '\ufeff' :: cs => tokens cs
  | cs => tokens cs

end Counterpart.Toml
