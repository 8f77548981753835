/-
Cutting a source into tokens. A gap is measured by `gapLength`, a literal by `literalLength`, each a machine
over the characters; `TokenStream.ofSource` alternates between the two.
-/
import Counterpart.Kotlin.Token

namespace Counterpart.Kotlin

open Text

namespace Lexer

/-- The error for something opened at `offset` and never closed. -/
def unterminated (what : Delimited) (offset : Nat) : SyntaxError :=
  ⟨.unterminated what, ⟨offset, what.openingSize⟩⟩

/-! ## Gaps -/

/-- Where in a gap the reader is. -/
inductive GapState
  | between
  | lineComment
  /-- In a block comment opened at an offset, with so many more comments open inside it. -/
  | blockComment (opened : Nat) (inner : Nat)
deriving DecidableEq, Repr

/-- How many characters the gap at the start of the text has. `pos` is the byte offset of that start. -/
def gapLength : GapState → Nat → List Char → Except SyntaxError Nat
  | .blockComment opened _, _, [] => .error (unterminated .blockComment opened)
  | _, _, [] => .ok 0
  | .between, pos, '/' :: '/' :: cs => (· + 2) <$> gapLength .lineComment (pos + 2) cs
  | .between, pos, '/' :: '*' :: cs => (· + 2) <$> gapLength (.blockComment pos 0) (pos + 2) cs
  | .between, pos, c :: cs =>
    if isBlank c then (· + 1) <$> gapLength .between (pos + c.utf8Size) cs else .ok 0
  | .lineComment, pos, '\n' :: cs => (· + 1) <$> gapLength .between (pos + 1) cs
  | .lineComment, pos, c :: cs => (· + 1) <$> gapLength .lineComment (pos + c.utf8Size) cs
  | .blockComment opened inner, pos, '/' :: '*' :: cs =>
    (· + 2) <$> gapLength (.blockComment opened (inner + 1)) (pos + 2) cs
  | .blockComment _ 0, pos, '*' :: '/' :: cs => (· + 2) <$> gapLength .between (pos + 2) cs
  | .blockComment opened (inner + 1), pos, '*' :: '/' :: cs =>
    (· + 2) <$> gapLength (.blockComment opened inner) (pos + 2) cs
  | .blockComment opened inner, pos, c :: cs =>
    (· + 1) <$> gapLength (.blockComment opened inner) (pos + c.utf8Size) cs

/-! ## Literals -/

/-- A literal, or a part of one, that is still open, with the offset of its opening mark. -/
inductive OpenPart
  | string (opened : Nat)
  | rawString (opened : Nat)
  /-- A template in a string, with so many more braces open inside it. -/
  | template (opened : Nat) (inner : Nat)
  | character (opened : Nat)
deriving DecidableEq, Repr

/-- How many characters it takes to close all the open parts, innermost first. A raw string ends at the last
three quotes of a run. -/
def literalLength : List OpenPart → Nat → List Char → Except SyntaxError Nat
  | [], _, _ => .ok 0
  | .string opened :: _, _, [] => .error (unterminated .string opened)
  | .string opened :: _, _, '\n' :: _ => .error (unterminated .string opened)
  | .string _ :: up, pos, '"' :: cs => (· + 1) <$> literalLength up (pos + 1) cs
  | .string opened :: _, _, ['\\'] => .error (unterminated .string opened)
  | .string opened :: up, pos, '\\' :: c :: cs =>
    (· + 2) <$> literalLength (.string opened :: up) (pos + 1 + c.utf8Size) cs
  | .string opened :: up, pos, '$' :: '\x7b' :: cs =>
    (· + 2) <$> literalLength (.template pos 0 :: .string opened :: up) (pos + 2) cs
  | .string opened :: up, pos, c :: cs =>
    (· + 1) <$> literalLength (.string opened :: up) (pos + c.utf8Size) cs
  | .rawString opened :: _, _, [] => .error (unterminated .rawString opened)
  | .rawString opened :: up, pos, '"' :: '"' :: '"' :: '"' :: cs =>
    (· + 1) <$> literalLength (.rawString opened :: up) (pos + 1) ('"' :: '"' :: '"' :: cs)
  | .rawString _ :: up, pos, '"' :: '"' :: '"' :: cs => (· + 3) <$> literalLength up (pos + 3) cs
  | .rawString opened :: up, pos, '$' :: '\x7b' :: cs =>
    (· + 2) <$> literalLength (.template pos 0 :: .rawString opened :: up) (pos + 2) cs
  | .rawString opened :: up, pos, c :: cs =>
    (· + 1) <$> literalLength (.rawString opened :: up) (pos + c.utf8Size) cs
  | .template opened _ :: _, _, [] => .error (unterminated .template opened)
  | .template opened inner :: up, pos, '\x7b' :: cs =>
    (· + 1) <$> literalLength (.template opened (inner + 1) :: up) (pos + 1) cs
  | .template _ 0 :: up, pos, '\x7d' :: cs => (· + 1) <$> literalLength up (pos + 1) cs
  | .template opened (inner + 1) :: up, pos, '\x7d' :: cs =>
    (· + 1) <$> literalLength (.template opened inner :: up) (pos + 1) cs
  | .template opened inner :: up, pos, '"' :: '"' :: '"' :: cs =>
    (· + 3) <$> literalLength (.rawString pos :: .template opened inner :: up) (pos + 3) cs
  | .template opened inner :: up, pos, '"' :: cs =>
    (· + 1) <$> literalLength (.string pos :: .template opened inner :: up) (pos + 1) cs
  | .template opened inner :: up, pos, '\'' :: cs =>
    (· + 1) <$> literalLength (.character pos :: .template opened inner :: up) (pos + 1) cs
  | .template opened inner :: up, pos, c :: cs =>
    (· + 1) <$> literalLength (.template opened inner :: up) (pos + c.utf8Size) cs
  | .character opened :: _, _, [] => .error (unterminated .character opened)
  | .character opened :: _, _, '\n' :: _ => .error (unterminated .character opened)
  | .character _ :: up, pos, '\'' :: cs => (· + 1) <$> literalLength up (pos + 1) cs
  | .character opened :: _, _, ['\\'] => .error (unterminated .character opened)
  | .character opened :: up, pos, '\\' :: c :: cs =>
    (· + 2) <$> literalLength (.character opened :: up) (pos + 1 + c.utf8Size) cs
  | .character opened :: up, pos, c :: cs =>
    (· + 1) <$> literalLength (.character opened :: up) (pos + c.utf8Size) cs

/-- How many characters a quoted identifier opened at `opened` still has. -/
def quotedNameLength (opened : Nat) : List Char → Except SyntaxError Nat
  | [] => .error (unterminated .quotedName opened)
  | '\n' :: _ => .error (unterminated .quotedName opened)
  | '\x60' :: _ => .ok 1
  | _ :: cs => (· + 1) <$> quotedNameLength opened cs

/-- How many more characters a number has. A dot belongs to it when an ASCII digit follows. -/
def numberLength : List Char → Nat
  | [] => 0
  | '.' :: d :: cs => if d.isDigit then numberLength (d :: cs) + 1 else 0
  | c :: cs => if isNameChar c then numberLength cs + 1 else 0

/-- The kind of the token that starts with `c` at the offset `pos`, and how many of the characters that
follow belong to it. -/
def lexeme (pos : Nat) (c : Char) (cs : List Char) : Except SyntaxError (TokenKind × Nat) :=
  if c == '"' then
    match cs with
    | '"' :: '"' :: cs => (fun n => (.string, n + 2)) <$> literalLength [.rawString pos] (pos + 3) cs
    | _ => (.string, ·) <$> literalLength [.string pos] (pos + 1) cs
  else if c == '\'' then (.character, ·) <$> literalLength [.character pos] (pos + 1) cs
  else if c == '\x60' then (.name, ·) <$> quotedNameLength pos cs
  else if c.isDigit then .ok (.number, numberLength cs)
  else if isNameStart c then .ok (.name, (cs.takeWhile isNameChar).length)
  else if c == '-' && cs.head? == some '>' then .ok (.arrow, 1)
  else .ok (.mark c, 0)

/-! ## Sources -/

/-- The tokens of a text that starts at the byte offset `pos`, with the gap before the first token in the
given state. -/
def tokens (state : GapState) (pos : Nat) (cs : List Char) : Except SyntaxError (List Token × String) := do
  let n ← gapLength state pos cs
  let gap := cs.take n
  match _h : cs.drop n with
  | [] => return ([], String.ofList gap)
  | c :: rest =>
    let start := pos + byteSize gap
    let (kind, m) ← lexeme start c rest
    let text := c :: rest.take m
    let (ts, tail) ← tokens .between (start + byteSize text) (rest.drop m)
    return (⟨kind, String.ofList text, String.ofList gap, start⟩ :: ts, tail)
termination_by cs.length
decreasing_by
  have h := congrArg List.length _h
  simp only [List.length_drop, List.length_cons] at h ⊢
  omega

end Lexer

/-- The tokens of a source. A first line that starts with a hash and an exclamation mark is part of the gap. -/
def TokenStream.ofSource (source : String) : Except SyntaxError TokenStream := do
  let cs := source.toList
  let state := if ['#', '!'].isPrefixOf cs then Lexer.GapState.lineComment else .between
  let (tokens, tail) ← Lexer.tokens state 0 cs
  return ⟨tokens, tail, source.utf8ByteSize⟩

end Counterpart.Kotlin
