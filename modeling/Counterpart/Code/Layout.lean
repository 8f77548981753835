/-
Code as lines with indentation. A fragment is rendered at a level, so a piece of code does not know how deep it
will stand; `Buffer` collects fragments and single lines into a text. `Listing` is a list in parentheses, which is
written on one line where that line is short enough.
-/
import Counterpart.Text.Split

namespace Counterpart.Code

open Text

/-! ## Fragments -/

/-- What a line is indented with for each level. -/
inductive Indent
  | spaces (width : Nat)
  | tab
deriving DecidableEq, Repr

/-- The text of one level. Widths other than two, four and eight count as four. -/
def Indent.text : Indent → String
  | spaces 2 => "  "
  | spaces 8 => "        "
  | spaces _ => "    "
  | tab => "\t"

/-- The indentation of generated files. -/
def Indent.standard : Indent := .spaces 4

/-- A piece of code. -/
inductive Fragment
  | line (text : String)
  | blank
  /-- Fragments one level deeper. -/
  | indented (inner : List Fragment)
  | sequence (inner : List Fragment)

/-- A line at a level; an empty one is not indented. -/
def lineText (i : Indent) (level : Nat) (text : String) : String :=
  if text.isEmpty then "\n" else String.join (List.replicate level i.text) ++ text ++ "\n"

namespace Fragment

/-- Lines that are formatted already. -/
def lines (texts : List String) : Fragment := .sequence (texts.map .line)

mutual

def render (i : Indent) (level : Nat) : Fragment → String
  | line text => lineText i level text
  | blank => "\n"
  | indented inner => renderAll i (level + 1) inner
  | sequence inner => renderAll i level inner

def renderAll (i : Indent) (level : Nat) : List Fragment → String
  | [] => ""
  | f :: fs => f.render i level ++ renderAll i level fs

end

/-- Lists of fragments with a blank line between each two. -/
def separated : List (List Fragment) → List Fragment
  | [] => []
  | [fs] => fs
  | fs :: rest => fs ++ blank :: separated rest

end Fragment

/-! ## Buffers -/

/-- Code in the making. -/
structure Buffer where
  indent : Indent
  level : Nat
  text : String
deriving DecidableEq, Repr

namespace Buffer

def ofIndent (i : Indent) : Buffer := ⟨i, 0, ""⟩

/-- Appends a text as it is. -/
def raw (b : Buffer) (s : String) : Buffer := { b with text := b.text ++ s }

def line (b : Buffer) (s : String) : Buffer := b.raw (lineText b.indent b.level s)

def blank (b : Buffer) : Buffer := b.raw "\n"

/-- Goes one level deeper. -/
def deeper (b : Buffer) : Buffer := { b with level := b.level + 1 }

/-- Goes back one level, if there is one. -/
def back (b : Buffer) : Buffer := { b with level := b.level - 1 }

def fragment (b : Buffer) (f : Fragment) : Buffer := b.raw (f.render b.indent b.level)

def fragments (b : Buffer) (fs : List Fragment) : Buffer := fs.foldl fragment b

end Buffer

/-! ## Lists in parentheses -/

/-- The longest line that a list is written on, in bytes. -/
def maxWidth : Nat := 100

/-- A list in parentheses between two texts. Each item is given as its lines. -/
structure Listing where
  before : String
  items : List (List String)
  after : String

namespace Listing

/-- The list on one line. -/
def flat (l : Listing) : String :=
  l.before ++ "(" ++ join ", " (l.items.map String.join) ++ ")" ++ l.after

/-- The lines of an item with a comma behind the last. -/
def withComma : List String → List String
  | [] => []
  | [last] => [last ++ ","]
  | line :: lines => line :: withComma lines

/-- The list with each item on lines of its own. -/
def broken (l : Listing) : List Fragment :=
  [.line (l.before ++ "("), .indented [.lines (l.items.flatMap withComma)], .line (")" ++ l.after)]

/-- Whether the list is written on one line. -/
def fits (l : Listing) : Bool :=
  l.items.isEmpty || (l.items.all (·.length ≤ 1) && l.flat.utf8ByteSize ≤ maxWidth)

def fragments (l : Listing) : List Fragment :=
  if l.fits then [.line l.flat] else l.broken

end Listing

end Counterpart.Code
