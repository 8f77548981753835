/-
File paths. A path is its text; two texts name the same place when they have the same parts, so empty parts and
dots count for nothing except a dot at the start. `Path.parent?` and `Path.join` keep the text as it was written.
-/
import Counterpart.Text.Split

namespace Counterpart

open Text

structure Path where
  text : String
deriving DecidableEq, Inhabited, Repr

/-- A part of a path. -/
inductive PathPart
  | root
  | current
  | parent
  | normal (name : String)
deriving DecidableEq, Repr

namespace PathPart

/-- The part that a stretch between slashes stands for; an empty stretch and a dot stand for none. -/
def ofPiece? (piece : String) : Option PathPart :=
  if piece = "" || piece = "." then none else if piece = ".." then some .parent else some (.normal piece)

/-- The place of a part among the kinds of parts. -/
def rank : PathPart → Nat
  | root => 0
  | current => 1
  | parent => 2
  | normal _ => 3

def lt : PathPart → PathPart → Bool
  | normal a, normal b => a < b
  | a, b => a.rank < b.rank

/-- The order of lists of parts, first difference first. -/
def listLt : List PathPart → List PathPart → Bool
  | _, [] => false
  | [], _ :: _ => true
  | a :: as, b :: bs => a.lt b || (a == b && listLt as bs)

end PathPart

namespace Path

def pieces (p : Path) : List String := split '/' p.text

def isAbsolute (p : Path) : Bool := p.text.startsWith "/"

/-- The parts of a path in order. -/
def parts (p : Path) : List PathPart :=
  let found := p.pieces.filterMap PathPart.ofPiece?
  if p.isAbsolute then .root :: found
  else if p.pieces.head? = some "." then .current :: found
  else found

/-- Whether two paths name the same place. -/
def same (p q : Path) : Bool := p.parts == q.parts

/-- The order by parts. -/
def lt (p q : Path) : Bool := PathPart.listLt p.parts q.parts

/-! ## Parent and child -/

/-- Pieces, last one first, from the last one that stands for a part. -/
def dropFiller (pieces : List String) : List String :=
  pieces.dropWhile fun piece => (PathPart.ofPiece? piece).isNone

/-- The pieces before the last one that stands for a part, last one first; none when none does. -/
def beforeLast? (pieces : List String) : Option (List String) :=
  match dropFiller pieces.reverse with
  | [] => none
  | _ :: before => some (dropFiller before)

/-- The path without its last part; the root and the empty path have none. -/
def parent? (p : Path) : Option Path :=
  match p.pieces with
  | "" :: piece :: rest =>
    (beforeLast? (piece :: rest)).map fun before => ⟨"/" ++ Text.join "/" before.reverse⟩
  | "." :: rest =>
    match beforeLast? rest with
    | some before => some ⟨Text.join "/" ("." :: before.reverse)⟩
    | none => some ⟨""⟩
  | pieces => (beforeLast? pieces).map fun before => ⟨Text.join "/" before.reverse⟩

/-- The directory of a file; empty when the path names none. -/
def dir (p : Path) : Path := p.parent?.getD ⟨""⟩

/-- The path and at most `n - 1` of those around it, innermost first; the empty path counts for nothing. -/
def ancestorsUpTo : Nat → Path → List Path
  | 0, _ => []
  | n + 1, p =>
    if p.text = "" then []
    else p :: match p.parent? with
      | some q => ancestorsUpTo n q
      | none => []

/-- The path and those around it, innermost first. -/
def ancestors (p : Path) : List Path := ancestorsUpTo p.pieces.length p

/-- `q` as seen from the directory `p`. -/
def join (p q : Path) : Path :=
  if q.isAbsolute || p.text = "" then q
  else if p.text.endsWith "/" then ⟨p.text ++ q.text⟩
  else ⟨p.text ++ "/" ++ q.text⟩

/-! ## File names -/

/-- The last part, when it is a name. -/
def fileName? (p : Path) : Option String :=
  match p.parts.getLast? with
  | some (.normal name) => some name
  | _ => none

/-- A file name cut at its last dot; one that starts with its only dot has no extension. -/
def cutExtension (name : String) : String × Option String :=
  let after := name.toList.reverse.takeWhile (· != '.')
  match name.toList.reverse.dropWhile (· != '.') with
  | [] => (name, none)
  | [_] => (name, none)
  | _ :: before => (String.ofList before.reverse, some (String.ofList after.reverse))

/-- The file name without its extension. -/
def stem (p : Path) : String :=
  match p.fileName? with
  | some name => (cutExtension name).1
  | none => ""

/-- The part of the file name after its last dot. -/
def extension? (p : Path) : Option String :=
  p.fileName?.bind fun name => (cutExtension name).2

end Path

end Counterpart
