/-
The imports of an output file: packages in the order of their first import, the symbols of each in sorted order
without repetition. The directives come out sorted, so they do not depend on the order of discovery.
-/
import Counterpart.Kotlin.Declaration

namespace Counterpart.Output

open Kotlin

/-- The packages whose names every Kotlin file sees without an import. -/
def defaultPackages : List String :=
  ["kotlin", "kotlin.annotation", "kotlin.collections", "kotlin.comparisons", "kotlin.io", "kotlin.jvm",
   "kotlin.ranges", "kotlin.sequences", "kotlin.text", "java.lang"]

def isDefaultPackage (package : String) : Bool :=
  defaultPackages.contains package

/-- Imported symbols by package. A symbol is a name, a name with an alias, or a star. -/
structure ImportSet where
  groups : List (String × List String)
deriving DecidableEq, Repr

namespace ImportSet

/-- No imports. -/
def empty : ImportSet := ⟨[]⟩

/-- A text put into a sorted list, unless it is there. -/
def insertSorted (s : String) : List String → List String
  | [] => [s]
  | t :: ts => if s < t then s :: t :: ts else if s = t then t :: ts else t :: insertSorted s ts

/-- A symbol put into the group of its package; a new group comes last. -/
def addToGroups (package symbol : String) : List (String × List String) → List (String × List String)
  | [] => [(package, [symbol])]
  | (p, symbols) :: groups =>
    if p = package then (p, insertSorted symbol symbols) :: groups
    else (p, symbols) :: addToGroups package symbol groups

def add (package symbol : String) (i : ImportSet) : ImportSet :=
  ⟨addToGroups package symbol i.groups⟩

/-- The package and the symbol that a directive imports. -/
def entryOf (i : Import) : String × String :=
  if i.star then (i.path, "*")
  else (Name.packageOf i.path, match i.localAlias with
    | some name => Name.shortName i.path ++ " as " ++ name
    | none => Name.shortName i.path)

/-- Adds what a directive imports. -/
def addImport (i : Import) (s : ImportSet) : ImportSet :=
  s.add (entryOf i).1 (entryOf i).2

/-- Adds a qualified name, unless a file of `package` sees it anyway. -/
def addReference (name package : String) (s : ImportSet) : ImportSet :=
  let p := Name.packageOf name
  if p.isEmpty || p == package || isDefaultPackage p then s else s.add p (Name.shortName name)

/-- The set `s` with everything that another one imports. -/
def merge (s other : ImportSet) : ImportSet :=
  other.groups.foldl (fun s g => g.2.foldl (fun s symbol => s.add g.1 symbol) s) s

def hasSymbol (package symbol : String) (s : ImportSet) : Bool :=
  s.groups.any fun g => g.1 == package && g.2.contains symbol

/-- The imports that `keep` admits; a package without any is dropped. -/
def retain (keep : String → String → Bool) (s : ImportSet) : ImportSet :=
  ⟨(s.groups.map fun g => (g.1, g.2.filter (keep g.1))).filter fun g => !g.2.isEmpty⟩

/-- The directives after their keyword, sorted. -/
def directives (s : ImportSet) : List String :=
  (s.groups.flatMap fun g => g.2.map (Name.inPackage g.1)).mergeSort fun a b => !(decide (b < a))

def isEmpty (s : ImportSet) : Bool := s.groups.isEmpty

/-- How many imports there are. -/
def size (s : ImportSet) : Nat :=
  (s.groups.flatMap (·.2)).length

end ImportSet

/-! ## Local names -/

/-- What follows the last occurrence of `needle`; the whole text when there is none. -/
def afterLast (needle : List Char) (cs : List Char) : List Char :=
  match Text.findIn needle.reverse cs.reverse with
  | some n => (cs.reverse.take n).reverse
  | none => cs

/-- The name that a symbol brings into scope: its alias or itself; a star brings none. -/
def localName? (symbol : String) : Option String :=
  if symbol = "*" then none else some (String.ofList (afterLast " as ".toList symbol.toList))

end Counterpart.Output
