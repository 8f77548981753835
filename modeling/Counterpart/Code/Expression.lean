/-
Conversions as expressions. A conversion first becomes a term, in which the lambdas and their parameters are
visible: at the outermost level a lambda over elements uses `it`, further in `it1`, `it2` and so on, and entries and
pairs are taken apart into names with the same numbers, so no parameter hides another one. `Term.text` writes the
term out.
-/
import Counterpart.Output.Function
import Counterpart.Text.Split

namespace Counterpart.Code

open Output Text

/-! ## Terms -/

/-- The parameters of a lambda. -/
inductive Params
  /-- The implicit parameter `it`. -/
  | implicit
  | one (name : String)
  /-- A value taken apart into two. -/
  | two (first second : String)
deriving DecidableEq, Repr

/-- The names that a lambda binds. -/
def Params.names : Params → List String
  | implicit => ["it"]
  | one name => [name]
  | two first second => [first, second]

/-- What stands in a lambda before its body. -/
def Params.text : Params → String
  | implicit => ""
  | one name => name ++ " -> "
  | two first second => "(" ++ first ++ ", " ++ second ++ ") -> "

/-- An expression that converts a value. -/
inductive Term
  /-- A name, or a text given as it is. -/
  | value (text : String)
  /-- A member access, null-safe or not. -/
  | member (receiver : Term) (safe : Bool) (name : String)
  /-- A member function applied to a lambda. -/
  | lambda (receiver : Term) (safe : Bool) (callee : String) (params : Params) (body : Term)
  | pair (first second : Term)
  /-- A branch for each arm, and perhaps one for null. -/
  | branches (subject : Term) (arms : List Arm) (nullArm : Bool)
deriving DecidableEq, Repr

/-- The access operator. -/
def dot (safe : Bool) : String :=
  if safe then "?." else "."

/-- A branch of a `when`. -/
def branch (a : Arm) : String := a.source ++ " -> " ++ a.target

/-- The branch that keeps null. -/
def nullBranch (present : Bool) : List String :=
  if present then ["null -> null"] else []

def Term.text : Term → String
  | value text => text
  | member receiver safe name => receiver.text ++ dot safe ++ name
  | lambda receiver safe callee params body =>
    receiver.text ++ dot safe ++ callee ++ " \x7b " ++ params.text ++ body.text ++ " \x7d"
  | pair first second => first.text ++ " to " ++ second.text
  | branches subject arms nullArm =>
    "when (" ++ subject.text ++ ") \x7b " ++ join "; " (arms.map branch ++ nullBranch nullArm) ++ " \x7d"

/-! ## Conversions -/

/-- The expression for what nobody can generate. -/
def placeholder : String := "TODO(\"Implement manually\")"

/-- A parameter name at a depth of lambdas. -/
def nameAt (base : String) (depth : Nat) : String :=
  if depth = 0 then base else base ++ toString depth

/-- The parameter of a lambda over elements. -/
def elementParams (depth : Nat) : Params :=
  if depth = 0 then .implicit else .one (nameAt "it" depth)

/-- The term that converts `v` inside `depth` lambdas. -/
def termOf (v : String) (nullable : Bool) (depth : Nat) : Conversion → Term
  | .identity => .value v
  | .placeholder => .value placeholder
  | .mapper function => .member (.value v) nullable (function ++ "()")
  | .enumWhen arms => .branches (.value v) arms nullable
  | .collection element elementNullable collect =>
    let elements := Term.lambda (.value v) nullable "map" (elementParams depth)
      (termOf (nameAt "it" depth) elementNullable (depth + 1) element)
    match collect with
    | some call => .member elements nullable call
    | none => elements
  | .map builder key keyNullable value valueNullable =>
    let k := nameAt "key" depth
    let w := nameAt "value" depth
    .lambda (.member (.value v) nullable "entries") nullable ("associateTo(" ++ builder ++ "())") (.two k w)
      (.pair (termOf k keyNullable (depth + 1) key) (termOf w valueNullable (depth + 1) value))
  | .pair first firstNullable second secondNullable =>
    let a := nameAt "first" depth
    let b := nameAt "second" depth
    .lambda (.value v) nullable "let" (.two a b)
      (.pair (termOf a firstNullable (depth + 1) first) (termOf b secondNullable (depth + 1) second))

/-! ## Expressions in lines -/

/-- An expression as lines. -/
structure Expression where
  lines : List String
deriving DecidableEq, Repr

namespace Expression

def ofText (s : String) : Expression := ⟨[s]⟩

def isMultiline (e : Expression) : Bool := 1 < e.lines.length

def text (e : Expression) : String := join "\n" e.lines

end Expression

/-- A `when` over enum constants with each branch on a line of its own. -/
structure When where
  subject : String
  arms : List Arm
  nullArm : Bool

namespace When

/-- The branches without indentation. -/
def branches (w : When) : List String := w.arms.map branch ++ nullBranch w.nullArm

def expression (w : When) : Expression :=
  ⟨("when (" ++ w.subject ++ ") \x7b") :: w.branches.map ("    " ++ ·) ++ ["\x7d"]⟩

end When

/-- The expression that converts `v`. Branches get lines of their own only when they are the whole expression. -/
def expressionOf (c : Conversion) (v : String) (nullable : Bool) : Expression :=
  match c with
  | .enumWhen arms => (When.mk v arms nullable).expression
  | c => .ofText (termOf v nullable 0 c).text

end Counterpart.Code
