/-
Conversion functions as code: extension functions with an expression for a body.
-/
import Counterpart.Code.Expression
import Counterpart.Code.Layout
import Counterpart.Kotlin.Keyword

namespace Counterpart.Code

open Kotlin Output

/-- The expressions that can be the body of a function. -/
inductive BodyCode
  /-- A call with named arguments. -/
  | call (target : String) (args : List (String × Expression))
  | branches (w : When)

/-- An extension function. -/
structure FunctionCode where
  /-- The declaration of its type parameters, or empty. -/
  typeParams : String
  receiver : String
  name : String
  returns : String
  body : BodyCode

/-- The lines of a named argument. -/
def argumentLines (name : String) (value : Expression) : List String :=
  match value.lines with
  | [] => []
  | first :: rest => (safeName name ++ " = " ++ first) :: rest

namespace FunctionCode

/-- The function up to its body. -/
def signature (f : FunctionCode) : String :=
  "fun " ++ (if f.typeParams.isEmpty then "" else f.typeParams ++ " ") ++ f.receiver ++ "." ++ f.name ++ "(): "
    ++ f.returns ++ " = "

def fragments (f : FunctionCode) : List Fragment :=
  match f.body with
  | .call target args =>
    (Listing.mk (f.signature ++ target) (args.map fun a => argumentLines a.1 a.2) "").fragments
  | .branches w =>
    match w.expression.lines with
    | [] => [.line f.signature]
    | first :: rest => .line (f.signature ++ first) :: rest.map .line

/-! ## Generated functions -/

def bodyOf : FunctionBody → BodyCode
  | .construct target args =>
    .call target (args.map fun a => (a.name, expressionOf a.conversion (safeName a.source) a.nullable))
  | .enumWhen arms => .branches ⟨"this", arms.map fun a => ⟨safePath a.source, safePath a.target⟩, false⟩

/-- The code of a generated function. -/
def ofFunction (f : Output.Function) : FunctionCode :=
  ⟨f.typeParams, f.receiver, f.name, f.returns, bodyOf f.body⟩

end FunctionCode

end Counterpart.Code
