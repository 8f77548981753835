/-
The conversions of the values of a field. What a conversion needs beside itself, the functions that it calls and
the names that its file has to import, comes out with it; so do the reasons for placeholders.
-/
import Counterpart.Entity.Substitute
import Counterpart.Entity.Table
import Counterpart.Naming
import Counterpart.Output.Function

namespace Counterpart.Mapper

open Kotlin Output Entity

/-- The reasons why a value holds counterparts and cannot be converted. -/
inductive Obstacle
  /-- A map one side of which is a star. -/
  | starMap
  /-- A generic type that is no collection, map or pair. -/
  | unknownGeneric
deriving DecidableEq, Repr

def Obstacle.describe : Obstacle → String
  | .starMap => "a star-projected map"
  | .unknownGeneric => "a generic type mapgen cannot traverse"

/-- A conversion and what comes with it. -/
structure Built where
  conversion : Conversion
  /-- The classes whose functions it calls. -/
  calls : List ClassId
  /-- The qualified names that its file has to import. -/
  imports : List String
  obstacles : List Obstacle

namespace Built

/-- A conversion that needs nothing. -/
def pure (c : Conversion) : Built := ⟨c, [], [], []⟩

/-- The conversion `c` with all that two parts of it need. -/
def both (c : Conversion) (a b : Built) : Built :=
  ⟨c, a.calls ++ b.calls, a.imports ++ b.imports, a.obstacles ++ b.obstacles⟩

/-- Another conversion in place of this one. -/
def replace (b : Built) (c : Conversion) : Built := { b with conversion := c }

/-- A placeholder in place of this conversion, with the reason. -/
def obstruct (b : Built) (o : Obstacle) : Built :=
  { b with conversion := .placeholder, obstacles := b.obstacles ++ [o] }

def importing (b : Built) (names : List String) : Built := { b with imports := b.imports ++ names }

end Built

/-- What conversions depend on. -/
structure Setting where
  project : Project
  naming : Naming
  table : Table

/-- The conversion of a part of a generic type, and whether the part can be null. -/
structure Side where
  built : Built
  nullable : Bool

namespace Setting

variable (g : Setting)

/-- The conversion of a map. A star on one side leaves it as it is unless the other side changes. -/
def convertMap (kind : MapKind) (args : List (TypeArg ResolvedType)) : Option Side → Option Side → Built
  | some key, some value =>
    let whole := key.built.both .identity value.built
    if key.built.conversion.isIdentity && value.built.conversion.isIdentity then whole
    else
      let substituted := substituteArgs g.project g.table.ref? args
      let builder := kind.builder ++ substituted.invariantText?.getD ""
      (whole.importing substituted.imports).replace
        (.ofMap builder key.built.conversion key.nullable value.built.conversion value.nullable)
  | some side, none | none, some side =>
    if side.built.conversion.isIdentity then side.built else side.built.obstruct .starMap
  | none, none => .pure .identity

/-- The conversion of a type with arguments, given the conversions of the arguments; a star has none. -/
def combine (base : GenericBase) (args : List (TypeArg ResolvedType)) (sides : List (Option Side)) : Built :=
  match base with
  | .collection kind =>
    match sides[0]?.join with
    | some element =>
      element.built.replace (.ofCollection element.built.conversion element.nullable kind.collectCall?)
    | none => .pure .identity
  | .map kind => g.convertMap kind args sides[0]?.join sides[1]?.join
  | .pair =>
    match sides[0]?.join, sides[1]?.join with
    | some first, some second =>
      first.built.both (.ofPair first.built.conversion first.nullable second.built.conversion second.nullable)
        second.built
    | _, _ => .pure .identity
  | .other =>
    let whole := (sides.filterMap id).foldl (fun b side => b.both .identity side.built) (.pure .identity)
    if (sides.filterMap id).all fun side => side.built.conversion.isIdentity then whole
    else whole.obstruct .unknownGeneric

mutual

/-- The conversion of a value inside a generic type. -/
def element : ResolvedType → Built
  | ⟨written, qualifiedName, importName, classId, args⟩ =>
    match g.project.categoryOf ⟨written, qualifiedName, importName, classId, args⟩ with
    | .userClass id _ =>
      if (g.table.ref? id).isSome then ⟨.mapper g.naming.functionName, [id], [], []⟩ else .pure .identity
    | .generic base => g.combine base args (elements args)
    | _ => .pure .identity

def elements : List (TypeArg ResolvedType) → List (Option Side)
  | [] => []
  | a :: as => elementOf a :: elements as

def elementOf : TypeArg ResolvedType → Option Side
  | .star => none
  | .type _ ty => some ⟨element ty, ty.nullable⟩

end

/-! ## Fields -/

/-- The branches from the constants of an enum to those of its counterpart. -/
def arms (c : ClassId) (target : Ref) : List Arm :=
  (g.project.decl c).entries.map fun e =>
    ⟨g.project.nestedPath c ++ "." ++ e.name, target.qualifiedName ++ "." ++ e.name⟩

/-- The import that makes a class nameable. -/
def importOf (c : ClassId) : String := g.project.qualifiedName (g.project.decl c).outermost

/-- The argument for a field of the class `owner`, with all that it needs. -/
def argument (owner : ClassId) (f : Field) : Argument × Built :=
  let ty := g.project.resolve owner f.ty
  let (name, built) : String × Built :=
    match g.project.categoryOf ty with
    | .userClass id kind =>
      match g.table.ref? id, kind with
      | some _, .data => (g.naming.fieldName f.name, ⟨.mapper g.naming.functionName, [id], [], []⟩)
      | some target, .enum => (g.naming.fieldName f.name, ⟨.enumWhen (g.arms id target), [id], [g.importOf id], []⟩)
      | none, _ => (f.name, .pure .placeholder)
    | .unsupported _ => (f.name, .pure .placeholder)
    | .generic base => (f.name, g.combine base ty.args (g.elements ty.args))
    | .basic _ | .foreign => (f.name, .pure .identity)
  (⟨name, f.name, ty.nullable, built.conversion⟩, built)

end Setting

end Counterpart.Mapper
