/-
A generation in progress as JSON: what is looked at when one wants to know which phase did what. The names, the
plan and the classes are fields of their own once there are some.
-/
import Counterpart.Generation
import Counterpart.Json

namespace Counterpart.Snapshot

open Kotlin Output Json

/-! ## Declarations -/

def param (p : Param) : Value :=
  .object [("name", .string p.name), ("ty", .string p.ty), ("mutable", .bool p.mutable)]

def enumEntry (e : EnumEntry) : Value :=
  .object [("name", .string e.name), ("args", .ofOption .string e.args)]

def declarationKind : DeclarationKind → Value
  | .data => .string "Data"
  | .enum => .string "Enum"
  | .plain => .string "Class"

mutual

def declaration : Declaration → Value
  | ⟨name, kind, source, typeParams, params, entries, nested⟩ =>
    .object [("name", .string name), ("kind", declarationKind kind), ("source", .number source),
      ("type_params", .ofOption .string typeParams), ("params", .array (params.map param)),
      ("entries", .array (entries.map enumEntry)), ("nested", .array (declarations nested))]

def declarations : List Declaration → List Value
  | [] => []
  | d :: ds => declaration d :: declarations ds

end

/-! ## Functions -/

/-- A value that says of which kind it is. -/
def tagged (tag : String) (fields : List (String × Value)) : Value := .object [(tag, .object fields)]

def arm (a : Arm) : Value := .object [("from", .string a.source), ("to", .string a.target)]

def conversion : Conversion → Value
  | .identity => .string "Identity"
  | .placeholder => .string "Placeholder"
  | .mapper function => tagged "Mapper" [("function", .string function)]
  | .enumWhen arms => tagged "EnumWhen" [("arms", .array (arms.map arm))]
  | .collection element nullable collect =>
    tagged "Collection" [("element", conversion element), ("element_nullable", .bool nullable),
      ("collect", .ofOption .string collect)]
  | .map builder key keyNullable value valueNullable =>
    tagged "Map" [("builder", .string builder), ("key", conversion key), ("key_nullable", .bool keyNullable),
      ("value", conversion value), ("value_nullable", .bool valueNullable)]
  | .pair first firstNullable second secondNullable =>
    tagged "Pair" [("first", conversion first), ("first_nullable", .bool firstNullable),
      ("second", conversion second), ("second_nullable", .bool secondNullable)]

def argument (a : Argument) : Value :=
  .object [("name", .string a.name), ("source", .string a.source), ("nullable", .bool a.nullable),
    ("conversion", conversion a.conversion)]

def functionBody : FunctionBody → Value
  | .construct target args =>
    tagged "Construct" [("target", .string target), ("args", .array (args.map argument))]
  | .enumWhen arms => tagged "EnumWhen" [("arms", .array (arms.map arm))]

def function (f : Function) : Value :=
  .object [("source", .number f.source), ("type_params", .string f.typeParams), ("receiver", .string f.receiver),
    ("name", .string f.name), ("returns", .string f.returns), ("body", functionBody f.body)]

/-! ## Results of the phases -/

def fileRole : FileRole → Value
  | .entity => .string "Entity"
  | .mapper => .string "Mapper"

def file (f : File) : Value :=
  .object [("id", .number f.id), ("path", .string f.path.text), ("package", .string f.package),
    ("role", fileRole f.role),
    ("imports", .object [("imports", .object (f.imports.groups.map fun g => (g.1, .strings g.2)))]),
    ("declarations", .array (declarations f.declarations)), ("functions", .array (f.functions.map function))]

def naming (n : Naming) : Value :=
  .object [("root", .number n.root), ("root_name", .string n.rootName), ("suffix", .string n.suffix)]

def plannedOutput (o : PlannedOutput) : Value :=
  .object [("origin", .number o.origin), ("entity", .number o.entity), ("mapper", .number o.mapper)]

def plan (p : Plan) : Value :=
  .object [("outputs", .object (p.outputs.map fun o => (toString o.origin, plannedOutput o)))]

def outcome : Entity.Outcome → Value
  | .generated r => tagged "Generated" [("file", .number r.file), ("path", .strings r.path)]
  | .skipped => .string "Skipped"

def table (t : Entity.Table) : Value :=
  .object [("entries", .object (t.entries.map fun e => (toString e.1, outcome e.2)))]

def severity : Severity → Value
  | .error => .string "Error"
  | .warning => .string "Warning"
  | .info => .string "Info"

def diagnostic (d : Diagnostic) : Value :=
  .object [("severity", severity d.severity), ("phase", .string d.phase), ("message", .string d.message),
    ("location", .ofOption .string d.location)]

/-- A field that is left out while there is no value. -/
def optionalField {α : Type} (key : String) (f : α → Value) (value : Option α) : List (String × Value) :=
  (value.map fun a => (key, f a)).toList

/-- What there is after a phase. -/
def ofGeneration (phase : String) (g : Generation) : Value :=
  .object ([("phase", .string phase)] ++ optionalField "naming" naming g.naming ++ optionalField "plan" plan g.plan
    ++ optionalField "classes" table g.table
    ++ [("workspace", .object [("files", .array (g.workspace.files.toList.map file))]),
      ("diagnostics", .array (g.diagnostics.map diagnostic))])

end Counterpart.Snapshot
