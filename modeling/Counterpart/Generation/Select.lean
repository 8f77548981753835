/-
Which class is selected and what its counterpart is called. A selection is first taken as a qualified name, then as
a nested path, then as a simple name; the last two must fit one class alone.
-/
import Counterpart.Generation

namespace Counterpart

open Text

/-- The classes that a selection may mean when it is no qualified name. -/
def Project.candidates (p : Project) (name : String) : List ClassId :=
  let byPath := (List.range p.classes.size).filter fun c => p.nestedPath c == name
  if byPath.isEmpty then p.findBySimpleName name else byPath

/-- The class that a selection means. -/
def Project.selected (p : Project) (selection : String) : Except Failure ClassId :=
  let name := trim selection
  match p.find? name with
  | some c => .ok c
  | none =>
    match p.candidates name with
    | [] => .error (.unknownClass name)
    | [c] => .ok c
    | cs => .error (.ambiguousClass name (cs.map p.qualifiedName))

namespace Generation

/-- The part of a chosen name that can stand in an identifier. -/
def usable (which : ChosenName) (chosen : String) : Except Failure String :=
  let kept := Name.keepIdentifier chosen
  if kept.isEmpty then .error (.unusableName which) else .ok kept

/-- The names of the counterparts when the class `root` is selected. -/
def namingOf (p : Project) (o : Options) (root : ClassId) : Except Failure Naming := do
  let name ← usable .className (o.name.getD (p.decl root).name)
  let suffix ← usable .suffix o.suffix
  return ⟨root, name, suffix⟩

/-- A failure of the selection, reported as an error. -/
def refuse (g : Generation) (location : Option String) (e : Failure) : Generation × Option Failure :=
  (g.report [⟨.error, "select", e.message, location⟩], some e)

/-- Fixes the selected class and the names. -/
def select (g : Generation) : Generation × Option Failure :=
  match g.project.selected g.options.selection with
  | .error e => g.refuse none e
  | .ok root =>
    if !(g.project.decl root).isSupported then g.refuse (some (g.project.qualifiedName root)) .unsupportedClass
    else match namingOf g.project g.options root with
      | .error e => g.refuse none e
      | .ok naming => ({ g with naming := some naming }, none)

end Generation

end Counterpart
