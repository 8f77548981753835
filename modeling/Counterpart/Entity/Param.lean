/-
The parameter of a counterpart that stands for a field. It takes the suffix into its name exactly when its type
is a counterpart itself.
-/
import Counterpart.Entity.Substitute
import Counterpart.Entity.Table
import Counterpart.Naming

namespace Counterpart.Entity

open Kotlin Output

/-- A parameter, the qualified names that its type needs imported, and the classes that it leaves out. -/
structure ParamDraft where
  param : Param
  imports : List String
  unsupported : List ClassId

/-- The parameter for a field of the class `owner`, given what became of the classes. -/
def ParamDraft.ofField (p : Project) (n : Naming) (t : Table) (owner : ClassId) (f : Field) : ParamDraft :=
  let ty := p.resolve owner f.ty
  match p.categoryOf ty with
  | .userClass id _ =>
    match t.ref? id with
    | some target => ⟨⟨n.fieldName f.name, counterpartType ty target, f.mutable⟩, importsOfArgs ty.args, []⟩
    | none => ⟨⟨f.name, placeholderType, f.mutable⟩, [], []⟩
  | .unsupported id => ⟨⟨f.name, placeholderType, f.mutable⟩, [], [id]⟩
  | .generic _ =>
    let args := substituteArgs p t.ref? ty.args
    ⟨⟨f.name, ty.displayName ++ args.argsText ++ ty.nullableMark, f.mutable⟩, ty.importName.toList ++ args.imports,
      args.unsupported⟩
  | .basic _ | .foreign => ⟨⟨f.name, f.ty.render, f.mutable⟩, importsOfType ty, []⟩

end Counterpart.Entity
