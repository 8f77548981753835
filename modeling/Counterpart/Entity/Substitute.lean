/-
Types in generated code. A class with a counterpart is replaced by it, any other class of the project by the
placeholder, the arguments of a generic type are substituted in turn, and all else stays as written.
-/
import Counterpart.Project.Category
import Counterpart.Output.Declaration

namespace Counterpart.Entity

open Kotlin Output Text

/-- A substituted type argument. -/
structure SubstitutedArg where
  /-- What stands before the type. -/
  projection : String
  /-- None for a star. -/
  ty : Option String
deriving DecidableEq, Repr

def SubstitutedArg.text (a : SubstitutedArg) : String :=
  match a.ty with
  | some ty => a.projection ++ ty
  | none => "*"

/-- A substituted piece of a type and what it refers to. -/
structure Substituted (α : Type) where
  value : α
  /-- The counterparts that it names. -/
  dependencies : List Ref
  /-- The qualified names that a file with the text has to import. -/
  imports : List String
  /-- The classes that the placeholder stands for. -/
  unsupported : List ClassId

namespace Substituted

variable {α β γ : Type}

def map (f : α → β) (r : Substituted α) : Substituted β :=
  ⟨f r.value, r.dependencies, r.imports, r.unsupported⟩

/-- Two pieces one after the other. -/
def both (f : α → β → γ) (a : Substituted α) (b : Substituted β) : Substituted γ :=
  ⟨f a.value b.value, a.dependencies ++ b.dependencies, a.imports ++ b.imports, a.unsupported ++ b.unsupported⟩

/-- The arguments in angle brackets. -/
def argsText (r : Substituted (List SubstitutedArg)) : String :=
  "<" ++ join ", " (r.value.map SubstitutedArg.text) ++ ">"

/-- The arguments without their projections; none when one is a star, which no constructor call admits. -/
def invariantText? (r : Substituted (List SubstitutedArg)) : Option String :=
  (r.value.mapM SubstitutedArg.ty).map fun tys => "<" ++ join ", " tys ++ ">"

end Substituted

/-- The placeholder for a class. -/
def unsupportedType (c : ClassId) : Substituted String := ⟨placeholderType, [], [], [c]⟩

/-- A counterpart with the arguments and the question mark of the type that it replaces. -/
def counterpartType (t : ResolvedType) (target : Ref) : String :=
  target.qualifiedName ++ t.argsText ++ t.nullableMark

mutual

/-- A type in generated code; `target?` gives the counterparts. -/
def substituteType (p : Project) (target? : ClassId → Option Ref) : ResolvedType → Substituted String
  | ⟨written, qualifiedName, importName, classId, args⟩ =>
    let t : ResolvedType := ⟨written, qualifiedName, importName, classId, args⟩
    match p.categoryOf t with
    | .userClass id _ =>
      match target? id with
      | some target => ⟨counterpartType t target, [target], [], []⟩
      | none => unsupportedType id
    | .unsupported id => unsupportedType id
    | .generic _ =>
      let inner := substituteArgs p target? args
      { inner with
        value := t.displayName ++ inner.argsText ++ t.nullableMark
        imports := importName.toList ++ inner.imports }
    | .basic _ | .foreign => ⟨written.render, [], importName.toList, []⟩

/-- Type arguments in generated code. -/
def substituteArgs (p : Project) (target? : ClassId → Option Ref) :
    List (TypeArg ResolvedType) → Substituted (List SubstitutedArg)
  | [] => ⟨[], [], [], []⟩
  | a :: as => (substituteArg p target? a).both (· :: ·) (substituteArgs p target? as)

def substituteArg (p : Project) (target? : ClassId → Option Ref) : TypeArg ResolvedType → Substituted SubstitutedArg
  | .star => ⟨⟨"", none⟩, [], [], []⟩
  | .type variance ty => (substituteType p target? ty).map fun text => ⟨variance.marker, some text⟩

end

/-! ## Names kept as written -/

mutual

/-- The imports that a type needs when it stays as written. -/
def importsOfType : ResolvedType → List String
  | ⟨_, _, importName, _, args⟩ => importName.toList ++ importsOfArgs args

def importsOfArgs : List (TypeArg ResolvedType) → List String
  | [] => []
  | a :: as => importsOfArg a ++ importsOfArgs as

def importsOfArg : TypeArg ResolvedType → List String
  | .star => []
  | .type _ ty => importsOfType ty

end

end Counterpart.Entity
