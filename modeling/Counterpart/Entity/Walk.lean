/-
Generating the counterparts. The walk keeps a list of steps: visiting a class puts its declaration into the
workspace and its fields, each after the classes that the field names, in front of the other steps; so classes
are generated depth first, and a class before the parameters that refer to it. Every class is placed at most once,
for placing takes it out of the classes that remain.
-/
import Counterpart.Diagnostic
import Counterpart.Entity.Param
import Counterpart.Plan

namespace Counterpart.Entity

open Kotlin Output

/-- The name of the phase in its messages. -/
def phaseName : String := "entity"

/-- What generation depends on. -/
structure Generator where
  project : Project
  plan : Plan
  naming : Naming

structure State where
  workspace : Workspace
  table : Table
  diagnostics : List Diagnostic

inductive Step
  /-- A class, as named by the class that is being generated in the scope. -/
  | visit (c : ClassId) (scope : Option Scope)
  /-- A field, all of whose classes are visited. -/
  | field (scope : Scope) (f : Field)
  /-- A class, all of whose fields are done. -/
  | finish (scope : Scope)

def State.warn (s : State) (message location : String) : State :=
  { s with diagnostics := s.diagnostics ++ [.warning phaseName message location] }

namespace Generator

variable (g : Generator)

/-! ## Placing -/

/-- Where the counterpart of a class goes: into that of the class around it when that one names it first, else
to the top of the planned file. -/
def placeOf (c : ClassId) (scope : Option Scope) : Except Failure Place :=
  let top := match g.plan.entityFile? (g.project.decl c).file with
    | some file => .ok (.topLevel file)
    | none => .error (.unplanned (g.project.qualifiedName c) (g.project.fileOf c).path)
  match scope with
  | some s => if g.project.isNestedIn c s.source then .ok (.inside s.target) else top
  | none => top

/-- The counterpart before it has parameters. -/
def shell (c : ClassId) : Declaration :=
  let d := g.project.decl c
  { Declaration.ofName (g.naming.className g.project c) (if d.isEnum then .enum else .data) c with
    typeParams := d.typeParams
    entries := d.entries }

/-- The imports that the file of a class gives to that of its counterpart: all but those that only name an
annotation of a field. -/
def copiedImports (c : ClassId) : List Import :=
  let annotations := (g.project.decl c).visibleFields.flatMap (·.annotations)
  (g.project.fileOf c).imports.filter fun i => !i.localName?.any annotations.contains

/-- The steps that generate the fields of a class. -/
def fieldSteps (s : Scope) : List Step :=
  ((g.project.decl s.source).visibleFields.flatMap fun f =>
    (g.project.mentionedBy s.source f).map (Step.visit · (some s)) ++ [.field s f]) ++ [.finish s]

/-- Places the counterpart of a class, or skips the class when the name is taken. The value are the steps that
remain for it. -/
def place (c : ClassId) (scope : Option Scope) (s : State) : Except Failure (State × List Step) := do
  let place ← g.placeOf c scope
  let name := g.naming.className g.project c
  if s.workspace.holds place name then
    let source := g.project.qualifiedName c
    let s := s.warn ("`" ++ name ++ "` already exists; `" ++ source ++ "` was not generated") source
    return ({ s with table := s.table.add c .skipped }, [])
  else
    let w ← s.workspace.addDeclaration place (g.shell c)
    let target := place.refTo name
    let w := (g.copiedImports c).foldl (fun w i => w.addImport target.file i) w
    return ({ s with workspace := w, table := s.table.add c (.generated target) }, g.fieldSteps ⟨c, target⟩)

/-! ## Fields -/

/-- Imports what the parameter for a field needs, and warns of what it leaves out. -/
def addField (scope : Scope) (f : Field) (s : State) : State :=
  let draft := ParamDraft.ofField g.project g.naming s.table scope.source f
  let location := g.project.qualifiedName scope.source ++ "." ++ f.name
  draft.unsupported.foldl
    (fun s c => s.warn ("`" ++ g.project.qualifiedName c ++ "` is not a data class or enum; implement `" ++ f.name
      ++ "` manually") location)
    { s with workspace := s.workspace.addReferences scope.target.file draft.imports }

/-- The parameters of the counterpart of a class. -/
def params (t : Table) (c : ClassId) : List Param :=
  (g.project.decl c).visibleFields.map fun f => (ParamDraft.ofField g.project g.naming t c f).param

/-- Sets the parameters of a counterpart. One without any cannot be a data class. -/
def finish (scope : Scope) (s : State) : Except Failure State := do
  let params := g.params s.table scope.source
  let bare := (s.workspace.declaration? scope.target).any (·.kind == .data) && params.isEmpty
  let w ← s.workspace.updateDeclaration scope.target fun d =>
    { d with params, kind := if bare then .plain else d.kind }
  let s := { s with workspace := w }
  if bare then
    let source := g.project.qualifiedName scope.source
    return s.warn ("`" ++ source ++ "` has no non-private constructor properties; `" ++ scope.target.qualifiedName
      ++ "` is generated as a plain class") source
  else return s

/-! ## The walk -/

/-- How many steps a class can add at most. -/
def cost (c : ClassId) : Nat := (g.fieldSteps ⟨c, .topLevel 0 ""⟩).length

theorem length_fieldSteps (s : Scope) : (g.fieldSteps s).length = g.cost s.source := by
  simp [cost, fieldSteps, List.length_flatMap]

theorem length_place {c : ClassId} {scope : Option Scope} {s s' : State} {new : List Step}
    (h : g.place c scope s = .ok (s', new)) : new.length ≤ g.cost c := by
  simp only [place, bind, Except.bind, pure, Except.pure] at h
  split at h
  · cases h
  split at h
  · cases h; simp
  split at h
  · cases h
  · cases h; simp [length_fieldSteps]

/-- How many steps the classes that are not visited can add. -/
def ahead (remaining : List ClassId) : Nat :=
  (remaining.flatMap fun c => List.range (g.cost c)).length

theorem ahead_erase {c : ClassId} {remaining : List ClassId} (h : c ∈ remaining) :
    g.ahead remaining = g.cost c + g.ahead (remaining.erase c) := by
  have := ((List.perm_cons_erase h).flatMap_right fun c => List.range (g.cost c)).length_eq
  simpa [ahead] using this

/-- Takes the steps in turn. `remaining` are the classes not visited; a failure ends the walk where it arises. -/
def walk (remaining : List ClassId) (s : State) : List Step → State × Option Failure
  | [] => (s, none)
  | .visit c scope :: steps =>
    if _ : c ∈ remaining then
      match _ : g.place c scope s with
      | .error e => (s, some e)
      | .ok (s, new) => walk (remaining.erase c) s (new ++ steps)
    else walk remaining s steps
  | .field scope f :: steps => walk remaining (g.addField scope f s) steps
  | .finish scope :: steps =>
    match g.finish scope s with
    | .error e => (s, some e)
    | .ok s => walk remaining s steps
termination_by steps => g.ahead remaining + steps.length
decreasing_by
  · have := g.length_place ‹_›
    have := g.ahead_erase ‹c ∈ remaining›
    rw [List.length_append, List.length_cons]
    omega
  all_goals simp

/-- What generation gives. -/
structure Result where
  /-- The counterpart of the selected class. -/
  root : Ref
  table : Table
  diagnostics : List Diagnostic

/-- Generates the counterpart of the selected class and of every class that it needs. -/
def run (w : Workspace) : Workspace × Except Failure Result :=
  let root := g.naming.root
  match g.walk (List.range g.project.classes.size) ⟨w, .empty, []⟩ [.visit root none] with
  | (s, some e) => (s.workspace, .error e)
  | (s, none) =>
    (s.workspace, match s.table.ref? root with
      | some target => .ok ⟨target, s.table, s.diagnostics⟩
      | none => .error (.notGenerated (g.project.qualifiedName root)))

end Generator

end Counterpart.Entity
