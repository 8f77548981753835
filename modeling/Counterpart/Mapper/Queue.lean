/-
Generating the conversion functions. Starting with the selected class, the functions are generated in the order
in which they are first called for; a class that was called for is never called for again.
-/
import Counterpart.Diagnostic
import Counterpart.Mapper.Convert
import Counterpart.Plan

namespace Counterpart.Mapper

open Kotlin Output Entity

/-- The name of the phase in its messages. -/
def phaseName : String := "mapper"

/-- The function of a class, and all that comes with it. -/
structure Draft where
  function : Function
  /-- The address of the counterpart. -/
  target : Ref
  calls : List ClassId
  imports : List String
  diagnostics : List Diagnostic

namespace Setting

variable (g : Setting)

/-- The message for a field that cannot be converted. -/
def warningFor (owner : ClassId) (f : Field) (o : Obstacle) : Diagnostic :=
  .warning phaseName ("`" ++ f.name ++ "` holds generated classes inside " ++ o.describe ++ "; convert it manually")
    (g.project.qualifiedName owner ++ "." ++ f.name)

/-- The function from a class to its counterpart. -/
def draft (c : ClassId) (target : Ref) : Draft :=
  let d := g.project.decl c
  let typeParams := TypeParams.ofOption d.typeParams
  let function (body : FunctionBody) : Function :=
    ⟨c, typeParams.asFunctionDeclaration, g.project.nestedPath c ++ typeParams.asArguments, g.naming.functionName,
      target.qualifiedName ++ typeParams.asArguments, body⟩
  if d.isEnum then ⟨function (.enumWhen (g.arms c target)), target, [], [g.importOf c], []⟩
  else
    let args := d.visibleFields.map fun f => (f, g.argument c f)
    ⟨function (.construct target.qualifiedName (args.map (·.2.1))), target, args.flatMap (·.2.2.calls),
      g.importOf c :: args.flatMap (·.2.2.imports),
      args.flatMap fun (f, _, built) => built.obstacles.map (g.warningFor c f)⟩

/-- The function of a class; none when the class was skipped. -/
def draft? (c : ClassId) : Except Failure (Option Draft) :=
  match g.table.outcome? c with
  | some (.generated target) => .ok (some (g.draft c target))
  | some .skipped => .ok none
  | none => .error (.notGenerated (g.project.qualifiedName c))

end Setting

/-! ## The queue -/

/-- The classes not yet called for, and the queue with those of `calls` that are called for now. -/
def enqueue : (calls remaining queue : List ClassId) → List ClassId × List ClassId
  | [], remaining, queue => (remaining, queue)
  | c :: calls, remaining, queue =>
    if c ∈ remaining then enqueue calls (remaining.erase c) (queue ++ [c]) else enqueue calls remaining queue

theorem length_enqueue (calls remaining queue : List ClassId) :
    (enqueue calls remaining queue).1.length + (enqueue calls remaining queue).2.length
      = remaining.length + queue.length := by
  fun_induction enqueue calls remaining queue with
  | case1 => rfl
  | case2 c calls remaining queue h ih =>
    have := List.length_pos_of_mem h
    rw [ih, List.length_erase_of_mem h, List.length_append]
    simp only [List.length_singleton]
    omega
  | case3 c calls remaining queue h ih => exact ih

structure State where
  workspace : Workspace
  diagnostics : List Diagnostic

/-- Puts a function with its imports into the file that is planned for it. -/
def State.addDraft (plan : Plan) (d : Draft) (s : State) : State :=
  let file := (plan.mapperFile? d.target.file).getD d.target.file
  ⟨(s.workspace.addReferences file d.imports).addFunction file d.function, s.diagnostics ++ d.diagnostics⟩

namespace Setting

variable (g : Setting)

/-- Generates the functions of the queue and those that they call for. -/
def serve (plan : Plan) (remaining : List ClassId) (s : State) : (queue : List ClassId) → State × Option Failure
  | [] => (s, none)
  | c :: queue =>
    match g.draft? c with
    | .error e => (s, some e)
    | .ok none => serve plan remaining s queue
    | .ok (some d) => serve plan (enqueue d.calls remaining queue).1 (s.addDraft plan d) (enqueue d.calls remaining queue).2
termination_by queue => remaining.length + queue.length
decreasing_by
  · simp
  · rw [length_enqueue]; simp

/-- Generates the function of the selected class and every function that it needs. -/
def run (plan : Plan) (w : Workspace) : Workspace × Except Failure (List Diagnostic) :=
  let start := enqueue [g.naming.root] (List.range g.project.classes.size) []
  match g.serve plan start.1 ⟨w, []⟩ start.2 with
  | (s, some e) => (s.workspace, .error e)
  | (s, none) => (s.workspace, .ok s.diagnostics)

end Setting

end Counterpart.Mapper
