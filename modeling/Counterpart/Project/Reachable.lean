/-
Which classes a class leads to. `Project.mentions` lists the classes with a counterpart that the visible fields
of a class name, directly or inside arguments; `Project.reachable` follows these mentions depth first.
-/
import Counterpart.Project.Category

namespace Counterpart

open Kotlin

namespace Project

/-! ## Mentions -/

mutual

/-- The classes with a counterpart that a type names. The arguments of such a class are not looked into. -/
def mentioned (p : Project) : ResolvedType → List ClassId
  | ⟨written, qualifiedName, importName, classId, args⟩ =>
    match p.categoryOf ⟨written, qualifiedName, importName, classId, args⟩ with
    | .userClass id _ => [id]
    | .generic _ => p.mentionedInArgs args
    | _ => []

def mentionedInArgs (p : Project) : List (TypeArg ResolvedType) → List ClassId
  | [] => []
  | a :: as => p.mentionedInArg a ++ p.mentionedInArgs as

def mentionedInArg (p : Project) : TypeArg ResolvedType → List ClassId
  | .star => []
  | .type _ ty => p.mentioned ty

end

/-- The classes with a counterpart that a field of the class `c` names. -/
def mentionedBy (p : Project) (c : ClassId) (f : Field) : List ClassId :=
  p.mentioned (p.resolve c f.ty)

/-- The classes with a counterpart that the visible fields of a class name, in order. -/
def mentions (p : Project) (c : ClassId) : List ClassId :=
  (p.decl c).visibleFields.flatMap (p.mentionedBy c)

/-! ## Reachable classes -/

/-- The classes of `remaining` met on the way from those of `pending`, in depth-first order: each class is
followed at once by what it leads to. -/
def gather (next : ClassId → List ClassId) (remaining pending : List ClassId) : List ClassId :=
  match _ : pending.dropWhile (fun c => !remaining.contains c) with
  | [] => []
  | c :: rest => c :: gather next (remaining.erase c) (next c ++ rest)
termination_by remaining.length
decreasing_by
  have hc : remaining.contains c := by
    have := List.head?_dropWhile_not (fun c => !remaining.contains c) pending
    rw [‹pending.dropWhile _ = _›] at this
    simpa using this
  have hm := List.contains_iff_mem.mp hc
  rw [List.length_erase_of_mem hm]
  have := List.length_pos_of_mem hm
  omega

/-- The classes that generation for `root` needs, `root` first. -/
def reachable (p : Project) (root : ClassId) : List ClassId :=
  gather p.mentions (List.range p.classes.size) [root]

end Project

end Counterpart
