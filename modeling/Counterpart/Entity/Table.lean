/-
What became of the classes: each is generated, with the address of its counterpart, or skipped because its name
was taken. The order is that of generation.
-/
import Counterpart.Output.Declaration

namespace Counterpart.Entity

open Output

inductive Outcome
  | generated (target : Ref)
  /-- Another declaration has the name. -/
  | skipped
deriving DecidableEq, Repr

def Outcome.ref? : Outcome → Option Ref
  | .generated target => some target
  | .skipped => none

structure Table where
  entries : List (ClassId × Outcome)
deriving DecidableEq, Repr

namespace Table

/-- No classes. -/
def empty : Table := ⟨[]⟩

def outcome? (t : Table) (c : ClassId) : Option Outcome :=
  (t.entries.find? fun e => e.1 == c).map (·.2)

/-- The address of the counterpart of a class. -/
def ref? (t : Table) (c : ClassId) : Option Ref := (t.outcome? c).bind (·.ref?)

def contains (t : Table) (c : ClassId) : Bool := (t.outcome? c).isSome

def isSkipped (t : Table) (c : ClassId) : Bool := t.outcome? c == some .skipped

def add (t : Table) (c : ClassId) (o : Outcome) : Table := ⟨t.entries ++ [(c, o)]⟩

end Table

/-- A class that is being generated, and the address of its counterpart. -/
structure Scope where
  source : ClassId
  target : Ref
deriving DecidableEq, Repr

end Counterpart.Entity
