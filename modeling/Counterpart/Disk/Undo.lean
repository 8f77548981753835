/-
Undoing a series of writes: files that were made are removed, files that were changed get the content back that they
had when they were saved.
-/
import Counterpart.Disk

namespace Counterpart

structure Undo where
  /-- Files to remove. -/
  created : List Path
  /-- Files with the content to give back. -/
  saved : List (Path × ByteArray)

namespace Undo

/-- Nothing to undo. -/
def empty : Undo := ⟨[], []⟩

def size (u : Undo) : Nat := u.created.length + u.saved.length

def isEmpty (u : Undo) : Bool := u.size == 0

/-- Remembers the content of a file, if there is one. -/
def save (u : Undo) (d : Disk) (p : Path) : Except FileFault Undo :=
  if d.isFile p then (d.read p).map fun content => { u with saved := u.saved ++ [(p, content)] } else .ok u

/-- Remembers that a file was made. -/
def addCreated (u : Undo) (p : Path) : Undo := { u with created := u.created ++ [p] }

/-! ## Restoring -/

/-- A step of restoring; `first` is the first error so far. -/
def attempt (result : Except FileFault Disk) (d : Disk) (first : Option FileFault) : Disk × Option FileFault :=
  match result with
  | .ok d => (d, first)
  | .error e => (d, first.or (some e))

/-- Removes a file; that it is missing is no error. -/
def removeCreated (s : Disk × Option FileFault) (p : Path) : Disk × Option FileFault :=
  match s.1.removeFile p with
  | .error .notFound => s
  | result => attempt result s.1 s.2

def giveBack (s : Disk × Option FileFault) (file : Path × ByteArray) : Disk × Option FileFault :=
  attempt (s.1.write file.1 file.2) s.1 s.2

/-- Undoes everything that can be undone, and gives the first error. -/
def restore (u : Undo) (d : Disk) : Disk × Option FileFault :=
  u.saved.foldl giveBack (u.created.foldl removeCreated (d, none))

end Undo

end Counterpart
