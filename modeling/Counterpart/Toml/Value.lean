/-
TOML values and the growth of tables. A table is written once: as a header, by dotted keys, or inline; only a table
that merely stands on the way to another one can still be opened by its header.
-/
namespace Counterpart.Toml

/-- How a table came to be. -/
inductive Origin
  /-- It stands on the way to the table of a header. -/
  | passed
  /-- It has a header of its own. -/
  | header
  /-- It stands on the way to a dotted key. -/
  | dotted
  | inline
deriving DecidableEq, Repr

inductive Value
  | string (s : String)
  | bool (b : Bool)
  /-- A number or a date, unread. -/
  | scalar (text : String)
  | array (items : List Value)
  | table (origin : Origin) (entries : List (String × Value))

/-- The entries of a table in the order of their first mention. -/
abbrev Entries : Type := List (String × Value)

namespace Entries

def get? (key : String) (es : Entries) : Option Value :=
  (es.find? fun e => e.1 == key).map (·.2)

/-- The entries with the value of a key changed or added. -/
def alter (key : String) (f : Option Value → Option Value) : Entries → Option Entries
  | [] => (f none).map fun v => [(key, v)]
  | (k, v) :: es => if k = key then (f (some v)).map fun v => (k, v) :: es else (alter key f es).map ((k, v) :: ·)

/-- The entries with a value at a dotted key that has none. -/
def insertAt : (keys : List String) → Value → Entries → Option Entries
  | [], _, _ => none
  | [key], v, es => es.alter key fun old => if old.isSome then none else some v
  | key :: rest, v, es => es.alter key fun
    | none => (insertAt rest v []).map (.table .dotted)
    | some (.table .dotted inner) => (insertAt rest v inner).map (.table .dotted)
    | some (.table .passed inner) => (insertAt rest v inner).map (.table .passed)
    | some _ => none

/-- The entries with a table opened by a header. -/
def openTable : (path : List String) → Entries → Option Entries
  | [], _ => none
  | [key], es => es.alter key fun
    | none => some (.table .header [])
    | some (.table .passed inner) => some (.table .header inner)
    | some _ => none
  | key :: rest, es => es.alter key fun
    | none => (openTable rest []).map (.table .passed)
    | some (.table .inline _) => none
    | some (.table origin inner) => (openTable rest inner).map (.table origin)
    | some _ => none

/-- The entries with the table at a path changed. -/
def updateTable (f : Entries → Option Entries) : (path : List String) → Entries → Option Entries
  | [], es => f es
  | key :: rest, es => es.alter key fun
    | some (.table origin inner) => (updateTable f rest inner).map (.table origin)
    | _ => none

end Entries

end Counterpart.Toml
