/-
The configuration file: a TOML document with the table `generator`. Unknown keys are refused, and so is a suffix that
cannot end an identifier. An enumeration may also be written as a table whose only key names the choice.
-/
import Counterpart.Naming
import Counterpart.Text.Span
import Counterpart.Toml.Document

namespace Counterpart

open Text Toml

/-- What the configuration leaves open is none or empty. -/
structure Config where
  suffix : Option String
  placement : Option MapperPlacement
  /-- The directories that hold the sources. -/
  sources : List Path
  /-- Whether outputs may replace files. -/
  overwrite : Bool
deriving DecidableEq, Repr

/-- The reasons to refuse a configuration. -/
inductive ConfigFault
  /-- It is no TOML, or its values are not those of a configuration. -/
  | malformed
  | emptySuffix
  | unusableSuffix (suffix : String)
deriving DecidableEq, Repr

def ConfigFault.message : ConfigFault → String
  | malformed => "failed to parse mapgen.toml"
  | emptySuffix => "suffix must not be empty"
  | unusableSuffix suffix => "suffix '" ++ suffix ++ "' may only contain letters, digits, '_' and '$'"

/-- Why a configuration is refused, and the stretch of it that shows why. -/
structure ConfigError where
  fault : ConfigFault
  span : Option Span
deriving DecidableEq, Repr

namespace Config

/-- Everything left open. -/
def empty : Config := ⟨none, none, [], false⟩

/-- The name of the file. -/
def fileName : String := "mapgen.toml"

/-! ## Values -/

def stringOf? : Value → Option String
  | .string s => some s
  | _ => none

def boolOf? : Value → Option Bool
  | .bool b => some b
  | _ => none

def pathsOf? : Value → Option (List Path)
  | .array items => items.mapM fun v => (stringOf? v).map Path.mk
  | _ => none

/-- Whether a value is a table or an array without content. -/
def isEmptyValue : Value → Bool
  | .array items => items.isEmpty
  | .table _ entries => entries.isEmpty
  | _ => false

/-- The placement with exactly this name. -/
def placementNamed? (name : String) : Option MapperPlacement :=
  [MapperPlacement.inlined, .separate].find? fun p => p.text == name

def placementOf? : Value → Option MapperPlacement
  | .string s => placementNamed? s
  | .table _ [(name, v)] => if isEmptyValue v then placementNamed? name else none
  | _ => none

/-- The reading of a value that may be missing. -/
def optional {α : Type} (f : Value → Option α) : Option Value → Option (Option α)
  | some v => (f v).map some
  | none => some none

/-- The settings in the values of the four keys. -/
def ofValues? (suffix mapper sources overwrite : Option Value) : Option Config := do
  let suffix ← optional stringOf? suffix
  let placement ← optional placementOf? mapper
  let sources ← optional pathsOf? sources
  let overwrite ← optional boolOf? overwrite
  return ⟨suffix, placement, sources.getD [], overwrite.getD false⟩

/-- The settings in the value of `generator`: a table, or an array with the values in their order, of which the
last two may be missing. -/
def ofGenerator? : Value → Option Config
  | .table _ entries =>
    if entries.all fun e => ["suffix", "mapper", "sources", "overwrite"].contains e.1 then
      let get? (key : String) : Option Value := Entries.get? key entries
      ofValues? (get? "suffix") (get? "mapper") (get? "sources") (get? "overwrite")
    else none
  | .array (suffix :: mapper :: rest) => ofValues? (some suffix) (some mapper) rest[0]? rest[1]?
  | _ => none

/-- The settings in a document. -/
def ofEntries? (entries : Entries) : Option Config :=
  if entries.all fun e => e.1 == "generator" then
    match Entries.get? "generator" entries with
    | some v => ofGenerator? v
    | none => some empty
  else none

/-! ## Reading -/

/-- Where a text first stands between double quotes. -/
def quotedSpan? (text needle : String) : Option Span :=
  let quoted := "\"" ++ needle ++ "\""
  (findIn quoted.toList text.toList).map fun n => ⟨byteSize (text.toList.take n) + 1, needle.utf8ByteSize⟩

/-- The fault in a suffix, if there is one. -/
def suffixError? (text suffix : String) : Option ConfigError :=
  if suffix.isEmpty then some ⟨.emptySuffix, quotedSpan? text "suffix"⟩
  else if Name.keepIdentifier suffix ≠ suffix then some ⟨.unusableSuffix suffix, quotedSpan? text suffix⟩
  else none

/-- The settings in a text. -/
def ofText (text : String) : Except ConfigError Config :=
  match (Toml.read text).bind ofEntries? with
  | none => .error ⟨.malformed, none⟩
  | some c =>
    match c.suffix.bind (suffixError? text) with
    | some e => .error e
    | none => .ok c

end Config

end Counterpart
