/-
Classes and enums as code. The properties of a primary constructor stay on the line of the header as long as that
line is short enough.
-/
import Counterpart.Code.Layout
import Counterpart.Kotlin.Keyword
import Counterpart.Output.Declaration

namespace Counterpart.Code

open Kotlin Output

/-- A constructor property. -/
def propertyText (p : Param) : String :=
  (if p.mutable then "var " else "val ") ++ safeName p.name ++ ": " ++ p.ty

/-- The property as a keyword, a name and a type with separators between them. -/
theorem propertyText_eq (p : Param) :
    propertyText p = (if p.mutable then "var" else "val") ++ (" " ++ (safeName p.name ++ (": " ++ p.ty))) := by
  rw [propertyText]
  cases p.mutable <;> simp only [← String.append_assoc] <;> rfl

theorem isPlain_propertyKeyword (isMutable : Bool) : Name.isPlain (if isMutable then "var" else "val") := by
  cases isMutable <;> decide

/-- The header of a declaration up to its constructor. An enum has no type parameters. -/
def headerText (d : Declaration) : String :=
  match d.kind with
  | .data => "data class " ++ safeName d.name ++ d.typeParams.getD ""
  | .plain => "class " ++ safeName d.name ++ d.typeParams.getD ""
  | .enum => "enum class " ++ safeName d.name

/-- Header and constructor; `after` follows. -/
def constructorFragments (d : Declaration) (after : String) : List Fragment :=
  if d.params.isEmpty then [.line (headerText d ++ after)]
  else (Listing.mk (headerText d) (d.params.map fun p => [propertyText p]) after).fragments

/-- An enum constant with what ends it. -/
def constantText (e : EnumEntry) (ending : String) : String :=
  safeName e.name ++ e.args.getD "" ++ ending

/-- The constants of an enum, one a line. Where members follow, a semicolon ends the list, even an empty one. -/
def constantLines (hasMembers : Bool) : List EnumEntry → List String
  | [] => if hasMembers then [";"] else []
  | [last] => [constantText last (if hasMembers then ";" else ",")]
  | e :: es => constantText e "," :: constantLines hasMembers es

/-- A constructor and a body in braces; an empty body is left out. -/
def withBody (d : Declaration) (body : List Fragment) : List Fragment :=
  if body.isEmpty then constructorFragments d ""
  else constructorFragments d " \x7b" ++ [.indented body, .line "\x7d"]

mutual

def fragmentsOf : Declaration → List Fragment
  | ⟨name, kind, source, typeParams, params, entries, nested⟩ =>
    let constants :=
      match kind with
      | .enum => (constantLines (!nested.isEmpty) entries).map Fragment.line
      | _ => []
    let gap := if constants.isEmpty || nested.isEmpty then [] else [Fragment.blank]
    withBody ⟨name, kind, source, typeParams, params, entries, nested⟩
      (constants ++ gap ++ Fragment.separated (fragmentsOfAll nested))

def fragmentsOfAll : List Declaration → List (List Fragment)
  | [] => []
  | d :: ds => fragmentsOf d :: fragmentsOfAll ds

end

end Counterpart.Code
