/-
What a command tells its user: lines for the output and lines for warnings.
-/
import Counterpart.Code.File
import Counterpart.Disk.Batch
import Counterpart.Generation.Run

namespace Counterpart

open Output Text

/-- Lines in order, without their ends. -/
structure Report where
  output : List String
  warnings : List String
deriving DecidableEq, Repr

namespace Report

/-- Lines as a text. -/
def textOf (lines : List String) : String := String.join (lines.map (· ++ "\n"))

def heading (s : String) : String := s ++ ":"

def pair (key value : String) : String := key ++ ": " ++ value

/-- A pair that belongs to the one above it. -/
def subPair (key value : String) : String := "  " ++ pair key value

def item (s : String) : String := "  - " ++ s

def createdItem (s : String) : String := "  + " ++ s

def replacedItem (s : String) : String := "  ~ " ++ s

def divider (s : String) : String := "── " ++ s ++ " ──"

/-- A title, underlined. -/
def title (s : String) : List String := [s, String.ofList (List.replicate s.length '=')]

/-- A number with a noun, in the plural unless there is one. -/
def counted (n : Nat) (noun : String) : String := toString n ++ " " ++ noun ++ if n = 1 then "" else "s"

end Report

namespace Diagnostic

/-- The message, and the place on a line of its own. -/
def described (d : Diagnostic) : String :=
  match d.location with
  | some location => d.message ++ "\n  --> " ++ location
  | none => d.message

end Diagnostic

namespace Generation

/-- The messages of a severity. -/
def messages (g : Generation) (s : Severity) : List String :=
  (g.diagnostics.filter fun d => d.severity == s).map Diagnostic.described

/-- The qualified name of the selected class. -/
def sourceName (g : Generation) : String :=
  match g.naming with
  | some n => g.project.qualifiedName n.root
  | none => g.options.selection

/-- The name of its counterpart. -/
def generatedName (g : Generation) : String := (g.root.map Ref.qualifiedName).getD ""

def warningLines (g : Generation) : List String := (g.messages .warning).map (Report.pair "warning")

/-! ## Generating -/

/-- The report on files that were written. -/
def writtenReport (g : Generation) (snapshots : Option Path) (w : WriteReport) : Report where
  output :=
    (match snapshots with
      | some dir => [Report.pair "Pipeline snapshots written to" dir.text, ""]
      | none => [])
    ++ [g.sourceName ++ " -> " ++ g.generatedName, "",
      Report.heading ("Files (" ++ toString (w.created.length + w.replaced.length) ++ ")")]
    ++ w.created.map (fun p => Report.createdItem p.text) ++ w.replaced.map fun p => Report.replacedItem p.text
  warnings := g.warningLines

/-- The report that shows files instead of writing them. -/
def previewReport (g : Generation) (files : List Code.RenderedFile) : Report where
  output := files.flatMap (fun f => [Report.divider f.path.text, f.content])
    ++ [Report.divider "Summary", Report.counted files.length "file" ++ " would be generated"]
  warnings := g.warningLines

/-! ## Checking -/

/-- A file that would be written. -/
def plannedLine (d : Disk) (f : File) : String :=
  let declarations :=
    if f.declarations.isEmpty then "no declarations" else join ", " (f.declarations.map (·.name))
  Report.item (f.path.text ++ " (" ++ declarations ++ "; " ++ Report.counted f.functions.length "mapper" ++ ")"
    ++ if d.exists? f.path then " [exists]" else "")

/-- The files that have something to write. -/
def filledFiles (g : Generation) : List File := g.workspace.files.toList.filter fun f => !f.isEmpty

def checkReport (g : Generation) (d : Disk) : Report where
  output :=
    let planned := g.filledFiles.map (plannedLine d)
    (g.messages .info).map (Report.pair "info")
    ++ (if (g.messages .warning).isEmpty && (g.messages .info).isEmpty then [] else [""])
    ++ (if planned.isEmpty then [] else Report.heading "Planned files" :: planned ++ [""])
    ++ ["✓ " ++ g.sourceName ++ " can be generated"]
  warnings := g.warningLines

/-! ## Explaining -/

/-- What became of a class. -/
def outcomeText (p : Project) (e : ClassId × Entity.Outcome) : String :=
  match e.2 with
  | .generated r => p.qualifiedName e.1 ++ " -> " ++ r.qualifiedName
  | .skipped => p.qualifiedName e.1 ++ " (skipped, name taken)"

/-- What a run gives for a class. -/
def explanation (g : Generation) : List String :=
  ["", Report.pair "Input" g.sourceName, Report.subPair "Generated root" g.generatedName,
    Report.subPair "Mapper function" ((g.naming.map Naming.functionName).getD ""),
    Report.subPair "Mapper placement" g.options.placement.text, "", Report.heading "Generated Classes"]
  ++ ((g.table.map (·.entries)).getD []).map (fun e => Report.item (outcomeText g.project e))
  ++ ["", Report.heading "Files to Generate"]
  ++ g.filledFiles.map fun f => Report.item f.path.text

end Generation

namespace Report

/-- The numbered lines of a list. -/
def numbered (first : Nat) : List String → List String
  | [] => []
  | s :: ss => ("  " ++ toString first ++ ". " ++ s) :: numbered (first + 1) ss

/-- The description of the phases and checks. -/
def phases : List String :=
  title "mapgen Pipeline Explanation" ++ ["", heading "Pipeline Phases"]
  ++ numbered 1 (Phase.builtin.map fun p => p.name ++ " - " ++ p.description)
  ++ ["", heading "Validation Lints"]
  ++ Lint.all.map fun l => item (l.name ++ ": " ++ l.describe)

/-! ## Listing -/

/-- A class of the project. -/
def classLine (p : Project) (c : ClassDecl) : String :=
  item (p.qualifiedName c.id ++ " [" ++ c.kind.keyword ++ "] " ++ (p.fileOf c.id).path.text
    ++ if c.isSupported then "" else " (not selectable)")

/-- The classes of a project in the order of their names. -/
def classes (p : Project) : List String :=
  let all := p.classes.toList.mergeSort fun c d => !(decide (p.qualifiedName d.id < p.qualifiedName c.id))
  if all.isEmpty then ["No classes found"]
  else heading ("Classes (" ++ toString (all.filter ClassDecl.isSupported).length ++ " of " ++ toString all.length
      ++ " selectable)") :: all.map (classLine p)

end Report

end Counterpart
