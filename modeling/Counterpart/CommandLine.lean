/-
Reading the command line. Options may stand before and after the class, short ones may be joined, and a value may
follow its option with or without a sign between; after a double hyphen everything is a word. An option that waits
for its value is settled by the next thing that is no value, so a bad value is reported only then.
-/
import Counterpart.Naming

namespace Counterpart

/-! ## Commands -/

/-- Where sources and configuration are found. -/
structure SourceChoice where
  roots : List Path
  config : Option Path
deriving DecidableEq, Repr

/-- The selected class and what is said about its counterpart. -/
structure Selection where
  className : String
  name : Option String
  suffix : Option String
  placement : Option MapperPlacement
deriving DecidableEq, Repr

inductive Command
  /-- Writes the generated files, or shows them; `visualize` is a directory for snapshots. -/
  | generate (selection : Selection) (sources : SourceChoice) (force dryRun : Bool) (visualize : Option Path)
  /-- Shows what would be written. -/
  | check (selection : Selection) (sources : SourceChoice)
  /-- Lists the classes of the sources. -/
  | list (sources : SourceChoice)
  /-- Describes the phases, and what they do for a class. -/
  | explain (className : Option String) (sources : SourceChoice)
deriving DecidableEq, Repr

/-- The sources that a command reads; a description of the phases alone reads none. -/
def Command.sources? : Command → Option SourceChoice
  | generate _ sources .. | check _ sources | list sources | explain (some _) sources => some sources
  | explain none _ => none

/-- Why a command line gives no command. The first three are answered with a text. -/
inductive UsageError
  | displayHelp
  | displayVersion
  | nothingGiven
  | missingCommand
  | unknownCommand
  | missingClass
  | unknownArgument
  /-- An option without its value, or with an empty path. -/
  | missingValue
  /-- A value that is none of those allowed. -/
  | invalidValue
  /-- A flag with a value. -/
  | unwantedValue
  /-- An option given twice, or two that exclude each other. -/
  | conflict
deriving DecidableEq, Repr

namespace UsageError

/-- How the program is called. -/
def usage : String :=
  "Usage: mapgen generate <CLASS> [--name NAME] [--suffix SUFFIX] [--mapper inline|separate] [--source PATH]...\n"
  ++ "                       [--config FILE] [--force] [--dry-run] [--visualize DIR]\n"
  ++ "       mapgen check <CLASS> [--name NAME] [--suffix SUFFIX] [--mapper inline|separate] [--source PATH]...\n"
  ++ "                       [--config FILE]\n"
  ++ "       mapgen list [--source PATH]... [--config FILE]\n"
  ++ "       mapgen explain [CLASS] [--source PATH]... [--config FILE]"

def message : UsageError → String
  | displayHelp | nothingGiven => usage
  | displayVersion => "mapgen 0.1.0"
  | missingCommand => "error: a command is missing"
  | unknownCommand => "error: there is no such command"
  | missingClass => "error: a class is missing"
  | unknownArgument => "error: there is no such argument"
  | missingValue => "error: an option has no value"
  | invalidValue => "error: a value is not allowed"
  | unwantedValue => "error: a flag has a value"
  | conflict => "error: arguments exclude each other"

/-- Whether the text was asked for. -/
def isAnswer : UsageError → Bool
  | displayHelp | displayVersion => true
  | _ => false

end UsageError

namespace CommandLine

/-! ## Options -/

/-- The names of the commands. -/
inductive Verb
  | generate
  | check
  | list
  | explain
deriving DecidableEq, Repr

def Verb.all : List Verb := [.generate, .check, .list, .explain]

def Verb.word : Verb → String
  | .generate => "generate"
  | .check => "check"
  | .list => "list"
  | .explain => "explain"

def Verb.ofWord? (s : String) : Option Verb := Verb.all.find? fun v => v.word == s

/-- Names that no command described here may take. -/
def keptNames : List String := ["help", "completions"]

/-- Whether a word is the name of a command or kept for one. -/
def namesCommand (s : String) : Bool := keptNames.contains s || (Verb.ofWord? s).isSome

/-- How many words may follow the name of a command. -/
def Verb.maxWords : Verb → Nat
  | .list => 0
  | _ => 1

inductive Opt
  | help
  | version
  | verbose
  | quiet
  | name
  | suffix
  | mapper
  | source
  | config
  | force
  | dryRun
  | visualize
deriving DecidableEq, Repr

namespace Opt

def long : Opt → String
  | help => "help"
  | version => "version"
  | verbose => "verbose"
  | quiet => "quiet"
  | name => "name"
  | suffix => "suffix"
  | mapper => "mapper"
  | source => "source"
  | config => "config"
  | force => "force"
  | dryRun => "dry-run"
  | visualize => "visualize"

def short? : Opt → Option Char
  | help => some 'h'
  | version => some 'V'
  | verbose => some 'v'
  | quiet => some 'q'
  | name => some 'n'
  | mapper => some 'm'
  | source => some 's'
  | config => some 'c'
  | force => some 'f'
  | suffix | dryRun | visualize => none

def takesValue : Opt → Bool
  | name | suffix | mapper | source | config | visualize => true
  | _ => false

/-- Whether the value is a path. -/
def isPath : Opt → Bool
  | source | config | visualize => true
  | _ => false

end Opt

/-- The options before a command, and those of the commands. -/
def optionsOf : Option Verb → List Opt
  | none => [.verbose, .quiet, .help, .version]
  | some .generate =>
    [.name, .suffix, .mapper, .source, .config, .force, .dryRun, .visualize, .verbose, .quiet, .help]
  | some .check => [.name, .suffix, .mapper, .source, .config, .verbose, .quiet, .help]
  | some .list | some .explain => [.source, .config, .verbose, .quiet, .help]

def findLong? (v : Option Verb) (s : String) : Option Opt := (optionsOf v).find? fun o => o.long == s

def findShort? (v : Option Verb) (c : Char) : Option Opt := (optionsOf v).find? fun o => o.short? == some c

/-! ## What was given -/

/-- An option that is not settled yet, with the value read for it. -/
structure Pending where
  opt : Opt
  value : Option String
deriving DecidableEq, Repr

/-- What was read before a command, or after it. -/
structure Given where
  /-- The settled options with their values, in order; a flag has an empty one. -/
  options : List (Opt × String)
  words : List String
  pending : Option Pending
  /-- Whether there was a double hyphen. -/
  wordsOnly : Bool

namespace Given

def empty : Given := ⟨[], [], none, false⟩

def has (g : Given) (o : Opt) : Bool := g.options.any fun e => e.1 == o

def value? (g : Given) (o : Opt) : Option String := (g.options.find? fun e => e.1 == o).map (·.2)

/-- Takes an option in. Only sources may be given again. -/
def take (g : Given) (o : Opt) (value : String) : Except UsageError Given :=
  if o ≠ .source && g.has o then .error .conflict
  else if o.isPath && value.isEmpty then .error .missingValue
  else if o = .mapper && (MapperPlacement.ofText? value).isNone then .error .invalidValue
  else .ok { g with options := g.options ++ [(o, value)] }

/-- Settles the option that waits. -/
def settle (g : Given) : Except UsageError Given :=
  match g.pending with
  | none => .ok g
  | some ⟨_, none⟩ => .error .missingValue
  | some ⟨o, some value⟩ => ({ g with pending := none } : Given).take o value

/-- A flag. -/
def flag (g : Given) (o : Opt) : Except UsageError Given := do
  let g ← g.settle
  match o with
  | .help => throw .displayHelp
  | .version => throw .displayVersion
  | o => g.take o ""

/-- An option with a value that may still follow. -/
def valued (g : Given) (o : Opt) (value : Option String) : Except UsageError Given := do
  let g ← g.settle
  match value with
  | some value => g.take o value
  | none => return { g with pending := some ⟨o, none⟩ }

/-! ## Arguments -/

/-- An option in its long form, after the hyphens. -/
def longOption (v : Option Verb) (g : Given) (body : List Char) : Except UsageError Given :=
  let name := String.ofList (body.takeWhile (· != '='))
  let value := match body.dropWhile (· != '=') with
    | [] => none
    | _ :: value => some (String.ofList value)
  match findLong? v name with
  | none => .error .unknownArgument
  | some o =>
    if o.takesValue then g.valued o value
    else if value.isSome then .error .unwantedValue
    else g.flag o

/-- Options in their short forms, after the hyphen. -/
def shortOptions (v : Option Verb) : Given → List Char → Except UsageError Given
  | g, [] => .ok g
  | g, c :: cs =>
    match findShort? v c with
    | none => .error .unknownArgument
    | some o =>
      if o.takesValue then
        g.valued o (match cs with
          | [] => none
          | '=' :: value => some (String.ofList value)
          | value => some (String.ofList value))
      else do shortOptions v (← g.flag o) cs

/-- A word. Before a command there is none, so it should have been one; the name of a command stands in vain after
a double hyphen. -/
def word (v : Option Verb) (g : Given) (s : String) : Except UsageError Given :=
  match v with
  | none => .error (if g.wordsOnly && namesCommand s then .unknownArgument else .unknownCommand)
  | some v =>
    if g.words.length < v.maxWords then do
      let g ← g.settle
      return { g with words := g.words ++ [s] }
    else .error .unknownArgument

/-- One argument. -/
def argument (v : Option Verb) (g : Given) (s : String) : Except UsageError Given :=
  if g.wordsOnly then g.word v s
  else match s.toList, g.pending with
    | ['-', '-'], _ => .ok { g with wordsOnly := true }
    | '-' :: '-' :: body, _ => g.longOption v body
    | '-' :: c :: cs, _ => g.shortOptions v (c :: cs)
    | _, some ⟨o, none⟩ => .ok { g with pending := some ⟨o, some s⟩ }
    | _, _ => g.word v s

/-- What holds of everything that was read: no option waits, and no two exclude each other. -/
def finish (g : Given) : Except UsageError Given := do
  let g ← g.settle
  if g.has .verbose && g.has .quiet then throw .conflict else return g

/-! ## Commands -/

def paths (g : Given) (o : Opt) : List Path :=
  (g.options.filter fun e => e.1 == o).map fun e => ⟨e.2⟩

def sources (g : Given) : SourceChoice := ⟨g.paths .source, (g.paths .config).head?⟩

/-- The selection, which needs a class. -/
def selection (g : Given) : Except UsageError Selection :=
  match g.words with
  | [] => .error .missingClass
  | c :: _ => .ok ⟨c, g.value? .name, g.value? .suffix, (g.value? .mapper).bind MapperPlacement.ofText?⟩

def command (g : Given) : Verb → Except UsageError Command
  | .generate => do
    return .generate (← g.selection) g.sources (g.has .force) (g.has .dryRun) (g.paths .visualize).head?
  | .check => do return .check (← g.selection) g.sources
  | .list => .ok (.list g.sources)
  | .explain => .ok (.explain g.words.head? g.sources)

end Given

/-! ## The whole line -/

/-- The help on commands: the words after `help` must lead to one. -/
def helpOn : List String → UsageError
  | [] => .displayHelp
  | [s] => if namesCommand s then .displayHelp else .unknownCommand
  | _ => .unknownCommand

/-- The command that follows what was given before it. -/
def readFrom (g : Given) : List String → Except UsageError Command
  | [] => .error (if g.options.isEmpty then .nothingGiven else .missingCommand)
  | s :: rest =>
    match g.wordsOnly, Verb.ofWord? s with
    | false, some v => do
      let given ← rest.foldlM (Given.argument (some v)) .empty
      let given ← given.finish
      let command ← given.command v
      let _ ← g.finish
      return command
    | _, _ =>
      if !g.wordsOnly && s = "help" then .error (helpOn rest)
      else do readFrom (← g.argument none s) rest

/-- The command that the arguments of the program ask for. -/
def read (args : List String) : Except UsageError Command := readFrom .empty args

end CommandLine

end Counterpart
