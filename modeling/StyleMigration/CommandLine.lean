import StyleMigration.Migration
import StyleMigration.Command.Programs

/-!
The command line: one directory, which is the current one unless given, and a few flags. The exit
code is 0 if the migration went through, 1 if it failed, and 2 if the arguments are at fault.
-/

set_option autoImplicit false

namespace StyleMigration.CommandLine

inductive Flag where
  | skipDivision
  | report
  | verbose
  | quiet
  deriving DecidableEq, Repr

/-- The arguments of a run. -/
structure Arguments where
  directory : Option String
  flags : List Flag
  deriving DecidableEq, Repr

/-- What the arguments ask for. -/
inductive Request where
  | migrate (arguments : Arguments)
  | help
  | fault
  deriving DecidableEq, Repr

def longFlag? : String → Option Flag
  | "--skip-division" => some .skipDivision
  | "--report" => some .report
  | "--verbose" => some .verbose
  | "--quiet" => some .quiet
  | _ => none

def shortFlag? : Char → Option Flag
  | 'v' => some .verbose
  | 'q' => some .quiet
  | _ => none

namespace Arguments

def empty : Arguments := ⟨none, []⟩

/-- Takes a flag, which may be given once. -/
def addFlag? (arguments : Arguments) (flag : Flag) : Option Arguments :=
  if arguments.flags.contains flag then none
  else some { arguments with flags := arguments.flags ++ [flag] }

/-- Takes the directory, which may be given once and is not empty. -/
def addDirectory? (arguments : Arguments) (directory : String) : Option Arguments :=
  if directory = "" ∨ arguments.directory.isSome then none
  else some { arguments with directory := some directory }

/-- What the arguments ask for once all are read. -/
def finish (arguments : Arguments) : Request :=
  if arguments.flags.contains .verbose && arguments.flags.contains .quiet then .fault
  else .migrate arguments

end Arguments

/-- Reads the flags in one argument. -/
def readShort (arguments : Arguments) : List Char → Except Request Arguments
  | [] => .ok arguments
  | 'h' :: _ => .error .help
  | c :: flags =>
    match (shortFlag? c).bind arguments.addFlag? with
    | some arguments => readShort arguments flags
    | none => .error .fault

/-- Reads arguments of which all are directories. -/
def readDirectories (arguments : Arguments) : List String → Request
  | [] => arguments.finish
  | text :: texts =>
    match arguments.addDirectory? text with
    | some arguments => readDirectories arguments texts
    | none => .fault

/-- Reads arguments; after `--` there are no more flags. -/
def readFrom (arguments : Arguments) : List String → Request
  | [] => arguments.finish
  | text :: texts =>
    if text = "--" then
      readDirectories arguments texts
    else if text = "--help" then
      .help
    else
      match text.toList with
      | '-' :: '-' :: _ =>
        match (longFlag? text).bind arguments.addFlag? with
        | some arguments => readFrom arguments texts
        | none => .fault
      | '-' :: c :: flags =>
        match readShort arguments (c :: flags) with
        | .ok arguments => readFrom arguments texts
        | .error request => request
      | _ =>
        match arguments.addDirectory? text with
        | some arguments => readFrom arguments texts
        | none => .fault

def read (texts : List String) : Request :=
  readFrom .empty texts

def usage : String := "Usage: vue-style-migrate [OPTIONS] [DIR]\n"

def help : String :=
  "Migrate Vue component styles to :deep and math.div\n\n" ++ usage ++
  "\nArguments:\n" ++
  "  [DIR]  Project directory to migrate [default: .]\n" ++
  "\nOptions:\n" ++
  "      --skip-division  Only rewrite selectors, do not run sass-migrator\n" ++
  "      --report         Print a JSON summary of the run to stdout\n" ++
  "  -v, --verbose        Log debug output\n" ++
  "  -q, --quiet          Only log errors\n" ++
  "  -h, --help           Print help\n"

/-- A list of numbers in lines, as it stands in the report. -/
def numberLines : List Nat → String
  | [] => "[]"
  | numbers => "[\n" ++ ",\n".intercalate (numbers.map fun n => "    " ++ toString n) ++ "\n  ]"

/-- The report as it is printed. -/
def reportText (report : Report) : String :=
  let fields := [
    ("component_files", toString report.components),
    ("style_chunks", toString report.chunks),
    ("stylesheets", toString report.stylesheets),
    ("rewritten_stylesheets", toString report.changedStylesheets),
    ("migrator_batches", numberLines report.batches),
    ("written_component_files", toString report.changedComponents)]
  let lines := fields.map fun (name, value) => "  \"" ++ name ++ "\": " ++ value
  "\x7b\n" ++ ",\n".intercalate lines ++ "\n\x7d\n"

/-- What a run of the program leaves: its exit code, its output and the files. -/
structure Outcome where
  exitCode : Nat
  output : String
  errors : String
  tree : FileTree

/-- The settings of a run, from the file in the current directory, the environment and the flags. -/
def settingsFor (arguments : Arguments) (environment : Option String) (tree : FileTree) :
    Settings :=
  let file := (tree.readText Settings.fileName).toOption
  let settings := (Settings.ofFile file).withEnvironment environment
  if arguments.flags.contains .skipDivision then { settings with runDivision := false }
  else settings

/-- Runs the program on the files of the current directory. -/
def run (texts : List String) (environment : Option String) (tree : FileTree) : Outcome :=
  match read texts with
  | .fault => ⟨2, "", usage, tree⟩
  | .help => ⟨0, help, "", tree⟩
  | .migrate arguments =>
    let settings := settingsFor arguments environment tree
    let root := arguments.directory.getD "."
    let (outcome, world) := Migration.run settings root Command.Programs.run ⟨tree, ""⟩
    match outcome with
    | .error failure => ⟨1, world.outside, "Error: " ++ failure.message ++ "\n", world.tree⟩
    | .ok report =>
      let text := if arguments.flags.contains .report then reportText report else ""
      ⟨0, world.outside ++ text, "", world.tree⟩

end StyleMigration.CommandLine
