import StyleMigration.Command.Shell.Run

/-!
Running the programs that every system has. Other names are not found. A name with a slash in it
leads to a file or a directory, and neither can be run.
-/

set_option autoImplicit false

namespace StyleMigration.Command.Programs

open Text Shell

/-- Directories of every system. -/
def systemDirectories : List String :=
  [".", "..", "/", "/bin", "/etc", "/tmp", "/usr", "/usr/bin"]

/-- Why a name that is none of the programs cannot be run. -/
def refusal (tree : FileTree) (name : String) : IoCause :=
  if systemDirectories.contains name then
    .permissionDenied
  else if name.toList.contains '/' then
    match tree.resolve true name with
    | .error cause => cause
    | .ok (.free _) => .notFound
    | .ok (.taken _ _) => .permissionDenied
  else if FileTree.maxNameLength < name.utf8ByteSize then
    .nameTooLong
  else
    .notFound

/-- Whether a name is one of the programs. -/
def isKnown (program : String) : Bool :=
  (Utility.program? (baseName program)).isSome || isRunner (baseName program)

/-- What a program is started in: nothing to read, and the top directory. -/
def start (tree : FileTree) : Process where
  tree := tree
  directory := ""
  bindings := [("PATH", ⟨"/usr/local/bin:/usr/bin:/bin".toList, true, false⟩)]
  name := "sh".toList
  arguments := []
  functions := []
  status := 0
  options := []
  channels := [(0, .input 0), (1, .output 0), (2, .messages)]
  inputs := [[]]
  outputs := [[]]
  traps := []
  isTested := false
  loops := 0
  calls := 0
  hidden := []
  substituted? := none
  background? := none
  signal? := none
  number := 4000
  readsEscapes := true

/-- How deep commands can run inside commands, and how many rounds a loop can have. -/
def maxDepth : Nat := 6000

/-- The outcome of a program: how it ended, the files, and what it printed. -/
def outcome (world : World String) (process : Process) : Launch × World String :=
  let printed := (process.outputs.headD []).toString
  (match process.signal? with
    | some _ => .signalled
    | none => .exited process.status,
   ⟨process.tree, world.outside ++ printed⟩)

/-- Runs a program. What it prints is added to the end of what lies outside the files. -/
def run : Runner String
  | [], world => (.failed (.other "empty command"), world)
  | program :: arguments, world =>
    if (program :: arguments).any (·.toList.contains '\x00') then
      (.failed (.other "nul byte found in provided data"), world)
    else if isKnown program then
      let act := runProgram maxDepth (.ofString program) (arguments.map .ofString)
      match act.run (start world.tree) with
      | .ok _ process | .error _ process => outcome world process
    else
      (.failed (refusal world.tree program), world)

end StyleMigration.Command.Programs
