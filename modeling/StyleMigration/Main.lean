import StyleMigration.CommandLine

/-!
The program. It reads the current directory, runs the command line on it as a value, and then makes
the changes to the files. Symbolic links are left alone.
-/

set_option autoImplicit false

open StyleMigration

/-- The path of an entry from the current directory. -/
def pathOf (key : Key) : String :=
  "/".intercalate ("." :: key)

/-- The files and directories below a directory. -/
partial def entriesBelow (key : Key) : IO (List (Key × FileEntry)) := do
  let directory := (← IO.currentDir) / pathOf key
  let mut entries := []
  for found in ← directory.readDir do
    let key := key ++ [found.fileName]
    match (← found.path.symlinkMetadata).type with
    | .dir => entries := (key, .directory) :: (← entriesBelow key) ++ entries
    | .file => entries := (key, .file (← IO.FS.readBinFile found.path)) :: entries
    | _ => pure ()
  return entries

/-- Makes the files be as they are in a tree, given how they were. -/
def save (before after : FileTree) : IO Unit := do
  for (key, entry) in before.entries do
    if (after.get? key).isNone && entry != .directory then
      IO.FS.removeFile (pathOf key)
  for (key, entry) in after.entries do
    if before.get? key != some entry then
      match entry with
      | .directory => IO.FS.createDirAll (pathOf key)
      | .file bytes => IO.FS.writeBinFile (pathOf key) bytes
      | .link _ => pure ()

def main (arguments : List String) : IO UInt32 := do
  let before : FileTree := ⟨← entriesBelow []⟩
  let environment ← IO.getEnv Settings.maxEntriesVariable
  let outcome := CommandLine.run arguments environment before
  save before outcome.tree
  IO.print outcome.output
  IO.eprint outcome.errors
  return outcome.exitCode.toUInt32
