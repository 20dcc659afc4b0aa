import StyleMigration.Splice
import StyleMigration.Files.Tree
import StyleMigration.Component.Section

/-!
Staging files. Each style section of a component is written to a file of its own beside the
component, where it can be treated like any stylesheet, and is later put back in its place. A
section is recorded before its file is written, so that no file is left behind unknown.
-/

set_option autoImplicit false

namespace StyleMigration.Component

/-- The name part that marks staging files. -/
def stagingMark : String := "vue_sass_migrating"

/-- The path of the staging file for a section. -/
def stagingPath (component : String) (index : Nat) (language : Language) : String :=
  component ++ "." ++ stagingMark ++ "." ++ toString index ++ "." ++ language.name

/-- A section that has a staging file. -/
structure Chunk where
  stagingPath : String
  language : Language
  start : Nat
  stop : Nat
  index : Nat
  deriving DecidableEq, Repr

/-- A component with the sections that were staged. -/
structure Staged where
  path : String
  chunks : List Chunk
  deriving DecidableEq, Repr

/-- What staging did: the files after it, the recorded sections, and why it stopped if it did. -/
structure StagingResult (α : Type) where
  tree : FileTree
  recorded : α
  stopped : Option Failure

/-- Stages the sections of a component one after the other. -/
def stageSections (path : String) (tree : FileTree) : List Section → StagingResult (List Chunk)
  | [] => ⟨tree, [], none⟩
  | sec :: sections =>
    match Language.ofAttribute path sec.language? with
    | .error failure => ⟨tree, [], some failure⟩
    | .ok language =>
      let chunk : Chunk :=
        ⟨stagingPath path sec.index language, language, sec.start, sec.stop, sec.index⟩
      match tree.writeText chunk.stagingPath sec.content with
      | .error cause => ⟨tree, [chunk], some (.io chunk.stagingPath cause)⟩
      | .ok tree =>
        let rest := stageSections path tree sections
        { rest with recorded := chunk :: rest.recorded }

/-- Stages the style sections of a component. -/
def stage (tree : FileTree) (path : String) : StagingResult Staged :=
  let found := do
    let source ← (tree.readText path).mapError (Failure.io path)
    sections path source
  match found with
  | .error failure => ⟨tree, ⟨path, []⟩, some failure⟩
  | .ok sections =>
    let result := stageSections path tree sections
    ⟨result.tree, ⟨path, result.recorded⟩, result.stopped⟩

/-- The replacement that puts a staged section back as it is now. -/
def Chunk.replacement (tree : FileTree) (chunk : Chunk) : Except Failure Replacement := do
  let text ← (tree.readText chunk.stagingPath).mapError (.io chunk.stagingPath)
  return ⟨chunk.start, chunk.stop, text⟩

/-- The replacements that put the staged sections back as they are now. -/
def Staged.replacements (tree : FileTree) (staged : Staged) : Except Failure (List Replacement) :=
  staged.chunks.mapM (Chunk.replacement tree)

/-- Makes replacements in a file, and tells whether that changed it. -/
def applyReplacements (tree : FileTree) (path : String) (replacements : List Replacement) :
    Except Failure (Bool × FileTree) := do
  let source ← (tree.readText path).mapError (.io path)
  let output ← splice source replacements
  if output = source then
    return (false, tree)
  else
    let tree ← (tree.writeText path output).mapError (.io path)
    return (true, tree)

/-- Puts the staged sections of a component back, and tells whether that changed it. -/
def Staged.writeBack (tree : FileTree) (staged : Staged) : Except Failure (Bool × FileTree) := do
  applyReplacements tree staged.path (← staged.replacements tree)

end StyleMigration.Component
