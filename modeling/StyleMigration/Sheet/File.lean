import StyleMigration.Files.Tree
import StyleMigration.Sheet.Migration

/-!
Migration of a stylesheet file. A file whose selectors need no change is not written.
-/

set_option autoImplicit false

namespace StyleMigration.Sheet

/-- Migrates the selectors of a stylesheet file, and tells whether that changed it. -/
def migrateFile (tree : FileTree) (path : String) : Except Failure (Bool × FileTree) := do
  let language ← Language.ofPath path
  let source ← (tree.readText path).mapError (.io path)
  let output ← (migrate language source).mapError fun ambiguity =>
    .ambiguousSelector path (String.ofList ambiguity.selector)
  if output = source then
    return (false, tree)
  else
    let tree ← (tree.writeText path output).mapError (.io path)
    return (true, tree)

end StyleMigration.Sheet
