import StyleMigration.Language
import StyleMigration.Sheet.Braces
import StyleMigration.Sheet.Indentation

/-!
Reading a stylesheet in its language. Line comments are known to scss only.
-/

set_option autoImplicit false

namespace StyleMigration.Sheet

def read : Language → List Char → List Node
  | .css => readBraces false
  | .scss => readBraces true
  | .sass => readIndentation

end StyleMigration.Sheet
