import StyleMigration.Markup.Wellformed
import StyleMigration.Markup.Repair.View

/-!
Reading markup: as it stands if it has no fault, and with repairs otherwise.
-/

set_option autoImplicit false

namespace StyleMigration.Markup

def read (source : List Char) : Document :=
  match readWellformed? source with
  | some nodes => ⟨nodes, none⟩
  | none => Repair.read source

end StyleMigration.Markup
