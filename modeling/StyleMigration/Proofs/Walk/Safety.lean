import StyleMigration.Sheet.Reader
import StyleMigration.Proofs.Walk.Lines
import StyleMigration.Proofs.Walk.Selectors

/-!
No text leads a walk into a fault. Selectors and stylesheets of every language are read over bytes with every
access checked: each byte and line that is read is there, each text is cut forward and between two characters,
no depth and no length is lowered below zero, and each step goes forward. The walks end with what reading by
characters gives (`walk_eq_ok`), whatever the text: also where a backslash takes the first byte of a longer
character, or is the last byte.
-/

set_option autoImplicit false

namespace StyleMigration.Walk

open Text

/-- Reads a stylesheet in its language over its bytes. -/
def walkSheet : Language → List Char → Except Fault (List Sheet.Node)
  | .css => walkBraces false
  | .scss => walkBraces true
  | .sass => walkIndentation

theorem walkSheet_eq (language : Language) (text : List Char) :
    walkSheet language text = .ok (Sheet.read language text) := by
  cases language with
  | css => exact walkBraces_eq false text
  | scss => exact walkBraces_eq true text
  | sass => exact walkIndentation_eq text

/-- Every text is read without a fault, as a selector and as a stylesheet of each language, and what is read is
what reading by characters gives. -/
theorem walk_eq_ok (text : List Char) :
    walkSelector text = .ok (Selector.read text) ∧
      ∀ language, walkSheet language text = .ok (Sheet.read language text) :=
  ⟨walkSelector_eq text, fun language => walkSheet_eq language text⟩

end StyleMigration.Walk
