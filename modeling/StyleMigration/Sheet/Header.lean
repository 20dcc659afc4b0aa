import StyleMigration.Text.Blank
import StyleMigration.Sheet.Basic

/-!
Which headers are style rules. An at-rule and a nested property open a block; every other header is
a selector.
-/

set_option autoImplicit false

namespace StyleMigration.Sheet

open Text

/-- The characters of a property name. -/
def isPropertyChar (c : Char) : Bool :=
  c.isAlphanum || c == '-' || c == '_'

/-- Whether a header names a property whose parts are nested in the body, as in `font: bold`. After
the colon comes nothing or a blank, which tells it from a pseudo-class. -/
def isNestedProperty (header : List Char) : Bool :=
  let header := trim header
  let name := header.takeWhile (· != ':')
  match header.dropWhile (· != ':') with
  | [] => false
  | _ :: rest =>
    !name.isEmpty && (trimEnd name).all isPropertyChar && (rest.isEmpty || rest.head?.any isBlank)

end StyleMigration.Sheet
