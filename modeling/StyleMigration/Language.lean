/-!
The languages a stylesheet or a style section is written in.
-/

set_option autoImplicit false

namespace StyleMigration

inductive Language where
  | css
  | scss
  | sass
  deriving DecidableEq, Repr

namespace Language

/-- The name of a language, which is also the extension of its files. -/
def name : Language → String
  | css => "css"
  | scss => "scss"
  | sass => "sass"

/-- The language with a given name. -/
def ofName? : String → Option Language
  | "css" => some css
  | "scss" => some scss
  | "sass" => some sass
  | _ => none

end Language

end StyleMigration
