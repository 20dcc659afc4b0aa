import StyleMigration.Failure
import StyleMigration.Language

/-!
Paths as texts. A path is a row of names parted by slashes, in which empty names and `.` stand for
nothing.
-/

set_option autoImplicit false

namespace StyleMigration.Path

/-- The texts between the slashes of a path. -/
def splitSlashes : List Char → List (List Char)
  | [] => [[]]
  | c :: path =>
    if c = '/' then
      [] :: splitSlashes path
    else
      match splitSlashes path with
      | [] => [[c]]
      | name :: names => (c :: name) :: names

/-- The names a path leads through. -/
def names (path : List Char) : List (List Char) :=
  (splitSlashes path).filter fun name => !name.isEmpty && name != ['.']

/-- The last name of a path, unless it leads upwards. -/
def fileName? (path : List Char) : Option (List Char) :=
  (names path).getLast?.filter (· != ['.', '.'])

/-- What follows the last dot of a name. A dot at its front alone does not count. -/
def nameExtension? (name : List Char) : Option (List Char) :=
  match name.reverse.dropWhile (· != '.') with
  | [] | [_] => none
  | _ :: _ :: _ => some (name.reverse.takeWhile (· != '.')).reverse

/-- The extension of the file a path leads to. -/
def extension? (path : String) : Option String :=
  ((fileName? path.toList).bind nameExtension?).map String.ofList

/-- The path of an entry in a directory. -/
def join (directory name : String) : String :=
  if directory.toList.getLast? = some '/' then directory ++ name else directory ++ "/" ++ name

end StyleMigration.Path

namespace StyleMigration.Language

/-- The language a style section declares; without a declaration it is css. -/
def ofAttribute (path : String) : Option String → Except Failure Language
  | none => .ok css
  | some name =>
    match ofName? name with
    | some language => .ok language
    | none => .error (.unknownLanguage path name)

/-- The language of a stylesheet, by its extension. -/
def ofPath (path : String) : Except Failure Language :=
  let extension := (Path.extension? path).getD ""
  match ofName? extension with
  | some language => .ok language
  | none => .error (.unknownLanguage path extension)

end StyleMigration.Language
