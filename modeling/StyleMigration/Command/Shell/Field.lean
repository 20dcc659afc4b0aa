import StyleMigration.Command.Pattern
import StyleMigration.Command.Utility.FileWork

/-!
From the expanded pieces of a word to the fields it makes: values that are not quoted are split, and
a field that is a pattern stands for the files whose paths it matches.
-/

set_option autoImplicit false

namespace StyleMigration.Command.Shell

open Text Utility

/-- A piece of a word after expansion. -/
inductive Fragment where
  | text (quoted : Bool) (text : Octets)
  /-- A value that is split into fields. -/
  | split (text : Octets)
  /-- The end of one argument before the next. -/
  | boundary
  deriving DecidableEq, Repr

namespace Fragment

/-- Fragments as one field without splitting. -/
def marks (fragments : List Fragment) : Marks :=
  fragments.flatMap fun
    | .text quoted content => Marks.ofText quoted content
    | .split content => Marks.ofText false content
    | .boundary => Marks.ofText true [' ']

def joined (fragments : List Fragment) : Octets :=
  Marks.text (marks fragments)

end Fragment

/-- Fields under construction: those that are done in reverse, the open one, and whether a blank has
just ended one. -/
structure Splitter where
  done : List Marks
  current : Option Marks
  endedByBlank : Bool

namespace Splitter

def finish (splitter : Splitter) : Splitter :=
  match splitter.current with
  | some field => ⟨field :: splitter.done, none, false⟩
  | none => splitter

def add (splitter : Splitter) (marks : Marks) : Splitter :=
  ⟨splitter.done, some (splitter.current.getD [] ++ marks), false⟩

/-- Takes a character of a value that is split at the separators. -/
def step (separators : Octets) (splitter : Splitter) (c : Char) : Splitter :=
  let isBlank := c == ' ' || c == '\t' || c == '\n'
  if !separators.contains c then
    splitter.add [⟨c, false⟩]
  else if isBlank then
    match splitter.current with
    | some field => ⟨field :: splitter.done, none, true⟩
    | none => splitter
  else if splitter.endedByBlank then
    { splitter with endedByBlank := false }
  else
    ⟨splitter.current.getD [] :: splitter.done, none, false⟩

def fragment (separators : Octets) (splitter : Splitter) : Fragment → Splitter
  | .text quoted text =>
    if text.isEmpty && !quoted then splitter else splitter.add (Marks.ofText quoted text)
  | .split text => text.foldl (step separators) splitter
  | .boundary => splitter.finish

end Splitter

/-- The fields of a word. -/
def fieldsOf (separators : Octets) (fragments : List Fragment) : List Marks :=
  ((fragments.foldl (Splitter.fragment separators) ⟨[], none, false⟩).finish).done.reverse

/-- The parts of a pattern between slashes. -/
def patternParts : Marks → List Marks
  | [] => [[]]
  | mark :: marks =>
    match patternParts marks with
    | [] => [[mark]]
    | part :: parts => if mark.char = '/' then [] :: part :: parts else (mark :: part) :: parts

/-- The paths that the parts of a pattern match, from a path on that was matched before. -/
def matchPaths (task : Task) : List Marks → Octets → List Octets
  | [], path => if (task.entryItself? path).isSome then [path] else []
  | part :: parts, path =>
    let separator := if parts.isEmpty then [] else ['/']
    if part.isOpen then
      let directory := if path.isEmpty then ['.'] else path
      let names := match task.tree.resolve true (task.path directory) with
        | .ok (.taken key .directory) => ['.'] :: ['.', '.'] :: FileWork.namesIn task.tree key
        | _ => []
      let shown (name : Octets) : Bool :=
        name.head? != some '.' || part.head?.any fun mark => mark.char = '.'
      ((names.filter fun name => shown name && part.standsFor name).filter fun name =>
        parts.isEmpty || task.isDirectory (path ++ name)).flatMap fun name =>
          matchPaths task parts (path ++ name ++ separator)
    else
      matchPaths task parts (path ++ part.text ++ separator)

/-- The paths that a field stands for, or the field itself. -/
def pathsOf (task : Task) (field : Marks) : List Octets :=
  if field.isOpen then
    match matchPaths task (patternParts field) [] with
    | [] => [field.text]
    | paths => paths
  else
    [field.text]

end StyleMigration.Command.Shell
