import StyleMigration.Files.Tree
import StyleMigration.Text.Octets

/-!
What the small programs of every system have in common: they get words and an input, print an output
and messages, and can change files. A program that goes through files does what it can and tells at
the end whether all went well.
-/

set_option autoImplicit false

namespace StyleMigration.Command.Utility

open Text

/-- What a program is given and what it has done so far. -/
structure Task where
  tree : FileTree
  /-- The directory the program runs in, as a path from the top; empty for the top itself. -/
  directory : String
  input : Octets
  output : Octets
  messages : Octets
  status : Nat

namespace Task

/-- The path from the top that a name leads to. -/
def path (task : Task) (name : Octets) : String :=
  let name := name.toString
  if task.directory = "" ∨ FileTree.isAbsolute name ∨ name = "" then name
  else task.directory ++ "/" ++ name

def print (task : Task) (text : Octets) : Task :=
  { task with output := task.output ++ text }

/-- Says that something went wrong. -/
def complain (task : Task) (program message : String) (status : Nat) : Task :=
  { task with
    messages := task.messages ++ Octets.ofString (program ++ ": " ++ message ++ "\n")
    status := max task.status status }

/-- The text of a cause without its number. -/
def causeText (cause : IoCause) : String :=
  match cause.message.splitOn " (os error" with
  | text :: _ => text
  | [] => ""

/-- Says why something could not be done with a file. -/
def complainOf (task : Task) (program : String) (name : Octets) (cause : IoCause) : Task :=
  task.complain program (name.toString ++ ": " ++ causeText cause) 1

def finish (task : Task) (status : Nat) : Task :=
  { task with status }

/-- Takes all of the input. -/
def takeInput (task : Task) : Octets × Task :=
  (task.input, { task with input := [] })

/-- The entry that a name leads to. -/
def entryAt? (task : Task) (name : Octets) : Option FileEntry :=
  match task.tree.resolve true (task.path name) with
  | .ok (.taken _ entry) => some entry
  | _ => none

/-- The entry that a name stands for, where a link stands for itself. -/
def entryItself? (task : Task) (name : Octets) : Option FileEntry :=
  match task.tree.resolve false (task.path name) with
  | .ok (.taken _ entry) => some entry
  | _ => none

def isDirectory (task : Task) (name : Octets) : Bool :=
  task.entryAt? name == some .directory

/-- The content of a file, or the input if the name is a dash. -/
def read (task : Task) (name : Octets) : Except IoCause Octets × Task :=
  if name = ['-'] then
    let (input, task) := task.takeInput
    (.ok input, task)
  else if name.toString = "/dev/null" then
    (.ok [], task)
  else if name.toString = "/dev/stdin" then
    let (input, task) := task.takeInput
    (.ok input, task)
  else
    ((task.tree.readBytes (task.path name)).map Octets.ofBytes, task)

/-- Writes a file. -/
def write (task : Task) (name content : Octets) : Except IoCause Task :=
  if name.toString = "/dev/null" then .ok task
  else (task.tree.writeBytes (task.path name) content.toBytes).map fun tree => { task with tree }

/-- Goes through files, or through the input if no names are given. -/
def forFiles (task : Task) (program : String) (names : List Octets)
    (act : Task → Octets → Octets → Task) : Task :=
  (if names.isEmpty then [['-']] else names).foldl (fun task name =>
    match task.read name with
    | (.ok content, task) => act task name content
    | (.error cause, task) => task.complainOf program name cause) task

end Task

/-- The letters of the options before the other words, and those words. Two dashes end the
options. -/
def takeFlags : List Octets → List Char × List Octets
  | [] => ([], [])
  | word :: words =>
    match word with
    | ['-', '-'] => ([], words)
    | '-' :: c :: letters =>
      let (flags, rest) := takeFlags words
      (c :: letters ++ flags, rest)
    | _ => ([], word :: words)

/-- The options before the other words, of which the letters in `valued` have a value, in the same
word or in the next one. -/
def takeOptions (valued : Char → Bool) : (fuel : Nat) → List Octets →
    List (Char × Octets) × List Octets
  | 0, words => ([], words)
  | _ + 1, [] => ([], [])
  | fuel + 1, word :: words =>
    match word with
    | ['-', '-'] => ([], words)
    | '-' :: c :: letters =>
      if valued c then
        let (value, words) := match letters, words with
          | [], value :: words => (value, words)
          | letters, words => (letters, words)
        let (options, rest) := takeOptions valued fuel words
        ((c, value) :: options, rest)
      else
        let next := if letters.isEmpty then words else ('-' :: letters) :: words
        let (options, rest) := takeOptions valued fuel next
        ((c, []) :: options, rest)
    | _ => ([], word :: words)

/-- The options of some words. -/
def options (valued : String) (words : List Octets) : List (Char × Octets) × List Octets :=
  takeOptions valued.toList.contains ((words.map List.length).sum + words.length + 1) words

end StyleMigration.Command.Utility
