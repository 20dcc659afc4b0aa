import StyleMigration.Path

/-!
A directory with all below it, as a value. Entries are named by the names that lead to them from
the top, so each entry stands for itself and a change of one leaves the others alone. Paths are
looked up name by name: symbolic links are followed, except for the last name where the link itself
is meant, and what lies above the top cannot be seen. So all paths are relative to the top, the roots of
searches too, and a path from the root of the system leads nowhere, the root itself included.

Permissions and faults of the storage are no part of a tree. Nothing but the path and the kind of what
it leads to can be in the way of reading, writing or removing, and what is written is written as a whole.
-/

set_option autoImplicit false

namespace StyleMigration

/-- The names that lead to an entry from the top. -/
abbrev Key := List String

inductive FileEntry where
  | file (bytes : ByteArray)
  | directory
  | link (target : String)
  deriving DecidableEq

structure FileTree where
  entries : List (Key × FileEntry)

namespace FileTree

def empty : FileTree := ⟨[]⟩

/-- The entry with a key. The top is a directory. -/
def get? (tree : FileTree) (key : Key) : Option FileEntry :=
  if key = [] then some .directory else tree.entries.lookup key

/-- Removes the entry with a key. -/
def erase (tree : FileTree) (key : Key) : FileTree :=
  ⟨tree.entries.filter fun entry => entry.1 != key⟩

/-- Puts an entry in the place of what has the key now. -/
def set (tree : FileTree) (key : Key) (entry : FileEntry) : FileTree :=
  ⟨(key, entry) :: (tree.erase key).entries⟩

/-- Removes an entry and all below it. -/
def eraseAll (tree : FileTree) (key : Key) : FileTree :=
  ⟨tree.entries.filter fun entry => !key.isPrefixOf entry.1⟩

/-- Where a path leads: to an entry, or to a name that is free in a directory. -/
inductive Place where
  | taken (key : Key) (entry : FileEntry)
  | free (key : Key)

/-- How many links a look-up follows before it gives up. -/
def maxLinks : Nat := 40

/-- The greatest length of a name in bytes. -/
def maxNameLength : Nat := 255

/-- The greatest length of a path in bytes. -/
def maxPathLength : Nat := 4095

/-- The names of a path as texts. -/
def pathNames (path : String) : List String :=
  (Path.names path.toList).map String.ofList

/-- Whether a path starts at the root of the system, which is no part of a tree. -/
def isAbsolute (path : String) : Bool :=
  path.toList.head? == some '/'

/-- Follows names from a directory on, up to the first link that is to be followed, where `enter` goes
on. -/
def walkNames (tree : FileTree) (follow : Bool)
    (enter : Key → String → List String → Except IoCause Place) (key : Key) :
    List String → Except IoCause Place
  | [] => .ok (.taken key .directory)
  | name :: names =>
    if name = ".." then
      tree.walkNames follow enter key.dropLast names
    else if maxNameLength < name.utf8ByteSize then
      .error .nameTooLong
    else
      match tree.get? (key ++ [name]) with
      | none => if names.isEmpty then .ok (.free (key ++ [name])) else .error .notFound
      | some .directory => tree.walkNames follow enter (key ++ [name]) names
      | some (.file bytes) =>
        if names.isEmpty then .ok (.taken (key ++ [name]) (.file bytes)) else .error .notDirectory
      | some (.link target) =>
        if names.isEmpty && !follow then
          .ok (.taken (key ++ [name]) (.link target))
        else
          enter key target names

/-- Follows names from a directory on, through a limited number of links. -/
def walk (tree : FileTree) (follow : Bool) : Nat → Key → List String → Except IoCause Place
  | 0 => tree.walkNames follow fun _ _ _ => .error .tooManyLinks
  | links + 1 => tree.walkNames follow fun key target names =>
    if isAbsolute target then .error .notFound
    else tree.walk follow links key (pathNames target ++ names)

theorem walk_nil (tree : FileTree) (follow : Bool) (links : Nat) (key : Key) :
    tree.walk follow links key [] = .ok (.taken key .directory) := by
  cases links <;> rfl

theorem walk_cons (tree : FileTree) (follow : Bool) (links : Nat) (key : Key) (name : String)
    (names : List String) :
    tree.walk follow links key (name :: names) =
      if name = ".." then
        tree.walk follow links key.dropLast names
      else if maxNameLength < name.utf8ByteSize then
        .error .nameTooLong
      else
        match tree.get? (key ++ [name]) with
        | none => if names.isEmpty then .ok (.free (key ++ [name])) else .error .notFound
        | some .directory => tree.walk follow links (key ++ [name]) names
        | some (.file bytes) =>
          if names.isEmpty then .ok (.taken (key ++ [name]) (.file bytes)) else .error .notDirectory
        | some (.link target) =>
          if names.isEmpty && !follow then
            .ok (.taken (key ++ [name]) (.link target))
          else
            match links with
            | 0 => .error .tooManyLinks
            | links + 1 =>
              if isAbsolute target then .error .notFound
              else tree.walk follow links key (pathNames target ++ names) := by
  cases links <;> rfl

/-- Whether a path ends in a way that only a directory can. -/
def wantsDirectory (path : String) : Bool :=
  match (Path.splitSlashes path.toList).getLast? with
  | some [] | some ['.'] => true
  | _ => false

/-- Looks up a path. -/
def resolve (tree : FileTree) (follow : Bool) (path : String) : Except IoCause Place :=
  if path.toList.contains '\x00' then
    .error (.other "file name contained an unexpected NUL byte")
  else if path = "" then
    .error .notFound
  else if maxPathLength < path.utf8ByteSize then
    .error .nameTooLong
  else if isAbsolute path then
    .error .notFound
  else do
    match ← tree.walk (follow || wantsDirectory path) maxLinks [] (pathNames path) with
    | .taken key .directory => return .taken key .directory
    | place =>
      if wantsDirectory path then
        match place with
        | .free _ => throw .notFound
        | .taken _ _ => throw .notDirectory
      else
        return place

/-- The bytes of a file. -/
def readBytes (tree : FileTree) (path : String) : Except IoCause ByteArray := do
  match ← tree.resolve true path with
  | .taken _ (.file bytes) => return bytes
  | .taken _ .directory => throw .isDirectory
  | .taken _ (.link _) | .free _ => throw .notFound

/-- The text of a file. -/
def readText (tree : FileTree) (path : String) : Except IoCause (List Char) := do
  match String.fromUTF8? (← tree.readBytes path) with
  | some text => return text.toList
  | none => throw .notText

/-- Writes a file, which is made if it is not there. -/
def writeBytes (tree : FileTree) (path : String) (bytes : ByteArray) : Except IoCause FileTree := do
  match ← tree.resolve true path with
  | .taken key (.file _) | .taken key (.link _) | .free key => return tree.set key (.file bytes)
  | .taken _ .directory => throw .isDirectory

def writeText (tree : FileTree) (path : String) (text : List Char) : Except IoCause FileTree :=
  tree.writeBytes path (String.ofList text).toUTF8

/-- Removes a file or a link. -/
def removeFile (tree : FileTree) (path : String) : Except IoCause FileTree := do
  match ← tree.resolve false path with
  | .taken key (.file _) | .taken key (.link _) => return tree.erase key
  | .taken _ .directory => throw .isDirectory
  | .free _ => throw .notFound

/-- Removes whatever is there, with all below it. -/
def removeAll (tree : FileTree) (path : String) : Except IoCause FileTree := do
  match ← tree.resolve false path with
  | .taken key _ => return tree.eraseAll key
  | .free _ => throw .notFound

/-- Makes the directories on the way through some names from a directory on. -/
def makeWay (tree : FileTree) (key : Key) : List String → Except IoCause FileTree
  | [] => .ok tree
  | name :: names => do
    match ← tree.walk true maxLinks key [name] with
    | .taken key .directory => tree.makeWay key names
    | .taken _ _ => throw .notDirectory
    | .free key => (tree.set key .directory).makeWay key names

/-- Makes a directory and those on the way to it. -/
def makeDirectories (tree : FileTree) (path : String) : Except IoCause FileTree :=
  if isAbsolute path then .error .notFound else tree.makeWay [] (pathNames path)

/-- Makes the directories on the way to a path. -/
def makeParents (tree : FileTree) (path : String) : Except IoCause FileTree :=
  if isAbsolute path then .error .notFound else tree.makeWay [] (pathNames path).dropLast

/-- Writes at the end of a file, which is made if it is not there. -/
def append (tree : FileTree) (path : String) (bytes : ByteArray) : Except IoCause FileTree :=
  match tree.readBytes path with
  | .ok present => tree.writeBytes path (present ++ bytes)
  | .error .notFound => tree.writeBytes path bytes
  | .error cause => .error cause

/-- Makes a symbolic link where nothing is yet. -/
def makeLink (tree : FileTree) (path target : String) : Except IoCause FileTree := do
  match ← tree.resolve false path with
  | .free key => return tree.set key (.link target)
  | .taken _ _ => throw (.other "File exists (os error 17)")

end FileTree

end StyleMigration
