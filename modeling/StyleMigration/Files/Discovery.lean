import StyleMigration.Files.Tree

/-!
Finding files by their extension. A search goes through all directories below its root, except for
hidden ones, and leaves out hidden files and symbolic links. The root itself may be hidden, a link,
or a single file. It is relative to the top of the tree, as every path is, and so are the paths that
are found, which lead to the files unless they are too long to be looked up. Files come in the order of
their paths, compared name by name.
-/

set_option autoImplicit false

namespace StyleMigration.FileTree

/-- Whether a name is left out of a search. -/
def isHidden (name : String) : Bool :=
  name.toList.head? == some '.'

/-- The order of paths by their names, in which a path comes before those that go on from it. -/
def comesBefore : Key → Key → Bool
  | [], _ => true
  | _ :: _, [] => false
  | name :: names, other :: others =>
    if name = other then comesBefore names others else name < other

/-- The names that lead from a directory to an entry below it. -/
def below? (directory key : Key) : Option Key :=
  if directory.isPrefixOf key && directory.length < key.length then
    some (key.drop directory.length)
  else
    none

/-- Whether a path has one of the extensions. -/
def hasExtension (extensions : List String) (path : String) : Bool :=
  (Path.extension? path).any extensions.contains

def isFile : FileEntry → Bool
  | .file _ => true
  | _ => false

/-- The files below a directory that a search finds, by the names that lead to them. -/
def filesBelow (tree : FileTree) (directory : Key) (extensions : List String) : List Key :=
  let found := tree.entries.filterMap fun (key, entry) =>
    (below? directory key).filter fun names =>
      isFile entry && !names.any isHidden &&
        names.getLast?.any fun name => hasExtension extensions name
  found.mergeSort comesBefore

/-- The path of what some names lead to from a root. -/
def pathFrom (root : String) (names : Key) : String :=
  Path.join root ("/".intercalate names)

/-- Whether a root stands for the standard input, which is called `-`. -/
def isStandardInput (root : String) : Bool :=
  root.toList.head? == some '-' && pathNames root == ["-"]

/-- The paths of the files with one of the extensions at or below a root. There are none in the
standard input. -/
def findFiles (tree : FileTree) (root : String) (extensions : List String) :
    Except Failure (List String) :=
  if isStandardInput root then
    .ok []
  else
    match tree.resolve true root with
    | .error cause => .error (.discovery root cause)
    | .ok (.free _) => .error (.discovery root .notFound)
    | .ok (.taken key .directory) =>
      .ok ((tree.filesBelow key extensions).map (pathFrom root))
    | .ok (.taken _ _) => .ok (if hasExtension extensions root then [root] else [])

end StyleMigration.FileTree
