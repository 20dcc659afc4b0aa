import StyleMigration.Command.Pattern
import StyleMigration.Command.Utility.Basic

/-!
Programs that make, move, copy, show and remove files.
-/

set_option autoImplicit false

namespace StyleMigration.Command.Utility.FileWork

open Text

/-- The last name of a path. -/
def lastName (path : Octets) : Octets :=
  let trimmed := (path.reverse.dropWhile (· == '/')).reverse
  if trimmed.isEmpty then path.take 1 else (trimmed.reverse.takeWhile (· != '/')).reverse

/-- All of a path but its last name. -/
def parentPath (path : Octets) : Octets :=
  let trimmed := (path.reverse.dropWhile (· == '/')).reverse
  if trimmed.isEmpty then
    if path.isEmpty then ['.'] else ['/']
  else
    let parent := trimmed.reverse.dropWhile (· != '/')
    if parent.isEmpty then ['.']
    else
      let parent := (parent.dropWhile (· == '/')).reverse
      if parent.isEmpty then ['/'] else parent

/-- The path of an entry in a directory. -/
def within (directory name : Octets) : Octets :=
  if directory.getLast? = some '/' then directory ++ name else directory ++ '/' :: name

/-- Runs `cat`. -/
def cat (task : Task) (words : List Octets) : Task :=
  let (flags, names) := takeFlags words
  let numbered (number : Nat) (lines : List Octets) : Octets :=
    (lines.zipIdx number).flatMap fun (line, number) =>
      let digits := Octets.ofNat number
      List.replicate (6 - digits.length) ' ' ++ digits ++ '\t' :: line ++ ['\n']
  if flags.contains 'n' then
    let plain := { task with output := [] }.forFiles "cat" names fun task _ content =>
      task.print content
    let (lines, _) := Octets.lines plain.output
    { plain with output := task.output ++ numbered 1 lines }
  else
    task.forFiles "cat" names fun task _ content => task.print content

/-- Removes one entry. -/
def removeOne (recursive forced : Bool) (task : Task) (name : Octets) : Task :=
  match task.tree.resolve false (task.path name) with
  | .ok (.taken key .directory) =>
    if recursive && key ≠ [] then { task with tree := task.tree.eraseAll key }
    else task.complain "rm" ("cannot remove '" ++ name.toString ++ "': Is a directory") 1
  | .ok (.taken key _) => { task with tree := task.tree.erase key }
  | .ok (.free _) | .error .notFound =>
    if forced then task
    else task.complain "rm" ("cannot remove '" ++ name.toString ++ "': No such file or directory") 1
  | .error cause =>
    if forced && cause = .notDirectory then task
    else task.complain "rm" ("cannot remove '" ++ name.toString ++ "': " ++ Task.causeText cause) 1

/-- Runs `rm`. -/
def rm (task : Task) (words : List Octets) : Task :=
  let (flags, names) := takeFlags words
  let forced := flags.contains 'f'
  if flags.contains 'i' then
    task
  else if names.isEmpty then
    if forced then task else task.complain "rm" "missing operand" 1
  else
    names.foldl (removeOne (flags.contains 'r' || flags.contains 'R') forced) task

/-- Whether nothing is below a key. -/
def isEmptyBelow (tree : FileTree) (key : Key) : Bool :=
  !(tree.entries.any fun (key', _) => key.isPrefixOf key' && key.length < key'.length)

/-- Runs `rmdir`. -/
def rmdir (task : Task) (words : List Octets) : Task :=
  let (_, names) := takeFlags words
  if names.isEmpty then task.complain "rmdir" "missing operand" 1
  else names.foldl (fun task name =>
    let refuse (reason : String) : Task :=
      task.complain "rmdir" ("failed to remove '" ++ name.toString ++ "': " ++ reason) 1
    match task.tree.resolve false (task.path name) with
    | .ok (.taken key .directory) =>
      if isEmptyBelow task.tree key then { task with tree := task.tree.erase key }
      else refuse "Directory not empty"
    | .ok (.taken _ _) => refuse "Not a directory"
    | .ok (.free _) => refuse "No such file or directory"
    | .error cause => refuse (Task.causeText cause)) task

/-- Runs `mkdir`. -/
def mkdir (task : Task) (words : List Octets) : Task :=
  let (given, names) := options "m" words
  let parents := given.any (·.1 == 'p')
  if names.isEmpty then task.complain "mkdir" "missing operand" 1
  else names.foldl (fun task name =>
    let refuse (reason : String) : Task :=
      task.complain "mkdir" ("cannot create directory '" ++ name.toString ++ "': " ++ reason) 1
    if parents then
      match task.tree.makeDirectories (task.path name) with
      | .ok tree => { task with tree }
      | .error cause => refuse (Task.causeText cause)
    else
      let path := String.ofList ((task.path name).toList.reverse.dropWhile (· == '/')).reverse
      match task.tree.resolve false path with
      | .ok (.free key) => { task with tree := task.tree.set key .directory }
      | .ok (.taken _ _) => refuse "File exists"
      | .error cause => refuse (Task.causeText cause)) task

/-- Runs `touch`. -/
def touch (task : Task) (words : List Octets) : Task :=
  let (given, names) := options "dtr" words
  let makesNone := given.any (·.1 == 'c')
  if names.isEmpty then task.complain "touch" "missing file operand" 1
  else names.foldl (fun task name =>
    match task.tree.resolve true (task.path name) with
    | .ok (.free key) =>
      if makesNone then task else { task with tree := task.tree.set key (.file .empty) }
    | .ok (.taken _ _) => task
    | .error cause =>
      task.complain "touch"
        ("cannot touch '" ++ name.toString ++ "': " ++ Task.causeText cause) 1) task

/-- Runs `truncate` with a size: what is longer is cut, and what is shorter is filled with zeros. -/
def truncate (task : Task) (words : List Octets) : Task :=
  let (given, names) := options "s" words
  match (given.lookup 's').bind Octets.toNat? with
  | none => task.complain "truncate" "you must specify a size" 1
  | some size =>
    if names.isEmpty then task.complain "truncate" "missing file operand" 1
    else names.foldl (fun task name =>
      let content := match task.read name with
        | (.ok content, _) => content
        | (.error _, _) => []
      let sized := content.take size ++ List.replicate (size - content.length) '\x00'
      match task.write name sized with
      | .ok task => task
      | .error cause =>
        task.complain "truncate"
          ("cannot open '" ++ name.toString ++ "': " ++ Task.causeText cause) 1) task

/-- An entry with all below it at another key. -/
def copiedTo (tree : FileTree) (source target : Key) : List (Key × FileEntry) :=
  tree.entries.filterMap fun (key, entry) =>
    if source.isPrefixOf key then some (target ++ key.drop source.length, entry) else none

/-- Where an entry goes that is moved or copied to a target: into it, if that is a directory. -/
def goal (task : Task) (source target : Octets) : Octets :=
  if task.isDirectory target then within target (lastName source) else target

/-- Moves one entry. -/
def moveOne (keeps : Bool) (target : Octets) (task : Task) (source : Octets) : Task :=
  let refuse (reason : String) : Task := task.complain "mv" reason 1
  let goal := goal task source target
  match task.tree.resolve false (task.path source), task.tree.resolve false (task.path goal) with
  | .ok (.taken key entry), .ok place =>
    let (goalKey, present) := match place with
      | .taken key entry => (key, some entry)
      | .free key => (key, none)
    let moved := copiedTo task.tree key goalKey
    let tree := (task.tree.eraseAll key).eraseAll goalKey
    if key = goalKey then
      refuse ("'" ++ source.toString ++ "' and '" ++ goal.toString ++ "' are the same file")
    else if keeps && present.isSome then
      task
    else if entry = .directory ∧ key.isPrefixOf goalKey then
      refuse ("cannot move '" ++ source.toString ++ "' to a subdirectory of itself")
    else if entry = .directory ∧ present.any (· != .directory) then
      refuse ("cannot overwrite non-directory '" ++ goal.toString ++ "' with directory '" ++
        source.toString ++ "'")
    else if present = some .directory ∧ (entry ≠ .directory ∨ !isEmptyBelow task.tree goalKey) then
      refuse ("cannot overwrite '" ++ goal.toString ++ "'")
    else
      { task with tree := ⟨moved ++ tree.entries⟩ }
  | .ok (.taken _ _), .error cause =>
    refuse ("cannot move '" ++ source.toString ++ "' to '" ++ goal.toString ++ "': " ++
      Task.causeText cause)
  | .ok (.free _), _ =>
    refuse ("cannot stat '" ++ source.toString ++ "': No such file or directory")
  | .error cause, _ => refuse ("cannot stat '" ++ source.toString ++ "': " ++ Task.causeText cause)

/-- Copies one entry. -/
def copyOne (recursive keeps : Bool) (target : Octets) (task : Task) (source : Octets) : Task :=
  let refuse (reason : String) : Task := task.complain "cp" reason 1
  let goal := goal task source target
  let path := task.path source
  match task.tree.resolve (!recursive) path, task.tree.resolve true (task.path goal) with
  | .ok (.taken key .directory), .ok place =>
    if !recursive then
      refuse ("-r not specified; omitting directory '" ++ source.toString ++ "'")
    else
      let goalKey := match place with
        | .taken key _ | .free key => key
      match place with
      | .taken _ (.file _) | .taken _ (.link _) =>
        refuse ("cannot overwrite non-directory '" ++ goal.toString ++ "' with directory '" ++
          source.toString ++ "'")
      | _ =>
        if key.isPrefixOf goalKey then
          refuse ("cannot copy a directory, '" ++ source.toString ++ "', into itself, '" ++
            goal.toString ++ "'")
        else
          let tree := (copiedTo task.tree key goalKey).foldl (fun tree (key, entry) =>
            if key = [] then tree else tree.set key entry) task.tree
          { task with tree }
  | .ok (.taken key entry), .ok (.taken goalKey present) =>
    if key = goalKey then
      refuse ("'" ++ source.toString ++ "' and '" ++ goal.toString ++ "' are the same file")
    else if keeps then
      task
    else if present = .directory then
      refuse ("cannot overwrite directory '" ++ goal.toString ++ "' with non-directory")
    else { task with tree := task.tree.set goalKey entry }
  | .ok (.taken _ entry), .ok (.free goalKey) =>
    { task with tree := task.tree.set goalKey entry }
  | .ok (.taken _ _), .error cause =>
    if goal.toString = "/dev/null" then task
    else refuse ("cannot create regular file '" ++ goal.toString ++ "': " ++ Task.causeText cause)
  | .ok (.free _), _ =>
    refuse ("cannot stat '" ++ source.toString ++ "': No such file or directory")
  | .error cause, _ =>
    if source.toString = "/dev/null" then
      match task.write goal [] with
      | .ok task => task
      | .error cause => refuse ("cannot create regular file '" ++ goal.toString ++ "': " ++
          Task.causeText cause)
    else refuse ("cannot stat '" ++ source.toString ++ "': " ++ Task.causeText cause)

/-- Moves or copies some entries to the last of the words. -/
def toLast (task : Task) (program : String) (names : List Octets)
    (act : Octets → Task → Octets → Task) : Task :=
  match names.reverse with
  | [] => task.complain program "missing file operand" 1
  | [name] =>
    task.complain program ("missing destination file operand after '" ++ name.toString ++ "'") 1
  | target :: sources =>
    if 1 < sources.length ∧ !task.isDirectory target then
      task.complain program ("target '" ++ target.toString ++ "' is not a directory") 1
    else
      sources.reverse.foldl (act target) task

/-- Runs `mv`. -/
def mv (task : Task) (words : List Octets) : Task :=
  let (given, names) := options "t" words
  toLast task "mv" (names ++ (given.lookup 't').toList) (moveOne (given.any (·.1 == 'n')))

/-- Runs `cp`. -/
def cp (task : Task) (words : List Octets) : Task :=
  let (given, names) := options "t" words
  let isRecursive := given.any fun (flag, _) => flag == 'r' || flag == 'R' || flag == 'a'
  toLast task "cp" (names ++ (given.lookup 't').toList)
    (copyOne isRecursive (given.any (·.1 == 'n')))

/-- Runs `readlink`. -/
def readlink (task : Task) (words : List Octets) : Task :=
  let (flags, names) := takeFlags words
  if names.isEmpty then task.complain "readlink" "missing operand" 1
  else names.foldl (fun task name =>
    match task.entryItself? name with
    | some (.link target) =>
      task.print (Octets.ofString target ++ if flags.contains 'n' then [] else ['\n'])
    | _ => task.finish 1) task

/-- Runs `ln`. Only symbolic links stay links; another link is as good as a copy. -/
def ln (task : Task) (words : List Octets) : Task :=
  let (flags, names) := takeFlags words
  let isForced := flags.contains 'f'
  let names := if names.length = 1 then names ++ [['.']] else names
  toLast task "ln" names fun target task source =>
    let goal := goal task source target
    let refuse (reason : String) : Task :=
      task.complain "ln" ("failed to create link '" ++ goal.toString ++ "': " ++ reason) 1
    match task.tree.resolve false (task.path goal) with
    | .error cause => refuse (Task.causeText cause)
    | .ok place =>
      let (key, isTaken) := match place with
        | .free key => (key, false)
        | .taken key _ => (key, true)
      if isTaken && !isForced then
        refuse "File exists"
      else if flags.contains 's' then
        { task with tree := task.tree.set key (.link source.toString) }
      else
        match task.entryItself? source with
        | some .directory => refuse "hard link not allowed for directory"
        | some entry => { task with tree := task.tree.set key entry }
        | none => refuse "No such file or directory"

/-- The names in a directory in their order. -/
def namesIn (tree : FileTree) (key : Key) : List Octets :=
  let names := tree.entries.filterMap fun (key', _) =>
    if key.isPrefixOf key' && key'.length = key.length + 1 then
      key'.getLast?.map Octets.ofString
    else none
  names.mergeSort fun a b => decide (a ≤ b)

/-- Runs `ls`, with one name in a line. -/
def ls (task : Task) (words : List Octets) : Task :=
  let (flags, names) := takeFlags words
  let shows (name : Octets) : Bool :=
    name.head? != some '.' || flags.contains 'a' || flags.contains 'A'
  let names := if names.isEmpty then [['.']] else names.mergeSort fun a b => decide (a ≤ b)
  let isListed (name : Octets) : Bool := task.isDirectory name && !flags.contains 'd'
  let missing := names.filter fun name => (task.entryItself? name).isNone
  let present := names.filter fun name => (task.entryItself? name).isSome
  let task := missing.foldl (fun task name =>
    task.complain "ls" ("cannot access '" ++ name.toString ++ "': No such file or directory") 2)
    task
  let files := present.filter (!isListed ·)
  let directories := present.filter isListed
  let task := task.print (Octets.ofLines files)
  let (task, _) := directories.foldl (fun (task, isFirst) name =>
    let listed := match task.tree.resolve true (task.path name) with
      | .ok (.taken key _) =>
        let all := if flags.contains 'a' then [['.'], ['.', '.']] else []
        all ++ (namesIn task.tree key).filter shows
      | _ => []
    let heading := if 1 < names.length then
        (if isFirst then [] else ['\n']) ++ name ++ [':', '\n']
      else []
    (task.print (heading ++ Octets.ofLines listed), false)) (task, files.isEmpty)
  task

/-- Runs `tee`. -/
def tee (task : Task) (words : List Octets) : Task :=
  let (flags, names) := takeFlags words
  let (input, task) := task.takeInput
  let task := names.foldl (fun task name =>
    let content? := if flags.contains 'a' then
        match (task.read name).1 with
        | .ok present => present ++ input
        | .error _ => input
      else input
    match task.write name content? with
    | .ok task => task
    | .error cause => task.complainOf "tee" name cause) task
  task.print input

/-- Runs `basename`. -/
def basename (task : Task) (words : List Octets) : Task :=
  let (given, paths) := options "s" words
  let stem (ending path : Octets) : Octets :=
    let name := lastName path
    if ending.isSuffixOf name && name ≠ ending then name.take (name.length - ending.length)
    else name
  if paths.isEmpty then
    task.complain "basename" "missing operand" 1
  else if !given.isEmpty then
    task.print (Octets.ofLines (paths.map (stem ((given.lookup 's').getD []))))
  else
    match paths with
    | _ :: _ :: _ :: _ => task.complain "basename" "extra operand" 1
    | paths => task.print (stem (paths.getD 1 []) (paths.headD []) ++ ['\n'])

/-- Runs `dirname`. -/
def dirname (task : Task) (words : List Octets) : Task :=
  match (takeFlags words).2 with
  | [] => task.complain "dirname" "missing operand" 1
  | paths => task.print (Octets.ofLines (paths.map parentPath))

/-- Runs `chmod`, which changes nothing that can be seen here. -/
def chmod (task : Task) (words : List Octets) : Task :=
  match words.filter fun word => word ≠ ['-', 'R'] with
  | [] | [_] => task.complain "chmod" "missing operand" 1
  | _ :: names => names.foldl (fun task name =>
    if (task.entryAt? name).isSome then task
    else task.complain "chmod"
      ("cannot access '" ++ name.toString ++ "': No such file or directory") 1) task

/-- Runs `cmp`, which only tells whether files are the same. -/
def cmp (task : Task) (words : List Octets) : Task :=
  match (takeFlags words).2 with
  | left :: right :: _ =>
    match task.read left with
    | (.error cause, task) => (task.complainOf "cmp" left cause).finish 2
    | (.ok content, task) =>
      match task.read right with
      | (.error cause, task) => (task.complainOf "cmp" right cause).finish 2
      | (.ok content', task) => task.finish (if content = content' then 0 else 1)
  | _ => task.complain "cmp" "missing operand" 2

/-- What `find` asks of an entry: its name, its kind, and how deep it may lie. -/
structure Search where
  name? : Option Octets
  kind? : Option Octets
  maxDepth? : Option Nat
  deletes : Bool

/-- The conditions of a search; nothing if one is not known. -/
def Search.read? : List Octets → Option Search
  | [] => some ⟨none, none, none, false⟩
  | word :: words =>
    match word.toString, words with
    | "-name", name :: words =>
      (Search.read? words).map fun search => { search with name? := some name }
    | "-type", kind :: words =>
      (Search.read? words).map fun search => { search with kind? := some kind }
    | "-maxdepth", depth :: words =>
      (Search.read? words).map fun search => { search with maxDepth? := Octets.toNat? depth }
    | "-delete", words => (Search.read? words).map fun search => { search with deletes := true }
    | "-print", words => Search.read? words
    | _, _ => none

def Search.admits (search : Search) (depth : Nat) (name : Octets) (entry : FileEntry) : Bool :=
  search.name?.all (fun pattern => (Marks.ofText false pattern).standsFor name) &&
    search.maxDepth?.all (depth ≤ ·) &&
    match search.kind?, entry with
    | none, _ | some ['f'], .file _ | some ['d'], .directory | some ['l'], .link _ => true
    | _, _ => false

/-- Runs `find`, in the order of the paths. -/
def find (task : Task) (words : List Octets) : Task :=
  let roots := words.takeWhile fun word => word.head? != some '-'
  match Search.read? (words.drop roots.length) with
  | none => task.complain "find" "unknown predicate" 1
  | some search =>
    (if roots.isEmpty then [['.']] else roots).foldl (fun task root =>
      match task.tree.resolve false (task.path root) with
      | .ok (.taken key entry) =>
        let below := task.tree.entries.filterMap fun (key', entry) =>
          if key.isPrefixOf key' && key.length < key'.length then
            some (key'.drop key.length, entry)
          else none
        let below := below.mergeSort fun a b => decide (a.1 ≤ b.1)
        let found := (([], entry) :: below).filter fun (names, entry) =>
          search.admits names.length
            ((names.getLast?.map Octets.ofString).getD (lastName root)) entry
        if search.deletes then
          { task with
            tree := found.foldl (fun tree (names, _) =>
              if key ++ names = [] then tree else tree.eraseAll (key ++ names)) task.tree }
        else
          task.print (Octets.ofLines (found.map fun (names, _) =>
            names.foldl (fun path name => within path (Octets.ofString name)) root))
      | _ =>
        task.complain "find" ("'" ++ root.toString ++ "': No such file or directory") 1) task

end StyleMigration.Command.Utility.FileWork
