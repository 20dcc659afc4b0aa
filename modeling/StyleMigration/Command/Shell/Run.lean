import StyleMigration.Command.Batch
import StyleMigration.Command.Shell.Field
import StyleMigration.Command.Shell.Signal
import StyleMigration.Command.Utility.Table

/-!
Running scripts. Every command leaves a status. The depth to which commands run inside commands is
bounded, and so is the number of rounds of a loop.
-/

set_option autoImplicit false

namespace StyleMigration.Command.Shell

open Text Utility

/-- The name of a program without the directory that such programs are kept in. -/
def baseName (program : String) : String :=
  if program.startsWith "/bin/" then (program.drop 5).toString
  else if program.startsWith "/usr/bin/" then (program.drop 9).toString
  else program

/-- The commands that run others or are shells. -/
def isRunner (name : String) : Bool :=
  ["sh", "dash", "bash", "env", "xargs", "nice", "nohup", "timeout", "which", "pwd",
    "kill"].contains name

/-- The commands of which a failure or an assignment before them has an effect on the shell itself.
-/
def isSpecial (name : String) : Bool :=
  [":", ".", "break", "continue", "eval", "exec", "exit", "export", "readonly", "return", "set",
    "shift", "trap", "unset", "times"].contains name

/-- The other commands of the shell itself. -/
def isBuiltIn (name : String) : Bool :=
  ["true", "false", "echo", "printf", "test", "[", "cd", "pwd", "read", "kill", "wait", "umask",
    "local", "command", "type", "getopts", "alias", "unalias", "hash", "ulimit", "jobs", "fg",
    "bg"].contains name

/-- A word with its value, as `export` and others take it. -/
def splitAssignment (word : Octets) : String × Option Octets :=
  match word.dropWhile (· != '=') with
  | _ :: value => (String.ofList (word.takeWhile (· != '=')), some value)
  | [] => (String.ofList word, none)

/-- Changes how a variable is kept, and its value if one is given. -/
def declare (word : Octets) (change : Variable → Variable) : Act Unit := do
  let (name, value?) := splitAssignment word
  if !isName name then
    fail (word.toString ++ ": bad variable name")
  else
    match value? with
    | some value => assign name value
    | none => pure ()
    modify fun process =>
      let old := (process.bindings.lookup name).getD ⟨[], false, false⟩
      if (process.bindings.lookup name).isNone && value?.isNone then process
      else
        { process with
          bindings := (name, change old) :: process.bindings.filter (·.1 != name) }

/-- Sets options and arguments. -/
def setOptions : List Octets → Act Unit
  | [] => pure ()
  | word :: words =>
    match word with
    | ['-', '-'] => modify fun process => { process with arguments := words }
    | ['-', 'o'] | ['+', 'o'] =>
      match words with
      | name :: words => do
        let letter? := match name.toString with
          | "errexit" => some 'e'
          | "nounset" => some 'u'
          | "noglob" => some 'f'
          | "allexport" => some 'a'
          | "xtrace" => some 'x'
          | "verbose" => some 'v'
          | "noexec" => some 'n'
          | "noclobber" => some 'C'
          | _ => none
        match letter? with
        | some letter =>
          modify fun process =>
            let others := process.options.filter (· != letter)
            { process with options := if word = ['-', 'o'] then letter :: others else others }
          setOptions words
        | none => fail ("set: Illegal option -o " ++ name.toString)
      | [] => pure ()
    | '-' :: c :: letters => do
      if (c :: letters).all "abefhmnuvxCEIV".toList.contains then
        modify fun process =>
          { process with
            options := (c :: letters) ++ process.options.filter (!(c :: letters).contains ·) }
        setOptions words
      else
        fail ("set: Illegal option " ++ word.toString)
    | '+' :: letters => do
      modify fun process =>
        { process with options := process.options.filter (!letters.contains ·) }
      setOptions words
    | word => modify fun process => { process with arguments := word :: words }

/-- A line of input, whether its end was found, and the rest. Unless it is taken as it stands, a
backslash protects the character after it, and the end of a line as well. -/
def takeInputLine (raw : Bool) : Octets → Marks × Bool × Octets
  | [] => ([], false, [])
  | '\n' :: text => ([], true, text)
  | '\\' :: c :: text =>
    if raw then
      let (line, isEnded, rest) := takeInputLine raw (c :: text)
      (⟨'\\', false⟩ :: line, isEnded, rest)
    else if c = '\n' then
      takeInputLine raw text
    else
      let (line, isEnded, rest) := takeInputLine raw text
      (⟨c, true⟩ :: line, isEnded, rest)
  | c :: text =>
    let (line, isEnded, rest) := takeInputLine raw text
    (⟨c, false⟩ :: line, isEnded, rest)

/-- A line cut up for some variables: the last one gets all that is left. -/
def cutLine (separators : Octets) : (count : Nat) → Marks → List Octets
  | 0, _ => []
  | count + 1, line =>
    let isBlank (mark : Mark) : Bool :=
      !mark.quoted && (mark.char == ' ' || mark.char == '\t' || mark.char == '\n') &&
        separators.contains mark.char
    let ends (mark : Mark) : Bool := !mark.quoted && separators.contains mark.char
    let line := line.dropWhile isBlank
    if count = 0 then
      [Marks.text (line.reverse.dropWhile isBlank).reverse]
    else
      let field := line.takeWhile (!ends ·)
      let rest := (line.dropWhile (!ends ·)).dropWhile isBlank
      let rest := match rest with
        | mark :: marks => if ends mark && !isBlank mark then marks.dropWhile isBlank else rest
        | [] => []
      Marks.text field :: cutLine separators count rest

/-- Runs `read`. -/
def readLine (words : List Octets) : Act Unit := do
  let (given, names) := Utility.options "p" words
  let raw := given.any (·.1 == 'r')
  let process ← get
  let (line, isEnded, rest) := takeInputLine raw (process.input 0)
  set (process.setInput 0 rest)
  let values := cutLine process.separators names.length line
  for (name, value) in names.zip values do
    assign name.toString value
  setStatus (if isEnded then 0 else 1)

/-- Runs `cd`. -/
def changeDirectory (words : List Octets) : Act Unit := do
  let process ← get
  let target? : Option Octets := match (takeFlags words).2 with
    | [] => process.valueIn? "HOME"
    | ['-'] :: _ => process.valueIn? "OLDPWD"
    | target :: _ => some target
  let name := (target?.getD []).toString
  if target? = some [] then
    setStatus 0
  else match process.tree.resolve true (process.task.path (target?.getD [])) with
  | .ok (.taken key .directory) =>
    set { process with directory := "/".intercalate key, status := 0 }
  | _ =>
    complain ("cd: can't cd to " ++ name)
    setStatus 2

/-- Runs `unset`. -/
def forget (words : List Octets) : Act Unit := do
  let (flags, names) := takeFlags words
  for name in names do
    let name := name.toString
    if !isName name then fail ("unset: " ++ name ++ ": bad variable name")
    if flags.contains 'f' then
      modify fun process =>
        { process with functions := process.functions.filter (·.1 != name) }
    else
      if ((← get).bindings.lookup name).any (·.isFixed) then
        fail (name ++ ": is read only")
      modify fun process =>
        { process with bindings := process.bindings.filter (·.1 != name) }
  setStatus 0

/-- Runs `local`: hides variables until the function ends. -/
def hide (words : List Octets) : Act Unit := do
  for word in words do
    let (name, value?) := splitAssignment word
    modify fun process =>
      { process with hidden := (name, process.bindings.lookup name) :: process.hidden }
    match value? with
    | some value => assign name value
    | none => pure ()
  setStatus 0

def printLine (line : String) : Act Unit :=
  modify fun process => { process with status := 0 }.write 1 (Octets.ofString (line ++ "\n"))

/-- Sets what is done when signals come. -/
def setTraps (words : List Octets) : Act Unit := do
  match words with
  | [] =>
    for (name, action) in (← get).traps.reverse do
      printLine ("trap -- '" ++ action.toString ++ "' " ++ name)
    setStatus 0
  | action :: signals =>
    let isNumber := (Octets.toNat? action).isSome
    let (action?, signals) :=
      if signals.isEmpty || isNumber then (none, words)
      else if action = ['-'] then (none, signals)
      else (some action, signals)
    let mut status := 0
    for signal in signals do
      match signalNumber? signal with
      | none =>
        complain ("trap: " ++ signal.toString ++ ": bad trap")
        status := 1
      | some number =>
        let name := signalName number
        modify fun process =>
          let others := process.traps.filter (·.1 != name)
          { process with
            traps := match action? with
              | some action => (name, action) :: others
              | none => others }
    setStatus status

/-- A whole number as an argument of a command; without one it has the value given. -/
def numberOr (otherwise : Nat) (command : String) : List Octets → Act Nat
  | [] => pure otherwise
  | word :: _ =>
    match (Octets.toNat? word).filter (· < Nat.pow 2 31) with
    | some number => pure number
    | none => fail (command ++ ": Illegal number: " ++ word.toString)

/-- Opens the file of a redirection. -/
def openFile (descriptor : Nat) (direction : Direction) (target : Octets) : Act Bool := do
  let process ← get
  let path := process.task.path target
  let name := target.toString
  let refuse (message : String) : Act Bool := do
    complain message
    return false
  let fileAt? (tree : FileTree) : Option Channel :=
    match tree.resolve true path with
    | .ok (.taken key (.file _)) => some (.file key)
    | _ => none
  match direction with
  | .duplicate =>
    if target = ['-'] then
      set (process.disconnect descriptor)
      return true
    else
      match (Octets.toNat? target).bind process.channel? with
      | some channel =>
        set (process.connect descriptor channel)
        return true
      | none => refuse (name ++ ": Bad file descriptor")
  | .read =>
    if name = "/dev/null" then
      set (process.connectInput descriptor [])
      return true
    else if name = "/dev/stdin" then
      return true
    else
      match process.tree.readBytes path with
      | .ok bytes =>
        set (process.connectInput descriptor (Octets.ofBytes bytes))
        return true
      | .error .isDirectory =>
        set (process.connectInput descriptor [])
        return true
      | .error cause => refuse ("cannot open " ++ name ++ ": " ++ Task.causeText cause)
  | _ =>
    let present? := match name with
      | "/dev/null" => some Channel.nothing
      | "/dev/stdout" => process.channel? 1
      | "/dev/stderr" => process.channel? 2
      | _ => none
    match present? with
    | some channel =>
      set (process.connect descriptor channel)
      return true
    | none =>
      if process.has 'C' ∧ direction = .write ∧ (fileAt? process.tree).isSome then
        return ← refuse ("cannot create " ++ name ++ ": File exists")
      let opened := if direction = .write then process.tree.writeBytes path .empty
        else process.tree.append path .empty
      match opened with
      | .error cause => refuse ("cannot create " ++ name ++ ": " ++ Task.causeText cause)
      | .ok tree =>
        match fileAt? tree with
        | some channel =>
          set ({ process with tree }.connect descriptor channel)
          return true
        | none => refuse ("cannot create " ++ name)

/-- What comes of a name that is no command: the status and the message. -/
def refusal (process : Process) (name : Octets) : Nat × String :=
  if name.contains '/' then
    match process.tree.resolve true (process.task.path name) with
    | .ok (.taken _ _) => (126, "Permission denied")
    | .ok (.free _) => (127, "not found")
    | .error .notDirectory => (126, "Not a directory")
    | .error _ => (127, "not found")
  else
    (127, "not found")

/-- The variables that every shell starts with. -/
def initialVariables : List (String × Variable) :=
  [("IFS", ⟨[' ', '\t', '\n'], false, false⟩), ("OPTIND", ⟨['1'], false, false⟩),
    ("PS2", ⟨['>', ' '], false, false⟩), ("PS4", ⟨['+', ' '], false, false⟩)]

/-- What a word can be as a command. -/
inductive CommandKind where
  | keyword
  | function
  | special
  | builtIn
  | program
  deriving DecidableEq, Repr

/-- What a word is as a command; nothing if there is no such command. -/
def kindOf? (process : Process) (word : String) : Option CommandKind :=
  if isOpeningWord word || isClosingWord word then some .keyword
  else if (process.functions.lookup word).isSome then some .function
  else if isSpecial word then some .special
  else if isBuiltIn word then some .builtIn
  else if (program? word).isSome || isRunner word then some .program
  else none

/-- Says of some words what they are as commands. -/
def describeAll (words : List Octets) : Act Unit := do
  let process ← get
  let kinds := words.map fun word => kindOf? process word.toString
  for (word, kind?) in words.zip kinds do
    printLine (word.toString ++ match kind? with
      | some .keyword => " is a shell keyword"
      | some .function => " is a shell function"
      | some .special => " is a special shell builtin"
      | some .builtIn => " is a shell builtin"
      | some .program => " is /usr/bin/" ++ word.toString
      | none => ": not found")
  setStatus (if kinds.all Option.isSome then 0 else 127)

/-- The process of a shell that another one starts: it knows the variables that are exported. -/
def childOf (process : Process) (name : Octets) (arguments : List Octets) (options : List Char)
    (readsEscapes : Bool) : Process :=
  { process with
    bindings := initialVariables ++ process.bindings.filter fun (name, kept) =>
      kept.isExported && (initialVariables.lookup name).isNone
    name, arguments, options, readsEscapes
    functions := []
    status := 0
    traps := []
    isTested := false
    loops := 0
    calls := 0
    hidden := []
    substituted? := none
    signal? := none
    number := process.number + 1 }

/-- A text with a word put in every place where a hole stands. -/
def replaceAll (hole word text : Octets) : Octets :=
  let parts := text.toString.splitOn hole.toString
  if hole.isEmpty then text else Octets.ofString (word.toString.intercalate parts)

/-- How a round of a loop ends. -/
inductive Round where
  | done (goesOn : Bool)
  | ended
  | skipped
  deriving DecidableEq, Repr

/-- Runs a part of a loop and catches what ends the loop or its round. Whether failures are expected
and how many loops are open is then as before. -/
def caught (act : Act Bool) : Act Round := do
  let before ← get
  let round ← try
      pure (Round.done (← act))
    catch stop =>
      match stop with
      | .breaks levels => if 1 < levels then throw (.breaks (levels - 1)) else pure .ended
      | .continues levels => if 1 < levels then throw (.continues (levels - 1)) else pure .skipped
      | stop => throw stop
  modify fun process => { process with isTested := before.isTested, loops := before.loops }
  return round

mutual

/-- The fragments of a word. -/
def expandWord : (fuel : Nat) → Word → Act (List Fragment)
  | 0, _ => throw (.exits 2)
  | fuel + 1, word => do
    let mut fragments := []
    for piece in word do
      fragments := fragments ++ (← expandPiece fuel piece)
    return fragments

/-- The fragments of a word that stands inside a parameter. -/
def expandInner : (fuel : Nat) → (quoted : Bool) → Octets → Act (List Fragment)
  | 0, _, _ => throw (.exits 2)
  | fuel + 1, quoted, text => do
    match if quoted then readRequoted? text else readBare? text with
    | none => fail "Syntax error: Unterminated quoted string"
    | some word =>
      let fragments ← expandWord fuel word
      if quoted ∧ fragments.isEmpty then return [.text true []]
      return fragments.map fun
        | .text false content => if quoted then .text true content else .split content
        | fragment => fragment

def expandPiece : (fuel : Nat) → Piece → Act (List Fragment)
  | 0, _ => throw (.exits 2)
  | fuel + 1, piece => do
    let shown (quoted : Bool) (value : Octets) : Fragment :=
      if quoted then .text true value else .split value
    match piece with
    | .text quoted text => return [.text quoted text]
    | .unknown => fail "Bad substitution"
    | .command quoted script =>
      if !isReadable (script.length + 1) (lexemes script) then fail "Syntax error"
      let before := (← get).status
      let output ← captured (runToEnd fuel (runText fuel script))
      modify fun process =>
        { process with substituted? := some process.status, status := before }
      let kept := output.filter (· != '\x00')
      return [shown quoted (kept.reverse.dropWhile (· == '\n')).reverse]
    | .expression quoted text =>
      let inner ← match readQuoted? text with
        | some word => expandWord fuel word
        | none => fail "Syntax error: Unterminated quoted string"
      let process ← get
      let look (name : String) : Option Int :=
        match process.valueIn? name with
        | none => if process.has 'u' then none else some 0
        | some value => valueOf? value
      let value? := do
        let expression ← Expression.read? (Fragment.joined inner)
        expression.eval? look []
      match value? with
      | none => fail "arithmetic expression: expecting primary"
      | some (value, assigned) =>
        for (name, value) in assigned.reverse do
          assign name (Octets.ofInt value)
        return [shown quoted (Octets.ofInt value)]
    | .parameter quoted name change word =>
      let process ← get
      let arguments := process.arguments
      let isList := name = ['@'] ∨ name = ['*']
      let value? := if isList then some ([' '].intercalate arguments)
        else process.parameter? name
      let whole : List Fragment :=
        if isList then
          if quoted ∧ name = ['*'] then
            let separator := match process.valueIn? "IFS" with
              | some separators => separators.take 1
              | none => [' ']
            [.text true (separator.intercalate arguments)]
          else
            [Fragment.boundary].intercalate (arguments.map fun argument => [shown quoted argument])
        else
          [shown quoted (value?.getD [])]
      let demandSet : Act Unit :=
        if value?.isNone ∧ process.has 'u' ∧ !isList then
          fail (name.toString ++ ": parameter not set")
        else pure ()
      let isMissing (orEmpty : Bool) : Bool :=
        value?.isNone || (orEmpty && value?.any List.isEmpty)
      match change with
      | .asIs =>
        demandSet
        return whole
      | .length =>
        demandSet
        return [shown quoted (Octets.ofNat (value?.getD []).length)]
      | .default orEmpty =>
        if isMissing orEmpty then expandInner fuel quoted word else return whole
      | .replace orEmpty =>
        if isMissing orEmpty then return (if quoted then [.text true []] else [])
        else expandInner fuel quoted word
      | .assign orEmpty =>
        if isMissing orEmpty then
          if !isName name.toString then fail "Bad substitution"
          let value := Fragment.joined (← expandInner fuel quoted word)
          assign name.toString value
          return [shown quoted value]
        else return whole
      | .demand orEmpty =>
        if isMissing orEmpty then
          let message := Fragment.joined (← expandInner fuel quoted word)
          fail (name.toString ++ ": " ++
            (if message.isEmpty then "parameter not set" else message.toString))
        else return whole
      | .dropFront longest =>
        demandSet
        let pattern := Fragment.marks (← expandPattern fuel word)
        let kept := pattern.dropFront longest (value?.getD [])
        return if isList ∧ some kept = value? then whole else [shown quoted kept]
      | .dropBack longest =>
        demandSet
        let pattern := Fragment.marks (← expandPattern fuel word)
        let kept := pattern.dropBack longest (value?.getD [])
        return if isList ∧ some kept = value? then whole else [shown quoted kept]

/-- The fragments of a pattern inside a parameter, in which quotes count. -/
def expandPattern : (fuel : Nat) → Octets → Act (List Fragment)
  | 0, _ => throw (.exits 2)
  | fuel + 1, text => do
    match readBare? text with
    | none => fail "Syntax error: Unterminated quoted string"
    | some word => expandWord fuel word

/-- The fields of some words. -/
def expandFields : (fuel : Nat) → List Word → Act (List Octets)
  | 0, _ => throw (.exits 2)
  | fuel + 1, words => do
    let mut fields := []
    for word in words do
      let fragments ← expandWord fuel word
      let process ← get
      for field in fieldsOf process.separators fragments do
        fields := fields ++
          (if process.has 'f' then [Marks.text field] else pathsOf process.task field)
    return fields

/-- The value of a word that makes one field. -/
def expandText : (fuel : Nat) → Word → Act Octets
  | 0, _ => throw (.exits 2)
  | fuel + 1, word => do
    return Fragment.joined (← expandWord fuel word)

/-- Does some redirections; tells whether all could be done. -/
def redirect : (fuel : Nat) → List Redirection → Act Bool
  | 0, _ => throw (.exits 2)
  | fuel + 1, redirections => do
    for redirection in redirections do
      match redirection with
      | .lines descriptor content =>
        let text ← expandText fuel content
        modify fun process => process.connectInput descriptor text
      | .path descriptor direction target =>
        if !(← openFile descriptor direction (← expandText fuel target)) then return false
    return true

/-- Runs a text as a script. -/
def runText : (fuel : Nat) → Octets → Act Unit
  | 0, _ => throw (.exits 2)
  | fuel + 1, text => do
    let lexemes := skipLineEnds (lexemes text)
    if lexemes.isEmpty then setStatus 0 else runLines fuel lexemes

/-- Runs the lines of a script; each is read when those before it have run. -/
def runLines : (fuel : Nat) → List Lexeme → Act Unit
  | 0, _ => throw (.exits 2)
  | fuel + 1, lexemes => do
    let lexemes := skipLineEnds lexemes
    if lexemes.isEmpty then
      return
    match nextLine? lexemes with
    | none => fail "Syntax error"
    | some (script, rest) =>
      if !(← get).has 'n' then run fuel script
      runLines fuel rest

/-- Runs a command. -/
def run : (fuel : Nat) → Script → Act Unit
  | 0, _ => throw (.exits 2)
  | fuel + 1, script => do
    match script with
    | .simple assignments words redirections =>
      if (← get).has 'n' then return
      runSimple fuel assignments words redirections
      checkFailure
    | .sequence commands =>
      if commands.isEmpty then setStatus 0
      for command in commands do
        run fuel command
    | .andThen first second =>
      tested (run fuel first)
      if (← get).status = 0 then run fuel second
    | .orElse first second =>
      tested (run fuel first)
      if (← get).status ≠ 0 then run fuel second
    | .background command =>
      isolated do
        modify fun process => process.connectInput 0 []
        runToEnd fuel (run fuel command)
      modify fun process => { process with background? := some process.status, status := 0 }
    | .subshell body =>
      isolated (runToEnd fuel (run fuel body))
      checkFailure
    | .pipeline negated commands =>
      if negated then
        tested (runPiped fuel commands)
        modify fun process => { process with status := if process.status = 0 then 1 else 0 }
      else
        runPiped fuel commands
        checkFailure
    | .branch condition yes no =>
      tested (run fuel condition)
      if (← get).status = 0 then run fuel yes else run fuel no
    | .loop isUntil condition body =>
      modify fun process => { process with loops := process.loops + 1 }
      runLoop fuel isUntil condition body 0
      modify fun process => { process with loops := process.loops - 1 }
    | .each name words? body =>
      let items ← match words? with
        | some words => expandFields fuel words
        | none => do pure (← get).arguments
      setStatus 0
      modify fun process => { process with loops := process.loops + 1 }
      runEach fuel name items body
      modify fun process => { process with loops := process.loops - 1 }
    | .choose word branches =>
      let text ← expandText fuel word
      setStatus 0
      runChoice fuel text branches
    | .define name body =>
      modify fun process =>
        { process with
          functions := (name, body) :: process.functions.filter (·.1 != name), status := 0 }
    | .redirected command redirections =>
      let channels := (← get).channels
      if ← redirect fuel redirections then
        try run fuel command
        catch stop =>
          modify fun process => { process with channels }
          throw stop
      else
        setStatus 2
      modify fun process => { process with channels }

/-- Runs commands of which each reads what the one before it prints. -/
def runPiped : (fuel : Nat) → List Script → Act Unit
  | 0, _ => throw (.exits 2)
  | fuel + 1, commands => do
    match commands with
    | [] => pure ()
    | [command] => isolated (runToEnd fuel (run fuel command))
    | command :: others =>
      let output ← captured (runToEnd fuel (run fuel command))
      let channels := (← get).channels
      modify fun process => process.connectInput 0 output
      runPiped fuel others
      modify fun process => { process with channels }

/-- Runs the rounds of a loop. `status` is the one of the last round. -/
def runLoop : (fuel : Nat) → Bool → Script → Script → (status : Nat) → Act Unit
  | 0, _, _, _, _ => throw (.exits 2)
  | fuel + 1, isUntil, condition, body, status => do
    let tried ← caught do
      tested (run fuel condition)
      return decide ((← get).status = 0) != isUntil
    match tried with
    | .ended => pure ()
    | .skipped => runLoop fuel isUntil condition body (← get).status
    | .done false => setStatus status
    | .done true =>
      let round ← caught do
        run fuel body
        return true
      match round with
      | .ended => pure ()
      | _ => runLoop fuel isUntil condition body (← get).status

/-- Runs the body of a loop for each of some values. -/
def runEach : (fuel : Nat) → String → List Octets → Script → Act Unit
  | 0, _, _, _ => throw (.exits 2)
  | fuel + 1, name, items, body => do
    match items with
    | [] => pure ()
    | item :: items =>
      assign name item
      let round ← caught do
        run fuel body
        return true
      match round with
      | .ended => pure ()
      | _ => runEach fuel name items body

/-- Runs the first branch with a pattern that stands for a text. -/
def runChoice : (fuel : Nat) → Octets → List (List Word × Script) → Act Unit
  | 0, _, _ => throw (.exits 2)
  | fuel + 1, text, branches => do
    match branches with
    | [] => pure ()
    | (patterns, body) :: branches =>
      let mut isFound := false
      for pattern in patterns do
        if !isFound then
          isFound := (Fragment.marks (← expandWord fuel pattern)).standsFor text
      if isFound then run fuel body else runChoice fuel text branches

/-- Runs a simple command. -/
def runSimple : (fuel : Nat) → List (String × Word) → List Word → List Redirection → Act Unit
  | 0, _, _, _ => throw (.exits 2)
  | fuel + 1, assignments, words, redirections => do
    modify fun process => { process with substituted? := none, signal? := none }
    let fields ← expandFields fuel words
    let channels := (← get).channels
    let isDone ← redirect fuel redirections
    match fields with
    | [] =>
      if isDone then
        for (name, word) in assignments do
          assign name (← expandText fuel word)
        modify fun process =>
          { process with channels, status := process.substituted?.getD 0 }
      else
        modify fun process => { process with channels, status := 2 }
    | name :: arguments =>
      let isSpecial := isSpecial name.toString && ((← get).functions.lookup name.toString).isNone
      if !isDone then
        modify fun process => { process with channels, status := 2 }
        if isSpecial then throw (.exits 2)
      else
        let mut values := []
        for (name, word) in assignments do
          values := values ++ [(name, ← expandText fuel word)]
        let saved := (← get).bindings
        for (name, value) in values do
          assign name value
          if !isSpecial then declare name.toList fun kept =>
            { kept with isExported := true }
        let restore : Act Unit := modify fun process =>
          { process with
            channels := if name = "exec".toList && arguments.isEmpty then process.channels
              else channels
            bindings := if isSpecial then process.bindings
              else if values.isEmpty then process.bindings
              else
                values.foldl (fun bindings (name, _) =>
                  let others := bindings.filter (·.1 != name)
                  match saved.lookup name with
                  | some old => (name, old) :: others
                  | none => others) process.bindings }
        try runCommand fuel name arguments
        catch stop =>
          restore
          throw stop
        restore

/-- Runs a command by its name: one of the shell itself, a function, or a program. -/
def runCommand : (fuel : Nat) → Octets → List Octets → Act Unit
  | 0, _, _ => throw (.exits 2)
  | fuel + 1, name, arguments => do
    let process ← get
    match process.functions.lookup name.toString with
    | some body =>
      if isSpecial name.toString then runBuiltIn fuel name.toString arguments
      else callFunction fuel body arguments
    | none =>
      if isSpecial name.toString || isBuiltIn name.toString then
        runBuiltIn fuel name.toString arguments
      else
        runProgram fuel name arguments

/-- Calls a function. -/
def callFunction : (fuel : Nat) → Script → List Octets → Act Unit
  | 0, _, _ => throw (.exits 2)
  | fuel + 1, body, arguments => do
    let before ← get
    set { before with arguments, calls := before.calls + 1, loops := 0, hidden := [] }
    let restore : Act Unit := modify fun process =>
      let bindings := process.hidden.foldl (fun bindings (name, old?) =>
        let others := bindings.filter (·.1 != name)
        match old? with
        | some old => (name, old) :: others
        | none => others) process.bindings
      { process with
        arguments := before.arguments
        calls := before.calls
        loops := before.loops
        hidden := before.hidden
        isTested := before.isTested
        bindings }
    try run fuel body
    catch stop =>
      restore
      if stop ≠ .returns then throw stop
    restore

/-- Runs a command of the shell itself. -/
def runBuiltIn : (fuel : Nat) → String → List Octets → Act Unit
  | 0, _, _ => throw (.exits 2)
  | fuel + 1, name, arguments => do
    let process ← get
    match name with
    | ":" | "true" | "times" | "umask" | "alias" | "unalias" | "hash" | "ulimit" | "jobs" =>
      setStatus 0
    | "false" | "fg" | "bg" | "getopts" => setStatus 1
    | "echo" =>
      let text := if process.readsEscapes then Print.commandText arguments
        else Print.programText arguments
      set ({ process with status := 0 }.write 1 text)
    | "printf" => set (process.resume (Print.printf .command process.task arguments))
    | "test" => set (process.resume (Condition.run (!process.readsEscapes) process.task arguments))
    | "[" =>
      set (process.resume (Condition.runBracket (!process.readsEscapes) process.task arguments))
    | "cd" => changeDirectory arguments
    | "pwd" => set ({ process with status := 0 }.write 1
        (Octets.ofString ("/" ++ process.directory ++ "\n")))
    | "read" => readLine arguments
    | "exit" =>
      throw (.exits ((← numberOr process.status "exit" arguments) % 256))
    | "return" =>
      let status ← numberOr process.status "return" arguments
      setStatus status
      if process.calls = 0 then throw (.exits (status % 256)) else throw .returns
    | "break" | "continue" =>
      let levels ← numberOr 1 name arguments
      if levels = 0 then fail (name ++ ": Illegal number: 0")
      setStatus 0
      if process.loops = 0 then return
      let levels := min levels process.loops
      throw (if name = "break" then .breaks levels else .continues levels)
    | "shift" =>
      let count ← numberOr 1 "shift" arguments
      if process.arguments.length < count then fail "shift: can't shift that many"
      set { process with arguments := process.arguments.drop count, status := 0 }
    | "set" =>
      setOptions arguments
      setStatus 0
    | "export" =>
      for word in arguments.filter (· != ['-', 'p']) do
        declare word fun kept => { kept with isExported := true }
      setStatus 0
    | "readonly" =>
      for word in arguments.filter (· != ['-', 'p']) do
        declare word fun kept => { kept with isFixed := true }
      setStatus 0
    | "unset" => forget arguments
    | "local" => hide arguments
    | "trap" => setTraps (if arguments.head? = some ['-', '-'] then arguments.tail else arguments)
    | "wait" => setStatus (if arguments.isEmpty then 0 else process.background?.getD 127)
    | "kill" => sendSignal fuel arguments
    | "eval" => runText fuel ([' '].intercalate arguments)
    | "." =>
      match arguments with
      | [] => setStatus 0
      | path :: _ =>
        match process.tree.readBytes (process.task.path path) with
        | .ok bytes =>
          try runText fuel (Octets.ofBytes bytes)
          catch stop => if stop ≠ .returns then throw stop
        | .error _ => fail (".: cannot open " ++ path.toString)
    | "exec" =>
      match arguments with
      | [] => setStatus 0
      | program :: arguments =>
        runProgram fuel program arguments
        modify fun process => { process with traps := [] }
        match (← get).signal? with
        | some signal => throw (.dies signal)
        | none => throw (.exits (← get).status)
    | "type" => describeAll arguments
    | "command" =>
      match arguments with
      | ['-', 'v'] :: word :: _ =>
        match kindOf? process word.toString with
        | some .program => printLine ("/usr/bin/" ++ word.toString)
        | some _ => printLine word.toString
        | none => setStatus 127
      | ['-', 'V'] :: words => describeAll words
      | ['-', 'p'] :: program :: arguments | program :: arguments =>
        let functions := process.functions
        set { process with functions := [] }
        runCommand fuel program arguments
        modify fun process => { process with functions }
      | [] => setStatus 0
    | _ => setStatus 127

/-- Runs `kill`. -/
def sendSignal : (fuel : Nat) → List Octets → Act Unit
  | 0, _ => throw (.exits 2)
  | fuel + 1, arguments => do
    let process ← get
    let (signal?, targets) := match arguments with
      | ['-', 's'] :: signal :: targets | ['-', 'n'] :: signal :: targets =>
        (signalNumber? signal, targets)
      | ['-', '-'] :: targets => (some 15, targets)
      | ['-', 'l'] :: _ => (some 0, [])
      | ('-' :: signal) :: targets => (signalNumber? signal, targets)
      | targets => (some 15, targets)
    match signal? with
    | none => setStatus 2
    | some signal =>
      if targets.isEmpty then
        setStatus (if arguments.head? = some ['-', 'l'] then 0 else 2)
      else if !isSentToSelf process targets then
        setStatus 1
      else
        setStatus 0
        match if signal = 9 then none else process.traps.lookup (signalName signal) with
        | some action => if signal ≠ 0 then runText fuel action
        | none => if signal ≠ 0 ∧ !isHarmless signal then throw (.killed signal)

/-- Runs a program. -/
def runProgram : (fuel : Nat) → Octets → List Octets → Act Unit
  | 0, _, _ => throw (.exits 2)
  | fuel + 1, name, arguments => do
    let process ← get
    let base := baseName name.toString
    match program? base with
    | some program => set (process.resume (program process.task arguments))
    | none =>
      match base with
      | "which" =>
        let isKnown (word : Octets) : Bool :=
          (program? word.toString).isSome || isRunner word.toString
        let known := arguments.filter isKnown
        set ({ process with status := if known.length = arguments.length then 0 else 1 }.write 1
          (Octets.ofLines (known.map ("/usr/bin/".toList ++ ·))))
      | "sh" | "dash" => runShell fuel true arguments
      | "bash" => runShell fuel false arguments
      | "pwd" => runBuiltIn fuel "pwd" []
      | "kill" => runBuiltIn fuel "kill" arguments
      | "env" => runWith fuel arguments
      | "nohup" | "nice" =>
        let rest := match arguments with
          | ['-', 'n'] :: _ :: rest => rest
          | rest => rest
        match rest with
        | program :: arguments => runProgram fuel program arguments
        | [] => setStatus (if base = "nice" then 0 else 125)
      | "timeout" =>
        match (Utility.options "sk" arguments).2 with
        | time :: program :: arguments =>
          if isDuration time then
            runProgram fuel program arguments
            modify fun process => { process with signal? := none }
          else
            setStatus 125
        | _ => setStatus 125
      | "xargs" =>
        let (given, words) := Utility.options "nIdL" arguments
        let separators := if given.any (·.1 == '0') then ['\x00']
          else if given.any (·.1 == 'I') then ['\n'] else [' ', '\t', '\n']
        let items := (Filter.splitAt '\n' ((process.input 0).map fun c =>
          if separators.contains c then '\n' else c)).filter (!·.isEmpty)
        set (process.setInput 0 [])
        let words := if words.isEmpty then ["echo".toList] else words
        let size := ((given.lookup 'n').bind Octets.toNat?).getD (max items.length 1)
        match given.lookup 'I' with
        | some hole =>
          runBatches fuel (items.map fun item => words.map (replaceAll hole item))
        | none =>
          runBatches fuel (if items.isEmpty then
              (if given.any (·.1 == 'r') then [] else [words])
            else (batches size items).map (words ++ ·))
      | _ =>
        let (status, message) := refusal process name
        complain (name.toString ++ ": " ++ message)
        setStatus status

/-- Runs programs one after the other. -/
def runBatches : (fuel : Nat) → List (List Octets) → Act Unit
  | 0, _ => throw (.exits 2)
  | fuel + 1, batches => do
    let mut worst := 0
    for batch in batches do
      match batch with
      | program :: arguments =>
        runProgram fuel program arguments
        let status := (← get).status
        if status ≠ 0 then worst := if status = 126 ∨ status = 127 then status else max worst 123
      | [] => pure ()
    modify fun process => { process with status := worst, signal? := none }

/-- Runs `env`: sets variables and runs a program. -/
def runWith : (fuel : Nat) → List Octets → Act Unit
  | 0, _ => throw (.exits 2)
  | fuel + 1, arguments => do
    match arguments with
    | [] => setStatus 0
    | word :: rest =>
      if word = ['-', 'i'] ∨ word = ['-'] then
        let saved := (← get).bindings
        modify fun process =>
          { process with bindings := process.bindings.filter (!·.2.isExported) }
        runWith fuel rest
        modify fun process => { process with bindings := saved }
      else if word = ['-', 'u'] then
        runWith fuel rest.tail
      else if word = ['-', '-'] then
        runWith fuel rest
      else if word.contains '=' then
        let saved := (← get).bindings
        declare word fun kept => { kept with isExported := true }
        runWith fuel rest
        modify fun process => { process with bindings := saved }
      else
        runProgram fuel word rest

/-- Runs another shell. -/
def runShell : (fuel : Nat) → (readsEscapes : Bool) → List Octets → Act Unit
  | 0, _, _ => throw (.exits 2)
  | fuel + 1, readsEscapes, arguments => do
    let saved ← get
    let isOption (word : Octets) : Bool :=
      match word with
      | '-' :: _ :: _ | '+' :: _ :: _ => word ≠ ['-', '-']
      | _ => false
    let letters := (arguments.takeWhile isOption).flatMap List.tail
    let rest := arguments.dropWhile isOption
    let rest := if rest.head? = some ['-', '-'] then rest.tail else rest
    let options := letters.filter fun c => c != 'c' && c != 's'
    let shellName := if readsEscapes then "sh".toList else "bash".toList
    let known := "abcefhilmnrsuvxCEIV".toList
    let start : Option (Octets × Octets × List Octets) ←
      if !letters.all known.contains then
        pure none
      else if letters.contains 'c' then
        match rest with
        | [] => pure none
        | script :: rest => pure (some (script, rest.headD shellName, rest.tail))
      else if letters.contains 's' || rest.isEmpty then
        set (saved.setInput 0 [])
        pure (some (saved.input 0, shellName, rest))
      else
        match rest with
        | path :: rest =>
          match saved.tree.readBytes (saved.task.path path) with
          | .ok bytes => pure (some (Octets.ofBytes bytes, path, rest))
          | .error _ => pure none
        | [] => pure none
    match start with
    | none =>
      complain "cannot open"
      setStatus 2
    | some (script, name, arguments) =>
      let after (process : Process) (status : Nat) (signal? : Option Nat) : Process :=
        { saved with
          tree := process.tree, inputs := process.inputs, outputs := process.outputs
          status, signal? }
      let child := childOf (← get) name arguments options readsEscapes
      match (runToEnd fuel (runText fuel script)).run child with
      | .ok _ process => set (after process process.status none)
      | .error (.exits status) process => set (after process status none)
      | .error (.killed signal) process | .error (.dies signal) process =>
        set (after process (128 + signal) (some signal))
      | .error _ process => set (after process process.status none)

/-- Runs something with what it wants to be done at its exit. -/
def runToEnd : (fuel : Nat) → Act Unit → Act Unit
  | 0, _ => throw (.exits 2)
  | fuel + 1, act => do
    let status ← try
        act
        pure (← get).status
      catch stop =>
        match stop with
        | .exits status => pure status
        | .killed _ | .dies _ => throw stop
        | _ => pure (← get).status
    let process ← get
    set { process with status, traps := [], isTested := true }
    match process.traps.lookup "EXIT" with
    | some action =>
      runText fuel action
      throw (.exits status)
    | none => throw (.exits status)

end

end StyleMigration.Command.Shell
