import StyleMigration.Command.Utility.Filter

/-!
Editing lines as `sed` does: a list of edits, each for the lines at its address.
-/

set_option autoImplicit false

namespace StyleMigration.Command.Utility.Edit

open Text

inductive Address where
  | line (number : Nat)
  | last
  | found (regex : Regex)

/-- A part of what takes the place of a match. -/
inductive Part where
  | text (text : Octets)
  /-- What a group has matched; group zero is the whole match. -/
  | group (index : Nat)

inductive Action where
  | substitute (regex : Regex) (parts : List Part) (isGlobal : Bool) (nth : Nat) (prints : Bool)
  | delete
  | print
  | quit
  | number
  | append (text : Octets)
  | insert (text : Octets)
  | change (text : Octets)
  | exchange (old new : Octets)

/-- An edit: the lines it is for, and what it does with them. -/
structure Step where
  first? : Option Address
  second? : Option Address
  negated : Bool
  action : Action

/-- The text up to a sign that has no backslash before it. A sign with one stands for itself. -/
def takeUpTo? (sign : Char) : Octets → Option (Octets × Octets)
  | [] => none
  | '\\' :: c :: text =>
    (takeUpTo? sign text).map fun (front, rest) =>
      (if c = sign then c :: front else if c = 'n' then '\\' :: 'n' :: front
        else '\\' :: c :: front, rest)
  | c :: text =>
    if c = sign then some ([], text)
    else (takeUpTo? sign text).map fun (front, rest) => (c :: front, rest)

/-- The parts of a replacement. -/
def partsOf : Octets → List Part
  | [] => []
  | '\\' :: c :: text =>
    (if c.isDigit then .group (c.toNat - '0'.toNat)
      else if c = 'n' then .text ['\n']
      else if c = 't' then .text ['\t']
      else .text [c]) :: partsOf text
  | '&' :: text => .group 0 :: partsOf text
  | c :: text => .text [c] :: partsOf text

/-- An address at the front of a text. -/
def takeAddress? (extended : Bool) (text : Octets) : Option (Address × Octets) :=
  match text with
  | '$' :: rest => some (.last, rest)
  | '/' :: rest => do
    let (pattern, rest) ← takeUpTo? '/' rest
    let (ignoresCase, rest) := match rest with
      | 'I' :: rest => (true, rest)
      | rest => (false, rest)
    return (.found (← Regex.read? ⟨extended, ignoresCase⟩ pattern), rest)
  | text =>
    let digits := text.takeWhile Char.isDigit
    (Octets.toNat? digits).map fun number => (.line number, text.dropWhile Char.isDigit)

/-- The text of an edit that adds lines, and what follows it. -/
def takeText (text : Octets) : Octets × Octets :=
  let text := text.dropWhile fun c => c == ' ' || c == '\t'
  let text := match text with
    | '\\' :: '\n' :: rest => rest
    | '\\' :: rest => rest
    | rest => rest
  (text.takeWhile (· != '\n') ++ ['\n'], (text.dropWhile (· != '\n')).drop 1)

/-- A substitution after its letter. -/
def takeSubstitution? (extended : Bool) : Octets → Option (Action × Octets)
  | [] => none
  | sign :: text => do
    let (pattern, rest) ← takeUpTo? sign text
    let (replacement, rest) ← takeUpTo? sign rest
    let isFlag (c : Char) : Bool :=
      c == 'g' || c == 'p' || c == 'i' || c == 'I' || c.isDigit
    let flags := rest.takeWhile isFlag
    let regex ← Regex.read? ⟨extended, flags.contains 'i' || flags.contains 'I'⟩ pattern
    let nth := (Octets.toNat? (flags.filter Char.isDigit)).getD 1
    return (.substitute regex (partsOf replacement) (flags.contains 'g') nth (flags.contains 'p'),
      rest.dropWhile isFlag)

/-- What an edit does, from its letter on. -/
def takeAction? (extended : Bool) : Octets → Option (Action × Octets)
  | 's' :: text => takeSubstitution? extended text
  | 'd' :: text => some (.delete, text)
  | 'p' :: text => some (.print, text)
  | 'q' :: text => some (.quit, text)
  | '=' :: text => some (.number, text)
  | 'a' :: text =>
    let (added, rest) := takeText text
    some (.append added, rest)
  | 'i' :: text =>
    let (added, rest) := takeText text
    some (.insert added, rest)
  | 'c' :: text =>
    let (added, rest) := takeText text
    some (.change added, rest)
  | 'y' :: sign :: text => do
    let (old, rest) ← takeUpTo? sign text
    let (new, rest) ← takeUpTo? sign rest
    if old.length = new.length then return (.exchange old new, rest) else none
  | _ => none

/-- The edits of a script. -/
def steps? (extended : Bool) : (fuel : Nat) → Octets → Option (List Step)
  | 0, _ => none
  | fuel + 1, text =>
    let text := text.dropWhile fun c => c == ' ' || c == '\t' || c == '\n' || c == ';'
    if text.isEmpty then
      some []
    else
      let (first?, rest) := match takeAddress? extended text with
        | some (address, rest) => (some address, rest)
        | none => (none, text)
      let (second?, rest) := match first?, rest with
        | some _, ',' :: rest =>
          match takeAddress? extended rest with
          | some (address, rest) => (some address, rest)
          | none => (none, ',' :: rest)
        | _, rest => (none, rest)
      let rest := rest.dropWhile (· == ' ')
      let (negated, rest) := match rest with
        | '!' :: rest => (true, rest.dropWhile (· == ' '))
        | rest => (false, rest)
      match takeAction? extended rest with
      | none => none
      | some (action, rest) =>
        let after := rest.dropWhile fun c => c == ' ' || c == '\t'
        let isEnded := match action with
          | .append _ | .insert _ | .change _ => true
          | _ => after.isEmpty || after.head?.any fun c => c == ';' || c == '\n'
        if isEnded then (steps? extended fuel rest).map (⟨first?, second?, negated, action⟩ :: ·)
        else none

/-- What takes the place of a match. -/
def replacement (parts : List Part) (start stop : Regex.Cursor) : Octets :=
  parts.flatMap fun
    | .text text => text
    | .group 0 => start.rest.take (start.rest.length - stop.rest.length)
    | .group index => (stop.groups.lookup index).getD []

/-- A line with its matches replaced from the one with number `nth` on, and whether there was one.
`count` is the number of the next match. -/
def substitute (regex : Regex) (parts : List Part) (isGlobal : Bool) (nth : Nat) :
    (fuel count : Nat) → Regex.Cursor → Octets × Bool
  | 0, _, cursor => (cursor.rest, false)
  | fuel + 1, count, cursor =>
    match regex.find? (cursor.rest.length + 1) { cursor with groups := [] } with
    | none => (cursor.rest, false)
    | some (start, stop) =>
      let skipped := cursor.rest.take (cursor.rest.length - start.rest.length)
      let matched := start.rest.take (start.rest.length - stop.rest.length)
      let isTaken := count = nth || (isGlobal && nth ≤ count)
      let shown := if isTaken then replacement parts start stop else matched
      if isTaken && !isGlobal then
        (skipped ++ shown ++ stop.rest, true)
      else
        let (passed, next) := match matched, stop.rest with
          | [], c :: rest => ([c], { stop with before := c :: stop.before, rest })
          | _, _ => ([], stop)
        if matched.isEmpty && stop.rest.isEmpty then
          (skipped ++ shown, isTaken)
        else
          let (after, isDone) := substitute regex parts isGlobal nth fuel (count + 1) next
          (skipped ++ shown ++ passed ++ after, isTaken || isDone)

/-- The edits with which of them are inside their range of lines, and what was printed. -/
structure Progress where
  within : List Bool
  output : Octets
  isQuit : Bool

def hits (address : Address) (number : Nat) (isLast : Bool) (line : Octets) : Bool :=
  match address with
  | .line wanted => wanted = number
  | .last => isLast
  | .found regex => (regex.search? line).isSome

/-- Whether an edit is for a line, and whether its range goes on after it. -/
def applies (step : Step) (inside : Bool) (number : Nat) (isLast : Bool) (line : Octets) :
    Bool × Bool :=
  let (isHit, goesOn) := match step.first?, step.second? with
    | none, _ => (true, false)
    | some first, none => (hits first number isLast line, false)
    | some first, some second =>
      if inside then
        let isOver := match second with
          | .line wanted => wanted ≤ number
          | second => hits second number isLast line
        (true, !isOver)
      else if hits first number isLast line then
        let isOver := match second with
          | .line wanted => wanted ≤ number
          | _ => false
        (true, !isOver)
      else (false, false)
  (isHit != step.negated, goesOn)

/-- A line under edit: its text unless it was deleted, and what comes before and after it. -/
structure Editing where
  line? : Option Octets
  before : Octets
  after : Octets
  isQuit : Bool

/-- Does one edit. -/
def act (number : Nat) (editing : Editing) (line : Octets) : Action → Editing
  | .substitute regex parts isGlobal nth prints =>
    let (changed, isDone) :=
      substitute regex parts isGlobal nth (2 * line.length + 2) 1 ⟨[], line, []⟩
    { editing with
      line? := some changed
      before := if isDone && prints then editing.before ++ changed ++ ['\n'] else editing.before }
  | .delete => { editing with line? := none }
  | .print => { editing with before := editing.before ++ line ++ ['\n'] }
  | .quit => { editing with isQuit := true }
  | .number => { editing with before := editing.before ++ Octets.ofNat number ++ ['\n'] }
  | .append text => { editing with after := editing.after ++ text }
  | .insert text => { editing with before := editing.before ++ text }
  | .change text => { editing with line? := none, before := editing.before ++ text }
  | .exchange old new =>
    { editing with
      line? := some (line.map fun c => if old.contains c then new.getD (old.idxOf c) c else c) }

/-- Does all edits for one line. -/
def editLine (number : Nat) (isLast : Bool) :
    List (Step × Bool) → Editing → Editing × List Bool
  | [], editing => (editing, [])
  | (step, inside) :: steps, editing =>
    match editing.line?, editing.isQuit with
    | some line, false =>
      let (isHit, goesOn) := applies step inside number isLast line
      let (editing, within) := editLine number isLast steps
        (if isHit then act number editing line step.action else editing)
      (editing, goesOn :: within)
    | _, _ => (editing, inside :: steps.map (·.2))

/-- Edits lines, of which the last has no end if `isEnded` says so. -/
def editLines (steps : List Step) (isQuiet isEnded : Bool) (lines : List Octets) : Octets :=
  let count := lines.length
  let progress := (lines.zipIdx 1).foldl (fun (progress : Progress) (line, number) =>
    if progress.isQuit then
      progress
    else
      let (editing, within) := editLine number (number = count) (steps.zip progress.within)
        ⟨some line, [], [], false⟩
      let lineEnd := if number = count && !isEnded && editing.after.isEmpty then [] else ['\n']
      let shown := match editing.line? with
        | some line => if isQuiet then [] else line ++ lineEnd
        | none => []
      ⟨within, progress.output ++ editing.before ++ shown ++ editing.after, editing.isQuit⟩)
    ⟨steps.map fun _ => false, [], false⟩
  progress.output

/-- Runs `sed`. -/
def run (task : Task) (words : List Octets) : Task :=
  let inPlace := words.any fun word => "-i".toList.isPrefixOf word || word = "--in-place".toList
  let kept := ((words.find? ("-i".toList.isPrefixOf ·)).getD []).drop 2
  let words := words.filter fun word =>
    !("-i".toList.isPrefixOf word) && word ≠ "--in-place".toList
  let (given, rest) := options "e" words
  let has (flag : Char) : Bool := given.any (·.1 == flag)
  let scripts := (given.filter (·.1 == 'e')).map (·.2)
  let (scripts, names) := match scripts, rest with
    | [], script :: names => ([script], names)
    | scripts, names => (scripts, names)
  let script := ['\n'].intercalate scripts
  match steps? (has 'E' || has 'r') (script.length + 1) script with
  | none => task.complain "sed" "bad script" 1
  | some steps =>
    if scripts.isEmpty then
      task.complain "sed" "no script specified" 1
    else if inPlace then
      names.foldl (fun task name =>
        match task.read name with
        | (.error cause, task) =>
          { task.complain "sed" ("can't read " ++ name.toString ++ ": " ++ Task.causeText cause) 2
            with status := if cause = .isDirectory then 4 else 2 }
        | (.ok content, task) =>
          let (lines, isEnded) := Octets.lines content
          let saved := if kept.isEmpty then .ok task else task.write (name ++ kept) content
          match saved.bind (·.write name (editLines steps (has 'n') isEnded lines)) with
          | .ok task => task
          | .error cause => (task.complainOf "sed" name cause).finish 4) task
    else
      let read := (if names.isEmpty then [['-']] else names).foldl (fun (task, text) name =>
        match Task.read task name with
        | (.ok content, task) =>
          let isOpen := !text.isEmpty && text.getLast? != some '\n' && !content.isEmpty
          (task, text ++ (if isOpen then ['\n'] else []) ++ content)
        | (.error cause, task) =>
          (task.complain "sed" ("can't read " ++ name.toString ++ ": " ++ Task.causeText cause) 2,
            text)) (task, ([] : Octets))
      let (lines, isEnded) := Octets.lines read.2
      read.1.print (editLines steps (has 'n') isEnded lines)

end StyleMigration.Command.Utility.Edit
