import StyleMigration.Command.Utility.Regex
import StyleMigration.Command.Utility.Basic

/-!
Programs that read lines and print some of them, in another order or changed.
-/

set_option autoImplicit false

namespace StyleMigration.Command.Utility.Filter

open Text

/-- The lines of all files, or of the input. -/
def allLines (task : Task) (program : String) (names : List Octets) : List Octets × Task :=
  let read := { task with output := [] }.forFiles program names fun task _ content =>
    task.print content
  ((Octets.lines read.output).1, { read with output := task.output })

/-- A number that may have a sign, which is given apart. -/
def countOf (text : Octets) : Option Char × Nat :=
  match text with
  | '+' :: digits => (some '+', (Octets.toNat? digits).getD 0)
  | '-' :: digits => (some '-', (Octets.toNat? digits).getD 0)
  | digits => (none, (Octets.toNat? digits).getD 0)

/-- A word such as `-3` as an option that has the number as its value. -/
def withCount (words : List Octets) : List Octets :=
  match words with
  | ('-' :: c :: digits) :: rest =>
    if c.isDigit then ['-', 'n'] :: (c :: digits) :: rest else words
  | words => words

/-- Prints a part of each file under its name if there are several. -/
def parts (task : Task) (program : String) (isPlain : Bool) (names : List Octets)
    (cut : Octets → Octets) : Task :=
  let (task, _) := (if names.isEmpty then [['-']] else names).foldl (fun (task, isFirst) name =>
    match task.read name with
    | (.ok content, task) =>
      let heading := if 1 < names.length && !isPlain then
          (if isFirst then [] else ['\n']) ++ "==> ".toList ++ name ++ " <==\n".toList
        else []
      (task.print (heading ++ cut content), false)
    | (.error cause, task) =>
      (task.complain program ("cannot open '" ++ name.toString ++ "' for reading: " ++
        Task.causeText cause) 1, isFirst)) (task, true)
  task

/-- Lines with their ends, the last one only if it has one. -/
def keepLines (choose : List Octets → List Octets) (content : Octets) : Octets :=
  let (lines, isEnded) := Octets.lines content
  let ended := lines.zipIdx.map fun (line, index) =>
    if index + 1 = lines.length && !isEnded then line else line ++ ['\n']
  (choose ended).flatten

/-- Runs `head`. -/
def head (task : Task) (words : List Octets) : Task :=
  let (given, names) := options "nc" (withCount words)
  let cut (content : Octets) : Octets :=
    match (given.filter fun (flag, _) => flag == 'c' || flag == 'n').getLast? with
    | some ('c', count) =>
      match countOf count with
      | (some '-', count) => content.take (content.length - count)
      | (_, count) => content.take count
    | some ('n', count) =>
      match countOf count with
      | (some '-', count) => keepLines (fun lines => lines.take (lines.length - count)) content
      | (_, count) => keepLines (·.take count) content
    | _ => keepLines (·.take 10) content
  parts task "head" (given.any (·.1 == 'q')) names cut

/-- Runs `tail`. -/
def tail (task : Task) (words : List Octets) : Task :=
  let (given, names) := options "nc" (withCount words)
  let cut (content : Octets) : Octets :=
    match (given.filter fun (flag, _) => flag == 'c' || flag == 'n').getLast? with
    | some ('c', count) =>
      match countOf count with
      | (some '+', count) => content.drop (count - 1)
      | (_, count) => content.drop (content.length - count)
    | some ('n', count) =>
      match countOf count with
      | (some '+', count) => keepLines (·.drop (count - 1)) content
      | (_, count) => keepLines (fun lines => lines.drop (lines.length - count)) content
    | _ => keepLines (fun lines => lines.drop (lines.length - 10)) content
  parts task "tail" (given.any (·.1 == 'q')) names cut

/-- The number of words in a text. -/
def countWords (text : Octets) : Nat :=
  let isBlank (c : Char) : Bool := c == ' ' || (0x09 ≤ c.toNat && c.toNat ≤ 0x0d)
  (text.foldl (fun (count, inWord) c =>
    if isBlank c then (count, false) else (if inWord then count else count + 1, true))
    (0, false)).1

/-- Runs `wc`. -/
def wc (task : Task) (words : List Octets) : Task :=
  let (flags, names) := takeFlags words
  let asked (flag : Char) : Bool :=
    flags.contains flag || !(flags.any fun c => c == 'l' || c == 'w' || c == 'c' || c == 'm')
  let counts (content : Octets) : List Nat :=
    (if asked 'l' then [content.count '\n'] else []) ++
      (if asked 'w' then [countWords content] else []) ++
      (if asked 'c' || flags.contains 'm' then [content.length] else [])
  let read := (if names.isEmpty then [['-']] else names).foldl (fun (task, rows, size) name =>
    match Task.read task name with
    | (.ok content, task) => (task, rows ++ [(counts content, name)], size + content.length)
    | (.error cause, task) => (task.complainOf "wc" name cause, rows, size)) (task, [], 0)
  let sums := read.2.1.foldl (fun sums (row, _) =>
    (sums.zip row).map fun (a, b) => a + b) ((counts []).map fun _ => 0)
  let rows := if 1 < names.length then read.2.1 ++ [(sums, "total".toList)] else read.2.1
  let width :=
    if names.length ≤ 1 && (counts []).length = 1 then 1
    else if names.isEmpty || names.contains ['-'] then 7
    else (Octets.ofNat read.2.2).length
  let line (row : List Nat × Octets) : Octets :=
    let fields := row.1.map fun number =>
      let digits := Octets.ofNat number
      List.replicate (width - digits.length) ' ' ++ digits
    [' '].intercalate (if names.isEmpty then fields else fields ++ [row.2])
  read.1.print (Octets.ofLines (rows.map line))

/-- The number a line starts with. -/
def leadingNumber (line : Octets) : Int :=
  match line.dropWhile fun c => c == ' ' || c == '\t' with
  | '-' :: digits => -(((digits.takeWhile Char.isDigit).foldl
      (fun number c => number * 10 + (c.toNat - '0'.toNat)) 0 : Nat) : Int)
  | digits => (((digits.takeWhile Char.isDigit).foldl
      (fun number c => number * 10 + (c.toNat - '0'.toNat)) 0 : Nat) : Int)

/-- Runs `sort`. -/
def sort (task : Task) (words : List Octets) : Task :=
  let (given, names) := options "okt" words
  let has (flag : Char) : Bool := given.any (·.1 == flag)
  let (lines, task) := allLines task "sort" names
  let before (a b : Octets) : Bool :=
    if has 'n' && leadingNumber a != leadingNumber b then leadingNumber a < leadingNumber b
    else if has 'f' && a.map Char.toUpper != b.map Char.toUpper then
      decide (a.map Char.toUpper ≤ b.map Char.toUpper)
    else decide (a ≤ b)
  let sorted := lines.mergeSort fun a b => if has 'r' then before b a else before a b
  let same (a b : Octets) : Bool :=
    if has 'n' then leadingNumber a == leadingNumber b else a == b
  let kept := if has 'u' then
      sorted.foldr (fun line kept =>
        match kept with
        | other :: _ => if same line other then line :: kept.tail else line :: kept
        | [] => [line]) []
    else sorted
  if task.status ≠ 0 then task.finish 2
  else match given.lookup 'o' with
  | some name =>
    match task.write name (Octets.ofLines kept) with
    | .ok task => task
    | .error cause => (task.complainOf "sort" name cause).finish 2
  | none => task.print (Octets.ofLines kept)

/-- Equal lines in a row as one, with how many there are. -/
def runs : List Octets → List (Nat × Octets)
  | [] => []
  | line :: lines =>
    match runs lines with
    | (count, other) :: others =>
      if line = other then (count + 1, other) :: others else (1, line) :: (count, other) :: others
    | [] => [(1, line)]

/-- Runs `uniq`. -/
def uniq (task : Task) (words : List Octets) : Task :=
  let (flags, names) := takeFlags words
  let (lines, task) := allLines task "uniq" (names.take 1)
  let kept := (runs lines).filter fun (count, _) =>
    (!flags.contains 'd' || 1 < count) && (!flags.contains 'u' || count = 1)
  task.print (Octets.ofLines (kept.map fun (count, line) =>
    if flags.contains 'c' then
      let digits := Octets.ofNat count
      List.replicate (7 - digits.length) ' ' ++ digits ++ ' ' :: line
    else line))

/-- The characters of a set as `tr` takes it. -/
def setOf : (fuel : Nat) → Octets → Octets
  | 0, _ => []
  | _ + 1, [] => []
  | fuel + 1, '\\' :: c :: text =>
    (match c with
      | 'n' => '\n'
      | 't' => '\t'
      | 'r' => '\r'
      | c => c) :: setOf fuel text
  | fuel + 1, '[' :: ':' :: text =>
    match takeClass? text with
    | some (name, rest) =>
      ((List.range 256).map Char.ofNat).filter (isInClass name) ++ setOf fuel rest
    | none => '[' :: setOf fuel (':' :: text)
  | fuel + 1, first :: '-' :: last :: text =>
    (List.range' first.toNat (last.toNat + 1 - first.toNat)).map Char.ofNat ++ setOf fuel text
  | fuel + 1, c :: text => c :: setOf fuel text

/-- Runs `tr`. -/
def tr (task : Task) (words : List Octets) : Task :=
  let (flags, sets) := takeFlags words
  let set (text : Octets) : Octets := setOf (text.length + 1) text
  let isIn (from' : Octets) (c : Char) : Bool :=
    from'.contains c != (flags.contains 'c' || flags.contains 'C')
  let squeeze (isSqueezed : Char → Bool) (text : Octets) : Octets :=
    text.foldr (fun c kept => if isSqueezed c && kept.head? = some c then kept else c :: kept) []
  match sets with
  | [] => task.complain "tr" "missing operand" 1
  | _ :: _ :: _ :: _ => task.complain "tr" "extra operand" 1
  | first :: others =>
    let from' := set first
    let (input, task) := task.takeInput
    match flags.contains 'd', others with
    | true, [] => task.print (input.filter (!isIn from' ·))
    | true, second :: _ =>
      task.print (squeeze (set second).contains (input.filter (!isIn from' ·)))
    | false, [] =>
      if flags.contains 's' then task.print (squeeze (isIn from') input)
      else task.complain "tr" "missing operand" 1
    | false, second :: _ =>
      let into := set second
      let change (c : Char) : Char :=
        if isIn from' c then
          let index :=
            if flags.contains 'c' || flags.contains 'C' then into.length else from'.idxOf c
          (into[index]? <|> into.getLast?).getD c
        else c
      let changed := input.map change
      task.print (if flags.contains 's' then squeeze into.contains changed else changed)

/-- The pieces of a line between a sign. -/
def splitAt (sign : Char) : Octets → List Octets
  | [] => [[]]
  | c :: text =>
    match splitAt sign text with
    | [] => [[c]]
    | field :: fields => if c = sign then [] :: field :: fields else (c :: field) :: fields

/-- Whether a list such as `1,3-5,7-` has a number. -/
def isListed (list : Octets) (number : Nat) : Bool :=
  (splitAt ',' list).any fun range =>
    match splitAt '-' range with
    | [one] => Octets.toNat? one = some number
    | [first, last] =>
      ((Octets.toNat? first).getD 1 ≤ number) && (Octets.toNat? last).all (number ≤ ·)
    | _ => false

/-- Runs `cut`. -/
def cut (task : Task) (words : List Octets) : Task :=
  let (given, names) := options "dfcb" words
  let sign := ((given.lookup 'd').bind List.head?).getD '\t'
  let (lines, task) := allLines task "cut" names
  let chosen (list : Octets) (items : List Octets) : List Octets :=
    (items.zipIdx 1).filterMap fun (item, number) =>
      if isListed list number then some item else none
  match given.lookup 'f', given.lookup 'c' <|> given.lookup 'b' with
  | some list, _ =>
    let lines := lines.filter fun line => line.contains sign || !(given.any (·.1 == 's'))
    task.print (Octets.ofLines (lines.map fun line =>
      if line.contains sign then [sign].intercalate (chosen list (splitAt sign line)) else line))
  | none, some list =>
    task.print (Octets.ofLines (lines.map fun line =>
      (chosen list (line.map ([·]))).flatten))
  | none, none => task.complain "cut" "you must specify a list of bytes, characters, or fields" 1

/-- Runs `rev`, which turns lines round. -/
def rev (task : Task) (words : List Octets) : Task :=
  let (lines, task) := allLines task "rev" (takeFlags words).2
  task.print (Octets.ofLines (lines.map List.reverse))

/-- Runs `tac`, which prints the last line first. -/
def tac (task : Task) (words : List Octets) : Task :=
  let (lines, task) := allLines task "tac" (takeFlags words).2
  task.print (Octets.ofLines lines.reverse)

/-- Runs `nl`, which numbers the lines that are not empty. -/
def nl (task : Task) (words : List Octets) : Task :=
  let (lines, task) := allLines task "nl" (takeFlags words).2
  let (text, _) := lines.foldl (fun (text, number) line =>
    if line.isEmpty then
      (text ++ List.replicate 7 ' ' ++ ['\n'], number)
    else
      let digits := Octets.ofNat number
      (text ++ List.replicate (6 - digits.length) ' ' ++ digits ++ '\t' :: line ++ ['\n'],
        number + 1)) (([] : Octets), 1)
  task.print text

/-- Runs `seq`. -/
def seq (task : Task) (words : List Octets) : Task :=
  let numbers := words.map Octets.toInt?
  let print (first step last : Int) : Task :=
    let count := if step = 0 then 0
      else if 0 < step then (last - first + step) / step else (first - last - step) / (-step)
    task.print (Octets.ofLines ((List.range count.toNat).map fun (index : Nat) =>
      Octets.ofInt (first + step * index)))
  match numbers with
  | [some last] => print 1 1 last
  | [some first, some last] => print first 1 last
  | [some first, some step, some last] =>
    if step = 0 then task.complain "seq" "invalid Zero increment value: '0'" 1
    else print first step last
  | [] => task.complain "seq" "missing operand" 1
  | _ => task.complain "seq" "invalid argument" 1

/-- The matches in a line that are not empty. -/
def matchesIn (regex : Regex) : (fuel : Nat) → Regex.Cursor → List Octets
  | 0, _ => []
  | fuel + 1, cursor =>
    match regex.find? (cursor.rest.length + 1) { cursor with groups := [] } with
    | none => []
    | some (start, stop) =>
      match start.rest.take (start.rest.length - stop.rest.length), stop.rest with
      | [], c :: rest => matchesIn regex fuel { stop with before := c :: stop.before, rest }
      | [], [] => []
      | matched, _ => matched :: matchesIn regex fuel stop

/-- Whether a line has a pattern in it. -/
def lineTest? (flags : List Char) (pattern : Octets) : Option (Octets → Bool) :=
  let ignoresCase := flags.contains 'i' || flags.contains 'y'
  let fold (text : Octets) : Octets := if ignoresCase then text.map Char.toLower else text
  if flags.contains 'F' then
    some fun line =>
      if flags.contains 'x' then fold line = fold pattern
      else (cuts (fold line)).any fun (_, back) => (fold pattern).isPrefixOf back
  else do
    let regex ← Regex.read? ⟨flags.contains 'E', ignoresCase⟩ pattern
    some fun line =>
      if flags.contains 'x' then
        (Regex.ends (4 * line.length + 64) regex ⟨[], line, []⟩).any (·.rest.isEmpty)
      else if flags.contains 'w' then
        (cuts line).any fun (front, back) =>
          !(front.getLast?.any Regex.isWordChar) &&
            (Regex.ends (4 * line.length + 64) regex ⟨front.reverse, back, []⟩).any fun stop =>
              stop.rest.length < back.length && !(stop.rest.head?.any Regex.isWordChar)
      else (Regex.search? regex line).isSome

/-- Runs `grep`. -/
def grep (task : Task) (words : List Octets) : Task :=
  let (given, rest) := options "emABC" words
  let flags := given.map (·.1)
  let has (flag : Char) : Bool := flags.contains flag
  let patterns := (given.filter (·.1 == 'e')).map (·.2)
  let (patterns, names) := match patterns, rest with
    | [], pattern :: names => ([pattern], names)
    | patterns, names => (patterns, names)
  let isMissing := patterns.isEmpty
  let patterns := patterns.flatMap fun pattern => splitAt '\n' pattern
  let tests := patterns.map (lineTest? flags)
  let regexes := patterns.filterMap fun pattern =>
    let dialect := ⟨has 'E', has 'i' || has 'y'⟩
    if has 'F' then some (Regex.ofText dialect pattern) else Regex.read? dialect pattern
  if isMissing then
    task.complain "grep" "missing pattern" 2
  else if tests.any Option.isNone then
    task.complain "grep" "bad pattern" 2
  else
    let tests := tests.filterMap id
    let showsName := (1 < names.length || has 'H') && !has 'h'
    let (task, isFound) := (if names.isEmpty then [['-']] else names).foldl
      (fun (task, isFound) name =>
        match Task.read task name with
        | (.error cause, task) =>
          (if has 's' then { task with status := 2 }
            else { task.complainOf "grep" name cause with status := 2 }, isFound)
        | (.ok content, task) =>
          let lines := (Octets.lines content).1.zipIdx 1
          let found := lines.filter fun (line, _) => tests.any (· line) != has 'v'
          let mark := if showsName then name ++ [':'] else []
          let shown :=
            if has 'q' then []
            else if has 'l' then (if found.isEmpty then [] else [name])
            else if has 'L' then (if found.isEmpty then [name] else [])
            else if has 'c' then [mark ++ Octets.ofNat found.length]
            else found.flatMap fun (line, number) =>
              let mark := mark ++ (if has 'n' then Octets.ofNat number ++ [':'] else [])
              if has 'o' then
                (regexes.flatMap fun regex =>
                  matchesIn regex (line.length + 1) ⟨[], line, []⟩).map (mark ++ ·)
              else [mark ++ line]
          (task.print (Octets.ofLines shown), isFound || !found.isEmpty)) (task, false)
    if isFound && (has 'q' || task.status = 0) then task.finish 0
    else if task.status = 0 then task.finish 1
    else task

end StyleMigration.Command.Utility.Filter
