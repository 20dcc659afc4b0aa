import StyleMigration.Command.Utility.Basic

/-!
Conditions on texts, numbers and files, as `test` takes them.
-/

set_option autoImplicit false

namespace StyleMigration.Command.Utility.Condition

open Text

/-- A test of one word, if the sign is one. -/
def single? (task : Task) (sign : String) (word : Octets) : Option Bool :=
  let entryAt? := task.entryAt? word
  let isNull := word.toString == "/dev/null"
  match sign with
  | "-n" => some !word.isEmpty
  | "-z" => some word.isEmpty
  | "-e" | "-r" | "-w" | "-O" | "-G" => some (entryAt?.isSome || isNull)
  | "-d" => some (entryAt? == some .directory)
  | "-x" => some (entryAt? == some .directory)
  | "-f" => some (entryAt?.any (· != .directory))
  | "-s" => some (entryAt?.any fun
    | .file bytes => bytes.size != 0
    | _ => true)
  | "-L" | "-h" => some ((task.entryItself? word).any fun
    | .link _ => true
    | _ => false)
  | "-c" => some isNull
  | "-b" | "-p" | "-S" | "-t" | "-g" | "-u" | "-k" => some false
  | _ => none

/-- Whether a sign stands between two words. Only the program knows the double sign of equality. -/
def isDouble (isProgram : Bool) (sign : Octets) : Bool :=
  let signs := ["=", "!=", "<", ">", "-eq", "-ne", "-lt", "-le", "-gt", "-ge", "-nt", "-ot", "-ef"]
  signs.contains sign.toString || (isProgram && sign.toString == "==")

/-- A test of two words; nothing if one should be a number and is none. For the program a file is
newer than none. -/
def double? (isProgram : Bool) (task : Task) (left sign right : Octets) : Option Bool :=
  let compare (test : Int → Int → Bool) : Option Bool := do
    return test (← left.toInt?) (← right.toInt?)
  let place? (name : Octets) : Option FileTree.Place :=
    (task.tree.resolve true (task.path name)).toOption
  match sign.toString with
  | "=" | "==" => some (left == right)
  | "!=" => some (left != right)
  | "<" => some (left < right)
  | ">" => some (right < left)
  | "-eq" => compare (· == ·)
  | "-ne" => compare (· != ·)
  | "-lt" => compare fun a b => decide (a < b)
  | "-le" => compare fun a b => decide (a ≤ b)
  | "-gt" => compare fun a b => decide (b < a)
  | "-ge" => compare fun a b => decide (b ≤ a)
  | "-nt" => some (isProgram && (task.entryAt? left).isSome && (task.entryAt? right).isNone)
  | "-ot" => some (isProgram && (task.entryAt? left).isNone && (task.entryAt? right).isSome)
  | "-ef" =>
    match place? left, place? right with
    | some (.taken key _), some (.taken key' _) => some (key == key')
    | _, _ => some false
  | _ => none

/-- Whether a word is the sign of a test of one word here, where some words follow it. One that
stands alone, or before a sign for two words that has something on its other side, is a word as any
other. -/
def isSingle (isProgram : Bool) (task : Task) (sign : Octets) : List Octets → Bool
  | [] => false
  | [_] => (single? task sign.toString []).isSome
  | next :: _ :: _ => (single? task sign.toString []).isSome && !isDouble isProgram next

mutual

/-- Conditions joined by `-o`. -/
def takeEither? (isProgram : Bool) (task : Task) :
    (fuel : Nat) → List Octets → Option (Bool × List Octets)
  | 0, _ => none
  | fuel + 1, words => do
    let (left, rest) ← takeBoth? isProgram task fuel words
    match rest with
    | ['-', 'o'] :: rest =>
      let (right, rest) ← takeEither? isProgram task fuel rest
      return (left || right, rest)
    | rest => return (left, rest)

/-- Conditions joined by `-a`. -/
def takeBoth? (isProgram : Bool) (task : Task) :
    (fuel : Nat) → List Octets → Option (Bool × List Octets)
  | 0, _ => none
  | fuel + 1, words => do
    let (left, rest) ← takeOne? isProgram task fuel words
    match rest with
    | ['-', 'a'] :: rest =>
      let (right, rest) ← takeBoth? isProgram task fuel rest
      return (left && right, rest)
    | rest => return (left, rest)

/-- One condition, perhaps after `!` or in parentheses. One that is missing does not hold. -/
def takeOne? (isProgram : Bool) (task : Task) :
    (fuel : Nat) → List Octets → Option (Bool × List Octets)
  | 0, _ => none
  | fuel + 1, words =>
    match words with
    | [] => some (false, [])
    | ['!'] :: rest =>
      (takeOne? isProgram task fuel rest).map fun (holds, rest) => (!holds, rest)
    | ['('] :: [')'] :: rest => some (false, rest)
    | ['('] :: word :: rest =>
      match takeEither? isProgram task fuel (word :: rest) with
      | some (holds, [')'] :: rest) => some (holds, rest)
      | _ => none
    | word :: rest =>
      if isSingle isProgram task word rest then
        (single? task word.toString (rest.headD [])).map fun holds => (holds, rest.tail)
      else
        match rest with
        | sign :: right :: rest' =>
          if isDouble isProgram sign then
            (double? isProgram task word sign right).map fun holds => (holds, rest')
          else some (!word.isEmpty, rest)
        | [sign] => if isDouble isProgram sign then none else some (!word.isEmpty, rest)
        | [] => some (!word.isEmpty, [])

end

/-- Whether all words together are a condition that holds; nothing if they are none. -/
def wholeHolds? (isProgram : Bool) (task : Task) (words : List Octets) : Option Bool :=
  match takeEither? isProgram task (4 * words.length + 8) words with
  | some (holds, []) => some holds
  | _ => none

/-- Whether some words as a condition hold; nothing if they are none. Of three or four words, those
in parentheses are looked at alone, and `!` is for all that follows it. -/
def holds? (isProgram : Bool) (task : Task) : (negated : Bool) → List Octets → Option Bool
  | _, [] => some false
  | negated, word :: words =>
    let isShort := words.length = 2 || words.length = 3
    if words.length = 2 && isDouble isProgram (words.headD []) then
      (double? isProgram task word (words.headD []) (words.getLastD [])).map (· != negated)
    else if isShort && word = ['('] && words.getLast? = some [')'] then
      (wholeHolds? isProgram task words.dropLast).map (· != negated)
    else if isShort && word = ['!'] then
      holds? isProgram task (!isProgram || !negated) words
    else
      (wholeHolds? isProgram task (word :: words)).map (· != negated)

/-- Runs `test`. -/
def run (isProgram : Bool) (task : Task) (words : List Octets) : Task :=
  match holds? isProgram task false words with
  | some true => task.finish 0
  | some false => task.finish 1
  | none => task.complain "test" "bad condition" 2

/-- Runs `[`, which asks for a closing bracket. -/
def runBracket (isProgram : Bool) (task : Task) (words : List Octets) : Task :=
  if words.getLast? = some [']'] then run isProgram task words.dropLast
  else task.complain "[" "missing ]" 2

end StyleMigration.Command.Utility.Condition
