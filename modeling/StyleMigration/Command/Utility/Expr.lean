import StyleMigration.Command.Utility.Regex
import StyleMigration.Command.Utility.Basic

/-!
Values of expressions whose parts are words, as `expr` takes them.
-/

set_option autoImplicit false

namespace StyleMigration.Command.Utility.Expr

open Text

/-- Whether a value counts as false. -/
def isNothing (value : Octets) : Bool :=
  value.isEmpty || value.toInt? = some 0

/-- How tightly a sign binds. -/
def tightness? (sign : Octets) : Option Nat :=
  match sign.toString with
  | "|" => some 1
  | "&" => some 2
  | "<" | "<=" | "=" | "==" | "!=" | ">=" | ">" => some 3
  | "+" | "-" => some 4
  | "*" | "/" | "%" => some 5
  | ":" => some 6
  | _ => none

/-- What a match from the start of a text gives: its first group, or its length. -/
def matched? (text pattern : Octets) : Option Octets := do
  let regex ← Regex.read? ⟨false, false⟩ pattern
  let hasGroup := (cuts pattern).any fun (_, back) => ['\\', '('].isPrefixOf back
  match regex.matchAt? ⟨[], text, []⟩ with
  | some stop =>
    return if hasGroup then (stop.groups.lookup 1).getD []
      else Octets.ofNat (text.length - stop.rest.length)
  | none => return if hasGroup then [] else ['0']

/-- The value of a sign between two values; nothing if a value should be a number and is none, or if
zero divides. -/
def combine? (sign : Octets) (left right : Octets) : Option Octets :=
  let flag (holds : Bool) : Octets := if holds then ['1'] else ['0']
  let compare (test : Ordering → Bool) : Octets :=
    match left.toInt?, right.toInt? with
    | some a, some b => flag (test (Ord.compare a b))
    | _, _ => flag (test (if left < right then .lt else if left = right then .eq else .gt))
  let compute (op : Int → Int → Option Int) : Option Octets := do
    return Octets.ofInt (← op (← left.toInt?) (← right.toInt?))
  match sign.toString with
  | "|" => some (if isNothing left then (if right.isEmpty then ['0'] else right) else left)
  | "&" => some (if isNothing left || isNothing right then ['0'] else left)
  | "<" => some (compare (· == .lt))
  | "<=" => some (compare (· != .gt))
  | "=" | "==" => some (compare (· == .eq))
  | "!=" => some (compare (· != .eq))
  | ">=" => some (compare (· != .lt))
  | ">" => some (compare (· == .gt))
  | "+" => compute fun a b => some (a + b)
  | "-" => compute fun a b => some (a - b)
  | "*" => compute fun a b => some (a * b)
  | "/" => compute fun a b => if b = 0 then none else some (a.tdiv b)
  | "%" => compute fun a b => if b = 0 then none else some (a.tmod b)
  | ":" => matched? left right
  | _ => none

mutual

/-- An expression whose signs bind at least as tightly as asked for. -/
def take? : (fuel least : Nat) → List Octets → Option (Octets × List Octets)
  | 0, _, _ => none
  | fuel + 1, least, words => do
    let (left, rest) ← takeOne? fuel words
    takeMore? fuel least left rest

/-- The signs that follow a value. -/
def takeMore? : (fuel least : Nat) → Octets → List Octets → Option (Octets × List Octets)
  | 0, _, _, _ => none
  | fuel + 1, least, left, words =>
    match words with
    | sign :: rest =>
      match (tightness? sign).filter (least ≤ ·) with
      | some own => do
        let (right, rest) ← take? fuel (own + 1) rest
        takeMore? fuel least (← combine? sign left right) rest
      | none => some (left, words)
    | [] => some (left, [])

/-- A word, a function of words, or an expression in parentheses. -/
def takeOne? : (fuel : Nat) → List Octets → Option (Octets × List Octets)
  | 0, _ => none
  | fuel + 1, words =>
    match words with
    | [] => none
    | ['('] :: rest =>
      match take? fuel 1 rest with
      | some (value, [')'] :: rest) => some (value, rest)
      | _ => none
    | word :: rest =>
      match word.toString, rest with
      | "length", text :: rest => some (Octets.ofNat text.length, rest)
      | "match", text :: pattern :: rest => (matched? text pattern).map fun value => (value, rest)
      | "substr", text :: position :: length :: rest => do
        let position ← position.toInt?
        let length ← length.toInt?
        return (if position ≤ 0 ∨ length ≤ 0 then []
          else (text.drop (position.toNat - 1)).take length.toNat, rest)
      | "index", text :: chars :: rest =>
        some (Octets.ofNat (((text.zipIdx 1).find? fun (c, _) => chars.contains c).map
          (·.2) |>.getD 0), rest)
      | _, rest => some (word, rest)

end

/-- Runs `expr`. -/
def run (task : Task) (words : List Octets) : Task :=
  match take? (8 * words.length + 8) 1 words with
  | some (value, []) => (task.print (value ++ ['\n'])).finish (if isNothing value then 1 else 0)
  | _ => task.complain "expr" "bad expression" 2

end StyleMigration.Command.Utility.Expr
