import StyleMigration.Text.Octets

/-!
Whole numbers in scripts: expressions with the usual operators over numbers of 64 bits and over
variables, which can be assigned to.
-/

set_option autoImplicit false

namespace StyleMigration.Command.Shell

open Text

/-- The number of 64 bits with a sign that a number wraps to. -/
def wrap (number : Int) : Int :=
  number.bmod (Nat.pow 2 64)

inductive Operator where
  | multiply
  | divide
  | remainder
  | add
  | subtract
  | shiftLeft
  | shiftRight
  | less
  | lessOrEqual
  | greater
  | greaterOrEqual
  | equal
  | unequal
  | bitAnd
  | bitXor
  | bitOr
  deriving DecidableEq, Repr

namespace Operator

/-- The operators with their signs and how tightly they bind, long signs first. -/
def table : List (Octets × Operator × Nat) :=
  [("<<".toList, shiftLeft, 8), (">>".toList, shiftRight, 8), ("<=".toList, lessOrEqual, 7),
    (">=".toList, greaterOrEqual, 7), ("==".toList, equal, 6), ("!=".toList, unequal, 6),
    ("*".toList, multiply, 10), ("/".toList, divide, 10), ("%".toList, remainder, 10),
    ("+".toList, add, 9), ("-".toList, subtract, 9), ("<".toList, less, 7),
    (">".toList, greater, 7), ("&".toList, bitAnd, 5), ("^".toList, bitXor, 4),
    ("|".toList, bitOr, 3)]

/-- The value of a truth value. -/
def flag (holds : Bool) : Int :=
  if holds then 1 else 0

/-- The bits of a number as one without a sign. -/
def bits (number : Int) : Nat :=
  (number % Int.pow 2 64).toNat

/-- The value of an operator; a division by zero has none. -/
def eval? (left right : Int) : Operator → Option Int
  | multiply => some (wrap (left * right))
  | divide => if right = 0 then none else some (wrap (left.tdiv right))
  | remainder => if right = 0 then none else some (left.tmod right)
  | add => some (wrap (left + right))
  | subtract => some (wrap (left - right))
  | shiftLeft => some (wrap (left * Int.pow 2 (bits right % 64)))
  | shiftRight => some (left.fdiv (Int.pow 2 (bits right % 64)))
  | less => some (flag (left < right))
  | lessOrEqual => some (flag (left ≤ right))
  | greater => some (flag (right < left))
  | greaterOrEqual => some (flag (right ≤ left))
  | equal => some (flag (left = right))
  | unequal => some (flag (left ≠ right))
  | bitAnd => some (wrap (bits left &&& bits right))
  | bitXor => some (wrap (bits left ^^^ bits right))
  | bitOr => some (wrap (bits left ||| bits right))

end Operator

inductive Expression where
  | number (value : Int)
  | named (name : String)
  | assign (name : String) (operator : Option Operator) (value : Expression)
  | negate (operand : Expression)
  | invert (operand : Expression)
  | complement (operand : Expression)
  | apply (operator : Operator) (left right : Expression)
  | both (left right : Expression)
  | either (left right : Expression)
  | choose (condition yes no : Expression)

def isNameStart (c : Char) : Bool :=
  c.isAlpha || c == '_'

def isNameChar (c : Char) : Bool :=
  c.isAlphanum || c == '_'

/-- A text without the blanks at its front. -/
def skipBlanks (text : Octets) : Octets :=
  text.dropWhile fun c => c == ' ' || c == '\t' || c == '\n'

/-- The value of a digit in a base of at most sixteen. -/
def digitValue (c : Char) : Nat :=
  if c.isDigit then c.toNat - '0'.toNat
  else if 'a' ≤ c ∧ c ≤ 'f' then c.toNat - 'a'.toNat + 10
  else if 'A' ≤ c ∧ c ≤ 'F' then c.toNat - 'A'.toNat + 10
  else 16

/-- The number that digits of a base stand for. -/
def ofBase? (base : Nat) (digits : Octets) : Option Int :=
  if digits.isEmpty || !digits.all (digitValue · < base) then none
  else some (digits.foldl (fun number c => number * base + digitValue c) 0)

/-- A number without a sign: in base eight after a zero, in base sixteen after `0x`. -/
def unsigned? : Octets → Option Int
  | '0' :: 'x' :: digits | '0' :: 'X' :: digits => ofBase? 16 digits
  | '0' :: c :: digits => ofBase? 8 (c :: digits)
  | digits => ofBase? 10 digits

/-- The number that the value of a variable stands for; an empty one stands for zero. -/
def valueOf? (text : Octets) : Option Int :=
  let isBlank (c : Char) : Bool := c == ' ' || c == '\t' || c == '\n'
  match ((skipBlanks text).reverse.dropWhile isBlank).reverse with
  | [] => some 0
  | '-' :: digits => (unsigned? digits).map (-·)
  | '+' :: digits => unsigned? digits
  | digits => unsigned? digits

/-- An operator that binds at least as tightly as asked for, at the front of a text. The sign of an
assignment or of a condition is none. -/
def takeOperator? (tightness : Nat) (text : Octets) : Option (Operator × Nat × Octets) :=
  Operator.table.findSome? fun (sign, operator, own) =>
    let rest := text.drop sign.length
    let isOther := match sign, rest with
      | ['&'], '&' :: _ | ['|'], '|' :: _ => true
      | _, '=' :: '=' :: _ => false
      | sign, '=' :: _ => !(["<=", ">=", "==", "!="].contains (String.ofList sign))
      | _, _ => false
    if sign.isPrefixOf text && tightness ≤ own && !isOther then some (operator, own, rest) else none

/-- The sign of an assignment at the front of a text. -/
def takeAssignment? (text : Octets) : Option (Option Operator × Octets) :=
  match text with
  | '=' :: '=' :: _ => none
  | '=' :: rest => some (none, rest)
  | text =>
    Operator.table.findSome? fun (sign, operator, _) =>
      match text.drop sign.length with
      | '=' :: rest =>
        if sign.isPrefixOf text &&
            !(["<", ">", "<=", ">=", "==", "!="].contains (String.ofList sign)) then
          some (some operator, rest)
        else none
      | _ => none

mutual

/-- An expression with assignments and conditions. -/
def takeExpression? : (fuel : Nat) → Octets → Option (Expression × Octets)
  | 0, _ => none
  | fuel + 1, text => do
    let text := skipBlanks text
    let name := text.takeWhile isNameChar
    let assignment? := if text.head?.any isNameStart then
        takeAssignment? (skipBlanks (text.dropWhile isNameChar))
      else none
    match assignment? with
    | some (operator, rest) =>
      let (value, rest) ← takeExpression? fuel rest
      return (.assign (String.ofList name) operator value, rest)
    | none =>
      let (condition, rest) ← takeEither? fuel text
      match skipBlanks rest with
      | '?' :: rest =>
        let (yes, rest) ← takeExpression? fuel rest
        match skipBlanks rest with
        | ':' :: rest =>
          let (no, rest) ← takeExpression? fuel rest
          return (.choose condition yes no, rest)
        | _ => none
      | rest => return (condition, rest)

/-- Expressions joined by `||`. -/
def takeEither? : (fuel : Nat) → Octets → Option (Expression × Octets)
  | 0, _ => none
  | fuel + 1, text => do
    let (left, rest) ← takeBoth? fuel text
    match skipBlanks rest with
    | '|' :: '|' :: rest =>
      let (right, rest) ← takeEither? fuel rest
      return (.either left right, rest)
    | rest => return (left, rest)

/-- Expressions joined by `&&`. -/
def takeBoth? : (fuel : Nat) → Octets → Option (Expression × Octets)
  | 0, _ => none
  | fuel + 1, text => do
    let (left, rest) ← takeOperand? fuel text
    let (left, rest) ← takeApplied? fuel 3 left rest
    match skipBlanks rest with
    | '&' :: '&' :: rest =>
      let (right, rest) ← takeBoth? fuel rest
      return (.both left right, rest)
    | rest => return (left, rest)

/-- The operators that follow an operand and bind at least as tightly as asked for. -/
def takeApplied? : (fuel tightness : Nat) → Expression → Octets → Option (Expression × Octets)
  | 0, _, _, _ => none
  | fuel + 1, tightness, left, text =>
    match takeOperator? tightness (skipBlanks text) with
    | none => some (left, text)
    | some (operator, own, rest) => do
      let (right, rest) ← takeOperand? fuel rest
      let (right, rest) ← takeApplied? fuel (own + 1) right rest
      takeApplied? fuel tightness (.apply operator left right) rest

/-- A number, a variable, an expression in parentheses, or one of these after signs. -/
def takeOperand? : (fuel : Nat) → Octets → Option (Expression × Octets)
  | 0, _ => none
  | fuel + 1, text =>
    match skipBlanks text with
    | '(' :: rest => do
      let (inner, rest) ← takeExpression? fuel rest
      match skipBlanks rest with
      | ')' :: rest => return (inner, rest)
      | _ => none
    | '-' :: rest => (takeOperand? fuel rest).map fun (operand, rest) => (.negate operand, rest)
    | '+' :: rest => takeOperand? fuel rest
    | '!' :: rest => (takeOperand? fuel rest).map fun (operand, rest) => (.invert operand, rest)
    | '~' :: rest =>
      (takeOperand? fuel rest).map fun (operand, rest) => (.complement operand, rest)
    | text =>
      let name := text.takeWhile isNameChar
      let rest := text.dropWhile isNameChar
      if text.head?.any isNameStart then some (.named (String.ofList name), rest)
      else (unsigned? name).map fun value => (.number (wrap value), rest)

end

/-- Reads an expression. -/
def Expression.read? (text : Octets) : Option Expression :=
  match takeExpression? (4 * text.length + 8) text with
  | some (expression, rest) => if (skipBlanks rest).isEmpty then some expression else none
  | none => none

/-- The variables that an expression has assigned, the last first. -/
abbrev Assigned := List (String × Int)

/-- The value of an expression, where `look` gives the values of variables. -/
def Expression.eval? (look : String → Option Int) :
    Expression → Assigned → Option (Int × Assigned)
  | number value, assigned => some (value, assigned)
  | named name, assigned =>
    (assigned.lookup name <|> look name).map fun value => (wrap value, assigned)
  | assign name operator value, assigned => do
    let (value, assigned) ← value.eval? look assigned
    let value ← match operator with
      | none => some value
      | some operator => do operator.eval? (← assigned.lookup name <|> look name) value
    return (value, (name, value) :: assigned)
  | negate operand, assigned => do
    let (value, assigned) ← operand.eval? look assigned
    return (wrap (-value), assigned)
  | invert operand, assigned => do
    let (value, assigned) ← operand.eval? look assigned
    return (Operator.flag (value = 0), assigned)
  | complement operand, assigned => do
    let (value, assigned) ← operand.eval? look assigned
    return (-value - 1, assigned)
  | apply operator left right, assigned => do
    let (left, assigned) ← left.eval? look assigned
    let (right, assigned) ← right.eval? look assigned
    return (← operator.eval? left right, assigned)
  | both left right, assigned => do
    let (value, assigned) ← left.eval? look assigned
    if value = 0 then return (0, assigned)
    let (value, assigned) ← right.eval? look assigned
    return (Operator.flag (value ≠ 0), assigned)
  | either left right, assigned => do
    let (value, assigned) ← left.eval? look assigned
    if value ≠ 0 then return (1, assigned)
    let (value, assigned) ← right.eval? look assigned
    return (Operator.flag (value ≠ 0), assigned)
  | choose condition yes no, assigned => do
    let (value, assigned) ← condition.eval? look assigned
    if value ≠ 0 then yes.eval? look assigned else no.eval? look assigned

end StyleMigration.Command.Shell
