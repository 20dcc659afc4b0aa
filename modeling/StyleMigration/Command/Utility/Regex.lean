import StyleMigration.Command.Pattern

/-!
Regular expressions in their two dialects. In the basic one the signs for groups and counts have a
backslash before them, in the extended one they stand alone. Of all ways to match at the first
possible place, the longest is taken.
-/

set_option autoImplicit false

namespace StyleMigration.Command.Utility

open Text

inductive Regex where
  | char (test : Char → Bool)
  | lineStart
  | lineStop
  | wordEdge
  | group (index : Nat) (body : Regex)
  /-- The text that a group has matched. -/
  | again (index : Nat)
  | sequence (parts : List Regex)
  | choice (options : List Regex)
  | count (body : Regex) (least : Nat) (most : Option Nat)

namespace Regex

/-- How an expression is written and compared. -/
structure Dialect where
  extended : Bool
  ignoresCase : Bool

/-- A sign of an expression. -/
inductive Sign where
  | plain (test : Char → Bool)
  | lineStart
  | lineStop
  | wordEdge
  | groupOpen
  | groupClose
  | bar
  | star
  | plus
  | question
  | counts (least : Nat) (most : Option Nat)
  | again (index : Nat)

/-- The character itself, in any case if case is ignored. -/
def itself (dialect : Dialect) (c : Char) : Char → Bool :=
  if dialect.ignoresCase then fun d => d.toLower = c.toLower else fun d => d = c

/-- The expression that a text as it stands is. -/
def ofText (dialect : Dialect) (text : Octets) : Regex :=
  .sequence (text.map fun c => .char (itself dialect c))

/-- Bounds of a count, through the closing brace. -/
def takeBounds? (extended : Bool) (text : Octets) : Option (Sign × Octets) :=
  let least := text.takeWhile Char.isDigit
  let rest := text.dropWhile Char.isDigit
  let (most, rest) := match rest with
    | ',' :: rest =>
      let digits := rest.takeWhile Char.isDigit
      (if digits.isEmpty then none else some ((Octets.toNat? digits).getD 0),
        rest.dropWhile Char.isDigit)
    | rest => (some ((Octets.toNat? least).getD 0), rest)
  let sign := Sign.counts ((Octets.toNat? least).getD 0) most
  match extended, rest with
  | true, '}' :: rest => some (sign, rest)
  | false, '\\' :: '}' :: rest => some (sign, rest)
  | _, _ => none

/-- What a backslash and a character stand for in both dialects. -/
def escapedSign (dialect : Dialect) (c : Char) : Sign :=
  let isWord (c : Char) : Bool := c.isAlphanum || c == '_'
  let isSpace (c : Char) : Bool := c == ' ' || (0x09 ≤ c.toNat && c.toNat ≤ 0x0d)
  match c with
  | 'w' => .plain isWord
  | 'W' => .plain (!isWord ·)
  | 's' => .plain isSpace
  | 'S' => .plain (!isSpace ·)
  | 'b' => .wordEdge
  | 'n' => .plain (· == '\n')
  | 't' => .plain (· == '\t')
  | c => if c.isDigit then .again (c.toNat - '0'.toNat) else .plain (itself dialect c)

/-- The signs of an expression; nothing if it is none. `atStart` tells whether an expression or a
group starts here. -/
def signs? (dialect : Dialect) : (fuel : Nat) → (atStart : Bool) → Octets → Option (List Sign)
  | 0, _, _ => none
  | _ + 1, _, [] => some []
  | fuel + 1, atStart, c :: text =>
    let after (sign : Sign) (atStart : Bool) (rest : Octets) : Option (List Sign) :=
      (signs? dialect fuel atStart rest).map (sign :: ·)
    let extended := dialect.extended
    match c, text with
    | '\\', d :: rest =>
      if extended then
        after (escapedSign dialect d) false rest
      else
        match d with
        | '(' => after .groupOpen true rest
        | ')' => after .groupClose false rest
        | '|' => after .bar true rest
        | '+' => after .plus false rest
        | '?' => after .question false rest
        | '{' =>
          match takeBounds? false rest with
          | some (sign, rest) => after sign false rest
          | none => none
        | d => after (escapedSign dialect d) false rest
    | '\\', [] => none
    | '[', rest =>
      match takeSet? (Marks.ofText false rest) with
      | some (isIn, rest) =>
        let test := if dialect.ignoresCase then
            fun (c : Char) => isIn c.toLower || isIn c.toUpper
          else isIn
        after (.plain test) false (Marks.text rest)
      | none => none
    | '.', rest => after (.plain (· != '\n')) false rest
    | '^', rest =>
      if extended || atStart then after .lineStart true rest
      else after (.plain (· == '^')) false rest
    | '$', rest =>
      let isLast := match extended, rest with
        | true, _ | _, [] | _, '\\' :: ')' :: _ | _, '\\' :: '|' :: _ => true
        | _, _ => false
      if isLast then after .lineStop false rest else after (.plain (· == '$')) false rest
    | '*', rest =>
      if atStart then after (.plain (· == '*')) false rest else after .star false rest
    | c, rest =>
      if extended then
        match c with
        | '(' => after .groupOpen true rest
        | ')' => after .groupClose false rest
        | '|' => after .bar true rest
        | '+' => after .plus false rest
        | '?' => after .question false rest
        | '{' =>
          match takeBounds? true rest with
          | some (sign, rest) => after sign false rest
          | none => after (.plain (itself dialect c)) false rest
        | c => after (.plain (itself dialect c)) false rest
      else
        after (.plain (itself dialect c)) false rest

/-- The counts after an expression. -/
def takeCounts (body : Regex) : List Sign → Regex × List Sign
  | .star :: signs => takeCounts (count body 0 none) signs
  | .plus :: signs => takeCounts (count body 1 none) signs
  | .question :: signs => takeCounts (count body 0 (some 1)) signs
  | .counts least most :: signs => takeCounts (count body least most) signs
  | signs => (body, signs)

mutual

/-- Options up to the end or a closing parenthesis. `groups` counts the groups opened before. -/
def takeChoice? : (fuel groups : Nat) → List Sign → Option (Regex × Nat × List Sign)
  | 0, _, _ => none
  | fuel + 1, groups, signs => do
    let (first, groups, rest) ← takeSequence? fuel groups signs
    match rest with
    | .bar :: rest =>
      let (others, groups, rest) ← takeChoice? fuel groups rest
      return (choice [first, others], groups, rest)
    | rest => return (first, groups, rest)

/-- Parts in a row. -/
def takeSequence? : (fuel groups : Nat) → List Sign → Option (Regex × Nat × List Sign)
  | 0, _, _ => none
  | fuel + 1, groups, signs =>
    let more (part : Regex) (groups : Nat) (rest : List Sign) :
        Option (Regex × Nat × List Sign) := do
      let (part, rest) := takeCounts part rest
      let (others, groups, rest) ← takeSequence? fuel groups rest
      return (sequence [part, others], groups, rest)
    match signs with
    | [] | .bar :: _ | .groupClose :: _ => some (sequence [], groups, signs)
    | .plain test :: rest => more (char test) groups rest
    | .lineStart :: rest => more lineStart groups rest
    | .lineStop :: rest => more lineStop groups rest
    | .wordEdge :: rest => more wordEdge groups rest
    | .again index :: rest => more (again index) groups rest
    | .groupOpen :: rest =>
      match takeChoice? fuel (groups + 1) rest with
      | some (body, inner, .groupClose :: rest) => more (group (groups + 1) body) inner rest
      | _ => none
    | .star :: rest | .plus :: rest | .question :: rest | .counts _ _ :: rest =>
      takeSequence? fuel groups rest

end

/-- Reads an expression. -/
def read? (dialect : Dialect) (text : Octets) : Option Regex := do
  let signs ← signs? dialect (text.length + 1) true text
  match takeChoice? (2 * signs.length + 2) 0 signs with
  | some (regex, _, []) => some regex
  | _ => none

/-- A place in a text: what was read of it in reverse, what is left, and what the groups have
matched. -/
structure Cursor where
  before : Octets
  rest : Octets
  groups : List (Nat × Octets)

def isWordChar (c : Char) : Bool :=
  c.isAlphanum || c == '_'

/-- The places that an expression leads to, in the order of preference. -/
def ends : (fuel : Nat) → Regex → Cursor → List Cursor
  | 0, _, _ => []
  | fuel + 1, regex, cursor =>
    match regex with
    | char test =>
      match cursor.rest with
      | c :: rest => if test c then [{ cursor with before := c :: cursor.before, rest }] else []
      | [] => []
    | lineStart => if cursor.before.isEmpty then [cursor] else []
    | lineStop => if cursor.rest.isEmpty then [cursor] else []
    | wordEdge =>
      if cursor.before.head?.any isWordChar != cursor.rest.head?.any isWordChar then [cursor]
      else []
    | group index body =>
      (ends fuel body cursor).map fun after =>
        let length := after.before.length - cursor.before.length
        { after with groups := (index, (after.before.take length).reverse) :: after.groups }
    | again index =>
      match cursor.groups.lookup index with
      | some text =>
        if text.isPrefixOf cursor.rest then
          [{ cursor with
              before := text.reverse ++ cursor.before, rest := cursor.rest.drop text.length }]
        else []
      | none => []
    | sequence parts =>
      parts.foldl (fun cursors part => cursors.flatMap (ends fuel part)) [cursor]
    | choice options => options.flatMap fun option => ends fuel option cursor
    | count body least most =>
      let more := if most = some 0 then []
        else (ends fuel body cursor).flatMap fun after =>
          if after.rest.length = cursor.rest.length then
            if least = 0 then [] else ends fuel (count body (least - 1) (most.map (· - 1))) after
          else ends fuel (count body (least - 1) (most.map (· - 1))) after
      if least = 0 then more ++ [cursor] else more

/-- The longest match at a place. -/
def matchAt? (regex : Regex) (cursor : Cursor) : Option Cursor :=
  (ends (4 * cursor.rest.length + 64) regex cursor).foldl (fun best? other =>
    match best? with
    | some best => if other.rest.length < best.rest.length then some other else some best
    | none => some other) none

/-- The first match in a text from a place on: the place where it starts and the one where it
stops. -/
def find? (regex : Regex) : (fuel : Nat) → Cursor → Option (Cursor × Cursor)
  | 0, _ => none
  | fuel + 1, cursor =>
    match matchAt? regex cursor with
    | some stop => some (cursor, stop)
    | none =>
      match cursor.rest with
      | c :: rest => find? regex fuel { cursor with before := c :: cursor.before, rest }
      | [] => none

/-- The first match in a text. -/
def search? (regex : Regex) (text : Octets) : Option (Cursor × Cursor) :=
  find? regex (text.length + 1) ⟨[], text, []⟩

end Regex

end StyleMigration.Command.Utility
