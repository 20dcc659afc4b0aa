import StyleMigration.Command.Shell.Arithmetic

/-!
Words of scripts. A word is a row of pieces: text, values of parameters, output of commands and
values of expressions, each quoted or not. What stands inside a piece is kept as text and read when
the piece is expanded.
-/

set_option autoImplicit false

namespace StyleMigration.Command.Shell

open Text

/-- What is done with the value of a parameter, where a word may follow. `orEmpty` says that an
empty value counts as none. -/
inductive Change where
  | asIs
  | length
  | default (orEmpty : Bool)
  | assign (orEmpty : Bool)
  | demand (orEmpty : Bool)
  | replace (orEmpty : Bool)
  | dropFront (longest : Bool)
  | dropBack (longest : Bool)
  deriving DecidableEq, Repr

inductive Piece where
  | text (quoted : Bool) (text : Octets)
  | parameter (quoted : Bool) (name : Octets) (change : Change) (word : Octets)
  | command (quoted : Bool) (script : Octets)
  | expression (quoted : Bool) (text : Octets)
  /-- A parameter with a change that does not exist. -/
  | unknown
  deriving DecidableEq, Repr

abbrev Word := List Piece

/-- What closes an open part of a text. -/
inductive Closer where
  | parenthesis
  | brace (quoted : Bool)
  | double
  | single
  | backquote
  deriving DecidableEq, Repr

namespace Closer

def sign : Closer → Char
  | parenthesis => ')'
  | brace _ => '}'
  | double => '"'
  | single => '\''
  | backquote => '\x60'

/-- The part that a character opens inside another one, where `after` is the character after it. -/
def opened? (closer : Closer) (c : Char) (after : Option Char) : Option Closer :=
  if closer = single ∨ closer = backquote then none
  else if c = '\x60' then some backquote
  else if c = '"' then some double
  else if c = '\'' then
    if closer = double ∨ closer = brace true then none else some single
  else if c = '$' ∧ after = some '{' then some (brace (closer = double ∨ closer = brace true))
  else if c = '$' ∧ after = some '(' then some parenthesis
  else if c = '(' ∧ closer = parenthesis then some parenthesis
  else none

end Closer

/-- The text up to what closes the outermost of the parts that are open, from the innermost on, and
the text after that. -/
def takeClosed? : List Closer → Octets → Option (Octets × Octets)
  | [], text => some ([], text)
  | _ :: _, [] => none
  | closer :: outer, c :: text =>
    let keep (taken : Octets) (rest : Option (Octets × Octets)) : Option (Octets × Octets) :=
      rest.map fun (inner, rest) => (taken ++ inner, rest)
    if c = '\\' ∧ closer ≠ .single then
      match text with
      | [] => none
      | d :: text => keep [c, d] (takeClosed? (closer :: outer) text)
    else if c = closer.sign then
      if outer.isEmpty then some ([], text) else keep [c] (takeClosed? outer text)
    else
      match closer.opened? c text.head? with
      | none => keep [c] (takeClosed? (closer :: outer) text)
      | some opened =>
        if c = '$' then
          match text with
          | [] => none
          | d :: text => keep [c, d] (takeClosed? (opened :: closer :: outer) text)
        else
          keep [c] (takeClosed? (opened :: closer :: outer) text)

/-- The characters that are parameters of their own. -/
def isSpecialParameter (c : Char) : Bool :=
  c == '@' || c == '*' || c == '#' || c == '?' || c == '-' || c == '$' || c == '!' || c.isDigit

/-- The change that a text after a parameter's name asks for, and the word of it. -/
def changeOf? : Octets → Option (Change × Octets)
  | [] => some (.asIs, [])
  | ':' :: '-' :: word => some (.default true, word)
  | ':' :: '=' :: word => some (.assign true, word)
  | ':' :: '?' :: word => some (.demand true, word)
  | ':' :: '+' :: word => some (.replace true, word)
  | '-' :: word => some (.default false, word)
  | '=' :: word => some (.assign false, word)
  | '?' :: word => some (.demand false, word)
  | '+' :: word => some (.replace false, word)
  | '#' :: '#' :: word => some (.dropFront true, word)
  | '#' :: word => some (.dropFront false, word)
  | '%' :: '%' :: word => some (.dropBack true, word)
  | '%' :: word => some (.dropBack false, word)
  | _ => none

/-- The name of a parameter at the front of a text. -/
def takeParameter? : Octets → Option (Octets × Octets)
  | [] => none
  | c :: text =>
    if isNameStart c then
      some ((c :: text).takeWhile isNameChar, (c :: text).dropWhile isNameChar)
    else if c.isDigit then
      some ((c :: text).takeWhile Char.isDigit, (c :: text).dropWhile Char.isDigit)
    else if isSpecialParameter c then some ([c], text)
    else none

/-- The piece that stands in braces after a dollar sign. -/
def bracedPiece (quoted : Bool) (text : Octets) : Piece :=
  let changed? := do
    let (name, rest) ← takeParameter? text
    let (change, word) ← changeOf? rest
    return Piece.parameter quoted name change word
  let length? := match text with
    | '#' :: rest =>
      match takeParameter? rest with
      | some (name, []) => some (Piece.parameter quoted name .length [])
      | _ => none
    | _ => none
  (length? <|> changed?).getD .unknown

/-- What follows a dollar sign, as a piece with the rest of the text. -/
def takeDollar? (quoted : Bool) : Octets → Option (Piece × Octets)
  | '(' :: text => do
    let (inner, rest) ← takeClosed? [.parenthesis] text
    if inner.head? = some '(' ∧ inner.getLast? = some ')' then
      return (.expression quoted inner.tail.dropLast, rest)
    else
      return (.command quoted inner, rest)
  | '{' :: text => do
    let (inner, rest) ← takeClosed? [.brace quoted] text
    return (bracedPiece quoted inner, rest)
  | c :: text =>
    if isNameStart c then
      some (.parameter quoted ((c :: text).takeWhile isNameChar) .asIs [],
        (c :: text).dropWhile isNameChar)
    else if isSpecialParameter c then some (.parameter quoted [c] .asIs [], text)
    else some (.text quoted ['$'], c :: text)
  | [] => some (.text quoted ['$'], [])

/-- A text in backquotes without the backslashes that protect some characters in it. -/
def unprotect (isProtected : Char → Bool) : Octets → Octets
  | '\\' :: c :: text =>
    if isProtected c then c :: unprotect isProtected text
    else '\\' :: c :: unprotect isProtected text
  | c :: text => c :: unprotect isProtected text
  | [] => []

/-- The output of a command in backquotes. -/
def takeBackquoted? (quoted : Bool) (text : Octets) : Option (Piece × Octets) := do
  let (inner, rest) ← takeClosed? [.backquote] text
  let isProtected (c : Char) : Bool :=
    c == '\x60' || c == '\\' || c == '$' || (quoted && c == '"')
  return (.command quoted (unprotect isProtected inner), rest)

/-- Adds a piece to a word, joined with text of its kind. -/
def addPiece (piece : Piece) (word : Word) : Word :=
  match piece, word with
  | .text quoted text, .text quoted' text' :: rest =>
    if quoted = quoted' then .text quoted (text ++ text') :: rest else piece :: word
  | _, _ => piece :: word

/-- The pieces of a text that is read as in double quotes. A backslash protects only the characters
that mean something there, and some characters only mark a place and are left out. -/
def quotedPieces? (isProtected isMark : Char → Bool) : (fuel : Nat) → Octets → Option Word
  | 0, _ => none
  | _ + 1, [] => some []
  | fuel + 1, c :: text =>
    if c = '\\' then
      match text with
      | '\n' :: rest => quotedPieces? isProtected isMark fuel rest
      | d :: rest =>
        let kept := if isProtected d then [d] else ['\\', d]
        (quotedPieces? isProtected isMark fuel rest).map (addPiece (.text true kept))
      | [] => some [.text true ['\\']]
    else if isMark c then
      quotedPieces? isProtected isMark fuel text
    else
      let taken? := if c = '$' then takeDollar? true text
        else if c = '\x60' then takeBackquoted? true text
        else some (.text true [c], text)
      match taken? with
      | some (piece, rest) => (quotedPieces? isProtected isMark fuel rest).map (addPiece piece)
      | none => none

def isProtectedInQuotes (c : Char) : Bool :=
  c == '"' || c == '$' || c == '\x60' || c == '\\'

/-- The word inside double quotes. -/
def readQuoted? (text : Octets) : Option Word :=
  quotedPieces? isProtectedInQuotes (fun _ => false) (text.length + 1) text

/-- The word of a parameter that itself stands in double quotes, where further quotes change
nothing. -/
def readRequoted? (text : Octets) : Option Word :=
  quotedPieces? isProtectedInQuotes (· == '"') (text.length + 1) text

/-- The lines that follow a command as its input, read as a word. -/
def readHere? (text : Octets) : Option Word :=
  quotedPieces? (fun c => c == '$' || c == '\x60' || c == '\\') (fun _ => false) (text.length + 1)
    text

/-- The pieces of a text up to a character that ends a word, and the text from there on. -/
def barePieces? (ends : Char → Bool) : (fuel : Nat) → Octets → Option (Word × Octets)
  | 0, _ => none
  | _ + 1, [] => some ([], [])
  | fuel + 1, c :: text =>
    let after (pieces : Word) (rest : Octets) : Option (Word × Octets) :=
      (barePieces? ends fuel rest).map fun (word, rest) => (pieces.foldr addPiece word, rest)
    if ends c then
      some ([], c :: text)
    else if c = '\'' then
      match text.dropWhile (· != '\'') with
      | _ :: rest => after [.text true (text.takeWhile (· != '\''))] rest
      | [] => none
    else if c = '"' then
      match takeClosed? [.double] text with
      | some (inner, rest) =>
        match readQuoted? inner with
        | some pieces => after (if pieces.isEmpty then [.text true []] else pieces) rest
        | none => none
      | none => none
    else if c = '\\' then
      match text with
      | '\n' :: rest => barePieces? ends fuel rest
      | d :: rest => after [.text true [d]] rest
      | [] => after [.text true ['\\']] []
    else
      let taken? := if c = '$' then takeDollar? false text
        else if c = '\x60' then takeBackquoted? false text
        else some (.text false [c], text)
      match taken? with
      | some (piece, rest) => after [piece] rest
      | none => none

/-- The word that a whole text is, blanks included. -/
def readBare? (text : Octets) : Option Word :=
  (barePieces? (fun _ => false) (text.length + 1) text).map (·.1)

/-- The text of a word that is nothing but text without quotes. -/
def Word.literal? : Word → Option String
  | [] => some ""
  | .text false text :: word => (Word.literal? word).map (String.ofList text ++ ·)
  | _ => none

end StyleMigration.Command.Shell
