import StyleMigration.Command.Shell.Script

/-!
The words and signs of a script.
-/

set_option autoImplicit false

namespace StyleMigration.Command.Shell

open Text

inductive Lexeme where
  | word (word : Word)
  /-- A sign that joins commands or a parenthesis. -/
  | sign (sign : String)
  | lineEnd
  /-- A sign of redirection, whose target follows. -/
  | redirect (descriptor : Nat) (direction : Direction)
  | lines (descriptor : Nat) (content : Word)
  /-- A quote or a parenthesis that is never closed. -/
  | unclosed
  deriving DecidableEq, Repr

/-- The characters that end a word. -/
def endsWord (c : Char) : Bool :=
  c == ' ' || c == '\t' || c == '\n' || c == ';' || c == '&' || c == '|' || c == '<' || c == '>' ||
    c == '(' || c == ')'

/-- Lines up to one that is the mark, and what follows it. -/
def takeLines (mark : Octets) (dropsTabs : Bool) : (fuel : Nat) → Octets → Octets × Octets
  | 0, text => ([], text)
  | fuel + 1, text =>
    if text.isEmpty then
      ([], [])
    else
      let line := text.takeWhile (· != '\n')
      let rest := (text.dropWhile (· != '\n')).drop 1
      let line := if dropsTabs then line.dropWhile (· == '\t') else line
      if line = mark then
        ([], rest)
      else
        let (lines, after) := takeLines mark dropsTabs fuel rest
        let lineEnd := if text.contains '\n' then ['\n'] else []
        (line ++ lineEnd ++ lines, after)

/-- The text of a word without its quotes, and whether it had any. -/
def unquoted (word : Word) : Octets × Bool :=
  (word.flatMap fun
    | .text _ text => text
    | .parameter _ name _ _ => '$' :: name
    | _ => [],
   word.any fun
    | .text quoted _ => quoted
    | _ => false)

/-- Input that stands in the lines after the command, where `text` follows its sign. Gives the text
without those lines. -/
def takeHere? (descriptor : Nat) (text : Octets) : Option (Lexeme × Octets) := do
  let (dropsTabs, text) := match text with
    | '-' :: text => (true, text)
    | text => (false, text)
  let text := text.dropWhile fun c => c == ' ' || c == '\t'
  let (word, rest) ← barePieces? endsWord (text.length + 1) text
  let (mark, isQuoted) := unquoted word
  let line := rest.takeWhile (· != '\n')
  let below := (rest.dropWhile (· != '\n')).drop 1
  let (content, after) := takeLines mark dropsTabs (below.length + 1) below
  let content ← if isQuoted then some [.text true content] else readHere? content
  return (.lines descriptor content, line ++ '\n' :: after)

/-- A redirection, where the text starts with its sign. -/
def takeRedirection? (descriptor : Option Nat) : Octets → Option (Lexeme × Octets)
  | '<' :: '<' :: text => takeHere? (descriptor.getD 0) text
  | '<' :: '&' :: text => some (.redirect (descriptor.getD 0) .duplicate, text)
  | '<' :: '>' :: text => some (.redirect (descriptor.getD 0) .update, text)
  | '<' :: text => some (.redirect (descriptor.getD 0) .read, text)
  | '>' :: '>' :: text => some (.redirect (descriptor.getD 1) .append, text)
  | '>' :: '&' :: text => some (.redirect (descriptor.getD 1) .duplicate, text)
  | '>' :: '|' :: text => some (.redirect (descriptor.getD 1) .write, text)
  | '>' :: text => some (.redirect (descriptor.getD 1) .write, text)
  | _ => none

/-- A word, or the number of a descriptor with a redirection. -/
def takeWordOrNumber? (text : Octets) : Option (Lexeme × Octets) :=
  let digits := text.takeWhile Char.isDigit
  let rest := text.dropWhile Char.isDigit
  if !digits.isEmpty && rest.head?.any fun c => c == '<' || c == '>' then
    takeRedirection? (Octets.toNat? digits) rest
  else
    (barePieces? endsWord (text.length + 1) text).map fun (word, rest) => (.word word, rest)

/-- The first lexeme of a text that does not start with a blank or a comment. -/
def takeLexeme? : Octets → Option (Lexeme × Octets)
  | '\n' :: text => some (.lineEnd, text)
  | ';' :: ';' :: text => some (.sign ";;", text)
  | '&' :: '&' :: text => some (.sign "&&", text)
  | '|' :: '|' :: text => some (.sign "||", text)
  | c :: text =>
    if c = ';' ∨ c = '&' ∨ c = '|' ∨ c = '(' ∨ c = ')' then some (.sign (String.singleton c), text)
    else if c = '<' ∨ c = '>' then takeRedirection? none (c :: text)
    else takeWordOrNumber? (c :: text)
  | [] => none

/-- The lexemes of a text; every one takes some of it. -/
def lexemesOf : (fuel : Nat) → Octets → List Lexeme
  | 0, _ => [.unclosed]
  | _ + 1, [] => []
  | fuel + 1, '\\' :: '\n' :: text => lexemesOf fuel text
  | fuel + 1, c :: text =>
    if c = ' ' ∨ c = '\t' then
      lexemesOf fuel text
    else if c = '#' then
      lexemesOf fuel (text.dropWhile (· != '\n'))
    else
      match takeLexeme? (c :: text) with
      | some (lexeme, rest) => lexeme :: lexemesOf fuel rest
      | none => [.unclosed]

/-- The lexemes of a script. -/
def lexemes (text : Octets) : List Lexeme :=
  lexemesOf (text.length + 1) text

end StyleMigration.Command.Shell
