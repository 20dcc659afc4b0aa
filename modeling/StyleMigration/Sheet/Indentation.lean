import StyleMigration.Sheet.Header

/-!
Stylesheets by indentation. A line heads a group if the next line that is not blank is indented
deeper. A header goes on to the next line after a comma. A comment with deeper lines below it takes
them in, with all blank lines among and after them. Other blank lines belong to the level of the
next line that is not blank.
-/

set_option autoImplicit false

namespace StyleMigration.Sheet

open Text

/-- The lines of a text, each with the line feed that ends it. -/
def splitLines : List Char → List (List Char)
  | [] => []
  | '\n' :: text => ['\n'] :: splitLines text
  | c :: text =>
    match splitLines text with
    | [] => [[c]]
    | line :: lines => (c :: line) :: lines

/-- A line of a text without the line feed and the carriage returns that end it. -/
def lineContent (line : List Char) : List Char :=
  (line.reverse.dropWhile fun c => c == '\n' || c == '\r').reverse

/-- How many spaces and tabs a line starts with. -/
def lineIndent (line : List Char) : Nat :=
  ((lineContent line).takeWhile fun c => c == ' ' || c == '\t').length

def isBlankLine (line : List Char) : Bool :=
  isAllBlank (lineContent line)

/-- The indent of the first line that is not blank. -/
def nextIndent? (lines : List (List Char)) : Option Nat :=
  (lines.find? fun line => !isBlankLine line).map lineIndent

/-- Whether a line asks for the next one to go on with it. -/
def isContinued (line : List Char) : Bool :=
  (trim (lineContent line)).getLast? = some ','

/-- A line with those that go on with it, and the lines after them. -/
def takeHeader (line : List Char) : List (List Char) → List (List Char) × List (List Char)
  | [] => ([line], [])
  | next :: lines =>
    if isContinued line then
      let (header, rest) := takeHeader next lines
      (line :: header, rest)
    else
      ([line], next :: lines)

inductive LineToken where
  /-- A text with the indent that decides on its level: its own, or for a blank line that of the
  next line that is not blank. -/
  | text (indent : Option Nat) (text : List Char)
  | header (indent : Nat) (header : Header)

/-- The header of a group, told apart by the trimmed text `first` of its first line. -/
def Header.ofLines (first header : List Char) : Header :=
  if first.head? = some '@' || first.head? = some '+' || first.head? = some '=' ||
      isNestedProperty first then
    .block header
  else
    let body := trimEnd header
    .rule (leadingBlanks body) (trimStart body) (trailingBlanks header)

/-- Whether the trimmed text of a line opens a comment. -/
def opensComment : List Char → Bool
  | '/' :: '/' :: _ | '/' :: '*' :: _ => true
  | _ => false

/-- The token a line starts, and the lines after it. -/
def takeLineToken (line : List Char) (lines : List (List Char)) : LineToken × List (List Char) :=
  if isBlankLine line then
    (.text (nextIndent? lines) line, lines)
  else
    let indent := lineIndent line
    let first := trim (lineContent line)
    let (header, rest) := takeHeader line lines
    if !(nextIndent? rest).any (indent < ·) then
      (.text (some indent) line, lines)
    else if opensComment first then
      let isBelow (line : List Char) := isBlankLine line || indent < lineIndent line
      (.text (some indent) (line ++ (lines.takeWhile isBelow).flatten), lines.dropWhile isBelow)
    else
      (.header indent (.ofLines first header.flatten), rest)

/-- The tokens of a list of lines. -/
def lineTokens : List (List Char) → List LineToken
  | [] => []
  | line :: lines =>
    let taken := takeLineToken line lines
    if _h : taken.2.length < (line :: lines).length then taken.1 :: lineTokens taken.2
    else [taken.1]
termination_by lines => lines.length
decreasing_by exact _h

/-- Whether what has the given indent lies outside the body of a group with indent `mark`. -/
def isOutside (indent : Option Nat) (mark : Nat) : Bool :=
  !indent.any (mark < ·)

/-- Adds a token to a tree under construction, on the level its indent asks for. -/
def Outline.addLineToken (outline : Outline Nat) : LineToken → Outline Nat
  | .text indent text => (outline.leaveWhile .indented (isOutside indent)).add (.text text)
  | .header indent header =>
    (outline.leaveWhile .indented (isOutside (some indent))).enter indent header

/-- Reads a stylesheet by indentation. -/
def readIndentation (text : List Char) : List Node :=
  ((lineTokens (splitLines text)).foldl Outline.addLineToken .empty).finish .indented

end StyleMigration.Sheet
