import StyleMigration.Sheet.Header
import StyleMigration.Text.Comment

/-!
Stylesheets in braces. The text is first cut into tokens: texts, headers with their opening brace,
and closing braces. Braces, semicolons and comment marks inside strings, interpolations,
parentheses and square brackets do not count. The tokens then make a tree; a closing brace without
an opening one is text, and an opening one without a closing one ends with the text.
-/

set_option autoImplicit false

namespace StyleMigration.Sheet

open Text

inductive BraceToken where
  | text (text : List Char)
  /-- A header with the blanks before it; its opening brace is left out. -/
  | opening (blanks header : List Char)
  | closing

/-- A comment at the front of a text. A line comment ends before the line feed. -/
def takeComment? (lineComments : Bool) : List Char → Option (List Char × List Char)
  | '/' :: '*' :: text =>
    let (body, rest) := takeBlockComment text
    some ('/' :: '*' :: body, rest)
  | '/' :: '/' :: text =>
    if lineComments then
      some ('/' :: '/' :: text.takeWhile (· != '\n'), text.dropWhile (· != '\n'))
    else
      none
  | _ => none

/-- Blanks and comments at the front of a text: all through the last comment, the blanks after it,
and the rest. -/
def takeTrivia (lineComments : Bool) (text : List Char) : List Char × List Char × List Char :=
  let blanks := text.takeWhile isAsciiBlank
  let rest := text.dropWhile isAsciiBlank
  match takeComment? lineComments rest with
  | none => ([], blanks, rest)
  | some (comment, after) =>
    if _h : after.length < text.length then
      let (comments, blanksAfter, rest) := takeTrivia lineComments after
      (blanks ++ comment ++ comments, blanksAfter, rest)
    else
      ([], blanks, rest)
termination_by text.length

/-- Where a scan of a statement stands. -/
inductive StatementState where
  | plain
  | escape
  | quoted (mark : Char)
  | quotedEscape (mark : Char)
  | blockComment
  | lineComment
  | interpolation (depth : Nat)
  deriving DecidableEq, Repr

/-- What ended a statement. -/
inductive Terminator where
  | semicolon
  | opening
  | stop
  deriving DecidableEq, Repr

/-- A statement as it was scanned: its text, what ended it, and the rest. A semicolon belongs to the
statement, an opening brace to neither, and a closing brace to the rest. -/
structure Scanned where
  text : List Char
  ended : Terminator
  rest : List Char

/-- A character in front of a statement. -/
def Scanned.cons (c : Char) (scanned : Scanned) : Scanned :=
  { scanned with text := c :: scanned.text }

/-- Scans a statement; `depth` counts open parentheses and square brackets together. -/
def scanStatement (lineComments : Bool) : Nat → StatementState → List Char → Scanned
  | _, _, [] => ⟨[], .stop, []⟩
  | depth, .plain, '/' :: '*' :: text =>
    ((scanStatement lineComments depth .blockComment text).cons '*').cons '/'
  | depth, .plain, c :: text =>
    if c = '\\' then
      (scanStatement lineComments depth .escape text).cons c
    else if c = '"' ∨ c = '\'' then
      (scanStatement lineComments depth (.quoted c) text).cons c
    else if c = '/' ∧ lineComments ∧ depth = 0 ∧ text.head? = some '/' then
      (scanStatement lineComments depth .lineComment text).cons c
    else if c = '#' ∧ text.head? = some '{' then
      (scanStatement lineComments depth (.interpolation 0) text).cons c
    else if c = '(' ∨ c = '[' then
      (scanStatement lineComments (depth + 1) .plain text).cons c
    else if c = ')' ∨ c = ']' then
      (scanStatement lineComments (depth - 1) .plain text).cons c
    else if c = ';' ∧ depth = 0 then
      ⟨[c], .semicolon, text⟩
    else if c = '{' ∧ depth = 0 then
      ⟨[], .opening, text⟩
    else if c = '}' ∧ depth = 0 then
      ⟨[], .stop, c :: text⟩
    else
      (scanStatement lineComments depth .plain text).cons c
  | depth, .escape, c :: text => (scanStatement lineComments depth .plain text).cons c
  | depth, .quoted mark, c :: text =>
    let state :=
      if c = mark then .plain else if c = '\\' then .quotedEscape mark else .quoted mark
    (scanStatement lineComments depth state text).cons c
  | depth, .quotedEscape mark, c :: text =>
    (scanStatement lineComments depth (.quoted mark) text).cons c
  | depth, .blockComment, '*' :: '/' :: text =>
    ((scanStatement lineComments depth .plain text).cons '/').cons '*'
  | depth, .blockComment, c :: text =>
    (scanStatement lineComments depth .blockComment text).cons c
  | depth, .lineComment, c :: text =>
    let state := if c = '\n' then .plain else .lineComment
    (scanStatement lineComments depth state text).cons c
  | depth, .interpolation braces, c :: text =>
    let state :=
      if c = '{' then .interpolation (braces + 1)
      else if c = '}' then if braces ≤ 1 then .plain else .interpolation (braces - 1)
      else .interpolation braces
    (scanStatement lineComments depth state text).cons c

/-- A statement at the front of a text. -/
def takeStatement (lineComments : Bool) (text : List Char) : Scanned :=
  scanStatement lineComments 0 .plain text

/-- A text token, left out if the text is empty. -/
def BraceToken.ofText (text : List Char) : List BraceToken :=
  if text.isEmpty then [] else [.text text]

/-- The tokens up to the end of the first statement or brace, and the rest. -/
def takeTokens (lineComments : Bool) (text : List Char) : List BraceToken × List Char :=
  let (comments, blanks, rest) := takeTrivia lineComments text
  let lead := BraceToken.ofText comments
  match rest with
  | [] => (lead ++ BraceToken.ofText blanks, [])
  | '}' :: rest => (lead ++ BraceToken.ofText blanks ++ [.closing], rest)
  | rest =>
    let scanned := takeStatement lineComments rest
    if scanned.ended = .opening then (lead ++ [.opening blanks scanned.text], scanned.rest)
    else (lead ++ [.text (blanks ++ scanned.text)], scanned.rest)

/-- The tokens of a stylesheet. -/
def braceTokens (lineComments : Bool) (text : List Char) : List BraceToken :=
  let taken := takeTokens lineComments text
  if _h : taken.2.length < text.length then taken.1 ++ braceTokens lineComments taken.2
  else taken.1
termination_by text.length

/-- The header of a group, told apart by its text without the blanks at its end. -/
def Header.ofBraces (blanks header : List Char) : Header :=
  let selector := trimEnd header
  if selector.head? = some '@' || isNestedProperty selector then
    .block (blanks ++ header)
  else
    .rule blanks selector (trailingBlanks header)

/-- Adds a token to a tree under construction. -/
def Outline.addBraceToken (outline : Outline Unit) : BraceToken → Outline Unit
  | .text text => outline.add (.text text)
  | .opening blanks header => outline.enter () (.ofBraces blanks header)
  | .closing =>
    if outline.around.isEmpty then outline.add (.text ['}']) else outline.leave .braces

/-- Reads a stylesheet in braces. -/
def readBraces (lineComments : Bool) (text : List Char) : List Node :=
  ((braceTokens lineComments text).foldl Outline.addBraceToken .empty).finish .openBrace

end StyleMigration.Sheet
