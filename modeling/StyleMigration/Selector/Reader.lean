import StyleMigration.Text.Blank
import StyleMigration.Text.Comment
import StyleMigration.Selector.Basic
import StyleMigration.Selector.Span

/-!
Reading a selector text. A branch is first cut into pieces, in which the argument of a pseudo-class
is still a text; the arguments that are selector lists are then read in turn. Every text can be
read: what fits nothing else is a part of its own.
-/

set_option autoImplicit false

namespace StyleMigration.Selector

open Text

/-- The pseudo-classes whose argument is a selector list. -/
def listPseudoNames : List String :=
  ["not", "is", "where", "has", "matches", "any", "-moz-any", "-webkit-any", "deep", "v-deep",
    "slotted", "v-slotted", "global", "v-global", "host", "host-context", "current", "past",
    "future"]

/-- Whether the name of a pseudo-class, in any case, calls for a selector list. -/
def takesList (name : List Char) : Bool :=
  listPseudoNames.contains (String.ofList (name.map Char.toLower))

/-- A part of a branch before the arguments of its pseudo-classes are read. -/
inductive Piece where
  | leaf (leaf : Leaf)
  /-- A pseudo-class with its parenthesised span. -/
  | call (colons name span : List Char)

/-- A combinator that is written with a sign, at the front of a text. -/
def takeSign? : List Char → Option (List Char × List Char)
  | '>' :: '>' :: '>' :: text => some (['>', '>', '>'], text)
  | '/' :: 'd' :: 'e' :: 'e' :: 'p' :: '/' :: text => some (['/', 'd', 'e', 'e', 'p', '/'], text)
  | '>' :: text => some (['>'], text)
  | '+' :: text => some (['+'], text)
  | '~' :: text => some (['~'], text)
  | _ => none

/-- A combinator at the front of a text: a sign with blanks around it, or blanks alone. -/
def takeCombinator? (text : List Char) : Option (Leaf × List Char) :=
  let blanks := text.takeWhile isAsciiBlank
  match takeSign? (text.dropWhile isAsciiBlank) with
  | some (sign, rest) =>
    some (.combinator sign (blanks ++ sign ++ rest.takeWhile isAsciiBlank),
      rest.dropWhile isAsciiBlank)
  | none =>
    if blanks.isEmpty then none
    else some (.combinator [' '] blanks, text.dropWhile isAsciiBlank)

/-- The argument in a parenthesised span. The last character closes the span if it is a closing
parenthesis; a span that ends otherwise is all argument. -/
def argumentOf (span : List Char) : List Char :=
  let inner := span.tail
  if inner.getLast? = some ')' then inner.dropLast else inner

/-- A pseudo-class or pseudo-element after its first colon. -/
def takePseudo (text : List Char) : Piece × List Char :=
  let (colons, text) := match text with
    | ':' :: text => ([':', ':'], text)
    | text => ([':'], text)
  let (name, text) := takeName text
  if text.head? = some '(' then
    let (span, rest) := Brackets.round.span text
    (.call colons name span, rest)
  else
    (.leaf (.pseudo (colons ++ name)), text)

/-- A simple selector or a comment that starts with the character `c`. -/
def takeSimple (c : Char) (text : List Char) : Piece × List Char :=
  if c = '/' ∧ text.head? = some '*' then
    let (body, rest) := takeBlockComment text.tail
    (.leaf (.comment ('/' :: '*' :: body)), rest)
  else if c = '.' then
    let (name, rest) := takeName text
    (.leaf (.className ('.' :: name)), rest)
  else if c = '#' then
    if text.head? = some '{' then
      let (span, rest) := Brackets.curly.span text
      (.leaf (.other ('#' :: span)), rest)
    else
      let (name, rest) := takeName text
      (.leaf (.id ('#' :: name)), rest)
  else if c = '[' then
    let (span, rest) := Brackets.square.span (c :: text)
    (.leaf (.attr span), rest)
  else if c = '&' then
    (.leaf .nesting, text)
  else if c = '*' then
    (.leaf (.universal ['*']), text)
  else if c = ':' then
    takePseudo text
  else if isNameChar c then
    let (name, rest) := takeName (c :: text)
    (.leaf (.tag name), rest)
  else
    (.leaf (.other [c]), text)

/-- The first piece of a text that starts with the character `c`. -/
def takePiece (c : Char) (text : List Char) : Piece × List Char :=
  match takeCombinator? (c :: text) with
  | some (leaf, rest) => (.leaf leaf, rest)
  | none => takeSimple c text

/-- The pieces of a branch. -/
def pieces : List Char → List Piece
  | [] => []
  | c :: text =>
    let taken := takePiece c text
    if _h : taken.2.length < (c :: text).length then taken.1 :: pieces taken.2 else [taken.1]
termination_by text => text.length
decreasing_by exact _h

/-- A piece as a part, its argument read by `read` where it is a selector list. -/
def Piece.toPart (read : List Char → List Branch) : Piece → Part
  | .leaf simple => .leaf simple
  | .call colons name span =>
    let argument := argumentOf span
    if takesList name && !isAllBlank argument then
      .list (colons ++ name) (read argument)
    else
      .leaf (.function (colons ++ name) argument)

/-- A branch with the blanks around it, its arguments read by `read`. -/
def Branch.ofSegment (read : List Char → List Branch) (segment : List Char) : Branch :=
  let core := trim segment
  .mk (leadingBlanks segment) ((pieces core).map (Piece.toPart read))
    (trailingBlanks (trimStart segment))

/-- Reads a selector list whose arguments are nested less than `depth` deep. -/
def readNested : Nat → List Char → List Branch
  | 0, _ => []
  | depth + 1, text =>
    if isAllBlank text then []
    else (splitCommas text).map (Branch.ofSegment (readNested depth))

/-- Reads a selector list. Arguments cannot be nested deeper than the text is long. -/
def read (text : List Char) : List Branch :=
  readNested (text.length + 1) text

end StyleMigration.Selector
