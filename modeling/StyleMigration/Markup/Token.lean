import StyleMigration.Markup.Character
import StyleMigration.Markup.Document

/-!
The tokens of markup without faults. The content of a style or script element is raw text, so such
an element is one token. A text that cannot be cut into tokens has a fault.
-/

set_option autoImplicit false

namespace StyleMigration.Markup

/-- What follows the first closing bracket that has at least two dashes before it, counting
`dashes` that were read. -/
def afterCommentEnd? : Nat → List Char → Option (List Char)
  | _, [] => none
  | dashes, c :: text =>
    if c = '>' ∧ 2 ≤ dashes then some text
    else afterCommentEnd? (if c = '-' then dashes + 1 else 0) text

/-- What follows a comment at the front of a text. -/
def afterComment? : List Char → Option (List Char)
  | '<' :: '!' :: '-' :: '-' :: text => afterCommentEnd? 0 text
  | _ => none

/-- What follows the comments at the front of a text, where space may stand before each of them. -/
def pastComments (text : List Char) : List Char :=
  match afterComment? (text.dropWhile isSpace) with
  | none => text
  | some rest => if _h : rest.length < text.length then pastComments rest else text
termination_by text.length
decreasing_by exact _h

/-- What follows the space and the comments at the front of a text. -/
def pastGap (text : List Char) : List Char :=
  (pastComments text).dropWhile isSpace

/-- The inside of a tag after its name. -/
structure TagBody where
  attributes : List Attribute
  selfClosed : Bool
  rest : List Char

def TagBody.add (body : TagBody) (added : Attribute) : TagBody :=
  { body with attributes := added :: body.attributes }

/-- The value of an attribute after its equals sign, and what follows it. Comments at the front of a
quoted value do not belong to it. -/
def takeValue? (text : List Char) : Option (List Char × List Char) :=
  match pastGap text with
  | [] => none
  | c :: rest =>
    if c = '"' ∨ c = '\'' then
      let quoted := pastComments rest
      match quoted.dropWhile (· != c) with
      | [] => none
      | _ :: after => some (quoted.takeWhile (· != c), after)
    else if isAttributeValueChar c then
      some ((c :: rest).takeWhile isAttributeValueChar, (c :: rest).dropWhile isAttributeValueChar)
    else
      none

/-- An attribute at the front of a text, and what follows it. -/
def takeAttribute? (text : List Char) : Option (Attribute × List Char) :=
  let name := text.takeWhile isAttributeNameChar
  let afterName := text.dropWhile isAttributeNameChar
  if name.isEmpty then none
  else
    match pastGap afterName with
    | '=' :: afterSign =>
      (takeValue? afterSign).map fun (value, rest) =>
        (⟨String.ofList name, some (String.ofList value)⟩, rest)
    | _ => some (⟨String.ofList name, none⟩, afterName)

/-- Reads the inside of a tag after its name. -/
def takeTagBody? (text : List Char) : Option TagBody :=
  match pastGap text with
  | '>' :: rest => some ⟨[], false, rest⟩
  | '/' :: '>' :: rest => some ⟨[], true, rest⟩
  | named =>
    match takeAttribute? named with
    | none => none
    | some (item, rest) =>
      if _h : rest.length < text.length then (takeTagBody? rest).map (·.add item) else none
termination_by text.length
decreasing_by exact _h

/-- The name in a tag. Other elements can end before a tag only if its name directly follows the
bracket. -/
structure TagName where
  tag : Tag
  isAttached : Bool
  deriving DecidableEq, Repr

/-- The name in a tag, where `text` follows the bracket, and what follows the name. -/
def takeName? (text : List Char) : Option (TagName × List Char) :=
  let named := pastGap text
  let name := named.takeWhile isTagChar
  if name.isEmpty then none
  else some (⟨.ofChars name, text.head?.any isTagChar⟩, named.dropWhile isTagChar)

/-- A start tag of an element that can have nodes inside it. -/
structure StartTag where
  name : TagName
  attributes : List Attribute
  selfClosed : Bool
  deriving DecidableEq, Repr

/-- A style or script element as written: its start tag, the attributes in that, and the content. -/
structure WrittenRaw where
  name : TagName
  attributes : List Attribute
  opening : List Char
  content : List Char
  deriving DecidableEq, Repr

inductive Token where
  | space
  | text
  | entity
  | comment
  | doctype (content : List Char)
  | startTag (startTag : StartTag)
  | endTag (name : TagName)
  | raw (element : WrittenRaw)
  deriving DecidableEq, Repr

/-- The part of a text before a rest of it. -/
def before (text rest : List Char) : List Char :=
  text.take (text.length - rest.length)

/-- Raw text up to the first place where `mark` stands in lower or upper case, and the text from
there on. `expected` is what is left of the mark after `pending` was matched. A character that does
not match is dropped with what was pending, so it cannot start the mark itself. -/
def scanRaw (mark : List Char) :
    (expected pending : List Char) → List Char → Option (List Char × List Char)
  | _, _, [] => none
  | expected, pending, c :: text =>
    match expected with
    | wanted :: expected =>
      if c.toLower = wanted then
        if expected.isEmpty then some ([], pending ++ c :: text)
        else scanRaw mark expected (pending ++ [c]) text
      else
        (scanRaw mark mark [] text).map fun (content, rest) => (pending ++ c :: content, rest)
    | [] => none

/-- Raw text up to the end tag of an element, and the text from the end tag on. -/
def takeRaw (tag : Tag) (text : List Char) : Option (List Char × List Char) :=
  let mark := '<' :: '/' :: tag.name.toList
  scanRaw mark mark [] text

/-- The name in an end tag, where `text` follows the bracket and the slash, and what follows the
tag. -/
def takeEndTag? (text : List Char) : Option (TagName × List Char) := do
  let (name, rest) ← takeName? text
  match pastGap rest with
  | '>' :: rest => some (name, rest)
  | _ => none

/-- What follows the start tag `opening` of a raw element up to its end tag. -/
def takeRawElement? (name : TagName) (opening : List Char) (body : TagBody) :
    Option (Token × List Char) := do
  let (content, rest) ← takeRaw name.tag body.rest
  let (ending, rest) ← takeEndTag? (rest.drop 2)
  if ending.tag = name.tag then return (.raw ⟨name, body.attributes, opening, content⟩, rest)
  else none

/-- What starts with an opening bracket and a name, where `text` follows the bracket. -/
def takeStartTag? (text : List Char) : Option (Token × List Char) := do
  let (name, rest) ← takeName? text
  let body ← takeTagBody? rest
  if name.tag = .style ∨ name.tag = .script then
    if body.selfClosed then none
    else takeRawElement? name ('<' :: before text body.rest) body
  else
    some (.startTag ⟨name, body.attributes, body.selfClosed⟩, body.rest)

/-- What starts with `<!` and is no comment, where `text` follows it. -/
def takeDeclaration? (text : List Char) : Option (Token × List Char) :=
  let named := pastGap text
  let content := pastComments (named.drop 7)
  if String.ofList ((named.take 7).map Char.toLower) ≠ "doctype" then none
  else
    match content.takeWhile (· != '>'), content.dropWhile (· != '>') with
    | c :: written, _ :: rest => some (.doctype (c :: written), rest)
    | _, _ => none

/-- What follows an entity's name, its semicolon if there is one left out as well. -/
def afterSemicolon : List Char → List Char
  | ';' :: text => text
  | text => text

/-- What follows the longest run of at most `limit` characters of a class, if there is one. -/
def afterRun? (limit : Nat) (isIn : Char → Bool) (text : List Char) : Option (List Char) :=
  let run := (text.take limit).takeWhile isIn
  if run.isEmpty then none else some (text.drop run.length)

/-- What follows an entity after its ampersand: a number, in hexadecimal after an x, or a name. -/
def afterEntity? (text : List Char) : Option (List Char) :=
  (match text with
    | '#' :: 'x' :: digits | '#' :: 'X' :: digits => afterRun? 6 isHexDigit digits
    | '#' :: digits => afterRun? 5 Char.isDigit digits
    | text => afterRun? 30 Char.isAlpha text).map afterSemicolon

/-- The first token of a text that starts with the character `c`, and the rest. -/
def takeToken? (c : Char) (text : List Char) : Option (Token × List Char) :=
  if isSpace c then
    some (.space, text.dropWhile isSpace)
  else if c = '<' then
    match afterComment? (c :: text), text with
    | some rest, _ => some (.comment, rest)
    | none, '!' :: text => takeDeclaration? text
    | none, '/' :: text => (takeEndTag? text).map fun (name, rest) => (.endTag name, rest)
    | none, text => takeStartTag? text
  else if c = '&' then
    (afterEntity? text).map fun rest => (.entity, rest)
  else if isTextChar c then
    some (.text, text.dropWhile isTextChar)
  else
    none

/-- The tokens of a text, each with the part of the text it was read from. -/
def tokens? : List Char → Option (List (Token × List Char))
  | [] => some []
  | c :: text =>
    match takeToken? c text with
    | none => none
    | some (token, rest) =>
      if _h : rest.length < (c :: text).length then
        (tokens? rest).map ((token, before (c :: text) rest) :: ·)
      else none
termination_by text => text.length
decreasing_by exact _h

end StyleMigration.Markup
