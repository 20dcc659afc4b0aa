import StyleMigration.Markup.Character
import StyleMigration.Markup.Repair.Grammar
import StyleMigration.Markup.Repair.Place

/-!
The next token of a text. Which tokens are looked for depends on the state. Names of tags, the ends
that other tags imply and raw text depend on the open elements as well, and those are looked for
first. Where nothing that the state asks for is found, any token will do, and characters that start
none make one unknown token.
-/

set_option autoImplicit false

namespace StyleMigration.Markup.Repair

/-- A token that was found: where it starts and stops, and the elements that are open after it, from
the innermost on, if the token was found by looking at them. -/
structure Found where
  token : Token
  start : Place
  stop : Place
  opened? : Option (List Tag)

/-- A token with the record of the elements that are open after it. -/
def Found.recorded (found : Found) : Found :=
  { found with opened? := found.opened?.map Tag.record }

/-- The number of characters up to the end of a comment, counting `dashes` that were read. -/
def commentLength? : Nat → List Char → Option Nat
  | _, [] => none
  | dashes, c :: text =>
    if c = '\x00' then none
    else if c = '>' ∧ 2 ≤ dashes then some 1
    else (commentLength? (if c = '-' then dashes + 1 else 0) text).map (· + 1)

/-- The number of characters before the first place where `mark` stands in lower or upper case.
`expected` is what is left of the mark after `pending` characters matched. A character that does not
match cannot start the mark itself. A mark that the end of the text cuts off is not counted. -/
def rawLength (mark : List Char) : (expected : List Char) → (pending : Nat) → List Char → Nat
  | _, _, [] => 0
  | expected, pending, c :: text =>
    match expected with
    | [] => 0
    | wanted :: expected =>
      if c = '\x00' then 0
      else if c.toLower = wanted then
        if expected.isEmpty then 0 else rawLength mark expected (pending + 1) text
      else pending + 1 + rawLength mark mark 0 text

/-- The end that a tag implies for the innermost open element, where `place` follows an opening
bracket or is the end of the text. Gives the elements that are then open. -/
def impliedEnd? (opened : List Tag) (place : Place) : Option (List Tag) :=
  match opened with
  | [] => none
  | innermost :: around =>
    let isEnding := place.peek == '/'
    let named := if isEnding then place.next else place
    let name := named.rest.takeWhile isTagChar
    let tag := Tag.ofChars name
    let isCut := name.length = named.rest.length
    if !isEnding && innermost.isVoid then
      some around
    else if name.isEmpty && !isCut then
      none
    else if isEnding then
      if innermost ≠ tag ∧ opened.any tag.isLike then some around else none
    else if !innermost.canContain tag
        || (["html", "head", "body"].contains innermost.name && isCut) then
      some around
    else
      none

/-- The token that a tag's name is. -/
def startNameOf (tag : Tag) : Token :=
  if tag = .style then .startName .style
  else if tag = .script then .startName .script
  else .startName .nodes

/-- The raw text up to the end tag of the innermost open element. -/
def scanRawText (opened : List Tag) (place : Place) : Option Found :=
  opened.head?.map fun tag =>
    let mark := '<' :: '/' :: (if tag = .script then "script" else "style").toList
    ⟨.rawText, place, place.drop (rawLength mark mark 0 place.rest), some opened⟩

/-- What starts with an opening bracket at `place`. -/
def scanBracket (asks : Token → Bool) (opened : List Tag) (place : Place) : Option Found :=
  match place.rest with
  | '<' :: '!' :: '-' :: '-' :: text =>
    (commentLength? 0 text).map fun length =>
      ⟨.comment, place, place.drop (4 + length), some opened⟩
  | '<' :: '!' :: _ => none
  | _ =>
    if asks .impliedEnd then
      (impliedEnd? opened place.next).map fun around => ⟨.impliedEnd, place, place, some around⟩
    else none

/-- The name of a start tag or an end tag at `place`. -/
def scanName (asks : Token → Bool) (opened : List Tag) (place : Place) : Option Found :=
  let name := place.rest.takeWhile isTagChar
  let tag := Tag.ofChars name
  let found (token : Token) (opened : List Tag) : Option Found :=
    some ⟨token, place, place.drop name.length, some opened⟩
  if name.isEmpty || asks .rawText then
    none
  else if asks (.startName .nodes) then
    found (startNameOf tag) (tag :: opened)
  else if asks .endName then
    if opened.head? = some tag then found .endName opened.tail else found .strayName opened
  else
    none

/-- Looks for a token that depends on the open elements, among those asked for. -/
def scanInside (asks : Token → Bool) (opened : List Tag) (place : Place) : Option Found :=
  let place := place.pastMark
  if asks .rawText && !asks (.startName .nodes) && !asks .endName then
    scanRawText opened place
  else
    let place := place.dropWhile isSpace
    match place.peek with
    | '<' => scanBracket asks opened place
    | '\x00' =>
      if asks .impliedEnd then
        (impliedEnd? opened place).map fun around => ⟨.impliedEnd, place, place, some around⟩
      else none
    | '/' =>
      if asks .selfClose && place.next.peek == '>' then
        some ⟨if opened.isEmpty then .startName .nodes else .selfClose, place, place.drop 2,
          some opened.tail⟩
      else none
    | _ => scanName asks opened place

/-- Where no token was found: the place it should start at and the place up to which characters
fitted some token. -/
structure Unfound where
  start : Place
  reached : Place

abbrev Scanned := Except Unfound Found

namespace Scanned

def found (token : Token) (start stop : Place) : Scanned :=
  .ok ⟨token, start, stop, none⟩

def failed (start reached : Place) : Scanned :=
  .error ⟨start, reached⟩

/-- A token of one or more characters. -/
def ofLength (token : Token) (start : Place) (length : Nat) : Scanned :=
  if length = 0 then failed start start else found token start (start.drop length)

/-- A token of all the characters of a class. -/
def ofRun (token : Token) (start : Place) (isIn : Char → Bool) : Scanned :=
  ofLength token start (start.rest.takeWhile isIn).length

end Scanned

/-- An entity at an ampersand: a number, in hexadecimal after an x, or a name. -/
def scanEntity (start : Place) : Scanned :=
  let run (skipped limit : Nat) (isIn : Char → Bool) : Scanned :=
    let first := start.drop skipped
    let length := ((first.rest.take limit).takeWhile isIn).length
    let stop := first.drop length
    if length = 0 then .failed start first
    else .found .entity start (if stop.peek = ';' then stop.next else stop)
  match start.next.rest with
  | '#' :: c :: _ => if c = 'x' ∨ c = 'X' then run 3 6 isHexDigit else run 2 5 Char.isDigit
  | '#' :: [] => .failed start (start.drop 2)
  | _ => run 1 30 Char.isAlpha

/-- The word that names the type of a document, in any case. -/
def scanDoctypeWord (start : Place) : Scanned :=
  let length := ((start.rest.zip "doctype".toList).takeWhile fun (c, wanted) =>
    c.toLower = wanted).length
  if length = 7 then .found .doctypeWord start (start.drop 7)
  else .failed start (start.drop length)

/-- What starts with an opening bracket. -/
def scanOpening (start : Place) : Scanned :=
  match start.rest with
  | '<' :: '!' :: _ => .found .declarationOpen start (start.drop 2)
  | '<' :: '/' :: _ => .found .endOpen start (start.drop 2)
  | _ => .found .tagOpen start start.next

/-- The sign that closes a tag without content. -/
def scanSelfClose (start : Place) : Scanned :=
  if start.next.peek = '>' then .found .selfClose start (start.drop 2)
  else .failed start start.next

/-- Text without the spaces at its end. -/
def scanText (start : Place) : Scanned :=
  let run := start.rest.takeWhile isTextChar
  .ofLength .text start (run.reverse.dropWhile isSpace).length

/-- Looks for a token of a scope. -/
def scanPlain (scope : Scope) (place : Place) : Scanned :=
  let place := place.pastMark
  let start := place.dropWhile isSpace
  match scope with
  | .quoted quote =>
    let mark := if quote = .single then '\'' else '"'
    if place.peek = mark then .found (.quote quote) place place.next
    else .ofRun (.quoted quote) place fun c => c != mark && c != '\x00'
  | .declaration => .ofRun .declarationText place fun c => c != '>' && c != '\x00'
  | .value =>
    match start.peek with
    | '"' => .found (.quote .double) start start.next
    | '\'' => .found (.quote .single) start start.next
    | _ => .ofRun .attributeValue start isAttributeValueChar
  | .inTag =>
    match start.peek with
    | '>' => .found .close start start.next
    | '=' => .found .equals start start.next
    | '/' => scanSelfClose start
    | _ => .ofRun .attributeName start isAttributeNameChar
  | .content =>
    match start.peek with
    | '<' => scanOpening start
    | '&' => scanEntity start
    | _ => if start.isEnd then .found .finish start start else scanText start
  | .anything =>
    match start.peek with
    | '<' => scanOpening start
    | '&' => scanEntity start
    | '>' => .found .close start start.next
    | '=' => .found .equals start start.next
    | '/' => scanSelfClose start
    | '"' => .found (.quote .double) start start.next
    | '\'' => .found (.quote .single) start start.next
    | _ => if start.isEnd then .found .finish start start else scanDoctypeWord start

/-- The tokens that depend on the open elements and fit a state. -/
def State.asks (state : State) (token : Token) : Bool :=
  !(state.actions token).isEmpty

/-- Looks for a token that fits a state. Raw text can only be empty if `mayBeEmpty` says so. -/
def scanFor (state : State) (opened : List Tag) (mayBeEmpty : Bool) (place : Place) : Scanned :=
  let isNews (found : Found) : Bool :=
    place.offset < found.stop.offset || found.opened? != some opened || mayBeEmpty
  match (scanInside state.asks opened place).map Found.recorded |>.filter isNews with
  | some found => .ok found
  | none => scanPlain state.scope place

/-- Passes over characters that start no token, of which those up to `place` were read. -/
def skipUnknown (opened : List Tag) (start place : Place) : Found :=
  match scanFor .broken opened false place with
  | .ok _ => ⟨.unknown, start, place, none⟩
  | .error unfound =>
    let next :=
      if unfound.reached.offset = place.offset then unfound.reached.next else unfound.reached
    if _h : next.rest.length < place.rest.length then skipUnknown opened start next
    else ⟨.unknown, start, place, none⟩
termination_by place.rest.length
decreasing_by exact _h

/-- The next token in a state. -/
def scan (state : State) (opened : List Tag) (mayBeEmpty : Bool) (place : Place) : Found :=
  match scanFor state opened (mayBeEmpty && state ≠ .broken) place with
  | .ok found => found
  | .error _ =>
    match scanFor .broken opened false place with
    | .ok found => found
    | .error unfound =>
      let place :=
        if unfound.reached.offset = unfound.start.offset then unfound.reached.next
        else unfound.reached
      skipUnknown opened unfound.start place

end StyleMigration.Markup.Repair
