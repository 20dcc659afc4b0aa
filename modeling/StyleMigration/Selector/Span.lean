/-!
Spans of a selector text: bracketed spans, names, and the segments between commas. All of them
treat a backslash and the character after it, and a quoted string, as plain text. Each scan reads
one character at a time, so its state says all about what was read before.
-/

set_option autoImplicit false

namespace StyleMigration.Selector

/-- Where a scan stands with respect to backslashes and quotes. -/
inductive Quoting where
  | bare
  | escape
  | inside (mark : Char)
  | insideEscape (mark : Char)
  deriving DecidableEq, Repr

/-- The quoting after one more character. -/
def Quoting.step : Quoting → Char → Quoting
  | bare, c => if c = '\\' then escape else if c = '"' ∨ c = '\'' then inside c else bare
  | escape, _ => bare
  | inside mark, c => if c = '\\' then insideEscape mark else if c = mark then bare else inside mark
  | insideEscape mark, _ => inside mark

/-- A pair of brackets. -/
structure Brackets where
  opening : Char
  closing : Char
  deriving DecidableEq, Repr

namespace Brackets

def round : Brackets := ⟨'(', ')'⟩

def square : Brackets := ⟨'[', ']'⟩

def curly : Brackets := ⟨'{', '}'⟩

/-- How many brackets are open after one more character. -/
def depthAfter (brackets : Brackets) (depth : Nat) (quoting : Quoting) (c : Char) : Nat :=
  if quoting = .bare then
    if c = brackets.opening then depth + 1 else if c = brackets.closing then depth - 1 else depth
  else
    depth

/-- Whether a character closes the outermost bracket that is open. -/
def closesAt (brackets : Brackets) (depth : Nat) (quoting : Quoting) (c : Char) : Bool :=
  quoting = .bare && c = brackets.closing && depth ≤ 1

/-- The text through the bracket that closes the first one, or all of it, and the rest. -/
def scan (brackets : Brackets) : Nat → Quoting → List Char → List Char × List Char
  | _, _, [] => ([], [])
  | depth, quoting, c :: text =>
    if brackets.closesAt depth quoting c then
      ([c], text)
    else
      let (span, rest) := brackets.scan (brackets.depthAfter depth quoting c) (quoting.step c) text
      (c :: span, rest)

/-- The bracketed span at the front of a text that starts with an opening bracket. -/
def span (brackets : Brackets) (text : List Char) : List Char × List Char :=
  brackets.scan 0 .bare text

end Brackets

/-- The characters a name is made of, apart from interpolations. -/
def isNameChar (c : Char) : Bool :=
  c.isAlphanum || c == '-' || c == '_' || c == '%' || c == '\\' || 0x80 ≤ c.toNat

/-- Where a scan of a name stands. -/
inductive NameState where
  | plain
  | escape
  | interpolation (depth : Nat) (quoting : Quoting)
  deriving DecidableEq, Repr

/-- A name at the front of a text and the rest. A backslash takes the next character with it, and
an interpolation is part of the name whatever it holds. -/
def scanName : NameState → List Char → List Char × List Char
  | _, [] => ([], [])
  | .plain, c :: text =>
    if c = '\\' then
      let (name, rest) := scanName .escape text
      (c :: name, rest)
    else if c = '#' ∧ text.head? = some '{' then
      let (name, rest) := scanName (.interpolation 0 .bare) text
      (c :: name, rest)
    else if isNameChar c then
      let (name, rest) := scanName .plain text
      (c :: name, rest)
    else
      ([], c :: text)
  | .escape, c :: text =>
    let (name, rest) := scanName .plain text
    (c :: name, rest)
  | .interpolation depth quoting, c :: text =>
    let state :=
      if Brackets.curly.closesAt depth quoting c then .plain
      else .interpolation (Brackets.curly.depthAfter depth quoting c) (quoting.step c)
    let (name, rest) := scanName state text
    (c :: name, rest)

def takeName (text : List Char) : List Char × List Char :=
  scanName .plain text

/-- Whether a scan for commas is inside a bracketed span, and how deep. -/
inductive Nesting where
  | top
  | within (brackets : Brackets) (depth : Nat)
  deriving DecidableEq, Repr

/-- The nesting after one more character. Inside a span only its own kind of bracket counts. -/
def Nesting.step (quoting : Quoting) (c : Char) : Nesting → Nesting
  | top =>
    if quoting = .bare then
      if c = '(' then within .round 1
      else if c = '[' then within .square 1
      else if c = '{' then within .curly 1
      else top
    else
      top
  | within brackets depth =>
    if brackets.closesAt depth quoting c then top
    else within brackets (brackets.depthAfter depth quoting c)

/-- The text up to the first comma outside brackets and quotes, and the segments after it. -/
def scanSegments : Quoting → Nesting → List Char → List Char × List (List Char)
  | _, _, [] => ([], [])
  | quoting, nesting, c :: text =>
    if quoting = .bare ∧ nesting = .top ∧ c = ',' then
      let (segment, segments) := scanSegments .bare .top text
      ([], segment :: segments)
    else
      let (segment, segments) := scanSegments (quoting.step c) (nesting.step quoting c) text
      (c :: segment, segments)

/-- The segments of a text between its commas, brackets and quotes aside. -/
def splitCommas (text : List Char) : List (List Char) :=
  let (segment, segments) := scanSegments .bare .top text
  segment :: segments

end StyleMigration.Selector
