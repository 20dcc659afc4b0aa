import StyleMigration.Text.Octets

/-!
Patterns for whole texts, as in branches on a word and in names of files: `*` stands for any text,
`?` for any character, and brackets hold the characters that may stand there. A quoted character
stands for itself.
-/

set_option autoImplicit false

namespace StyleMigration.Command

open Text

/-- A character, and whether it was quoted. -/
structure Mark where
  char : Char
  quoted : Bool
  deriving DecidableEq, Repr

abbrev Marks := List Mark

namespace Marks

def ofText (quoted : Bool) (text : Octets) : Marks :=
  text.map (⟨·, quoted⟩)

def text (marks : Marks) : Octets :=
  marks.map (·.char)

end Marks

/-- A part of a set of characters. -/
inductive Range where
  | between (first last : Char)
  | named (name : String)
  deriving DecidableEq, Repr

/-- The classes of characters that have a name. -/
def isInClass (name : String) (c : Char) : Bool :=
  match name with
  | "alpha" => c.isAlpha
  | "digit" => c.isDigit
  | "alnum" => c.isAlphanum
  | "upper" => c.isUpper
  | "lower" => c.isLower
  | "space" => c == ' ' || (0x09 ≤ c.toNat && c.toNat ≤ 0x0d)
  | "blank" => c == ' ' || c == '\t'
  | "punct" => 0x21 ≤ c.toNat && c.toNat ≤ 0x7e && !c.isAlphanum
  | "print" => 0x20 ≤ c.toNat && c.toNat ≤ 0x7e
  | "graph" => 0x21 ≤ c.toNat && c.toNat ≤ 0x7e
  | "cntrl" => c.toNat < 0x20 || c.toNat == 0x7f
  | "xdigit" => c.isDigit || ('a' ≤ c && c ≤ 'f') || ('A' ≤ c && c ≤ 'F')
  | _ => false

def Range.contains (c : Char) : Range → Bool
  | between first last => first ≤ c && c ≤ last
  | named name => isInClass name c

/-- The name of a class at the front of a text that follows `[:`. -/
def takeClass? (text : Octets) : Option (String × Octets) :=
  let name := text.takeWhile Char.isAlpha
  match text.dropWhile Char.isAlpha with
  | ':' :: ']' :: rest => some (String.ofList name, rest)
  | _ => none

/-- The ranges of a set up to its closing bracket, which does not close the set where it stands
first. Characters in `quoted` places stand for themselves. -/
def takeRanges? : (fuel : Nat) → (first : Bool) → Marks → Option (List Range × Marks)
  | 0, _, _ => none
  | _ + 1, _, [] => none
  | fuel + 1, isFirst, mark :: rest =>
    if mark.char = ']' ∧ !mark.quoted ∧ !isFirst then
      some ([], rest)
    else
      let classed? := if mark.char = '[' ∧ !mark.quoted then
          match rest with
          | ⟨':', false⟩ :: rest => takeClass? (Marks.text rest)
          | _ => none
        else none
      match classed?, rest with
      | some (name, after), _ =>
        (takeRanges? fuel false (rest.drop (rest.length - after.length))).map
          fun (ranges, rest) => (.named name :: ranges, rest)
      | none, ⟨'-', false⟩ :: last :: after =>
        if last.char = ']' ∧ !last.quoted then
          (takeRanges? fuel false rest).map
            fun (ranges, rest) => (.between mark.char mark.char :: ranges, rest)
        else
          (takeRanges? fuel false after).map
            fun (ranges, rest) => (.between mark.char last.char :: ranges, rest)
      | none, _ =>
        (takeRanges? fuel false rest).map
          fun (ranges, rest) => (.between mark.char mark.char :: ranges, rest)

/-- A set of characters after its opening bracket, as a test. -/
def takeSet? (marks : Marks) : Option ((Char → Bool) × Marks) :=
  let (negated, marks) := match marks with
    | ⟨'!', false⟩ :: marks | ⟨'^', false⟩ :: marks => (true, marks)
    | marks => (false, marks)
  (takeRanges? (marks.length + 1) true marks).map fun (ranges, rest) =>
    (fun c => ranges.any (Range.contains c) != negated, rest)

/-- Whether a pattern stands for a text. -/
def isMatch : (fuel : Nat) → Marks → Octets → Bool
  | 0, _, _ => false
  | _ + 1, [], text => text.isEmpty
  | fuel + 1, mark :: pattern, text =>
    if mark.char = '*' ∧ !mark.quoted then
      isMatch fuel pattern text ||
        match text with
        | [] => false
        | _ :: text => isMatch fuel (mark :: pattern) text
    else
      match text with
      | [] => false
      | c :: text =>
        if mark.char = '?' ∧ !mark.quoted then
          isMatch fuel pattern text
        else
          match if mark.char = '[' ∧ !mark.quoted then takeSet? pattern else none with
          | some (isIn, pattern) => isIn c && isMatch fuel pattern text
          | none => c = mark.char && isMatch fuel pattern text

def Marks.standsFor (pattern : Marks) (text : Octets) : Bool :=
  isMatch (pattern.length + text.length + 1) pattern text

/-- Whether a pattern can stand for another text than itself. -/
def Marks.isOpen (pattern : Marks) : Bool :=
  pattern.any fun mark => !mark.quoted && (mark.char = '*' || mark.char = '?' || mark.char = '[')

/-- The ways to cut a text in two. -/
def cuts (text : Octets) : List (Octets × Octets) :=
  (List.range (text.length + 1)).map fun count => (text.take count, text.drop count)

/-- A text without the shortest or longest front that a pattern stands for. -/
def Marks.dropFront (pattern : Marks) (longest : Bool) (text : Octets) : Octets :=
  let ways := if longest then (cuts text).reverse else cuts text
  ((ways.find? fun (front, _) => pattern.standsFor front).map (·.2)).getD text

/-- A text without the shortest or longest back that a pattern stands for. -/
def Marks.dropBack (pattern : Marks) (longest : Bool) (text : Octets) : Octets :=
  let ways := if longest then cuts text else (cuts text).reverse
  ((ways.find? fun (_, back) => pattern.standsFor back).map (·.1)).getD text

end StyleMigration.Command
