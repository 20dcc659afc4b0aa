import StyleMigration.Toml.Value

/-!
The scalar values of TOML: strings in their four forms, numbers and moments. A reader takes the
text it is given and answers with what it read and the rest, or with nothing if the text is at
fault.
-/

set_option autoImplicit false

namespace StyleMigration.Toml

/-- The characters that may stand in a comment or, apart from its end, in a string of one line. -/
def isPrintable (c : Char) : Bool :=
  c == '\t' || (0x20 ≤ c.toNat && c.toNat != 0x7f)

def isWhite (c : Char) : Bool :=
  c == ' ' || c == '\t'

def skipWhite (text : List Char) : List Char :=
  text.dropWhile isWhite

/-- What follows the end of a line at the front of a text. -/
def afterLineEnd? : List Char → Option (List Char)
  | '\n' :: text | '\r' :: '\n' :: text => some text
  | _ => none

def hexValue? (c : Char) : Option Nat :=
  if c.isDigit then some (c.toNat - '0'.toNat)
  else if 'a' ≤ c ∧ c ≤ 'f' then some (c.toNat - 'a'.toNat + 10)
  else if 'A' ≤ c ∧ c ≤ 'F' then some (c.toNat - 'A'.toNat + 10)
  else none

/-- The number that digits in a base stand for, the most significant one first. -/
def ofDigits (base : Nat) (digits : List Nat) : Nat :=
  digits.foldl (fun number digit => number * base + digit) 0

/-- A character by its number in `count` hexadecimal digits. -/
def takeCodePoint? (count : Nat) (text : List Char) : Option (Char × List Char) := do
  let digits ← (text.take count).mapM hexValue?
  if digits.length < count then none
  let code := ofDigits 16 digits
  if code.isValidChar then some (Char.ofNat code, text.drop count) else none

/-- The character an escape stands for, after its backslash. -/
def takeEscape? : List Char → Option (Char × List Char)
  | 'b' :: text => some ('\x08', text)
  | 't' :: text => some ('\t', text)
  | 'n' :: text => some ('\n', text)
  | 'f' :: text => some ('\x0c', text)
  | 'r' :: text => some ('\r', text)
  | '"' :: text => some ('"', text)
  | '\\' :: text => some ('\\', text)
  | 'u' :: text => takeCodePoint? 4 text
  | 'U' :: text => takeCodePoint? 8 text
  | _ => none

/-- A string in double quotes, after its first quote. -/
def takeBasic? (text : List Char) : Option (List Char × List Char) :=
  match text with
  | [] => none
  | '"' :: rest => some ([], rest)
  | '\\' :: rest => do
    let (c, after) ← takeEscape? rest
    if _h : after.length ≤ rest.length then
      let (inner, after) ← takeBasic? after
      return (c :: inner, after)
    else
      none
  | c :: rest =>
    if isPrintable c then do
      let (inner, rest) ← takeBasic? rest
      return (c :: inner, rest)
    else
      none
termination_by text.length

/-- A string in single quotes, after its first quote. -/
def takeLiteral? : List Char → Option (List Char × List Char)
  | [] => none
  | '\'' :: rest => some ([], rest)
  | c :: rest =>
    if isPrintable c then do
      let (inner, rest) ← takeLiteral? rest
      return (c :: inner, rest)
    else
      none

/-- The end of a string in triple quotes: up to two further quotes belong to the string. -/
def takeTripleEnd? (quote : Char) (text : List Char) : Option (List Char × List Char) :=
  let run := (text.take 5).takeWhile (· == quote)
  if 3 ≤ run.length then some (run.drop 3, text.drop run.length) else none

/-- What follows a backslash at the end of a line: the next character that is no space. -/
def afterFolding? (text : List Char) : Option (List Char) :=
  (afterLineEnd? (skipWhite text)).map skipBlankLines
where
  skipBlankLines (text : List Char) : List Char :=
    match text with
    | '\r' :: '\n' :: rest => skipBlankLines rest
    | c :: rest => if isWhite c || c == '\n' then skipBlankLines rest else c :: rest
    | [] => []

/-- A string in three double quotes, after them. -/
def takeLongBasic? (text : List Char) : Option (List Char × List Char) :=
  match takeTripleEnd? '"' text with
  | some ended => some ended
  | none =>
    match text with
    | [] => none
    | '\\' :: rest =>
      match afterFolding? rest with
      | some after => if _h : after.length ≤ rest.length then takeLongBasic? after else none
      | none => do
        let (c, after) ← takeEscape? rest
        if _h : after.length ≤ rest.length then
          let (inner, after) ← takeLongBasic? after
          return (c :: inner, after)
        else
          none
    | '\r' :: '\n' :: rest => do
      let (inner, rest) ← takeLongBasic? rest
      return ('\n' :: inner, rest)
    | c :: rest =>
      if isPrintable c || c == '\n' then do
        let (inner, rest) ← takeLongBasic? rest
        return (c :: inner, rest)
      else
        none
termination_by text.length

/-- A string in three single quotes, after them. -/
def takeLongLiteral? (text : List Char) : Option (List Char × List Char) :=
  match takeTripleEnd? '\'' text with
  | some ended => some ended
  | none =>
    match text with
    | [] => none
    | '\r' :: '\n' :: rest => do
      let (inner, rest) ← takeLongLiteral? rest
      return ('\n' :: inner, rest)
    | c :: rest =>
      if isPrintable c || c == '\n' then do
        let (inner, rest) ← takeLongLiteral? rest
        return (c :: inner, rest)
      else
        none
termination_by text.length

/-- A text without the end of a line at its front, which a string in triple quotes leaves out. -/
def dropLineEnd (text : List Char) : List Char :=
  (afterLineEnd? text).getD text

/-- A string in any of its forms. -/
def takeString? : List Char → Option (List Char × List Char)
  | '"' :: '"' :: '"' :: text => takeLongBasic? (dropLineEnd text)
  | '"' :: text => takeBasic? text
  | '\'' :: '\'' :: '\'' :: text => takeLongLiteral? (dropLineEnd text)
  | '\'' :: text => takeLiteral? text
  | _ => none

/-- Digits of a class with single underscores between them, the underscores left out. -/
def digitRun? (isDigit : Char → Bool) : List Char → Option (List Char)
  | [] => none
  | [c] => if isDigit c then some [c] else none
  | c :: '_' :: rest => if isDigit c then (digitRun? isDigit rest).map (c :: ·) else none
  | c :: rest => if isDigit c then (digitRun? isDigit rest).map (c :: ·) else none

def decimalOf (digits : List Char) : Nat :=
  ofDigits 10 (digits.map fun c => c.toNat - '0'.toNat)

/-- A whole number written with digits of a base. -/
def ofRun? (base : Nat) (isDigit : Char → Bool) (text : List Char) : Option Nat := do
  let digits ← digitRun? isDigit text
  return ofDigits base (digits.filterMap hexValue?)

/-- The digits of a whole number without zeros in front of others. -/
def wholeDigits? (text : List Char) : Option (List Char) := do
  let digits ← digitRun? Char.isDigit text
  if digits.length > 1 && digits.head? == some '0' then none else some digits

/-- A sign and the rest of a text. -/
def takeSign : List Char → Bool × List Char
  | '-' :: text => (true, text)
  | '+' :: text => (false, text)
  | text => (false, text)

def signed (negative : Bool) (number : Nat) : Int :=
  if negative then -number else number

/-- A whole number; it has 64 bits with a sign. -/
def integer? (text : List Char) : Option Int := do
  let number ← match text with
    | '0' :: 'x' :: digits => (ofRun? 16 (fun c => (hexValue? c).isSome) digits).map Int.ofNat
    | '0' :: 'o' :: digits => (ofRun? 8 (fun c => '0' ≤ c && c ≤ '7') digits).map Int.ofNat
    | '0' :: 'b' :: digits => (ofRun? 2 (fun c => c == '0' || c == '1') digits).map Int.ofNat
    | text =>
      let (negative, digits) := takeSign text
      (wholeDigits? digits).map fun digits => signed negative (decimalOf digits)
  if -Int.pow 2 63 ≤ number ∧ number < Int.pow 2 63 then some number else none

/-- The exponent of a number, after its `e`. -/
def exponent? (text : List Char) : Option Int := do
  let (negative, digits) := takeSign text
  let digits ← digitRun? Char.isDigit digits
  return signed negative (decimalOf digits)

/-- A number with a fraction, an exponent or both. One that is too large is none. -/
def decimal? (text : List Char) : Option Decimal := do
  let (negative, unsigned) := takeSign text
  let isMark (c : Char) : Bool := c == 'e' || c == 'E'
  let mantissa := unsigned.takeWhile (!isMark ·)
  let exponent ← match unsigned.dropWhile (!isMark ·) with
    | [] => if mantissa.contains '.' then some 0 else none
    | _ :: exponent => exponent? exponent
  let whole ← wholeDigits? (mantissa.takeWhile (· != '.'))
  let fraction ← match mantissa.dropWhile (· != '.') with
    | [] => some []
    | _ :: fraction => digitRun? Char.isDigit fraction
  let number : Decimal :=
    ⟨signed negative (decimalOf (whole ++ fraction)), exponent - fraction.length⟩
  if number.isTooLarge then none else some number

/-- A number of `count` digits at the front of a text. -/
def takeCount? (count : Nat) (text : List Char) : Option (Nat × List Char) :=
  let digits := text.take count
  if digits.length = count ∧ digits.all Char.isDigit then some (decimalOf digits, text.drop count)
  else none

def takeChar? (isWanted : Char → Bool) : List Char → Option (List Char)
  | c :: text => if isWanted c then some text else none
  | [] => none

def daysIn (year month : Nat) : Nat :=
  if month = 2 then
    if (year % 4 = 0 ∧ year % 100 ≠ 0) ∨ year % 400 = 0 then 29 else 28
  else if month = 4 ∨ month = 6 ∨ month = 9 ∨ month = 11 then 30
  else 31

/-- What follows a date. -/
def afterDate? (text : List Char) : Option (List Char) := do
  let (year, text) ← takeCount? 4 text
  let (month, text) ← takeCount? 2 (← takeChar? (· == '-') text)
  let (day, text) ← takeCount? 2 (← takeChar? (· == '-') text)
  if 1 ≤ month ∧ month ≤ 12 ∧ 1 ≤ day ∧ day ≤ daysIn year month then some text else none

/-- What follows a time of day. -/
def afterTime? (text : List Char) : Option (List Char) := do
  let (hour, text) ← takeCount? 2 text
  let (minute, text) ← takeCount? 2 (← takeChar? (· == ':') text)
  let (second, text) ← takeCount? 2 (← takeChar? (· == ':') text)
  if hour ≤ 23 ∧ minute ≤ 59 ∧ second ≤ 60 then
    match text with
    | '.' :: digits =>
      if (digits.takeWhile Char.isDigit).isEmpty then none else some (digits.dropWhile Char.isDigit)
    | text => some text
  else
    none

/-- Whether a text is empty or a distance from universal time. -/
def isOffset (text : List Char) : Bool :=
  match text with
  | [] | ['Z'] | ['z'] => true
  | sign :: offset =>
    (sign == '+' || sign == '-') && (do
      let (hour, rest) ← takeCount? 2 offset
      let (minute, rest) ← takeCount? 2 (← takeChar? (· == ':') rest)
      return decide (hour ≤ 23 ∧ minute ≤ 59 ∧ rest = [])).getD false

/-- Whether a text is a date, a time of day, or a date with a time and perhaps an offset. -/
def isMoment (text : List Char) : Bool :=
  match afterDate? text with
  | some [] => true
  | some (mark :: time) =>
    (mark == 'T' || mark == 't' || mark == ' ') && (afterTime? time).any isOffset
  | none => afterTime? text == some []

/-- The value a word stands for. -/
def wordValue? (word : List Char) : Option Value :=
  if word = ['t', 'r', 'u', 'e'] then some (.boolean true)
  else if word = ['f', 'a', 'l', 's', 'e'] then some (.boolean false)
  else if (takeSign word).2 = ['i', 'n', 'f'] ∨ (takeSign word).2 = ['n', 'a', 'n'] then
    some .nonFinite
  else
    (integer? word).map .integer <|> (decimal? word).map .decimal <|>
      (if isMoment word then some .moment else none)

/-- The characters of numbers, moments and truth values. -/
def isWordChar (c : Char) : Bool :=
  c.isAlphanum || c == '+' || c == '-' || c == '_' || c == '.' || c == ':'

/-- A word at the front of a text. A date takes in a time that follows after a space. -/
def takeWord (text : List Char) : List Char × List Char :=
  let word := text.takeWhile isWordChar
  match text.dropWhile isWordChar with
  | ' ' :: c :: rest =>
    if afterDate? word = some [] ∧ c.isDigit then
      (word ++ ' ' :: (c :: rest).takeWhile isWordChar, (c :: rest).dropWhile isWordChar)
    else
      (word, ' ' :: c :: rest)
  | rest => (word, rest)

end StyleMigration.Toml
