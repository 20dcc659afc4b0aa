import StyleMigration.Command.Utility.Basic

/-!
Printing words: `echo`, as a program and as a command of the shell, and `printf`.
-/

set_option autoImplicit false

namespace StyleMigration.Command.Utility.Print

open Text

/-- What the letter after a backslash stands for. -/
def escaped? : Char → Option Char
  | '\\' => some '\\'
  | 'a' => some '\x07'
  | 'b' => some '\x08'
  | 'f' => some '\x0c'
  | 'n' => some '\n'
  | 'r' => some '\r'
  | 't' => some '\t'
  | 'v' => some '\x0b'
  | _ => none

def isOctal (c : Char) : Bool :=
  '0' ≤ c && c ≤ '7'

def isHex (c : Char) : Bool :=
  c.isDigit || ('a' ≤ c && c ≤ 'f') || ('A' ≤ c && c ≤ 'F')

def hexValue (c : Char) : Nat :=
  if c.isDigit then c.toNat - '0'.toNat else c.toLower.toNat - 'a'.toNat + 10

/-- The byte that at most `count` digits of a base stand for, and the text after them. -/
def takeByte (count base : Nat) (isDigit : Char → Bool) (text : Octets) : Char × Octets :=
  let digits := (text.take count).takeWhile isDigit
  let number := digits.foldl (fun number c => number * base + hexValue c) 0
  (Char.ofNat (number % 256), text.drop digits.length)

/-- Which escapes are read. -/
structure Escapes where
  /-- Whether `\e` stands for the escape character and `\x` starts a byte in base sixteen. -/
  isExtended : Bool
  /-- Whether a byte in base eight has a zero more in front. -/
  hasZero : Bool
  /-- Whether `\c` ends all output. -/
  canEnd : Bool

/-- The escapes of `echo` as a program. -/
def Escapes.program : Escapes := ⟨true, true, true⟩

/-- The escapes of `echo` as a command of the shell. -/
def Escapes.command : Escapes := ⟨false, true, true⟩

/-- The ways of `printf`. -/
structure Manner where
  /-- The escapes of a format. -/
  format : Escapes
  /-- The escapes of an argument that is printed with them. -/
  argument : Escapes
  /-- Whether a directive may say how long its number is. -/
  hasLengths : Bool
  /-- The status after a directive that does not exist, or without a format. -/
  refusal : Nat

/-- The ways of `printf` as a program. -/
def Manner.program : Manner := ⟨⟨true, false, true⟩, .program, true, 1⟩

/-- The ways of `printf` as a command of the shell. -/
def Manner.command : Manner := ⟨⟨false, false, false⟩, .command, false, 2⟩

/-- What an escape stands for, where the text follows its backslash; nothing if it is none. -/
def takeEscape? (escapes : Escapes) : Octets → Option (Char × Octets)
  | '0' :: text =>
    some (if escapes.hasZero then takeByte 3 8 isOctal text else takeByte 3 8 isOctal ('0' :: text))
  | c :: text =>
    if isOctal c then some (takeByte 3 8 isOctal (c :: text))
    else if escapes.isExtended ∧ c = 'e' then some ('\x1b', text)
    else if escapes.isExtended ∧ c = 'x' ∧ text.head?.any isHex then some (takeByte 2 16 isHex text)
    else (escaped? c).map fun sign => (sign, text)
  | [] => none

/-- A text with its escapes read, and whether anything may follow. -/
def readEscapes (escapes : Escapes) : (fuel : Nat) → Octets → Octets × Bool
  | 0, text => (text, true)
  | _ + 1, [] => ([], true)
  | fuel + 1, c :: text =>
    if c = '\\' then
      if escapes.canEnd ∧ text.head? = some 'c' then
        ([], false)
      else
        let (sign, rest) := (takeEscape? escapes text).getD ('\\', text)
        let (after, goesOn) := readEscapes escapes fuel rest
        (sign :: after, goesOn)
    else
      let (after, goesOn) := readEscapes escapes fuel text
      (c :: after, goesOn)

/-- A text with its escapes read. -/
def unescape (escapes : Escapes) (text : Octets) : Octets × Bool :=
  readEscapes escapes (text.length + 1) text

/-- What `echo` does beside printing its words. -/
structure Style where
  endsLine : Bool
  escapes? : Option Escapes

/-- The words in one line. -/
def line (style : Style) (words : List Octets) : Octets :=
  let text := [' '].intercalate words
  let (text, goesOn) := match style.escapes? with
    | some escapes => unescape escapes text
    | none => (text, true)
  if style.endsLine && goesOn then text ++ ['\n'] else text

/-- Takes the options off the words of the program. -/
def takeStyle (style : Style) : List Octets → Style × List Octets
  | [] => (style, [])
  | word :: words =>
    match word with
    | '-' :: c :: letters =>
      if (c :: letters).all fun c => c == 'n' || c == 'e' || c == 'E' then
        takeStyle ((c :: letters).foldl set style) words
      else
        (style, word :: words)
    | _ => (style, word :: words)
where
  set (style : Style) (c : Char) : Style :=
    if c = 'n' then { style with endsLine := false }
    else { style with escapes? := if c = 'e' then some .program else none }

/-- What `echo` prints as a program. -/
def programText (words : List Octets) : Octets :=
  let (style, words) := takeStyle ⟨true, none⟩ words
  line style words

/-- What `echo` prints as a command of the shell. -/
def commandText : List Octets → Octets
  | ['-', 'n'] :: words => line ⟨false, some .command⟩ words
  | words => line ⟨true, some .command⟩ words

/-- How an argument is printed. -/
structure Directive where
  leftAligned : Bool
  zeroFilled : Bool
  signed : Bool
  spaced : Bool
  alternate : Bool
  width : Nat
  precision? : Option Nat
  letter : Char

/-- A number in a base. -/
def digitsIn (base : Nat) (upper : Bool) (number : Nat) : Octets :=
  (Nat.toDigits base number).map fun c => if upper then c.toUpper else c

namespace Directive

/-- A text filled up to the width. -/
def fill (directive : Directive) (text : Octets) : Octets :=
  let missing := directive.width - text.length
  if directive.leftAligned then text ++ List.replicate missing ' '
  else List.replicate missing ' ' ++ text

/-- A number with its sign or mark before the digits. -/
def number (directive : Directive) (mark digits : Octets) : Octets :=
  let digits := match directive.precision? with
    | some precision => List.replicate (precision - digits.length) '0' ++ digits
    | none =>
      if directive.zeroFilled && !directive.leftAligned then
        List.replicate (directive.width - mark.length - digits.length) '0' ++ digits
      else digits
  directive.fill (mark ++ digits)

def mark (directive : Directive) (isNegative : Bool) : Octets :=
  if isNegative then ['-'] else if directive.signed then ['+']
  else if directive.spaced then [' '] else []

end Directive

/-- The number that an argument stands for, and whether it is one. A quote stands for the number of
the character after it. -/
def numberOf (argument : Octets) : Int × Bool :=
  match argument with
  | [] => (0, true)
  | '\'' :: c :: _ | '"' :: c :: _ => (c.toNat, true)
  | argument =>
    let (negative, digits) := match argument with
      | '-' :: digits => (true, digits)
      | '+' :: digits => (false, digits)
      | digits => (false, digits)
    let (base, digits) := match digits with
      | '0' :: 'x' :: digits | '0' :: 'X' :: digits => (16, digits)
      | '0' :: c :: digits => (8, c :: digits)
      | digits => (10, digits)
    let isDigit (c : Char) : Bool := isHex c && hexValue c < base
    let value := (digits.takeWhile isDigit).foldl (fun number c => number * base + hexValue c) 0
    (if negative then -(value : Int) else value, !digits.isEmpty && digits.all isDigit)

/-- An argument as a directive asks for it, whether it is as it should be, and whether anything may
follow. -/
def printOne (manner : Manner) (directive : Directive) (argument : Octets) :
    Octets × Bool × Bool :=
  let cut (text : Octets) : Octets :=
    match directive.precision? with
    | some precision => text.take precision
    | none => text
  let unsigned (number : Int) : Nat := (number % Int.pow 2 64).toNat
  match directive.letter with
  | 's' => (directive.fill (cut argument), true, true)
  | 'b' =>
    let (text, goesOn) := unescape manner.argument argument
    (directive.fill (cut text), true, goesOn)
  | 'c' => (directive.fill [argument.headD '\x00'], true, true)
  | 'd' | 'i' =>
    let (number, isNumber) := numberOf argument
    (directive.number (directive.mark (number < 0)) (Octets.ofNat number.natAbs), isNumber, true)
  | letter =>
    let (number, isNumber) := numberOf argument
    let (mark, digits) := match letter with
      | 'o' => (if directive.alternate then ['0'] else [], digitsIn 8 false (unsigned number))
      | 'x' => (if directive.alternate then ['0', 'x'] else [], digitsIn 16 false (unsigned number))
      | 'X' => (if directive.alternate then ['0', 'X'] else [], digitsIn 16 true (unsigned number))
      | _ => ([], Octets.ofNat (unsigned number))
    (directive.number mark digits, isNumber, true)

/-- The number of a width or precision, which a star takes from the arguments. -/
def takeNumber (text : Octets) (arguments : List Octets) : Nat × Octets × List Octets :=
  match text with
  | '*' :: text => ((numberOf (arguments.headD [])).1.toNat, text, arguments.tail)
  | text =>
    (((text.takeWhile Char.isDigit).foldl (fun number c => number * 10 + hexValue c) 0),
      text.dropWhile Char.isDigit, arguments)

/-- A directive after its percent sign. -/
def takeDirective? (manner : Manner) (text : Octets) (arguments : List Octets) :
    Option (Directive × Octets × List Octets) :=
  let isLength (c : Char) : Bool := manner.hasLengths && ['h', 'j', 'l', 'L', 't', 'z'].contains c
  let isFlag (c : Char) : Bool := c == '-' || c == '0' || c == '+' || c == ' ' || c == '#'
  let flags := text.takeWhile isFlag
  let (width, text, arguments) := takeNumber (text.dropWhile isFlag) arguments
  let (precision?, text, arguments) := match text with
    | '.' :: text =>
      let (precision, text, arguments) := takeNumber text arguments
      (some precision, text, arguments)
    | text => (none, text, arguments)
  match text.dropWhile isLength with
  | letter :: text =>
    if ['s', 'b', 'c', 'd', 'i', 'u', 'o', 'x', 'X'].contains letter then
      some (⟨flags.contains '-', flags.contains '0', flags.contains '+', flags.contains ' ',
        flags.contains '#', width, precision?, letter⟩, text, arguments)
    else none
  | [] => none

/-- What a format prints once: the text, the arguments left, the status, and whether anything may
follow. -/
structure Printed where
  text : Octets
  arguments : List Octets
  status : Nat
  goesOn : Bool

def printOnce (manner : Manner) : (fuel : Nat) → Octets → List Octets → Printed
  | 0, _, arguments => ⟨[], arguments, 0, false⟩
  | _ + 1, [], arguments => ⟨[], arguments, 0, true⟩
  | fuel + 1, c :: text, arguments =>
    let after (front : Octets) (rest : Octets) (arguments : List Octets) (status : Nat) :
        Printed :=
      let printed := printOnce manner fuel rest arguments
      { printed with text := front ++ printed.text, status := max status printed.status }
    if c = '\\' then
      if manner.format.canEnd ∧ text.head? = some 'c' then
        ⟨[], [], 0, false⟩
      else
        let (sign, rest) := (takeEscape? manner.format text).getD ('\\', text)
        after [sign] rest arguments 0
    else if c = '%' then
      if text.head? = some '%' then
        after ['%'] text.tail arguments 0
      else
        match takeDirective? manner text arguments with
        | none => ⟨[], arguments, manner.refusal, false⟩
        | some (directive, rest, arguments) =>
          let (shown, isRight, goesOn) := printOne manner directive (arguments.headD [])
          let status := if isRight then 0 else 1
          if goesOn then after shown rest arguments.tail status
          else ⟨shown, [], status, false⟩
    else
      after [c] text arguments 0

/-- Prints a format again and again until the arguments are used up. -/
def printAll (manner : Manner) (format : Octets) : (fuel : Nat) → List Octets → Octets × Nat
  | 0, _ => ([], 0)
  | fuel + 1, arguments =>
    let printed := printOnce manner (format.length + 1) format arguments
    if printed.goesOn && !printed.arguments.isEmpty &&
        printed.arguments.length < arguments.length then
      let (text, status) := printAll manner format fuel printed.arguments
      (printed.text ++ text, max printed.status status)
    else
      (printed.text, printed.status)

/-- Runs `printf`. -/
def printf (manner : Manner) (task : Task) (words : List Octets) : Task :=
  match if words.head? = some ['-', '-'] then words.tail else words with
  | [] => task.complain "printf" "missing format" manner.refusal
  | format :: arguments =>
    let (text, status) := printAll manner format (arguments.length + 1) arguments
    (task.print text).finish status

end StyleMigration.Command.Utility.Print
