/-!
Texts as rows of bytes. Programs pass bytes around and look at them one by one, so a byte is written
as the character with its number, and a text is such a row of characters.
-/

set_option autoImplicit false

namespace StyleMigration.Text

/-- A row of bytes, each as the character with its number. -/
abbrev Octets := List Char

namespace Octets

def ofBytes (bytes : ByteArray) : Octets :=
  bytes.toList.map fun byte => Char.ofNat byte.toNat

def toBytes (octets : Octets) : ByteArray :=
  ⟨(octets.map fun c => UInt8.ofNat c.toNat).toArray⟩

def ofString (text : String) : Octets :=
  ofBytes text.toUTF8

/-- Bytes as text, where those that are no UTF-8 are replaced one by one. -/
def decode : List Nat → List Char
  | [] => []
  | byte :: bytes =>
    let goesOn (byte : Nat) : Bool := 0x80 ≤ byte && byte < 0xc0
    let replaced := '\uFFFD' :: decode bytes
    if byte < 0x80 then
      Char.ofNat byte :: decode bytes
    else
      match bytes with
      | second :: third :: fourth :: rest =>
        let two := (byte - 0xc0) * 64 + (second - 0x80)
        let three := ((byte - 0xe0) * 64 + (second - 0x80)) * 64 + (third - 0x80)
        let four := (((byte - 0xf0) * 64 + (second - 0x80)) * 64 + (third - 0x80)) * 64 +
          (fourth - 0x80)
        if 0xc2 ≤ byte && byte < 0xe0 && goesOn second then
          Char.ofNat two :: decode (third :: fourth :: rest)
        else if 0xe0 ≤ byte && byte < 0xf0 && goesOn second && goesOn third && 0x800 ≤ three then
          Char.ofNat three :: decode (fourth :: rest)
        else if 0xf0 ≤ byte && byte < 0xf5 && goesOn second && goesOn third && goesOn fourth &&
            0x10000 ≤ four then
          Char.ofNat four :: decode rest
        else replaced
      | [second, third] =>
        let two := (byte - 0xc0) * 64 + (second - 0x80)
        let three := ((byte - 0xe0) * 64 + (second - 0x80)) * 64 + (third - 0x80)
        if 0xc2 ≤ byte && byte < 0xe0 && goesOn second then Char.ofNat two :: decode [third]
        else if 0xe0 ≤ byte && byte < 0xf0 && goesOn second && goesOn third && 0x800 ≤ three then
          [Char.ofNat three]
        else replaced
      | [second] =>
        if 0xc2 ≤ byte && byte < 0xe0 && goesOn second then
          [Char.ofNat ((byte - 0xc0) * 64 + (second - 0x80))]
        else replaced
      | [] => replaced

/-- The text that some bytes are. -/
def toString (octets : Octets) : String :=
  match String.fromUTF8? octets.toBytes with
  | some text => text
  | none => String.ofList (decode (octets.map Char.toNat))

/-- The lines of a text, each without its end, and whether the last one has an end. -/
def lines : Octets → List Octets × Bool
  | [] => ([], true)
  | c :: text =>
    match lines text with
    | ([], _) => if c = '\n' then ([[]], true) else ([[c]], false)
    | (line :: others, ends) =>
      if c = '\n' then ([] :: line :: others, ends) else ((c :: line) :: others, ends)

/-- Lines with an end after each. -/
def ofLines (lines : List Octets) : Octets :=
  lines.flatMap (· ++ ['\n'])

/-- A whole number in decimal digits. -/
def ofNat (number : Nat) : Octets :=
  Nat.toDigits 10 number

def ofInt (number : Int) : Octets :=
  if number < 0 then '-' :: ofNat number.natAbs else ofNat number.natAbs

/-- The number that decimal digits stand for. -/
def toNat? (octets : Octets) : Option Nat :=
  if octets.isEmpty || !octets.all Char.isDigit then none
  else some (octets.foldl (fun number c => number * 10 + (c.toNat - '0'.toNat)) 0)

/-- A whole number in decimal digits with a sign before it and blanks around it allowed. -/
def toInt? (octets : Octets) : Option Int :=
  let isBlank (c : Char) : Bool := c == ' ' || (0x09 ≤ c.toNat && c.toNat ≤ 0x0d)
  let trimmed := ((octets.dropWhile isBlank).reverse.dropWhile isBlank).reverse
  match trimmed with
  | '-' :: digits => (toNat? digits).map fun number => -(number : Int)
  | '+' :: digits => (toNat? digits).map Int.ofNat
  | digits => (toNat? digits).map Int.ofNat

end Octets

end StyleMigration.Text
