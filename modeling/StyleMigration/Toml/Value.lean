/-!
Values of a TOML document, and the rule by which a decimal fraction becomes a whole number.
-/

set_option autoImplicit false

namespace StyleMigration.Toml

/-- The number `mantissa * 10 ^ exponent`. -/
structure Decimal where
  mantissa : Int
  exponent : Int
  deriving DecidableEq, Repr

inductive Value where
  | string (text : String)
  | integer (number : Int)
  | decimal (number : Decimal)
  /-- An infinity, or what is no number. -/
  | nonFinite
  | boolean (flag : Bool)
  | moment
  | array (items : List Value)
  | table
  deriving Repr

/-- The quotient of two numbers rounded to the nearest whole number, halves to the even one. -/
def roundDiv (numerator denominator : Nat) : Nat :=
  let quotient := numerator / denominator
  let doubled := 2 * (numerator % denominator)
  if doubled < denominator then quotient
  else if denominator < doubled then quotient + 1
  else quotient + quotient % 2

/-- The whole part of the number with 53 binary digits that is nearest to a positive fraction. -/
def truncateNearest (numerator denominator : Nat) : Nat :=
  let scale : Int := (numerator.log2 : Int) - denominator.log2
  let below := numerator * Nat.pow 2 (-scale).toNat < denominator * Nat.pow 2 scale.toNat
  let exponent := (if below then scale - 1 else scale) - 52
  if 0 ≤ exponent then
    let unit := Nat.pow 2 exponent.toNat
    roundDiv numerator (denominator * unit) * unit
  else
    let units := Nat.pow 2 (-exponent).toNat
    roundDiv (numerator * units) denominator / units

namespace Decimal

/-- How many digits stand before the point, or if negative, how many zeros follow it. -/
def magnitude (number : Decimal) : Int :=
  (Nat.toDigits 10 number.mantissa.natAbs).length + number.exponent

/-- The whole part of a number that is above minus one and not too large for 64 bits, once it is
rounded to 53 binary digits. -/
def toNat? (number : Decimal) : Option Nat :=
  if number.mantissa = 0 ∨ number.magnitude < 0 then
    some 0
  else if 20 < number.magnitude then
    none
  else
    let whole := truncateNearest (number.mantissa.natAbs * Nat.pow 10 number.exponent.toNat)
      (Nat.pow 10 (-number.exponent).toNat)
    if whole = 0 ∨ (0 < number.mantissa ∧ whole < Nat.pow 2 64) then some whole else none

/-- Whether a number is too large for 53 binary digits and a binary exponent of 11 digits. -/
def isTooLarge (number : Decimal) : Bool :=
  if number.mantissa ≤ 0 ∨ number.magnitude < 309 then
    false
  else
    309 < number.magnitude ||
      (Nat.pow 2 1024 - Nat.pow 2 970) * Nat.pow 10 (-number.exponent).toNat ≤
        number.mantissa.toNat * Nat.pow 10 number.exponent.toNat

end Decimal

/-- The value as a whole number that is not negative. -/
def Value.toNat? : Value → Option Nat
  | integer number => if 0 ≤ number then some number.toNat else none
  | decimal number => number.toNat?
  | _ => none

def Value.toBool? : Value → Option Bool
  | boolean flag => some flag
  | _ => none

def Value.toString? : Value → Option String
  | string text => some text
  | _ => none

def Value.toStrings? : Value → Option (List String)
  | array items => items.mapM Value.toString?
  | _ => none

end StyleMigration.Toml
