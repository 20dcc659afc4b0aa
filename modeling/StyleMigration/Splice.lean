import StyleMigration.Failure
import StyleMigration.Text.Bytes

/-!
Replacing ranges of a text. The ranges are counted in bytes of the text as it stands; they may come
in any order, and must neither overlap nor cut a character.
-/

set_option autoImplicit false

namespace StyleMigration

open Text

/-- A text for the bytes from `start` up to `stop`. -/
structure Replacement where
  start : Nat
  stop : Nat
  text : List Char
  deriving DecidableEq, Repr

/-- Whether a range lies in a text and on character boundaries. -/
def Replacement.fits (replacement : Replacement) (source : List Char) : Bool :=
  replacement.start ≤ replacement.stop && replacement.stop ≤ byteLength source &&
    isBoundary source replacement.start && isBoundary source replacement.stop

/-- The text from the byte `cursor` on with the replacements made, which are in order. -/
def spliceFrom (source : List Char) (cursor : Nat) :
    List Replacement → Except Failure (List Char)
  | [] => .ok (fromByte source cursor)
  | replacement :: replacements =>
    if replacement.start < cursor then
      .error (.overlap replacement.start cursor)
    else if !replacement.fits source then
      .error (.outOfBounds replacement.start replacement.stop (byteLength source))
    else do
      let rest ← spliceFrom source replacement.stop replacements
      return slice source cursor replacement.start ++ replacement.text ++ rest

/-- A text with all replacements made. Those that start at the same byte keep their order. -/
def splice (source : List Char) (replacements : List Replacement) : Except Failure (List Char) :=
  spliceFrom source 0 (replacements.mergeSort fun first second => first.start ≤ second.start)

end StyleMigration
