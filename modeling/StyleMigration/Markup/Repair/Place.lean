/-!
Places in a text. A place knows what follows it and how many bytes and line ends stand before it, so
reading can go back to any place it has seen.
-/

set_option autoImplicit false

namespace StyleMigration.Markup.Repair

structure Place where
  rest : List Char
  offset : Nat
  row : Nat

namespace Place

/-- The place before a text. -/
def ofText (text : List Char) : Place :=
  ⟨text, 0, 0⟩

/-- The place one character on; the end stays where it is. -/
def next (place : Place) : Place :=
  match place.rest with
  | [] => place
  | c :: rest => ⟨rest, place.offset + c.utf8Size, if c = '\n' then place.row + 1 else place.row⟩

/-- The place some characters on. -/
def drop : Nat → Place → Place
  | 0, place => place
  | count + 1, place => drop count place.next

/-- The character that follows, or a null character at the end. -/
def peek (place : Place) : Char :=
  place.rest.headD '\x00'

def isEnd (place : Place) : Bool :=
  place.rest.isEmpty

/-- The place after the characters of a class. -/
def dropWhile (isIn : Char → Bool) (place : Place) : Place :=
  place.drop (place.rest.takeWhile isIn).length

/-- A text can start with a mark of its byte order, which is passed over there. -/
def pastMark (place : Place) : Place :=
  if place.offset = 0 ∧ place.peek = '\uFEFF' then place.next else place

/-- The text between two places. -/
def textTo (start stop : Place) : List Char :=
  start.rest.take (start.rest.length - stop.rest.length)

end Place

end StyleMigration.Markup.Repair
