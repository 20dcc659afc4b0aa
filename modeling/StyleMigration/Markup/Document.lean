import StyleMigration.Markup.Tag

/-!
Markup as a tree, as far as the sections of a component depend on it.
-/

set_option autoImplicit false

namespace StyleMigration.Markup

/-- An attribute; without an equals sign it has no value. -/
structure Attribute where
  name : String
  value : Option String
  deriving DecidableEq, Repr

/-- A part of the content of a style or script element. -/
inductive Piece where
  /-- Raw text, by the bytes it starts and stops at. -/
  | text (start stop : Nat)
  /-- A comment, or something that could not be read. -/
  | other
  deriving DecidableEq, Repr

/-- A style or script element. -/
structure RawElement where
  tag : Tag
  attributes : List Attribute
  pieces : List Piece
  deriving DecidableEq, Repr

inductive Node where
  /-- Text, an entity, a comment, a declaration or an end tag that ends nothing. -/
  | simple
  | raw (element : RawElement)
  /-- Any other element and the nodes inside it. A tag that closes itself counts as one of them. -/
  | element (children : List Node)
  /-- A part that could not be read, and the nodes found in it. -/
  | broken (children : List Node)

/-- What was read: the nodes, and the byte at which the fault of a style element starts, if one has
a fault. -/
structure Document where
  nodes : List Node
  fault? : Option Nat

end StyleMigration.Markup
