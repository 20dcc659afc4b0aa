/-!
Selectors as trees. A selector list is a list of branches, the texts between its commas; a branch
is a sequence of parts between the blanks around it. A part is a leaf, which stands for its own
text, or a pseudo-class whose argument is a selector list again. Nothing of the text is lost, so a
tree is written back by writing its parts in order.
-/

set_option autoImplicit false

namespace StyleMigration.Selector

/-- A part of a branch without parts of its own. -/
inductive Leaf where
  | tag (text : List Char)
  | universal (text : List Char)
  | className (text : List Char)
  | id (text : List Char)
  | attr (text : List Char)
  | nesting
  /-- A pseudo-class or pseudo-element without an argument, its colons included. -/
  | pseudo (value : List Char)
  /-- A pseudo-class whose argument is kept as it stands. -/
  | function (value argument : List Char)
  /-- A combinator, and its text with the blanks around it. -/
  | combinator (value raw : List Char)
  | comment (text : List Char)
  | other (text : List Char)
  deriving DecidableEq, Repr

mutual

/-- One selector of a list, with the blanks before and after it. -/
inductive Branch where
  | mk (before : List Char) (parts : List Part) (after : List Char)

/-- A simple selector, a combinator or a comment. -/
inductive Part where
  | leaf (leaf : Leaf)
  /-- A pseudo-class whose argument is a selector list. -/
  | list (value : List Char) (branches : List Branch)

end

namespace Leaf

/-- The text a leaf stands for. -/
def text : Leaf → List Char
  | tag text | universal text | className text | id text | attr text => text
  | nesting => ['&']
  | pseudo value => value
  | function value argument => value ++ ['('] ++ argument ++ [')']
  | combinator _ raw => raw
  | comment text | other text => text

end Leaf

def Branch.parts : Branch → List Part
  | .mk _ parts _ => parts

mutual

def Branch.text : Branch → List Char
  | .mk before parts after => before ++ partsText parts ++ after

def Part.text : Part → List Char
  | .leaf leaf => leaf.text
  | .list value branches => value ++ ['('] ++ listText branches ++ [')']

/-- The text of a sequence of parts. -/
def partsText : List Part → List Char
  | [] => []
  | part :: parts => part.text ++ partsText parts

/-- The text of a selector list, its branches parted by commas. -/
def listText : List Branch → List Char
  | [] => []
  | [branch] => branch.text
  | branch :: next :: branches => branch.text ++ ',' :: listText (next :: branches)

end

/-- What a node of a selector is, apart from what lies below it. -/
inductive Kind where
  | root
  | branch (before after : List Char)
  | leaf (leaf : Leaf)
  | list (value : List Char)
  deriving DecidableEq, Repr

mutual

/-- A branch and all below it in the order of the text, each with its depth. -/
def Branch.outline (depth : Nat) : Branch → List (Nat × Kind)
  | .mk before parts after => (depth, .branch before after) :: partsOutline (depth + 1) parts

def Part.outline (depth : Nat) : Part → List (Nat × Kind)
  | .leaf leaf => [(depth, .leaf leaf)]
  | .list value branches => (depth, .list value) :: listOutline (depth + 1) branches

def partsOutline (depth : Nat) : List Part → List (Nat × Kind)
  | [] => []
  | part :: parts => part.outline depth ++ partsOutline depth parts

def listOutline (depth : Nat) : List Branch → List (Nat × Kind)
  | [] => []
  | branch :: branches => branch.outline depth ++ listOutline depth branches

end

end StyleMigration.Selector
