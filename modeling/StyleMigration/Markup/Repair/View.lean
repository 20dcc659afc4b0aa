import StyleMigration.Markup.Document
import StyleMigration.Markup.Repair.Run

/-!
What a repaired tree says: its nodes, and where the fault of a style element starts. A style element
with a fault counts, and so does a broken part that mentions a style element. Of several faults the
last one is taken, and of a part and one inside it the outer one.
-/

set_option autoImplicit false

namespace StyleMigration.Markup.Repair

/-- Whether a text has the start of a style element in it. -/
def mentionsStyle : List Char → Bool
  | [] => false
  | c :: rest =>
    String.ofList (((c :: rest).take 6).map Char.toLower) = "<style" || mentionsStyle rest

namespace Tree

/-- The text a tree was read from. -/
def text (tree : Tree) : List Char :=
  tree.start.textTo tree.stop

/-- Whether a node is a fault of a style element. -/
def isStyleFault (kind : Kind) (size : Measure) : Bool :=
  kind == .rawElement .style ||
    (kind == .broken && mentionsStyle (size.start.textTo size.stop))

mutual

/-- The byte at which the fault of a style element starts. -/
def fault? : Tree → Option Nat
  | leaf _ _ _ _ _ _ => none
  | node kind children _ size =>
    if size.cost = 0 then none
    else if isStyleFault kind size then some size.start.offset
    else lastFault? children

def lastFault? : List Tree → Option Nat
  | [] => none
  | tree :: trees => lastFault? trees <|> fault? tree

end

mutual

/-- A tree, or the visible trees in it if it is not visible. -/
def visible : Tree → List Tree
  | leaf token start stop opened isExtra isMissing =>
    if token.isVisible then [leaf token start stop opened isExtra isMissing] else []
  | node kind children isExtra size =>
    if kind.isVisible then [node kind children isExtra size] else allVisible children

def allVisible : List Tree → List Tree
  | [] => []
  | tree :: trees => visible tree ++ allVisible trees

end

/-- The text of a token, if a tree is that token. -/
def textOf? (token : Token) : Tree → Option String
  | leaf token' start stop _ _ _ =>
    if token' = token then some (String.ofList (start.textTo stop)) else none
  | node _ _ _ _ => none

/-- The value that a part of an attribute is. -/
def value? (tree : Tree) : Option String :=
  tree.textOf? .attributeValue <|>
    match tree with
    | node .quotedValue children _ _ =>
      some (((allVisible children).findSome? fun child =>
        child.textOf? (.quoted .single) <|> child.textOf? (.quoted .double)).getD "")
    | _ => none

/-- The attribute that a part of a start tag is. -/
def attribute? : Tree → Option Attribute
  | node .item children _ _ =>
    let parts := allVisible children
    (parts.findSome? (textOf? .attributeName)).map fun name => ⟨name, parts.findSome? value?⟩
  | _ => none

/-- The attributes of a raw element with the children given. -/
def attributesOf (children : List Tree) : List Attribute :=
  children.flatMap fun
    | node (.startTag _) children _ _ => (allVisible children).filterMap attribute?
    | _ => []

/-- What a child of a raw element adds to its content. -/
def piece? : Tree → Option Piece
  | leaf .rawText start stop _ _ _ =>
    if start.offset = stop.offset then none else some (.text start.offset stop.offset)
  | leaf token _ _ _ _ _ => if token = .comment then some .other else none
  | node kind _ _ _ => if kind = .broken then some .other else none

mutual

/-- The nodes that a tree makes. Only the tags of an element make none. -/
def nodes : Tree → List Node
  | leaf token _ _ _ _ _ => if token.isVisible then [.simple] else []
  | node kind children _ _ =>
    match kind with
    | .rawElement content =>
      let tag := if content = .script then Tag.script else Tag.style
      [.raw ⟨tag, attributesOf children, children.filterMap piece?⟩]
    | .element => [.element (allNodes children)]
    | .broken => [.broken (allNodes children)]
    | .startTag _ | .endTag => []
    | .document | .nodeList | .itemList | .brokenList => allNodes children
    | .doctype | .selfClosingTag | .strayEndTag | .item | .quotedValue => [.simple]

def allNodes : List Tree → List Node
  | [] => []
  | tree :: trees => nodes tree ++ allNodes trees

end

end Tree

/-- Reads markup, however broken it is. -/
def read (source : List Char) : Document :=
  match readTree source with
  | some tree => ⟨tree.nodes, tree.fault?⟩
  | none => ⟨[], none⟩

end StyleMigration.Markup.Repair
