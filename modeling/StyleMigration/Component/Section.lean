import StyleMigration.Failure
import StyleMigration.Markup.Reader
import StyleMigration.Text.Bytes

/-!
The style sections of a component: its top-level style elements that have content. A style element
with a fault anywhere in the component fails the whole component, as does a part that could not be
read and mentions one.
-/

set_option autoImplicit false

namespace StyleMigration.Component

open Markup Text

/-- The content of a style element and where it stands in the component. -/
structure Section where
  content : List Char
  attributes : List Attribute
  start : Nat
  stop : Nat
  index : Nat
  deriving DecidableEq, Repr

/-- The attributes of a start tag, one for each name: of several with one name the last counts. -/
def distinct : List Attribute → List Attribute
  | [] => []
  | item :: attributes =>
    let others := distinct attributes
    if others.any fun other => other.name = item.name then others
    else item :: others

/-- The language a section declares. -/
def Section.language? (sec : Section) : Option String :=
  (sec.attributes.find? fun item => item.name = "lang").bind (·.value)

/-- Which elements of a component count as sections. -/
inductive Query where
  | topStyles
  | allStyles
  | topScripts
  /-- The top-level elements that are neither styles nor scripts. -/
  | topElements
  /-- Elements of a kind that does not exist. -/
  | unknownKind (name : String)
  deriving DecidableEq, Repr

/-- Why a style element cannot be used. -/
inductive StyleDefect where
  | unreadable (row column : Nat)
  | childNotText
  | severalChildren
  deriving DecidableEq, Repr

def StyleDefect.message : StyleDefect → String
  | unreadable row column =>
    "unterminated or invalid style element at " ++ toString row ++ ":" ++ toString column
  | childNotText => "expected text node as style element child"
  | severalChildren => "unexpected multiple children of style element"

/-- The row and the column of a byte, both counted from one and the column in bytes. -/
def location (source : List Char) (offset : Nat) : Nat × Nat :=
  let front := upToByte source offset
  (front.count '\n' + 1, byteLength (front.reverse.takeWhile (· != '\n')) + 1)

mutual

/-- The style elements in a node, at any depth. -/
def stylesIn : Node → List Node
  | .simple => []
  | .raw element => if element.tag = .style then [.raw element] else []
  | .element children | .broken children => allStylesIn children

def allStylesIn : List Node → List Node
  | [] => []
  | node :: nodes => stylesIn node ++ allStylesIn nodes

end

/-- Whether a node is a style or script element with the given tag. -/
def isRaw (tag : Tag) : Node → Bool
  | .raw element => element.tag = tag
  | _ => false

def isElement : Node → Bool
  | .element _ => true
  | _ => false

/-- The nodes a query asks for. -/
def Query.select (nodes : List Node) : Query → List Node
  | topStyles => nodes.filter (isRaw .style)
  | allStyles => allStylesIn nodes
  | topScripts => nodes.filter (isRaw .script)
  | topElements => nodes.filter isElement
  | unknownKind _ => []

/-- The section a node of a component makes, if it has content. -/
def sectionOf (source : List Char) (index : Nat) : Node → Except StyleDefect (Option Section)
  | .raw ⟨_, attributes, pieces⟩ =>
    match pieces with
    | [] => .ok none
    | [.text start stop] =>
      .ok (some ⟨slice source start stop, distinct attributes, start, stop, index⟩)
    | [.other] => .error .childNotText
    | _ => .error .severalChildren
  | .element [] => .ok none
  | .element [_] => .error .childNotText
  | .element _ => .error .severalChildren
  | .simple | .broken _ => .ok none

/-- The sections of some nodes of a component, counted from `index` on. -/
def sectionsOf (source : List Char) (index : Nat) : List Node → Except StyleDefect (List Section)
  | [] => .ok []
  | node :: nodes => do
    match ← sectionOf source index node with
    | none => sectionsOf source index nodes
    | some first => return first :: (← sectionsOf source (index + 1) nodes)

/-- The sections of a component that a query asks for. -/
def sectionsBy (query : Query) (path : String) (source : List Char) :
    Except Failure (List Section) :=
  let document := read source
  match document.fault? with
  | some offset =>
    let (row, column) := location source offset
    .error (.malformedStyle path (StyleDefect.unreadable row column).message)
  | none =>
    match query with
    | .unknownKind name =>
      .error (.unparsed path ("Query error at 1:2. Invalid node type " ++ name))
    | query =>
      (sectionsOf source 0 (query.select document.nodes)).mapError fun defect =>
        .malformedStyle path defect.message

/-- The style sections of a component. -/
def sections (path : String) (source : List Char) : Except Failure (List Section) :=
  sectionsBy .topStyles path source

end StyleMigration.Component
