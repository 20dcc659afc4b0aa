import StyleMigration.Markup.Token
import StyleMigration.Text.Bytes

/-!
Reading markup without faults. The end tag of an outer element ends all that are open inside it, and
an end tag that matches no open element is a node without effect. An element without content stays
open until the next tag. Some elements end with the text, and any other that is open then is a
fault. The name of an open element is what the record of the open ones keeps of it, so one for which
there is no room is never ended by its own end tag.
-/

set_option autoImplicit false

namespace StyleMigration.Markup

open Text

/-- An element whose end was not seen yet, and the nodes before it on its level in reverse. -/
structure OpenElement where
  tag : Tag
  before : List Node

/-- A tree under construction: the nodes of the open level in reverse, the open elements from the
innermost on, and the number of bytes read. -/
structure Builder where
  nodes : List Node
  opened : List OpenElement
  offset : Nat

namespace Builder

def add (builder : Builder) (node : Node) : Builder :=
  { builder with nodes := node :: builder.nodes }

/-- Closes the innermost element. -/
def close (builder : Builder) : Builder :=
  match builder.opened with
  | [] => builder
  | element :: around =>
    { builder with nodes := .element builder.nodes.reverse :: element.before, opened := around }

/-- Opens an element. -/
def enter (builder : Builder) (tag : Tag) : Builder :=
  { builder with nodes := [], opened := ⟨tag, builder.nodes⟩ :: builder.opened }

/-- Closes elements from the inside while `ends`, given the open ones from the innermost on, asks
for it. -/
def closeWhile (builder : Builder) (ends : Tag → List OpenElement → Bool) : Builder :=
  go builder.nodes builder.opened
where
  go (nodes : List Node) : List OpenElement → Builder
    | [] => { builder with nodes, opened := [] }
    | element :: around =>
      if ends element.tag (element :: around) then
        go (.element nodes.reverse :: element.before) around
      else
        { builder with nodes, opened := element :: around }

/-- Closes the elements that end before a start tag with the given name. -/
def closeBefore (builder : Builder) (name : TagName) : Builder :=
  builder.closeWhile fun innermost _ =>
    innermost.isVoid || (name.isAttached && !innermost.canContain name.tag)

/-- What the record of the open elements keeps of a tag that is opened. -/
def recorded (builder : Builder) (tag : Tag) : Tag :=
  (Tag.record (tag :: builder.opened.map (·.tag))).headD .lost

/-- Takes an end tag: closes the element it belongs to and all inside that, or counts as a node.
With no element open it is a fault. -/
def endTag? (builder : Builder) (name : TagName) : Option Builder :=
  let builder := builder.closeWhile fun innermost around =>
    name.isAttached && innermost != name.tag && around.any fun element => name.tag.isLike element.tag
  match builder.opened with
  | element :: _ => some (if element.tag = name.tag then builder.close else builder.add .simple)
  | [] => none

/-- A raw element as written, which starts at a byte. -/
def rawElement (start : Nat) (written : WrittenRaw) : RawElement :=
  let content := start + byteLength written.opening
  { tag := written.name.tag
    attributes := written.attributes
    pieces := if written.content.isEmpty then []
      else [.text content (content + byteLength written.content)] }

/-- Places a token in the tree. -/
def place? (builder : Builder) : Token → Option Builder
  | .space => some builder
  | .text | .entity | .comment | .doctype _ => some (builder.add .simple)
  | .startTag startTag =>
    let builder := builder.closeBefore startTag.name
    if startTag.selfClosed then some (builder.add (.element [.simple]))
    else some (builder.enter (builder.recorded startTag.name.tag))
  | .endTag name => builder.endTag? name
  | .raw written =>
    let closed := builder.closeBefore written.name
    if closed.recorded written.name.tag ≠ written.name.tag then none
    else some (closed.add (.raw (rawElement builder.offset written)))

/-- Places a token and moves on past the text it was read from. -/
def step? (builder : Builder) (token : Token × List Char) : Option Builder :=
  (builder.place? token.1).map fun placed =>
    { placed with offset := builder.offset + byteLength token.2 }

/-- The nodes read when the text ends. -/
def finish? (builder : Builder) : Option (List Node) :=
  let closed := builder.closeWhile fun innermost _ => innermost.endsWithText
  if closed.opened.isEmpty then some closed.nodes.reverse else none

end Builder

/-- Reads markup without faults. -/
def readWellformed? (source : List Char) : Option (List Node) := do
  let builder ← (← tokens? source).foldlM Builder.step? ⟨[], [], 0⟩
  if source.contains '\x00' then none else builder.finish?

end StyleMigration.Markup
