import StyleMigration.Markup.Tag

/-!
The symbols of markup: the tokens that reading takes from a text, and the kinds of the nodes that it
builds from them.
-/

set_option autoImplicit false

namespace StyleMigration.Markup.Repair

/-- The two quotation marks of attribute values. -/
inductive Quote where
  | single
  | double
  deriving DecidableEq, Repr

/-- The elements that hold nodes, and the two whose content is raw text. -/
inductive Content where
  | nodes
  | script
  | style
  deriving DecidableEq, Repr

inductive Token where
  | declarationOpen
  | declarationText
  | close
  | doctypeWord
  | tagOpen
  | selfClose
  | endOpen
  | equals
  | attributeName
  | attributeValue
  | entity
  | quote (quote : Quote)
  | quoted (quote : Quote)
  | text
  | startName (content : Content)
  | endName
  /-- The name of an end tag that ends no open element. -/
  | strayName
  /-- The end of an element that the next tag or the end of the text implies. -/
  | impliedEnd
  | rawText
  | comment
  | finish
  /-- Characters that start no token. -/
  | unknown
  deriving DecidableEq, Repr

namespace Token

/-- The tokens that can be missing, in the order in which they are tried. -/
def expectable : List Token :=
  [declarationOpen, declarationText, close, doctypeWord, tagOpen, selfClose, endOpen, equals,
    attributeName, attributeValue, entity, quote .single, quoted .single, quote .double,
    quoted .double, text, startName .nodes, startName .script, startName .style, endName, strayName,
    impliedEnd, rawText, comment]

/-- Whether a token counts as a part of the tree. -/
def isVisible (token : Token) : Bool :=
  token != declarationText && token != impliedEnd && token != finish

end Token

inductive Kind where
  | document
  | doctype
  | element
  | rawElement (content : Content)
  | startTag (content : Content)
  | selfClosingTag
  | endTag
  | strayEndTag
  | item
  | quotedValue
  /-- Some nodes in a row. -/
  | nodeList
  /-- Some attributes in a row. -/
  | itemList
  /-- What could not be read. -/
  | broken
  /-- Some tokens in a row that could not be read. -/
  | brokenList
  deriving DecidableEq, Repr

namespace Kind

/-- Whether a node counts as a part of the tree; the others only hold parts of it. -/
def isVisible (kind : Kind) : Bool :=
  kind != nodeList && kind != itemList && kind != brokenList

def isBroken (kind : Kind) : Bool :=
  kind == broken || kind == brokenList

end Kind

end StyleMigration.Markup.Repair
