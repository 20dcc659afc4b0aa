import StyleMigration.Instances

/-!
Names of markup elements, compared without regard to case. Some elements never have content, and
some end when a certain element starts.
-/

set_option autoImplicit false

namespace StyleMigration.Markup

/-- An element's name in lower case. -/
structure Tag where
  name : String
  deriving DecidableEq, Repr

namespace Tag

def ofChars (name : List Char) : Tag :=
  ⟨String.ofList (name.map Char.toLower)⟩

def style : Tag := ⟨"style"⟩

def script : Tag := ⟨"script"⟩

/-- Stands for an element whose name was not kept. No element is written so. -/
def lost : Tag := ⟨"/"⟩

/-- The elements that have no content and no end tag. -/
def voidNames : List String :=
  ["area", "base", "basefont", "bgsound", "br", "col", "command", "embed", "frame", "hr", "image",
    "img", "input", "isindex", "keygen", "link", "menuitem", "meta", "nextid", "param", "source",
    "track", "wbr"]

/-- The other elements of the standard. -/
def standardNames : List String :=
  ["a", "abbr", "address", "article", "aside", "audio", "b", "bdi", "bdo", "blockquote", "body",
    "button", "canvas", "caption", "cite", "code", "colgroup", "data", "datalist", "dd", "del",
    "details", "dfn", "dialog", "div", "dl", "dt", "em", "fieldset", "figcaption", "figure",
    "footer", "form", "h1", "h2", "h3", "h4", "h5", "h6", "head", "header", "hgroup", "html", "i",
    "iframe", "ins", "kbd", "label", "legend", "li", "main", "map", "mark", "math", "menu", "meter",
    "nav", "noscript", "object", "ol", "optgroup", "option", "output", "p", "picture", "pre",
    "progress", "q", "rb", "rp", "rt", "rtc", "ruby", "s", "samp", "script", "section", "select",
    "slot", "small", "span", "strong", "style", "sub", "summary", "sup", "svg", "table", "tbody",
    "td", "template", "textarea", "tfoot", "th", "thead", "time", "title", "tr", "u", "ul", "var",
    "video"]

/-- The elements that a paragraph cannot contain. -/
def paragraphEnders : List String :=
  ["address", "article", "aside", "blockquote", "details", "div", "dl", "fieldset", "figcaption",
    "figure", "footer", "form", "h1", "h2", "h3", "h4", "h5", "h6", "header", "hr", "main", "nav",
    "ol", "p", "pre", "section"]

def isVoid (tag : Tag) : Bool :=
  voidNames.contains tag.name

/-- Whether an element is none of the standard. -/
def isCustom (tag : Tag) : Bool :=
  !voidNames.contains tag.name && !standardNames.contains tag.name && tag != lost

/-- At most so many characters of a name are kept. -/
def maxLength : Nat := 255

/-- A tag with as much of its name as is kept. -/
def shortened (tag : Tag) : Tag :=
  if tag.name.length ≤ maxLength then tag else ⟨String.ofList (tag.name.toList.take maxLength)⟩

/-- The room that a tag takes in the record of the open elements: one unit for a tag of the standard,
and for any other one its name with two units more. -/
def room (tag : Tag) : Nat :=
  if tag.isCustom then tag.name.length + 2 else 1

/-- The room for the record of all open elements. -/
def maxRoom : Nat := 1019

/-- The record of the open elements from the outermost on, where there is some room left. Those for
which there is none are counted, but their names are lost. -/
def recordIn : (free : Nat) → List Tag → List Tag
  | _, [] => []
  | free, tag :: tags =>
    let short := tag.shortened
    if short.room ≤ free then short :: recordIn (free - short.room) tags
    else lost :: tags.map fun _ => lost

/-- The record of the open elements from the innermost on. -/
def record (opened : List Tag) : List Tag :=
  (recordIn maxRoom opened.reverse).reverse

/-- Whether the search for an open element takes one for another: elements that are none of the
standard all count as one kind there. -/
def isLike (tag other : Tag) : Bool :=
  tag == other || (tag.isCustom && other.isCustom)

/-- Whether an element may stay open until the text ends. -/
def endsWithText (tag : Tag) : Bool :=
  tag.isVoid || ["html", "head", "body", "colgroup"].contains tag.name

/-- Whether an element can go on when another starts inside it. -/
def canContain (tag inner : Tag) : Bool :=
  match tag.name with
  | "li" => inner.name != "li"
  | "dt" | "dd" => !(["dt", "dd"].contains inner.name)
  | "p" => !paragraphEnders.contains inner.name
  | "colgroup" => inner.name == "col"
  | "rb" | "rt" | "rp" => !(["rb", "rt", "rp"].contains inner.name)
  | "optgroup" => inner.name != "optgroup"
  | "tr" => inner.name != "tr"
  | "td" | "th" => !(["td", "th", "tr"].contains inner.name)
  | _ => true

end Tag

end StyleMigration.Markup
