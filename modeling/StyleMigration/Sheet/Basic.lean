/-!
Stylesheets as trees. Only what carries selectors is structured: a group has a header and a body,
and is a style rule or another block by its header. All else is text. A group keeps the delimiters
it was read with, so a tree is written back by writing its nodes in order.
-/

set_option autoImplicit false

namespace StyleMigration.Sheet

/-- What stands before the body of a group. -/
inductive Header where
  /-- A style rule: its selector with the text before it and between it and the body. -/
  | rule (before selector between : List Char)
  /-- An at-rule or a nested property. -/
  | block (text : List Char)
  deriving DecidableEq, Repr

def Header.text : Header → List Char
  | rule before selector between => before ++ selector ++ between
  | block text => text

/-- How the body of a group is marked off. -/
inductive Enclosure where
  | indented
  | braces
  /-- An opening brace that is never closed. -/
  | openBrace
  deriving DecidableEq, Repr

namespace Enclosure

def opening : Enclosure → List Char
  | indented => []
  | braces | openBrace => ['{']

def closing : Enclosure → List Char
  | indented | openBrace => []
  | braces => ['}']

end Enclosure

inductive Node where
  | text (text : List Char)
  | group (header : Header) (enclosure : Enclosure) (body : List Node)

mutual

def Node.print : Node → List Char
  | .text text => text
  | .group header enclosure body =>
    header.text ++ enclosure.opening ++ print body ++ enclosure.closing

/-- The text of a list of nodes. -/
def print : List Node → List Char
  | [] => []
  | node :: nodes => node.print ++ print nodes

end

/-- The selector of a style rule. -/
def Node.selector? : Node → Option (List Char)
  | .group (.rule _ selector _) _ _ => some selector
  | _ => none

/-- The selectors of the style rules in a list of nodes, those inside other nodes left out. -/
def selectors (nodes : List Node) : List (List Char) :=
  nodes.filterMap Node.selector?

mutual

/-- A node and all inside it in the order of the text, each with its depth. -/
def Node.outline (depth : Nat) : Node → List (Nat × Node)
  | .text text => [(depth, .text text)]
  | .group header enclosure body =>
    (depth, .group header enclosure body) :: outline (depth + 1) body

/-- The nodes of a list and all inside them in the order of the text, each with its depth. -/
def outline (depth : Nat) : List Node → List (Nat × Node)
  | [] => []
  | node :: nodes => node.outline depth ++ outline depth nodes

end

/-- The nodes of a tree under construction: those of the level that is open now, and for each group
around it the mark it was opened with, its header, and the nodes before it. All lists of nodes are
in reverse. -/
structure Outline (Mark : Type) where
  nodes : List Node
  around : List (Mark × Header × List Node)

namespace Outline

variable {Mark : Type}

def empty : Outline Mark := ⟨[], []⟩

/-- Adds a node to the open level. -/
def add (outline : Outline Mark) (node : Node) : Outline Mark :=
  { outline with nodes := node :: outline.nodes }

/-- Opens a group on the open level. -/
def enter (outline : Outline Mark) (mark : Mark) (header : Header) : Outline Mark :=
  ⟨[], (mark, header, outline.nodes) :: outline.around⟩

/-- Closes the innermost group; without one, nothing changes. -/
def leave (outline : Outline Mark) (enclosure : Enclosure) : Outline Mark :=
  match outline.around with
  | [] => outline
  | (_, header, before) :: around =>
    ⟨.group header enclosure outline.nodes.reverse :: before, around⟩

/-- Closes groups from the inside for as long as their mark asks for it. -/
def leaveWhile (outline : Outline Mark) (enclosure : Enclosure) (leaves : Mark → Bool) :
    Outline Mark :=
  go outline.nodes outline.around
where
  go (nodes : List Node) : List (Mark × Header × List Node) → Outline Mark
    | [] => ⟨nodes, []⟩
    | (mark, header, before) :: around =>
      if leaves mark then go (.group header enclosure nodes.reverse :: before) around
      else ⟨nodes, (mark, header, before) :: around⟩

/-- The nodes of the top level, once every open group is closed. -/
def finish (outline : Outline Mark) (enclosure : Enclosure) : List Node :=
  (outline.leaveWhile enclosure fun _ => true).nodes.reverse

end Outline

end StyleMigration.Sheet
