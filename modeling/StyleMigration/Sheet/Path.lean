import StyleMigration.Sheet.Basic

/-!
Places in a stylesheet. A node is named by the places of the nodes that lead to it: the first in
the top list, each further one in the body of the group before.
-/

set_option autoImplicit false

namespace StyleMigration.Sheet

/-- The node at a place. -/
def nodeAt? (nodes : List Node) : List Nat → Option Node
  | [] => none
  | place :: places =>
    match nodes[place]?, places with
    | none, _ => none
    | some node, [] => some node
    | some (.group _ _ body), places => nodeAt? body places
    | some (.text _), _ :: _ => none

/-- The list of nodes at a place: the top list, or the body of the group there. -/
def bodyAt? (nodes : List Node) (places : List Nat) : Option (List Node) :=
  match places with
  | [] => some nodes
  | places =>
    match nodeAt? nodes places with
    | some (.group _ _ body) => some body
    | _ => none

/-- Puts other nodes in the place of the one there. -/
def replaceAt (nodes : List Node) (others : List Node) : List Nat → List Node
  | [] => nodes
  | place :: places =>
    match nodes[place]?, places with
    | none, _ => nodes
    | some _, [] => nodes.take place ++ others ++ nodes.drop (place + 1)
    | some (.group header enclosure body), places =>
      nodes.set place (.group header enclosure (replaceAt body others places))
    | some (.text _), _ :: _ => nodes

/-- Puts another list in the place of the one there. -/
def setBodyAt (nodes : List Node) (body : List Node) (places : List Nat) : List Node :=
  match places with
  | [] => body
  | places =>
    match nodeAt? nodes places with
    | some (.group header enclosure _) => replaceAt nodes [.group header enclosure body] places
    | _ => nodes

end StyleMigration.Sheet
