import StyleMigration.Instances
import StyleMigration.Markup.Repair.Place
import StyleMigration.Markup.Repair.Symbol

/-!
Trees of tokens, with what it costs that a tree holds broken parts. Of two ways to read a text the
one that costs less is taken.
-/

set_option autoImplicit false

namespace StyleMigration.Markup.Repair

-- What the repair of a text costs.
namespace Cost

/-- A part that could not be read, or a stop at something that does not fit. -/
def fault : Nat := 500

/-- A token that is taken to be there. -/
def missing : Nat := 110 + fault

/-- A node that was read and then left out. -/
def leftOut : Nat := 100

/-- The text between two places that was left out. -/
def between (start stop : Place) : Nat :=
  (stop.offset - start.offset) + 30 * (stop.row - start.row)

end Cost

/-- What is known of a node: where it stands, what it costs, and how many of its children and of all
nodes below it are visible. -/
structure Measure where
  start : Place
  stop : Place
  cost : Nat
  visibleChildren : Nat
  visibleBelow : Nat

inductive Tree where
  /-- A token with the elements that are open after it, as far as it depends on them. -/
  | leaf (token : Token) (start stop : Place) (opened : List Tag) (isExtra isMissing : Bool)
  | node (kind : Kind) (children : List Tree) (isExtra : Bool) (size : Measure)

namespace Tree

def start : Tree → Place
  | leaf _ start _ _ _ _ => start
  | node _ _ _ size => size.start

def stop : Tree → Place
  | leaf _ _ stop _ _ _ => stop
  | node _ _ _ size => size.stop

def cost : Tree → Nat
  | leaf _ _ _ _ _ isMissing => if isMissing then Cost.missing else 0
  | node _ _ _ size => size.cost

/-- Whether a tree stands between the parts of a node and is none of them. -/
def isExtra : Tree → Bool
  | leaf _ _ _ _ isExtra _ => isExtra
  | node _ _ isExtra _ => isExtra

def children : Tree → List Tree
  | leaf _ _ _ _ _ _ => []
  | node _ children _ _ => children

def isVisible : Tree → Bool
  | leaf token _ _ _ _ _ => token.isVisible
  | node kind _ _ _ => kind.isVisible

def visibleChildren : Tree → Nat
  | leaf _ _ _ _ _ _ => 0
  | node _ _ _ size => size.visibleChildren

def visibleBelow : Tree → Nat
  | leaf _ _ _ _ _ _ => 0
  | node _ _ _ size => size.visibleBelow

/-- Whether a tree is a node of a kind. -/
def isKind (kind : Kind) : Tree → Bool
  | leaf _ _ _ _ _ _ => false
  | node kind' _ _ _ => kind' == kind

/-- Characters or nothing at all that could not be read. -/
def isBlank : Tree → Bool
  | leaf token _ _ _ _ _ => token == .unknown
  | node kind children _ _ => kind == .broken && children.isEmpty

/-- The number of visible nodes in a tree, where a row of broken tokens counts as one more. -/
def weight (tree : Tree) : Nat :=
  tree.visibleBelow + (if tree.isVisible || tree.isKind .brokenList then 1 else 0)

/-- The visible nodes on the top level of a tree. -/
def visibleSize (tree : Tree) : Nat :=
  if tree.isVisible then 1 else tree.visibleChildren

/-- What a child adds to the cost of a node: its own cost, which a row of broken tokens hands over
to the node around it, and in a broken node also what is left out. -/
def costIn (kind : Kind) (tree : Tree) : Nat :=
  (if tree.isKind .brokenList then 0 else tree.cost) +
    (if kind.isBroken && !tree.isExtra && !tree.isBlank then Cost.leftOut * tree.visibleSize else 0)

/-- A node of a kind; without children it stands at `place`. -/
def ofChildren (kind : Kind) (children : List Tree) (place : Place) : Tree :=
  let start := (children.head?.map Tree.start).getD place
  let stop := (children.getLast?.map Tree.stop).getD place
  let own := if kind.isBroken then Cost.fault + Cost.between start stop else 0
  node kind children false
    { start, stop
      cost := own + (children.map (costIn kind)).sum
      visibleChildren := (children.map visibleSize).sum
      visibleBelow := (children.map fun child =>
        child.visibleBelow + if child.isVisible then 1 else 0).sum }

/-- A tree between the parts of a node. -/
def asExtra : Tree → Tree
  | leaf token start stop opened _ isMissing => leaf token start stop opened true isMissing
  | node kind children _ size => node kind children true size

/-- The trees without the extra ones at their end, and those. -/
def splitExtras (trees : List Tree) : List Tree × List Tree :=
  let extras := (trees.reverse.takeWhile isExtra).reverse
  (trees.take (trees.length - extras.length), extras)

/-- The length of a tree in bytes. -/
def length (tree : Tree) : Nat :=
  tree.stop.offset - tree.start.offset

/-- Whether two trees are made of the same symbol. -/
def sameSymbol : Tree → Tree → Bool
  | leaf .unknown _ _ _ _ _, other => other.isKind .broken || other.isBlank
  | tree, leaf .unknown _ _ _ _ _ => tree.isKind .broken
  | leaf token _ _ _ _ _, leaf token' _ _ _ _ _ => token == token'
  | node kind _ _ _, node kind' _ _ _ => kind == kind'
  | _, _ => false

/-- The open elements that a token depends on. -/
def opened : Tree → List Tag
  | leaf _ _ _ opened _ _ => opened
  | node _ _ _ _ => []

/-- Whether one of two trees can stand for the other. -/
def isLike (tree other : Tree) : Bool :=
  tree.sameSymbol other &&
    ((0 < tree.cost && 0 < other.cost) ||
      (tree.length == other.length && tree.children.length == other.children.length &&
        tree.isExtra == other.isExtra && tree.opened == other.opened))

/-- Whether a tree should give way to another one for the same text. -/
def yieldsTo (tree other : Tree) : Bool :=
  other.cost < tree.cost || (tree.cost = other.cost && 0 < tree.cost)

end Tree

end StyleMigration.Markup.Repair
