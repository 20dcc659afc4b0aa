import StyleMigration.Selector.Deep

/-!
A selector as a table of nodes that can be edited in place. Nodes are named by their position in
the table and never removed; node 0 is the root. A node lists its children and remembers one
parent. The lists may be changed at will, so a node can come to stand in two lists, while its
parent is the node whose list was set last. Writing a table follows the lists, replacing a node
follows its parent.
-/

set_option autoImplicit false

namespace StyleMigration.Selector

structure Entry where
  kind : Kind
  parent : Option Nat
  children : List Nat

structure Table where
  entries : Array Entry

namespace Table

/-- The kind of a node; what is no node counts as a root without children. -/
def kind (table : Table) (node : Nat) : Kind :=
  (table.entries[node]?.map (·.kind)).getD .root

def children (table : Table) (node : Nat) : List Nat :=
  (table.entries[node]?.map (·.children)).getD []

def parent (table : Table) (node : Nat) : Option Nat :=
  (table.entries[node]?).bind (·.parent)

/-- The place of a node in the list of its parent. -/
def index (table : Table) (node : Nat) : Option Nat :=
  (table.parent node).bind fun parent => (table.children parent).idxOf? node

/-- The node after a node in the list of its parent. -/
def next (table : Table) (node : Nat) : Option Nat :=
  (table.parent node).bind fun parent =>
    (table.index node).bind fun place => (table.children parent)[place + 1]?

/-- A new node without parent and children. -/
def alloc (table : Table) (kind : Kind) : Nat × Table :=
  (table.entries.size, ⟨table.entries.push ⟨kind, none, []⟩⟩)

/-- New nodes of the given kinds, in order. -/
def allocAll (table : Table) : List Kind → List Nat × Table
  | [] => ([], table)
  | kind :: kinds =>
    let (node, table) := table.alloc kind
    let (nodes, table) := table.allocAll kinds
    (node :: nodes, table)

def setParent (table : Table) (node : Nat) (parent : Option Nat) : Table :=
  ⟨table.entries.modify node fun entry => { entry with parent }⟩

/-- Gives a node a new list of children. The old ones that had it as parent lose their parent
first, then all new ones get it. -/
def setChildren (table : Table) (parent : Nat) (children : List Nat) : Table :=
  let released := (table.children parent).foldl
    (fun table child =>
      if table.parent child = some parent then table.setParent child none else table) table
  let linked := children.foldl (fun table child => table.setParent child (some parent)) released
  ⟨linked.entries.modify parent fun entry => { entry with children }⟩

def root : Nat := 0

/-- The children of the root. -/
def branches (table : Table) : List Nat :=
  table.children root

/-- A node and all below it, less than `depth` deep, each before its children. -/
def preorder (table : Table) : Nat → Nat → List Nat
  | 0, _ => []
  | depth + 1, node => node :: (table.children node).flatMap (table.preorder depth)

/-- The root and all below it. Without a cycle no path is longer than the table. -/
def descendants (table : Table) : List Nat :=
  table.preorder table.entries.size root

/-- The text of a node and of what is below it less than `depth` deep. -/
def textWithin (table : Table) : Nat → Nat → List Char
  | 0, _ => []
  | depth + 1, node =>
    let texts := (table.children node).map (table.textWithin depth)
    match table.kind node with
    | .root => [','].intercalate texts
    | .branch before after => before ++ texts.flatten ++ after
    | .leaf leaf => leaf.text
    | .list value => value ++ ['('] ++ [','].intercalate texts ++ [')']

def text (table : Table) : List Char :=
  table.textWithin table.entries.size root

/-- Whether a node is a combinator with one of the given values. -/
def isCombinator (table : Table) (node : Nat) (values : List (List Char)) : Bool :=
  match table.kind node with
  | .leaf (.combinator value _) => values.contains value
  | _ => false

/-- Whether a node is a legacy combinator. -/
def isLegacy (table : Table) (node : Nat) : Bool :=
  match table.kind node with
  | .leaf leaf => leaf.isLegacy
  | _ => false

/-- Puts `:deep` in the place of a node, set off from its neighbours. -/
def modernizeAt (table : Table) (node : Nat) : Table :=
  match table.parent node with
  | none => table
  | some parent =>
    let siblings := table.children parent
    match siblings.idxOf? node with
    | none => table
    | some place =>
      let kinds := (deepInPlace (place == 0) (place + 1 == siblings.length)).map Kind.leaf
      let (nodes, table) := table.allocAll kinds
      table.setChildren parent (siblings.take place ++ nodes ++ siblings.drop (place + 1))

/-- Replaces every legacy combinator, in the order of the text. -/
def modernize (table : Table) : Table :=
  (table.descendants.filter table.isLegacy).foldl modernizeAt table

/-- Hoists the argument of a `:deep` at the end of a node's list. -/
def hoist (table : Table) (branch : Nat) : Hoisting × Table :=
  let siblings := table.children branch
  match siblings.getLast? with
  | none => (.needless, table)
  | some last =>
    match table.kind last with
    | .leaf (.pseudo value) | .leaf (.function value _) =>
      (if value = deepValue then .impossible else .needless, table)
    | .list value =>
      if value = deepValue then
        match table.children last with
        | [argument] =>
          let (nodes, table) := table.allocAll [.leaf deep, .leaf descendant]
          (.done, table.setChildren branch (siblings.dropLast ++ nodes ++ table.children argument))
        | _ => (.impossible, table)
      else
        (.needless, table)
    | _ => (.needless, table)

mutual

/-- Adds a branch with all its parts. -/
def addBranch (table : Table) : Branch → Nat × Table
  | .mk before parts after =>
    let (node, table) := table.alloc (.branch before after)
    let (nodes, table) := addParts table parts
    (node, table.setChildren node nodes)

def addPart (table : Table) : Part → Nat × Table
  | .leaf leaf => table.alloc (.leaf leaf)
  | .list value branches =>
    let (node, table) := table.alloc (.list value)
    let (nodes, table) := addList table branches
    (node, table.setChildren node nodes)

def addParts (table : Table) : List Part → List Nat × Table
  | [] => ([], table)
  | part :: parts =>
    let (node, table) := addPart table part
    let (nodes, table) := addParts table parts
    (node :: nodes, table)

def addList (table : Table) : List Branch → List Nat × Table
  | [] => ([], table)
  | branch :: branches =>
    let (node, table) := addBranch table branch
    let (nodes, table) := addList table branches
    (node :: nodes, table)

end

/-- The table of a selector list. -/
def ofList (branches : List Branch) : Table :=
  let (root, table) := alloc ⟨#[]⟩ .root
  let (nodes, table) := addList table branches
  table.setChildren root nodes

end Table

end StyleMigration.Selector
