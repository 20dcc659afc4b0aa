import StyleMigration.Markup.Repair.Grammar
import StyleMigration.Markup.Repair.Tree

/-!
Stacks of trees. Two stacks that end in the same state at the same place are kept as one stack with
several ways down, so a stack stands for all the ways in which the text before it was read.
-/

set_option autoImplicit false

namespace StyleMigration.Markup.Repair

/-- The top of a stack: its state and place, and the cost, the number of visible nodes and the
number of levels of what is below. -/
structure Top where
  state : State
  place : Place
  cost : Nat
  count : Nat
  height : Nat

/-- A stack: its top, and each tree that can stand there with the stack below it. No tree stands
where reading broke off. -/
inductive Stack where
  | mk (top : Top) (ways : List (Option Tree × Stack))

namespace Stack

def top : Stack → Top
  | mk top _ => top

/-- The ways down. -/
def ways : Stack → List (Option Tree × Stack)
  | mk _ ways => ways

def empty (place : Place) : Stack :=
  mk ⟨.start, place, 0, 0, 0⟩ []

/-- Puts a tree on a stack, or with no tree marks that reading broke off there. -/
def push (stack : Stack) (tree? : Option Tree) (state : State) : Stack :=
  let top := stack.top
  mk ⟨state, (tree?.map Tree.stop).getD top.place, top.cost + (tree?.map Tree.cost).getD 0,
    top.count + (tree?.map Tree.weight).getD 0, top.height + 1⟩ [(tree?, stack)]

/-- Puts some trees on a stack one after the other, all with the same state after them. -/
def pushAll (stack : Stack) (trees : List Tree) (state : State) : Stack :=
  trees.foldl (fun stack tree => stack.push (some tree) state) stack

/-- Whether two stacks end alike, so that they can be kept as one. -/
def endsLike (stack other : Stack) : Bool :=
  stack.top.state = other.top.state && stack.top.place.offset = other.top.place.offset &&
    stack.top.cost = other.top.cost

/-- Whether two stacks are taken to be the same. -/
def isSame (stack other : Stack) : Bool :=
  stack.endsLike other && stack.top.count = other.top.count &&
    stack.top.height = other.top.height && stack.ways.length = other.ways.length

/-- A stack has at most so many ways down. -/
def maxWays : Nat := 8

/-- Whether the trees of two ways down can stand for each other. -/
def sameTree : Option Tree → Option Tree → Bool
  | none, none => true
  | some tree, some other => tree.isLike other
  | _, _ => false

/-- Adds a way down to a stack. If one with the same tree is there, the stacks below them are joined
instead. `fuel` bounds how far down that goes. -/
def addWay : (fuel : Nat) → Stack → Option Tree × Stack → Stack
  | 0, stack, _ => stack
  | fuel + 1, mk top ways, (tree?, under) =>
    let fits (way : Option Tree × Stack) : Bool := sameTree way.1 tree? && way.2.endsLike under
    if (mk top ways).isSame under then
      mk top ways
    else
      match ways.findIdx? fits with
      | some index =>
        let ways := ways.modify index fun (tree?', under') =>
          (tree?', if under'.isSame under then under' else under.ways.foldl (addWay fuel) under')
        let height := ways.foldl (fun height way => max height (way.2.top.height + 1)) top.height
        mk { top with height } ways
      | none =>
        if maxWays ≤ ways.length then
          mk top ways
        else
          let count := max top.count (under.top.count + (tree?.map Tree.weight).getD 0)
          let height := max top.height (under.top.height + 1)
          mk { top with count, height } (ways ++ [(tree?, under)])

/-- Joins two stacks that end alike. -/
def join (stack other : Stack) : Stack :=
  other.ways.foldl (addWay (stack.top.height + other.top.height)) stack

/-- A way down a stack: what is left of it, the trees passed in the order of the text, and how many
of them are no extra ones. -/
structure Descent where
  stack : Stack
  trees : List Tree
  depth : Nat

namespace Descent

def ofStack (stack : Stack) : Descent :=
  ⟨stack, [], 0⟩

/-- The ways one level down. -/
def steps (descent : Descent) : List Descent :=
  descent.stack.ways.map fun
    | (some tree, under) =>
      ⟨under, tree :: descent.trees, if tree.isExtra then descent.depth else descent.depth + 1⟩
    | (none, under) => ⟨under, descent.trees, descent.depth + 1⟩

/-- At most so many ways are followed at once. -/
def maxDescents : Nat := 64

/-- The ways one level down from several, the first one of each before all others. -/
def stepAll (descents : List Descent) : List Descent :=
  let steps := descents.map Descent.steps
  let firsts := steps.filterMap List.head?
  firsts ++ (steps.flatMap List.tail).take (maxDescents - firsts.length)

/-- All the ways down, level by level, as far as `goesOn` lets them go. -/
def all (goesOn : Descent → Bool) : (fuel : Nat) → List Descent → List Descent
  | 0, _ => []
  | fuel + 1, descents =>
    if descents.isEmpty then []
    else descents ++ all goesOn fuel (stepAll (descents.filter goesOn))

end Descent

/-- The ways down a stack that pass so many trees, the extra ones not counted. -/
def descentsTo (stack : Stack) (depth : Nat) : List Descent :=
  (Descent.all (·.depth < depth) (stack.top.height + 1) [.ofStack stack]).filter (·.depth = depth)

/-- The ways down a stack to its bottom. -/
def descentsToBottom (stack : Stack) : List Descent :=
  (Descent.all (fun _ => true) (stack.top.height + 1) [.ofStack stack]).filter
    (·.stack.ways.isEmpty)

/-- Some ways down in groups by the stack they lead to. -/
def groups (descents : List Descent) : List (Stack × List (List Tree)) :=
  descents.foldl (fun groups descent =>
    match groups.findIdx? fun group => group.1.isSame descent.stack with
    | some index => groups.modify index fun (stack, rows) => (stack, rows ++ [descent.trees])
    | none => groups ++ [(descent.stack, [descent.trees])]) []

/-- A place in a stack to which reading can go back. -/
structure Resort where
  state : State
  place : Place
  depth : Nat

/-- Reading goes back over at most so many trees. -/
def maxResortDepth : Nat := 16

/-- The places in a stack to which reading can go back, one for each state and depth. -/
def resorts (stack : Stack) : List Resort :=
  let descents := Descent.all (·.depth ≤ maxResortDepth) (stack.top.height + 1) [.ofStack stack]
  let reached := descents.filter (·.depth ≤ maxResortDepth)
  reached.foldl (fun resorts descent =>
    let top := descent.stack.top
    if resorts.any fun resort => resort.depth = descent.depth && resort.state = top.state then
      resorts
    else
      resorts ++ [⟨top.state, top.place, descent.depth⟩]) []

/-- A stack without the broken node on its top, and what was in it. -/
def popBroken? (stack : Stack) : Option (List Tree × Stack) :=
  stack.ways.findSome? fun
    | (some tree, under) => if tree.isKind .broken then some (tree.children, under) else none
    | (none, _) => none

/-- Whether nothing but a mark that reading broke off is on the top of a stack. -/
def isBrokenOff (stack : Stack) : Bool :=
  stack.top.state = .broken && stack.ways.head?.any fun way => way.1.isNone

/-- Whether some text was read after the last fault, at which `count` visible nodes were there. -/
def hasAdvanced (count : Nat) : (fuel : Nat) → Stack → Bool
  | 0, _ => false
  | fuel + 1, mk top ways =>
    match ways.head? with
    | some (some tree, under) =>
      under.top.place.offset < tree.stop.offset ||
        (count < top.count && tree.cost = 0 && hasAdvanced count fuel under)
    | _ => false

end Stack

end StyleMigration.Markup.Repair
