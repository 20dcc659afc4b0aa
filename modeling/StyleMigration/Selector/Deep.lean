import StyleMigration.Selector.Reader

/-!
Deep selectors. The legacy combinators `>>>` and `/deep/` become the pseudo-class `:deep`, set off
by descendant combinators from what stands beside it. A branch that ends on `:deep(x)` can have its
argument hoisted, which leaves `:deep x`: only so can a nested rule append to the last name.
-/

set_option autoImplicit false

namespace StyleMigration.Selector

/-- Whether a leaf is one of the combinators that `:deep` took the place of. -/
def Leaf.isLegacy : Leaf → Bool
  | combinator value _ => value == ['>', '>', '>'] || value == ['/', 'd', 'e', 'e', 'p', '/']
  | _ => false

/-- The value of the pseudo-class that reaches into child components. -/
def deepValue : List Char := [':', 'd', 'e', 'e', 'p']

/-- A descendant combinator written as one space. -/
def descendant : Leaf := .combinator [' '] [' ']

def deep : Leaf := .pseudo deepValue

/-- What a legacy combinator becomes, by whether it is the first and the last of its branch. -/
def deepInPlace (first last : Bool) : List Leaf :=
  (if first then [] else [descendant]) ++ [deep] ++ (if last then [] else [descendant])

mutual

/-- A branch with every legacy combinator at any depth replaced. -/
def Branch.modernize : Branch → Branch
  | .mk before parts after => .mk before (modernizeParts true parts) after

/-- Parts with every legacy combinator replaced, where `first` says whether they start a branch. -/
def modernizeParts (first : Bool) : List Part → List Part
  | [] => []
  | .leaf leaf :: parts =>
    (if leaf.isLegacy then (deepInPlace first parts.isEmpty).map .leaf else [.leaf leaf]) ++
      modernizeParts false parts
  | .list value branches :: parts =>
    .list value (modernizeList branches) :: modernizeParts false parts

/-- A selector list with every legacy combinator at any depth replaced. -/
def modernizeList : List Branch → List Branch
  | [] => []
  | branch :: branches => branch.modernize :: modernizeList branches

end

/-- What hoisting did to a branch. -/
inductive Hoisting where
  /-- The branch does not end on `:deep`, and is as it was. -/
  | needless
  /-- The argument stands after `:deep` now. -/
  | done
  /-- The branch ends on a `:deep` without exactly one argument, and is as it was. -/
  | impossible
  deriving DecidableEq, Repr

/-- Hoists the argument of a `:deep` at the end of a branch. -/
def Branch.hoist : Branch → Hoisting × Branch
  | .mk before parts after =>
    let branch := .mk before parts after
    match parts.getLast? with
    | some (.leaf (.pseudo value)) => (if value = deepValue then .impossible else .needless, branch)
    | some (.leaf (.function value _)) =>
      (if value = deepValue then .impossible else .needless, branch)
    | some (.list value [argument]) =>
      if value = deepValue then
        let hoisted := parts.dropLast ++ [.leaf deep, .leaf descendant] ++ argument.parts
        (.done, .mk before hoisted after)
      else
        (.needless, branch)
    | some (.list value _) => (if value = deepValue then .impossible else .needless, branch)
    | _ => (.needless, branch)

/-- Whether the first of some parts is a tag. -/
def startsWithTag : List Part → Bool
  | .leaf (.tag _) :: _ => true
  | _ => false

mutual

/-- Whether a tag directly follows the nesting sign somewhere in a branch. -/
def Branch.isConcatenating : Branch → Bool
  | .mk _ parts _ => partsConcatenate parts

def partsConcatenate : List Part → Bool
  | [] => false
  | .leaf leaf :: parts => (leaf == .nesting && startsWithTag parts) || partsConcatenate parts
  | .list _ branches :: parts => listConcatenates branches || partsConcatenate parts

def listConcatenates : List Branch → Bool
  | [] => false
  | branch :: branches => branch.isConcatenating || listConcatenates branches

end

/-- Whether a selector text has the nesting sign with a tag glued to it, as in `&-suffix`. -/
def isConcatenating (text : List Char) : Bool :=
  listConcatenates (read text)

end StyleMigration.Selector
