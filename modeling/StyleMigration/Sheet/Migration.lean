import StyleMigration.Selector.Deep
import StyleMigration.Sheet.Reader

/-!
Migration of the selectors in a stylesheet. Each rule gets its legacy combinators replaced. A rule
with a direct child that appends to the parent's last name also has the arguments of `:deep`
hoisted; where that is impossible for every branch the appending children are dropped, and where it
is for some but not all of them the rule is ambiguous and the migration stops there.
-/

set_option autoImplicit false

namespace StyleMigration.Sheet

open Selector

/-- A rule of which some but not all selectors end on `:deep` without exactly one argument. -/
structure Ambiguity where
  selector : List Char
  deriving DecidableEq, Repr

def Ambiguity.message (ambiguity : Ambiguity) : String :=
  "some but not all selectors end on a deep pseudo-class, cannot fix automatically: " ++
    String.ofList ambiguity.selector

/-- What becomes of a rule: its selector, and whether its appending children go. -/
structure RuleChange where
  selector : List Char
  drops : Bool
  deriving DecidableEq, Repr

/-- The change of a rule, from its selector and those of its direct child rules. -/
def ruleChange (selector : List Char) (children : List (List Char)) :
    Except Ambiguity RuleChange :=
  let branches := modernizeList (Selector.read selector)
  if children.any isConcatenating then
    let hoisted := branches.map Branch.hoist
    let text := listText (hoisted.map (·.2))
    let impossible := (hoisted.filter fun result => result.1 = .impossible).length
    if 0 < impossible ∧ impossible < hoisted.length then .error ⟨text⟩
    else .ok ⟨text, 0 < impossible⟩
  else
    .ok ⟨listText branches, false⟩

/-- Whether a node is a rule that appends to the last name of the rule around it. -/
def Node.isAppending (node : Node) : Bool :=
  node.selector?.any isConcatenating

/-- What a rule keeps of its body. -/
def kept (drops : Bool) (body : List Node) : List Node :=
  if drops then body.filter fun node => !node.isAppending else body

/-- Changes one rule and leaves the rules inside it alone. Other nodes stay as they are. -/
def Node.migrateRule : Node → Except Ambiguity Node
  | .group (.rule before selector between) enclosure body => do
    let change ← ruleChange selector (selectors body)
    return .group (.rule before change.selector between) enclosure (kept change.drops body)
  | node => .ok node

/-- Nodes after a migration, and why it stopped if it did. What comes before the rule it stopped at
is changed, and all after it is as it was, but for the children dropped on the way there. -/
structure Migrated (α : Type) where
  result : α
  stopped : Option Ambiguity

mutual

/-- Changes a node and all rules inside it, each before those inside it. -/
def Node.migrate : Node → Migrated Node
  | .text text => ⟨.text text, none⟩
  | .group (.block text) enclosure body =>
    let inner := migrateAll false body
    ⟨.group (.block text) enclosure inner.result, inner.stopped⟩
  | .group (.rule before selector between) enclosure body =>
    match ruleChange selector (selectors body) with
    | .error ambiguity => ⟨.group (.rule before selector between) enclosure body, some ambiguity⟩
    | .ok change =>
      let inner := migrateAll change.drops body
      ⟨.group (.rule before change.selector between) enclosure inner.result, inner.stopped⟩

/-- Changes the nodes of a body. If the rule around them `drops` its appending children, those are
gone and are not looked into. -/
def migrateAll (drops : Bool) : List Node → Migrated (List Node)
  | [] => ⟨[], none⟩
  | node :: nodes =>
    if drops && node.isAppending then
      migrateAll drops nodes
    else
      let first := node.migrate
      match first.stopped with
      | some ambiguity => ⟨first.result :: kept drops nodes, some ambiguity⟩
      | none =>
        let others := migrateAll drops nodes
        ⟨first.result :: others.result, others.stopped⟩

end

/-- The text of a stylesheet with its selectors migrated. -/
def migrate (language : Language) (text : List Char) : Except Ambiguity (List Char) :=
  let migrated := migrateAll false (read language text)
  match migrated.stopped with
  | some ambiguity => .error ambiguity
  | none => .ok (print migrated.result)

end StyleMigration.Sheet
