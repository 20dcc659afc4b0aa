import StyleMigration.Sheet.Migration

/-!
Declarations and rules apart from how they are written. A forest of them can be written in braces or by
indentation (`braced`, `indented`), and its selectors can be migrated without a look at any writing
(`rewriteAll`). A layout says what surrounds an entry in a tree that was read. To migrate the tree that a
layout makes of a forest is to rewrite the forest (`outcome_migrateAll_nodes`): the texts of a layout are
left alone, and whether a child goes depends on its selector only.
-/

set_option autoImplicit false

namespace StyleMigration.Sheet

open Selector

/-- A declaration, or a rule with what is in it. -/
inductive Entry where
  | declaration (text : List Char)
  | rule (selector : List Char) (body : List Entry)

/-! ### Writing a forest -/

/-- Two spaces for each level. -/
def indentation (depth : Nat) : List Char :=
  List.replicate (2 * depth) ' '

mutual

def Entry.braced (depth : Nat) : Entry → List Char
  | .declaration text => indentation depth ++ text ++ [';', '\n']
  | .rule selector body =>
    indentation depth ++ selector ++ [' ', '{', '\n'] ++ braced (depth + 1) body ++
      indentation depth ++ ['}', '\n']

/-- Entries in braces, each from a new line on. -/
def braced (depth : Nat) : List Entry → List Char
  | [] => []
  | entry :: entries => entry.braced depth ++ braced depth entries

end

mutual

def Entry.indented (depth : Nat) : Entry → List Char
  | .declaration text => indentation depth ++ text ++ ['\n']
  | .rule selector body =>
    indentation depth ++ selector ++ ['\n'] ++ indented (depth + 1) body

/-- Entries by indentation, each from a new line on. -/
def indented (depth : Nat) : List Entry → List Char
  | [] => []
  | entry :: entries => entry.indented depth ++ indented depth entries

end

/-! ### Rewriting a forest -/

def Entry.selector? : Entry → Option (List Char)
  | .declaration _ => none
  | .rule selector _ => some selector

/-- Whether an entry is a rule that appends to the last name of the rule around it. -/
def Entry.isAppending (entry : Entry) : Bool :=
  entry.selector?.any isConcatenating

mutual

def Entry.rewrite : Entry → Except Ambiguity Entry
  | .declaration text => .ok (.declaration text)
  | .rule selector body => do
    let change ← ruleChange selector (body.filterMap Entry.selector?)
    let body ← rewriteAll change.drops body
    return .rule change.selector body

/-- Entries with their selectors migrated, without those that append if the rule around them `drops`
them. -/
def rewriteAll (drops : Bool) : List Entry → Except Ambiguity (List Entry)
  | [] => .ok []
  | entry :: entries =>
    if drops && entry.isAppending then rewriteAll drops entries
    else do
      let first ← entry.rewrite
      let others ← rewriteAll drops entries
      return first :: others

end

/-! ### Trees of a forest -/

/-- What surrounds the entries of a forest in a tree. -/
structure Layout where
  /-- What stands before an entry of a level, but perhaps for the first one. -/
  lead : Nat → List Char
  /-- What ends a declaration. -/
  stop : List Char
  /-- What stands between a selector and the body. -/
  between : List Char
  enclosure : Enclosure
  /-- The texts at the end of the body of a rule on a level. -/
  ending : Nat → List (List Char)

mutual

def Entry.node (layout : Layout) (depth : Nat) (lead : List Char) : Entry → Node
  | .declaration text => .text (lead ++ text ++ layout.stop)
  | .rule selector body =>
    .group (.rule lead selector layout.between) layout.enclosure
      (nodes layout (depth + 1) (layout.lead (depth + 1)) body ++ (layout.ending depth).map .text)

/-- The nodes that a layout makes of the entries of a level, the first of them with a lead of its own. -/
def nodes (layout : Layout) (depth : Nat) (lead : List Char) : List Entry → List Node
  | [] => []
  | entry :: entries =>
    entry.node layout depth lead :: nodes layout depth (layout.lead depth) entries

end

section Layout

variable (layout : Layout) (depth : Nat) (lead : List Char)

theorem Entry.selector?_node (entry : Entry) :
    (entry.node layout depth lead).selector? = entry.selector? := by
  cases entry with
  | declaration text => simp only [Entry.node, Node.selector?, Entry.selector?]
  | rule selector body => simp only [Entry.node, Node.selector?, Entry.selector?]

theorem Entry.isAppending_node (entry : Entry) :
    (entry.node layout depth lead).isAppending = entry.isAppending := by
  rw [Node.isAppending, Entry.selector?_node, Entry.isAppending]

theorem selectors_nodes (entries : List Entry) (texts : List (List Char)) :
    selectors (nodes layout depth lead entries ++ texts.map .text) =
      entries.filterMap Entry.selector? := by
  have htexts : selectors (texts.map .text) = [] := by
    rw [selectors, List.filterMap_map, List.filterMap_eq_nil_iff]
    exact fun _ _ => rfl
  induction entries generalizing lead with
  | nil => rw [nodes, List.nil_append, htexts, List.filterMap_nil]
  | cons entry entries ih =>
    rw [nodes, List.cons_append, selectors, List.filterMap_cons, Entry.selector?_node,
      List.filterMap_cons, ← selectors, ih]

end Layout

/-! ### Migrating the tree of a forest -/

/-- What a migration gives: nothing where it stopped. -/
def Migrated.outcome {α : Type} (migrated : Migrated α) : Except Ambiguity α :=
  match migrated.stopped with
  | some ambiguity => .error ambiguity
  | none => .ok migrated.result

theorem migrate_eq_map_outcome (language : Language) (text : List Char) :
    migrate language text = (migrateAll false (read language text)).outcome.map print := by
  rw [migrate, Migrated.outcome]
  cases (migrateAll false (read language text)).stopped <;> rfl

theorem outcome_migrateAll_cons (drops : Bool) (node : Node) (others : List Node) :
    (migrateAll drops (node :: others)).outcome =
      if drops && node.isAppending then (migrateAll drops others).outcome
      else do
        let first ← node.migrate.outcome
        let rest ← (migrateAll drops others).outcome
        return first :: rest := by
  rw [migrateAll]
  split
  · rfl
  · rcases node.migrate with ⟨first, _ | ambiguity⟩
    · rcases migrateAll drops others with ⟨rest, _ | ambiguity⟩ <;> rfl
    · rfl

theorem outcome_migrate_rule (before selector between : List Char) (enclosure : Enclosure)
    (body : List Node) :
    (Node.group (.rule before selector between) enclosure body).migrate.outcome = do
      let change ← ruleChange selector (selectors body)
      let inner ← (migrateAll change.drops body).outcome
      return .group (.rule before change.selector between) enclosure inner := by
  rw [Node.migrate]
  cases hchange : ruleChange selector (selectors body) with
  | error ambiguity => rfl
  | ok change =>
    change (Migrated.mk _ (migrateAll change.drops body).stopped).outcome =
      (migrateAll change.drops body).outcome >>= _
    rcases migrateAll change.drops body with ⟨inner, _ | ambiguity⟩ <;> rfl

theorem outcome_migrateAll_texts (drops : Bool) (texts : List (List Char)) :
    (migrateAll drops (texts.map .text)).outcome = .ok (texts.map .text) := by
  induction texts with
  | nil => rfl
  | cons text texts ih =>
    rw [List.map_cons, outcome_migrateAll_cons, ih]
    simp [Node.isAppending, Node.selector?, Node.migrate, Migrated.outcome]
    rfl

mutual

theorem Entry.outcome_migrate_node (layout : Layout) (depth : Nat) (lead : List Char) (entry : Entry) :
    (entry.node layout depth lead).migrate.outcome = entry.rewrite.map (·.node layout depth lead) := by
  match entry with
  | .declaration text =>
    simp only [Entry.node, Node.migrate, Entry.rewrite]
    rfl
  | .rule selector body =>
    rw [Entry.node, outcome_migrate_rule, selectors_nodes, Entry.rewrite]
    cases ruleChange selector (body.filterMap Entry.selector?) with
    | error ambiguity => rfl
    | ok change =>
      have hbody := outcome_migrateAll_nodes layout (depth + 1) (layout.lead (depth + 1))
        change.drops (fun _ => rfl) (layout.ending depth) body
      simp only [bind, Except.bind, hbody]
      cases rewriteAll change.drops body with
      | error ambiguity => rfl
      | ok body => simp only [Except.map, pure, Except.pure, Entry.node]

/-- To migrate the tree that a layout makes of a forest is to rewrite the forest. Where entries are
dropped the first one must have the same lead as the others, since it may go. -/
theorem outcome_migrateAll_nodes (layout : Layout) (depth : Nat) (lead : List Char) (drops : Bool)
    (hlead : drops = true → lead = layout.lead depth) (texts : List (List Char))
    (entries : List Entry) :
    (migrateAll drops (nodes layout depth lead entries ++ texts.map .text)).outcome =
      (rewriteAll drops entries).map (nodes layout depth lead · ++ texts.map .text) := by
  match entries with
  | [] =>
    rw [nodes, List.nil_append, outcome_migrateAll_texts, rewriteAll]
    simp [Except.map, nodes]
  | entry :: entries =>
    have hothers := outcome_migrateAll_nodes layout depth (layout.lead depth) drops (fun _ => rfl)
      texts entries
    rw [nodes, List.cons_append, outcome_migrateAll_cons, Entry.isAppending_node, rewriteAll, hothers,
      entry.outcome_migrate_node layout depth lead]
    split
    · rename_i hdrops
      rw [hlead (Bool.and_eq_true_iff.mp hdrops).1]
    · cases entry.rewrite with
      | error ambiguity => rfl
      | ok first =>
        cases rewriteAll drops entries with
        | error ambiguity => rfl
        | ok others => simp only [bind, Except.bind, pure, Except.pure, Except.map, nodes, List.cons_append]

end

end StyleMigration.Sheet
