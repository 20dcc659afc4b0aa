import StyleMigration.Proofs.Selector.Lossless
import StyleMigration.Proofs.Selector.TableModern

/-!
What a table says. A table is written by following its lists, and so is the outline of its branches, in
which each node has its depth and its kind. Both go no deeper than the table is long. In a tree that is
deep enough, so the text and the outline are those of the list that the table stands for
(`Shows.text_eq`, `Shows.outline_eq`).
-/

set_option autoImplicit false

namespace StyleMigration.Selector.Table

/-- A node and all below it less than `bound` deep in the order of the text, each with its depth. -/
def outlineWithin (table : Table) : (bound depth node : Nat) → List (Nat × Kind)
  | 0, _, _ => []
  | bound + 1, depth, node =>
    (depth, table.kind node) ::
      (table.children node).flatMap (table.outlineWithin bound (depth + 1))

/-- The outline of a branch. -/
def outlineOf (table : Table) (node : Nat) : List (Nat × Kind) :=
  table.outlineWithin table.entries.size 0 node

/-- The outline of all branches. -/
def outline (table : Table) : List (Nat × Kind) :=
  table.branches.flatMap table.outlineOf

theorem IsTree.bound_eq_succ {table : Table} (htree : table.IsTree) {above node bound : Nat}
    (hstands : table.Stands above node) (hbound : table.entries.size ≤ above + bound) :
    ∃ less, bound = less + 1 ∧ table.entries.size ≤ above + 1 + less := by
  have hdepth := htree.isShallow _ _ hstands
  exact ⟨bound - 1, by omega, by omega⟩

mutual

theorem IsTree.writes_branch {table : Table} (htree : table.IsTree) : (branch : Branch) →
    {node above bound : Nat} → table.Stands above node → table.entries.size ≤ above + bound →
    table.HoldsBranch node branch → table.textWithin bound node = branch.text ∧
      ∀ depth, table.outlineWithin bound depth node = branch.outline depth
  | .mk before parts after, node, above, bound, hstands, hbound, hholds => by
    obtain ⟨hkind, hparts⟩ := hholds
    obtain ⟨less, rfl, hless⟩ := htree.bound_eq_succ hstands hbound
    obtain ⟨htext, houtline⟩ := htree.writes_parts parts (fun child => hstands.child) hless hparts
    constructor
    · rw [textWithin, hkind, Branch.text, ← htext]
    · intro depth
      rw [outlineWithin, hkind, Branch.outline, ← houtline]

theorem IsTree.writes_part {table : Table} (htree : table.IsTree) : (part : Part) →
    {node above bound : Nat} → table.Stands above node → table.entries.size ≤ above + bound →
    table.HoldsPart node part → table.textWithin bound node = part.text ∧
      ∀ depth, table.outlineWithin bound depth node = part.outline depth
  | .leaf leaf, node, above, bound, hstands, hbound, hholds => by
    obtain ⟨hkind, hnone⟩ := hholds
    obtain ⟨less, rfl, -⟩ := htree.bound_eq_succ hstands hbound
    constructor
    · rw [textWithin, hkind, Part.text]
    · intro depth
      rw [outlineWithin, hkind, hnone, Part.outline, List.flatMap_nil]
  | .list value branches, node, above, bound, hstands, hbound, hholds => by
    obtain ⟨hkind, hlist⟩ := hholds
    obtain ⟨less, rfl, hless⟩ := htree.bound_eq_succ hstands hbound
    obtain ⟨htext, houtline⟩ := htree.writes_list branches (fun child => hstands.child) hless hlist
    constructor
    · rw [textWithin, hkind, Part.text, listText_eq_intercalate, ← htext]
    · intro depth
      rw [outlineWithin, hkind, Part.outline, ← houtline]

theorem IsTree.writes_parts {table : Table} (htree : table.IsTree) : (parts : List Part) →
    {nodes : List Nat} → {above bound : Nat} → (∀ node ∈ nodes, table.Stands above node) →
    table.entries.size ≤ above + bound → table.HoldsParts nodes parts →
    (nodes.map (table.textWithin bound)).flatten = partsText parts ∧
      ∀ depth, nodes.flatMap (table.outlineWithin bound depth) = partsOutline depth parts
  | [], nodes, _, _, _, _, hholds => by
    obtain rfl : nodes = [] := hholds
    exact ⟨by simp [partsText], fun depth => by simp [partsOutline]⟩
  | part :: parts, nodes, above, bound, hnodes, hbound, hholds => by
    obtain ⟨node, others, rfl, hpart, hparts⟩ := hholds
    rw [List.forall_mem_cons] at hnodes
    obtain ⟨htext, houtline⟩ := htree.writes_part part hnodes.1 hbound hpart
    obtain ⟨htexts, houtlines⟩ := htree.writes_parts parts hnodes.2 hbound hparts
    constructor
    · rw [List.map_cons, List.flatten_cons, htext, htexts, partsText]
    · intro depth
      rw [List.flatMap_cons, houtline, houtlines, partsOutline]

theorem IsTree.writes_list {table : Table} (htree : table.IsTree) : (branches : List Branch) →
    {nodes : List Nat} → {above bound : Nat} → (∀ node ∈ nodes, table.Stands above node) →
    table.entries.size ≤ above + bound → table.HoldsList nodes branches →
    nodes.map (table.textWithin bound) = branches.map Branch.text ∧
      ∀ depth, nodes.flatMap (table.outlineWithin bound depth) = listOutline depth branches
  | [], nodes, _, _, _, _, hholds => by
    obtain rfl : nodes = [] := hholds
    exact ⟨rfl, fun depth => by simp [listOutline]⟩
  | branch :: branches, nodes, above, bound, hnodes, hbound, hholds => by
    obtain ⟨node, others, rfl, hbranch, hlist⟩ := hholds
    rw [List.forall_mem_cons] at hnodes
    obtain ⟨htext, houtline⟩ := htree.writes_branch branch hnodes.1 hbound hbranch
    obtain ⟨htexts, houtlines⟩ := htree.writes_list branches hnodes.2 hbound hlist
    constructor
    · rw [List.map_cons, List.map_cons, htext, htexts]
    · intro depth
      rw [List.flatMap_cons, houtline, houtlines, listOutline]

end

section Shows

variable {table : Table} (htree : table.IsTree) {branches : List Branch}
  (hshows : table.Shows branches)
include htree hshows

/-- A table is written as the list that it stands for. -/
theorem Shows.text_eq : table.text = listText branches := by
  obtain ⟨less, hless, hbound⟩ := htree.bound_eq_succ .origin (Nat.le_add_left _ 0)
  obtain ⟨htext, -⟩ := htree.writes_list branches (fun _ => Stands.origin.child) hbound hshows.2
  rw [text, hless, textWithin, hshows.1, listText_eq_intercalate, ← htext]

theorem Shows.outline_eq : table.outline = listOutline 0 branches :=
  (htree.writes_list branches (fun _ => Stands.origin.child) (Nat.le_add_left _ _) hshows.2).2 0

end Shows

theorem IsTree.outlineOf_eq {table : Table} (htree : table.IsTree) {node : Nat}
    (hnode : node ∈ table.branches) {branch : Branch} (hholds : table.HoldsBranch node branch) :
    table.outlineOf node = branch.outline 0 :=
  (htree.writes_branch branch (.child .origin hnode) (Nat.le_add_left _ _) hholds).2 0

end StyleMigration.Selector.Table
