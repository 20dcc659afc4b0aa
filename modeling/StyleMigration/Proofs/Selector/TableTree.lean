import Mathlib.Data.List.Perm.Subperm
import Mathlib.Data.List.Dedup
import Mathlib.Logic.Relation
import StyleMigration.Proofs.Selector.Table

/-!
Tables that are trees. What the lists of a table lead to from the root is a tree when every list has
its members once and is what its members remember (`IsTree`): then no node is below itself, since the
depth of a node can be counted along its parents (`IsTree.depth_eq`), and going through the table visits
each node once, the nodes above it first. A new list keeps a table a tree if no other node that is
still reached has a member of it (`IsTree.setChildren`). Replacing a combinator and hoisting an argument
are of that kind. To go through a table it need not be a tree: it is enough that no node is deeper than the
table is long (`IsShallow`), which it cannot be unless some node is below itself.
-/

set_option autoImplicit false

namespace StyleMigration.Selector

/-- Whether a node of a kind can stand directly below one of another kind. -/
def Kind.admits : Kind → Kind → Bool
  | .root, .branch _ _ | .list _, .branch _ _ | .branch _ _, .leaf _ | .branch _ _, .list _ => true
  | _, _ => false

theorem Kind.eq_branch_of_admits {outer : Kind} {leaf : Leaf}
    (hadmits : outer.admits (.leaf leaf) = true) : ∃ before after, outer = .branch before after := by
  cases outer with
  | branch before after => exact ⟨before, after, rfl⟩
  | _ => cases hadmits

namespace Table

variable {node depth : Nat} {table : Table}

/-- The lists lead from the root to a node. -/
inductive Reachable (table : Table) : Nat → Prop where
  | origin : Reachable table root
  | child {node child : Nat} :
      Reachable table node → child ∈ table.children node → Reachable table child

/-- The lists lead from the root to a node in so many steps. -/
inductive Stands (table : Table) : (depth node : Nat) → Prop where
  | origin : Stands table 0 root
  | child {depth node child : Nat} :
      Stands table depth node → child ∈ table.children node → Stands table (depth + 1) child

theorem Stands.reachable (hstands : table.Stands depth node) :
    table.Reachable node := by
  induction hstands with
  | origin => exact .origin
  | child _ hmem ih => exact .child ih hmem

theorem Reachable.exists_depth (hreachable : table.Reachable node) :
    ∃ depth, table.Stands depth node := by
  induction hreachable with
  | origin => exact ⟨0, .origin⟩
  | child _ hmem ih =>
    obtain ⟨depth, hstands⟩ := ih
    exact ⟨depth + 1, .child hstands hmem⟩

theorem Reachable.exists_parent (hreachable : table.Reachable node)
    (hne : node ≠ root) : ∃ parent, table.Reachable parent ∧ node ∈ table.children parent := by
  cases hreachable with
  | origin => exact absurd rfl hne
  | child hparent hmem => exact ⟨_, hparent, hmem⟩

theorem reachable_congr {other : Table} (hchildren : other.children = table.children) :
    other.Reachable = table.Reachable := by
  have himp {table other : Table} (hchildren : other.children = table.children) {node : Nat}
      (hreachable : other.Reachable node) : table.Reachable node := by
    induction hreachable with
    | origin => exact .origin
    | child _ hmem ih => exact .child ih (hchildren ▸ hmem)
  funext node
  exact propext ⟨himp hchildren, himp hchildren.symm⟩

/-- What the lists lead to from the root is a tree, and the parents say so too. -/
structure IsTree (table : Table) : Prop where
  rootKind : table.kind root = .root
  rootParent : table.parent root = none
  bounded : ∀ node, table.Reachable node → node < table.entries.size
  linked : ∀ node, table.Reachable node → ∀ child ∈ table.children node,
    table.parent child = some node
  nodup : ∀ node, table.Reachable node → (table.children node).Nodup
  admitted : ∀ node, table.Reachable node → ∀ child ∈ table.children node,
    (table.kind node).admits (table.kind child) = true

namespace IsTree

variable {table : Table} (htree : table.IsTree)
include htree

theorem child_ne_root {child : Nat} (hnode : table.Reachable node)
    (hchild : child ∈ table.children node) : child ≠ root := by
  rintro rfl
  have hparent := htree.linked node hnode _ hchild
  rw [htree.rootParent] at hparent
  cases hparent

/-- A node stands in one list only. -/
theorem parent_unique {other child : Nat} (hnode : table.Reachable node)
    (hother : table.Reachable other) (hchild : child ∈ table.children node)
    (hchild' : child ∈ table.children other) : node = other := by
  have hparent := htree.linked node hnode child hchild
  rw [htree.linked other hother child hchild', Option.some.injEq] at hparent
  exact hparent.symm

/-- The depth of a node is counted along its parents. -/
theorem depth_eq {other : Nat} (hdepth : table.Stands depth node)
    (hother : table.Stands other node) : depth = other := by
  induction hdepth generalizing other with
  | origin =>
    cases hother with
    | origin => rfl
    | child hstands hmem => exact absurd rfl (htree.child_ne_root hstands.reachable hmem)
  | child hstands hmem ih =>
    cases hother with
    | origin => exact absurd rfl (htree.child_ne_root hstands.reachable hmem)
    | child hstands' hmem' =>
      obtain rfl := htree.parent_unique hstands.reachable hstands'.reachable hmem hmem'
      rw [ih hstands']

theorem children_eq_nil (hnode : table.Reachable node) {leaf : Leaf}
    (hkind : table.kind node = .leaf leaf) : table.children node = [] := by
  refine List.eq_nil_iff_forall_not_mem.mpr fun child hchild => ?_
  have hadmits := htree.admitted node hnode child hchild
  rw [hkind] at hadmits
  cases hadmits

end IsTree

/-! ### Edits that keep a tree -/

theorem IsTree.allocAll (htree : table.IsTree) (kinds : List Kind) :
    (table.allocAll kinds).2.IsTree := by
  have hreachable := reachable_congr (children_allocAll table kinds)
  have hkind {node : Nat} (hnode : table.Reachable node) :
      (table.allocAll kinds).2.kind node = table.kind node :=
    kind_allocAll_of_lt table kinds (htree.bounded node hnode)
  refine ⟨?_, ?_, ?_, ?_, ?_, ?_⟩
  · rw [hkind .origin, htree.rootKind]
  · rw [parent_allocAll, htree.rootParent]
  · intro node hnode
    rw [hreachable] at hnode
    have hbounded := htree.bounded node hnode
    rw [size_allocAll]
    omega
  · rw [hreachable, children_allocAll, parent_allocAll]
    exact htree.linked
  · rw [hreachable, children_allocAll]
    exact htree.nodup
  · rw [hreachable, children_allocAll]
    intro node hnode child hchild
    rw [hkind hnode, hkind (hnode.child hchild)]
    exact htree.admitted node hnode child hchild

section SetChildren

variable {table : Table} {parent : Nat} {nodes : List Nat}

/-- With a new list, only what was reached before and what is in the list can be reached. -/
theorem reachable_of_setChildren (hin : parent < table.entries.size)
    (hsource : ∀ node ∈ nodes, table.Reachable node ∨ table.children node = [])
    (hnode : (table.setChildren parent nodes).Reachable node) :
    table.Reachable node ∨ node ∈ nodes ∧ table.children node = [] := by
  induction hnode with
  | origin => exact .inl .origin
  | @child node child hnode hmem ih =>
    by_cases hparent : node = parent
    · subst hparent
      rw [children_setChildren_self _ _ _ hin] at hmem
      exact (hsource child hmem).imp_right fun hnone => ⟨hmem, hnone⟩
    · rw [children_setChildren_of_ne _ _ _ hparent] at hmem
      rcases ih with hreached | ⟨-, hnone⟩
      · exact .inl (hreached.child hmem)
      · rw [hnone] at hmem
        cases hmem

/-- A new list keeps a tree if its members may stand there, are reached or have nothing below them, and
are in no other list that is still reached. -/
theorem IsTree.setChildren (htree : table.IsTree) (hparent : table.Reachable parent)
    (hnodup : nodes.Nodup) (hin : ∀ node ∈ nodes, node < table.entries.size)
    (hadmits : ∀ node ∈ nodes, (table.kind parent).admits (table.kind node) = true)
    (hsource : ∀ node ∈ nodes, table.Reachable node ∨ table.children node = [])
    (hfree : ∀ node, (table.setChildren parent nodes).Reachable node → table.Reachable node →
      node ≠ parent → ∀ child ∈ table.children node, child ∉ nodes) :
    (table.setChildren parent nodes).IsTree := by
  have hbound := htree.bounded parent hparent
  have hself := children_setChildren_self table parent nodes hbound
  -- A node other than the parent has its list as before; if it was not reached before, none.
  have hcases {node : Nat} (hnode : (table.setChildren parent nodes).Reachable node) :
      node = parent ∨ (table.setChildren parent nodes).children node = [] ∨
        node ≠ parent ∧ table.Reachable node ∧
          (table.setChildren parent nodes).children node = table.children node := by
    by_cases hne : node = parent
    · exact .inl hne
    · rw [children_setChildren_of_ne _ _ _ hne]
      rcases reachable_of_setChildren hbound hsource hnode with hreached | ⟨-, hnone⟩
      · exact .inr (.inr ⟨hne, hreached, rfl⟩)
      · exact .inr (.inl hnone)
  have hroot : root ∉ nodes := by
    intro hmem
    have hadmit := hadmits root hmem
    rw [htree.rootKind] at hadmit
    cases hkind : table.kind parent <;> rw [hkind] at hadmit <;> cases hadmit
  refine ⟨?_, ?_, ?_, ?_, ?_, ?_⟩
  · rw [kind_setChildren, htree.rootKind]
  · rw [parent_setChildren, if_neg (fun h => hroot h.1), htree.rootParent]
    simp
  · intro node hnode
    rw [size_setChildren]
    rcases reachable_of_setChildren hbound hsource hnode with hreached | ⟨hmem, -⟩
    · exact htree.bounded node hreached
    · exact hin node hmem
  · intro node hnode child hchild
    rw [parent_setChildren]
    rcases hcases hnode with rfl | hnone | ⟨hne, hreached, hsame⟩
    · rw [hself] at hchild
      rw [if_pos ⟨hchild, hin child hchild⟩]
    · rw [hnone] at hchild
      cases hchild
    · rw [hsame] at hchild
      have hlinked := htree.linked node hreached child hchild
      rw [if_neg (fun h => hfree node hnode hreached hne child hchild h.1), hlinked,
        if_neg (fun h => hne (Option.some.inj h.2))]
  · intro node hnode
    rcases hcases hnode with rfl | hnone | ⟨-, hreached, hsame⟩
    · rwa [hself]
    · rw [hnone]
      exact List.nodup_nil
    · rw [hsame]
      exact htree.nodup node hreached
  · intro node hnode child hchild
    rw [kind_setChildren]
    rcases hcases hnode with rfl | hnone | ⟨-, hreached, hsame⟩
    · rw [hself] at hchild
      exact hadmits child hchild
    · rw [hnone] at hchild
      cases hchild
    · rw [hsame] at hchild
      exact htree.admitted node hreached child hchild

end SetChildren

/-- The table with new nodes of the given kinds in the list of a node, between two rows of others. -/
def insertNew (table : Table) (parent : Nat) (front : List Nat) (kinds : List Kind)
    (back : List Nat) : Table :=
  (table.allocAll kinds).2.setChildren parent (front ++ (table.allocAll kinds).1 ++ back)

section InsertNew

variable {table : Table} {parent : Nat} {front back : List Nat} {kinds : List Kind}

theorem mem_nodes_allocAll :
    node ∈ (table.allocAll kinds).1 ↔
      table.entries.size ≤ node ∧ node < table.entries.size + kinds.length := by
  rw [nodes_allocAll, List.mem_range'_1]

theorem children_eq_nil_of_size_le (hout : table.entries.size ≤ node) :
    table.children node = [] := by
  simp [children, Array.getElem?_eq_none hout]

theorem kind_insertNew_of_lt (hold : node < table.entries.size) :
    (table.insertNew parent front kinds back).kind node = table.kind node := by
  rw [insertNew, kind_setChildren, kind_allocAll_of_lt _ _ hold]

theorem children_insertNew_self (hin : parent < table.entries.size) :
    (table.insertNew parent front kinds back).children parent =
      front ++ (table.allocAll kinds).1 ++ back := by
  rw [insertNew, children_setChildren_self]
  rw [size_allocAll]
  omega

theorem children_insertNew_of_ne (hne : node ≠ parent) :
    (table.insertNew parent front kinds back).children node = table.children node := by
  rw [insertNew, children_setChildren_of_ne _ _ _ hne, children_allocAll]

/-- With new nodes in a list, only they and what was reached before can be reached. -/
theorem reachable_of_insertNew (hin : parent < table.entries.size)
    (hreached : ∀ node ∈ front ++ back, table.Reachable node)
    (hnode : (table.insertNew parent front kinds back).Reachable node) :
    table.Reachable node ∨ table.entries.size ≤ node := by
  induction hnode with
  | origin => exact .inl .origin
  | @child above node _ hmem ih =>
    by_cases hparent : above = parent
    · subst hparent
      rw [children_insertNew_self hin, List.append_assoc, List.mem_append, List.mem_append] at hmem
      rcases hmem with hfront | hnew | hback
      · exact .inl (hreached node (List.mem_append_left _ hfront))
      · exact .inr (mem_nodes_allocAll.mp hnew).1
      · exact .inl (hreached node (List.mem_append_right _ hback))
    · rw [children_insertNew_of_ne hparent] at hmem
      rcases ih with habove | hout
      · exact .inl (habove.child hmem)
      · rw [children_eq_nil_of_size_le hout] at hmem
        cases hmem

theorem IsTree.insertNew (htree : table.IsTree) (hparent : table.Reachable parent)
    (hnodup : (front ++ back).Nodup) (hreached : ∀ node ∈ front ++ back, table.Reachable node)
    (hadmits : ∀ node ∈ front ++ back, (table.kind parent).admits (table.kind node) = true)
    (hkinds : ∀ kind ∈ kinds, (table.kind parent).admits kind = true)
    (hfree : ∀ node, (table.insertNew parent front kinds back).Reachable node →
      table.Reachable node → node ≠ parent → ∀ child ∈ table.children node, child ∉ front ++ back) :
    (table.insertNew parent front kinds back).IsTree := by
  have hreachable := reachable_congr (children_allocAll table kinds)
  have hmem {node : Nat} : node ∈ front ++ (table.allocAll kinds).1 ++ back ↔
      node ∈ (table.allocAll kinds).1 ∨ node ∈ front ++ back := by
    simp only [List.mem_append]
    grind
  have hold {node : Nat} (hnode : node ∈ front ++ back) : node < table.entries.size :=
    htree.bounded node (hreached node hnode)
  have hkind {node : Nat} (hin : node < table.entries.size) :=
    kind_allocAll_of_lt table kinds hin
  apply (htree.allocAll kinds).setChildren
  · rwa [hreachable]
  · rw [(List.perm_append_comm.append_right back).nodup_iff, List.append_assoc, List.nodup_append]
    refine ⟨?_, hnodup, fun new hnew node hnode => ?_⟩
    · rw [nodes_allocAll]
      exact List.nodup_range'
    · have hsize := (mem_nodes_allocAll.mp hnew).1
      have hlt := hold hnode
      omega
  · intro node hnode
    rw [size_allocAll]
    rcases hmem.mp hnode with hnew | hrest
    · exact (mem_nodes_allocAll.mp hnew).2
    · have hlt := hold hrest
      omega
  · intro node hnode
    rw [hkind (htree.bounded parent hparent)]
    rcases hmem.mp hnode with hnew | hrest
    · have hmap := @List.mem_map_of_mem _ _ _ _ (table.allocAll kinds).2.kind hnew
      rw [map_kind_allocAll] at hmap
      exact hkinds _ hmap
    · rw [hkind (hold hrest)]
      exact hadmits node hrest
  · intro node hnode
    rw [hreachable, children_allocAll]
    rcases hmem.mp hnode with hnew | hrest
    · exact .inr (children_eq_nil_of_size_le (mem_nodes_allocAll.mp hnew).1)
    · exact .inl (hreached node hrest)
  · intro node hnode hnode' hne child hchild hin
    rw [hreachable] at hnode'
    rw [children_allocAll] at hchild
    rcases hmem.mp hin with hnew | hrest
    · have hlt := htree.bounded child (hnode'.child hchild)
      have hsize := (mem_nodes_allocAll.mp hnew).1
      omega
    · exact hfree node hnode hnode' hne child hchild hrest

end InsertNew

/-! ### Replacing a combinator -/

section ModernizeAt

variable {table : Table} {node parent : Nat} {front back : List Nat}

theorem length_beq_zero {α : Type} (values : List α) : (values.length == 0) = values.isEmpty := by
  cases values <;> rfl

theorem idxOf?_append_cons {node : Nat} {front : List Nat} (back : List Nat)
    (hnew : node ∉ front) : (front ++ node :: back).idxOf? node = some front.length := by
  induction front with
  | nil => simp [List.idxOf?_cons]
  | cons first front ih =>
    rw [List.mem_cons, not_or] at hnew
    rw [List.cons_append, List.idxOf?_cons, ih hnew.2]
    simp [Ne.symm hnew.1]

/-- A node is replaced where it first stands in the list of its parent. -/
theorem modernizeAt_eq_insertNew (hparent : table.parent node = some parent)
    (hlist : table.children parent = front ++ node :: back) (hfirst : node ∉ front) :
    table.modernizeAt node = table.insertNew parent front
      ((deepInPlace front.isEmpty back.isEmpty).map Kind.leaf) back := by
  have hlast : (front.length + 1 == (front ++ node :: back).length) = back.isEmpty := by
    cases back <;> simp
  simp only [Table.modernizeAt, hparent, hlist, idxOf?_append_cons back hfirst, length_beq_zero, hlast]
  simp [Table.insertNew]

theorem IsTree.modernizeAt_eq (htree : table.IsTree) (hparent : table.Reachable parent)
    (hlist : table.children parent = front ++ node :: back) :
    table.modernizeAt node = table.insertNew parent front
      ((deepInPlace front.isEmpty back.isEmpty).map Kind.leaf) back := by
  have hlinked := htree.linked parent hparent node (by simp [hlist])
  have hnodup := htree.nodup parent hparent
  rw [hlist, List.nodup_middle, List.nodup_cons, List.mem_append, not_or] at hnodup
  exact modernizeAt_eq_insertNew hlinked hlist hnodup.1.1

theorem deepInPlace_ne_nil (first last : Bool) : deepInPlace first last ≠ [] := by
  simp [deepInPlace]

theorem IsTree.modernizeAt (htree : table.IsTree) (hparent : table.Reachable parent)
    (hnode : node ∈ table.children parent) {leaf : Leaf} (hkind : table.kind node = .leaf leaf) :
    (table.modernizeAt node).IsTree := by
  obtain ⟨front, back, hlist⟩ := List.append_of_mem hnode
  rw [htree.modernizeAt_eq hparent hlist]
  have hsubset {other : Nat} (hother : other ∈ front ++ back) : other ∈ table.children parent := by
    rw [hlist]
    grind
  have hnodup := htree.nodup parent hparent
  rw [hlist, List.nodup_middle, List.nodup_cons] at hnodup
  refine htree.insertNew hparent hnodup.2 (fun other hother => hparent.child (hsubset hother))
    (fun other hother => htree.admitted parent hparent other (hsubset hother)) ?_ ?_
  · -- What may stand in the place of a leaf is below a branch.
    intro kind hmem
    obtain ⟨leaf', -, rfl⟩ := List.mem_map.mp hmem
    have hadmits := htree.admitted parent hparent node hnode
    rw [hkind] at hadmits
    obtain ⟨before, after, houter⟩ := Kind.eq_branch_of_admits hadmits
    rw [houter]
    rfl
  · intro other _ hother hne child hchild hmem
    exact hne (htree.parent_unique hother hparent hchild (hsubset hmem))

theorem exists_leaf_of_isLegacy {node : Nat} (hlegacy : table.isLegacy node = true) :
    ∃ leaf, table.kind node = .leaf leaf ∧ leaf.isLegacy = true := by
  unfold isLegacy at hlegacy
  split at hlegacy
  · exact ⟨_, by assumption, hlegacy⟩
  · cases hlegacy

theorem IsTree.exists_list_of_isLegacy (htree : table.IsTree) (hnode : table.Reachable node)
    (hlegacy : table.isLegacy node = true) :
    ∃ parent, table.Reachable parent ∧ node ∈ table.children parent := by
  refine hnode.exists_parent ?_
  rintro rfl
  obtain ⟨leaf, hkind, -⟩ := exists_leaf_of_isLegacy hlegacy
  rw [htree.rootKind] at hkind
  cases hkind

end ModernizeAt

/-! ### Going through a table -/

/-- A node and all below it, each before its children. -/
def below (table : Table) (node : Nat) : List Nat :=
  table.preorder table.entries.size node

theorem descendants_eq (table : Table) : table.descendants = table.below root :=
  rfl

/-- The loop that goes through a table takes a node off a stack and puts its children there instead.
`Visits stack visited` says that it comes to an end, and which nodes it took in which order. -/
inductive Visits (table : Table) : (stack visited : List Nat) → Prop where
  | done : Visits table [] []
  | step {node : Nat} {stack visited : List Nat} :
      Visits table (table.children node ++ stack) visited →
        Visits table (node :: stack) (node :: visited)

/-- A node has another one in its list. -/
def Lists (table : Table) (node child : Nat) : Prop :=
  child ∈ table.children node

/-- No node is deeper than the table is long, whichever way is taken to it. -/
def IsShallow (table : Table) : Prop :=
  ∀ depth node, table.Stands depth node → depth < table.entries.size

/-- The nodes on the way to a node are different ones where none is below itself. -/
theorem exists_way
    (hacyclic : ∀ node, table.Reachable node → ¬ Relation.TransGen table.Lists node node)
    (hstands : table.Stands depth node) :
    ∃ way : List Nat, way.length = depth + 1 ∧ way.Nodup ∧
      ∀ other ∈ way, table.Reachable other ∧
        (other = node ∨ Relation.TransGen table.Lists other node) := by
  induction hstands with
  | origin => exact ⟨[root], rfl, List.nodup_singleton _, by simpa using Reachable.origin⟩
  | @child depth node child hstands hmem ih =>
    obtain ⟨way, hlength, hnodup, hway⟩ := ih
    have hdown : ∀ other ∈ way, Relation.TransGen table.Lists other child := by
      intro other hother
      rcases (hway other hother).2 with rfl | habove
      · exact .single hmem
      · exact .tail habove hmem
    refine ⟨child :: way, by rw [List.length_cons, hlength], ?_, ?_⟩
    · refine List.nodup_cons.mpr ⟨fun hchild => ?_, hnodup⟩
      exact hacyclic child (hway child hchild).1 (hdown child hchild)
    · refine List.forall_mem_cons.mpr ⟨⟨hstands.reachable.child hmem, .inl rfl⟩, ?_⟩
      intro other hother
      exact ⟨(hway other hother).1, .inr (hdown other hother)⟩

theorem isShallow_of_acyclic (hbounded : ∀ node, table.Reachable node → node < table.entries.size)
    (hacyclic : ∀ node, table.Reachable node → ¬ Relation.TransGen table.Lists node node) :
    table.IsShallow := by
  intro depth node hstands
  obtain ⟨way, hlength, hnodup, hway⟩ := exists_way hacyclic hstands
  have hsubset : way ⊆ List.range table.entries.size := fun other hother =>
    List.mem_range.mpr (hbounded other (hway other hother).1)
  have hle := (List.subperm_of_subset hnodup hsubset).length_le
  rw [List.length_range] at hle
  omega

namespace IsShallow

variable {table : Table} (hshallow : table.IsShallow)
include hshallow

/-- What holds of a node whenever it holds of its children holds of all nodes. -/
theorem induct_up {motive : (node : Nat) → table.Reachable node → Prop}
    (step : ∀ node (hnode : table.Reachable node),
      (∀ child (hchild : child ∈ table.children node), motive child (hnode.child hchild)) →
        motive node hnode) {node : Nat} (hnode : table.Reachable node) : motive node hnode := by
  obtain ⟨depth, hstands⟩ := hnode.exists_depth
  induction hroom : table.entries.size - depth using Nat.strongRecOn generalizing depth node with
  | ind room ih =>
    have hdepth := hshallow depth node hstands
    refine step node hnode fun child hchild => ?_
    exact ih (table.entries.size - (depth + 1)) (by omega) (hnode.child hchild) (depth + 1)
      (.child hstands hchild) rfl

/-- The bound on the depth does not matter where it is large enough. -/
theorem preorder_eq {bound bound' : Nat} (hstands : table.Stands depth node)
    (hbound : table.entries.size ≤ depth + bound) (hbound' : table.entries.size ≤ depth + bound') :
    table.preorder bound node = table.preorder bound' node := by
  have hdepth := hshallow depth node hstands
  induction bound generalizing depth node bound' with
  | zero => omega
  | succ bound ih =>
    obtain ⟨bound', rfl⟩ : ∃ less, bound' = less + 1 := ⟨bound' - 1, by omega⟩
    rw [preorder, preorder]
    refine congrArg _ (List.flatMap_congr fun child hchild => ?_)
    have hchild' := hstands.child hchild
    exact ih hchild' (by omega) (by omega) (hshallow _ _ hchild')

theorem below_eq (hnode : table.Reachable node) :
    table.below node = node :: (table.children node).flatMap table.below := by
  obtain ⟨depth, hstands⟩ := hnode.exists_depth
  have hdepth := hshallow depth node hstands
  obtain ⟨bound, hbound⟩ : ∃ bound, table.entries.size = bound + 1 :=
    ⟨table.entries.size - 1, by omega⟩
  rw [below, hbound, preorder]
  refine congrArg _ (List.flatMap_congr fun child hchild => ?_)
  exact hshallow.preorder_eq (hstands.child hchild) (by omega) (by omega)

theorem visits_below (hnode : table.Reachable node) :
    ∀ stack visited, table.Visits stack visited →
      table.Visits (node :: stack) (table.below node ++ visited) := by
  induction hnode using hshallow.induct_up with
  | step node hnode ih =>
    intro stack visited hvisits
    rw [hshallow.below_eq hnode, List.cons_append]
    refine .step ?_
    -- The children are taken one after the other, each with all that is below it.
    generalize table.children node = children at ih
    induction children with
    | nil => exact hvisits
    | cons child children ihs =>
      rw [List.forall_mem_cons] at ih
      rw [List.flatMap_cons, List.append_assoc]
      exact ih.1 _ _ (ihs ih.2)

theorem reachable_of_mem_below (hnode : table.Reachable node) :
    ∀ other ∈ table.below node, table.Reachable other := by
  induction hnode using hshallow.induct_up with
  | step node hnode ih =>
    rw [hshallow.below_eq hnode, List.forall_mem_cons]
    refine ⟨hnode, fun other hother => ?_⟩
    obtain ⟨child, hchild, hother⟩ := List.mem_flatMap.mp hother
    exact ih child hchild other hother

theorem mem_below_self (hnode : table.Reachable node) : node ∈ table.below node := by
  rw [hshallow.below_eq hnode]
  exact List.mem_cons_self

theorem mem_below_of_child (hnode : table.Reachable node) :
    ∀ other ∈ table.below node, ∀ child ∈ table.children other, child ∈ table.below node := by
  induction hnode using hshallow.induct_up with
  | step node hnode ih =>
    intro other hother child hchild
    rw [hshallow.below_eq hnode] at hother ⊢
    refine List.mem_cons_of_mem _ (List.mem_flatMap.mpr ?_)
    rcases List.mem_cons.mp hother with rfl | hother
    · exact ⟨child, hchild, hshallow.mem_below_self (hnode.child hchild)⟩
    · obtain ⟨top, htop, hother⟩ := List.mem_flatMap.mp hother
      exact ⟨top, htop, ih top htop other hother child hchild⟩

theorem mem_descendants_iff : node ∈ table.descendants ↔ table.Reachable node := by
  constructor
  · exact hshallow.reachable_of_mem_below .origin node
  · intro hnode
    induction hnode with
    | origin => exact hshallow.mem_below_self .origin
    | child _ hmem ih => exact hshallow.mem_below_of_child .origin _ ih _ hmem

end IsShallow

/-! ### Going through a tree -/

/-- The node so many steps up along the parents. -/
def climb (table : Table) (node : Nat) : Nat → Option Nat
  | 0 => some node
  | steps + 1 => (table.climb node steps).bind table.parent

namespace IsTree

variable {table : Table} (htree : table.IsTree)
include htree

theorem isShallow : table.IsShallow := by
  refine isShallow_of_acyclic htree.bounded fun node hnode hcycle => ?_
  obtain ⟨depth, hstands⟩ := hnode.exists_depth
  -- Each step down adds one to the depth.
  have hdeeper {other : Nat} (hdown : Relation.TransGen table.Lists node other) :
      ∃ more, depth < more ∧ table.Stands more other := by
    induction hdown with
    | single hmem => exact ⟨depth + 1, by omega, hstands.child hmem⟩
    | tail _ hmem ih =>
      obtain ⟨more, hmore, hother⟩ := ih
      exact ⟨more + 1, by omega, hother.child hmem⟩
  obtain ⟨more, hmore, hother⟩ := hdeeper hcycle
  have hdepth := htree.depth_eq hstands hother
  omega

/-- From all that is below a node the parents lead back to it. -/
theorem climb_of_mem_below (hstands : table.Stands depth node) {other : Nat}
    (hother : other ∈ table.below node) :
    ∃ steps, table.Stands (depth + steps) other ∧ table.climb other steps = some node := by
  have hnode := hstands.reachable
  induction hnode using htree.isShallow.induct_up generalizing depth with
  | step node hnode ih =>
    rw [htree.isShallow.below_eq hnode] at hother
    rcases List.mem_cons.mp hother with rfl | hother
    · exact ⟨0, hstands, rfl⟩
    · obtain ⟨child, hchild, hother⟩ := List.mem_flatMap.mp hother
      obtain ⟨steps, hdeep, hclimb⟩ := ih child hchild (hstands.child hchild) hother
      refine ⟨steps + 1, by rwa [← Nat.add_assoc, Nat.add_right_comm], ?_⟩
      rw [climb, hclimb, Option.bind_some, htree.linked node hnode child hchild]

theorem nodup_below (hnode : table.Reachable node) : (table.below node).Nodup := by
  induction hnode using htree.isShallow.induct_up with
  | step node hnode ih =>
    obtain ⟨depth, hstands⟩ := hnode.exists_depth
    rw [htree.isShallow.below_eq hnode, List.nodup_cons]
    constructor
    · intro hmem
      obtain ⟨child, hchild, hmem⟩ := List.mem_flatMap.mp hmem
      obtain ⟨steps, hdeep, -⟩ := htree.climb_of_mem_below (hstands.child hchild) hmem
      have hdepth := htree.depth_eq hstands hdeep
      omega
    · refine List.nodup_flatMap.mpr ⟨ih, ?_⟩
      refine (htree.nodup node hnode).imp_of_mem fun hchild hchild' hne => ?_
      intro other hother hother'
      obtain ⟨steps, hdeep, hclimb⟩ := htree.climb_of_mem_below (hstands.child hchild) hother
      obtain ⟨steps', hdeep', hclimb'⟩ := htree.climb_of_mem_below (hstands.child hchild') hother'
      have hdepth := htree.depth_eq hdeep hdeep'
      obtain rfl : steps = steps' := by omega
      exact hne (Option.some.inj (hclimb.symm.trans hclimb'))

end IsTree

end Table

end StyleMigration.Selector
