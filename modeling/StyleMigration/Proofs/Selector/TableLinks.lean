import StyleMigration.Proofs.Selector.TableEdits

/-!
Parents in a table that is edited at will. Lists may be set to any nodes there are, also to some that
stand in other lists or twice in one, so a table is no tree any more and a node may stand in many lists.
What is left of a tree is that a node stands in the list of the parent it remembers, as long as no list
leads back to its own node (`IsLawful`). Each edit keeps this, because a new list takes the parent away
from the nodes it drops and gives it to all it has (`IsLawful.setChildren`). So replacing legacy
combinators comes to each of them, and replaces each that has a parent when its turn comes
(`IsLawful.reworked`, `parents_never_dangle`).
-/

set_option autoImplicit false

namespace StyleMigration.Selector.Table

variable {node parent : Nat}

/-- No node is below itself. -/
def IsAcyclic (table : Table) : Prop :=
  ∀ node, ¬ Relation.TransGen table.Lists node node

/-- A node with a parent stands in the list of its parent. -/
def LinksHold (table : Table) : Prop :=
  ∀ node parent, table.parent node = some parent → node ∈ table.children parent

/-- What every table keeps that is made from a selector: it has a root, its lists have nodes of the table
in them and do not lead back, and parents list their children. -/
structure IsLawful (table : Table) : Prop where
  rooted : root < table.entries.size
  inside : ∀ node, ∀ child ∈ table.children node, child < table.entries.size
  acyclic : table.IsAcyclic
  links : table.LinksHold

theorem lt_size_of_mem_children {table : Table} {child : Nat}
    (hchild : child ∈ table.children node) : node < table.entries.size := by
  refine Nat.lt_of_not_le fun hout => ?_
  rw [children_eq_nil_of_size_le hout] at hchild
  cases hchild

/-! ### Parents after new nodes and new lists -/

section Links

variable {table : Table} (hlinks : table.LinksHold)
include hlinks

theorem LinksHold.alloc (kind : Kind) : (table.alloc kind).2.LinksHold := by
  rw [LinksHold, parent_alloc, children_alloc]
  exact hlinks

/-- What a new list drops has no parent any more, or another one that lists it. -/
theorem LinksHold.setChildren (hin : parent < table.entries.size) (nodes : List Nat) :
    (table.setChildren parent nodes).LinksHold := by
  intro node above habove
  rw [parent_setChildren] at habove
  split at habove
  · rename_i hmem
    cases habove
    rw [children_setChildren_self _ _ _ hin]
    exact hmem.1
  · split at habove
    · cases habove
    · rename_i hkept
      have hmem := hlinks node above habove
      have hne : above ≠ parent := by
        rintro rfl
        exact hkept ⟨hmem, habove⟩
      rwa [children_setChildren_of_ne _ _ _ hne]

theorem LinksHold.index_eq_none_iff (node : Nat) :
    table.index node = none ↔ table.parent node = none := by
  cases hparent : table.parent node with
  | none => simp [index, hparent]
  | some parent => simp [index, hparent, List.idxOf?_eq_none_iff, hlinks node parent hparent]

end Links

/-! ### Ways down in a changed table -/

section Acyclic

variable {table other : Table}

theorem isAcyclic_of_lt (hafter : ∀ node, ∀ child ∈ table.children node, node < child) :
    table.IsAcyclic := by
  have hbelow {node child : Nat} (hdown : Relation.TransGen table.Lists node child) :
      node < child := by
    induction hdown with
    | single hmem => exact hafter _ _ hmem
    | tail _ hmem ih => exact Nat.lt_trans ih (hafter _ _ hmem)
  exact fun node hcycle => Nat.lt_irrefl node (hbelow hcycle)

theorem isAcyclic_of_forall_lt
    (hafter : ∀ node < table.entries.size, ∀ child ∈ table.children node, node < child) :
    table.IsAcyclic :=
  isAcyclic_of_lt fun node child hchild => hafter node (lt_size_of_mem_children hchild) child hchild

/-- Lists that only lead where lists led before, or to nodes with nothing below them, make no cycle. -/
theorem IsAcyclic.of_lists (hacyclic : table.IsAcyclic)
    (hlists : ∀ node, ∀ child ∈ other.children node,
      Relation.TransGen table.Lists node child ∨ other.children child = []) : other.IsAcyclic := by
  have hdown {node child : Nat} (hway : Relation.TransGen other.Lists node child) :
      Relation.TransGen table.Lists node child ∨ other.children child = [] := by
    induction hway with
    | single hmem => exact hlists _ _ hmem
    | @tail middle child _ hmem ih =>
      rcases ih with hbefore | hnone
      · exact (hlists middle child hmem).imp_left hbefore.trans
      · rw [Lists, hnone] at hmem
        cases hmem
  have hsome {node child : Nat} (hway : Relation.TransGen other.Lists node child) :
      other.children node ≠ [] := by
    induction hway with
    | single hmem => exact List.ne_nil_of_mem hmem
    | tail _ _ ih => exact ih
  intro node hcycle
  exact (hdown hcycle).elim (hacyclic node) (hsome hcycle)

end Acyclic

/-! ### What each edit keeps -/

namespace IsLawful

variable {table : Table} (hlawful : table.IsLawful)
include hlawful

theorem alloc (kind : Kind) : (table.alloc kind).2.IsLawful := by
  have hsize := size_alloc table kind
  refine ⟨?_, ?_, ?_, hlawful.links.alloc kind⟩
  · have hroot := hlawful.rooted
    omega
  · intro node child hchild
    rw [children_alloc] at hchild
    have hin := hlawful.inside node child hchild
    omega
  · refine hlawful.acyclic.of_lists fun node child hchild => ?_
    rw [children_alloc] at hchild
    exact .inl (.single hchild)

theorem allocAll (kinds : List Kind) : (table.allocAll kinds).2.IsLawful := by
  induction kinds generalizing table with
  | nil => exact hlawful
  | cons kind kinds ih => exact ih (hlawful.alloc kind)

/-- A new list of nodes of the table keeps the law unless it leads back. -/
theorem setChildren {nodes : List Nat} (hin : parent < table.entries.size)
    (hnodes : ∀ node ∈ nodes, node < table.entries.size)
    (hacyclic : (table.setChildren parent nodes).IsAcyclic) :
    (table.setChildren parent nodes).IsLawful := by
  refine ⟨?_, ?_, hacyclic, hlawful.links.setChildren hin nodes⟩
  · rw [size_setChildren]
    exact hlawful.rooted
  · intro node child hchild
    rw [size_setChildren]
    by_cases hne : node = parent
    · rw [hne, children_setChildren_self _ _ _ hin] at hchild
      exact hnodes child hchild
    · rw [children_setChildren_of_ne _ _ _ hne] at hchild
      exact hlawful.inside node child hchild

/-- New nodes between nodes that were below the parent before keep the law. -/
theorem insertNew {front back : List Nat} {kinds : List Kind} (hin : parent < table.entries.size)
    (hbelow : ∀ node ∈ front ++ back, Relation.TransGen table.Lists parent node) :
    (table.insertNew parent front kinds back).IsLawful := by
  have hold : ∀ node ∈ front ++ back, node < table.entries.size := by
    intro node hnode
    cases hbelow node hnode with
    | single hmem => exact hlawful.inside _ _ hmem
    | tail _ hmem => exact hlawful.inside _ _ hmem
  have hsplit {node : Nat} (hnode : node ∈ front ++ (table.allocAll kinds).1 ++ back) :
      node ∈ front ++ back ∨ node ∈ (table.allocAll kinds).1 := by
    simp only [List.mem_append] at hnode ⊢
    tauto
  refine (hlawful.allocAll kinds).setChildren ?_ ?_ ?_
  · rw [size_allocAll]
    omega
  · intro node hnode
    rw [size_allocAll]
    rcases hsplit hnode with hnode | hnew
    · have hlt := hold node hnode
      omega
    · exact (mem_nodes_allocAll.mp hnew).2
  · refine hlawful.acyclic.of_lists fun node child hchild => ?_
    by_cases hne : node = parent
    · subst hne
      rw [← Table.insertNew, children_insertNew_self hin] at hchild
      refine (hsplit hchild).imp (hbelow child) fun hnew => ?_
      have hsize := (mem_nodes_allocAll.mp hnew).1
      rw [← Table.insertNew, children_insertNew_of_ne (by omega), children_eq_nil_of_size_le hsize]
    · rw [← Table.insertNew, children_insertNew_of_ne hne] at hchild
      exact .inl (.single hchild)

/-- A node with a parent stands in its list, and is replaced at its first place there. -/
theorem exists_modernizeAt_eq (hparent : table.parent node = some parent) :
    ∃ front back, table.children parent = front ++ node :: back ∧ node ∉ front ∧
      table.modernizeAt node = table.insertNew parent front
        ((deepInPlace front.isEmpty back.isEmpty).map Kind.leaf) back := by
  obtain ⟨front, back, hlist, hfirst⟩ :=
    List.eq_append_cons_of_mem (hlawful.links node parent hparent)
  exact ⟨front, back, hlist, hfirst, modernizeAt_eq_insertNew hparent hlist hfirst⟩

theorem modernizeAt (node : Nat) : (table.modernizeAt node).IsLawful := by
  cases hparent : table.parent node with
  | none => rwa [Table.modernizeAt, hparent]
  | some parent =>
    obtain ⟨front, back, hlist, -, heq⟩ := hlawful.exists_modernizeAt_eq hparent
    rw [heq]
    refine hlawful.insertNew (lt_size_of_mem_children (hlawful.links node parent hparent)) ?_
    refine fun other hother => .single ?_
    rw [Lists, hlist]
    grind

theorem foldl_modernizeAt (nodes : List Nat) : (nodes.foldl Table.modernizeAt table).IsLawful := by
  induction nodes generalizing table with
  | nil => exact hlawful
  | cons node nodes ih => exact ih (hlawful.modernizeAt node)

theorem modernize : table.modernize.IsLawful :=
  hlawful.foldl_modernizeAt _

/-- The parts of an argument are below the node that ends on it, so hoisting them makes no cycle, whatever
the node is. -/
theorem hoist (branch : Nat) : (table.hoist branch).2.IsLawful := by
  rcases table.hoist_cases branch with hsame | ⟨front, last, value, argument, hlist, -, hargument,
    hhoist⟩
  · rwa [hsame]
  have hlast : table.Lists branch last := by simp [Lists, hlist]
  have hdown : table.Lists last argument := by simp [Lists, hargument]
  rw [hhoist]
  refine hlawful.insertNew (lt_size_of_mem_children hlast) fun node hnode => ?_
  rcases List.mem_append.mp hnode with hfront | hback
  · exact .single (by simp [Lists, hlist, hfront])
  · exact .tail (.tail (.single hlast) hdown) hback

end IsLawful

/-! ### The table of a selector -/

section Links

mutual

theorem links_addBranch {table : Table} (hlinks : table.LinksHold) : (branch : Branch) →
    (table.addBranch branch).2.LinksHold
  | .mk before parts after => by
    have hsize := (adds_addParts (table.alloc (.branch before after)).2 parts).size_le
    rw [size_alloc] at hsize
    exact (links_addParts (hlinks.alloc _) parts).setChildren (by omega) _

theorem links_addPart {table : Table} (hlinks : table.LinksHold) : (part : Part) →
    (table.addPart part).2.LinksHold
  | .leaf leaf => hlinks.alloc _
  | .list value branches => by
    have hsize := (adds_addList (table.alloc (.list value)).2 branches).size_le
    rw [size_alloc] at hsize
    exact (links_addList (hlinks.alloc _) branches).setChildren (by omega) _

theorem links_addParts {table : Table} (hlinks : table.LinksHold) : (parts : List Part) →
    (table.addParts parts).2.LinksHold
  | [] => hlinks
  | part :: parts => links_addParts (links_addPart hlinks part) parts

theorem links_addList {table : Table} (hlinks : table.LinksHold) : (branches : List Branch) →
    (table.addList branches).2.LinksHold
  | [] => hlinks
  | branch :: branches => links_addList (links_addBranch hlinks branch) branches

end

end Links

theorem isLawful_ofList (branches : List Branch) : (ofList branches).IsLawful := by
  have hadds := adds_ofList branches
  have hafter : ∀ node, ∀ child ∈ (ofList branches).children node,
      node < child ∧ child < (ofList branches).entries.size := by
    intro node child hchild
    exact (hadds.wired node (Nat.zero_le _) (lt_size_of_mem_children hchild)).after child hchild
  refine ⟨(hadds.within root (by simp)).2, fun node child hchild => (hafter node child hchild).2,
    isAcyclic_of_lt fun node child hchild => (hafter node child hchild).1, ?_⟩
  have hsize := (adds_addList (alloc ⟨#[]⟩ .root).2 branches).size_le
  rw [size_alloc] at hsize
  have hempty : LinksHold ⟨#[]⟩ := fun node parent hparent => by simp [Table.parent] at hparent
  exact (links_addList (hempty.alloc .root) branches).setChildren (by omega) _

/-! ### Any edits -/

/-- New nodes are made, lists are set to any nodes without making a cycle, legacy combinators are replaced
and arguments are hoisted at any nodes, in any order and number. -/
inductive Reworked (start : Table) : Table → Prop where
  | unchanged : Reworked start start
  | alloc {table : Table} (kind : Kind) : Reworked start table → Reworked start (table.alloc kind).2
  | setChildren {table : Table} {parent : Nat} {nodes : List Nat} : Reworked start table →
      parent < table.entries.size → (∀ node ∈ nodes, node < table.entries.size) →
        (table.setChildren parent nodes).IsAcyclic →
          Reworked start (table.setChildren parent nodes)
  | modernize {table : Table} : Reworked start table → Reworked start table.modernize
  | hoist {table : Table} (branch : Nat) : Reworked start table →
      Reworked start (table.hoist branch).2

theorem IsLawful.reworked {start table : Table} (hlawful : start.IsLawful)
    (hreworked : Reworked start table) : table.IsLawful := by
  induction hreworked with
  | unchanged => exact hlawful
  | alloc kind _ ih => exact ih.alloc kind
  | setChildren _ hin hnodes hacyclic ih => exact ih.setChildren hin hnodes hacyclic
  | modernize _ ih => exact ih.modernize
  | hoist branch _ ih => exact ih.hoist branch

/-! ### Turns of the legacy combinators -/

/-- The legacy combinators that replacing comes to, in the order of their turns. One that stands in many
lists has many turns. -/
def turns (table : Table) : List Nat :=
  table.descendants.filter table.isLegacy

theorem modernize_eq_foldl_turns (table : Table) :
    table.modernize = table.turns.foldl modernizeAt table :=
  rfl

/-- The first place of a node in a list was given to `:deep`, set off from its neighbours. -/
def ReplacedIn (table : Table) (parent node : Nat) (after : Table) : Prop :=
  ∃ front back new, table.children parent = front ++ node :: back ∧ node ∉ front ∧
    after.children parent = front ++ new ++ back ∧
    new.map after.kind = (deepInPlace front.isEmpty back.isEmpty).map Kind.leaf

namespace IsLawful

variable {table : Table} (hlawful : table.IsLawful)
include hlawful

theorem replacedIn (hparent : table.parent node = some parent) :
    ReplacedIn table parent node (table.modernizeAt node) := by
  obtain ⟨front, back, hlist, hfirst, heq⟩ := hlawful.exists_modernizeAt_eq hparent
  have hin : parent < table.entries.size :=
    lt_size_of_mem_children (hlawful.links node parent hparent)
  refine ⟨front, back, _, hlist, hfirst, by rw [heq, children_insertNew_self hin], ?_⟩
  rw [heq, Table.insertNew, kind_setChildren, map_kind_allocAll]

/-- Replacing a node leaves the others a parent if they had one, maybe another one. -/
theorem parent_modernizeAt_ne_none {other : Nat} (hne : node ≠ other)
    (hparent : table.parent node ≠ none) : (table.modernizeAt other).parent node ≠ none := by
  cases habove : table.parent other with
  | none => rwa [Table.modernizeAt, habove]
  | some above =>
    obtain ⟨front, back, hlist, -, heq⟩ := hlawful.exists_modernizeAt_eq habove
    have hin : node < table.entries.size := by
      obtain ⟨parent, hparent⟩ := Option.ne_none_iff_exists'.mp hparent
      exact lt_size_of_parent hparent
    rw [heq, Table.insertNew, parent_setChildren, size_allocAll, children_allocAll, parent_allocAll,
      hlist]
    split
    · exact Option.some_ne_none _
    · rename_i hnew
      rw [if_neg]
      · exact hparent
      · rintro ⟨hmem, -⟩
        refine hnew ⟨?_, by omega⟩
        simp only [List.mem_append, List.mem_cons, hne, false_or] at hmem ⊢
        tauto

theorem parent_foldl_modernizeAt_ne_none {others : List Nat} (hnew : node ∉ others)
    (hparent : table.parent node ≠ none) :
    (others.foldl Table.modernizeAt table).parent node ≠ none := by
  induction others generalizing table with
  | nil => exact hparent
  | cons other others ih =>
    rw [List.mem_cons, not_or] at hnew
    exact ih (hlawful.modernizeAt other) hnew.2 (hlawful.parent_modernizeAt_ne_none hnew.1 hparent)

theorem isShallow : table.IsShallow := by
  refine isShallow_of_acyclic (fun node hnode => ?_) fun node _ => hlawful.acyclic node
  cases hnode with
  | origin => exact hlawful.rooted
  | child _ hmem => exact hlawful.inside _ node hmem

theorem mem_turns_iff :
    node ∈ table.turns ↔ table.Reachable node ∧ table.isLegacy node = true := by
  rw [turns, List.mem_filter, hlawful.isShallow.mem_descendants_iff]

/-- A legacy combinator with a parent still has one when its first turn comes. -/
theorem exists_turn (hnode : table.Reachable node) (hlegacy : table.isLegacy node = true)
    (hparent : table.parent node ≠ none) :
    ∃ before after, table.turns = before ++ node :: after ∧
      (before.foldl Table.modernizeAt table).parent node ≠ none := by
  obtain ⟨before, after, hturns, hfirst⟩ :=
    List.eq_append_cons_of_mem (hlawful.mem_turns_iff.mpr ⟨hnode, hlegacy⟩)
  exact ⟨before, after, hturns, hlawful.parent_foldl_modernizeAt_ne_none hfirst hparent⟩

end IsLawful

/-- However the table of a selector is edited, a node stands in the list of the parent it remembers, and
so has a place there just if it has a parent. Going through the table comes to an end. Replacing legacy
combinators takes them in turns and passes over none that has a parent: it is replaced at each of its
turns at which it has one, and a combinator that is reached and has a parent has a turn at which it still
has one. -/
theorem parents_never_dangle (text : List Char) {table : Table}
    (hreworked : Reworked (ofList (read text)) table) :
    (∀ node parent, table.parent node = some parent → node ∈ table.children parent) ∧
      (∀ node, table.index node = none ↔ table.parent node = none) ∧
      table.Visits [root] table.descendants ∧
      table.modernize = table.turns.foldl modernizeAt table ∧
      (∀ before node after, table.turns = before ++ node :: after →
        ∀ parent, (before.foldl modernizeAt table).parent node = some parent →
          ReplacedIn (before.foldl modernizeAt table) parent node
            ((before ++ [node]).foldl modernizeAt table)) ∧
      ∀ node, table.Reachable node → table.isLegacy node = true → table.parent node ≠ none →
        ∃ before after, table.turns = before ++ node :: after ∧
          (before.foldl modernizeAt table).parent node ≠ none := by
  have hlawful := (isLawful_ofList (read text)).reworked hreworked
  refine ⟨hlawful.links, hlawful.links.index_eq_none_iff, ?_, modernize_eq_foldl_turns table, ?_,
    fun node => hlawful.exists_turn⟩
  · have hvisits := hlawful.isShallow.visits_below .origin [] [] .done
    rwa [List.append_nil] at hvisits
  · intro before node after _ parent hparent
    rw [List.foldl_append]
    exact (hlawful.foldl_modernizeAt before).replacedIn hparent

/-- The combinator of an argument is put twice into the list of another branch, and is then hoisted with
the argument, so that its parent is the branch it was hoisted to. -/
def sharedTable : Table :=
  let table := ((ofList (read ".a, :deep(.b >>> .c)".toList)).alloc (.leaf .nesting)).2
  ((table.setChildren 1 [2, 7, 7, 8]).hoist 3).2

theorem reworked_sharedTable :
    Reworked (ofList (read ".a, :deep(.b >>> .c)".toList)) sharedTable := by
  refine .hoist 3 (.setChildren (.alloc _ .unchanged) ?_ ?_ (isAcyclic_of_forall_lt ?_)) <;>
    decide +kernel

/-- The shared combinator is replaced at the first of its three turns; at the others it has no parent. -/
theorem parents_never_dangle_sharedTable :
    sharedTable.text = ".a >>>  >>> .c, :deep .b >>> .c".toList ∧
      sharedTable.modernize.text = ".a >>>  >>> .c, :deep .b :deep .c".toList ∧
      (sharedTable.parent 7 = some 3 ∧ 7 ∈ sharedTable.children 3) ∧
      (sharedTable.turns = [7, 7, 7] ∧ ∃ before after, sharedTable.turns = before ++ 7 :: after ∧
        (before.foldl modernizeAt sharedTable).parent 7 ≠ none) ∧
      sharedTable.modernize.parent 7 = none ∧ sharedTable.modernize.index 7 = none := by
  have hparent : sharedTable.parent 7 = some 3 := by decide +kernel
  have hreached : sharedTable.Reachable 7 :=
    .child (.child .origin (by decide +kernel : 1 ∈ sharedTable.children root)) (by decide +kernel)
  obtain ⟨hlinks, -, -, -, -, hturn⟩ := parents_never_dangle _ reworked_sharedTable
  obtain ⟨-, hindex, -⟩ := parents_never_dangle _ reworked_sharedTable.modernize
  have hloose : sharedTable.modernize.parent 7 = none := by decide +kernel
  exact ⟨by decide +kernel, by decide +kernel, ⟨hparent, hlinks 7 3 hparent⟩,
    ⟨by decide +kernel, hturn 7 hreached (by decide +kernel) (by simp [hparent])⟩, hloose,
    (hindex 7).mpr hloose⟩

end StyleMigration.Selector.Table
