import StyleMigration.Proofs.Selector.TableReading

/-!
Replacing the legacy combinators of a table. The nodes to replace are listed first and then replaced one
by one, while the lists that they stand in grow. Each step finds its node in its old list, with others in
the place of those that were replaced before, and sees the same neighbours missing
(`Replaced.modernizeAt_eq`). So a run over all of them does what replacing all at once does: a legacy
combinator at place `i` of `n` becomes `:deep` with a descendant combinator before it unless `i` is 0 and
one after it unless `i` is the last place (`substituteList`), whatever stands beside it
(`shows_modernize_iff`).
-/

set_option autoImplicit false

namespace StyleMigration.Selector

/-! ### Replacing all at once -/

mutual

/-- A branch with each legacy combinator replaced by its place among the parts. -/
def Branch.substitute : Branch → Branch
  | .mk before parts after => .mk before (substituteParts parts.length 0 parts) after

/-- What stands for the part at a place of so many. -/
def Part.substitute (count place : Nat) : Part → List Part
  | .leaf leaf =>
    if leaf.isLegacy then
      (if 0 < place then [.leaf descendant] else []) ++ [.leaf deep] ++
        (if place + 1 < count then [.leaf descendant] else [])
    else
      [.leaf leaf]
  | .list value branches => [.list value (substituteList branches)]

def substituteParts (count place : Nat) : List Part → List Part
  | [] => []
  | part :: parts => part.substitute count place ++ substituteParts count (place + 1) parts

def substituteList : List Branch → List Branch
  | [] => []
  | branch :: branches => branch.substitute :: substituteList branches

end

theorem Part.substitute_legacy {leaf : Leaf} (hlegacy : leaf.isLegacy = true) (place rest : Nat) :
    Part.substitute (place + (rest + 1)) place (.leaf leaf) =
      (deepInPlace (place == 0) (rest == 0)).map Part.leaf := by
  rw [Part.substitute, if_pos hlegacy, deepInPlace]
  cases place <;> cases rest <;> simp

theorem not_isLegacy_of_mem_deepInPlace {first last : Bool} {leaf : Leaf}
    (hmem : leaf ∈ deepInPlace first last) : leaf.isLegacy = false := by
  have hcases : leaf = descendant ∨ leaf = deep := by
    unfold deepInPlace at hmem
    grind
  obtain rfl | rfl := hcases <;> rfl

mutual

theorem Branch.modernize_eq : (branch : Branch) → branch.modernize = branch.substitute
  | .mk before parts after => by
    have hparts := modernizeParts_eq parts 0
    rw [Nat.zero_add] at hparts
    rw [Branch.modernize, Branch.substitute, ← hparts]
    rfl

theorem modernizeParts_eq : (parts : List Part) → (place : Nat) →
    modernizeParts (place == 0) parts = substituteParts (place + parts.length) place parts
  | [], _ => rfl
  | .leaf leaf :: parts, place => by
    have hparts := modernizeParts_eq parts (place + 1)
    rw [Nat.add_assoc, Nat.add_comm 1] at hparts
    rw [modernizeParts, substituteParts, List.length_cons, ← hparts]
    refine congrArg (· ++ _) ?_
    by_cases hlegacy : leaf.isLegacy
    · rw [if_pos hlegacy, Part.substitute_legacy hlegacy, Table.length_beq_zero]
    · rw [if_neg hlegacy, Part.substitute, if_neg hlegacy]
  | .list value branches :: parts, place => by
    have hparts := modernizeParts_eq parts (place + 1)
    rw [Nat.add_assoc, Nat.add_comm 1] at hparts
    rw [modernizeParts, substituteParts, List.length_cons, ← hparts, Part.substitute,
      modernizeList_eq branches]
    rfl

/-- Going through the parts with an eye on the first and the last does the same. -/
theorem modernizeList_eq : (branches : List Branch) →
    modernizeList branches = substituteList branches
  | [] => rfl
  | branch :: branches => by
    rw [modernizeList, substituteList, branch.modernize_eq, modernizeList_eq branches]

end

namespace Table

variable {node : Nat} {table : Table}

/-! ### Replacing one by one -/

/-- What stands in the place of a node: what it was replaced by, or the node itself. -/
def inPlace (done : List Nat) (new : Nat → List Nat) (node : Nat) : List Nat :=
  if node ∈ done then new node else [node]

/-- What the nodes were replaced by once `node` is replaced as well, by `nodes`. -/
def newWith (new : Nat → List Nat) (node : Nat) (nodes : List Nat) (other : Nat) : List Nat :=
  if other = node then nodes else new other

section NewWith

variable {done nodes others : List Nat} {new : Nat → List Nat} {node other : Nat}

theorem newWith_of_mem (hnew : node ∉ done) (hmem : other ∈ done) :
    newWith new node nodes other = new other :=
  if_neg fun (heq : other = node) => hnew (heq ▸ hmem)

theorem inPlace_newWith_self : inPlace (done ++ [node]) (newWith new node nodes) node = nodes := by
  simp [inPlace, newWith]

theorem inPlace_newWith_of_ne (hne : other ≠ node) :
    inPlace (done ++ [node]) (newWith new node nodes) other = inPlace done new other := by
  simp [inPlace, newWith, hne]

theorem flatMap_inPlace_newWith (hothers : node ∉ others) :
    others.flatMap (inPlace (done ++ [node]) (newWith new node nodes)) =
      others.flatMap (inPlace done new) :=
  List.flatMap_congr fun _ hmem => inPlace_newWith_of_ne fun heq => hothers (heq ▸ hmem)

end NewWith

/-- The kinds of the nodes that a legacy combinator is replaced by, from its neighbours. -/
def deepKinds (front back : List Nat) : List Kind :=
  (deepInPlace front.isEmpty back.isEmpty).map Kind.leaf

/-- Some legacy combinators of a table have been replaced, each by the nodes that `new` gives. -/
structure Replaced (table : Table) (done : List Nat) (new : Nat → List Nat) (after : Table) :
    Prop where
  isTree : after.IsTree
  size_le : table.entries.size ≤ after.entries.size
  legacy : ∀ node ∈ done, table.Reachable node ∧ table.isLegacy node = true
  kind_eq : ∀ node < table.entries.size, after.kind node = table.kind node
  children_eq : ∀ node, table.Reachable node →
    after.children node = (table.children node).flatMap (inPlace done new)
  kinds_new : ∀ parent front node back, table.Reachable parent →
    table.children parent = front ++ node :: back → node ∈ done →
    (new node).map after.kind = deepKinds front back
  fresh : ∀ node ∈ done, ∀ other ∈ new node, table.entries.size ≤ other ∧
    other < after.entries.size ∧ after.children other = []

/-- A node stands at one place of a list without repetitions. -/
theorem split_unique {front back front' back' : List Nat} (hnodup : (front ++ node :: back).Nodup)
    (heq : front ++ node :: back = front' ++ node :: back') : front = front' ∧ back = back' := by
  have hnotMem {front back : List Nat} (hnodup : (front ++ node :: back).Nodup) : node ∉ front :=
    fun hmem => (List.nodup_append.mp hnodup).2.2 node hmem node List.mem_cons_self rfl
  have hplace := idxOf?_append_cons back (hnotMem hnodup)
  rw [heq, idxOf?_append_cons back' (hnotMem (heq ▸ hnodup))] at hplace
  obtain ⟨hfront, hback⟩ := List.append_inj heq (Option.some.inj hplace).symm
  exact ⟨hfront, (List.cons.inj hback).2⟩

theorem isEmpty_flatMap {α β : Type} {f : α → List β} {values : List α}
    (hf : ∀ value ∈ values, f value ≠ []) : (values.flatMap f).isEmpty = values.isEmpty := by
  cases values with
  | nil => rfl
  | cons value values =>
    simp [hf value List.mem_cons_self]

theorem size_insertNew (table : Table) (parent : Nat) (front : List Nat) (kinds : List Kind)
    (back : List Nat) :
    (table.insertNew parent front kinds back).entries.size = table.entries.size + kinds.length := by
  rw [insertNew, size_setChildren, size_allocAll]

namespace Replaced

variable {table after : Table} {done : List Nat} {new : Nat → List Nat}

theorem none (htree : table.IsTree) : Replaced table [] new table where
  isTree := htree
  size_le := Nat.le_refl _
  legacy := by simp
  kind_eq _ _ := rfl
  children_eq node _ := by
    have hsame : inPlace [] new = fun other => [other] := by
      funext other
      simp [inPlace]
    rw [hsame, List.flatMap_singleton']
  kinds_new := by simp
  fresh := by simp

variable (htree : table.IsTree) (hreplaced : Replaced table done new after)
include htree hreplaced

theorem inPlace_ne_nil (node : Nat) : inPlace done new node ≠ [] := by
  unfold inPlace
  split
  · rename_i hdone
    obtain ⟨hnode, hlegacy⟩ := hreplaced.legacy node hdone
    obtain ⟨parent, hparent, hmem⟩ := htree.exists_list_of_isLegacy hnode hlegacy
    obtain ⟨front, back, hlist⟩ := List.append_of_mem hmem
    have hkinds := hreplaced.kinds_new parent front node back hparent hlist hdone
    intro hnil
    rw [hnil, List.map_nil, eq_comm, deepKinds, List.map_eq_nil_iff] at hkinds
    exact deepInPlace_ne_nil _ _ hkinds
  · exact List.cons_ne_nil _ _

/-- A node that lists others is not replaced. -/
theorem notMem_of_child {child : Nat} (hnode : table.Reachable node)
    (hchild : child ∈ table.children node) : node ∉ done := by
  intro hdone
  obtain ⟨leaf, hkind, -⟩ := exists_leaf_of_isLegacy (hreplaced.legacy node hdone).2
  rw [htree.children_eq_nil hnode hkind] at hchild
  cases hchild

theorem reachable (hnode : table.Reachable node) (hdone : node ∉ done) :
    after.Reachable node := by
  induction hnode with
  | origin => exact .origin
  | @child above node habove hmem ih =>
    refine (ih (hreplaced.notMem_of_child htree habove hmem)).child ?_
    rw [hreplaced.children_eq above habove]
    exact List.mem_flatMap.mpr ⟨node, hmem, by simp [inPlace, hdone]⟩

section Step

variable {node parent : Nat} {front back : List Nat} (hparent : table.Reachable parent)
  (hlist : table.children parent = front ++ node :: back) (hnew : node ∉ done)
include hparent hlist hnew

variable {other : Nat}

/-- One more legacy combinator is replaced where it stands. It has neighbours just if it had some before
others were replaced. -/
theorem modernizeAt_eq :
    after.modernizeAt node = after.insertNew parent (front.flatMap (inPlace done new))
      (deepKinds front back) (back.flatMap (inPlace done new)) := by
  have hmem : node ∈ table.children parent := by simp [hlist]
  have hparent' : after.Reachable parent :=
    hreplaced.reachable htree hparent (hreplaced.notMem_of_child htree hparent hmem)
  have hlist' : after.children parent =
      front.flatMap (inPlace done new) ++ node :: back.flatMap (inPlace done new) := by
    rw [hreplaced.children_eq parent hparent, hlist, List.flatMap_append, List.flatMap_cons]
    simp [inPlace, hnew]
  have heq := hreplaced.isTree.modernizeAt_eq hparent' hlist'
  rw [isEmpty_flatMap fun other _ => hreplaced.inPlace_ne_nil htree other,
    isEmpty_flatMap fun other _ => hreplaced.inPlace_ne_nil htree other] at heq
  exact heq

theorem isTree_modernizeAt {leaf : Leaf} (hkind : table.kind node = .leaf leaf) :
    (after.modernizeAt node).IsTree := by
  have hmem : node ∈ table.children parent := by simp [hlist]
  have hbound := htree.bounded node (hparent.child hmem)
  refine hreplaced.isTree.modernizeAt
    (hreplaced.reachable htree hparent (hreplaced.notMem_of_child htree hparent hmem)) ?_
    ((hreplaced.kind_eq node hbound).trans hkind)
  rw [hreplaced.children_eq parent hparent]
  exact List.mem_flatMap.mpr ⟨node, hmem, by simp [inPlace, hnew]⟩

theorem size_modernizeAt :
    (after.modernizeAt node).entries.size = after.entries.size + (deepKinds front back).length := by
  rw [hreplaced.modernizeAt_eq htree hparent hlist hnew, size_insertNew]

theorem kind_modernizeAt (hother : other < after.entries.size) :
    (after.modernizeAt node).kind other = after.kind other := by
  rw [hreplaced.modernizeAt_eq htree hparent hlist hnew, kind_insertNew_of_lt hother]

/-- The new nodes of this step stand for the node, those of the steps before it stay. -/
theorem children_modernizeAt (hother : table.Reachable other) :
    (after.modernizeAt node).children other = (table.children other).flatMap
      (inPlace (done ++ [node]) (newWith new node (after.allocAll (deepKinds front back)).1)) := by
  have hbound := Nat.lt_of_lt_of_le (htree.bounded parent hparent) hreplaced.size_le
  have hnodup := htree.nodup parent hparent
  rw [hlist, List.nodup_middle, List.nodup_cons, List.mem_append, not_or] at hnodup
  rw [hreplaced.modernizeAt_eq htree hparent hlist hnew]
  by_cases hat : other = parent
  · subst hat
    rw [children_insertNew_self hbound, hlist, List.flatMap_append, List.flatMap_cons,
      inPlace_newWith_self, flatMap_inPlace_newWith hnodup.1.1, flatMap_inPlace_newWith hnodup.1.2,
      List.append_assoc]
  · rw [children_insertNew_of_ne hat, flatMap_inPlace_newWith, hreplaced.children_eq other hother]
    exact fun hmem => hat (htree.parent_unique hother hparent hmem (by simp [hlist]))

theorem kinds_new_modernizeAt {parent' : Nat} {front' back' : List Nat}
    (hparent' : table.Reachable parent') (hlist' : table.children parent' = front' ++ other :: back')
    (hmem : other ∈ done ++ [node]) :
    (newWith new node (after.allocAll (deepKinds front back)).1 other).map
      (after.modernizeAt node).kind = deepKinds front' back' := by
  by_cases hat : other = node
  · subst hat
    have hchild : other ∈ table.children parent := by simp [hlist]
    obtain rfl := htree.parent_unique hparent' hparent (by simp [hlist']) hchild
    have hnodup := htree.nodup parent' hparent
    rw [hlist] at hnodup hlist'
    obtain ⟨rfl, rfl⟩ := split_unique hnodup hlist'
    rw [hreplaced.modernizeAt_eq htree hparent hlist hnew, newWith, if_pos rfl, insertNew,
      kind_setChildren]
    exact map_kind_allocAll after _
  · have hmem' : other ∈ done := by simpa [hat] using hmem
    rw [newWith_of_mem hnew hmem']
    refine Eq.trans ?_ (hreplaced.kinds_new parent' front' other back' hparent' hlist' hmem')
    exact List.map_congr_left fun node' hnode' => hreplaced.kind_modernizeAt htree hparent hlist hnew
      (hreplaced.fresh other hmem' node' hnode').2.1

theorem fresh_modernizeAt {node' : Nat} (hmem : other ∈ done ++ [node])
    (hnode' : node' ∈ newWith new node (after.allocAll (deepKinds front back)).1 other) :
    table.entries.size ≤ node' ∧ node' < (after.modernizeAt node).entries.size ∧
      (after.modernizeAt node).children node' = [] := by
  have hbound := htree.bounded parent hparent
  have hsize := hreplaced.size_le
  rw [hreplaced.size_modernizeAt htree hparent hlist hnew,
    hreplaced.modernizeAt_eq htree hparent hlist hnew]
  by_cases hat : other = node
  · rw [newWith, if_pos hat] at hnode'
    obtain ⟨hlow, hhigh⟩ := mem_nodes_allocAll.mp hnode'
    refine ⟨by omega, hhigh, ?_⟩
    rw [children_insertNew_of_ne (by omega), children_eq_nil_of_size_le hlow]
  · have hmem' : other ∈ done := by simpa [hat] using hmem
    rw [newWith_of_mem hnew hmem'] at hnode'
    obtain ⟨hlow, hhigh, hnone⟩ := hreplaced.fresh other hmem' node' hnode'
    refine ⟨hlow, by omega, ?_⟩
    rw [children_insertNew_of_ne (by omega), hnone]

end Step

theorem modernizeAt (hnode : table.Reachable node)
    (hlegacy : table.isLegacy node = true) (hnew : node ∉ done) :
    ∃ new', Replaced table (done ++ [node]) new' (after.modernizeAt node) := by
  obtain ⟨parent, hparent, hmem⟩ := htree.exists_list_of_isLegacy hnode hlegacy
  obtain ⟨front, back, hlist⟩ := List.append_of_mem hmem
  obtain ⟨leaf, hleaf, -⟩ := exists_leaf_of_isLegacy hlegacy
  have hsize := hreplaced.size_modernizeAt htree hparent hlist hnew
  refine ⟨newWith new node (after.allocAll (deepKinds front back)).1,
    hreplaced.isTree_modernizeAt htree hparent hlist hnew hleaf, ?_, ?_, ?_, ?_, ?_, ?_⟩
  · rw [hsize]
    exact Nat.le_trans hreplaced.size_le (Nat.le_add_right _ _)
  · exact List.forall_mem_append.mpr
      ⟨hreplaced.legacy, List.forall_mem_singleton.mpr ⟨hnode, hlegacy⟩⟩
  · intro other hother
    rw [hreplaced.kind_modernizeAt htree hparent hlist hnew
      (Nat.lt_of_lt_of_le hother hreplaced.size_le), hreplaced.kind_eq other hother]
  · exact fun other => hreplaced.children_modernizeAt htree hparent hlist hnew
  · intro parent' front' other back' hparent' hlist' hmem'
    exact hreplaced.kinds_new_modernizeAt htree hparent hlist hnew hparent' hlist' hmem'
  · exact fun other hmem' node' => hreplaced.fresh_modernizeAt htree hparent hlist hnew hmem'

theorem foldl {nodes : List Nat} (hnodup : nodes.Nodup)
    (hnodes : ∀ node ∈ nodes, table.Reachable node ∧ table.isLegacy node = true)
    (hnew : ∀ node ∈ nodes, node ∉ done) :
    ∃ new', Replaced table (done ++ nodes) new' (nodes.foldl Table.modernizeAt after) := by
  induction nodes generalizing done new after with
  | nil => exact ⟨new, by rwa [List.append_nil]⟩
  | cons node nodes ih =>
    rw [List.forall_mem_cons] at hnodes hnew
    rw [List.nodup_cons] at hnodup
    obtain ⟨new', hstep⟩ := hreplaced.modernizeAt htree hnodes.1.1 hnodes.1.2 hnew.1
    obtain ⟨new'', hrun⟩ := ih hstep hnodup.2 hnodes.2 fun other hother => by
      rw [List.mem_append, List.mem_singleton, not_or]
      exact ⟨hnew.2 other hother, fun heq => hnodup.1 (heq ▸ hother)⟩
    rw [List.append_assoc, List.singleton_append] at hrun
    exact ⟨new'', hrun⟩

end Replaced

/-- All legacy combinators are replaced in the end. -/
theorem IsTree.replaced_modernize (htree : table.IsTree) :
    ∃ done new, Replaced table done new table.modernize ∧
      ∀ node, node ∈ done ↔ table.Reachable node ∧ table.isLegacy node = true := by
  have hmem (node : Nat) : node ∈ table.descendants.filter table.isLegacy ↔
      table.Reachable node ∧ table.isLegacy node = true := by
    rw [List.mem_filter, htree.isShallow.mem_descendants_iff]
  obtain ⟨new, hreplaced⟩ := (@Replaced.none table (fun _ => []) htree).foldl htree
    ((htree.nodup_below .origin).filter table.isLegacy) (fun node => (hmem node).mp) (by simp)
  exact ⟨_, new, hreplaced, hmem⟩

/-- Replacing all legacy combinators keeps a tree. -/
theorem IsTree.modernize (htree : table.IsTree) : table.modernize.IsTree := by
  obtain ⟨done, new, hreplaced, -⟩ := htree.replaced_modernize
  exact hreplaced.isTree

/-! ### The list that a table with all replaced stands for -/

theorem HoldsParts.append {table : Table} {parts parts' : List Part} {nodes nodes' : List Nat}
    (hholds : table.HoldsParts nodes parts) (hholds' : table.HoldsParts nodes' parts') :
    table.HoldsParts (nodes ++ nodes') (parts ++ parts') := by
  induction parts generalizing nodes with
  | nil =>
    rw [HoldsParts] at hholds
    rwa [hholds]
  | cons part parts ih =>
    rw [HoldsParts] at hholds
    obtain ⟨node, others, rfl, hpart, hparts⟩ := hholds
    exact ⟨node, others ++ nodes', rfl, hpart, ih hparts⟩

theorem length_of_holdsParts {parts : List Part} {nodes : List Nat}
    (hholds : table.HoldsParts nodes parts) : nodes.length = parts.length := by
  induction parts generalizing nodes with
  | nil =>
    rw [HoldsParts] at hholds
    rw [hholds, List.length_nil, List.length_nil]
  | cons part parts ih =>
    rw [HoldsParts] at hholds
    obtain ⟨node, others, rfl, -, hparts⟩ := hholds
    rw [List.length_cons, List.length_cons, ih hparts]

theorem holdsParts_leaves {leaves : List Leaf} {nodes : List Nat}
    (hkinds : nodes.map table.kind = leaves.map Kind.leaf)
    (hnone : ∀ node ∈ nodes, table.children node = []) :
    table.HoldsParts nodes (leaves.map Part.leaf) := by
  induction leaves generalizing nodes with
  | nil => exact List.map_eq_nil_iff.mp hkinds
  | cons leaf leaves ih =>
    obtain ⟨node, others, rfl, hkind, hothers⟩ := List.map_eq_cons_iff.mp hkinds
    rw [List.forall_mem_cons] at hnone
    exact ⟨node, others, rfl, ⟨hkind, hnone.1⟩, ih hothers hnone.2⟩

/-- Every legacy combinator of a tree has been replaced. -/
structure AllReplaced (table : Table) (done : List Nat) (new : Nat → List Nat) (after : Table) :
    Prop extends Replaced table done new after where
  tree : table.IsTree
  all : ∀ node, node ∈ done ↔ table.Reachable node ∧ table.isLegacy node = true

namespace AllReplaced

variable {table after : Table} {done : List Nat} {new : Nat → List Nat}

theorem inPlace_eq (hreplaced : AllReplaced table done new after)
    (hmodern : table.isLegacy node = false) : inPlace done new node = [node] := by
  refine if_neg fun hdone => ?_
  rw [((hreplaced.all node).mp hdone).2] at hmodern
  cases hmodern

mutual

theorem holdsBranch (hreplaced : AllReplaced table done new after) :
    (branch : Branch) → {node : Nat} → table.Reachable node →
    table.HoldsBranch node branch → after.HoldsBranch node branch.substitute
  | .mk before parts after', node, hnode, hholds => by
    obtain ⟨hkind, hparts⟩ := hholds
    have hparts' := hreplaced.holdsParts parts hnode [] (List.nil_append _).symm hparts
    rw [List.length_nil, Nat.zero_add, length_of_holdsParts hparts,
      ← hreplaced.children_eq node hnode] at hparts'
    rw [← hreplaced.kind_eq node (hreplaced.tree.bounded node hnode)] at hkind
    exact ⟨hkind, hparts'⟩

theorem holdsPart (hreplaced : AllReplaced table done new after) :
    (part : Part) → {parent : Nat} → table.Reachable parent →
    (front : List Nat) → {node : Nat} → {back : List Nat} →
    table.children parent = front ++ node :: back → table.HoldsPart node part →
    after.HoldsParts (inPlace done new node)
      (part.substitute (front.length + (back.length + 1)) front.length)
  | .leaf leaf, parent, hparent, front, node, back, hlist, hholds => by
    obtain ⟨hkind, hnone⟩ := hholds
    have hnode : table.Reachable node := hparent.child (by simp [hlist])
    by_cases hlegacy : leaf.isLegacy
    · have hdone : node ∈ done :=
        (hreplaced.all node).mpr ⟨hnode, by simp [isLegacy, hkind, hlegacy]⟩
      rw [inPlace, if_pos hdone, Part.substitute_legacy hlegacy, length_beq_zero, length_beq_zero]
      exact holdsParts_leaves (hreplaced.kinds_new parent front node back hparent hlist hdone)
        fun other hother => (hreplaced.fresh node hdone other hother).2.2
    · rw [hreplaced.inPlace_eq (by simp [isLegacy, hkind, hlegacy]), Part.substitute,
        if_neg hlegacy]
      rw [← hreplaced.kind_eq node (hreplaced.tree.bounded node hnode)] at hkind
      have hnone' := hreplaced.children_eq node hnode
      rw [hnone, List.flatMap_nil] at hnone'
      exact ⟨node, [], rfl, ⟨hkind, hnone'⟩, rfl⟩
  | .list value branches, parent, hparent, front, node, back, hlist, hholds => by
    obtain ⟨hkind, hbranches⟩ := hholds
    have hnode : table.Reachable node := hparent.child (by simp [hlist])
    have hbranches' := hreplaced.holdsList branches (fun child => hnode.child) hbranches
    rw [← hreplaced.children_eq node hnode] at hbranches'
    rw [hreplaced.inPlace_eq (by simp [isLegacy, hkind]), Part.substitute]
    rw [← hreplaced.kind_eq node (hreplaced.tree.bounded node hnode)] at hkind
    exact ⟨node, [], rfl, ⟨hkind, hbranches'⟩, rfl⟩

theorem holdsParts (hreplaced : AllReplaced table done new after) :
    (parts : List Part) → {parent : Nat} → table.Reachable parent →
    (front : List Nat) → {nodes : List Nat} → table.children parent = front ++ nodes →
    table.HoldsParts nodes parts →
    after.HoldsParts (nodes.flatMap (inPlace done new))
      (substituteParts (front.length + nodes.length) front.length parts)
  | [], _, _, _, nodes, _, hholds => by
    obtain rfl : nodes = [] := hholds
    rfl
  | part :: parts, parent, hparent, front, nodes, hlist, hholds => by
    obtain ⟨node, others, rfl, hpart, hparts⟩ := hholds
    have hparts' := hreplaced.holdsParts parts hparent (front ++ [node]) (by simp [hlist]) hparts
    rw [List.length_append, List.length_singleton, Nat.add_assoc, Nat.add_comm 1] at hparts'
    exact (hreplaced.holdsPart part hparent front hlist hpart).append hparts'

theorem holdsList (hreplaced : AllReplaced table done new after) :
    (branches : List Branch) → {nodes : List Nat} →
    (∀ node ∈ nodes, table.Reachable node) → table.HoldsList nodes branches →
    after.HoldsList (nodes.flatMap (inPlace done new)) (substituteList branches)
  | [], nodes, _, hholds => by
    obtain rfl : nodes = [] := hholds
    rfl
  | branch :: branches, nodes, hnodes, hholds => by
    obtain ⟨node, others, rfl, hbranch, hbranches⟩ := hholds
    rw [List.forall_mem_cons] at hnodes
    obtain ⟨before, after', hkind⟩ := kind_of_holdsBranch hbranch
    rw [List.flatMap_cons, hreplaced.inPlace_eq (by simp [isLegacy, hkind])]
    exact ⟨node, _, rfl, hreplaced.holdsBranch branch hnodes.1 hbranch,
      hreplaced.holdsList branches hnodes.2 hbranches⟩

end

theorem shows (hreplaced : AllReplaced table done new after) {branches : List Branch}
    (hshows : table.Shows branches) : after.Shows (substituteList branches) := by
  have hlist := hreplaced.holdsList branches (fun child => Reachable.origin.child) hshows.2
  rw [← hreplaced.children_eq root .origin] at hlist
  exact ⟨hreplaced.isTree.rootKind, hlist⟩

/-- What the lists lead to was there before, and was not to be replaced, or it is new. -/
theorem reachable_cases (hreplaced : AllReplaced table done new after)
    (hnode : after.Reachable node) :
    (table.Reachable node ∧ node ∉ done) ∨ ∃ old ∈ done, node ∈ new old := by
  induction hnode with
  | origin =>
    refine .inl ⟨.origin, fun hdone => ?_⟩
    obtain ⟨leaf, hkind, -⟩ := exists_leaf_of_isLegacy (hreplaced.legacy root hdone).2
    rw [hreplaced.tree.rootKind] at hkind
    cases hkind
  | @child above node habove hmem ih =>
    rcases ih with ⟨habove', -⟩ | ⟨old, hold, hnew⟩
    · rw [hreplaced.children_eq above habove'] at hmem
      obtain ⟨child, hchild, hmem⟩ := List.mem_flatMap.mp hmem
      by_cases hdone : child ∈ done
      · rw [inPlace, if_pos hdone] at hmem
        exact .inr ⟨child, hdone, hmem⟩
      · rw [inPlace, if_neg hdone, List.mem_singleton] at hmem
        exact .inl ⟨hmem ▸ habove'.child hchild, hmem ▸ hdone⟩
    · rw [(hreplaced.fresh old hold above hnew).2.2] at hmem
      cases hmem

theorem not_isLegacy (hreplaced : AllReplaced table done new after)
    (hnode : after.Reachable node) : after.isLegacy node = false := by
  rcases hreplaced.reachable_cases hnode with ⟨hold, hdone⟩ | ⟨old, hdone, hnew⟩
  · rw [isLegacy, hreplaced.kind_eq node (hreplaced.tree.bounded node hold)]
    exact Bool.eq_false_iff.mpr fun hlegacy => hdone ((hreplaced.all node).mpr ⟨hold, hlegacy⟩)
  · obtain ⟨hreached, hlegacy⟩ := hreplaced.legacy old hdone
    obtain ⟨parent, hparent, hmem⟩ := hreplaced.tree.exists_list_of_isLegacy hreached hlegacy
    obtain ⟨front, back, hlist⟩ := List.append_of_mem hmem
    have hkinds := hreplaced.kinds_new parent front old back hparent hlist hdone
    have hkind := @List.mem_map_of_mem _ _ _ _ after.kind hnew
    rw [hkinds] at hkind
    obtain ⟨leaf, hleaf, hkind⟩ := List.mem_map.mp hkind
    rw [isLegacy, ← hkind]
    exact not_isLegacy_of_mem_deepInPlace hleaf

end AllReplaced

/-! ### A table stands for one list -/

mutual

theorem holdsBranch_unique {table : Table} : (branch branch' : Branch) → {node : Nat} →
    table.HoldsBranch node branch → table.HoldsBranch node branch' → branch = branch'
  | .mk before parts after, .mk before' parts' after', node, hholds, hholds' => by
    obtain ⟨hkind, hparts⟩ := hholds
    obtain ⟨hkind', hparts'⟩ := hholds'
    rw [hkind] at hkind'
    obtain ⟨rfl, rfl⟩ := Kind.branch.inj hkind'
    rw [holdsParts_unique parts parts' hparts hparts']

theorem holdsPart_unique {table : Table} : (part part' : Part) → {node : Nat} →
    table.HoldsPart node part → table.HoldsPart node part' → part = part'
  | .leaf leaf, .leaf leaf', node, hholds, hholds' => by
    have hkind := hholds.1.symm.trans hholds'.1
    rw [Kind.leaf.inj hkind]
  | .list value branches, .list value' branches', node, hholds, hholds' => by
    obtain ⟨hkind, hlist⟩ := hholds
    obtain ⟨hkind', hlist'⟩ := hholds'
    rw [hkind] at hkind'
    rw [Kind.list.inj hkind', holdsList_unique branches branches' hlist hlist']
  | .leaf _, .list _ _, node, hholds, hholds' => by cases hholds.1.symm.trans hholds'.1
  | .list _ _, .leaf _, node, hholds, hholds' => by cases hholds.1.symm.trans hholds'.1

theorem holdsParts_unique {table : Table} : (parts parts' : List Part) → {nodes : List Nat} →
    table.HoldsParts nodes parts → table.HoldsParts nodes parts' → parts = parts'
  | [], [], _, _, _ => rfl
  | part :: parts, part' :: parts', nodes, hholds, hholds' => by
    obtain ⟨node, others, rfl, hpart, hparts⟩ := hholds
    obtain ⟨_, _, heq, hpart', hparts'⟩ := hholds'
    obtain ⟨rfl, rfl⟩ := List.cons.inj heq
    rw [holdsPart_unique part part' hpart hpart', holdsParts_unique parts parts' hparts hparts']
  | [], part' :: parts', nodes, hholds, hholds' => by
    obtain ⟨_, _, heq, -⟩ := hholds'
    cases hholds.symm.trans heq
  | part :: parts, [], nodes, hholds, hholds' => by
    obtain ⟨_, _, heq, -⟩ := hholds
    cases hholds'.symm.trans heq

theorem holdsList_unique {table : Table} : (branches branches' : List Branch) →
    {nodes : List Nat} → table.HoldsList nodes branches → table.HoldsList nodes branches' →
    branches = branches'
  | [], [], _, _, _ => rfl
  | branch :: branches, branch' :: branches', nodes, hholds, hholds' => by
    obtain ⟨node, others, rfl, hbranch, hlist⟩ := hholds
    obtain ⟨_, _, heq, hbranch', hlist'⟩ := hholds'
    obtain ⟨rfl, rfl⟩ := List.cons.inj heq
    rw [holdsBranch_unique branch branch' hbranch hbranch',
      holdsList_unique branches branches' hlist hlist']
  | [], branch' :: branches', nodes, hholds, hholds' => by
    obtain ⟨_, _, heq, -⟩ := hholds'
    cases hholds.symm.trans heq
  | branch :: branches, [], nodes, hholds, hholds' => by
    obtain ⟨_, _, heq, -⟩ := hholds
    cases hholds'.symm.trans heq

end

theorem Shows.unique {branches branches' : List Branch}
    (hshows : table.Shows branches) (hshows' : table.Shows branches') : branches = branches' :=
  holdsList_unique branches branches' hshows.2 hshows'.2

/-- Replacing the legacy combinators of a selector's table one by one replaces all of them at once, each
by its place in the list as it was read, and leaves none. The tree of the selector is changed in the
same way. -/
theorem shows_modernize_iff (text : List Char) :
    (∀ branches, (ofList (read text)).modernize.Shows branches ↔
      branches = substituteList (read text)) ∧
    (∀ node, (ofList (read text)).modernize.Reachable node →
      (ofList (read text)).modernize.isLegacy node = false) ∧
    modernizeList (read text) = substituteList (read text) := by
  have htree := isTree_ofList (read text)
  obtain ⟨done, new, hreplaced, hall⟩ := htree.replaced_modernize
  have hreplaced : AllReplaced _ done new _ := ⟨hreplaced, htree, hall⟩
  have hshows := hreplaced.shows (shows_ofList (read text))
  refine ⟨fun branches => ⟨fun hshows' => hshows'.unique hshows, ?_⟩,
    fun node => hreplaced.not_isLegacy, modernizeList_eq _⟩
  rintro rfl
  exact hshows

end Table

end StyleMigration.Selector
