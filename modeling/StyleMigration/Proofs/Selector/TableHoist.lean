import StyleMigration.Proofs.Selector.Deep
import StyleMigration.Proofs.Selector.TableEdits
import StyleMigration.Proofs.Selector.TableText

/-!
Hoisting the argument of one branch of a table. Nodes move from the argument to the branch, and the old
argument goes on listing them; but all that the other branches are made of stays as it is, since no node
below one of them is the branch or the root (`IsTree.keeps_insertNew`). So hoisting replaces one branch and
no other, just as it does on the tree of that branch (`IsTree.hoist_top`). What it does to one branch
depends on no other, and the branches can be hoisted in any order (`Hoisted.hoistAll`).
-/

set_option autoImplicit false

namespace StyleMigration.Selector.Table

variable {table : Table} {branches : List Branch} {node : Nat} {branch : Branch}

/-! ### Nodes that stay as they are -/

/-- Another table has the same nodes where `kept` holds, and it holds below a node wherever it holds of the
node. -/
structure Keeps (table other : Table) (kept : Nat → Prop) : Prop where
  kind : ∀ node, kept node → other.kind node = table.kind node
  children : ∀ node, kept node → other.children node = table.children node
  below : ∀ node, kept node → ∀ child ∈ table.children node, kept child

namespace Keeps

variable {table other : Table} {kept : Nat → Prop}

mutual

theorem holdsBranch (hkeeps : Keeps table other kept) : (branch : Branch) → {node : Nat} →
    kept node → table.HoldsBranch node branch → other.HoldsBranch node branch
  | .mk before parts after, node, hnode, hholds => by
    obtain ⟨hkind, hparts⟩ := hholds
    rw [HoldsBranch, hkeeps.kind node hnode, hkeeps.children node hnode]
    exact ⟨hkind, hkeeps.holdsParts parts (hkeeps.below node hnode) hparts⟩

theorem holdsPart (hkeeps : Keeps table other kept) : (part : Part) → {node : Nat} →
    kept node → table.HoldsPart node part → other.HoldsPart node part
  | .leaf leaf, node, hnode, hholds => by
    rwa [HoldsPart, hkeeps.kind node hnode, hkeeps.children node hnode]
  | .list value branches, node, hnode, hholds => by
    obtain ⟨hkind, hlist⟩ := hholds
    rw [HoldsPart, hkeeps.kind node hnode, hkeeps.children node hnode]
    exact ⟨hkind, hkeeps.holdsList branches (hkeeps.below node hnode) hlist⟩

theorem holdsParts (hkeeps : Keeps table other kept) : (parts : List Part) → {nodes : List Nat} →
    (∀ node ∈ nodes, kept node) → table.HoldsParts nodes parts → other.HoldsParts nodes parts
  | [], _, _, hholds => hholds
  | part :: parts, nodes, hnodes, hholds => by
    obtain ⟨node, others, rfl, hpart, hparts⟩ := hholds
    rw [List.forall_mem_cons] at hnodes
    exact ⟨node, others, rfl, hkeeps.holdsPart part hnodes.1 hpart,
      hkeeps.holdsParts parts hnodes.2 hparts⟩

theorem holdsList (hkeeps : Keeps table other kept) : (branches : List Branch) →
    {nodes : List Nat} → (∀ node ∈ nodes, kept node) → table.HoldsList nodes branches →
    other.HoldsList nodes branches
  | [], _, _, hholds => hholds
  | branch :: branches, nodes, hnodes, hholds => by
    obtain ⟨node, others, rfl, hbranch, hlist⟩ := hholds
    rw [List.forall_mem_cons] at hnodes
    exact ⟨node, others, rfl, hkeeps.holdsBranch branch hnodes.1 hbranch,
      hkeeps.holdsList branches hnodes.2 hlist⟩

end

end Keeps

/-- What is below a node other than the root is neither the root nor directly below it. -/
theorem IsTree.child_apart (htree : table.IsTree) {branch : Nat}
    (hbranch : branch ∈ table.branches) {above child : Nat} (habove : table.Reachable above)
    (hroot : above ≠ root) (hchild : child ∈ table.children above) :
    table.Reachable child ∧ child ≠ root ∧ child ≠ branch := by
  refine ⟨habove.child hchild, htree.child_ne_root habove hchild, ?_⟩
  rintro rfl
  exact hroot (htree.parent_unique habove .origin hchild hbranch)

/-- A new list for a branch below the root changes nothing but that branch. -/
theorem IsTree.keeps_insertNew (htree : table.IsTree) {branch : Nat}
    (hbranch : branch ∈ table.branches) (front : List Nat) (kinds : List Kind) (back : List Nat) :
    Keeps table (table.insertNew branch front kinds back)
      fun node => table.Reachable node ∧ node ≠ root ∧ node ≠ branch where
  kind node hnode := kind_insertNew_of_lt (htree.bounded node hnode.1)
  children _ hnode := children_insertNew_of_ne hnode.2.2
  below _ hnode _ hchild := htree.child_apart hbranch hnode.1 hnode.2.1 hchild

/-- New leaves in a list stand for themselves. -/
theorem holdsParts_insertNew {parent : Nat} (hparent : parent < table.entries.size)
    (front : List Nat) (leaves : List Leaf) (back : List Nat) :
    (table.insertNew parent front (leaves.map Kind.leaf) back).HoldsParts
      (table.allocAll (leaves.map Kind.leaf)).1 (leaves.map Part.leaf) := by
  refine holdsParts_leaves ?_ fun node hnode => ?_
  · rw [insertNew, kind_setChildren, map_kind_allocAll]
  · have hnew := (mem_nodes_allocAll.mp hnode).1
    rw [children_insertNew_of_ne (by omega), children_eq_nil_of_size_le hnew]

/-! ### One branch -/

theorem HoldsBranch.holdsParts (hholds : table.HoldsBranch node branch) :
    table.HoldsParts (table.children node) branch.parts := by
  cases branch
  exact hholds.2

theorem HoldsParts.exists_append {parts others : List Part} {nodes : List Nat}
    (hholds : table.HoldsParts nodes (parts ++ others)) :
    ∃ front back, nodes = front ++ back ∧ table.HoldsParts front parts ∧
      table.HoldsParts back others := by
  induction parts generalizing nodes with
  | nil => exact ⟨[], nodes, rfl, rfl, hholds⟩
  | cons part parts ih =>
    obtain ⟨node, rest, rfl, hpart, hrest⟩ := hholds
    obtain ⟨front, back, rfl, hfront, hback⟩ := ih hrest
    exact ⟨node :: front, back, rfl, ⟨node, front, rfl, hpart, hfront⟩, hback⟩

/-- Hoisting does the same to a branch of a table and to its tree: nothing, or it puts the parts of the one
argument after new nodes. -/
theorem HoldsBranch.hoist_cases {before after : List Char}
    {parts : List Part} (hholds : table.HoldsBranch node (.mk before parts after)) :
    (∃ outcome, outcome ≠ .done ∧ table.hoist node = (outcome, table) ∧
        (Branch.mk before parts after).hoist = (outcome, .mk before parts after)) ∨
      ∃ front nodes last argument inner, parts = front ++ [.list deepValue [argument]] ∧
        table.children node = nodes ++ [last] ∧ table.HoldsParts nodes front ∧
        table.kind last = .list deepValue ∧ table.children last = [inner] ∧
        table.HoldsBranch inner argument ∧
        table.hoist node = (.done, table.insertNew node nodes [.leaf deep, .leaf descendant]
          (table.children inner)) ∧
        (Branch.mk before parts after).hoist =
          (.done, .mk before (front ++ [.leaf deep, .leaf descendant] ++ argument.parts) after) := by
  obtain ⟨hkind, hparts⟩ := hholds
  rcases List.eq_nil_or_concat parts with rfl | ⟨front, part, rfl⟩
  · have hnone : table.children node = [] := hparts
    exact .inl ⟨.needless, by decide, by simp [hoist, hnone], rfl⟩
  rw [List.concat_eq_append] at hparts ⊢
  obtain ⟨nodes, back, hlist, hnodes, last, others, rfl, hlast, hothers⟩ := hparts.exists_append
  obtain rfl : others = [] := hothers
  cases part with
  | leaf leaf =>
    obtain ⟨hleaf, -⟩ := hlast
    left
    cases leaf with
    | pseudo value | function value argument =>
      by_cases hdeep : value = deepValue
      · exact ⟨.impossible, by decide, by simp [hoist, hlist, hleaf, hdeep],
          by simp [Branch.hoist, hdeep]⟩
      · exact ⟨.needless, by decide, by simp [hoist, hlist, hleaf, hdeep],
          by simp [Branch.hoist, hdeep]⟩
    | _ => exact ⟨.needless, by decide, by simp [hoist, hlist, hleaf], by simp [Branch.hoist]⟩
  | list value arguments =>
    obtain ⟨hvalue, harguments⟩ := hlast
    by_cases hdeep : value = deepValue
    · subst hdeep
      rcases arguments with _ | ⟨argument, _ | ⟨second, arguments⟩⟩
      · have hnone : table.children last = [] := harguments
        exact .inl ⟨.impossible, by decide, by simp [hoist, hlist, hvalue, hnone],
          by simp [Branch.hoist]⟩
      · obtain ⟨inner, rest, hinner, hargument, hrest⟩ := harguments
        obtain rfl : rest = [] := hrest
        refine .inr ⟨front, nodes, last, argument, inner, rfl, hlist, hnodes, hvalue, hinner,
          hargument, ?_, ?_⟩
        · simp [hoist, hlist, hvalue, hinner, insertNew, children_allocAll]
        · simp [Branch.hoist]
      · obtain ⟨inner, rest, hinner, -, next, rest', rfl, -⟩ := harguments
        exact .inl ⟨.impossible, by decide, by simp [hoist, hlist, hvalue, hinner],
          by simp [Branch.hoist]⟩
    · left
      refine ⟨.needless, by decide, by simp [hoist, hlist, hvalue, hdeep], ?_⟩
      rcases arguments with _ | ⟨argument, _ | ⟨second, arguments⟩⟩ <;> simp [Branch.hoist, hdeep]

/-- One branch of a table was replaced, and the others are as they were. -/
structure ReplacesBranch (table : Table) (node : Nat) (branch : Branch) (after : Table) : Prop where
  isTree : after.IsTree
  branches : after.branches = table.branches
  replaced : after.HoldsBranch node branch
  others : ∀ other ∈ table.branches, other ≠ node → ∀ branch', table.HoldsBranch other branch' →
    after.HoldsBranch other branch'

/-- Hoisting the argument of a branch below the root replaces that branch. -/
theorem IsTree.hoist_top (htree : table.IsTree)
    (hnode : node ∈ table.branches) (hholds : table.HoldsBranch node branch) :
    (table.hoist node).1 = branch.hoist.1 ∧
      ReplacesBranch table node branch.hoist.2 (table.hoist node).2 := by
  cases branch with
  | mk before parts after =>
  have hreached : table.Reachable node := .child .origin hnode
  have htree' := htree.hoist hreached hholds.1
  have hroot : root ≠ node := (htree.child_ne_root .origin hnode).symm
  rcases hholds.hoist_cases with ⟨outcome, -, hhoist, hbranch⟩ |
    ⟨front, nodes, last, argument, inner, rfl, hlist, hnodes, hlast, hinner, hargument, hhoist, hbranch⟩
  · rw [hhoist, hbranch]
    exact ⟨rfl, htree, rfl, hholds, fun _ _ _ _ hother => hother⟩
  rw [hhoist] at htree' ⊢
  rw [hbranch]
  obtain ⟨hlast_reached, hinner_reached, -⟩ :=
    htree.argument_apart hreached hholds.1 hlist hlast hinner
  have hkeeps := htree.keeps_insertNew hnode nodes [.leaf deep, .leaf descendant]
    (table.children inner)
  have hbound := htree.bounded node hreached
  refine ⟨rfl, htree', children_insertNew_of_ne hroot, ⟨?_, ?_⟩, fun other hother hne branch' => ?_⟩
  · rw [kind_insertNew_of_lt hbound]
    exact hholds.1
  · have hinner_root : inner ≠ root := htree.child_ne_root hlast_reached (by simp [hinner])
    have hfront := hkeeps.holdsParts front (fun child hchild =>
      htree.child_apart hnode hreached hroot.symm (by simp [hlist, hchild])) hnodes
    have hback := hkeeps.holdsParts argument.parts (fun child hchild =>
      htree.child_apart hnode hinner_reached hinner_root hchild) hargument.holdsParts
    have hnew := holdsParts_insertNew hbound nodes [deep, descendant] (table.children inner)
    rw [children_insertNew_self hbound]
    exact (hfront.append hnew).append hback
  · exact hkeeps.holdsBranch branch' ⟨.child .origin hother, htree.child_ne_root .origin hother, hne⟩

/-! ### Branches by their places -/

/-- The nodes of a list stand for its branches, each for the one at its place. -/
theorem holdsList_iff {nodes : List Nat} :
    table.HoldsList nodes branches ↔ nodes.length = branches.length ∧
      ∀ (place node : Nat) (branch : Branch), nodes[place]? = some node →
        branches[place]? = some branch → table.HoldsBranch node branch := by
  induction branches generalizing nodes with
  | nil =>
    rw [HoldsList, List.length_nil, List.length_eq_zero_iff]
    simp
  | cons branch branches ih =>
    rw [HoldsList]
    constructor
    · rintro ⟨node, others, rfl, hbranch, hothers⟩
      obtain ⟨hlength, hplaces⟩ := ih.mp hothers
      refine ⟨by rw [List.length_cons, List.length_cons, hlength], fun place => ?_⟩
      cases place with
      | zero =>
        rintro _ _ ⟨⟩ ⟨⟩
        exact hbranch
      | succ place => exact hplaces place
    · rintro ⟨hlength, hplaces⟩
      obtain ⟨node, others, rfl⟩ := List.exists_cons_of_length_eq_add_one hlength
      exact ⟨node, others, rfl, hplaces 0 node branch rfl rfl,
        ih.mpr ⟨Nat.succ.inj hlength, fun place => hplaces (place + 1)⟩⟩

theorem shows_iff :
    table.Shows branches ↔ table.kind root = .root ∧ table.branches.length = branches.length ∧
      ∀ (place node : Nat) (branch : Branch), table.branches[place]? = some node →
        branches[place]? = some branch → table.HoldsBranch node branch :=
  and_congr_right' holdsList_iff

theorem Shows.exists_holdsBranch (hshows : table.Shows branches) (hnode : node ∈ table.branches) :
    ∃ (place : Nat) (branch : Branch), table.branches[place]? = some node ∧
      branches[place]? = some branch ∧ table.HoldsBranch node branch := by
  obtain ⟨-, hlength, hplaces⟩ := shows_iff.mp hshows
  obtain ⟨place, hplace⟩ := List.getElem?_of_mem hnode
  have hin := (List.getElem?_eq_some_iff.mp hplace).1
  rw [hlength] at hin
  have hbranch := List.getElem?_eq_getElem hin
  exact ⟨place, _, hplace, hbranch, hplaces place node _ hplace hbranch⟩

/-- A table with one branch replaced stands for the list with that branch replaced. -/
theorem ReplacesBranch.shows {after : Table} {place : Nat}
    (hreplaces : ReplacesBranch table node branch after) (htree : table.IsTree)
    (hshows : table.Shows branches)
    (hplace : table.branches[place]? = some node) : after.Shows (branches.set place branch) := by
  obtain ⟨-, hlength, hplaces⟩ := shows_iff.mp hshows
  refine shows_iff.mpr ⟨hreplaces.isTree.rootKind, ?_⟩
  rw [hreplaces.branches]
  refine ⟨by rw [List.length_set, hlength], fun other node' branch' hnode' hbranch' => ?_⟩
  rw [List.getElem?_set] at hbranch'
  split at hbranch'
  · rename_i hother
    subst hother
    rw [hplace] at hnode'
    cases hnode'
    split at hbranch'
    · cases hbranch'
      exact hreplaces.replaced
    · cases hbranch'
  · rename_i hother
    have hne : node' ≠ node := by
      rintro rfl
      have hin := (List.getElem?_eq_some_iff.mp hplace).1
      exact hother ((List.getElem?_inj hin (htree.nodup root .origin)).mp
        (hplace.trans hnode'.symm))
    exact hreplaces.others node' (List.mem_of_getElem? hnode') hne branch'
      (hplaces other node' branch' hnode' hbranch')

/-- At each branch hoisting comes to what it comes to on the tree of that branch. -/
theorem IsTree.map_hoist_eq (htree : table.IsTree) (hshows : table.Shows branches) :
    table.branches.map (fun node => (table.hoist node).1) = branches.map fun branch => branch.hoist.1 := by
  obtain ⟨-, hlength, hplaces⟩ := shows_iff.mp hshows
  refine List.ext_getElem (by simpa using hlength) fun place hnode hbranch => ?_
  rw [List.length_map] at hnode hbranch
  rw [List.getElem_map, List.getElem_map]
  have hholds := hplaces place _ _ (List.getElem?_eq_getElem hnode) (List.getElem?_eq_getElem hbranch)
  exact (htree.hoist_top (List.getElem_mem hnode) hholds).1

/-! ### All branches in any order -/

/-- Hoists the arguments of branches one after the other, and says what was done to each. -/
def hoistAll (table : Table) : List Nat → List Hoisting × Table
  | [] => ([], table)
  | node :: nodes =>
    ((table.hoist node).1 :: ((table.hoist node).2.hoistAll nodes).1,
      ((table.hoist node).2.hoistAll nodes).2)

/-- Some branches of a table have had their argument hoisted. -/
structure Hoisted (table : Table) (done : List Nat) (after : Table) : Prop where
  isTree : after.IsTree
  branches : after.branches = table.branches
  holds : ∀ node ∈ table.branches, ∀ branch, table.HoldsBranch node branch →
    after.HoldsBranch node (if node ∈ done then branch.hoist.2 else branch)

namespace Hoisted

variable {table after : Table} {done : List Nat}

theorem none (htree : table.IsTree) : Hoisted table [] table where
  isTree := htree
  branches := rfl
  holds _ _ _ hholds := by simpa using hholds

/-- One more argument is hoisted, as it would have been at the start. -/
theorem hoist (hhoisted : Hoisted table done after) (htree : table.IsTree) {node : Nat}
    (hnode : node ∈ table.branches) {branch : Branch} (hholds : table.HoldsBranch node branch)
    (hnew : node ∉ done) : (after.hoist node).1 = (table.hoist node).1 ∧
      Hoisted table (done ++ [node]) (after.hoist node).2 := by
  have hholds' := hhoisted.holds node hnode branch hholds
  rw [if_neg hnew] at hholds'
  have hnode' : node ∈ after.branches := by rwa [hhoisted.branches]
  obtain ⟨houtcome, hreplaces⟩ := hhoisted.isTree.hoist_top hnode' hholds'
  rw [houtcome, (htree.hoist_top hnode hholds).1]
  refine ⟨rfl, hreplaces.isTree, hreplaces.branches.trans hhoisted.branches, ?_⟩
  intro other hother branch' hbranch'
  by_cases heq : other = node
  · subst heq
    obtain rfl := holdsBranch_unique branch branch' hholds hbranch'
    rw [if_pos (by simp)]
    exact hreplaces.replaced
  · have hsame : (other ∈ done ++ [node]) = (other ∈ done) := by simp [heq]
    simp only [hsame]
    exact hreplaces.others other (by rwa [hhoisted.branches]) heq _
      (hhoisted.holds other hother branch' hbranch')

theorem hoistAll (hhoisted : Hoisted table done after) (htree : table.IsTree)
    (hshows : table.Shows branches) {nodes : List Nat}
    (hnodes : ∀ node ∈ nodes, node ∈ table.branches ∧ node ∉ done) (hnodup : nodes.Nodup) :
    (after.hoistAll nodes).1 = nodes.map (fun node => (table.hoist node).1) ∧
      Hoisted table (done ++ nodes) (after.hoistAll nodes).2 := by
  induction nodes generalizing done after with
  | nil =>
    rw [List.append_nil]
    exact ⟨rfl, hhoisted⟩
  | cons node nodes ih =>
    rw [List.forall_mem_cons] at hnodes
    rw [List.nodup_cons] at hnodup
    obtain ⟨-, branch, -, -, hholds⟩ := hshows.exists_holdsBranch hnodes.1.1
    obtain ⟨houtcome, hstep⟩ := hhoisted.hoist htree hnodes.1.1 hholds hnodes.1.2
    obtain ⟨houtcomes, hrun⟩ := ih hstep (fun other hother => ⟨(hnodes.2 other hother).1, by
      rw [List.mem_append, List.mem_singleton, not_or]
      exact ⟨(hnodes.2 other hother).2, fun heq => hnodup.1 (heq ▸ hother)⟩⟩) hnodup.2
    rw [List.append_assoc, List.singleton_append] at hrun
    rw [Table.hoistAll, houtcome, houtcomes]
    exact ⟨rfl, hrun⟩

/-- After all of them the table stands for the list with every argument hoisted that can be. -/
theorem shows (hhoisted : Hoisted table done after)
    (hshows : table.Shows branches) (hall : ∀ node ∈ table.branches, node ∈ done) :
    after.Shows (branches.map fun branch => branch.hoist.2) := by
  obtain ⟨-, hlength, hplaces⟩ := shows_iff.mp hshows
  refine shows_iff.mpr ⟨hhoisted.isTree.rootKind, ?_⟩
  rw [hhoisted.branches]
  refine ⟨by rw [List.length_map, hlength], fun place node branch hnode hbranch => ?_⟩
  obtain ⟨branch', hbranch', rfl⟩ := Option.map_eq_some_iff.mp (List.getElem?_map ▸ hbranch)
  have hmem := List.mem_of_getElem? hnode
  have hholds := hhoisted.holds node hmem branch' (hplaces place node branch' hnode hbranch')
  rwa [if_pos (hall node hmem)] at hholds

end Hoisted

/-- Hoisting at all branches, in any order, does at each what it would have done at the start. -/
theorem IsTree.hoistAll_perm (htree : table.IsTree)
    (hshows : table.Shows branches) {order : List Nat} (horder : order.Perm table.branches) :
    (table.hoistAll order).1 = order.map (fun node => (table.hoist node).1) ∧
      (table.hoistAll order).2.IsTree ∧
      (table.hoistAll order).2.Shows (branches.map fun branch => branch.hoist.2) := by
  have hnodup := horder.nodup_iff.mpr (htree.nodup root .origin)
  obtain ⟨houtcomes, hrun⟩ := (Hoisted.none htree).hoistAll htree hshows
    (fun node hnode => ⟨horder.mem_iff.mp hnode, List.not_mem_nil⟩) hnodup
  rw [List.nil_append] at hrun
  exact ⟨houtcomes, hrun.isTree, hrun.shows hshows fun node hnode => horder.mem_iff.mpr hnode⟩

/-! ### The table of a selector -/

/-- What hoisting does at one branch of a table that stands for a list. What comes of it says how the branch
ends. The table changes only if the branch ends on `:deep` with exactly one argument; then `:deep`, a
descendant combinator and the parts of the argument stand at the end of that branch, and every other branch
is as it was. -/
structure HoistsExactly (table : Table) (branches : List Branch) (place node : Nat) (branch : Branch) :
    Prop where
  needless_iff : (table.hoist node).1 = .needless ↔ branch.endsOnDeep = false
  done_iff : (table.hoist node).1 = .done ↔
    branch.endsOnDeep = true ∧ branch.endsOnArgument = true
  impossible_iff : (table.hoist node).1 = .impossible ↔
    branch.endsOnDeep = true ∧ branch.endsOnArgument = false
  unchanged : (table.hoist node).1 ≠ .done → (table.hoist node).2 = table
  hoisted : ∀ before front argument after,
    branch = .mk before (front ++ [.list deepValue [argument]]) after →
    ∀ hoisted, hoisted = branches.set place
        (.mk before (front ++ [.leaf deep, .leaf descendant] ++ argument.parts) after) →
      (table.hoist node).2.Shows hoisted ∧
        (table.hoist node).2.outline = listOutline 0 hoisted ∧
        (table.hoist node).2.text = listText hoisted
  others : ∀ other ∈ table.branches, other ≠ node →
    (table.hoist node).2.outlineOf other = table.outlineOf other

theorem IsTree.hoistsExactly (htree : table.IsTree) (hshows : table.Shows branches) {place : Nat}
    (hplace : table.branches[place]? = some node) (hholds : table.HoldsBranch node branch) :
    table.HoistsExactly branches place node branch := by
  have hnode := List.mem_of_getElem? hplace
  obtain ⟨houtcome, hreplaces⟩ := htree.hoist_top hnode hholds
  refine ⟨?_, ?_, ?_, ?_, ?_, ?_⟩
  · rw [houtcome, branch.hoist_eq_needless_iff]
  · rw [houtcome, branch.hoist_eq_done_iff]
    exact (and_iff_right_of_imp Branch.endsOnDeep_of_endsOnArgument).symm
  · rw [houtcome, branch.hoist_eq_impossible_iff]
  · intro hdone
    obtain ⟨before, parts, after⟩ := branch
    rcases hholds.hoist_cases with ⟨outcome, -, hhoist, -⟩ |
      ⟨_, _, _, _, _, _, _, _, _, _, _, hhoist, _⟩
    · rw [hhoist]
    · exact absurd (by rw [hhoist]) hdone
  · rintro before front argument after rfl hoisted rfl
    rw [Branch.hoist_of_argument] at hreplaces
    have hshows' := hreplaces.shows htree hshows hplace
    exact ⟨hshows', hshows'.outline_eq hreplaces.isTree, hshows'.text_eq hreplaces.isTree⟩
  · intro other hother hne
    obtain ⟨-, branch', -, -, hholds'⟩ := hshows.exists_holdsBranch hother
    rw [htree.outlineOf_eq hother hholds', hreplaces.isTree.outlineOf_eq
      (by rwa [hreplaces.branches]) (hreplaces.others other hother hne branch' hholds')]

theorem IsTree.shows_modernize (htree : table.IsTree)
    (hshows : table.Shows branches) : table.modernize.Shows (modernizeList branches) := by
  obtain ⟨done, new, hreplaced, hall⟩ := htree.replaced_modernize
  have hreplaced : AllReplaced _ done new _ := ⟨hreplaced, htree, hall⟩
  rw [modernizeList_eq]
  exact hreplaced.shows hshows

/-- In the table of a selector whose legacy combinators were replaced, hoisting does at each branch what it
should, and leaves all other branches as they are. Hoisting at all branches, in any order, does at each what
it would have done at the start, and ends in the same outline and the same text. -/
theorem hoist_exact_and_local (text : List Char) :
    let table := (ofList (read text)).modernize
    let branches := modernizeList (read text)
    (table.Shows branches ∧ table.outline = listOutline 0 branches ∧
        table.text = listText branches) ∧
      (∀ node ∈ table.branches, ∃ (place : Nat) (branch : Branch),
        table.branches[place]? = some node ∧ branches[place]? = some branch ∧
          table.HoistsExactly branches place node branch) ∧
      ∀ order : List Nat, order.Perm table.branches →
        (table.hoistAll order).1 = order.map (fun node => (table.hoist node).1) ∧
          (table.hoistAll order).2.outline =
            listOutline 0 (branches.map fun branch => branch.hoist.2) ∧
          (table.hoistAll order).2.text = listText (branches.map fun branch => branch.hoist.2) := by
  intro table branches
  have htree : table.IsTree := (isTree_ofList (read text)).modernize
  have hshows : table.Shows branches := (isTree_ofList (read text)).shows_modernize (shows_ofList _)
  refine ⟨⟨hshows, hshows.outline_eq htree, hshows.text_eq htree⟩, fun node hnode => ?_,
    fun order horder => ?_⟩
  · obtain ⟨place, branch, hplace, hbranch, hholds⟩ := hshows.exists_holdsBranch hnode
    exact ⟨place, branch, hplace, hbranch, htree.hoistsExactly hshows hplace hholds⟩
  · obtain ⟨houtcomes, htree', hshows'⟩ := htree.hoistAll_perm hshows horder
    exact ⟨houtcomes, hshows'.outline_eq htree', hshows'.text_eq htree'⟩

/-- The four branches are hoisted from the last to the first: one ends on a `:deep` with two arguments, one on
`:deep` alone, one on another pseudo-class, and one on a `:deep` whose argument has blanks and a `:deep` with
an argument of its own. -/
theorem hoist_exact_and_local_mixed :
    let table := (ofList (read "a >>> :deep( .b :deep(.c) ),:is(d),>>>,:deep(e,f)".toList)).modernize
    let order := table.branches.reverse
    (table.hoistAll order).1 = [.impossible, .impossible, .needless, .done] ∧
      (table.hoistAll order).2.text =
        "a :deep :deep .b :deep(.c),:is(d),:deep,:deep(e,f)".toList := by
  have hexact := hoist_exact_and_local "a >>> :deep( .b :deep(.c) ),:is(d),>>>,:deep(e,f)".toList
  obtain ⟨-, -, horders⟩ := hexact
  obtain ⟨houtcomes, -, htext⟩ := horders _ (List.reverse_perm _)
  refine ⟨houtcomes.trans ?_, htext.trans ?_⟩
  · decide +kernel
  · decide +kernel

end StyleMigration.Selector.Table
