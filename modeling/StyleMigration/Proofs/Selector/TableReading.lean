import StyleMigration.Proofs.Selector.TableTree

/-!
The table of a selector list. Each branch and each part gets a new node, a node before all below it, and
nothing that is in the table changes while nodes are added (`Adds`). So the table of a list is a tree
(`isTree_ofList`), and it holds that list (`shows_ofList`).
-/

set_option autoImplicit false

namespace StyleMigration.Selector

namespace Table

variable {table : Table} {nodes : List Nat} {node : Nat}

/-! ### What a table holds -/

mutual

/-- A node and all below it stand for a branch. -/
def HoldsBranch (table : Table) (node : Nat) : Branch → Prop
  | .mk before parts after =>
    table.kind node = .branch before after ∧ table.HoldsParts (table.children node) parts

/-- A node and all below it stand for a part. -/
def HoldsPart (table : Table) (node : Nat) : Part → Prop
  | .leaf leaf => table.kind node = .leaf leaf ∧ table.children node = []
  | .list value branches =>
    table.kind node = .list value ∧ table.HoldsList (table.children node) branches

def HoldsParts (table : Table) (nodes : List Nat) : List Part → Prop
  | [] => nodes = []
  | part :: parts =>
    ∃ node others, nodes = node :: others ∧ table.HoldsPart node part ∧
      table.HoldsParts others parts

def HoldsList (table : Table) (nodes : List Nat) : List Branch → Prop
  | [] => nodes = []
  | branch :: branches =>
    ∃ node others, nodes = node :: others ∧ table.HoldsBranch node branch ∧
      table.HoldsList others branches

end

/-- The selector list that a table stands for. -/
def Shows (table : Table) (branches : List Branch) : Prop :=
  table.kind root = .root ∧ table.HoldsList (table.children root) branches

theorem exists_part_of_holdsParts {parts : List Part}
    (hholds : table.HoldsParts nodes parts) (hnode : node ∈ nodes) :
    ∃ part ∈ parts, table.HoldsPart node part := by
  induction parts generalizing nodes with
  | nil =>
    rw [HoldsParts] at hholds
    rw [hholds] at hnode
    cases hnode
  | cons part parts ih =>
    rw [HoldsParts] at hholds
    obtain ⟨first, others, rfl, hpart, hothers⟩ := hholds
    rcases List.mem_cons.mp hnode with rfl | hnode
    · exact ⟨part, List.mem_cons_self, hpart⟩
    · obtain ⟨other, hmem, hother⟩ := ih hothers hnode
      exact ⟨other, List.mem_cons_of_mem _ hmem, hother⟩

theorem exists_branch_of_holdsList {branches : List Branch}
    (hholds : table.HoldsList nodes branches) (hnode : node ∈ nodes) :
    ∃ branch ∈ branches, table.HoldsBranch node branch := by
  induction branches generalizing nodes with
  | nil =>
    rw [HoldsList] at hholds
    rw [hholds] at hnode
    cases hnode
  | cons branch branches ih =>
    rw [HoldsList] at hholds
    obtain ⟨first, others, rfl, hbranch, hothers⟩ := hholds
    rcases List.mem_cons.mp hnode with rfl | hnode
    · exact ⟨branch, List.mem_cons_self, hbranch⟩
    · obtain ⟨other, hmem, hother⟩ := ih hothers hnode
      exact ⟨other, List.mem_cons_of_mem _ hmem, hother⟩

theorem kind_of_holdsBranch {branch : Branch} (hholds : table.HoldsBranch node branch) :
    ∃ before after, table.kind node = .branch before after := by
  cases branch
  rw [HoldsBranch] at hholds
  exact ⟨_, _, hholds.1⟩

theorem kind_of_holdsPart {part : Part}
    (hholds : table.HoldsPart node part) (before after : List Char) :
    (Kind.branch before after).admits (table.kind node) = true := by
  cases part <;> rw [HoldsPart] at hholds <;> rw [hholds.1] <;> rfl

theorem admits_of_holdsParts {parts : List Part}
    (hholds : table.HoldsParts nodes parts) (before after : List Char) :
    ∀ node ∈ nodes, (Kind.branch before after).admits (table.kind node) = true := by
  intro node hnode
  obtain ⟨part, -, hpart⟩ := exists_part_of_holdsParts hholds hnode
  exact kind_of_holdsPart hpart before after

theorem kinds_of_holdsList {branches : List Branch} (hholds : table.HoldsList nodes branches) :
    ∀ node ∈ nodes, ∃ before after, table.kind node = .branch before after := by
  intro node hnode
  obtain ⟨branch, -, hbranch⟩ := exists_branch_of_holdsList hholds hnode
  exact kind_of_holdsBranch hbranch

/-! ### Adding nodes -/

/-- The list of a node is as in a tree whose nodes come before all below them. -/
structure Wired (table : Table) (node : Nat) : Prop where
  nodup : (table.children node).Nodup
  after : ∀ child ∈ table.children node, node < child ∧ child < table.entries.size
  linked : ∀ child ∈ table.children node, table.parent child = some node
  admitted : ∀ child ∈ table.children node,
    (table.kind node).admits (table.kind child) = true

/-- Two tables have the same kinds and lists from one node up to another. -/
def AgreeBetween (first last : Nat) (table other : Table) : Prop :=
  ∀ node, first ≤ node → node < last →
    other.kind node = table.kind node ∧ other.children node = table.children node

/-- Nodes were added to a table, and the given ones of them have no parent yet. `holds` is what they
stand for in every later table that leaves them as they are. -/
structure Adds (table : Table) (nodes : List Nat) (after : Table) (holds : Table → Prop) :
    Prop where
  size_le : table.entries.size ≤ after.entries.size
  kept : ∀ node < table.entries.size, after.kind node = table.kind node ∧
    after.children node = table.children node ∧ after.parent node = table.parent node
  within : ∀ node ∈ nodes, table.entries.size ≤ node ∧ node < after.entries.size
  sorted : nodes.Pairwise (· < ·)
  loose : ∀ node ∈ nodes, after.parent node = none
  wired : ∀ node, table.entries.size ≤ node → node < after.entries.size → after.Wired node
  holds : ∀ later, AgreeBetween table.entries.size after.entries.size after later → holds later

namespace Adds

variable {table middle after : Table} {nodes others : List Nat} {holds holds' : Table → Prop}

theorem imp (hadds : Adds table nodes after holds) (himp : ∀ later, holds later → holds' later) :
    Adds table nodes after holds' :=
  { hadds with holds := fun later hagree => himp later (hadds.holds later hagree) }

theorem holds_self (hadds : Adds table nodes after holds) : holds after :=
  hadds.holds after fun _ _ _ => ⟨rfl, rfl⟩

theorem none (table : Table) : Adds table [] table fun _ => True where
  size_le := Nat.le_refl _
  kept _ _ := ⟨rfl, rfl, rfl⟩
  within := by simp
  sorted := .nil
  loose := by simp
  wired _ hfirst hlast := absurd hlast (Nat.not_lt.mpr hfirst)
  holds _ _ := trivial

theorem alloc (table : Table) (kind : Kind) :
    Adds table [table.entries.size] (table.alloc kind).2 fun later =>
      later.kind table.entries.size = kind ∧ later.children table.entries.size = [] := by
  have hnone := children_eq_nil_of_size_le (Nat.le_refl table.entries.size)
  have hsize := size_alloc table kind
  refine ⟨by omega, ?_, ?_, List.pairwise_singleton _ _, ?_, ?_, ?_⟩
  · intro node hnode
    exact ⟨kind_alloc_of_lt table kind hnode, by rw [children_alloc], by rw [parent_alloc]⟩
  · simp [hsize]
  · rw [List.forall_mem_singleton, parent_alloc]
    simp [parent]
  · intro node hfirst hlast
    obtain rfl : node = table.entries.size := by omega
    rw [← children_alloc table kind] at hnone
    constructor <;> simp [hnone]
  · intro later hagree
    obtain ⟨hkind, hchildren⟩ := hagree table.entries.size (Nat.le_refl _) (by omega)
    rw [hkind, hchildren, kind_alloc_self, children_alloc]
    exact ⟨rfl, hnone⟩

/-- What was added first stays as it is while more is added. -/
theorem append (hfirst : Adds table nodes middle holds)
    (hsecond : Adds middle others after holds') :
    Adds table (nodes ++ others) after fun later => holds later ∧ holds' later := by
  have hsize := hfirst.size_le
  have hsize' := hsecond.size_le
  refine ⟨by omega, ?_, ?_, ?_, ?_, ?_, ?_⟩
  · intro node hnode
    obtain ⟨hkind, hchildren, hparent⟩ := hfirst.kept node hnode
    obtain ⟨hkind', hchildren', hparent'⟩ := hsecond.kept node (by omega)
    exact ⟨hkind'.trans hkind, hchildren'.trans hchildren, hparent'.trans hparent⟩
  · intro node hnode
    rcases List.mem_append.mp hnode with hnode | hnode
    · have hwithin := hfirst.within node hnode
      omega
    · have hwithin := hsecond.within node hnode
      omega
  · refine List.pairwise_append.mpr ⟨hfirst.sorted, hsecond.sorted, fun node hnode other hother => ?_⟩
    have hwithin := hfirst.within node hnode
    have hwithin' := hsecond.within other hother
    omega
  · intro node hnode
    rcases List.mem_append.mp hnode with hnode | hnode
    · rw [(hsecond.kept node (hfirst.within node hnode).2).2.2]
      exact hfirst.loose node hnode
    · exact hsecond.loose node hnode
  · intro node hlow hhigh
    by_cases hmiddle : node < middle.entries.size
    · have hwired := hfirst.wired node hlow hmiddle
      obtain ⟨hkind, hchildren, -⟩ := hsecond.kept node hmiddle
      refine ⟨?_, ?_, ?_, ?_⟩ <;> rw [hchildren]
      · exact hwired.nodup
      · intro child hchild
        have hafter := hwired.after child hchild
        omega
      · intro child hchild
        rw [(hsecond.kept child (hwired.after child hchild).2).2.2]
        exact hwired.linked child hchild
      · intro child hchild
        rw [hkind, (hsecond.kept child (hwired.after child hchild).2).1]
        exact hwired.admitted child hchild
    · exact hsecond.wired node (Nat.not_lt.mp hmiddle) hhigh
  · intro later hagree
    refine ⟨hfirst.holds later fun node hlow hhigh => ?_,
      hsecond.holds later fun node hlow hhigh => hagree node (by omega) hhigh⟩
    obtain ⟨hkind, hchildren⟩ := hagree node hlow (by omega)
    obtain ⟨hkind', hchildren', -⟩ := hsecond.kept node hhigh
    exact ⟨hkind.trans hkind', hchildren.trans hchildren'⟩

/-- A new node gets the nodes that were added after it. -/
theorem wrap {kind : Kind} (hadds : Adds (table.alloc kind).2 nodes after holds)
    (hadmits : ∀ node ∈ nodes, kind.admits (after.kind node) = true) :
    Adds table [table.entries.size] (after.setChildren table.entries.size nodes) fun later =>
      later.kind table.entries.size = kind ∧ later.children table.entries.size = nodes ∧
        holds later := by
  have hnew := Adds.alloc table kind
  have hall := hnew.append hadds
  have hsize := size_alloc table kind
  have hsize' := hadds.size_le
  obtain ⟨hkind, hnone⟩ := (hall.holds_self).1
  have hself := children_setChildren_self after table.entries.size nodes (by omega)
  have hother {node : Nat} (hne : node ≠ table.entries.size) :=
    children_setChildren_of_ne after table.entries.size nodes hne
  have hparent (node : Nat) : (after.setChildren table.entries.size nodes).parent node =
      if node ∈ nodes then some table.entries.size else after.parent node := by
    rw [parent_setChildren, hnone]
    by_cases hmem : node ∈ nodes
    · simp [hmem, (hadds.within node hmem).2]
    · simp [hmem]
  have hfresh {node : Nat} (hnode : node < table.entries.size + 1) : node ∉ nodes := by
    intro hmem
    have hwithin := hadds.within node hmem
    omega
  refine ⟨?_, ?_, ?_, List.pairwise_singleton _ _, ?_, ?_, ?_⟩
  · rw [size_setChildren]
    omega
  · intro node hnode
    obtain ⟨hkept, hkept', hkept''⟩ := hall.kept node hnode
    rw [kind_setChildren, hother (by omega), hparent, if_neg (hfresh (by omega))]
    exact ⟨hkept, hkept', hkept''⟩
  · rw [size_setChildren]
    simp only [List.mem_singleton, forall_eq]
    omega
  · simp only [List.mem_singleton, forall_eq]
    rw [hparent, if_neg (hfresh (by omega))]
    exact hall.loose _ (by simp)
  · intro node hlow hhigh
    rw [size_setChildren] at hhigh
    by_cases hnode : node = table.entries.size
    · subst hnode
      refine ⟨?_, ?_, ?_, ?_⟩ <;> rw [hself]
      · exact hadds.sorted.imp Nat.ne_of_lt
      · intro child hchild
        have hwithin := hadds.within child hchild
        rw [size_setChildren]
        omega
      · intro child hchild
        rw [hparent, if_pos hchild]
      · intro child hchild
        rw [kind_setChildren, hkind]
        exact hadmits child hchild
    · have hwired := hall.wired node hlow hhigh
      refine ⟨?_, ?_, ?_, ?_⟩ <;> rw [hother hnode]
      · exact hwired.nodup
      · rw [size_setChildren]
        exact hwired.after
      · intro child hchild
        have hlinked := hwired.linked child hchild
        rw [hparent, if_neg, hlinked]
        intro hmem
        rw [hadds.loose child hmem] at hlinked
        cases hlinked
      · rw [kind_setChildren]
        exact hwired.admitted
  · intro later hagree
    rw [size_setChildren] at hagree
    obtain ⟨hlater, hlater'⟩ := hagree table.entries.size (Nat.le_refl _) (by omega)
    rw [kind_setChildren] at hlater
    refine ⟨hlater.trans hkind, hlater'.trans hself, hadds.holds later fun node hlow hhigh => ?_⟩
    obtain ⟨hsame, hsame'⟩ := hagree node (by omega) hhigh
    rw [kind_setChildren] at hsame
    exact ⟨hsame, hsame'.trans (hother (by omega))⟩

end Adds

mutual

theorem adds_addBranch (table : Table) : (branch : Branch) →
    Adds table [(table.addBranch branch).1] (table.addBranch branch).2 fun later =>
      later.HoldsBranch (table.addBranch branch).1 branch
  | .mk before parts after => by
    have hparts := adds_addParts (table.alloc (.branch before after)).2 parts
    refine (hparts.wrap (admits_of_holdsParts hparts.holds_self before after)).imp ?_
    rintro later ⟨hkind, hchildren, hholds⟩
    rw [← hchildren] at hholds
    exact ⟨hkind, hholds⟩

theorem adds_addPart (table : Table) : (part : Part) →
    Adds table [(table.addPart part).1] (table.addPart part).2 fun later =>
      later.HoldsPart (table.addPart part).1 part
  | .leaf leaf => Adds.alloc table (.leaf leaf)
  | .list value branches => by
    have hlist := adds_addList (table.alloc (.list value)).2 branches
    refine (hlist.wrap fun node hnode => ?_).imp ?_
    · obtain ⟨before, after, hkind⟩ := kinds_of_holdsList hlist.holds_self node hnode
      rw [hkind]
      rfl
    · rintro later ⟨hkind, hchildren, hholds⟩
      rw [← hchildren] at hholds
      exact ⟨hkind, hholds⟩

theorem adds_addParts (table : Table) : (parts : List Part) →
    Adds table (table.addParts parts).1 (table.addParts parts).2 fun later =>
      later.HoldsParts (table.addParts parts).1 parts
  | [] => (Adds.none table).imp fun _ _ => rfl
  | part :: parts =>
    ((adds_addPart table part).append (adds_addParts _ parts)).imp
      fun _ hholds => ⟨_, _, rfl, hholds⟩

theorem adds_addList (table : Table) : (branches : List Branch) →
    Adds table (table.addList branches).1 (table.addList branches).2 fun later =>
      later.HoldsList (table.addList branches).1 branches
  | [] => (Adds.none table).imp fun _ _ => rfl
  | branch :: branches =>
    ((adds_addBranch table branch).append (adds_addList _ branches)).imp
      fun _ hholds => ⟨_, _, rfl, hholds⟩

end

/-- A root with the given branches below it, made in an empty table. -/
theorem adds_ofList (branches : List Branch) :
    Adds ⟨#[]⟩ [root] (ofList branches) fun later => later.Shows branches := by
  have hlist := adds_addList (alloc ⟨#[]⟩ .root).2 branches
  refine (hlist.wrap fun node hnode => ?_).imp ?_
  · obtain ⟨before, after, hkind⟩ := kinds_of_holdsList hlist.holds_self node hnode
    rw [hkind]
    rfl
  · rintro later ⟨hkind, hchildren, hholds⟩
    rw [← hchildren] at hholds
    exact ⟨hkind, hholds⟩

/-- The table of a list stands for that list. -/
theorem shows_ofList (branches : List Branch) : (ofList branches).Shows branches :=
  (adds_ofList branches).holds_self

theorem isTree_ofList (branches : List Branch) : (ofList branches).IsTree := by
  have hadds := adds_ofList branches
  have hbounded : ∀ node, (ofList branches).Reachable node →
      node < (ofList branches).entries.size := by
    intro node hnode
    induction hnode with
    | origin => exact (hadds.within root (by simp)).2
    | child habove hmem ih => exact ((hadds.wired _ (Nat.zero_le _) ih).after _ hmem).2
  have hwired : ∀ node, (ofList branches).Reachable node → (ofList branches).Wired node :=
    fun node hnode => hadds.wired node (Nat.zero_le _) (hbounded node hnode)
  exact {
    rootKind := hadds.holds_self.1
    rootParent := hadds.loose root (by simp)
    bounded := hbounded
    linked := fun node hnode => (hwired node hnode).linked
    nodup := fun node hnode => (hwired node hnode).nodup
    admitted := fun node hnode => (hwired node hnode).admitted }

end Table

end StyleMigration.Selector
