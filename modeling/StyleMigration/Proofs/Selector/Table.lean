import StyleMigration.Selector.Table

/-!
What the operations on a table of nodes do, node by node. A new node changes no list and no parent;
a new list for a node changes no kind and no other list, and gives and takes away parents only among
the nodes of the old and the new list (`parent_setChildren`).
-/

set_option autoImplicit false

namespace StyleMigration.Selector.Table

/-! ### New nodes -/

section Alloc

variable (table : Table) (kind : Kind)

theorem size_alloc : (table.alloc kind).2.entries.size = table.entries.size + 1 :=
  Array.size_push _

theorem children_alloc : (table.alloc kind).2.children = table.children := by
  funext node
  simp only [children, alloc, Array.getElem?_push]
  split
  · rename_i hnew
    simp [hnew]
  · rfl

theorem parent_alloc : (table.alloc kind).2.parent = table.parent := by
  funext node
  simp only [parent, alloc, Array.getElem?_push]
  split
  · rename_i hnew
    simp [hnew]
  · rfl

theorem kind_alloc_self : (table.alloc kind).2.kind table.entries.size = kind := by
  simp [Table.kind, alloc]

theorem kind_alloc_of_lt {node : Nat} (hold : node < table.entries.size) :
    (table.alloc kind).2.kind node = table.kind node := by
  simp only [Table.kind, alloc, Array.getElem?_push, if_neg (Nat.ne_of_lt hold)]

end Alloc

section AllocAll

variable (table : Table) (kinds : List Kind)

theorem allocAll_cons (kind : Kind) :
    table.allocAll (kind :: kinds) =
      (table.entries.size :: ((table.alloc kind).2.allocAll kinds).1,
        ((table.alloc kind).2.allocAll kinds).2) :=
  rfl

theorem nodes_allocAll :
    (table.allocAll kinds).1 = List.range' table.entries.size kinds.length := by
  induction kinds generalizing table with
  | nil => rfl
  | cons kind kinds ih =>
    rw [allocAll_cons, ih, size_alloc, List.length_cons, List.range'_succ]

theorem size_allocAll :
    (table.allocAll kinds).2.entries.size = table.entries.size + kinds.length := by
  induction kinds generalizing table with
  | nil => rfl
  | cons kind kinds ih =>
    rw [allocAll_cons, ih, size_alloc, List.length_cons]
    omega

theorem children_allocAll : (table.allocAll kinds).2.children = table.children := by
  induction kinds generalizing table with
  | nil => rfl
  | cons kind kinds ih => rw [allocAll_cons, ih, children_alloc]

theorem parent_allocAll : (table.allocAll kinds).2.parent = table.parent := by
  induction kinds generalizing table with
  | nil => rfl
  | cons kind kinds ih => rw [allocAll_cons, ih, parent_alloc]

theorem kind_allocAll_of_lt {node : Nat} (hold : node < table.entries.size) :
    (table.allocAll kinds).2.kind node = table.kind node := by
  induction kinds generalizing table with
  | nil => rfl
  | cons kind kinds ih =>
    rw [allocAll_cons, ih _ (by rw [size_alloc]; omega), kind_alloc_of_lt _ _ hold]

theorem map_kind_allocAll :
    (table.allocAll kinds).1.map (table.allocAll kinds).2.kind = kinds := by
  induction kinds generalizing table with
  | nil => rfl
  | cons kind kinds ih =>
    rw [allocAll_cons, List.map_cons, ih, kind_allocAll_of_lt _ _ (by rw [size_alloc]; omega),
      kind_alloc_self]

end AllocAll

/-! ### New lists -/

/-- Two tables have the same nodes with the same kinds and lists; only parents may differ. -/
structure SameNodes (table other : Table) : Prop where
  size : other.entries.size = table.entries.size
  kind : other.kind = table.kind
  children : other.children = table.children

theorem SameNodes.refl (table : Table) : SameNodes table table :=
  ⟨rfl, rfl, rfl⟩

theorem SameNodes.trans {first second third : Table} (hfirst : SameNodes first second)
    (hsecond : SameNodes second third) : SameNodes first third :=
  ⟨hsecond.size.trans hfirst.size, hsecond.kind.trans hfirst.kind,
    hsecond.children.trans hfirst.children⟩

theorem sameNodes_setParent (table : Table) (node : Nat) (parent? : Option Nat) :
    SameNodes table (table.setParent node parent?) where
  size := Array.size_modify
  kind := by
    funext other
    simp only [kind, setParent, Array.getElem?_modify]
    split <;> cases table.entries[other]? <;> rfl
  children := by
    funext other
    simp only [children, setParent, Array.getElem?_modify]
    split <;> cases table.entries[other]? <;> rfl

theorem parent_setParent (table : Table) (node : Nat) (parent? : Option Nat) (other : Nat) :
    (table.setParent node parent?).parent other =
      if other = node ∧ other < table.entries.size then parent? else table.parent other := by
  simp only [parent, setParent, Array.getElem?_modify]
  by_cases hnode : node = other
  · subst hnode
    by_cases hin : node < table.entries.size <;> simp [hin]
  · rw [if_neg hnode, if_neg (by omega)]

theorem lt_size_of_parent {table : Table} {node parent : Nat}
    (hparent : table.parent node = some parent) : node < table.entries.size := by
  refine Nat.lt_of_not_le fun hout => ?_
  simp [Table.parent, Array.getElem?_eq_none hout] at hparent

/-- Takes a node away as the parent of those in a list that have it as parent. -/
def release (table : Table) (parent : Nat) (nodes : List Nat) : Table :=
  nodes.foldl (fun table child =>
    if table.parent child = some parent then table.setParent child none else table) table

/-- Makes a node the parent of those in a list. -/
def link (table : Table) (parent : Nat) (nodes : List Nat) : Table :=
  nodes.foldl (fun table child => table.setParent child (some parent)) table

/-- Gives a node a list without a look at parents. -/
def setList (table : Table) (node : Nat) (children : List Nat) : Table :=
  ⟨table.entries.modify node fun entry => { entry with children }⟩

theorem setChildren_eq (table : Table) (parent : Nat) (nodes : List Nat) :
    table.setChildren parent nodes =
      ((table.release parent (table.children parent)).link parent nodes).setList parent nodes :=
  rfl

section Links

variable (table : Table) (parent : Nat) (nodes : List Nat)

theorem sameNodes_release : SameNodes table (table.release parent nodes) := by
  induction nodes generalizing table with
  | nil => exact .refl table
  | cons child nodes ih =>
    rw [release, List.foldl_cons, ← release]
    refine SameNodes.trans ?_ (ih _)
    split
    · exact sameNodes_setParent ..
    · exact .refl table

theorem parent_release (node : Nat) :
    (table.release parent nodes).parent node =
      if node ∈ nodes ∧ table.parent node = some parent then none else table.parent node := by
  induction nodes generalizing table with
  | nil => simp [release]
  | cons child nodes ih =>
    rw [release, List.foldl_cons, ← release, ih]
    by_cases hparent : table.parent child = some parent
    · rw [if_pos hparent, parent_setParent]
      by_cases hnode : node = child
      · subst hnode
        simp [hparent, lt_size_of_parent hparent]
      · simp [hnode]
    · rw [if_neg hparent]
      by_cases hnode : node = child
      · subst hnode
        simp [hparent]
      · simp [hnode]

theorem sameNodes_link : SameNodes table (table.link parent nodes) := by
  induction nodes generalizing table with
  | nil => exact .refl table
  | cons child nodes ih => exact (sameNodes_setParent ..).trans (ih _)

theorem parent_link (node : Nat) :
    (table.link parent nodes).parent node =
      if node ∈ nodes ∧ node < table.entries.size then some parent else table.parent node := by
  induction nodes generalizing table with
  | nil => simp [link]
  | cons child nodes ih =>
    rw [link, List.foldl_cons, ← link, ih, (sameNodes_setParent ..).size, parent_setParent]
    by_cases hnode : node = child
    · subst hnode
      by_cases hin : node < table.entries.size <;> simp [hin]
    · simp [hnode]

theorem sameNodes_relink :
    SameNodes table ((table.release parent (table.children parent)).link parent nodes) :=
  (sameNodes_release ..).trans (sameNodes_link ..)

theorem size_setChildren :
    (table.setChildren parent nodes).entries.size = table.entries.size := by
  rw [setChildren_eq, setList, Array.size_modify, (sameNodes_relink ..).size]

theorem kind_setChildren : (table.setChildren parent nodes).kind = table.kind := by
  rw [setChildren_eq, ← (sameNodes_relink table parent nodes).kind]
  generalize (release _ parent _).link parent nodes = relinked
  funext node
  simp only [kind, setList, Array.getElem?_modify]
  split <;> cases relinked.entries[node]? <;> rfl

theorem children_setChildren_of_ne {node : Nat} (hne : node ≠ parent) :
    (table.setChildren parent nodes).children node = table.children node := by
  have hsame := (sameNodes_relink table parent nodes).children
  rw [setChildren_eq]
  generalize (release _ parent _).link parent nodes = relinked at hsame ⊢
  rw [← hsame]
  simp only [children, setList, Array.getElem?_modify, if_neg hne.symm]

theorem children_setChildren_self (hin : parent < table.entries.size) :
    (table.setChildren parent nodes).children parent = nodes := by
  rw [← (sameNodes_relink table parent nodes).size] at hin
  rw [setChildren_eq]
  generalize (release _ parent _).link parent nodes = relinked at hin ⊢
  simp [setList, children, Array.getElem?_modify, Array.getElem?_eq_getElem hin]

/-- The nodes of the new list get the parent, and the others of the old list lose it. -/
theorem parent_setChildren (node : Nat) :
    (table.setChildren parent nodes).parent node =
      if node ∈ nodes ∧ node < table.entries.size then some parent
      else if node ∈ table.children parent ∧ table.parent node = some parent then none
      else table.parent node := by
  rw [← parent_release, ← (sameNodes_release table parent (table.children parent)).size,
    ← parent_link, setChildren_eq]
  generalize (release _ parent _).link parent nodes = relinked
  simp only [Table.parent, setList, Array.getElem?_modify]
  split <;> cases relinked.entries[node]? <;> rfl

end Links

end StyleMigration.Selector.Table
