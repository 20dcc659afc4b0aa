import StyleMigration.Proofs.Selector.TableModern

/-!
Editing a selector's table. Hoisting takes the parts of an argument over into the branch that ends on
it, while the argument, which no list leads to any more, goes on listing them (`hoist_cases`). What the
lists lead to stays a tree (`IsTree.hoist`), so it is one after any edits
(`isArborescent_of_edited`).
-/

set_option autoImplicit false

namespace StyleMigration.Selector

/-- All branches may have the same below them. -/
theorem Kind.admits_branch {before after before' after' : List Char} {inner : Kind}
    (hadmits : (Kind.branch before after).admits inner = true) :
    (Kind.branch before' after').admits inner = true := by
  cases inner with
  | leaf leaf => rfl
  | list value => rfl
  | _ => cases hadmits

/-- Below the root and below lists there are branches. -/
theorem Kind.eq_branch_of_lists {outer inner : Kind}
    (houter : outer = .root ∨ ∃ value, outer = .list value) (hadmits : outer.admits inner = true) :
    ∃ before after, inner = .branch before after := by
  cases inner with
  | branch before after => exact ⟨before, after, rfl⟩
  | _ => obtain rfl | ⟨value, rfl⟩ := houter <;> cases hadmits

namespace Table

/-! ### Hoisting an argument -/

/-- What hoisting does to a table: nothing, or it puts the argument's parts after new nodes. -/
theorem hoist_cases (table : Table) (branch : Nat) :
    (table.hoist branch).2 = table ∨
      ∃ front last value argument, table.children branch = front ++ [last] ∧
        table.kind last = .list value ∧ table.children last = [argument] ∧
        (table.hoist branch).2 = table.insertNew branch front [.leaf deep, .leaf descendant]
          (table.children argument) := by
  cases hlast : (table.children branch).getLast? with
  | none => exact .inl (by simp [hoist, hlast])
  | some last =>
    obtain ⟨front, hlist⟩ := List.getLast?_eq_some_iff.mp hlast
    cases hkind : table.kind last with
    | root => exact .inl (by simp [hoist, hlast, hkind])
    | branch before after => exact .inl (by simp [hoist, hlast, hkind])
    | leaf leaf => cases leaf <;> exact .inl (by simp [hoist, hlast, hkind])
    | list value =>
      by_cases hdeep : value = deepValue
      · rcases hchildren : table.children last with _ | ⟨argument, _ | ⟨second, others⟩⟩
        · exact .inl (by simp [hoist, hlast, hkind, hchildren, hdeep])
        · refine .inr ⟨front, last, value, argument, hlist, hkind, hchildren, ?_⟩
          simp [hoist, hkind, hchildren, hdeep, hlist, insertNew, children_allocAll]
        · exact .inl (by simp [hoist, hlast, hkind, hchildren, hdeep])
      · exact .inl (by simp [hoist, hlast, hkind, hdeep])

section Hoist

variable {table : Table} {branch last argument : Nat} {before after value : List Char}
  {front : List Nat} {kinds : List Kind}

/-- Where a branch ends on a list with one argument, the parts of the branch and of the argument are
different nodes, and the argument is neither the list nor the branch. -/
theorem IsTree.argument_apart (htree : table.IsTree) (hbranch : table.Reachable branch)
    (hkind : table.kind branch = .branch before after)
    (hlist : table.children branch = front ++ [last]) (hlast : table.kind last = .list value)
    (hargument : table.children last = [argument]) :
    table.Reachable last ∧ table.Reachable argument ∧ argument ≠ last ∧ argument ≠ branch ∧
      branch ≠ last := by
  have hlast_mem : last ∈ table.children branch := by simp [hlist]
  have hargument_mem : argument ∈ table.children last := by simp [hargument]
  obtain ⟨depth, hstands⟩ := hbranch.exists_depth
  have hdepth := (hstands.child hlast_mem).child hargument_mem
  refine ⟨hbranch.child hlast_mem, hdepth.reachable, ?_, ?_, ?_⟩
  · rintro rfl
    have heq := htree.depth_eq hdepth (hstands.child hlast_mem)
    omega
  · rintro rfl
    have heq := htree.depth_eq hdepth hstands
    omega
  · rintro rfl
    rw [hkind] at hlast
    cases hlast

/-- A list at the end of a branch and its only argument are no longer reached once the parts of the
argument stand in the branch instead. -/
theorem IsTree.ne_of_reachable_insertNew (htree : table.IsTree) (hbranch : table.Reachable branch)
    (hkind : table.kind branch = .branch before after)
    (hlist : table.children branch = front ++ [last]) (hlast : table.kind last = .list value)
    (hargument : table.children last = [argument]) {node : Nat}
    (hnode : (table.insertNew branch front kinds (table.children argument)).Reachable node) :
    node ≠ last ∧ node ≠ argument := by
  obtain ⟨hlast_reached, hargument_reached, hargument_last, hargument_branch, hbranch_last⟩ :=
    htree.argument_apart hbranch hkind hlist hlast hargument
  have hlast_mem : last ∈ table.children branch := by simp [hlist]
  have hargument_mem : argument ∈ table.children last := by simp [hargument]
  have hreached : ∀ other ∈ front ++ table.children argument, table.Reachable other := by
    intro other hother
    rcases List.mem_append.mp hother with hfront | hback
    · exact hbranch.child (by simp [hlist, hfront])
    · exact hargument_reached.child hback
  induction hnode with
  | origin =>
    exact ⟨(htree.child_ne_root hbranch hlast_mem).symm,
      (htree.child_ne_root hlast_reached hargument_mem).symm⟩
  | @child above node habove hmem ih =>
    by_cases heq : above = branch
    · subst heq
      rw [children_insertNew_self (htree.bounded above hbranch), List.append_assoc,
        List.mem_append, List.mem_append] at hmem
      rcases hmem with hfront | hnew | hback
      · constructor
        · rintro rfl
          have hnodup := htree.nodup above hbranch
          rw [hlist, List.nodup_append] at hnodup
          exact hnodup.2.2 node hfront node List.mem_cons_self rfl
        · rintro rfl
          exact hbranch_last (htree.parent_unique hbranch hlast_reached
            (by simp [hlist, hfront]) hargument_mem)
      · have hsize := (mem_nodes_allocAll.mp hnew).1
        have hlast_lt := htree.bounded last hlast_reached
        have hargument_lt := htree.bounded argument hargument_reached
        omega
      · constructor
        · rintro rfl
          exact hargument_branch (htree.parent_unique hargument_reached hbranch hback hlast_mem)
        · rintro rfl
          exact hargument_last (htree.parent_unique hargument_reached hlast_reached hback
            hargument_mem)
    · rw [children_insertNew_of_ne heq] at hmem
      rcases reachable_of_insertNew (htree.bounded branch hbranch) hreached habove with
        habove' | hout
      · constructor
        · rintro rfl
          exact heq (htree.parent_unique habove' hbranch hmem hlast_mem)
        · rintro rfl
          exact ih.1 (htree.parent_unique habove' hlast_reached hmem hargument_mem)
      · rw [children_eq_nil_of_size_le hout] at hmem
        cases hmem

/-- Hoisting the argument of a branch keeps a tree. -/
theorem IsTree.hoist (htree : table.IsTree) (hbranch : table.Reachable branch)
    (hkind : table.kind branch = .branch before after) : (table.hoist branch).2.IsTree := by
  rcases table.hoist_cases branch with hsame | ⟨front, last, value, argument, hlist, hlast,
    hargument, hhoist⟩
  · rwa [hsame]
  rw [hhoist]
  obtain ⟨hlast_reached, hargument_reached, -, hargument_branch, -⟩ :=
    htree.argument_apart hbranch hkind hlist hlast hargument
  have hfront {node : Nat} (hnode : node ∈ front) : node ∈ table.children branch := by
    simp [hlist, hnode]
  -- The argument is a branch as well, so what is below it may stand below the branch.
  obtain ⟨before', after', hargument_kind⟩ := Kind.eq_branch_of_lists (.inr ⟨value, hlast⟩)
    (htree.admitted last hlast_reached argument (by simp [hargument]))
  refine htree.insertNew hbranch ?_ ?_ ?_ ?_ ?_
  · rw [List.nodup_append]
    have hnodup := htree.nodup branch hbranch
    rw [hlist, List.nodup_append] at hnodup
    refine ⟨hnodup.1, htree.nodup argument hargument_reached, ?_⟩
    rintro node hnode _ hnode' rfl
    exact hargument_branch (htree.parent_unique hargument_reached hbranch hnode' (hfront hnode))
  · intro node hnode
    rcases List.mem_append.mp hnode with hnode | hnode
    · exact hbranch.child (hfront hnode)
    · exact hargument_reached.child hnode
  · intro node hnode
    rcases List.mem_append.mp hnode with hnode | hnode
    · exact htree.admitted branch hbranch node (hfront hnode)
    · have hadmits := htree.admitted argument hargument_reached node hnode
      rw [hargument_kind] at hadmits
      rw [hkind]
      exact Kind.admits_branch hadmits
  · simp [hkind, Kind.admits]
  · intro node hnode hreached hne child hchild hmem
    rcases List.mem_append.mp hmem with hmem | hmem
    · exact hne (htree.parent_unique hreached hbranch hchild (hfront hmem))
    · exact (htree.ne_of_reachable_insertNew hbranch hkind hlist hlast hargument hnode).2
        (htree.parent_unique hreached hargument_reached hchild hmem)

end Hoist

/-! ### Any edits -/

/-- Legacy combinators are replaced and arguments of branches hoisted, in any order and number. -/
inductive Edited (start : Table) : Table → Prop where
  | unchanged : Edited start start
  | modernize {table : Table} : Edited start table → Edited start table.modernize
  | hoist {table : Table} {branch : Nat} {before after : List Char} :
      Edited start table → table.Reachable branch → table.kind branch = .branch before after →
        Edited start (table.hoist branch).2

theorem IsTree.edited {start table : Table} (htree : start.IsTree) (hedited : Edited start table) :
    table.IsTree := by
  induction hedited with
  | unchanged => exact htree
  | modernize _ ih => exact ih.modernize
  | hoist _ hbranch hkind ih => exact ih.hoist hbranch hkind

/-- The shape of a selector's table. All but the root stand once in one list, that of their parent.
Branches are below the root and below lists, leaves and lists are below branches, and nothing is below
leaves. The loop over all nodes ends, after each of them once, in the order of the text. -/
structure IsArborescent (table : Table) : Prop where
  root_kind : table.kind root = .root
  root_parent : table.parent root = none
  parents : ∀ node, table.Reachable node → node ≠ root →
    ∃ parent, table.Reachable parent ∧ table.parent node = some parent ∧
      (table.children parent).count node = 1 ∧
      ∀ other, table.Reachable other → node ∈ table.children other → other = parent
  below_lists : ∀ node, table.Reachable node →
    (table.kind node = .root ∨ ∃ value, table.kind node = .list value) →
    ∀ child ∈ table.children node, ∃ before after, table.kind child = .branch before after
  below_branches : ∀ node before after, table.Reachable node →
    table.kind node = .branch before after →
    ∀ child ∈ table.children node,
      (∃ leaf, table.kind child = .leaf leaf) ∨ ∃ value, table.kind child = .list value
  below_leaves : ∀ node leaf, table.Reachable node → table.kind node = .leaf leaf →
    table.children node = []
  visits : table.Visits [root] table.descendants
  mem_descendants : ∀ node, node ∈ table.descendants ↔ table.Reachable node
  nodup_descendants : table.descendants.Nodup
  descendants_eq : table.descendants = table.below root
  below_eq : ∀ node, table.Reachable node →
    table.below node = node :: (table.children node).flatMap table.below

theorem IsTree.isArborescent {table : Table} (htree : table.IsTree) : table.IsArborescent where
  root_kind := htree.rootKind
  root_parent := htree.rootParent
  parents node hnode hne := by
    obtain ⟨parent, hparent, hmem⟩ := hnode.exists_parent hne
    exact ⟨parent, hparent, htree.linked parent hparent node hmem,
      List.count_eq_one_of_mem (htree.nodup parent hparent) hmem,
      fun other hother hmem' => htree.parent_unique hother hparent hmem' hmem⟩
  below_lists node hnode hkind child hchild :=
    Kind.eq_branch_of_lists hkind (htree.admitted node hnode child hchild)
  below_branches node before after hnode hkind child hchild := by
    have hadmits := htree.admitted node hnode child hchild
    rw [hkind] at hadmits
    cases hinner : table.kind child with
    | leaf leaf => exact .inl ⟨leaf, rfl⟩
    | list value => exact .inr ⟨value, rfl⟩
    | _ => simp [hinner, Kind.admits] at hadmits
  below_leaves node leaf hnode hkind := htree.children_eq_nil hnode hkind
  visits := by
    have hvisits := htree.isShallow.visits_below .origin [] [] .done
    rwa [List.append_nil] at hvisits
  mem_descendants _ := htree.isShallow.mem_descendants_iff
  nodup_descendants := htree.nodup_below .origin
  descendants_eq := table.descendants_eq
  below_eq _ hnode := htree.isShallow.below_eq hnode

/-- The table of a selector keeps its shape under any edits. -/
theorem isArborescent_of_edited (text : List Char) {table : Table}
    (hedited : Edited (ofList (read text)) table) : table.IsArborescent :=
  ((isTree_ofList (read text)).edited hedited).isArborescent

theorem isArborescent_of_edited_nested :
    ∃ table, Edited (ofList (read ":deep(.a >>> .b), .c /deep/ :deep(.d)".toList)) table ∧
      table.text = ":deep .a :deep .b, .c :deep :deep .d".toList ∧ table.IsArborescent := by
  have hfirst := @Edited.hoist (ofList (read ":deep(.a >>> .b), .c /deep/ :deep(.d)".toList)) _ 1
    [] [] .unchanged (.child .origin (by decide +kernel)) (by decide +kernel)
  have hlast := @Edited.hoist _ _ 7 [' '] [] hfirst.modernize
    (.child .origin (by decide +kernel)) (by decide +kernel)
  exact ⟨_, hlast, by decide +kernel, isArborescent_of_edited _ hlast⟩

end Table

end StyleMigration.Selector
