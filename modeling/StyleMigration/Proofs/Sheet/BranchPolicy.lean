import StyleMigration.Proofs.Selector.TableHoist
import StyleMigration.Proofs.Sheet.Compositional

/-!
What becomes of a rule whose children append to it. A branch that ends on `:deep` without exactly one
argument is stuck: nothing can be appended to it. If all branches are stuck the appending children go, if
none is they stay, and if some are but not all the rule is left as it stands and reported
(`migrateRule_policy`).

The branches are hoisted one after the other in the table of the selector, and those that are stuck are
counted on the way. Since no branch sees what was done to another, the count is that of the stuck branches
at the start (`ruleChangeInPlace_eq`).
-/

set_option autoImplicit false

namespace StyleMigration

/-! ### Stuck branches -/

namespace Selector

/-- Whether a branch ends on `:deep` without exactly one argument. -/
def Branch.isStuck (branch : Branch) : Bool :=
  branch.endsOnDeep && !branch.endsOnArgument

theorem Branch.hoist_eq_impossible_iff_isStuck (branch : Branch) :
    branch.hoist.1 = .impossible ↔ branch.isStuck = true := by
  rw [branch.hoist_eq_impossible_iff, Branch.isStuck, Bool.and_eq_true, Bool.not_eq_true']

/-- The second branch is the first one with the only argument of a `:deep` at its end hoisted, if there is
one. -/
inductive Branch.Hoists : Branch → Branch → Prop
  | argument (before : List Char) (front : List Part) (argument : Branch) (after : List Char) :
      Hoists (.mk before (front ++ [.list deepValue [argument]]) after)
        (.mk before (front ++ [.leaf deep, .leaf descendant] ++ argument.parts) after)
  | other {branch : Branch} (hother : branch.endsOnArgument = false) : Hoists branch branch

theorem Branch.hoists_hoist (branch : Branch) : branch.Hoists branch.hoist.2 := by
  obtain ⟨before, parts, after⟩ := branch
  have hdone := (Branch.mk before parts after).hoist_eq_done_iff
  rcases Branch.hoist_cases before after parts with
    ⟨-, hhoist⟩ | ⟨-, hhoist⟩ | ⟨front, argument, rfl, hhoist⟩
  · rw [hhoist] at hdone ⊢
    exact .other (by simpa using hdone)
  · rw [hhoist] at hdone ⊢
    exact .other (by simpa using hdone)
  · rw [hhoist]
    exact .argument before front argument after

theorem forall₂_hoists (branches : List Branch) :
    List.Forall₂ Branch.Hoists branches (branches.map fun branch => branch.hoist.2) :=
  List.forall₂_map_right_iff.mpr (List.forall₂_same.mpr fun branch _ => branch.hoists_hoist)

end Selector

namespace Sheet

open Selector

variable {selector : List Char} {children : List (List Char)}

/-! ### The change of a rule -/

/-- The outcomes of hoisting say how many branches are stuck. -/
theorem length_filter_impossible (branches : List Branch) :
    ((branches.map Branch.hoist).filter fun result => result.1 = .impossible).length =
      branches.countP Branch.isStuck := by
  rw [← List.countP_eq_length_filter, List.countP_map]
  refine List.countP_congr fun branch _ => ?_
  simp [Branch.hoist_eq_impossible_iff_isStuck]

/-- The text of a selector with every argument hoisted that can be. -/
def hoistedText (selector : List Char) : List Char :=
  listText ((modernizeList (Selector.read selector)).map fun branch => branch.hoist.2)

/-- A rule with an appending child, by how many of its branches are stuck. -/
theorem ruleChange_of_any (happends : children.any isConcatenating = true) :
    ruleChange selector children =
      if (∃ branch ∈ modernizeList (Selector.read selector), branch.isStuck = true) ∧
          ∃ branch ∈ modernizeList (Selector.read selector), branch.isStuck = false then
        .error ⟨hoistedText selector⟩
      else .ok ⟨hoistedText selector,
        (modernizeList (Selector.read selector)).any Branch.isStuck⟩ := by
  have htext : listText (((modernizeList (Selector.read selector)).map Branch.hoist).map (·.2)) =
      hoistedText selector := by
    rw [hoistedText, List.map_map]
    rfl
  simp only [ruleChange, happends, if_true, htext, length_filter_impossible, List.length_map]
  generalize modernizeList (Selector.read selector) = branches
  have hsome : 0 < branches.countP Branch.isStuck ↔ ∃ branch ∈ branches, branch.isStuck = true :=
    List.countP_pos_iff
  have hless : branches.countP Branch.isStuck < branches.length ↔
      ∃ branch ∈ branches, branch.isStuck = false := by
    have hle := List.countP_le_length (p := Branch.isStuck) (l := branches)
    have hall := List.countP_eq_length (p := Branch.isStuck) (l := branches)
    rw [Nat.lt_iff_le_and_ne, and_iff_right hle, ne_eq, hall]
    simp
  simp only [hsome, hless]
  congr 2
  simp [List.any_eq]

theorem ruleChange_of_not_any (happends : children.any isConcatenating = false) :
    ruleChange selector children = .ok ⟨listText (modernizeList (Selector.read selector)), false⟩ := by
  simp [ruleChange, happends]

theorem ruleChange_eq_error_iff :
    (∃ ambiguity, ruleChange selector children = .error ambiguity) ↔
      children.any isConcatenating = true ∧
        (∃ branch ∈ modernizeList (Selector.read selector), branch.isStuck = true) ∧
          ∃ branch ∈ modernizeList (Selector.read selector), branch.isStuck = false := by
  cases happends : children.any isConcatenating with
  | false => simp [ruleChange_of_not_any happends]
  | true =>
    rw [ruleChange_of_any happends]
    split
    · rename_i hmixed
      exact ⟨fun _ => ⟨rfl, hmixed⟩, fun _ => ⟨_, rfl⟩⟩
    · rename_i hmixed
      refine ⟨?_, fun hfails => absurd hfails.2 hmixed⟩
      rintro ⟨ambiguity, hfails⟩
      cases hfails

/-- A rule that fails is reported by its selector with the arguments hoisted. -/
theorem ruleChange_eq_error
    {ambiguity : Ambiguity} (hfails : ruleChange selector children = .error ambiguity) :
    ambiguity.selector = hoistedText selector := by
  cases happends : children.any isConcatenating with
  | false =>
    rw [ruleChange_of_not_any happends] at hfails
    cases hfails
  | true =>
    rw [ruleChange_of_any happends] at hfails
    split at hfails
    · cases hfails
      rfl
    · cases hfails

/-- The selector of a rule that does not fail, and whether it drops its appending children. -/
theorem ruleChange_eq_ok {change : RuleChange}
    (hchange : ruleChange selector children = .ok change) :
    change.selector = (if children.any isConcatenating then hoistedText selector
        else listText (modernizeList (Selector.read selector))) ∧
      (change.drops = true ↔ children.any isConcatenating = true ∧
        modernizeList (Selector.read selector) ≠ [] ∧
          ∀ branch ∈ modernizeList (Selector.read selector), branch.isStuck = true) := by
  cases happends : children.any isConcatenating with
  | false =>
    rw [ruleChange_of_not_any happends] at hchange
    cases hchange
    simp
  | true =>
    rw [ruleChange_of_any happends] at hchange
    split at hchange
    · cases hchange
    · rename_i hmixed
      cases hchange
      refine ⟨rfl, ?_⟩
      generalize modernizeList (Selector.read selector) = branches at hmixed
      rw [List.any_eq_true]
      constructor
      · rintro ⟨branch, hmem, hstuck⟩
        refine ⟨rfl, List.ne_nil_of_mem hmem, fun other hother => ?_⟩
        rw [← Bool.not_eq_false]
        exact fun hfree => hmixed ⟨⟨branch, hmem, hstuck⟩, other, hother, hfree⟩
      · rintro ⟨-, hne, hall⟩
        obtain ⟨branch, others, rfl⟩ := List.exists_cons_of_ne_nil hne
        exact ⟨branch, List.mem_cons_self, hall branch List.mem_cons_self⟩

theorem any_selectors_iff (body : List Node) :
    (selectors body).any isConcatenating = true ↔ ∃ node ∈ body, node.isAppending = true := by
  rw [selectors, List.any_filterMap, List.any_eq_true]
  rfl

/-- A rule that fails stays as it is, and so does all inside it. -/
theorem Node.migrate_of_migrateRule {node : Node} {ambiguity : Ambiguity}
    (hfails : node.migrateRule = .error ambiguity) : node.migrate = ⟨node, some ambiguity⟩ := by
  match node with
  | .text content => cases hfails
  | .group (.block content) enclosure body => cases hfails
  | .group (.rule before selector between) enclosure body =>
    rw [Node.migrateRule_rule] at hfails
    rw [Node.migrate]
    cases hchange : ruleChange selector (selectors body) with
    | error other =>
      rw [hchange] at hfails
      cases hfails
      rfl
    | ok change =>
      rw [hchange] at hfails
      cases hfails

/-! ### The change in place -/

/-- The change of a rule as it is worked out on the table of its selector. The arguments are hoisted in
place, one branch after the other, and it is counted how often that is impossible. -/
def ruleChangeInPlace (selector : List Char) (children : List (List Char)) :
    Except Ambiguity RuleChange :=
  let table := (Table.ofList (Selector.read selector)).modernize
  if children.any isConcatenating then
    let hoisted := table.hoistAll table.branches
    let impossible := hoisted.1.countP fun outcome => outcome = .impossible
    if 0 < impossible ∧ impossible < table.branches.length then .error ⟨hoisted.2.text⟩
    else .ok ⟨hoisted.2.text, 0 < impossible⟩
  else
    .ok ⟨table.text, false⟩

/-- Working on the table comes to the same change as working on the tree. -/
theorem ruleChangeInPlace_eq (selector : List Char) (children : List (List Char)) :
    ruleChangeInPlace selector children = ruleChange selector children := by
  have hstart := Table.isTree_ofList (Selector.read selector)
  have htree := hstart.modernize
  have hshows := hstart.shows_modernize (Table.shows_ofList (Selector.read selector))
  simp only [ruleChangeInPlace, ruleChange]
  generalize (Table.ofList (Selector.read selector)).modernize = table at htree hshows
  obtain ⟨houtcomes, htree', hshows'⟩ := htree.hoistAll_perm hshows (.refl _)
  obtain ⟨-, hlength, -⟩ := Table.shows_iff.mp hshows
  rw [houtcomes, htree.map_hoist_eq hshows, hlength, hshows.text_eq htree, hshows'.text_eq htree',
    ← List.countP_eq_length_filter, List.countP_map, List.countP_map, List.map_map, List.length_map]
  rfl

/-! ### The policy -/

/-- A rule fails if a child appends to it and some but not all of its branches are stuck, and only then; it
and all inside it stay as they are. Otherwise, appending children are dropped if there are branches and all
are stuck, and nothing else of its body changes. Its selector has its legacy combinators replaced, and if a
child appends to it the arguments of `:deep` hoisted. -/
theorem migrateRule_policy (before selector between : List Char) (enclosure : Enclosure)
    (body : List Node) :
    let rule := Node.group (.rule before selector between) enclosure body
    let branches := modernizeList (Selector.read selector)
    ∃ hoisted, List.Forall₂ Branch.Hoists branches hoisted ∧
      ((∃ ambiguity, rule.migrateRule = .error ambiguity) ↔
        (∃ node ∈ body, node.isAppending = true) ∧
          (∃ branch ∈ branches, branch.isStuck = true) ∧
            ∃ branch ∈ branches, branch.isStuck = false) ∧
      (∀ ambiguity, rule.migrateRule = .error ambiguity →
        ambiguity.selector = listText hoisted ∧ rule.migrate = ⟨rule, some ambiguity⟩) ∧
      ((¬ ∃ ambiguity, rule.migrateRule = .error ambiguity) → rule.migrateRule =
        .ok (.group
          (.rule before
            (listText (if ∃ node ∈ body, node.isAppending = true then hoisted else branches)) between)
          enclosure
          (if (∃ node ∈ body, node.isAppending = true) ∧ branches ≠ [] ∧
              ∀ branch ∈ branches, branch.isStuck = true then
            body.filter fun node => !node.isAppending
          else body))) := by
  intro rule branches
  have hrule : rule.migrateRule = _ := Node.migrateRule_rule before selector between enclosure body
  have hmixed : (∃ ambiguity, ruleChange selector (selectors body) = .error ambiguity) ↔ _ :=
    ruleChange_eq_error_iff
  rw [any_selectors_iff] at hmixed
  refine ⟨_, forall₂_hoists branches, ?_⟩
  cases hchange : ruleChange selector (selectors body) with
  | error ambiguity =>
    have hreport := ruleChange_eq_error hchange
    have hfails := hmixed.mp ⟨ambiguity, hchange⟩
    rw [hchange] at hrule
    refine ⟨iff_of_true ⟨ambiguity, hrule⟩ hfails, fun other hother => ?_,
      fun hfine => absurd ⟨ambiguity, hrule⟩ hfine⟩
    obtain rfl : ambiguity = other := Except.error.inj (hrule.symm.trans hother)
    exact ⟨hreport, Node.migrate_of_migrateRule hrule⟩
  | ok change =>
    obtain ⟨hselector, hdrops⟩ := ruleChange_eq_ok hchange
    rw [any_selectors_iff] at hdrops
    have hfine := mt hmixed.mpr (by simp [hchange])
    rw [hchange] at hrule
    refine ⟨iff_of_false ?_ hfine, fun _ hfails => ?_, fun _ => hrule.trans ?_⟩
    · rintro ⟨ambiguity, hfails⟩
      cases hrule.symm.trans hfails
    · cases hrule.symm.trans hfails
    · simp only [Except.map, hselector, kept, hdrops, any_selectors_iff, apply_ite listText]
      rfl

-- one stuck branch beside one that is not; only stuck branches; only branches that are not
example : ruleChange "a :deep(b), c :deep".toList ["&-d".toList] =
    .error ⟨"a :deep b, c :deep".toList⟩ := by decide +kernel

example : ruleChange "a :deep(b, c), d >>>".toList ["e".toList, "&-f".toList] =
    .ok ⟨"a :deep(b, c), d :deep".toList, true⟩ := by decide +kernel

example : ruleChange "a :deep(b), c /deep/ d".toList ["&-e".toList] =
    .ok ⟨"a :deep b, c :deep d".toList, false⟩ := by decide +kernel

end Sheet

end StyleMigration
