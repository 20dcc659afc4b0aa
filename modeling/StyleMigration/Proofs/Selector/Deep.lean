import StyleMigration.Selector.Deep
import StyleMigration.Proofs.Selector.Cuts

/-!
What the migration of a selector looks at. Its leaves are listed in the order of the text, and those
of a tree that was read are as they were cut off it (`isCut_of_mem_listLeaves_read`). A selector
without legacy combinators is modern already (`modernizeList_eq_self`), and hoisting leaves a branch
alone unless it ends on `:deep` with exactly one argument (`Branch.hoist_cases`).
-/

set_option autoImplicit false

namespace StyleMigration.Selector

open Text

/-! ### Leaves of a tree -/

mutual

def Branch.leaves : Branch → List Leaf
  | .mk _ parts _ => partsLeaves parts

def Part.leaves : Part → List Leaf
  | .leaf simple => [simple]
  | .list _ branches => listLeaves branches

def partsLeaves : List Part → List Leaf
  | [] => []
  | part :: parts => part.leaves ++ partsLeaves parts

/-- The leaves of a selector list, at any depth, in the order of the text. -/
def listLeaves : List Branch → List Leaf
  | [] => []
  | branch :: branches => branch.leaves ++ listLeaves branches

end

theorem partsLeaves_eq_flatMap (parts : List Part) :
    partsLeaves parts = parts.flatMap Part.leaves := by
  induction parts with
  | nil => rw [partsLeaves, List.flatMap_nil]
  | cons part parts ih => rw [partsLeaves, ih, List.flatMap_cons]

theorem listLeaves_eq_flatMap (branches : List Branch) :
    listLeaves branches = branches.flatMap Branch.leaves := by
  induction branches with
  | nil => rw [listLeaves, List.flatMap_nil]
  | cons branch branches ih => rw [listLeaves, ih, List.flatMap_cons]

/-- A leaf of a tree that was read is a piece of a text inside the one read, or a pseudo-class with
its argument. -/
theorem mem_listLeaves_read_cases {text : List Char} {leaf : Leaf}
    (hmem : leaf ∈ listLeaves (read text)) :
    (∃ core, core <:+: text ∧ .leaf leaf ∈ pieces core) ∨
      ∃ value argument, leaf = .function value argument := by
  induction hlength : text.length using Nat.strongRecOn generalizing text with
  | ind length ih =>
    rw [read_eq] at hmem
    split at hmem
    · cases hmem
    · rw [listLeaves_eq_flatMap, List.flatMap_map, List.mem_flatMap] at hmem
      obtain ⟨segment, hsegment, hmem⟩ := hmem
      rw [Branch.ofSegment, Branch.leaves, partsLeaves_eq_flatMap, List.flatMap_map,
        List.mem_flatMap] at hmem
      obtain ⟨piece, hpiece, hmem⟩ := hmem
      have hcore := (trim_isInfix segment).trans (infix_of_mem_splitCommas hsegment)
      cases piece with
      | leaf simple =>
        rw [Piece.toPart, Part.leaves, List.mem_singleton] at hmem
        rw [hmem]
        exact Or.inl ⟨trim segment, hcore, hpiece⟩
      | call colons name span =>
        simp only [Piece.toPart] at hmem
        split at hmem
        · rw [Part.leaves] at hmem
          have hshorter := argument_length_lt hpiece
          have hargument := (argument_infix_of_mem_pieces hpiece).trans hcore
          have hcore_length := hcore.length_le
          rw [Piece.argument] at hshorter hargument
          rcases ih (argumentOf span).length (by omega) hmem rfl with
            ⟨core, hinfix, hleaf⟩ | hfunction
          · exact Or.inl ⟨core, hinfix.trans hargument, hleaf⟩
          · exact Or.inr hfunction
        · rw [Part.leaves, List.mem_singleton] at hmem
          exact Or.inr ⟨_, _, hmem⟩

/-- The leaves of a tree that was read are as they were cut off the text. -/
theorem isCut_of_mem_listLeaves_read {text : List Char} {leaf : Leaf}
    (hmem : leaf ∈ listLeaves (read text)) : (Piece.leaf leaf).IsCut := by
  rcases mem_listLeaves_read_cases hmem with ⟨core, -, hpiece⟩ | ⟨value, argument, rfl⟩
  · exact isCut_of_mem_pieces hpiece
  · trivial

/-- The legacy combinators as they are written. -/
def legacySigns : List (List Char) :=
  [['>', '>', '>'], ['/', 'd', 'e', 'e', 'p', '/']]

/-- A legacy combinator of a tree that was read is written in the text. -/
theorem exists_sign_of_isLegacy {text : List Char} {leaf : Leaf}
    (hmem : leaf ∈ listLeaves (read text)) (hlegacy : leaf.isLegacy) :
    ∃ sign ∈ legacySigns, sign <:+: text := by
  have hcut := isCut_of_mem_listLeaves_read hmem
  cases leaf with
  | combinator value raw =>
    have hsign : value ∈ legacySigns ∧ value ≠ [' '] := by
      rw [Leaf.isLegacy, Bool.or_eq_true, beq_iff_eq, beq_iff_eq] at hlegacy
      rcases hlegacy with rfl | rfl <;> decide
    refine ⟨value, hsign.1, (hcut.resolve_left hsign.2).trans ?_⟩
    rcases mem_listLeaves_read_cases hmem with ⟨core, hcore, hpiece⟩ | ⟨value, argument, hleaf⟩
    · exact (source_infix_of_mem_pieces hpiece).trans hcore
    · cases hleaf
  | _ => cases hlegacy

/-! ### Legacy combinators -/

theorem modernizeList_eq_map (branches : List Branch) :
    modernizeList branches = branches.map Branch.modernize := by
  induction branches with
  | nil => simp [modernizeList]
  | cons branch branches ih => simp [modernizeList, ih]

mutual

theorem Branch.modernize_eq_self (branch : Branch)
    (hmodern : ∀ leaf ∈ branch.leaves, leaf.isLegacy = false) : branch.modernize = branch := by
  match branch with
  | .mk before parts after =>
    rw [Branch.leaves] at hmodern
    rw [Branch.modernize, modernizeParts_eq_self true parts hmodern]

theorem modernizeParts_eq_self (first : Bool) (parts : List Part)
    (hmodern : ∀ leaf ∈ partsLeaves parts, leaf.isLegacy = false) :
    modernizeParts first parts = parts := by
  match parts with
  | [] => rw [modernizeParts]
  | .leaf simple :: parts =>
    rw [partsLeaves, Part.leaves, List.singleton_append, List.forall_mem_cons] at hmodern
    simp [modernizeParts, hmodern.1, modernizeParts_eq_self false parts hmodern.2]
  | .list value branches :: parts =>
    rw [partsLeaves, Part.leaves, List.forall_mem_append] at hmodern
    rw [modernizeParts, modernizeList_eq_self branches hmodern.1,
      modernizeParts_eq_self false parts hmodern.2]

/-- A selector without legacy combinators is modern already. -/
theorem modernizeList_eq_self (branches : List Branch)
    (hmodern : ∀ leaf ∈ listLeaves branches, leaf.isLegacy = false) :
    modernizeList branches = branches := by
  match branches with
  | [] => rw [modernizeList]
  | branch :: branches =>
    rw [listLeaves, List.forall_mem_append] at hmodern
    rw [modernizeList, branch.modernize_eq_self hmodern.1,
      modernizeList_eq_self branches hmodern.2]

end

/-! ### Hoisted arguments -/

/-- The value of a pseudo-class, its colons included. -/
def Part.pseudo? : Part → Option (List Char)
  | .leaf (.pseudo value) | .leaf (.function value _) | .list value _ => some value
  | _ => none

/-- Whether a branch ends on `:deep`, with an argument or without. -/
def Branch.endsOnDeep (branch : Branch) : Bool :=
  branch.parts.getLast?.bind Part.pseudo? = some deepValue

/-- Whether a branch ends on `:deep` with a list of exactly one selector. -/
def Branch.endsOnArgument (branch : Branch) : Bool :=
  match branch.parts.getLast? with
  | some (.list value [_]) => value = deepValue
  | _ => false

/-- What hoisting can do. A branch that does not end on `:deep` is left alone, as is one that ends
on `:deep` without exactly one argument; of exactly one argument the parts come out. -/
theorem Branch.hoist_cases (before after : List Char) (parts : List Part) :
    ((Branch.mk before parts after).endsOnDeep = false ∧
        (Branch.mk before parts after).hoist = (.needless, .mk before parts after)) ∨
      ((Branch.mk before parts after).endsOnDeep = true ∧
        (Branch.mk before parts after).hoist = (.impossible, .mk before parts after)) ∨
      ∃ front argument, parts = front ++ [.list deepValue [argument]] ∧
        (Branch.mk before parts after).hoist = (.done,
          .mk before (front ++ [.leaf deep, .leaf descendant] ++ argument.parts) after) := by
  rcases List.eq_nil_or_concat parts with rfl | ⟨front, last, rfl⟩
  · exact Or.inl ⟨rfl, rfl⟩
  · simp only [Branch.endsOnDeep, Branch.hoist, Branch.parts, List.concat_eq_append,
      List.getLast?_concat, List.dropLast_concat, Option.bind_some]
    cases last with
    | list value arguments =>
      by_cases hvalue : value = deepValue
      · subst hvalue
        rcases arguments with _ | ⟨argument, _ | ⟨next, others⟩⟩
        · exact Or.inr (Or.inl (by simp [Part.pseudo?]))
        · exact Or.inr (Or.inr ⟨front, argument, rfl, by simp⟩)
        · exact Or.inr (Or.inl (by simp [Part.pseudo?]))
      · rcases arguments with _ | ⟨argument, _ | ⟨next, others⟩⟩ <;>
          exact Or.inl (by simp [Part.pseudo?, hvalue])
    | leaf leaf =>
      cases leaf with
      | pseudo value | function value =>
        by_cases hvalue : value = deepValue
        · exact Or.inr (Or.inl (by simp [Part.pseudo?, hvalue]))
        · exact Or.inl (by simp [Part.pseudo?, hvalue])
      | _ => exact Or.inl ⟨rfl, rfl⟩

/-- A branch is left alone if it does not end on `:deep`, and only then. -/
theorem Branch.hoist_eq_needless_iff (branch : Branch) :
    branch.hoist.1 = .needless ↔ branch.endsOnDeep = false := by
  obtain ⟨before, parts, after⟩ := branch
  rcases Branch.hoist_cases before after parts with
    ⟨hends, hhoist⟩ | ⟨hends, hhoist⟩ | ⟨front, argument, rfl, hhoist⟩
  · simp [hends, hhoist]
  · simp [hends, hhoist]
  · simp [hhoist, Branch.endsOnDeep, Branch.parts, Part.pseudo?]

theorem Branch.endsOnArgument_iff (branch : Branch) : branch.endsOnArgument = true ↔
    ∃ front argument, branch.parts = front ++ [.list deepValue [argument]] := by
  constructor
  · intro hends
    unfold Branch.endsOnArgument at hends
    split at hends
    · rename_i value argument hlast
      obtain ⟨front, hparts⟩ := List.getLast?_eq_some_iff.mp hlast
      rw [of_decide_eq_true hends] at hparts
      exact ⟨front, argument, hparts⟩
    · cases hends
  · rintro ⟨front, argument, hparts⟩
    simp [Branch.endsOnArgument, hparts]

theorem Branch.hoist_of_argument (before after : List Char) (front : List Part) (argument : Branch) :
    (Branch.mk before (front ++ [.list deepValue [argument]]) after).hoist =
      (.done, .mk before (front ++ [.leaf deep, .leaf descendant] ++ argument.parts) after) := by
  simp [Branch.hoist]

/-- An argument is hoisted if it is the only one of a `:deep` at the end, and only then. -/
theorem Branch.hoist_eq_done_iff (branch : Branch) :
    branch.hoist.1 = .done ↔ branch.endsOnArgument = true := by
  rw [Branch.endsOnArgument_iff]
  obtain ⟨before, parts, after⟩ := branch
  constructor
  · intro hdone
    rcases Branch.hoist_cases before after parts with
      ⟨-, hhoist⟩ | ⟨-, hhoist⟩ | ⟨front, argument, hparts, -⟩
    · rw [hhoist] at hdone
      cases hdone
    · rw [hhoist] at hdone
      cases hdone
    · exact ⟨front, argument, hparts⟩
  · rintro ⟨front, argument, hparts⟩
    rw [Branch.parts] at hparts
    rw [hparts, Branch.hoist_of_argument]

theorem Branch.endsOnDeep_of_endsOnArgument {branch : Branch}
    (hargument : branch.endsOnArgument = true) : branch.endsOnDeep = true := by
  obtain ⟨front, argument, hparts⟩ := branch.endsOnArgument_iff.mp hargument
  simp [Branch.endsOnDeep, hparts, Part.pseudo?]

/-- Hoisting is impossible at the end of a branch on any other `:deep`. -/
theorem Branch.hoist_eq_impossible_iff (branch : Branch) :
    branch.hoist.1 = .impossible ↔ branch.endsOnDeep = true ∧ branch.endsOnArgument = false := by
  have hneedless := branch.hoist_eq_needless_iff
  have hdone := branch.hoist_eq_done_iff
  have hends := @Branch.endsOnDeep_of_endsOnArgument branch
  cases hhoist : branch.hoist.1 <;> rw [hhoist] at hneedless hdone <;> grind

/-- A branch that is left alone stays what it is. -/
theorem Branch.hoist_of_needless {branch : Branch} (hneedless : branch.hoist.1 = .needless) :
    branch.hoist.2 = branch := by
  obtain ⟨before, parts, after⟩ := branch
  rcases Branch.hoist_cases before after parts with
    ⟨-, hhoist⟩ | ⟨-, hhoist⟩ | ⟨front, argument, rfl, hhoist⟩
  · rw [hhoist]
  · rw [hhoist]
  · rw [hhoist] at hneedless
    cases hneedless

end StyleMigration.Selector
