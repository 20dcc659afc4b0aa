import StyleMigration.Proofs.Selector.Deep
import StyleMigration.Proofs.Selector.Lossless

/-!
A weight that every change of a selector lowers. Replacing a legacy combinator takes its sign away,
hoisting an argument takes an opening parenthesis away, and a selector that appends to its parent
has a nesting sign, which goes with it when its rule is dropped. None of these characters is ever
put in, so their number, the weight of a text, tells whether anything was changed: it never grows,
and stays only where no legacy combinator was replaced and no argument hoisted
(`weight_modernizeList`, `weight_hoist`). Reading and writing back leaves it as it is
(`weight_listText_read`).
-/

set_option autoImplicit false

namespace StyleMigration.Selector

open Text

/-- The characters that a migration takes away and never puts in. -/
def isHeavy (c : Char) : Bool :=
  c == '>' || c == '/' || c == '(' || c == '&'

/-- How many heavy characters a text has. -/
def weight (text : List Char) : Nat :=
  text.countP isHeavy

@[simp] theorem weight_nil : weight [] = 0 :=
  rfl

@[simp] theorem weight_append (front back : List Char) :
    weight (front ++ back) = weight front + weight back :=
  List.countP_append

theorem weight_of_isAllBlank {text : List Char} (hblank : isAllBlank text) : weight text = 0 := by
  rw [weight, List.countP_eq_zero]
  intro c hmem hheavy
  have hc : isBlank c := List.all_eq_true.mp hblank c hmem
  simp only [isHeavy, Bool.or_eq_true, beq_iff_eq] at hheavy
  rcases hheavy with ((rfl | rfl) | rfl) | rfl <;> exact absurd hc (by decide)

theorem Completes.weight {count : Nat} {text written : List Char}
    (hcompletes : Completes count text written) : weight written = weight text := by
  induction hcompletes with
  | nil => rfl
  | keep c _ ih => simp only [Selector.weight, List.countP_cons] at ih ⊢; rw [ih]
  | close _ ih =>
    rw [← ih]
    exact List.countP_cons_of_neg (by decide)

theorem weight_listText_read (text : List Char) : weight (listText (read text)) = weight text := by
  cases hblank : isAllBlank text with
  | true => rw [read_of_isAllBlank hblank, listText, weight_nil, weight_of_isAllBlank hblank]
  | false => exact (completes_read hblank).weight

/-- The commas between branches weigh nothing. -/
theorem weight_listText (branches : List Branch) :
    weight (listText branches) = (branches.map fun branch => weight branch.text).sum := by
  induction branches with
  | nil => rw [listText, List.map_nil, List.sum_nil, weight_nil]
  | cons branch branches ih =>
    cases branches with
    | nil => rw [listText, List.map_singleton, List.sum_singleton]
    | cons next branches =>
      have hcomma (rest : List Char) : weight (',' :: rest) = weight rest :=
        List.countP_cons_of_neg (by decide)
      rw [listText, weight_append, hcomma, ih]
      exact List.sum_cons.symm

/-! ### Legacy combinators -/

/-- A legacy combinator that was read has its sign in its text. -/
theorem weight_pos_of_isLegacy {text : List Char} {leaf : Leaf}
    (hmem : leaf ∈ listLeaves (read text)) (hlegacy : leaf.isLegacy) : 0 < weight leaf.text := by
  have hcut := isCut_of_mem_listLeaves_read hmem
  cases leaf with
  | combinator value raw =>
    have hvalue : value ≠ [' '] ∧ 0 < weight value := by
      rw [Leaf.isLegacy, Bool.or_eq_true, beq_iff_eq, beq_iff_eq] at hlegacy
      rcases hlegacy with rfl | rfl <;> decide
    obtain ⟨front, back, hraw⟩ := hcut.resolve_left hvalue.1
    rw [Leaf.text, ← hraw, weight_append, weight_append]
    omega
  | _ => cases hlegacy

/-- What takes the place of a legacy combinator weighs nothing. -/
theorem weight_deepInPlace (first last : Bool) :
    weight (partsText ((deepInPlace first last).map .leaf)) = 0 := by
  cases first <;> cases last <;> decide

mutual

theorem Branch.weight_modernize (branch : Branch)
    (hsigned : ∀ leaf ∈ branch.leaves, leaf.isLegacy → 0 < weight leaf.text) :
    weight branch.modernize.text + branch.leaves.countP Leaf.isLegacy ≤ weight branch.text := by
  match branch with
  | .mk before parts after =>
    rw [Branch.leaves] at hsigned
    have hparts := weight_modernizeParts true parts hsigned
    simp only [Branch.modernize, Branch.leaves, Branch.text, weight_append]
    omega

theorem weight_modernizeParts (first : Bool) (parts : List Part)
    (hsigned : ∀ leaf ∈ partsLeaves parts, leaf.isLegacy → 0 < weight leaf.text) :
    weight (partsText (modernizeParts first parts)) + (partsLeaves parts).countP Leaf.isLegacy ≤
      weight (partsText parts) := by
  match parts with
  | [] => simp [modernizeParts, partsLeaves]
  | .leaf simple :: parts =>
    rw [partsLeaves, Part.leaves, List.singleton_append, List.forall_mem_cons] at hsigned
    have hothers := weight_modernizeParts false parts hsigned.2
    simp only [modernizeParts, partsLeaves, Part.leaves, List.singleton_append, List.countP_cons,
      partsText_append, partsText, Part.text, weight_append]
    split
    · rename_i hlegacy
      have hsign := hsigned.1 hlegacy
      rw [weight_deepInPlace]
      omega
    · simp only [partsText, Part.text, List.append_nil]
      omega
  | .list value branches :: parts =>
    rw [partsLeaves, Part.leaves, List.forall_mem_append] at hsigned
    have hbranches := weight_modernizeList branches hsigned.1
    have hothers := weight_modernizeParts false parts hsigned.2
    simp only [modernizeParts, partsLeaves, Part.leaves, List.countP_append, partsText, Part.text,
      weight_append]
    omega

/-- Every legacy combinator that is replaced takes some weight away. -/
theorem weight_modernizeList (branches : List Branch)
    (hsigned : ∀ leaf ∈ listLeaves branches, leaf.isLegacy → 0 < weight leaf.text) :
    weight (listText (modernizeList branches)) + (listLeaves branches).countP Leaf.isLegacy ≤
      weight (listText branches) := by
  match branches with
  | [] => simp [modernizeList, listLeaves]
  | branch :: branches =>
    rw [listLeaves, List.forall_mem_append] at hsigned
    have hfirst := branch.weight_modernize hsigned.1
    have hothers := weight_modernizeList branches hsigned.2
    rw [weight_listText] at hothers ⊢
    rw [weight_listText] at hothers ⊢
    simp only [modernizeList, listLeaves, List.countP_append, List.map_cons, List.sum_cons]
    omega

end

/-! ### Hoisted arguments -/

/-- An argument that is hoisted leaves an opening parenthesis behind. -/
theorem Branch.weight_hoist (branch : Branch) :
    weight branch.hoist.2.text + (if branch.hoist.1 = .done then 1 else 0) ≤
      weight branch.text := by
  obtain ⟨before, parts, after⟩ := branch
  rcases Branch.hoist_cases before after parts with
    ⟨-, hhoist⟩ | ⟨-, hhoist⟩ | ⟨front, ⟨blanks, inner, others⟩, rfl, hhoist⟩
  · simp [hhoist]
  · simp [hhoist]
  · have hparenthesis : weight ['('] = 1 := rfl
    have hplain : weight deep.text = weight deepValue ∧ weight descendant.text = 0 := by decide
    simp only [hhoist, Branch.text, Branch.parts, partsText_append, partsText, Part.text, listText,
      weight_append, weight_nil, hparenthesis, hplain, ↓reduceIte]
    omega

/-- Hoisting never makes a selector heavier, and makes it lighter where an argument comes out. -/
theorem weight_listText_hoist (branches : List Branch) :
    weight (listText (branches.map fun branch => branch.hoist.2)) +
        branches.countP (fun branch => branch.hoist.1 = .done) ≤
      weight (listText branches) := by
  rw [weight_listText, weight_listText]
  induction branches with
  | nil => simp
  | cons branch branches ih =>
    have hfirst := branch.weight_hoist
    simp only [List.map_cons, List.sum_cons, List.countP_cons, decide_eq_true_eq] at ih ⊢
    omega

/-! ### Selectors that append to their parent -/

mutual

theorem Branch.weight_pos_of_isConcatenating (branch : Branch) (happends : branch.isConcatenating) :
    0 < weight branch.text := by
  match branch with
  | .mk before parts after =>
    rw [Branch.isConcatenating] at happends
    have hparts := weight_pos_of_partsConcatenate parts happends
    rw [Branch.text, weight_append, weight_append]
    omega

theorem weight_pos_of_partsConcatenate (parts : List Part) (happends : partsConcatenate parts) :
    0 < weight (partsText parts) := by
  match parts with
  | [] => simp [partsConcatenate] at happends
  | .leaf simple :: parts =>
    rw [partsText, Part.text, weight_append]
    rw [partsConcatenate, Bool.or_eq_true, Bool.and_eq_true, beq_iff_eq] at happends
    rcases happends with ⟨rfl, -⟩ | happends
    · have hsign : weight Leaf.nesting.text = 1 := rfl
      omega
    · have hothers := weight_pos_of_partsConcatenate parts happends
      omega
  | .list value branches :: parts =>
    rw [partsText, Part.text]
    rw [partsConcatenate, Bool.or_eq_true] at happends
    simp only [weight_append]
    rcases happends with happends | happends
    · have hbranches := weight_pos_of_listConcatenates branches happends
      omega
    · have hothers := weight_pos_of_partsConcatenate parts happends
      omega

theorem weight_pos_of_listConcatenates (branches : List Branch)
    (happends : listConcatenates branches) : 0 < weight (listText branches) := by
  match branches with
  | [] => simp [listConcatenates] at happends
  | branch :: branches =>
    rw [weight_listText, List.map_cons, List.sum_cons]
    rw [listConcatenates, Bool.or_eq_true] at happends
    rcases happends with happends | happends
    · have hfirst := branch.weight_pos_of_isConcatenating happends
      omega
    · have hothers := weight_pos_of_listConcatenates branches happends
      rw [weight_listText] at hothers
      omega

end

/-- A selector that appends to its parent has some weight, the nesting sign. -/
theorem weight_pos_of_isConcatenating {text : List Char} (happends : isConcatenating text) :
    0 < weight text := by
  rw [← weight_listText_read]
  exact weight_pos_of_listConcatenates _ happends

end StyleMigration.Selector
