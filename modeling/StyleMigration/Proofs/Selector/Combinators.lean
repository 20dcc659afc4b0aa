import Mathlib.Data.List.Chain
import StyleMigration.Proofs.Selector.Recovery
import StyleMigration.Proofs.Selector.Rereading
import StyleMigration.Proofs.Selector.TableReading

/-!
The normal form of combinators that were read. A combinator with a sign takes all the blanks around it, and
blanks with no sign after them are a combinator of their own. So what comes after a combinator does not
begin with a blank, and after blanks alone it does not begin with a sign either (`TakesPiece`). Since a
branch is trimmed, blanks alone stand between two parts that are no combinators (`HasNormalCombinators`).
Arguments are read like texts of their own, so the same holds of every branch in the tree that is read and
of every branch node in its table.
-/

set_option autoImplicit false

namespace StyleMigration.Selector

open Text

variable {text rest : List Char} {piece : Piece}

/-! ### The normal form -/

/-- What a part is, apart from what lies below it. -/
def Part.kind : Part → Kind
  | .leaf simple => .leaf simple
  | .list value _ => .list value

namespace Kind

def isCombinator : Kind → Bool
  | .leaf (.combinator _ _) => true
  | _ => false

/-- Whether a kind is the combinator that has no sign. -/
def isDescendant : Kind → Bool
  | .leaf (.combinator value _) => value == [' ']
  | _ => false

/-- The text of a part, up to the parenthesis if it has an argument. -/
def label : Kind → List Char
  | .leaf (.function value _) | .list value => value
  | .leaf simple => simple.text
  | .root | .branch _ _ => []

/-- One kind can come right before another: no combinator stands next to one without a sign. -/
def MayPrecede (kind next : Kind) : Prop :=
  (kind.isDescendant = true → next.isCombinator = false) ∧
    (next.isDescendant = true → kind.isCombinator = false)

theorem isDescendant_eq_false {kind : Kind} (hkind : kind.isCombinator = false) :
    kind.isDescendant = false := by
  unfold isCombinator at hkind
  unfold isDescendant
  grind

theorem exists_raw_of_isDescendant {kind : Kind} (hkind : kind.isDescendant = true) :
    ∃ raw, kind = .leaf (.combinator [' '] raw) := by
  unfold isDescendant at hkind
  grind

end Kind

/-- The parts of a branch have combinators in normal form: each is a sign with blanks around it or blanks
alone, those of the second sort stand between two parts that are no combinators, and the text of such a part
begins with something other than a blank. -/
structure HasNormalCombinators (kinds : List Kind) : Prop where
  combinator : ∀ value raw, .leaf (.combinator value raw) ∈ kinds →
    IsCombinator (.leaf (.combinator value raw))
  first : ∀ kind ∈ kinds.head?, kind.isDescendant = false
  last : ∀ kind ∈ kinds.getLast?, kind.isDescendant = false
  apart : kinds.IsChain Kind.MayPrecede
  label : ∀ kind ∈ kinds, kind.isCombinator = false →
    ∃ c rest, kind.label = c :: rest ∧ isAsciiBlank c = false

/-! ### One piece -/

/-- The piece at the front of a text and the rest, with what a combinator says about the rest. -/
inductive TakesPiece (c : Char) (text : List Char) : Piece → List Char → Prop
  | sign {sign before after rest : List Char} (hsign : sign ∈ signs) (hbefore : AreBlanks before)
      (hafter : AreBlanks after) (hrest : ∀ d ∈ rest.head?, isAsciiBlank d = false) :
      TakesPiece c text (.leaf (.combinator sign (before ++ sign ++ after))) rest
  | descendant {blanks rest : List Char} (hc : isAsciiBlank c = true) (hne : blanks ≠ [])
      (hblanks : AreBlanks blanks) (hrest : takeCombinator? rest = none) :
      TakesPiece c text (.leaf (.combinator [' '] blanks)) rest
  | simple {piece : Piece} {rest : List Char} (hc : isAsciiBlank c = false)
      (htaken : takeSimple c text = (piece, rest)) : TakesPiece c text piece rest

/-- Where no sign comes after blanks, no combinator does. -/
theorem takeCombinator?_dropWhile (hsign : takeSign? (text.dropWhile isAsciiBlank) = none) :
    takeCombinator? (text.dropWhile isAsciiBlank) = none := by
  obtain ⟨htake, hdrop⟩ := span_append (List.forall_mem_nil _)
    (@eq_false_of_head?_dropWhile isAsciiBlank text)
  rw [List.nil_append] at htake hdrop
  simp [takeCombinator?, htake, hdrop, hsign]

theorem takesPiece {c : Char}
    (htaken : takePiece c text = (piece, rest)) : TakesPiece c text piece rest := by
  have hblanks (text : List Char) : AreBlanks (text.takeWhile isAsciiBlank) :=
    List.all_eq_true.mp List.all_takeWhile
  unfold takePiece at htaken
  split at htaken
  · rename_i leaf rest' hcombinator
    cases htaken
    simp only [takeCombinator?] at hcombinator
    split at hcombinator
    · rename_i sign after hsign
      cases hcombinator
      exact .sign (mem_signs_of_takeSign? hsign) (hblanks _) (hblanks _) eq_false_of_head?_dropWhile
    · rename_i hsign
      split at hcombinator
      · cases hcombinator
      · rename_i hne
        cases hcombinator
        rw [List.isEmpty_iff] at hne
        have hc : isAsciiBlank c = true := by
          cases hc : isAsciiBlank c with
          | true => rfl
          | false => exact absurd (List.takeWhile_cons_of_neg (by simp [hc])) hne
        exact .descendant hc hne (hblanks _) (takeCombinator?_dropWhile hsign)
  · rename_i hnone
    exact .simple (takeCombinator?_eq_none hnone).1 htaken

theorem label_of_takePseudo (htaken : takePseudo text = (piece, rest)) :
    (piece.toPart read).kind.isCombinator = false ∧
      (piece.toPart read).kind.label.head? = some ':' := by
  obtain ⟨colon, name, rest', rfl, -, -, hpseudo⟩ := exists_takePseudo_eq text
  rw [hpseudo rest' (.refl rest')] at htaken
  split at htaken
  · cases htaken
    rw [Piece.toPart]
    split <;> exact ⟨rfl, rfl⟩
  · cases htaken
    exact ⟨rfl, rfl⟩

/-- A simple selector is no combinator and begins where it was found. -/
theorem label_of_takeSimple {c : Char} (htaken : takeSimple c text = (piece, rest)) :
    (piece.toPart read).kind.isCombinator = false ∧
      (piece.toPart read).kind.label.head? = some c := by
  cases takeSimple_eq_iff.mp htaken with
  | attr hspan =>
    have hhead := @Brackets.span_head? .square '[' ('[' :: text) rfl
    rw [hspan] at hhead
    exact ⟨rfl, hhead⟩
  | pseudo hpseudo => exact label_of_takePseudo hpseudo
  | tag hstart hname =>
    have hne := takeName_ne_nil text hstart
    have happend := takeName_append (c :: text)
    rw [hname] at hne happend
    obtain ⟨d, name, rfl⟩ := List.exists_cons_of_ne_nil hne
    exact ⟨rfl, congrArg some (List.cons.inj happend).1⟩
  | _ => exact ⟨rfl, rfl⟩

/-! ### The parts of a branch -/

/-- The kinds of the parts that are read in the text of a branch. -/
def kindsOf (text : List Char) : List Kind :=
  (partsOf text).map Part.kind

theorem kindsOf_nil : kindsOf [] = [] := by
  rw [kindsOf, partsOf_nil, List.map_nil]

theorem kindsOf_of_takePiece {c : Char} (htaken : takePiece c text = (piece, rest)) :
    kindsOf (c :: text) = (piece.toPart read).kind :: kindsOf rest := by
  rw [kindsOf, partsOf_cons, htaken, List.map_cons, kindsOf]

theorem exists_takesPiece {kind : Kind} (hkind : kind ∈ kindsOf text) :
    ∃ c others piece rest, TakesPiece c others piece rest ∧ (piece.toPart read).kind = kind := by
  induction text using pieces_induction with
  | nil =>
    rw [kindsOf_nil] at hkind
    cases hkind
  | cons c text piece rest htaken ih =>
    rw [kindsOf_of_takePiece htaken] at hkind
    rcases List.mem_cons.mp hkind with rfl | hkind
    · exact ⟨c, text, piece, rest, takesPiece htaken, rfl⟩
    · exact ih hkind

theorem isCombinator_of_mem_kindsOf {value raw : List Char}
    (hmem : .leaf (.combinator value raw) ∈ kindsOf text) :
    IsCombinator (.leaf (.combinator value raw)) := by
  obtain ⟨c, others, piece, rest, htakes, hkind⟩ := exists_takesPiece hmem
  cases htakes with
  | sign hsign hbefore hafter hrest =>
    cases hkind
    exact .sign hsign hbefore hafter
  | descendant hc hne hblanks hrest =>
    cases hkind
    exact .descendant hne hblanks
  | simple hc htaken =>
    have hnone := (label_of_takeSimple htaken).1
    rw [hkind] at hnone
    cases hnone

theorem label_of_mem_kindsOf {kind : Kind} (hmem : kind ∈ kindsOf text)
    (hnone : kind.isCombinator = false) :
    ∃ c rest, kind.label = c :: rest ∧ isAsciiBlank c = false := by
  obtain ⟨c, others, piece, rest, htakes, rfl⟩ := exists_takesPiece hmem
  cases htakes with
  | sign hsign hbefore hafter hrest => cases hnone
  | descendant hc hne hblanks hrest => cases hnone
  | simple hc htaken =>
    obtain ⟨rest, hlabel⟩ := List.head?_eq_some_iff.mp (label_of_takeSimple htaken).2
    exact ⟨c, rest, hlabel, hc⟩

theorem isDescendant_sign {sign raw : List Char} (hsign : sign ∈ signs) :
    (Kind.leaf (.combinator sign raw)).isDescendant = false := by
  rw [Kind.isDescendant]
  exact (by decide : ∀ sign ∈ signs, (sign == [' ']) = false) sign hsign

/-- A text that does not begin with a blank does not begin with blanks as a combinator. -/
theorem isDescendant_head?_kindsOf (htext : ∀ c ∈ text.head?, isAsciiBlank c = false) :
    ∀ kind ∈ (kindsOf text).head?, kind.isDescendant = false := by
  cases text with
  | nil => simp [kindsOf_nil]
  | cons c text =>
    obtain ⟨piece, rest, htaken⟩ : ∃ piece rest, takePiece c text = (piece, rest) := ⟨_, _, rfl⟩
    rw [kindsOf_of_takePiece htaken, List.head?_cons]
    rintro kind ⟨⟩
    cases takesPiece htaken with
    | sign hsign hbefore hafter hrest => exact isDescendant_sign hsign
    | descendant hc hne hblanks hrest =>
      rw [htext c rfl] at hc
      cases hc
    | simple hc htaken => exact Kind.isDescendant_eq_false (label_of_takeSimple htaken).1

theorem isCombinator_head?_kindsOf (hnone : takeCombinator? text = none) :
    ∀ kind ∈ (kindsOf text).head?, kind.isCombinator = false := by
  cases text with
  | nil => simp [kindsOf_nil]
  | cons c text =>
    obtain ⟨piece, rest, htaken⟩ : ∃ piece rest, takeSimple c text = (piece, rest) := ⟨_, _, rfl⟩
    have hpiece : takePiece c text = (piece, rest) := by rw [takePiece, hnone, htaken]
    rw [kindsOf_of_takePiece hpiece, List.head?_cons]
    rintro kind ⟨⟩
    exact (label_of_takeSimple htaken).1

/-- No combinator comes right before or after blanks alone. -/
theorem isChain_kindsOf (text : List Char) : (kindsOf text).IsChain Kind.MayPrecede := by
  induction text using pieces_induction with
  | nil =>
    rw [kindsOf_nil]
    exact .nil
  | cons c text piece rest htaken ih =>
    rw [kindsOf_of_takePiece htaken, List.isChain_cons]
    refine ⟨fun next hnext => ?_, ih⟩
    cases takesPiece htaken with
    | sign hsign hbefore hafter hrest =>
      have hblanks := isDescendant_head?_kindsOf hrest next hnext
      constructor
      · intro hkind
        rw [Piece.toPart, Part.kind, isDescendant_sign hsign] at hkind
        cases hkind
      · intro hdescendant
        rw [hblanks] at hdescendant
        cases hdescendant
    | descendant hc hne hblanks hrest =>
      have hnone := isCombinator_head?_kindsOf hrest next hnext
      refine ⟨fun _ => hnone, fun hdescendant => ?_⟩
      rw [Kind.isDescendant_eq_false hnone] at hdescendant
      cases hdescendant
    | simple hc htaken =>
      have hnone := (label_of_takeSimple htaken).1
      refine ⟨fun hdescendant => ?_, fun _ => hnone⟩
      rw [Kind.isDescendant_eq_false hnone] at hdescendant
      cases hdescendant

theorem IsCombinator.blanks {raw : List Char} (hraw : IsCombinator (.leaf (.combinator [' '] raw))) :
    raw ≠ [] ∧ AreBlanks raw := by
  cases hraw with
  | descendant hne hblanks => exact ⟨hne, hblanks⟩
  | sign hsign hbefore hafter => exact absurd hsign (by decide)

/-- A text that does not end with a blank does not end with blanks as a combinator. -/
theorem isDescendant_getLast?_kindsOf (htext : ∀ c ∈ text.getLast?, isBlank c = false) :
    ∀ kind ∈ (kindsOf text).getLast?, kind.isDescendant = false := by
  intro kind hlast
  cases hdescendant : kind.isDescendant with
  | false => rfl
  | true =>
    obtain ⟨raw, rfl⟩ := Kind.exists_raw_of_isDescendant hdescendant
    obtain ⟨hne, hblanks⟩ := (isCombinator_of_mem_kindsOf (List.mem_of_getLast? hlast)).blanks
    obtain ⟨front, hkinds⟩ := List.getLast?_eq_some_iff.mp hlast
    obtain ⟨parts, last, hparts, -, hpart⟩ := List.map_eq_append_iff.mp hkinds
    obtain ⟨part, rfl, hpart⟩ := List.map_eq_singleton_iff.mp hpart
    obtain rfl : part = .leaf (.combinator [' '] raw) := by
      cases part <;> cases hpart
      rfl
    -- The text ends with the blanks, so its last character is one of them.
    obtain ⟨before, after, rfl, -, hafter⟩ := eq_append_of_partsOf_eq hparts
    obtain ⟨init, c, rfl⟩ := (List.eq_nil_or_concat raw).resolve_left hne
    have hblank := isBlank_of_isAsciiBlank (hblanks c (by simp))
    rw [htext c (by simp [hafter rfl])] at hblank
    cases hblank

theorem hasNormalCombinators_trim (segment : List Char) :
    HasNormalCombinators (kindsOf (trim segment)) where
  combinator _ _ := isCombinator_of_mem_kindsOf
  first := isDescendant_head?_kindsOf fun c hc => isAsciiBlank_of_isBlank (head?_trim segment c hc)
  last := isDescendant_getLast?_kindsOf (getLast?_trim segment)
  apart := isChain_kindsOf _
  label _ := label_of_mem_kindsOf

/-! ### At every depth -/

/-- A branch of a list, or of an argument at any depth in it. -/
inductive Occurs (branches : List Branch) : Branch → Prop
  | top {branch : Branch} (hbranch : branch ∈ branches) : Occurs branches branch
  | argument {outer branch : Branch} {value : List Char} {inner : List Branch}
      (houter : Occurs branches outer) (hlist : .list value inner ∈ outer.parts)
      (hbranch : branch ∈ inner) : Occurs branches branch

theorem exists_segment_of_mem_read {branch : Branch} (hmem : branch ∈ read text) :
    ∃ segment, branch = Branch.ofSegment read segment := by
  rw [read_eq] at hmem
  split at hmem
  · cases hmem
  · obtain ⟨segment, -, rfl⟩ := List.mem_map.mp hmem
    exact ⟨segment, rfl⟩

/-- Each branch was read from a segment, be it of the text or of an argument. -/
theorem Occurs.exists_segment {branch : Branch} (hoccurs : Occurs (read text) branch) :
    ∃ segment, branch = Branch.ofSegment read segment := by
  induction hoccurs with
  | top hbranch => exact exists_segment_of_mem_read hbranch
  | argument houter hlist hbranch ih =>
    obtain ⟨segment, rfl⟩ := ih
    obtain ⟨argument, rfl⟩ := exists_read_of_mem_partsOf hlist
    exact exists_segment_of_mem_read hbranch

theorem Occurs.hasNormalCombinators {branch : Branch}
    (hoccurs : Occurs (read text) branch) : HasNormalCombinators (branch.parts.map Part.kind) := by
  obtain ⟨segment, rfl⟩ := hoccurs.exists_segment
  exact hasNormalCombinators_trim segment

namespace Table

variable {table : Table} {node : Nat} {nodes : List Nat}

theorem map_kind_of_holdsParts {parts : List Part} (hholds : table.HoldsParts nodes parts) :
    nodes.map table.kind = parts.map Part.kind := by
  induction parts generalizing nodes with
  | nil =>
    rw [HoldsParts] at hholds
    rw [hholds, List.map_nil, List.map_nil]
  | cons part parts ih =>
    rw [HoldsParts] at hholds
    obtain ⟨node, others, rfl, hpart, hothers⟩ := hholds
    have hkind : table.kind node = part.kind := by
      cases part <;> rw [HoldsPart] at hpart <;> exact hpart.1
    rw [List.map_cons, List.map_cons, hkind, ih hothers]

/-- Every node that the lists lead to stands for the whole list, for a branch in it or for a part of such a
branch. -/
theorem Shows.cases_of_reachable {branches : List Branch} (hshows : table.Shows branches)
    (hnode : table.Reachable node) :
    node = root ∨ (∃ branch, Occurs branches branch ∧ table.HoldsBranch node branch) ∨
      ∃ branch part, Occurs branches branch ∧ part ∈ branch.parts ∧ table.HoldsPart node part := by
  induction hnode with
  | origin => exact .inl rfl
  | child hnode hchild ih =>
    rcases ih with rfl | ⟨branch, hoccurs, hholds⟩ | ⟨branch, part, hoccurs, hpart, hholds⟩
    · obtain ⟨branch, hmem, hholds⟩ := exists_branch_of_holdsList hshows.2 hchild
      exact .inr (.inl ⟨branch, .top hmem, hholds⟩)
    · cases branch with
      | mk before parts after =>
        rw [HoldsBranch] at hholds
        obtain ⟨part, hmem, hpart⟩ := exists_part_of_holdsParts hholds.2 hchild
        exact .inr (.inr ⟨_, part, hoccurs, hmem, hpart⟩)
    · cases part with
      | leaf leaf =>
        rw [HoldsPart] at hholds
        rw [hholds.2] at hchild
        cases hchild
      | list value inner =>
        rw [HoldsPart] at hholds
        obtain ⟨argument, hmem, hargument⟩ := exists_branch_of_holdsList hholds.2 hchild
        exact .inr (.inl ⟨argument, .argument hoccurs hpart hmem, hargument⟩)

theorem Shows.exists_occurs {branches : List Branch} (hshows : table.Shows branches)
    (hnode : table.Reachable node) {before after : List Char}
    (hkind : table.kind node = .branch before after) :
    ∃ branch, Occurs branches branch ∧ table.HoldsBranch node branch := by
  rcases hshows.cases_of_reachable hnode with rfl | hbranch | ⟨_, part, -, -, hholds⟩
  · rw [hshows.1] at hkind
    cases hkind
  · exact hbranch
  · cases part <;> rw [HoldsPart] at hholds <;> rw [hholds.1] at hkind <;> cases hkind

end Table

/-- In every branch that is read in a text, at whatever depth, combinators are in normal form. The same
holds of the children of every branch node in the table. -/
theorem read_hasNormalCombinators (text : List Char) :
    (∀ branch, Occurs (read text) branch → HasNormalCombinators (branch.parts.map Part.kind)) ∧
      ∀ node ∈ (Table.ofList (read text)).descendants, ∀ before after,
        (Table.ofList (read text)).kind node = .branch before after →
          HasNormalCombinators
            (((Table.ofList (read text)).children node).map (Table.ofList (read text)).kind) := by
  refine ⟨fun branch hoccurs => hoccurs.hasNormalCombinators, fun node hnode before after hkind => ?_⟩
  have hreachable := (Table.isTree_ofList (read text)).isShallow.mem_descendants_iff.mp hnode
  obtain ⟨branch, hoccurs, hholds⟩ := (Table.shows_ofList (read text)).exists_occurs hreachable hkind
  cases branch with
  | mk before parts after =>
    rw [Table.HoldsBranch] at hholds
    rw [Table.map_kind_of_holdsParts hholds.2]
    exact hoccurs.hasNormalCombinators

/-- The blank after the backslash belongs to the class, the next one is a combinator. The branch below
`:not` has the blanks around its sign in the combinator and those around the branch in the branch. -/
theorem read_hasNormalCombinators_crowded :
    let table := Table.ofList (read " >>>.a\\  b:not( c\t+ d ,e/deep/) > ~f\x0c".toList)
    (1 ∈ table.descendants ∧ table.kind 1 = .branch [' '] ['\x0c'] ∧
      (table.children 1).map table.kind =
        [.leaf (.combinator ">>>".toList ">>>".toList), .leaf (.className ".a\\ ".toList),
          .leaf (.combinator [' '] [' ']), .leaf (.tag ['b']), .list ":not".toList,
          .leaf (.combinator ['>'] " > ".toList), .leaf (.combinator ['~'] ['~']), .leaf (.tag ['f'])] ∧
      HasNormalCombinators ((table.children 1).map table.kind)) ∧
    (7 ∈ table.descendants ∧ table.kind 7 = .branch [' '] [' '] ∧
      (table.children 7).map table.kind =
        [.leaf (.tag ['c']), .leaf (.combinator ['+'] "\t+ ".toList), .leaf (.tag ['d'])] ∧
      HasNormalCombinators ((table.children 7).map table.kind)) := by
  refine ⟨⟨by decide +kernel, by decide +kernel, by decide +kernel, ?_⟩,
    ⟨by decide +kernel, by decide +kernel, by decide +kernel, ?_⟩⟩
  · exact (read_hasNormalCombinators _).2 1 (by decide +kernel) [' '] ['\x0c'] (by decide +kernel)
  · exact (read_hasNormalCombinators _).2 7 (by decide +kernel) [' '] [' '] (by decide +kernel)

end StyleMigration.Selector
