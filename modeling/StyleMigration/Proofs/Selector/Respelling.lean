import StyleMigration.Proofs.Selector.Plain
import StyleMigration.Proofs.Selector.Rereading

/-!
The spellings of a legacy combinator are interchangeable. In a plain list, some legacy combinators are
spelled in another way and have other blanks around them, but for the blanks on the outer side of one at
the edge of a branch (`Respelled`). The list stays plain (`Respelled.isPlain`), so reading recovers both
lists from their texts; and the combinators that were respelled are just what replacing takes away
(`Respelled.modernizeList_eq`).
-/

set_option autoImplicit false

namespace StyleMigration.Selector

open Text

/-! ### Other spellings -/

/-- Some legacy combinators of a branch are spelled in another way, where `first` says whether the parts
start the branch. The arguments of pseudo-classes are `related`. -/
inductive RespelledParts (related : List Branch → List Branch → Prop) :
    Bool → List Part → List Part → Prop
  | nil {first : Bool} : RespelledParts related first [] []
  | keep {first : Bool} {parts others : List Part} (part : Part)
      (hothers : RespelledParts related false parts others) :
      RespelledParts related first (part :: parts) (part :: others)
  | list {first : Bool} {value : List Char} {branches branches' : List Branch}
      {parts others : List Part} (hbranches : related branches branches')
      (hothers : RespelledParts related false parts others) :
      RespelledParts related first (.list value branches :: parts) (.list value branches' :: others)
  | legacy {first : Bool} {sign sign' before before' after after' : List Char}
      {parts others : List Part} (hsign : sign ∈ legacySigns) (hsign' : sign' ∈ legacySigns)
      (hbefore : AreBlanks before) (hbefore' : AreBlanks before') (hafter : AreBlanks after)
      (hafter' : AreBlanks after') (hfirst : first = true → before' = before)
      (hlast : parts = [] → after' = after) (hothers : RespelledParts related false parts others) :
      RespelledParts related first (.leaf (.combinator sign (before ++ sign ++ after)) :: parts)
        (.leaf (.combinator sign' (before' ++ sign' ++ after')) :: others)

inductive RespelledBranches (related : List Branch → List Branch → Prop) :
    List Branch → List Branch → Prop
  | nil : RespelledBranches related [] []
  | cons {before after : List Char} {parts parts' : List Part} {branches branches' : List Branch}
      (hparts : RespelledParts related true parts parts')
      (hbranches : RespelledBranches related branches branches') :
      RespelledBranches related (.mk before parts after :: branches) (.mk before parts' after :: branches')

/-- Some legacy combinators of a list, less than `depth` deep, are spelled in another way. -/
def Respelled : Nat → List Branch → List Branch → Prop
  | 0, branches, branches' => branches' = branches
  | depth + 1, branches, branches' => RespelledBranches (Respelled depth) branches branches'

theorem isLegacy_of_mem_legacySigns {sign : List Char} (hsign : sign ∈ legacySigns)
    (raw : List Char) : (Leaf.combinator sign raw).isLegacy = true := by
  simp only [legacySigns, List.mem_cons, List.not_mem_nil, or_false] at hsign
  rcases hsign with rfl | rfl <;> rfl

/-! ### What stays the same -/

namespace RespelledParts

variable {related : List Branch → List Branch → Prop} {first : Bool} {parts others : List Part}

theorem isEmpty_eq (hrespelled : RespelledParts related first parts others) :
    others.isEmpty = parts.isEmpty := by
  cases hrespelled <;> rfl

theorem eq_nil_iff (hrespelled : RespelledParts related first parts others) :
    others = [] ↔ parts = [] := by
  rw [← List.isEmpty_iff, ← List.isEmpty_iff, hrespelled.isEmpty_eq]

/-- What is respelled is replaced all the same. -/
theorem modernizeParts_eq (hrespelled : RespelledParts related first parts others)
    (hrelated : ∀ branches branches', related branches branches' →
      modernizeList branches' = modernizeList branches) (start : Bool) :
    modernizeParts start others = modernizeParts start parts := by
  induction hrespelled generalizing start with
  | nil => rfl
  | keep part hothers ih =>
    cases part with
    | leaf leaf => rw [modernizeParts, modernizeParts, hothers.isEmpty_eq, ih]
    | list value branches => rw [modernizeParts, modernizeParts, ih]
  | list hbranches hothers ih =>
    rw [modernizeParts, modernizeParts, hrelated _ _ hbranches, ih]
  | legacy hsign hsign' _ _ _ _ _ _ hothers ih =>
    rw [modernizeParts, modernizeParts, hothers.isEmpty_eq, ih,
      if_pos (isLegacy_of_mem_legacySigns hsign _), if_pos (isLegacy_of_mem_legacySigns hsign' _)]

end RespelledParts

theorem AreBlanks.eq_nil_of_head? {blanks rest : List Char} (hblanks : AreBlanks blanks)
    (hfirst : ∀ c ∈ (blanks ++ rest).head?, isBlank c = false) : blanks = [] := by
  cases blanks with
  | nil => rfl
  | cons c blanks =>
    have hc := hfirst c rfl
    rw [isBlank_of_isAsciiBlank (hblanks c List.mem_cons_self)] at hc
    cases hc

theorem AreBlanks.eq_nil_of_getLast? {blanks front : List Char} (hblanks : AreBlanks blanks)
    (hlast : ∀ c ∈ (front ++ blanks).getLast?, isBlank c = false) : blanks = [] := by
  rcases List.eq_nil_or_concat blanks with rfl | ⟨init, c, rfl⟩
  · rfl
  · have hc := hlast c (by simp)
    rw [isBlank_of_isAsciiBlank (hblanks c (by simp))] at hc
    cases hc

/-- A plain branch stays plain. -/
theorem IsPlainParts.respelled {nested : List Branch → Prop}
    {related : List Branch → List Branch → Prop} {left : Left} {first : Bool}
    {parts others : List Part} (hparts : IsPlainParts nested left parts)
    (hrespelled : RespelledParts related first parts others) (hedge : left = .edge → first = true)
    (hrelated : ∀ branches branches', nested branches → related branches branches' →
      nested branches') : IsPlainParts nested left others := by
  induction hrespelled generalizing left with
  | nil => exact hparts
  | keep part hothers ih =>
    cases hparts with
    | tag hname hleft hparts => exact .tag hname hleft (ih hparts (by simp))
    | atom hpart hparts => exact .atom hpart (ih hparts (by split <;> simp))
    | combinator hpart hleft hfirst hlast hparts =>
      exact .combinator hpart hleft hfirst (fun hnil => hlast (hothers.eq_nil_iff.mp hnil))
        (ih hparts (by simp))
  | list hbranches hothers ih =>
    cases hparts with
    | atom hpart hparts =>
      cases hpart with
      | simple hsimple =>
        cases hsimple with
        | list hcolons hname htakes hnested =>
          exact .atom (.simple (.list hcolons hname htakes (hrelated _ _ hnested hbranches)))
            (ih hparts (by simp [Part.endsOnName]))
    | combinator hpart => cases hpart
  | @legacy first sign sign' before before' after after' parts others hsign hsign' hbefore hbefore'
      hafter hafter' hfirst hlast hothers ih =>
    cases hparts with
    | atom hpart =>
      cases hpart with
      | simple hsimple => cases hsimple
    | combinator hpart hleft hfirst' hlast' hparts =>
      have hall : ∀ sign ∈ legacySigns, sign ∈ signs := by decide
      have htight := isTight_of_mem_signs (hall sign' hsign')
      refine .combinator (.sign (hall sign' hsign') hbefore' hafter') hleft (fun hleft' => ?_)
        (fun hnil => ?_) (ih hparts (by simp))
      · rw [Part.text, Leaf.text, List.append_assoc] at hfirst'
        have hnone := hbefore.eq_nil_of_head? (hfirst' hleft')
        rw [Part.text, Leaf.text, hfirst (hedge hleft'), hnone, List.nil_append, List.head?_append,
          Option.or_of_isSome (List.isSome_head?.mpr htight.nonempty)]
        exact htight.first
      · have hnil' := hothers.eq_nil_iff.mp hnil
        have hnone := hafter.eq_nil_of_getLast? (hlast' hnil')
        rw [Part.text, Leaf.text, hlast hnil', hnone, List.append_nil, List.getLast?_append,
          Option.or_of_isSome (List.getLast?_isSome.mpr htight.nonempty)]
        exact htight.last

/-! ### Lists -/

theorem RespelledBranches.modernizeList_eq {related : List Branch → List Branch → Prop}
    {branches branches' : List Branch} (hrespelled : RespelledBranches related branches branches')
    (hrelated : ∀ nested nested', related nested nested' →
      modernizeList nested' = modernizeList nested) :
    modernizeList branches' = modernizeList branches := by
  induction hrespelled with
  | nil => rfl
  | cons hparts _ ih =>
    rw [modernizeList, modernizeList, ih, Branch.modernize, Branch.modernize,
      hparts.modernizeParts_eq hrelated]

theorem RespelledBranches.isPlainBranch {related : List Branch → List Branch → Prop}
    {nested : List Branch → Prop} {branches branches' : List Branch}
    (hrespelled : RespelledBranches related branches branches')
    (hplain : ∀ branch ∈ branches, IsPlainBranch nested branch)
    (hrelated : ∀ inner inner', nested inner → related inner inner' → nested inner') :
    ∀ branch ∈ branches', IsPlainBranch nested branch := by
  induction hrespelled with
  | nil => exact hplain
  | cons hparts _ ih =>
    rw [List.forall_mem_cons] at hplain ⊢
    obtain ⟨hbefore, hafter, hne, hplain_parts⟩ := hplain.1
    refine ⟨.mk hbefore hafter ?_ (hplain_parts.respelled hparts (fun _ => rfl) hrelated),
      ih hplain.2⟩
    exact fun hnil => hne (hparts.eq_nil_iff.mp hnil)

namespace Respelled

variable {depth : Nat} {branches branches' : List Branch}

theorem modernizeList_eq (hrespelled : Respelled depth branches branches') :
    modernizeList branches' = modernizeList branches := by
  induction depth generalizing branches branches' with
  | zero => rw [show branches' = branches from hrespelled]
  | succ depth ih => exact hrespelled.modernizeList_eq fun _ _ => ih

theorem isPlain (hrespelled : Respelled depth branches branches') (hplain : IsPlain depth branches) :
    IsPlain depth branches' := by
  induction depth generalizing branches branches' with
  | zero => exact hplain.elim
  | succ depth ih =>
    refine ⟨?_, hrespelled.isPlainBranch hplain.2 fun _ _ hnested hrelated => ih hrelated hnested⟩
    rintro rfl
    cases hrespelled
    exact hplain.1 rfl

end Respelled

/-- Texts of plain lists that differ in the spelling of legacy combinators and in the blanks beside them
become the same text when these are replaced. -/
theorem modernized_eq_of_respelled {depth : Nat} {branches branches' : List Branch}
    (hplain : IsPlain depth branches) (hrespelled : Respelled depth branches branches') :
    modernized (listText branches') = modernized (listText branches) := by
  rw [modernized, modernized, hplain.isRecovered.read_eq, (hrespelled.isPlain hplain).isRecovered.read_eq,
    hrespelled.modernizeList_eq]

/-- A combinator with blanks around its sign. -/
def spelled (sign before after : List Char) : Part :=
  .leaf (.combinator sign (before ++ sign ++ after))

/-- The list of `a >>> *&:is(/deep/ .c >>>)b>>>#d, /deep/`, with other combinators in the places of its legacy
ones. -/
def crowdedList (inChain argumentFirst argumentLast beforeId alone : Part) : List Branch :=
  [.mk [] [.leaf (.tag ['a']), inChain, .leaf (.universal ['*']), .leaf .nesting,
      .list [':', 'i', 's'] [.mk [] [argumentFirst, .leaf (.className ['.', 'c']), argumentLast] []],
      .leaf (.tag ['b']), beforeId, .leaf (.id ['#', 'd'])] [],
    .mk [' '] [alone] []]

theorem modernized_eq_of_respelled_crowded :
    let chevrons := ['>', '>', '>']
    let slashes := ['/', 'd', 'e', 'e', 'p', '/']
    let branches := crowdedList (spelled chevrons [' '] [' ']) (spelled slashes [] [' '])
      (spelled chevrons [' '] []) (spelled chevrons [] []) (spelled slashes [] [])
    let branches' := crowdedList (spelled slashes ['\t'] ['\n']) (spelled chevrons [] [])
      (spelled slashes ['\r', '\n'] []) (spelled chevrons [' ', ' '] ['\x0c']) (spelled chevrons [] [])
    listText branches = "a >>> *&:is(/deep/ .c >>>)b>>>#d, /deep/".toList ∧
      listText branches' = "a\t/deep/\n*&:is(>>>.c\r\n/deep/)b  >>>\x0c#d, >>>".toList ∧
      IsPlain 2 branches ∧ Respelled 2 branches branches' ∧
      modernized (listText branches') = modernized (listText branches) := by
  intro chevrons slashes branches branches'
  have hplain : IsPlain 2 branches := by
    have hinner : IsPlain 1 [.mk [] [spelled slashes [] [' '], .leaf (.className ['.', 'c']),
        spelled chevrons [' '] []] []] := by
      refine ⟨by simp, List.forall_mem_singleton.mpr (.mk (by decide) (by decide) (by simp) ?_)⟩
      refine .combinator (.sign (by decide) (by decide) (by decide)) (by simp) (by decide) (by simp) ?_
      refine .atom (.simple (@IsSimple.className _ ['c'] (by decide +kernel))) ?_
      exact .combinator (.sign (by decide) (by decide) (by decide)) (by simp [Part.endsOnName])
        (by simp [Part.endsOnName]) (by decide) .nil
    have his : IsSimple (IsPlain 1) (.list [':', 'i', 's'] _) :=
      @IsSimple.list _ [':'] ['i', 's'] _ (.inl rfl) (by decide +kernel) (by decide +kernel) hinner
    refine ⟨by simp [branches, crowdedList], List.forall_mem_cons.mpr ⟨?_, List.forall_mem_singleton.mpr ?_⟩⟩
    · refine .mk (by decide) (by decide) (by simp) (.tag (by decide +kernel) (by simp) ?_)
      refine .combinator (.sign (by decide) (by decide) (by decide)) (by simp) (by simp) (by simp) ?_
      refine .atom .universal (.atom .nesting (.atom (.simple his) ?_))
      refine .tag (by decide +kernel) (by simp [Part.endsOnName]) ?_
      refine .combinator (.sign (by decide) (by decide) (by decide)) (by simp) (by simp) (by simp) ?_
      exact .atom (.simple (@IsSimple.id _ ['d'] (by decide +kernel))) .nil
    · refine .mk (by decide) (by decide) (by simp) ?_
      exact .combinator (.sign (by decide) (by decide) (by decide)) (by simp) (by decide) (by decide) .nil
  have hrespelled : Respelled 2 branches branches' := by
    have hinner : Respelled 1 [.mk [] [spelled slashes [] [' '], .leaf (.className ['.', 'c']),
        spelled chevrons [' '] []] []] [.mk [] [spelled chevrons [] [], .leaf (.className ['.', 'c']),
        spelled slashes ['\r', '\n'] []] []] := by
      refine .cons (.legacy ?_ ?_ ?_ ?_ ?_ ?_ ?_ ?_ (.keep _ (.legacy ?_ ?_ ?_ ?_ ?_ ?_ ?_ ?_ .nil))) .nil
      all_goals decide
    refine .cons (.keep _ (.legacy ?_ ?_ ?_ ?_ ?_ ?_ ?_ ?_ (.keep _ (.keep _ (.list hinner (.keep _
      (.legacy ?_ ?_ ?_ ?_ ?_ ?_ ?_ ?_ (.keep _ .nil))))))))
      (.cons (.legacy ?_ ?_ ?_ ?_ ?_ ?_ ?_ ?_ .nil) .nil)
    all_goals decide
  exact ⟨by decide +kernel, by decide +kernel, hplain, hrespelled,
    modernized_eq_of_respelled hplain hrespelled⟩

end StyleMigration.Selector
