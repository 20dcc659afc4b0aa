import StyleMigration.Proofs.Selector.Recovery

/-!
Plain selector lists. The parts of a branch are tags, `*`, `&`, simple selectors and combinators, in any
order in which they can be told apart: no two combinators are side by side, and no tag directly follows a
name, with which it would be one name (`IsPlainParts`). A combinator at the edge of a branch has no blanks
on its outer side; such blanks are those around the branch. Compared with the grammar of chains, a compound
may have its parts in any order, and a branch may be a combinator alone.

What stands on the left of a part is all that decides whether it can follow there, so reading recovers a
plain list by one induction over the parts of a branch (`IsPlainParts.partsOf_eq`).
-/

set_option autoImplicit false

namespace StyleMigration.Selector

open Text

variable {parts : List Part}

/-! ### The grammar -/

/-- What stands on the left of a part. -/
inductive Left where
  /-- The beginning of the branch. -/
  | edge
  /-- A part that ends with a name. -/
  | name
  /-- Any other part of a compound. -/
  | mark
  | combinator
  deriving DecidableEq

/-- A part of a compound that can stand after a name; an argument that is a list is one of `nested`. -/
inductive IsAtom (nested : List Branch → Prop) : Part → Prop
  | universal : IsAtom nested (.leaf (.universal ['*']))
  | nesting : IsAtom nested (.leaf .nesting)
  | simple {part : Part} (hpart : IsSimple nested part) : IsAtom nested part

/-- Parts that can follow what stands on their left, up to the end of a branch. -/
inductive IsPlainParts (nested : List Branch → Prop) : Left → List Part → Prop
  | nil {left : Left} : IsPlainParts nested left []
  | tag {left : Left} {name : List Char} {parts : List Part} (hname : IsIdent name)
      (hleft : left ≠ .name) (hparts : IsPlainParts nested .name parts) :
      IsPlainParts nested left (.leaf (.tag name) :: parts)
  | atom {left : Left} {part : Part} {parts : List Part} (hpart : IsAtom nested part)
      (hparts : IsPlainParts nested (if part.endsOnName then .name else .mark) parts) :
      IsPlainParts nested left (part :: parts)
  | combinator {left : Left} {part : Part} {parts : List Part} (hpart : IsCombinator part)
      (hleft : left ≠ .combinator)
      (hfirst : left = .edge → ∀ c ∈ part.text.head?, isBlank c = false)
      (hlast : parts = [] → ∀ c ∈ part.text.getLast?, isBlank c = false)
      (hparts : IsPlainParts nested .combinator parts) : IsPlainParts nested left (part :: parts)

inductive IsPlainBranch (nested : List Branch → Prop) : Branch → Prop
  | mk {before after : List Char} {parts : List Part} (hbefore : AreBlanks before)
      (hafter : AreBlanks after) (hne : parts ≠ []) (hparts : IsPlainParts nested .edge parts) :
      IsPlainBranch nested (.mk before parts after)

/-- A plain selector list whose arguments are nested less than `depth` deep. -/
def IsPlain : Nat → List Branch → Prop
  | 0, _ => False
  | depth + 1, branches =>
    branches ≠ [] ∧ ∀ branch ∈ branches, IsPlainBranch (IsPlain depth) branch

theorem IsAtom.mono {nested other : List Branch → Prop} {part : Part} (hpart : IsAtom nested part)
    (hmono : ∀ branches, nested branches → other branches) : IsAtom other part := by
  cases hpart with
  | universal => exact .universal
  | nesting => exact .nesting
  | simple hsimple => exact .simple (hsimple.mono fun _ branches _ => hmono branches)

variable {left : Left}

theorem IsPlainParts.mono {nested other : List Branch → Prop}
    (hparts : IsPlainParts nested left parts)
    (hmono : ∀ branches, nested branches → other branches) : IsPlainParts other left parts := by
  induction hparts with
  | nil => exact .nil
  | tag hname hleft _ ih => exact .tag hname hleft ih
  | atom hpart _ ih => exact .atom (hpart.mono hmono) ih
  | combinator hpart hleft hfirst hlast _ ih => exact .combinator hpart hleft hfirst hlast ih

/-! ### Parts of a compound -/

theorem IsAtom.isSolid {part : Part} (hpart : IsAtom IsRecovered part) : IsSolid part := by
  cases hpart with
  | universal => exact IsHead.universal.isSolid _ (List.mem_singleton_self _)
  | nesting => exact IsHead.nesting.isSolid _ (List.mem_singleton_self _)
  | simple hsimple => exact hsimple.isSolid

/-- An atom ends a name before it. -/
theorem IsAtom.isBoundary {nested : List Branch → Prop} {part : Part} (hpart : IsAtom nested part)
    (rest : List Char) : IsBoundary (part.text ++ rest) := by
  cases hpart with
  | universal => exact ⟨takeName_cons rfl (by decide) _, by simp [Part.text, Leaf.text]⟩
  | nesting => exact ⟨takeName_cons rfl (by decide) _, by simp [Part.text, Leaf.text]⟩
  | simple hsimple => exact hsimple.isBoundary rest

theorem IsAtom.partsOf_eq {part : Part} (hpart : IsAtom IsRecovered part) {rest : List Char}
    (hrest : part.endsOnName = true → IsBoundary rest) :
    partsOf (part.text ++ rest) = part :: partsOf rest := by
  cases hpart with
  | universal => exact partsOf_universal rest
  | nesting => exact partsOf_nesting rest
  | simple hsimple => exact hsimple.partsOf_eq_of_endsOnName hrest

theorem IsCombinator.text_ne_nil {part : Part} (hpart : IsCombinator part) : part.text ≠ [] := by
  cases hpart with
  | descendant hne hblanks => exact hne
  | sign hsign hbefore hafter =>
    simp [Part.text, Leaf.text, (isTight_of_mem_signs hsign).nonempty]

/-! ### Branches -/

namespace IsPlainParts

/-- After a name there is something that ends it. -/
theorem isBoundary {nested : List Branch → Prop} {parts : List Part}
    (hparts : IsPlainParts nested .name parts) : IsBoundary (partsText parts) := by
  cases hparts with
  | nil =>
    rw [partsText]
    exact isBoundary_nil
  | tag hname hleft => exact absurd rfl hleft
  | atom hpart =>
    rw [partsText]
    exact hpart.isBoundary _
  | combinator hpart =>
    rw [partsText]
    exact hpart.isBoundary _

/-- After a combinator there is a compound, or nothing. -/
theorem canStart (hparts : IsPlainParts IsRecovered .combinator parts) :
    CanStart (partsText parts) := by
  have hstarts {part : Part} (hsolid : IsSolid part) (others : List Part) :
      CanStart (partsText (part :: others)) := by
    obtain ⟨c, text, htext⟩ := List.exists_cons_of_ne_nil hsolid.tight.nonempty
    intro first hfirst
    rw [partsText, htext] at hfirst
    cases hfirst
    exact hsolid.starts c (by rw [htext]; rfl)
  cases hparts with
  | nil => simp [partsText, CanStart]
  | tag hname => exact hstarts (isSolid_tag hname) _
  | atom hpart => exact hstarts hpart.isSolid _
  | combinator hpart hleft => exact absurd rfl hleft

/-- The parts of a plain branch come off its text one after the other. -/
theorem partsOf_eq {left : Left} {parts : List Part} (hparts : IsPlainParts IsRecovered left parts) :
    partsOf (partsText parts) = parts := by
  induction hparts with
  | nil =>
    rw [partsText]
    exact partsOf_nil
  | tag hname hleft hparts ih =>
    rw [partsText, Part.text, Leaf.text, partsOf_tag hname hparts.isBoundary.name, ih]
  | atom hpart hparts ih =>
    rw [partsText, hpart.partsOf_eq ?_, ih]
    intro hname
    rw [if_pos hname] at hparts
    exact hparts.isBoundary
  | combinator hpart hleft hfirst hlast hparts ih =>
    rw [partsText, hpart.partsOf_eq hparts.canStart, ih]

theorem isSegment (hparts : IsPlainParts IsRecovered left parts) :
    IsSegment (partsText parts) := by
  induction hparts with
  | nil =>
    rw [partsText]
    exact .nil
  | tag hname hleft hparts ih =>
    rw [partsText]
    exact (isSolid_tag hname).segment.append ih
  | atom hpart hparts ih =>
    rw [partsText]
    exact hpart.isSolid.segment.append ih
  | combinator hpart hleft hfirst hlast hparts ih =>
    rw [partsText]
    exact hpart.isSegment.append ih

theorem partsText_ne_nil
    (hparts : IsPlainParts IsRecovered left parts) (hne : parts ≠ []) : partsText parts ≠ [] := by
  cases hparts with
  | nil => exact absurd rfl hne
  | tag hname =>
    rw [partsText]
    exact List.append_ne_nil_of_left_ne_nil (isSolid_tag hname).tight.nonempty _
  | atom hpart =>
    rw [partsText]
    exact List.append_ne_nil_of_left_ne_nil hpart.isSolid.tight.nonempty _
  | combinator hpart =>
    rw [partsText]
    exact List.append_ne_nil_of_left_ne_nil hpart.text_ne_nil _

/-- A plain branch does not end with a blank. -/
theorem isBlank_getLast? (hparts : IsPlainParts IsRecovered left parts) :
    ∀ c ∈ (partsText parts).getLast?, isBlank c = false := by
  -- The text ends with its last part, so the end of a part matters only if nothing follows it.
  have hcons {left : Left} {part : Part} {others : List Part}
      (hlast : others = [] → ∀ c ∈ part.text.getLast?, isBlank c = false)
      (hothers : IsPlainParts IsRecovered left others)
      (ih : ∀ c ∈ (partsText others).getLast?, isBlank c = false) :
      ∀ c ∈ (partsText (part :: others)).getLast?, isBlank c = false := by
    rw [partsText]
    by_cases hnil : others = []
    · rw [hnil, partsText, List.append_nil]
      exact hlast hnil
    · have hsome := List.getLast?_isSome.mpr (hothers.partsText_ne_nil hnil)
      rw [List.getLast?_append, Option.or_of_isSome hsome]
      exact ih
  induction hparts with
  | nil => simp [partsText]
  | tag hname hleft hparts ih => exact hcons (fun _ => (isSolid_tag hname).tight.last) hparts ih
  | atom hpart hparts ih => exact hcons (fun _ => hpart.isSolid.tight.last) hparts ih
  | combinator hpart hleft hfirst hlast hparts ih => exact hcons hlast hparts ih

/-- A plain branch begins and ends without a blank. -/
theorem isTight (hparts : IsPlainParts IsRecovered .edge parts)
    (hne : parts ≠ []) : IsTight (partsText parts) := by
  refine ⟨hparts.partsText_ne_nil hne, ?_, hparts.isBlank_getLast?⟩
  have hcons {part : Part} {others : List Part} (htext : part.text ≠ [])
      (hfirst : ∀ c ∈ part.text.head?, isBlank c = false) :
      ∀ c ∈ (partsText (part :: others)).head?, isBlank c = false := by
    rw [partsText, List.head?_append, Option.or_of_isSome (List.isSome_head?.mpr htext)]
    exact hfirst
  cases hparts with
  | nil => exact absurd rfl hne
  | tag hname => exact hcons (isSolid_tag hname).tight.nonempty (isSolid_tag hname).tight.first
  | atom hpart => exact hcons hpart.isSolid.tight.nonempty hpart.isSolid.tight.first
  | combinator hpart _ hfirst => exact hcons hpart.text_ne_nil (hfirst rfl)

end IsPlainParts

theorem IsPlainBranch.isReadBranch {branch : Branch} (hbranch : IsPlainBranch IsRecovered branch) :
    IsReadBranch branch := by
  obtain ⟨hbefore, hafter, hne, hparts⟩ := hbranch
  have htight := hparts.isTight hne
  refine ⟨?_, ?_, ?_⟩
  · rw [Branch.text]
    exact (hbefore.isSegment.append hparts.isSegment).append hafter.isSegment
  · rw [Branch.text]
    exact htight.isAllBlank_eq _ _
  · rw [Branch.text, htight.ofSegment_eq hbefore hafter, hparts.partsOf_eq]

/-- Reading recovers plain lists, whatever their depth. -/
theorem IsPlain.isRecovered {depth : Nat} {branches : List Branch}
    (hbranches : IsPlain depth branches) : IsRecovered branches := by
  induction depth generalizing branches with
  | zero => exact hbranches.elim
  | succ depth ih =>
    refine isRecovered_of_isReadBranch hbranches.1 fun branch hmem => ?_
    obtain ⟨hbefore, hafter, hne, hparts⟩ := hbranches.2 branch hmem
    exact (IsPlainBranch.mk hbefore hafter hne (hparts.mono fun _ => ih)).isReadBranch

end StyleMigration.Selector
