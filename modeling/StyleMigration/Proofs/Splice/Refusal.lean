import Mathlib.Data.List.Pairwise
import StyleMigration.Proofs.Splice

/-!
Which replacements are refused. The ranges are gone through by their starts, and the first one that
starts before the last one stopped, or that is no range of the text, is the one that is reported
(`spliceFrom_eq_error_iff`). Two ranges with one start are taken in the order in which they were given,
so of two such ranges the empty one has to be given first (`exists_splice_iff_arranged`).
-/

set_option autoImplicit false

namespace StyleMigration

open Text

variable {source : List Char} {replacements : List Replacement}

/-! ### Ranges that are apart -/

theorem areApart_cons_iff {replacement : Replacement} :
    AreApart source (replacement :: replacements) ↔
      replacement.fits source = true ∧ (∀ next ∈ replacements.head?, replacement.stop ≤ next.start) ∧
        AreApart source replacements := by
  rw [AreApart, AreApart, List.forall_mem_cons, List.isChain_cons, fits_iff]
  constructor
  · rintro ⟨⟨hfits, hall⟩, hnext, hchain⟩
    exact ⟨hfits, hnext, hall, hchain⟩
  · rintro ⟨hfits, hnext, hall, hchain⟩
    exact ⟨⟨hfits, hall⟩, hnext, hchain⟩

/-- Ranges are apart if each one stops before every later one starts, not only before the next. -/
theorem areApart_iff_pairwise :
    AreApart source replacements ↔ (∀ replacement ∈ replacements, replacement.fits source = true) ∧
      replacements.Pairwise fun before after => before.stop ≤ after.start := by
  induction replacements with
  | nil => simp [AreApart]
  | cons replacement replacements ih =>
    rw [areApart_cons_iff, ih, List.forall_mem_cons, List.pairwise_cons]
    constructor
    · rintro ⟨hfits, hnext, hall, hpairwise⟩
      refine ⟨⟨hfits, hall⟩, fun after hafter => ?_, hpairwise⟩
      cases replacements with
      | nil => cases hafter
      | cons next replacements =>
        have hfirst := hnext next rfl
        rcases List.mem_cons.mp hafter with rfl | hlater
        · exact hfirst
        · have hlast := (List.pairwise_cons.mp hpairwise).1 after hlater
          have hrange := (fits_iff.mp (hall next List.mem_cons_self)).1
          omega
    · rintro ⟨⟨hfits, hall⟩, hlater, hpairwise⟩
      exact ⟨hfits, fun next hnext => hlater next (List.mem_of_mem_head? hnext), hall, hpairwise⟩

/-- Of two different ranges of an arrangement that is apart, one stops before the other starts. -/
theorem AreApart.stop_le_start {arranged : List Replacement}
    (hapart : AreApart source arranged) {first second : Replacement} (hfirst : first ∈ arranged)
    (hsecond : second ∈ arranged) (hstart : first.start < second.start) :
    first.stop ≤ second.start := by
  obtain ⟨hfits, hpairwise⟩ := areApart_iff_pairwise.mp hapart
  have heither : arranged.Pairwise fun before after =>
      before.stop ≤ after.start ∨ after.stop ≤ before.start :=
    hpairwise.imp .inl
  have hsymmetric : Std.Symm fun before after : Replacement =>
      before.stop ≤ after.start ∨ after.stop ≤ before.start :=
    ⟨fun _ _ => Or.symm⟩
  have hdiffer : first ≠ second := by
    rintro rfl
    omega
  rcases heither.forall hfirst hsecond hdiffer with hbefore | hafter
  · exact hbefore
  · have hrange := (fits_iff.mp (hfits second hsecond)).1
    omega

/-! ### The order in which ranges are given -/

/-- Two ranges with one start stand in the same order wherever those with this start do. -/
theorem sublist_of_filter_eq {ordered : List Replacement} {first second : Replacement}
    (hstart : first.start = second.start) (hfilter : replacements.filter (·.start = second.start) =
      ordered.filter (·.start = second.start))
    (hsublist : List.Sublist [first, second] replacements) :
    List.Sublist [first, second] ordered := by
  have hboth := hsublist.filter (·.start = second.start)
  rw [hfilter, List.filter_cons_of_pos (by simp [hstart]), List.filter_cons_of_pos (by simp)] at hboth
  exact hboth.trans List.filter_sublist

/-- Of two ranges with one start, the one that is given first is empty. -/
def GivesEmptyFirst (replacements : List Replacement) : Prop :=
  replacements.Pairwise fun first second => first.start = second.start → first.stop = first.start

namespace IsStableOrder

variable {source : List Char} {replacements ordered arranged : List Replacement}

theorem givesEmptyFirst (hordered : IsStableOrder replacements ordered)
    (hapart : AreApart source ordered) : GivesEmptyFirst replacements := by
  obtain ⟨hfits, hpairwise⟩ := areApart_iff_pairwise.mp hapart
  refine List.pairwise_iff_forall_sublist.mpr fun {first second} hsublist hstart => ?_
  have hsublist' := sublist_of_filter_eq hstart (hordered.stable second.start).symm hsublist
  have hstop := List.pairwise_iff_forall_sublist.mp hpairwise hsublist'
  have hrange := (fits_iff.mp (hfits first (hsublist'.subset List.mem_cons_self))).1
  omega

/-- If the ranges can be arranged at all, then the stable order is such an arrangement as soon as the
empty ranges are given first. -/
theorem areApart (hordered : IsStableOrder replacements ordered) (hperm : arranged.Perm replacements)
    (hapart : AreApart source arranged) (hempty : GivesEmptyFirst replacements) :
    AreApart source ordered := by
  have hmem {replacement : Replacement} (hmem : replacement ∈ ordered) : replacement ∈ arranged :=
    hperm.mem_iff.mpr (hordered.perm.mem_iff.mp hmem)
  refine areApart_iff_pairwise.mpr ⟨fun replacement hreplacement =>
    (areApart_iff_pairwise.mp hapart).1 replacement (hmem hreplacement), ?_⟩
  refine List.pairwise_iff_forall_sublist.mpr fun {first second} hsublist => ?_
  have hsorted := List.pairwise_iff_forall_sublist.mp hordered.sorted hsublist
  by_cases hstart : first.start = second.start
  · have hgiven := sublist_of_filter_eq hstart (hordered.stable second.start) hsublist
    have hstop := List.pairwise_iff_forall_sublist.mp hempty hgiven hstart
    omega
  · exact hapart.stop_le_start (hmem (hsublist.subset (by simp))) (hmem (hsublist.subset (by simp)))
      (by omega)

end IsStableOrder

/-- Replacements can be made exactly when there is an arrangement in which their ranges are apart and,
of two ranges with one start, the one that is given first is empty. -/
theorem exists_splice_iff_arranged (source : List Char) (replacements : List Replacement) :
    (∃ output, splice source replacements = .ok output) ↔
      (∃ arranged, arranged.Perm replacements ∧ AreApart source arranged) ∧
        GivesEmptyFirst replacements := by
  have hordered := isStableOrder_mergeSort replacements
  have hsplice : (∃ output, splice source replacements = .ok output) ↔ AreApart source
      (replacements.mergeSort fun first second => first.start ≤ second.start) := by
    rw [splice, exists_spliceFrom_iff]
    simp
  rw [hsplice]
  constructor
  · intro hapart
    exact ⟨⟨_, hordered.perm, hapart⟩, hordered.givesEmptyFirst hapart⟩
  · rintro ⟨⟨arranged, hperm, hapart⟩, hempty⟩
    exact hordered.areApart hperm hapart hempty

theorem splice_of_sorted
    (hsorted : replacements.Pairwise fun first second => first.start ≤ second.start) :
    splice source replacements = spliceFrom source 0 replacements := by
  rw [splice, (isStableOrder_mergeSort replacements).eq ⟨.refl _, hsorted, fun _ => rfl⟩]

/-- A range and an insertion at its start: the insertion can be made first, but not in the order in which
they are given. -/
theorem splice_empty_last :
    AreApart "abc".toList [⟨1, 1, ['y']⟩, ⟨1, 2, ['x']⟩] ∧
      splice "abc".toList [⟨1, 1, ['y']⟩, ⟨1, 2, ['x']⟩] = .ok "ayxc".toList ∧
      splice "abc".toList [⟨1, 2, ['x']⟩, ⟨1, 1, ['y']⟩] = .error (.overlap 1 2) := by
  refine ⟨⟨by decide, by decide⟩, ?_, ?_⟩
  · rw [splice_of_sorted (by decide)]
    decide
  · rw [splice_of_sorted (by decide)]
    decide

/-! ### The range that is reported -/

/-- Why a range cannot be replaced when the text up to the byte `cursor` was already gone through: it
starts before that byte, or else it is no range of the text. -/
inductive Refused (source : List Char) (cursor : Nat) (replacement : Replacement) : Failure → Prop where
  | overlap : replacement.start < cursor →
      Refused source cursor replacement (.overlap replacement.start cursor)
  | outOfBounds : cursor ≤ replacement.start →
      (replacement.stop < replacement.start ∨ byteLength source < replacement.stop ∨
        isBoundary source replacement.start = false ∨ isBoundary source replacement.stop = false) →
      Refused source cursor replacement
        (.outOfBounds replacement.start replacement.stop (byteLength source))

theorem fits_eq_false_iff {replacement : Replacement} :
    replacement.fits source = false ↔ replacement.stop < replacement.start ∨
      byteLength source < replacement.stop ∨ isBoundary source replacement.start = false ∨
      isBoundary source replacement.stop = false := by
  rw [← Bool.not_eq_true, fits_iff]
  simp only [not_and_or, Nat.not_le, Bool.not_eq_true]

/-- The first range is refused, or it is replaced and a later one is refused. -/
theorem spliceFrom_cons_eq_error_iff {cursor : Nat} {replacement : Replacement}
    {failure : Failure} :
    spliceFrom source cursor (replacement :: replacements) = .error failure ↔
      Refused source cursor replacement failure ∨
        cursor ≤ replacement.start ∧ replacement.fits source = true ∧
          spliceFrom source replacement.stop replacements = .error failure := by
  rw [spliceFrom]
  by_cases hbefore : replacement.start < cursor
  · rw [if_pos hbefore, Except.error.injEq]
    constructor
    · rintro rfl
      exact .inl (.overlap hbefore)
    · rintro (⟨⟨-⟩ | ⟨hafter, -⟩⟩ | ⟨hafter, -⟩)
      · rfl
      · omega
      · omega
  have hafter := Nat.not_lt.mp hbefore
  rw [if_neg hbefore]
  cases hfits : replacement.fits source with
  | false =>
    rw [Bool.not_false, if_pos rfl, Except.error.injEq]
    constructor
    · rintro rfl
      exact .inl (.outOfBounds hafter (fits_eq_false_iff.mp hfits))
    · rintro (⟨hbefore' | -⟩ | ⟨-, hfits', -⟩)
      · exact absurd hbefore' hbefore
      · rfl
      · cases hfits'
  | true =>
    have hnot : ¬ Refused source cursor replacement failure := by
      rintro (hbefore' | ⟨-, houtside⟩)
      · exact hbefore hbefore'
      · rw [fits_eq_false_iff.mpr houtside] at hfits
        cases hfits
    rw [Bool.not_true, if_neg (by simp)]
    simp only [hnot, hafter, false_or, true_and]
    cases spliceFrom source replacement.stop replacements with
    | error cause => exact Iff.rfl
    | ok rest => simp [bind, Except.bind, pure, Except.pure]

/-- Replacements that start from a cursor on fail with the first range that is refused, where the ones
before it are apart. -/
theorem spliceFrom_eq_error_iff {cursor : Nat} {failure : Failure} :
    spliceFrom source cursor replacements = .error failure ↔
      ∃ earlier offender later, replacements = earlier ++ offender :: later ∧
        (∀ first ∈ earlier.head?, cursor ≤ first.start) ∧ AreApart source earlier ∧
        Refused source (lastStop cursor earlier) offender failure := by
  induction replacements generalizing cursor with
  | nil => simp [spliceFrom]
  | cons replacement replacements ih =>
    rw [spliceFrom_cons_eq_error_iff, ih]
    constructor
    · rintro (hrefused | ⟨hcursor, hfits, earlier, offender, later, rfl, hnext, hapart, hrefused⟩)
      · exact ⟨[], replacement, replacements, rfl, by simp, by simp [AreApart], hrefused⟩
      · refine ⟨replacement :: earlier, offender, later, rfl, by simpa using hcursor,
          areApart_cons_iff.mpr ⟨hfits, hnext, hapart⟩, ?_⟩
        rwa [lastStop_cons]
    · rintro ⟨earlier, offender, later, hsplit, hnext, hapart, hrefused⟩
      cases earlier with
      | nil =>
        obtain ⟨rfl, rfl⟩ := List.cons.inj hsplit
        exact .inl hrefused
      | cons first earlier =>
        obtain ⟨rfl, rfl⟩ := List.cons.inj hsplit
        obtain ⟨hfits, hnext', hapart'⟩ := areApart_cons_iff.mp hapart
        rw [lastStop_cons] at hrefused
        exact .inr ⟨hnext replacement rfl, hfits, earlier, offender, later, rfl, hnext', hapart',
          hrefused⟩

/-- Splicing fails with the first range, in the stable order of the starts, that starts before the one
before it stops or that is no range of the text. So it fails if any range starts before another one
stops that stands before it in this order. -/
theorem splice_eq_error_iff_refused (source : List Char) (replacements : List Replacement) :
    ∃ ordered, IsStableOrder replacements ordered ∧
      (∀ failure, splice source replacements = .error failure ↔
        ∃ earlier offender later, ordered = earlier ++ offender :: later ∧
          AreApart source earlier ∧ Refused source (lastStop 0 earlier) offender failure) ∧
      ∀ first second, List.Sublist [first, second] ordered → second.start < first.stop →
        ∃ failure, splice source replacements = .error failure := by
  refine ⟨_, isStableOrder_mergeSort replacements, fun failure => ?_, fun first second hsublist hover =>
    ?_⟩
  · rw [splice, spliceFrom_eq_error_iff]
    simp
  · cases hsplice : splice source replacements with
    | error failure => exact ⟨failure, rfl⟩
    | ok output =>
      have hapart := (exists_spliceFrom_iff.mp ⟨output, hsplice⟩).2
      have hstop := List.pairwise_iff_forall_sublist.mp (areApart_iff_pairwise.mp hapart).2 hsublist
      omega

end StyleMigration
