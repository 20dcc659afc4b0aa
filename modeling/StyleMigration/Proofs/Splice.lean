import Mathlib.Data.List.Chain
import StyleMigration.Proofs.Component.Substitution

/-!
What splicing does. Replacements that are made in order cut the text into gaps and old texts, and the
result has the gaps as they were and the new texts between them (`Spliced`). From that follow the place
of every text and of every gap in the result, and its length. The order is that of the starts, and it is
stable, which makes it the only one (`IsStableOrder.eq`).
-/

set_option autoImplicit false

namespace StyleMigration

open Text

variable {source : List Char} {ordered replacements : List Replacement} {replacement : Replacement}

/-! ### The order of the replacements -/

/-- The replacements by their starts, those with one start in the order in which they were given. -/
structure IsStableOrder (replacements ordered : List Replacement) : Prop where
  perm : ordered.Perm replacements
  sorted : ordered.Pairwise fun first second => first.start ≤ second.start
  stable : ∀ start, ordered.filter (·.start = start) = replacements.filter (·.start = start)

theorem isStableOrder_mergeSort (replacements : List Replacement) :
    IsStableOrder replacements
      (replacements.mergeSort fun first second => first.start ≤ second.start) := by
  have htrans : ∀ a b c : Replacement, decide (a.start ≤ b.start) = true →
      decide (b.start ≤ c.start) = true → decide (a.start ≤ c.start) = true := by
    simp only [decide_eq_true_eq]
    omega
  have htotal : ∀ a b : Replacement,
      (decide (a.start ≤ b.start) || decide (b.start ≤ a.start)) = true := by
    simp only [Bool.or_eq_true, decide_eq_true_eq]
    omega
  have hperm := List.mergeSort_perm replacements fun first second => first.start ≤ second.start
  refine ⟨hperm, ?_, fun start => ?_⟩
  · exact (List.pairwise_mergeSort htrans htotal replacements).imp of_decide_eq_true
  · -- Those with one start are sorted as they stand, so they stay a sublist.
    have hsame : (replacements.filter (·.start = start)).Pairwise
        fun first second => decide (first.start ≤ second.start) = true := by
      refine List.pairwise_filter.mpr (List.pairwise_of_forall fun first second => ?_)
      simp only [decide_eq_true_eq]
      omega
    have hsublist := (List.sublist_mergeSort htrans htotal hsame List.filter_sublist).filter
      (·.start = start)
    rw [List.filter_filter] at hsublist
    simp only [Bool.and_self] at hsublist
    exact (hsublist.eq_of_length (hperm.filter _).length_eq.symm).symm

theorem start_le_of_filter_eq {first second : Replacement} {other : List Replacement}
    (hsorted : (second :: other).Pairwise fun first second => first.start ≤ second.start)
    (hfilter : (first :: ordered).filter (·.start = first.start) =
      (second :: other).filter (·.start = first.start)) : second.start ≤ first.start := by
  have hmem : first ∈ (second :: other).filter (·.start = first.start) := by
    rw [← hfilter]
    simp
  rcases List.mem_cons.mp (List.mem_filter.mp hmem).1 with rfl | hother
  · exact Nat.le_refl _
  · exact (List.pairwise_cons.mp hsorted).1 first hother

theorem eq_of_filter_eq {other : List Replacement}
    (hordered : ordered.Pairwise fun first second => first.start ≤ second.start)
    (hother : other.Pairwise fun first second => first.start ≤ second.start)
    (hfilter : ∀ start, ordered.filter (·.start = start) = other.filter (·.start = start)) :
    ordered = other := by
  induction ordered generalizing other with
  | nil =>
    cases other with
    | nil => rfl
    | cons second other => simpa using hfilter second.start
  | cons first ordered ih =>
    cases other with
    | nil => simpa using hfilter first.start
    | cons second other =>
      have hstart : first.start = second.start := by
        have hfirst := start_le_of_filter_eq hother (hfilter first.start)
        have hsecond := start_le_of_filter_eq hordered (hfilter second.start).symm
        omega
      have hhead := hfilter first.start
      rw [List.filter_cons_of_pos (by simp), List.filter_cons_of_pos (by simp [hstart]),
        List.cons.injEq] at hhead
      obtain ⟨rfl, -⟩ := hhead
      refine congrArg _ (ih (List.pairwise_cons.mp hordered).2 (List.pairwise_cons.mp hother).2
        fun start => ?_)
      have hrest := hfilter start
      by_cases hhere : first.start = start
      · rw [List.filter_cons_of_pos (by simp [hhere]), List.filter_cons_of_pos (by simp [hhere]),
          List.cons.injEq] at hrest
        exact hrest.2
      · rwa [List.filter_cons_of_neg (by simp [hhere]), List.filter_cons_of_neg (by simp [hhere])]
          at hrest

/-- The starts and the order in which replacements are given leave one order. -/
theorem IsStableOrder.eq {other : List Replacement}
    (hordered : IsStableOrder replacements ordered) (hother : IsStableOrder replacements other) :
    ordered = other :=
  eq_of_filter_eq hordered.sorted hother.sorted fun start =>
    (hordered.stable start).trans (hother.stable start).symm

/-! ### Replacements in order -/

/-- `Spliced cursor rest replacements output` says that `output` is the text `rest`, which starts at
the byte `cursor`, with the replacements made, and that their ranges are there one after the other. -/
inductive Spliced : Nat → List Char → List Replacement → List Char → Prop where
  | nil (cursor : Nat) (rest : List Char) : Spliced cursor rest [] rest
  | cons {cursor : Nat} {gap old rest output : List Char} {replacement : Replacement}
      {replacements : List Replacement} :
      replacement.start = cursor + byteLength gap →
      replacement.stop = replacement.start + byteLength old →
      Spliced replacement.stop rest replacements output →
        Spliced cursor (gap ++ old ++ rest) (replacement :: replacements)
          (gap ++ replacement.text ++ output)

/-- A replacement whose range fits cuts what is left of the text in three. -/
theorem exists_cut_of_fits {front rest : List Char} (hafter : byteLength front ≤ replacement.start)
    (hfits : replacement.fits (front ++ rest) = true) :
    ∃ gap old more, rest = gap ++ old ++ more ∧ byteLength (front ++ gap) = replacement.start ∧
      byteLength (front ++ gap ++ old) = replacement.stop := by
  simp only [Replacement.fits, Bool.and_eq_true, decide_eq_true_eq] at hfits
  obtain ⟨⟨⟨horder, -⟩, hstart⟩, hstop⟩ := hfits
  obtain ⟨gap, more, rfl, hgap⟩ := Component.exists_gap hafter hstart
  rw [← List.append_assoc] at hstop
  obtain ⟨old, more, rfl, hold⟩ := Component.exists_gap (hgap ▸ horder) hstop
  exact ⟨gap, old, more, (List.append_assoc ..).symm, hgap, hold⟩

theorem spliceFrom_eq_ok_iff {front rest output : List Char} {replacements : List Replacement} :
    spliceFrom (front ++ rest) (byteLength front) replacements = .ok output ↔
      Spliced (byteLength front) rest replacements output := by
  induction replacements generalizing front rest output with
  | nil =>
    rw [spliceFrom, fromByte_append, Except.ok.injEq]
    constructor
    · rintro rfl
      exact .nil _ _
    · rintro ⟨⟩
      rfl
  | cons replacement replacements ih =>
    constructor
    · intro hsplice
      rw [spliceFrom] at hsplice
      split at hsplice
      · cases hsplice
      rename_i hafter
      split at hsplice
      · cases hsplice
      rename_i hfits
      obtain ⟨gap, old, more, rfl, hgap, hold⟩ :=
        exists_cut_of_fits (Nat.not_lt.mp hafter) (by simpa using hfits)
      obtain ⟨tail, htail, hpure⟩ := bind_eq_ok_iff.mp hsplice
      cases hpure
      have hbetween : slice (front ++ (gap ++ old ++ more)) (byteLength front) replacement.start =
          gap := by
        rw [← hgap, List.append_assoc, ← List.append_assoc]
        exact slice_append front gap (old ++ more)
      rw [← List.append_assoc, ← List.append_assoc, ← hold, ih, hold] at htail
      rw [hbetween]
      refine .cons ?_ ?_ htail
      · rw [← hgap, byteLength_append]
      · rw [← hold, ← hgap, byteLength_append]
    · intro hspliced
      cases hspliced with
      | @cons _ gap old more tail _ _ hstart hstop htail =>
        have hgap : byteLength (front ++ gap) = replacement.start := by
          rw [hstart, byteLength_append]
        have hold : byteLength (front ++ gap ++ old) = replacement.stop := by
          rw [hstop, ← hgap, byteLength_append]
        have hsource : front ++ (gap ++ old ++ more) = front ++ gap ++ old ++ more := by
          simp only [List.append_assoc]
        have hfits : replacement.fits (front ++ gap ++ old ++ more) = true := by
          simp only [Replacement.fits, Bool.and_eq_true, decide_eq_true_eq, isBoundary_iff]
          refine ⟨⟨⟨by omega, ?_⟩, ⟨front ++ gap, old ++ more, ?_, hgap⟩⟩, ⟨_, more, rfl, hold⟩⟩
          · rw [byteLength_append, hold]
            omega
          · rw [List.append_assoc _ old]
        have hbetween :
            slice (front ++ gap ++ old ++ more) (byteLength front) replacement.start = gap := by
          rw [← hgap, List.append_assoc _ old]
          exact slice_append front gap (old ++ more)
        rw [hsource, spliceFrom, if_neg (by omega), if_neg (by rw [hfits]; decide), bind_eq_ok_iff]
        rw [← hold, ← ih, hold] at htail
        exact ⟨tail, htail, by rw [hbetween]; rfl⟩

theorem splice_eq_ok_iff {output : List Char} :
    splice source replacements = .ok output ↔
      Spliced 0 source (replacements.mergeSort fun first second => first.start ≤ second.start)
        output :=
  @spliceFrom_eq_ok_iff [] source output _

/-! ### Which replacements can be made -/

/-- The ranges lie in the text, on character boundaries, and each starts where the one before it stops
or later. -/
def AreApart (source : List Char) (replacements : List Replacement) : Prop :=
  (∀ replacement ∈ replacements, replacement.start ≤ replacement.stop ∧
    replacement.stop ≤ byteLength source ∧ isBoundary source replacement.start = true ∧
    isBoundary source replacement.stop = true) ∧
  replacements.IsChain fun before after => before.stop ≤ after.start

theorem fits_iff :
    replacement.fits source = true ↔ replacement.start ≤ replacement.stop ∧
      replacement.stop ≤ byteLength source ∧ isBoundary source replacement.start = true ∧
      isBoundary source replacement.stop = true := by
  simp only [Replacement.fits, Bool.and_eq_true, decide_eq_true_eq, and_assoc]

theorem exists_spliceFrom_cons_iff {cursor : Nat} :
    (∃ output, spliceFrom source cursor (replacement :: replacements) = .ok output) ↔
      cursor ≤ replacement.start ∧ replacement.fits source = true ∧
        ∃ output, spliceFrom source replacement.stop replacements = .ok output := by
  rw [spliceFrom]
  split
  · rename_i hbefore
    simp only [reduceCtorEq, exists_false, false_iff, not_and]
    omega
  rename_i hafter
  split
  · rename_i hfits
    simp only [Bool.not_eq_eq_eq_not, Bool.not_true] at hfits
    simp [hfits]
  rename_i hfits
  simp only [bind_eq_ok_iff]
  constructor
  · rintro ⟨_, rest, hrest, -⟩
    exact ⟨Nat.not_lt.mp hafter, by simpa using hfits, rest, hrest⟩
  · rintro ⟨-, -, rest, hrest⟩
    exact ⟨_, rest, hrest, rfl⟩

/-- Replacements can be made from a cursor on exactly when they are apart and the first one starts
there or later. -/
theorem exists_spliceFrom_iff {cursor : Nat} :
    (∃ output, spliceFrom source cursor replacements = .ok output) ↔
      (∀ first ∈ replacements.head?, cursor ≤ first.start) ∧ AreApart source replacements := by
  induction replacements generalizing cursor with
  | nil => simp [spliceFrom, AreApart]
  | cons replacement replacements ih =>
    rw [exists_spliceFrom_cons_iff, ih, AreApart, AreApart, List.isChain_cons, fits_iff,
      List.forall_mem_cons, List.head?_cons]
    simp only [Option.mem_some_iff, forall_eq']
    constructor
    · rintro ⟨hcursor, hfits, hnext, hall, hchain⟩
      exact ⟨hcursor, ⟨hfits, hall⟩, hnext, hchain⟩
    · rintro ⟨hcursor, ⟨hfits, hall⟩, hnext, hchain⟩
      exact ⟨hcursor, hfits, hnext, hall, hchain⟩

/-! ### Where the texts and the gaps are in the result -/

/-- A text stands at a byte of another one. -/
def StandsAt (whole : List Char) (position : Int) (part : List Char) : Prop :=
  ∃ front back, whole = front ++ part ++ back ∧ (byteLength front : Int) = position

/-- How many bytes longer a text gets when some ranges of it are replaced. -/
def growth : List Replacement → Int
  | [] => 0
  | replacement :: replacements =>
    (byteLength replacement.text - (replacement.stop - replacement.start)) + growth replacements

/-- The byte at which the last of some ranges stops; without one, `cursor`. -/
def lastStop (cursor : Nat) (replacements : List Replacement) : Nat :=
  (replacements.getLast?.map (·.stop)).getD cursor

/-- The byte at which the first of some ranges starts; without one, `length`. -/
def firstStart (length : Nat) (replacements : List Replacement) : Nat :=
  (replacements.head?.map (·.start)).getD length

theorem StandsAt.prepend {whole part : List Char} {position : Int}
    (hstands : StandsAt whole position part) (front : List Char) :
    StandsAt (front ++ whole) (byteLength front + position) part := by
  obtain ⟨before, after, rfl, rfl⟩ := hstands
  refine ⟨front ++ before, after, by simp only [List.append_assoc], ?_⟩
  rw [byteLength_append, Int.natCast_add]

theorem lastStop_cons (cursor : Nat) (replacement : Replacement)
    (replacements : List Replacement) :
    lastStop cursor (replacement :: replacements) = lastStop replacement.stop replacements := by
  cases hlast : replacements.getLast? <;> simp [lastStop, List.getLast?_cons, hlast]

namespace Spliced

variable {cursor : Nat} {rest output : List Char} {replacements : List Replacement}

/-- The new text of a range stands where the range starts, shifted by the growth before it. -/
theorem standsAt_text (hspliced : Spliced cursor rest replacements output)
    {earlier later : List Replacement} (hsplit : replacements = earlier ++ replacement :: later) :
    StandsAt output (replacement.start - cursor + growth earlier) replacement.text := by
  induction hspliced generalizing earlier with
  | nil => simp at hsplit
  | @cons cursor gap old rest output first replacements hstart hstop htail ih =>
    cases earlier with
    | nil =>
      obtain ⟨rfl, rfl⟩ := List.cons.inj hsplit
      exact ⟨gap, output, rfl, by rw [hstart, growth]; omega⟩
    | cons _ earlier =>
      obtain ⟨rfl, hrest⟩ := List.cons.inj hsplit
      have hstands := (ih hrest).prepend (gap ++ first.text)
      rw [byteLength_append] at hstands
      convert hstands using 1
      simp only [growth]
      omega

theorem byteLength_eq (hspliced : Spliced cursor rest replacements output) :
    (byteLength output : Int) = byteLength rest + growth replacements := by
  induction hspliced with
  | nil => simp [growth]
  | @cons cursor gap old rest output first replacements hstart hstop htail ih =>
    simp only [byteLength_append, growth]
    omega

/-- What stands between two ranges, before the first or after the last one is as it was, shifted by the
growth before it. -/
theorem standsAt_gap {front : List Char}
    (hspliced : Spliced (byteLength front) rest replacements output)
    {earlier later : List Replacement} (hsplit : replacements = earlier ++ later) :
    StandsAt output (lastStop (byteLength front) earlier - byteLength front + growth earlier)
      (slice (front ++ rest) (lastStop (byteLength front) earlier)
        (firstStart (byteLength (front ++ rest)) later)) := by
  induction earlier generalizing front rest replacements output with
  | nil =>
    subst hsplit
    have hposition : (lastStop (byteLength front) [] : Int) - byteLength front + growth [] = 0 := by
      simp [lastStop, growth]
    rw [hposition]
    cases hspliced with
    | nil =>
      refine ⟨[], [], ?_, rfl⟩
      have hslice := slice_append front rest []
      rw [List.append_nil] at hslice
      simp [lastStop, firstStart, hslice]
    | @cons _ gap old rest output first later hstart hstop htail =>
      refine ⟨[], first.text ++ output, ?_, rfl⟩
      have hslice := slice_append front gap (old ++ rest)
      rw [byteLength_append, ← hstart] at hslice
      simp only [List.append_assoc] at hslice
      simp [lastStop, firstStart, hslice]
  | cons first earlier ih =>
    subst hsplit
    cases hspliced with
    | @cons _ gap old rest output _ _ hstart hstop htail =>
      have hfront : byteLength (front ++ gap ++ old) = first.stop := by
        rw [hstop, hstart, byteLength_append, byteLength_append]
      rw [← hfront] at htail
      have hstands := (ih htail rfl).prepend (gap ++ first.text)
      rw [hfront, byteLength_append] at hstands
      rw [lastStop_cons, ← List.append_assoc, ← List.append_assoc]
      convert hstands using 1
      simp only [growth]
      omega

end Spliced

/-- The result of making replacements in order. Each new text stands where its range starts, and what
stands between two ranges, before the first or after the last one is as it was, all of it shifted by
the growth before it; the result is longer by the whole growth. -/
structure IsSplice (source : List Char) (ordered : List Replacement) (output : List Char) : Prop where
  texts : ∀ earlier replacement later, ordered = earlier ++ replacement :: later →
    StandsAt output (replacement.start + growth earlier) replacement.text
  gaps : ∀ earlier later, ordered = earlier ++ later →
    StandsAt output (lastStop 0 earlier + growth earlier)
      (slice source (lastStop 0 earlier) (firstStart (byteLength source) later))
  length : (byteLength output : Int) = byteLength source + growth ordered

theorem Spliced.isSplice {output : List Char}
    (hspliced : Spliced 0 source ordered output) : IsSplice source ordered output where
  texts earlier replacement later hsplit := by
    have hstands := hspliced.standsAt_text hsplit
    simpa using hstands
  gaps earlier later hsplit := by
    have hstands := @Spliced.standsAt_gap source output ordered [] hspliced earlier later hsplit
    simpa [byteLength] using hstands
  length := hspliced.byteLength_eq

/-- Splicing makes the replacements in the stable order of their starts. It succeeds exactly when the
ranges are in the text, on character boundaries and apart in that order, and then every new text and
every gap stands at its shifted place. -/
theorem splice_eq_ok_iff_areApart (source : List Char) (replacements : List Replacement) :
    ∃ ordered, IsStableOrder replacements ordered ∧
      ((∃ output, splice source replacements = .ok output) ↔ AreApart source ordered) ∧
      ∀ output, splice source replacements = .ok output → IsSplice source ordered output := by
  refine ⟨_, isStableOrder_mergeSort replacements, ?_, fun output hsplice => ?_⟩
  · rw [splice, exists_spliceFrom_iff]
    simp
  · exact (splice_eq_ok_iff.mp hsplice).isSplice

end StyleMigration
