import StyleMigration.Instances
import StyleMigration.Text.Bytes
import StyleMigration.Proofs.Selector.Cuts

/-!
What reading a selector loses. A tree is written with a closing parenthesis after every argument, so
an argument that ran to the end of its text without one gains one; nothing else changes. Such an
argument is unclosed. The arguments inside it are read anew, by rules that differ from those of the
scan that found its end, so each level has unclosed arguments of its own and `unclosed` counts them
all.

The written text is the text read with that many closing parentheses put in (`completes_read`). From
this follow its length in bytes and that it is the text read just when nothing is unclosed.
-/

set_option autoImplicit false

namespace StyleMigration.Selector

open Text

/-! ### Texts with parentheses put in -/

/-- The second text is the first one with the given number of closing parentheses put in. -/
inductive Completes : Nat → List Char → List Char → Prop
  | nil : Completes 0 [] []
  | keep {count : Nat} {text written : List Char} (c : Char) :
    Completes count text written → Completes count (c :: text) (c :: written)
  | close {count : Nat} {text written : List Char} :
    Completes count text written → Completes (count + 1) text (')' :: written)

namespace Completes

variable {count others : Nat} {text written front back : List Char}

theorem refl (text : List Char) : Completes 0 text text := by
  induction text with
  | nil => exact nil
  | cons c text ih => exact keep c ih

theorem append (hfirst : Completes count text written) (hsecond : Completes others front back) :
    Completes (count + others) (text ++ front) (written ++ back) := by
  induction hfirst with
  | nil => simpa using hsecond
  | keep c _ ih => exact keep c ih
  | close _ ih =>
    rw [Nat.add_right_comm]
    exact close ih

theorem prepend (front : List Char) (hcompletes : Completes count text written) :
    Completes count (front ++ text) (front ++ written) := by
  have hall := (refl front).append hcompletes
  rwa [Nat.zero_add] at hall

theorem eq_of_zero (hcompletes : Completes 0 text written) : written = text := by
  generalize hzero : 0 = count at hcompletes
  induction hcompletes with
  | nil => rfl
  | keep c _ ih => rw [ih hzero]
  | close _ _ => cases hzero

theorem byteLength (hcompletes : Completes count text written) :
    Text.byteLength written = Text.byteLength text + count := by
  induction hcompletes with
  | nil => rfl
  | keep c _ ih => rw [Text.byteLength, Text.byteLength, ih, Nat.add_assoc]
  | close _ ih =>
    have hsize : ')'.utf8Size = 1 := by decide
    rw [Text.byteLength, ih, hsize]
    omega

end Completes

/-! ### Unclosed arguments -/

/-- Whether a parenthesised span ends on a closing parenthesis after its opening one. -/
def isClosed (span : List Char) : Bool :=
  span.tail.getLast? = some ')'

/-- The unclosed arguments of a piece, of which `inner` are inside its own argument if that is
read. -/
def Piece.unclosed (inner : Nat) : Piece → Nat
  | .leaf _ => 0
  | .call _ name span =>
    (if isClosed span then 0 else 1) +
      if takesList name && !isAllBlank (argumentOf span) then inner else 0

/-- How many unclosed arguments are met at any depth when a text is read. -/
def unclosed (text : List Char) : Nat :=
  if isAllBlank text then 0
  else
    ((splitCommas text).attach.map fun ⟨segment, _hsegment⟩ =>
      ((pieces (trim segment)).attach.map fun ⟨piece, _hpiece⟩ =>
        piece.unclosed (unclosed piece.argument)).sum).sum
termination_by text.length
decreasing_by
  exact Nat.lt_of_lt_of_le (argument_length_lt _hpiece)
    (Nat.le_trans (trim_length_le segment) (length_le_of_mem_splitCommas _hsegment))

theorem unclosed_eq (text : List Char) :
    unclosed text = if isAllBlank text then 0
      else ((splitCommas text).map fun segment =>
        ((pieces (trim segment)).map fun piece =>
          piece.unclosed (unclosed piece.argument)).sum).sum := by
  rw [unclosed]
  simp

/-- A closed span is its argument in parentheses. -/
theorem span_of_isClosed {span : List Char} (hopening : span.head? = some '(')
    (hclosed : isClosed span) : span = '(' :: argumentOf span ++ [')'] := by
  obtain ⟨inner, rfl⟩ := List.head?_eq_some_iff.mp hopening
  have hlast : inner.getLast? = some ')' := of_decide_eq_true hclosed
  obtain ⟨argument, rfl⟩ := List.getLast?_eq_some_iff.mp hlast
  simp [argumentOf]

/-- An unclosed span is its argument after the opening parenthesis. -/
theorem span_of_not_isClosed {span : List Char} (hopening : span.head? = some '(')
    (hunclosed : ¬ isClosed span) : span = '(' :: argumentOf span := by
  obtain ⟨inner, rfl⟩ := List.head?_eq_some_iff.mp hopening
  have hlast : ¬ inner.getLast? = some ')' := fun hlast => hunclosed (decide_eq_true hlast)
  simp [argumentOf, hlast]

/-! ### Written trees -/

theorem partsText_eq_flatMap (parts : List Part) : partsText parts = parts.flatMap Part.text := by
  induction parts with
  | nil => simp [partsText]
  | cons part parts ih => simp [partsText, ih]

theorem partsText_append (first second : List Part) :
    partsText (first ++ second) = partsText first ++ partsText second := by
  rw [partsText_eq_flatMap, partsText_eq_flatMap, partsText_eq_flatMap, List.flatMap_append]

theorem listText_eq_intercalate (branches : List Branch) :
    listText branches = [','].intercalate (branches.map Branch.text) := by
  induction branches with
  | nil => simp [listText]
  | cons branch branches ih =>
    cases branches with
    | nil => simp [listText]
    | cons next branches =>
      simp only [listText, ih, List.map_cons, List.intercalate_cons_cons]
      simp

/-- A written part completes the piece it was read from, if what is read inside its argument
completes the argument. -/
theorem completes_toPart {read : List Char → List Branch} {piece : Piece} {inner : Nat}
    (hcut : piece.IsCut) (hargument : isAllBlank piece.argument = false →
      Completes inner piece.argument (listText (read piece.argument))) :
    Completes (piece.unclosed inner) piece.source (piece.toPart read).text := by
  cases piece with
  | leaf simple =>
    rw [Piece.unclosed, Piece.source, Piece.toPart, Part.text]
    exact Completes.refl _
  | call colons name span =>
    obtain ⟨-, hopening⟩ := hcut
    rw [Piece.argument] at hargument
    -- Both kinds of argument are written between parentheses and differ in what stands there.
    obtain ⟨written, hwritten, htext⟩ : ∃ written,
        Completes (if takesList name && !isAllBlank (argumentOf span) then inner else 0)
          (argumentOf span) written ∧
        ((Piece.call colons name span).toPart read).text =
          colons ++ name ++ ['('] ++ written ++ [')'] := by
      simp only [Piece.toPart]
      split
      · rename_i hlist
        have hblank : isAllBlank (argumentOf span) = false := by simp_all
        exact ⟨_, hargument hblank, by simp [Part.text]⟩
      · exact ⟨_, Completes.refl _, by simp [Part.text, Leaf.text]⟩
    rw [htext, Piece.unclosed, Piece.source]
    by_cases hclosed : isClosed span
    · have hsource : colons ++ name ++ span =
          colons ++ name ++ ['('] ++ argumentOf span ++ [')'] := by
        simpa using span_of_isClosed hopening hclosed
      rw [hsource, if_pos hclosed, Nat.zero_add]
      exact (hwritten.prepend (colons ++ name ++ ['('])).append (Completes.refl [')'])
    · have hsource : colons ++ name ++ span = colons ++ name ++ ['('] ++ argumentOf span ++ [] := by
        simpa using span_of_not_isClosed hopening hclosed
      rw [hsource, if_neg hclosed, Nat.add_comm]
      exact (hwritten.prepend (colons ++ name ++ ['('])).append (Completes.close Completes.nil)

/-- Written parts complete the pieces they were read from, if each does. -/
theorem completes_parts {read : List Char → List Branch} {count : Piece → Nat} {cut : List Piece}
    (hpieces : ∀ piece ∈ cut, Completes (count piece) piece.source (piece.toPart read).text) :
    Completes (cut.map count).sum (cut.flatMap Piece.source)
      (partsText (cut.map (Piece.toPart read))) := by
  induction cut with
  | nil =>
    simp only [List.map_nil, List.sum_nil, List.flatMap_nil, partsText]
    exact Completes.nil
  | cons piece cut ih =>
    simp only [List.map_cons, List.sum_cons, List.flatMap_cons, partsText]
    exact (hpieces piece List.mem_cons_self).append
      (ih fun other hmem => hpieces other (List.mem_cons_of_mem _ hmem))

/-- Written branches with commas between them complete the segments they were read from. -/
theorem completes_segments {branch : List Char → Branch} {count : List Char → Nat}
    {segments : List (List Char)}
    (hsegments : ∀ segment ∈ segments, Completes (count segment) segment (branch segment).text) :
    Completes (segments.map count).sum ([','].intercalate segments)
      (listText (segments.map branch)) := by
  rw [listText_eq_intercalate, List.map_map]
  induction segments with
  | nil => exact Completes.nil
  | cons segment segments ih =>
    have hfirst := hsegments segment List.mem_cons_self
    have hothers := ih fun other hmem => hsegments other (List.mem_cons_of_mem _ hmem)
    cases segments with
    | nil => simpa using hfirst
    | cons next segments =>
      simpa [List.intercalate_cons_cons] using hfirst.append (hothers.prepend [','])

/-- A selector is written back with a closing parenthesis put in for each unclosed argument. -/
theorem completes_read {text : List Char} (hblank : isAllBlank text = false) :
    Completes (unclosed text) text (listText (read text)) := by
  -- The arguments inside a text are shorter than it, so the induction is on its length.
  induction hlength : text.length using Nat.strongRecOn generalizing text with
  | ind length ih =>
    have hpiece {segment : List Char} (hsegment : segment ∈ splitCommas text) (piece : Piece)
        (hmem : piece ∈ pieces (trim segment)) :
        Completes (piece.unclosed (unclosed piece.argument)) piece.source
          (piece.toPart read).text := by
      refine completes_toPart (isCut_of_mem_pieces hmem) fun hargument => ?_
      refine ih piece.argument.length ?_ hargument rfl
      have hpiece_length := argument_length_lt hmem
      have htrim_length := trim_length_le segment
      have hsegment_length := length_le_of_mem_splitCommas hsegment
      omega
    have hsegment (segment : List Char) (hmem : segment ∈ splitCommas text) :
        Completes ((pieces (trim segment)).map fun piece =>
          piece.unclosed (unclosed piece.argument)).sum segment
          (Branch.ofSegment read segment).text := by
      have hparts := completes_parts (hpiece hmem)
      rw [pieces_source] at hparts
      have hblanks := (hparts.prepend (leadingBlanks segment)).append
        (Completes.refl (trailingBlanks (trimStart segment)))
      rwa [trim_segment] at hblanks
    have hsegments := completes_segments hsegment
    rw [splitCommas_intercalate] at hsegments
    rw [read_eq, unclosed_eq, hblank]
    exact hsegments

@[simp] theorem read_of_isAllBlank {text : List Char} (hblank : isAllBlank text) :
    read text = [] := by
  rw [read_eq, if_pos hblank]

/-- A text that is not blank is written back with one byte more for each unclosed argument, hence as
it stood just when there is none. A blank text is written back as nothing. -/
theorem listText_read_bytes (text : List Char) :
    (isAllBlank text = true → listText (read text) = []) ∧
      (isAllBlank text = false →
        byteLength (listText (read text)) = byteLength text + unclosed text ∧
          (listText (read text) = text ↔ unclosed text = 0)) := by
  constructor
  · intro hblank
    rw [read_of_isAllBlank hblank, listText]
  · intro hblank
    have hcompletes := completes_read hblank
    have hlength := hcompletes.byteLength
    refine ⟨hlength, ?_, ?_⟩
    · intro hsame
      rw [hsame] at hlength
      omega
    · intro hnone
      rw [hnone] at hcompletes
      exact hcompletes.eq_of_zero

end StyleMigration.Selector
