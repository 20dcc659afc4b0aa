import StyleMigration.Proofs.Selector.Rereading

/-!
Replacing legacy combinators once is enough. The blanks around a branch stay where they are, for `:deep`
neither begins nor ends with one (`trim_modernSegment`), and the commas between branches are those that
were there. So, by induction on the length of the text, the written text is read with nothing unclosed and
without legacy combinators at any depth (`modernizes_of_unclosed_eq_zero`).
-/

set_option autoImplicit false

namespace StyleMigration.Selector

open Text

/-! ### Branches -/

/-- The text ends as it did, or with `:deep` or the end of an argument. -/
theorem getLast?_modernText (first : Bool) (text : List Char) :
    ∀ c ∈ (modernText first (pieces text)).getLast?, c = 'p' ∨ c = ')' ∨ text.getLast? = some c := by
  induction text using pieces_induction generalizing first with
  | nil =>
    rw [pieces, modernText_nil]
    simp
  | cons c text piece rest htaken ih =>
    have hcut := cut_of_takePiece htaken
    rw [pieces_of_takePiece htaken, ← hcut.append]
    intro last hlast
    cases rest with
    | nil =>
      have hnil : pieces [] = [] := by rw [pieces]
      rw [hnil] at hlast
      cases piece with
      | leaf simple =>
        rw [modernText_leaf, modernText_nil, List.append_nil] at hlast
        split at hlast
        · left
          cases first <;> cases hlast <;> rfl
        · right
          right
          rw [List.append_nil]
          exact hlast
      | call colons name span =>
        rw [modernText_call, modernText_nil, List.append_nil, ← List.cons_append, ← List.append_assoc,
          List.getLast?_concat] at hlast
        exact .inr (.inl (Option.some.inj hlast).symm)
    | cons d rest =>
      have hsome : (modernText false (pieces (d :: rest))).getLast?.isSome = true := by
        rw [List.getLast?_isSome, ← List.isSome_head?]
        rcases head?_modernText false d rest with hhead | hhead <;> rw [hhead] <;> rfl
      have hsame : (modernText first (piece :: pieces (d :: rest))).getLast? =
          (modernText false (pieces (d :: rest))).getLast? := by
        cases piece with
        | leaf simple => rw [modernText_leaf, List.getLast?_append, Option.or_of_isSome hsome]
        | call colons name span =>
          rw [modernText_call, List.getLast?_append, Option.or_of_isSome hsome]
      rw [hsame] at hlast
      rw [List.getLast?_append, Option.or_of_isSome (by simp)]
      exact ih false last hlast

theorem isTrimmed_modernText (segment : List Char) :
    trim (modernText true (pieces (trim segment))) = modernText true (pieces (trim segment)) := by
  refine trim_eq_self ?_ fun c hc => ?_
  · have hfirst := head?_trim segment
    generalize trim segment = core at hfirst
    cases core with
    | nil =>
      rw [pieces, modernText_nil]
      simp
    | cons c text =>
      intro d hd
      rcases head?_modernText true c text with hhead | hhead
      · rw [hhead] at hd
        exact hfirst d hd
      · rw [hhead] at hd
        cases hd
        rfl
  · rcases getLast?_modernText true (trim segment) c hc with rfl | rfl | hlast
    · rfl
    · rfl
    · exact getLast?_trim segment c hlast

/-- A segment with its legacy combinators replaced. -/
def modernSegment (segment : List Char) : List Char :=
  leadingBlanks segment ++ modernText true (pieces (trim segment)) ++ trailingBlanks (trimStart segment)

/-- What stands between the blanks of a segment is replaced, and the blanks are not. -/
theorem trim_modernSegment (segment : List Char) :
    trim (modernSegment segment) = modernText true (pieces (trim segment)) := by
  have htrimmed := isTrimmed_modernText segment
  have hback := @isBlank_of_mem_trailingBlanks (trimStart segment)
  rw [trim, modernSegment, List.append_assoc, trimStart_append isBlank_of_mem_leadingBlanks]
  by_cases hne : modernText true (pieces (trim segment)) = []
  · have hnone := trimStart_append hback []
    rw [List.append_nil] at hnone
    rw [hne, List.nil_append, hnone]
    rfl
  · rw [trimStart_append_of_trimmed htrimmed hne, trimEnd_append hback, trimEnd_eq_self htrimmed]

theorem text_modernize_ofSegment (segment : List Char) :
    (Branch.ofSegment read segment).modernize.text = modernSegment segment := by
  rw [Branch.ofSegment, Branch.modernize, Branch.text, modernSegment, modernText]

theorem ne_backslash_of_isBlank {c : Char} (hc : isBlank c = true) : c ≠ '\\' := by
  rintro rfl
  exact absurd hc (by decide)

theorem exchanged_modernSegment {segment : List Char}
    (hready : ∀ piece ∈ pieces (trim segment), piece.IsReady) :
    Exchanged false segment (modernSegment segment) := by
  have hfront : escapesNext false (leadingBlanks segment) = false :=
    escapesNext_of_forall fun c hc => ne_backslash_of_isBlank (isBlank_of_mem_leadingBlanks c hc)
  have hcore : Exchanged (escapesNext false (leadingBlanks segment)) (trim segment)
      (modernText true (pieces (trim segment))) := by
    rw [hfront]
    exact exchanged_modernText hready true
  have hall := (hcore.prepend (leadingBlanks segment)).append (.refl _ (trailingBlanks (trimStart segment)))
  rwa [trim_segment] at hall

/-! ### Lists -/

theorem modernized_eq {text : List Char} (hblank : isAllBlank text = false) :
    modernized text = [','].intercalate ((splitCommas text).map modernSegment) := by
  have hread := read_eq text
  rw [hblank, if_neg Bool.false_ne_true] at hread
  rw [modernized, hread, modernizeList_eq_map, listText_eq_intercalate, List.map_map, List.map_map]
  exact congrArg _ (List.map_congr_left fun segment _ => text_modernize_ofSegment segment)

/-- What replacing the legacy combinators of a text leads to: characters are exchanged, in each segment on
its own, and the text is read as modern. -/
structure Modernizes (text : List Char) : Prop where
  exchanged : Exchanged false text (modernized text)
  segments : splitCommas (modernized text) = (splitCommas text).map modernSegment
  modern : IsModern (modernized text)

/-- A piece without unclosed arguments is ready once its argument is. -/
theorem isReady_of_argument {piece : Piece} (hclosed : piece.unclosed (unclosed piece.argument) = 0)
    (hargument : isAllBlank piece.argument = false → unclosed piece.argument = 0 →
      Modernizes piece.argument) : piece.IsReady := by
  cases piece with
  | leaf simple => trivial
  | call colons name span =>
    rw [Piece.argument] at hclosed hargument
    rw [Piece.unclosed, Nat.add_eq_zero_iff] at hclosed
    have hspan : isClosed span = true := by
      cases hopen : isClosed span with
      | true => rfl
      | false => simp [hopen] at hclosed
    rw [Piece.IsReady, modernArgument]
    split
    · rename_i hlist
      rw [if_pos hlist] at hclosed
      have hblank : isAllBlank (argumentOf span) = false := by simp_all
      have hinner := hargument hblank hclosed.2
      exact ⟨hspan, hinner.exchanged, fun _ => hinner.modern⟩
    · rename_i hlist
      exact ⟨hspan, .refl _ _, fun hlist' => absurd hlist' hlist⟩

/-- In a text without unclosed arguments, legacy combinators are replaced for good. -/
theorem modernizes_of_unclosed_eq_zero {text : List Char} (hblank : isAllBlank text = false)
    (hclosed : unclosed text = 0) : Modernizes text := by
  -- The arguments inside a text are shorter than it, so the induction is on its length.
  induction hlength : text.length using Nat.strongRecOn generalizing text with
  | ind length ih =>
    have hready (segment : List Char) (hsegment : segment ∈ splitCommas text) (piece : Piece)
        (hpiece : piece ∈ pieces (trim segment)) : piece.IsReady := by
      rw [unclosed_eq, hblank, if_neg Bool.false_ne_true, List.sum_eq_zero_iff_forall_eq_nat,
        List.forall_mem_map] at hclosed
      have hsegment_closed := hclosed segment hsegment
      rw [List.sum_eq_zero_iff_forall_eq_nat, List.forall_mem_map] at hsegment_closed
      refine isReady_of_argument (hsegment_closed piece hpiece) fun hargument hinner => ?_
      refine ih piece.argument.length ?_ hargument hinner rfl
      have hpiece_length := argument_length_lt hpiece
      have htrim_length := trim_length_le segment
      have hsegment_length := length_le_of_mem_splitCommas hsegment
      omega
    have hsegments (segment : List Char) (hsegment : segment ∈ splitCommas text) :
        Exchanged false segment (modernSegment segment) :=
      exchanged_modernSegment (hready segment hsegment)
    have hsplit : splitCommas (modernized text) = (splitCommas text).map modernSegment := by
      rw [modernized_eq hblank, splitCommas_map hsegments]
    refine ⟨?_, hsplit, isModern_of_pieces ?_⟩
    · have hall := Exchanged.intercalate hsegments
      rwa [splitCommas_intercalate, ← modernized_eq hblank] at hall
    · rw [hsplit, List.forall_mem_map]
      intro segment hsegment
      rw [trim_modernSegment]
      exact (hasModernPieces_modernText (hready segment hsegment) true).forall_mem

theorem length_read {text : List Char} (hblank : isAllBlank text = false) :
    (read text).length = (splitCommas text).length := by
  rw [read_eq, hblank, if_neg Bool.false_ne_true, List.length_map]

/-- Replacing the legacy combinators of a text that is written back as it stands leads to a text that is
written back as it stands too, is read without legacy combinators and with as many branches, and stays the
same if its legacy combinators are replaced again. -/
theorem modernized_stable {text : List Char} (hlossless : listText (read text) = text) :
    listText (read (modernized text)) = modernized text ∧
      (∀ leaf ∈ listLeaves (read (modernized text)), leaf.isLegacy = false) ∧
      (read (modernized text)).length = (read text).length ∧
      modernized (modernized text) = modernized text := by
  cases hblank : isAllBlank text with
  | true =>
    -- A blank text is written back as nothing, so it is empty.
    rw [read_of_isAllBlank hblank, listText] at hlossless
    subst hlossless
    decide +kernel
  | false =>
    have hclosed : unclosed text = 0 := by
      have hbytes := (completes_read hblank).byteLength
      rw [hlossless] at hbytes
      omega
    obtain ⟨hexchanged, hsegments, hmodern⟩ := modernizes_of_unclosed_eq_zero hblank hclosed
    have hblank' : isAllBlank (modernized text) = false := by
      rw [← Bool.not_eq_true] at hblank ⊢
      exact fun h => hblank (hexchanged.isAllBlank_of_isAllBlank h)
    have hlossless' : listText (read (modernized text)) = modernized text := by
      have hcompletes := completes_read hblank'
      rw [hmodern.closed] at hcompletes
      exact hcompletes.eq_of_zero
    refine ⟨hlossless', hmodern.modern, ?_, ?_⟩
    · rw [length_read hblank', length_read hblank, hsegments, List.length_map]
    · rw [modernized, modernizeList_eq_self _ hmodern.modern, hlossless']

/-- Legacy combinators stand at both ends of branches, in an argument, next to one another and to other
signs; the signs in a string, in a comment and after a backslash are none. -/
theorem modernized_stable_crowded :
    let text := ">>>a\\>>>>b>>>/deep/>c\n/deep/,:not(>>> [x=\">>>\"] ,d/deep/)/*>>>*/~/deep/e".toList
    let written :=
      ":deep a\\> :deep b :deep  :deep >c :deep,:not(:deep [x=\">>>\"] ,d :deep)/*>>>*/~ :deep e".toList
    modernized text = written ∧ listText (read written) = written ∧
      (∀ leaf ∈ listLeaves (read written), leaf.isLegacy = false) ∧
      (read written).length = (read text).length ∧ modernized written = written := by
  have hwritten : modernized
      ">>>a\\>>>>b>>>/deep/>c\n/deep/,:not(>>> [x=\">>>\"] ,d/deep/)/*>>>*/~/deep/e".toList =
      ":deep a\\> :deep b :deep  :deep >c :deep,:not(:deep [x=\">>>\"] ,d :deep)/*>>>*/~ :deep e".toList := by
    decide +kernel
  refine ⟨hwritten, ?_⟩
  rw [← hwritten]
  exact modernized_stable (by decide +kernel)

end StyleMigration.Selector
