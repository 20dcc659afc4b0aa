import StyleMigration.Selector.Reader

/-!
How a selector text is cut. A segment lies between two commas, its core between the blanks around
it, and a piece is what is cut off the front of a core. No cut loses a character
(`splitCommas_intercalate`, `trim_segment`, `pieces_source`), and a piece is never empty
(`takePiece_cut`), so the argument of a pseudo-class is shorter than the text it stands in. Hence
the bound on the depth of nesting that the reader carries is never reached, and reading satisfies
the equation it would have without one (`read_eq`).
-/

set_option autoImplicit false

namespace StyleMigration.Selector

open Text

variable {text : List Char} {piece : Piece}

/-! ### Spans and names -/

theorem Brackets.scan_append (brackets : Brackets) (depth : Nat) (quoting : Quoting)
    (text : List Char) :
    (brackets.scan depth quoting text).1 ++ (brackets.scan depth quoting text).2 = text := by
  fun_induction Brackets.scan brackets depth quoting text with
  | case1 depth quoting => rfl
  | case2 depth quoting c text hcloses => rfl
  | case3 depth quoting c text _ span rest hscan ih =>
    rw [hscan] at ih
    simpa using ih

theorem Brackets.span_append (brackets : Brackets) (text : List Char) :
    (brackets.span text).1 ++ (brackets.span text).2 = text :=
  brackets.scan_append 0 .bare text

/-- A span takes the first character of a text with it. -/
theorem Brackets.span_head? (brackets : Brackets) {c : Char} {text : List Char}
    (hhead : text.head? = some c) : (brackets.span text).1.head? = some c := by
  obtain ⟨others, rfl⟩ := List.head?_eq_some_iff.mp hhead
  rw [span, scan]
  split <;> rfl

theorem scanName_append (state : NameState) (text : List Char) :
    (scanName state text).1 ++ (scanName state text).2 = text := by
  fun_induction scanName state text
  case case1 => rfl
  case case5 => rfl
  -- In every other case one character comes in front of what the rest of the scan takes.
  all_goals simp_all

theorem takeName_append (text : List Char) : (takeName text).1 ++ (takeName text).2 = text :=
  scanName_append .plain text

/-- A name takes a character with it that can stand in a name. -/
theorem takeName_ne_nil {c : Char} (text : List Char) (hname : isNameChar c) :
    (takeName (c :: text)).1 ≠ [] := by
  rw [takeName, scanName]
  split
  · simp
  · split
    · simp
    · simp

/-! ### Segments -/

theorem scanSegments_intercalate (quoting : Quoting) (nesting : Nesting) (text : List Char) :
    [','].intercalate ((scanSegments quoting nesting text).1 ::
      (scanSegments quoting nesting text).2) = text := by
  fun_induction scanSegments quoting nesting text with
  | case1 quoting nesting => rfl
  | case2 quoting nesting c text hcomma segment segments hscan ih =>
    rw [hscan] at ih
    rw [hcomma.2.2, ← ih]
    simp [List.intercalate]
  | case3 quoting nesting c text _ segment segments hscan ih =>
    rw [hscan] at ih
    rw [← ih]
    cases segments <;> simp [List.intercalate]

/-- The segments of a text with commas between them are the text. -/
theorem splitCommas_intercalate (text : List Char) :
    [','].intercalate (splitCommas text) = text :=
  scanSegments_intercalate .bare .top text

/-- The core of a segment stands between the blanks before and after it. -/
theorem trim_segment (segment : List Char) :
    leadingBlanks segment ++ trim segment ++ trailingBlanks (trimStart segment) = segment := by
  rw [List.append_assoc, trim, trimEnd_append_trailingBlanks, leadingBlanks_append_trimStart]

/-- A segment stands in the text it is cut from. -/
theorem infix_of_mem_splitCommas {segment : List Char}
    (hmem : segment ∈ splitCommas text) : segment <:+: text := by
  have hjoined (segments : List (List Char)) (hmem : segment ∈ segments) :
      segment <:+: [','].intercalate segments := by
    induction segments with
    | nil => cases hmem
    | cons first others ih =>
      rw [List.mem_cons] at hmem
      cases others with
      | nil =>
        have hsegment := hmem.resolve_right List.not_mem_nil
        have hsame : [','].intercalate [first] = segment := by
          rw [hsegment, List.intercalate_singleton]
        exact hsame ▸ List.infix_rfl
      | cons next others =>
        rw [List.intercalate_cons_cons, List.append_assoc]
        rcases hmem with rfl | hmem
        · exact (List.prefix_append _ _).isInfix
        · exact (ih hmem).trans ((List.suffix_append _ _).trans (List.suffix_append _ _)).isInfix
  have hinfix := hjoined (splitCommas text) hmem
  rwa [splitCommas_intercalate] at hinfix

/-- No segment is longer than the text it is cut from. -/
theorem length_le_of_mem_splitCommas {segment : List Char}
    (hmem : segment ∈ splitCommas text) : segment.length ≤ text.length :=
  (infix_of_mem_splitCommas hmem).length_le

theorem trim_isInfix (segment : List Char) : trim segment <:+: segment :=
  ⟨_, _, trim_segment segment⟩

theorem trim_length_le (segment : List Char) : (trim segment).length ≤ segment.length :=
  (trim_isInfix segment).length_le

/-! ### Pieces -/

/-- The text a piece was cut from. -/
def Piece.source : Piece → List Char
  | .leaf simple => simple.text
  | .call colons name span => colons ++ name ++ span

/-- The argument of a pseudo-class; other pieces have none. -/
def Piece.argument : Piece → List Char
  | .leaf _ => []
  | .call _ _ span => argumentOf span

/-- What every piece has that was cut off a text: a combinator but the descendant one has its sign
in its text, a pseudo-class has a colon, and its span starts with a parenthesis. -/
def Piece.IsCut : Piece → Prop
  | .leaf (.combinator value raw) => value = [' '] ∨ value <:+: raw
  | .leaf _ => True
  | .call colons _ span => colons ≠ [] ∧ span.head? = some '('

/-- A piece and the rest of a text it was cut off. -/
structure Cut (text : List Char) (taken : Piece × List Char) : Prop where
  append : taken.1.source ++ taken.2 = text
  ne_nil : taken.1.source ≠ []
  isCut : taken.1.IsCut

theorem Cut.rest_length {taken : Piece × List Char} (hcut : Cut text taken) :
    taken.2.length < text.length := by
  have hpositive := List.length_pos_iff.mpr hcut.ne_nil
  rw [← hcut.append, List.length_append]
  omega

theorem takeSign?_append {sign rest : List Char}
    (htaken : takeSign? text = some (sign, rest)) : sign ++ rest = text ∧ sign ≠ [] := by
  unfold takeSign? at htaken
  split at htaken
  case h_6 => cases htaken
  all_goals
    obtain ⟨rfl, rfl⟩ := Prod.mk.inj (Option.some.inj htaken)
    exact ⟨rfl, List.cons_ne_nil _ _⟩

theorem takeCombinator?_cut {leaf : Leaf} {rest : List Char}
    (htaken : takeCombinator? text = some (leaf, rest)) : Cut text (.leaf leaf, rest) := by
  have hblanks := List.takeWhile_append_dropWhile (p := isAsciiBlank) (l := text)
  simp only [takeCombinator?] at htaken
  split at htaken
  · rename_i sign after hsign
    obtain ⟨hafter, hne⟩ := takeSign?_append hsign
    obtain ⟨rfl, rfl⟩ := Prod.mk.inj (Option.some.inj htaken)
    refine ⟨?_, ?_, Or.inr ?_⟩
    · simp only [Piece.source, Leaf.text, List.append_assoc, List.takeWhile_append_dropWhile]
      rw [hafter, hblanks]
    · simp [Piece.source, Leaf.text, hne]
    · exact List.infix_append _ _ _
  · split at htaken
    · cases htaken
    · rename_i hne
      obtain ⟨rfl, rfl⟩ := Prod.mk.inj (Option.some.inj htaken)
      exact ⟨hblanks, by simpa [Piece.source, Leaf.text] using hne, Or.inl rfl⟩

theorem takePseudo_cut (text : List Char) : Cut (':' :: text) (takePseudo text) := by
  -- The two spellings differ in their colons only, so both end in the same way.
  have hnamed (colons others : List Char) (hcolons : colons ≠ []) :
      Cut (colons ++ others)
        (if (takeName others).2.head? = some '(' then
          (.call colons (takeName others).1 (Brackets.round.span (takeName others).2).1,
            (Brackets.round.span (takeName others).2).2)
        else
          (.leaf (.pseudo (colons ++ (takeName others).1)), (takeName others).2)) := by
    have hname := takeName_append others
    split
    · rename_i hhead
      refine ⟨?_, by simp [Piece.source, hcolons], hcolons, Brackets.round.span_head? hhead⟩
      simp only [Piece.source, List.append_assoc, Brackets.span_append, hname]
    · refine ⟨?_, by simp [Piece.source, Leaf.text, hcolons], trivial⟩
      simp only [Piece.source, Leaf.text, List.append_assoc, hname]
  unfold takePseudo
  split
  rename_i colons others hcolons
  split at hcolons
  · obtain ⟨rfl, rfl⟩ := Prod.mk.inj hcolons
    exact hnamed [':', ':'] _ (List.cons_ne_nil _ _)
  · obtain ⟨rfl, rfl⟩ := Prod.mk.inj hcolons
    exact hnamed [':'] _ (List.cons_ne_nil _ _)

theorem takeSimple_cut (c : Char) (text : List Char) : Cut (c :: text) (takeSimple c text) := by
  have hname := takeName_append text
  unfold takeSimple
  split
  · rename_i hcomment
    obtain ⟨rfl, hstar⟩ := hcomment
    obtain ⟨others, rfl⟩ := List.head?_eq_some_iff.mp hstar
    refine ⟨?_, List.cons_ne_nil _ _, trivial⟩
    simp [Piece.source, Leaf.text, takeBlockComment_append]
  split
  · rename_i hclass
    refine ⟨?_, List.cons_ne_nil _ _, trivial⟩
    simp [Piece.source, Leaf.text, hname, hclass]
  split
  · rename_i hhash
    split
    · refine ⟨?_, List.cons_ne_nil _ _, trivial⟩
      simp [Piece.source, Leaf.text, Brackets.span_append, hhash]
    · refine ⟨?_, List.cons_ne_nil _ _, trivial⟩
      simp [Piece.source, Leaf.text, hname, hhash]
  split
  · refine ⟨Brackets.square.span_append (c :: text), ?_, trivial⟩
    intro hempty
    have hhead : (Brackets.square.span (c :: text)).1.head? = some c :=
      Brackets.square.span_head? rfl
    rw [show (Brackets.square.span (c :: text)).1 = [] from hempty] at hhead
    cases hhead
  split
  · rename_i hnesting
    exact ⟨by simp [Piece.source, Leaf.text, hnesting], List.cons_ne_nil _ _, trivial⟩
  split
  · rename_i huniversal
    exact ⟨by simp [Piece.source, Leaf.text, huniversal], List.cons_ne_nil _ _, trivial⟩
  split
  · rename_i hcolon
    rw [hcolon]
    exact takePseudo_cut text
  split
  · rename_i htag
    exact ⟨takeName_append (c :: text), takeName_ne_nil text htag, trivial⟩
  · exact ⟨rfl, List.cons_ne_nil _ _, trivial⟩

theorem takePiece_cut (c : Char) (text : List Char) : Cut (c :: text) (takePiece c text) := by
  unfold takePiece
  split
  · rename_i leaf rest htaken
    exact takeCombinator?_cut htaken
  · exact takeSimple_cut c text

/-- The pieces of a text, side by side, are the text. -/
theorem pieces_source (text : List Char) : (pieces text).flatMap Piece.source = text := by
  fun_induction pieces text with
  | case1 => rfl
  | case2 c text taken _ ih =>
    rw [List.flatMap_cons, ih]
    exact (takePiece_cut c text).append
  | case3 c text taken hlong => exact absurd (takePiece_cut c text).rest_length hlong

/-- Each piece of a text was cut off some text. -/
theorem exists_cut_of_mem_pieces (hmem : piece ∈ pieces text) :
    ∃ whole rest, Cut whole (piece, rest) := by
  fun_induction pieces text with
  | case1 => cases hmem
  | case2 c text taken _ ih =>
    rcases List.mem_cons.mp hmem with rfl | hmem
    · exact ⟨c :: text, taken.2, takePiece_cut c text⟩
    · exact ih hmem
  | case3 c text taken hlong => exact absurd (takePiece_cut c text).rest_length hlong

theorem isCut_of_mem_pieces (hmem : piece ∈ pieces text) :
    piece.IsCut := by
  obtain ⟨whole, rest, hcut⟩ := exists_cut_of_mem_pieces hmem
  exact hcut.isCut

/-- A piece stands in the text it is cut from. -/
theorem source_infix_of_mem_pieces (hmem : piece ∈ pieces text) : piece.source <:+: text := by
  rw [← pieces_source text]
  exact List.infix_of_mem_flatten (List.mem_map_of_mem hmem)

theorem argumentOf_isInfix (span : List Char) : argumentOf span <:+: span := by
  rw [argumentOf]
  split
  · exact (List.dropLast_prefix _).isInfix.trans (List.tail_suffix _).isInfix
  · exact (List.tail_suffix _).isInfix

/-- The argument of a pseudo-class stands in the text. -/
theorem argument_infix_of_mem_pieces (hmem : piece ∈ pieces text) : piece.argument <:+: text := by
  have hsource := source_infix_of_mem_pieces hmem
  cases piece with
  | leaf simple => exact List.nil_infix
  | call colons name span =>
    exact ((argumentOf_isInfix span).trans (List.suffix_append _ _).isInfix).trans hsource

theorem argumentOf_length_le (span : List Char) : (argumentOf span).length ≤ span.length - 1 := by
  rw [argumentOf]
  split
  · rw [List.length_dropLast, List.length_tail]
    omega
  · exact Nat.le_of_eq List.length_tail

/-- An argument is shorter than the text it stands in. -/
theorem argument_length_lt (hmem : piece ∈ pieces text) :
    piece.argument.length < text.length := by
  have hsource := (source_infix_of_mem_pieces hmem).length_le
  obtain ⟨whole, rest, hcut⟩ := exists_cut_of_mem_pieces hmem
  cases piece with
  | leaf simple => exact Nat.lt_of_lt_of_le (List.length_pos_iff.mpr hcut.ne_nil) hsource
  | call colons name span =>
    have hcolons := List.length_pos_iff.mpr hcut.isCut.1
    have hargument := argumentOf_length_le span
    rw [Piece.source, List.length_append, List.length_append] at hsource
    rw [Piece.argument]
    omega

/-! ### Reading without a bound -/

/-- A piece asks for the meaning of its own argument only. -/
theorem Piece.toPart_congr {first second : List Char → List Branch}
    (hargument : first piece.argument = second piece.argument) :
    piece.toPart first = piece.toPart second := by
  cases piece with
  | leaf simple => rfl
  | call colons name span =>
    rw [Piece.argument] at hargument
    simp only [Piece.toPart, hargument]

/-- A segment asks for the meaning of texts shorter than itself only. -/
theorem Branch.ofSegment_congr {first second : List Char → List Branch} {segment : List Char}
    (hshorter : ∀ argument : List Char, argument.length < segment.length →
      first argument = second argument) :
    Branch.ofSegment first segment = Branch.ofSegment second segment := by
  have hparts : (pieces (trim segment)).map (Piece.toPart first) =
      (pieces (trim segment)).map (Piece.toPart second) := by
    refine List.map_congr_left fun piece hmem => Piece.toPart_congr (hshorter _ ?_)
    exact Nat.lt_of_lt_of_le (argument_length_lt hmem) (trim_length_le segment)
  simp only [Branch.ofSegment, hparts]

/-- Any bound that is longer than the text leads to the same reading. -/
theorem readNested_congr {depth other : Nat} (hdepth : text.length < depth)
    (hother : text.length < other) : readNested depth text = readNested other text := by
  induction depth generalizing other text with
  | zero => exact absurd hdepth (Nat.not_lt_zero _)
  | succ depth ih =>
    obtain ⟨other, rfl⟩ := Nat.exists_eq_succ_of_ne_zero (Nat.ne_zero_of_lt hother)
    simp only [readNested]
    split
    · rfl
    · refine List.map_congr_left fun segment hmem => ?_
      refine Branch.ofSegment_congr fun argument hshorter => ?_
      have hsegment := length_le_of_mem_splitCommas hmem
      exact ih (by omega) (by omega)

/-- Reading in terms of itself: the segments of a text become branches, in which the arguments of
pseudo-classes are read in the same way. -/
theorem read_eq (text : List Char) :
    read text =
      if isAllBlank text then [] else (splitCommas text).map (Branch.ofSegment read) := by
  rw [read, readNested]
  split
  · rfl
  · refine List.map_congr_left fun segment hmem => ?_
    refine Branch.ofSegment_congr fun argument hshorter => ?_
    have hsegment := length_le_of_mem_splitCommas hmem
    exact readNested_congr (by omega) (by omega)

end StyleMigration.Selector
