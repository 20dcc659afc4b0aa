import StyleMigration.Proofs.Selector.Grammar
import StyleMigration.Proofs.Selector.Lossless

/-!
Compounds and combinators come off the front of a text. A part of a compound is taken if what comes after
it is no more of a name and no argument (`IsBoundary`), so its parts are taken one after the other
(`IsCompound.partsOf_eq`). A combinator is taken with all the blanks around it if what comes after it
starts a compound (`IsCombinator.partsOf_eq`). An argument that is a list is read by the same reader; that
it comes back from there as it was is asked of it (`IsRecovered`).
-/

set_option autoImplicit false

namespace StyleMigration.Selector

open Text

variable {rest name sign : List Char} {c : Char}

/-! ### Characters -/

/-- A character with which a compound begins. -/
def isStarter (c : Char) : Bool :=
  c == '.' || c == '#' || c == ':' || c == '*' || c == '&' || isWordChar c

theorem isSegmentChar_of_isWordChar (hc : isWordChar c = true) :
    isSegmentChar c = true := by
  simp only [isSegmentChar, isRawChar, Bool.and_eq_true, bne_iff_ne]
  refine ⟨⟨⟨⟨⟨⟨⟨?_, ?_⟩, ?_⟩, ?_⟩, ?_⟩, ?_⟩, ?_⟩, ?_⟩ <;> rintro rfl <;> exact absurd hc (by decide)

theorem isSegmentChar_of_isAsciiBlank (hc : isAsciiBlank c = true) :
    isSegmentChar c = true := by
  simp only [isSegmentChar, isRawChar, Bool.and_eq_true, bne_iff_ne]
  refine ⟨⟨⟨⟨⟨⟨⟨?_, ?_⟩, ?_⟩, ?_⟩, ?_⟩, ?_⟩, ?_⟩, ?_⟩ <;> rintro rfl <;> exact absurd hc (by decide)

theorem isAsciiBlank_of_isBlank (hc : isBlank c = false) : isAsciiBlank c = false := by
  rw [← Bool.not_eq_true]
  exact fun hblank => Bool.eq_false_iff.mp hc (isBlank_of_isAsciiBlank hblank)

theorem isBlank_of_isWordChar (hc : isWordChar c = true) : isBlank c = false := by
  simp only [isWordChar, Bool.and_eq_true, Bool.not_eq_true'] at hc
  exact hc.2

theorem isBlank_of_isStarter (hc : isStarter c = true) : isBlank c = false := by
  simp only [isStarter, Bool.or_eq_true, beq_iff_eq] at hc
  rcases hc with ((((rfl | rfl) | rfl) | rfl) | rfl) | hword
  case inr => exact isBlank_of_isWordChar hword
  all_goals rfl

/-! ### Tight texts -/

/-- A text that neither begins nor ends with a blank. -/
structure IsTight (text : List Char) : Prop where
  nonempty : text ≠ []
  first : ∀ c ∈ text.head?, isBlank c = false
  last : ∀ c ∈ text.getLast?, isBlank c = false

theorem IsTight.append_middle {first second : List Char} (hfirst : IsTight first)
    (middle : List Char) (hsecond : IsTight second) : IsTight (first ++ middle ++ second) := by
  obtain ⟨c, rest, rfl⟩ := List.exists_cons_of_ne_nil hfirst.nonempty
  refine ⟨List.cons_ne_nil _ _, hfirst.first, ?_⟩
  rw [List.getLast?_append, Option.or_of_isSome (List.getLast?_isSome.mpr hsecond.nonempty)]
  exact hsecond.last

theorem IsTight.append {first second : List Char} (hfirst : IsTight first)
    (hsecond : IsTight second) : IsTight (first ++ second) := by
  have hmiddle := hfirst.append_middle [] hsecond
  rwa [List.append_nil] at hmiddle

theorem isTight_of_forall {text : List Char} (hne : text ≠ [])
    (hblank : ∀ c ∈ text, isBlank c = false) : IsTight text :=
  ⟨hne, fun c hc => hblank c (List.mem_of_mem_head? hc), fun c hc =>
    hblank c (List.mem_of_getLast? hc)⟩

theorem IsTight.trim_eq {text : List Char} (htight : IsTight text) : trim text = text :=
  trim_eq_self htight.first htight.last

theorem IsIdent.isTight (hname : IsIdent name) : IsTight name :=
  isTight_of_forall hname.nonempty fun c hc => isBlank_of_isWordChar (hname.word c hc)

theorem IsIdent.isSegment (hname : IsIdent name) : IsSegment name :=
  isSegment_of_isSegmentChar fun c hc => isSegmentChar_of_isWordChar (hname.word c hc)

theorem IsColons.isTight {colons : List Char} (hcolons : IsColons colons) : IsTight colons := by
  rcases hcolons with rfl | rfl <;> exact isTight_of_forall (by decide) (by decide)

theorem IsColons.isSegment {colons : List Char} (hcolons : IsColons colons) : IsSegment colons := by
  rcases hcolons with rfl | rfl <;> exact isSegment_of_isSegmentChar (by decide)

theorem AreBlanks.isSegment {blanks : List Char} (hblanks : AreBlanks blanks) : IsSegment blanks :=
  isSegment_of_isSegmentChar fun c hc => isSegmentChar_of_isAsciiBlank (hblanks c hc)

/-! ### Taking pieces -/

/-- The parts that are read in the text of a branch. -/
def partsOf (text : List Char) : List Part :=
  (pieces text).map (Piece.toPart read)

theorem partsOf_nil : partsOf [] = [] := by
  unfold partsOf pieces
  rfl

theorem partsOf_cons (c : Char) (text : List Char) :
    partsOf (c :: text) =
      (takePiece c text).1.toPart read :: partsOf (takePiece c text).2 := by
  unfold partsOf
  conv => lhs; unfold pieces
  rw [dif_pos (takePiece_cut c text).rest_length, List.map_cons]

theorem takeSign?_of_isStarter (hc : isStarter c = true) (text : List Char) :
    takeSign? (c :: text) = none := by
  unfold takeSign?
  split
  case h_6 => rfl
  all_goals
    rename_i hcons
    cases hcons
    exact absurd hc (by decide)

theorem takeCombinator?_of_isStarter (hc : isStarter c = true) (text : List Char) :
    takeCombinator? (c :: text) = none := by
  have hblank := isAsciiBlank_of_isBlank (isBlank_of_isStarter hc)
  simp [takeCombinator?, hblank, takeSign?_of_isStarter hc]

theorem partsOf_of_isStarter (hc : isStarter c = true) (text : List Char) :
    partsOf (c :: text) =
      (takeSimple c text).1.toPart read :: partsOf (takeSimple c text).2 := by
  rw [partsOf_cons, takePiece, takeCombinator?_of_isStarter hc]

/-- A text before which a name ends, and which is not an argument. -/
structure IsBoundary (rest : List Char) : Prop where
  name : takeName rest = ([], rest)
  argument : rest.head? ≠ some '('

theorem isBoundary_nil : IsBoundary [] :=
  ⟨rfl, nofun⟩

theorem takeName_cons (hname : isNameChar c = false) (hsharp : c ≠ '#')
    (rest : List Char) : takeName (c :: rest) = ([], c :: rest) := by
  have hescape : c ≠ '\\' := by
    rintro rfl
    exact absurd hname (by decide)
  simp [takeName, scanName, hescape, hsharp, hname]

theorem IsIdent.takeName_eq (hname : IsIdent name)
    (hrest : takeName rest = ([], rest)) : takeName (name ++ rest) = (name, rest) := by
  obtain ⟨-, hword⟩ := hname
  induction name with
  | nil => exact hrest
  | cons c name ih =>
    rw [List.forall_mem_cons] at hword
    have hescape : c ≠ '\\' := by
      rintro rfl
      exact absurd hword.1 (by decide)
    have hsharp : c ≠ '#' := by
      rintro rfl
      exact absurd hword.1 (by decide)
    have hchar : isNameChar c = true := by
      have hc := hword.1
      simp only [isWordChar, Bool.and_eq_true] at hc
      exact hc.1.1
    have ih := ih hword.2
    rw [takeName] at ih ⊢
    simp [scanName, hescape, hsharp, hchar, ih]

/-! ### Compounds -/

/-- A list that reading recovers from its text, and whose text can be an argument. -/
structure IsRecovered (branches : List Branch) : Prop where
  nonempty : branches ≠ []
  level : IsLevel (listText branches)
  read_eq : read (listText branches) = branches

theorem IsRecovered.isAllBlank_eq {branches : List Branch} (hbranches : IsRecovered branches) :
    isAllBlank (listText branches) = false := by
  rw [← Bool.not_eq_true]
  intro hblank
  have hread := hbranches.read_eq
  rw [Selector.read_eq, if_pos hblank] at hread
  exact hbranches.nonempty hread.symm

theorem argumentOf_group (argument : List Char) :
    argumentOf ('(' :: (argument ++ [')'])) = argument := by
  simp [argumentOf]

section Pseudo

variable {colons name rest : List Char} (hcolons : IsColons colons) (hname : IsIdent name)
include hcolons hname

/-- The name of a pseudo-class is taken up to where it ends. -/
theorem partsOf_pseudo (hrest : takeName rest = ([], rest)) :
    partsOf (colons ++ name ++ rest) =
      if rest.head? = some '(' then
        (Piece.call colons name (Brackets.round.span rest).1).toPart read ::
          partsOf (Brackets.round.span rest).2
      else .leaf (.pseudo (colons ++ name)) :: partsOf rest := by
  have htaken := hname.takeName_eq hrest
  obtain ⟨c, others, rfl⟩ := List.exists_cons_of_ne_nil hname.nonempty
  have hcolon : c ≠ ':' := by
    rintro rfl
    exact absurd (hname.word ':' List.mem_cons_self) (by decide)
  obtain ⟨text, htext, hpseudo⟩ : ∃ text, colons ++ (c :: others) ++ rest = ':' :: text ∧
      takePseudo text =
        if rest.head? = some '(' then
          (.call colons (c :: others) (Brackets.round.span rest).1, (Brackets.round.span rest).2)
        else (.leaf (.pseudo (colons ++ (c :: others))), rest) := by
    rcases hcolons with rfl | rfl
    · refine ⟨c :: others ++ rest, rfl, ?_⟩
      rw [List.cons_append] at htaken ⊢
      rw [takePseudo]
      · rw [htaken]
      · exact fun _ h => hcolon (List.cons.inj h).1
    · refine ⟨':' :: (c :: others ++ rest), rfl, ?_⟩
      simp only [takePseudo, htaken]
  have hsimple : takeSimple ':' text = takePseudo text := by simp [takeSimple]
  rw [htext, partsOf_of_isStarter rfl, hsimple, hpseudo]
  split <;> rfl

/-- A pseudo-class with a level argument is taken with it. -/
theorem partsOf_call {argument : List Char} (hargument : IsLevel argument) :
    partsOf (colons ++ name ++ '(' :: (argument ++ ')' :: rest)) =
      (Piece.call colons name ('(' :: (argument ++ [')']))).toPart read :: partsOf rest := by
  have hstop : takeName ('(' :: (argument ++ ')' :: rest)) = ([], '(' :: (argument ++ ')' :: rest)) :=
    takeName_cons rfl (by decide) _
  rw [partsOf_pseudo hcolons hname hstop, List.head?_cons, if_pos rfl, hargument.span_eq]

end Pseudo

/-- What the text of a part of a compound is like. -/
structure IsSolid (part : Part) : Prop where
  segment : IsSegment part.text
  tight : IsTight part.text
  starts : ∀ c ∈ part.text.head?, isStarter c = true

theorem IsIdent.starts (hname : IsIdent name) :
    ∀ c ∈ name.head?, isStarter c = true := by
  intro c hc
  simp [isStarter, hname.word c (List.mem_of_mem_head? hc)]

/-- A pseudo-class with a level argument. -/
theorem isSolid_call {part : Part} {colons argument : List Char} (hcolons : IsColons colons)
    (hname : IsIdent name) (hargument : IsLevel argument)
    (htext : part.text = colons ++ name ++ ['('] ++ argument ++ [')']) : IsSolid part := by
  have hgroup : part.text = colons ++ name ++ '(' :: (argument ++ [')']) := by
    rw [htext]
    simp
  have hclosing : IsTight [')'] := isTight_of_forall (by decide) (by decide)
  refine ⟨?_, ?_, ?_⟩
  · rw [hgroup]
    exact (hcolons.isSegment.append hname.isSegment).append (.group hargument .nil)
  · have htight := hcolons.isTight.append_middle (name ++ ['('] ++ argument) hclosing
    rw [htext]
    simpa using htight
  · rw [htext]
    rcases hcolons with rfl | rfl
    · rintro c hc
      cases hc
      rfl
    · rintro c hc
      cases hc
      rfl

theorem IsSimple.isSolid {part : Part} (hpart : IsSimple IsRecovered part) : IsSolid part := by
  cases hpart with
  | className hname =>
    have hdot : IsTight ['.'] := isTight_of_forall (by decide) (by decide)
    refine ⟨.cons rfl hname.isSegment, hdot.append hname.isTight, ?_⟩
    rintro c hc
    cases hc
    rfl
  | id hname =>
    have hsharp : IsTight ['#'] := isTight_of_forall (by decide) (by decide)
    refine ⟨.cons rfl hname.isSegment, hsharp.append hname.isTight, ?_⟩
    rintro c hc
    cases hc
    rfl
  | pseudo hcolons hname =>
    refine ⟨hcolons.isSegment.append hname.isSegment, hcolons.isTight.append hname.isTight, ?_⟩
    rcases hcolons with rfl | rfl
    · rintro c hc
      cases hc
      rfl
    · rintro c hc
      cases hc
      rfl
  | function hcolons hname htakes hargument =>
    exact isSolid_call hcolons hname (isLevel_of_isRawChar hargument) rfl
  | list hcolons hname htakes hbranches =>
    exact isSolid_call hcolons hname hbranches.level (by rw [Part.text])

/-- A simple selector ends a name before it. -/
theorem IsSimple.isBoundary {nested : List Branch → Prop} {part : Part} (hpart : IsSimple nested part)
    (rest : List Char) : IsBoundary (part.text ++ rest) := by
  have hcolon {colons : List Char} (hcolons : IsColons colons) (others : List Char) :
      IsBoundary (colons ++ others) := by
    rcases hcolons with rfl | rfl
    · exact ⟨takeName_cons rfl (by decide) _, by simp⟩
    · exact ⟨takeName_cons rfl (by decide) _, by simp⟩
  cases hpart with
  | className hname => exact ⟨takeName_cons rfl (by decide) _, by simp [Part.text, Leaf.text]⟩
  | @id name hname =>
    obtain ⟨c, others, rfl⟩ := List.exists_cons_of_ne_nil hname.nonempty
    have hbrace : c ≠ '{' := by
      rintro rfl
      exact absurd (hname.word '{' List.mem_cons_self) (by decide)
    constructor
    · simp [Part.text, Leaf.text, takeName, scanName, hbrace, isNameChar]
    · simp [Part.text, Leaf.text]
  | pseudo hcolons hname =>
    simp only [Part.text, Leaf.text, List.append_assoc]
    exact hcolon hcolons _
  | function hcolons hname htakes hargument =>
    simp only [Part.text, Leaf.text, List.append_assoc]
    exact hcolon hcolons _
  | list hcolons hname htakes hbranches =>
    simp only [Part.text, List.append_assoc]
    exact hcolon hcolons _

/-- Whether a part ends with a name, which a name directly after it would go on with. -/
def Part.endsOnName : Part → Bool
  | .leaf (.tag _) | .leaf (.className _) | .leaf (.id _) | .leaf (.pseudo _) => true
  | _ => false

/-- A simple selector is taken off the front of a text in which its name ends there. -/
theorem IsSimple.partsOf_eq_of_endsOnName {part : Part} (hpart : IsSimple IsRecovered part)
    (hrest : part.endsOnName = true → IsBoundary rest) :
    partsOf (part.text ++ rest) = part :: partsOf rest := by
  cases hpart with
  | className hname =>
    rw [Part.text, Leaf.text, List.cons_append, partsOf_of_isStarter rfl]
    simp [takeSimple, hname.takeName_eq (hrest rfl).name, Piece.toPart]
  | @id name hname =>
    have hbrace : (name ++ rest).head? ≠ some '{' := by
      obtain ⟨c, others, rfl⟩ := List.exists_cons_of_ne_nil hname.nonempty
      intro hhead
      cases hhead
      exact absurd (hname.word '{' List.mem_cons_self) (by decide)
    rw [Part.text, Leaf.text, List.cons_append, partsOf_of_isStarter rfl]
    simp only [takeSimple, hbrace, hname.takeName_eq (hrest rfl).name]
    rfl
  | pseudo hcolons hname =>
    rw [Part.text, Leaf.text, partsOf_pseudo hcolons hname (hrest rfl).name,
      if_neg (hrest rfl).argument]
  | @function colons name argument hcolons hname htakes hargument =>
    have hcall := @partsOf_call colons name rest hcolons hname argument
      (isLevel_of_isRawChar hargument)
    have hsource : (Part.leaf (.function (colons ++ name) argument)).text ++ rest =
        colons ++ name ++ '(' :: (argument ++ ')' :: rest) := by
      simp [Part.text, Leaf.text]
    rw [hsource, hcall]
    simp [Piece.toPart, htakes, argumentOf_group]
  | @list colons name branches hcolons hname htakes hbranches =>
    have hcall := @partsOf_call colons name rest hcolons hname _ hbranches.level
    have hsource : (Part.list (colons ++ name) branches).text ++ rest =
        colons ++ name ++ '(' :: (listText branches ++ ')' :: rest) := by
      simp [Part.text]
    rw [hsource, hcall]
    simp [Piece.toPart, htakes, argumentOf_group, hbranches.isAllBlank_eq, hbranches.read_eq]

theorem IsSimple.partsOf_eq {part : Part} (hpart : IsSimple IsRecovered part) {rest : List Char}
    (hrest : IsBoundary rest) : partsOf (part.text ++ rest) = part :: partsOf rest :=
  hpart.partsOf_eq_of_endsOnName fun _ => hrest

theorem isSolid_tag (hname : IsIdent name) : IsSolid (.leaf (.tag name)) :=
  ⟨hname.isSegment, hname.isTight, hname.starts⟩

theorem IsHead.isSolid {head : List Part} (hhead : IsHead head) : ∀ part ∈ head, IsSolid part := by
  have huniversal : IsSolid (.leaf (.universal ['*'])) :=
    ⟨isSegment_of_isSegmentChar (by decide), isTight_of_forall (by decide) (by decide), by decide⟩
  have hnesting : IsSolid (.leaf .nesting) :=
    ⟨isSegment_of_isSegmentChar (by decide), isTight_of_forall (by decide) (by decide), by decide⟩
  cases hhead with
  | none => exact List.forall_mem_nil _
  | tag hname => exact List.forall_mem_singleton.mpr (isSolid_tag hname)
  | universal => exact List.forall_mem_singleton.mpr huniversal
  | nesting => exact List.forall_mem_singleton.mpr hnesting
  | nestingTag hname =>
    exact List.forall_mem_cons.mpr ⟨hnesting, List.forall_mem_singleton.mpr (isSolid_tag hname)⟩

theorem partsOf_tag (hname : IsIdent name) (hrest : takeName rest = ([], rest)) :
    partsOf (name ++ rest) = .leaf (.tag name) :: partsOf rest := by
  have htaken := hname.takeName_eq hrest
  obtain ⟨c, others, rfl⟩ := List.exists_cons_of_ne_nil hname.nonempty
  have hword := hname.word c List.mem_cons_self
  have hchar : isNameChar c = true := by
    simp only [isWordChar, Bool.and_eq_true] at hword
    exact hword.1.1
  have hother {mark : Char} (hmark : isWordChar mark = false) : c ≠ mark := by
    rintro rfl
    rw [hword] at hmark
    cases hmark
  rw [List.cons_append] at htaken ⊢
  rw [partsOf_of_isStarter (hname.starts c rfl), takeSimple, if_neg (fun h => hother rfl h.1),
    if_neg (hother rfl), if_neg (hother rfl), if_neg (hother rfl), if_neg (hother rfl),
    if_neg (hother rfl), if_neg (hother rfl), if_pos hchar, htaken]
  rfl

theorem partsOf_nesting (rest : List Char) :
    partsOf ('&' :: rest) = .leaf .nesting :: partsOf rest := by
  rw [partsOf_of_isStarter rfl]
  simp [takeSimple, Piece.toPart]

theorem partsOf_universal (rest : List Char) :
    partsOf ('*' :: rest) = .leaf (.universal ['*']) :: partsOf rest := by
  rw [partsOf_of_isStarter rfl]
  simp [takeSimple, Piece.toPart]

theorem IsHead.partsOf_eq {head : List Part} (hhead : IsHead head) {rest : List Char}
    (hrest : IsBoundary rest) : partsOf (partsText head ++ rest) = head ++ partsOf rest := by
  cases hhead with
  | none => rfl
  | @tag name hname =>
    have htag := partsOf_tag hname hrest.name
    simpa [partsText, Part.text, Leaf.text] using htag
  | universal =>
    simpa [partsText, Part.text, Leaf.text] using partsOf_universal rest
  | nesting =>
    simpa [partsText, Part.text, Leaf.text] using partsOf_nesting rest
  | @nestingTag name hname =>
    have hnesting := partsOf_nesting (name ++ rest)
    rw [partsOf_tag hname hrest.name] at hnesting
    simpa [partsText, Part.text, Leaf.text] using hnesting

theorem isBoundary_simples {nested : List Branch → Prop} {simples : List Part}
    (hsimples : ∀ part ∈ simples, IsSimple nested part)
    (hrest : IsBoundary rest) : IsBoundary (partsText simples ++ rest) := by
  cases simples with
  | nil => exact hrest
  | cons part simples =>
    rw [partsText, List.append_assoc]
    exact (hsimples part List.mem_cons_self).isBoundary _

theorem partsOf_simples {simples : List Part}
    (hsimples : ∀ part ∈ simples, IsSimple IsRecovered part)
    (hrest : IsBoundary rest) : partsOf (partsText simples ++ rest) = simples ++ partsOf rest := by
  induction simples with
  | nil => rfl
  | cons part simples ih =>
    rw [List.forall_mem_cons] at hsimples
    rw [partsText, List.append_assoc,
      hsimples.1.partsOf_eq (isBoundary_simples hsimples.2 hrest), ih hsimples.2, List.cons_append]

theorem isTight_partsText {parts : List Part} (hne : parts ≠ [])
    (hparts : ∀ part ∈ parts, IsTight part.text) : IsTight (partsText parts) := by
  induction parts with
  | nil => exact absurd rfl hne
  | cons part parts ih =>
    rw [List.forall_mem_cons] at hparts
    rw [partsText]
    by_cases hempty : parts = []
    · rw [hempty, partsText, List.append_nil]
      exact hparts.1
    · exact hparts.1.append (ih hempty hparts.2)

theorem isSegment_partsText {parts : List Part} (hparts : ∀ part ∈ parts, IsSegment part.text) :
    IsSegment (partsText parts) := by
  induction parts with
  | nil =>
    rw [partsText]
    exact .nil
  | cons part parts ih =>
    rw [List.forall_mem_cons] at hparts
    rw [partsText]
    exact hparts.1.append (ih hparts.2)

/-- A text at whose front a compound may begin. -/
def CanStart (text : List Char) : Prop :=
  ∀ c ∈ text.head?, isStarter c = true

section Compound

variable {parts : List Part} (hparts : IsCompound IsRecovered parts)
include hparts

theorem IsCompound.isSolid : ∀ part ∈ parts, IsSolid part := by
  obtain ⟨hhead, hsimples, -⟩ := hparts
  exact List.forall_mem_append.mpr ⟨hhead.isSolid, fun part hmem => (hsimples part hmem).isSolid⟩

theorem IsCompound.isTight : IsTight (partsText parts) := by
  have hne : parts ≠ [] := by
    obtain ⟨-, -, hne⟩ := hparts
    exact hne
  exact isTight_partsText hne fun part hmem => (hparts.isSolid part hmem).tight

theorem IsCompound.canStart (rest : List Char) : CanStart (partsText parts ++ rest) := by
  have hsolid := hparts.isSolid
  have hne : parts ≠ [] := by
    obtain ⟨-, -, hne⟩ := hparts
    exact hne
  obtain ⟨part, others, rfl⟩ := List.exists_cons_of_ne_nil hne
  have hpart := hsolid part List.mem_cons_self
  obtain ⟨c, text, htext⟩ := List.exists_cons_of_ne_nil hpart.tight.nonempty
  intro first hfirst
  rw [partsText, htext] at hfirst
  cases hfirst
  exact hpart.starts c (by rw [htext]; rfl)

/-- A compound is taken off the front of a text. -/
theorem IsCompound.partsOf_eq {rest : List Char} (hrest : IsBoundary rest) :
    partsOf (partsText parts ++ rest) = parts ++ partsOf rest := by
  obtain ⟨hhead, hsimples, -⟩ := hparts
  rw [partsText_append, List.append_assoc,
    hhead.partsOf_eq (isBoundary_simples hsimples hrest), partsOf_simples hsimples hrest,
    List.append_assoc]

end Compound

/-! ### Combinators -/

theorem partsOf_of_takeCombinator? {text : List Char} {leaf : Leaf} (hne : text ≠ [])
    (htaken : takeCombinator? text = some (leaf, rest)) :
    partsOf text = .leaf leaf :: partsOf rest := by
  obtain ⟨c, text, rfl⟩ := List.exists_cons_of_ne_nil hne
  rw [partsOf_cons, takePiece, htaken]
  rfl

theorem isTight_of_mem_signs (hsign : sign ∈ signs) : IsTight sign := by
  have hall : ∀ sign ∈ signs, sign ≠ [] ∧ ∀ c ∈ sign, isBlank c = false := by decide
  exact isTight_of_forall (hall sign hsign).1 (hall sign hsign).2

theorem isSegment_of_mem_signs (hsign : sign ∈ signs) : IsSegment sign := by
  have hall : ∀ sign ∈ signs, ∀ c ∈ sign, isSegmentChar c = true := by decide
  exact isSegment_of_isSegmentChar (hall sign hsign)

/-- A sign is taken if it does not go on. -/
theorem takeSign?_append_rest (hsign : sign ∈ signs)
    (hrest : rest.head? ≠ some '>') : takeSign? (sign ++ rest) = some (sign, rest) := by
  simp only [signs, List.mem_cons, List.not_mem_nil, or_false] at hsign
  rcases hsign with rfl | rfl | rfl | rfl | rfl
  · cases rest with
    | nil => rfl
    | cons c rest =>
      have hc : c ≠ '>' := fun h => hrest (congrArg some h)
      rw [List.singleton_append, takeSign?]
      exact fun _ h => hc (List.cons.inj h).1
  all_goals rfl

/-- Blanks come off the front of a text that does not begin with one. -/
theorem AreBlanks.span_eq {blanks : List Char} (hblanks : AreBlanks blanks)
    (hrest : ∀ c ∈ rest.head?, isBlank c = false) :
    (blanks ++ rest).takeWhile isAsciiBlank = blanks ∧
      (blanks ++ rest).dropWhile isAsciiBlank = rest := by
  rw [List.takeWhile_append_of_pos hblanks, List.dropWhile_append_of_pos hblanks]
  cases rest with
  | nil => simp
  | cons c rest => simp [isAsciiBlank_of_isBlank (hrest c rfl)]

theorem CanStart.takeSign?_eq (hrest : CanStart rest) : takeSign? rest = none := by
  cases rest with
  | nil => rfl
  | cons c rest => exact takeSign?_of_isStarter (hrest c rfl) rest

theorem CanStart.isBlank_eq (hrest : CanStart rest) :
    ∀ c ∈ rest.head?, isBlank c = false :=
  fun c hc => isBlank_of_isStarter (hrest c hc)

theorem takeCombinator?_sign {before after : List Char} (hsign : sign ∈ signs)
    (hbefore : AreBlanks before) (hafter : AreBlanks after) (hrest : CanStart rest) :
    takeCombinator? (before ++ sign ++ after ++ rest) =
      some (.combinator sign (before ++ sign ++ after), rest) := by
  have hfollows : (after ++ rest).head? ≠ some '>' := by
    intro hhead
    cases after with
    | nil => exact absurd (hrest '>' hhead) (by decide)
    | cons c after =>
      cases hhead
      exact absurd (hafter '>' List.mem_cons_self) (by decide)
  have hfirst : ∀ c ∈ (sign ++ (after ++ rest)).head?, isBlank c = false := by
    rw [List.head?_append,
      Option.or_of_isSome (List.isSome_head?.mpr (isTight_of_mem_signs hsign).nonempty)]
    exact (isTight_of_mem_signs hsign).first
  have hfront := hbefore.span_eq hfirst
  have hback := hafter.span_eq hrest.isBlank_eq
  have hsource : before ++ sign ++ after ++ rest = before ++ (sign ++ (after ++ rest)) := by simp
  simp only [hsource, takeCombinator?, hfront, takeSign?_append_rest hsign hfollows, hback]

theorem takeCombinator?_descendant {blanks : List Char} (hne : blanks ≠ [])
    (hblanks : AreBlanks blanks) (hrest : CanStart rest) :
    takeCombinator? (blanks ++ rest) = some (.combinator [' '] blanks, rest) := by
  have hspan := hblanks.span_eq hrest.isBlank_eq
  simp [takeCombinator?, hspan, hrest.takeSign?_eq, hne]

section Combinator

variable {part : Part} (hpart : IsCombinator part)
include hpart

/-- A combinator is taken off the front of a text that goes on with a compound. -/
theorem IsCombinator.partsOf_eq {rest : List Char} (hrest : CanStart rest) :
    partsOf (part.text ++ rest) = part :: partsOf rest := by
  cases hpart with
  | descendant hne hblanks =>
    exact partsOf_of_takeCombinator? (List.append_ne_nil_of_left_ne_nil hne _)
      (takeCombinator?_descendant hne hblanks hrest)
  | @sign sign before after hsign hbefore hafter =>
    have hne : before ++ sign ++ after ++ rest ≠ [] := by
      simp [(isTight_of_mem_signs hsign).nonempty]
    exact partsOf_of_takeCombinator? hne (takeCombinator?_sign hsign hbefore hafter hrest)

theorem IsCombinator.isSegment : IsSegment part.text := by
  cases hpart with
  | descendant hne hblanks => exact hblanks.isSegment
  | sign hsign hbefore hafter =>
    exact (hbefore.isSegment.append (isSegment_of_mem_signs hsign)).append hafter.isSegment

/-- A combinator ends a name before it. -/
theorem IsCombinator.isBoundary (rest : List Char) : IsBoundary (part.text ++ rest) := by
  have hblank {c : Char} (hc : isAsciiBlank c = true) (others : List Char) :
      IsBoundary (c :: others) := by
    simp only [isAsciiBlank, Bool.or_eq_true, beq_iff_eq] at hc
    rcases hc with (((rfl | rfl) | rfl) | rfl) | rfl <;>
      exact ⟨takeName_cons rfl (by decide) _, by simp⟩
  have hblanks {blanks others : List Char} (hblanks : AreBlanks blanks)
      (hothers : blanks = [] → IsBoundary others) : IsBoundary (blanks ++ others) := by
    cases blanks with
    | nil => exact hothers rfl
    | cons c blanks => exact hblank (hblanks c List.mem_cons_self) _
  cases hpart with
  | descendant hne hdescendant => exact hblanks hdescendant fun hempty => absurd hempty hne
  | @sign sign before after hsign hbefore hafter =>
    simp only [Part.text, Leaf.text, List.append_assoc]
    refine hblanks hbefore fun _ => ?_
    simp only [signs, List.mem_cons, List.not_mem_nil, or_false] at hsign
    rcases hsign with rfl | rfl | rfl | rfl | rfl <;>
      exact ⟨takeName_cons rfl (by decide) _, by simp⟩

end Combinator

end StyleMigration.Selector
