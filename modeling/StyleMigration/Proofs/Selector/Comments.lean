import StyleMigration.Proofs.Selector.Deep
import StyleMigration.Proofs.Selector.Exchange
import StyleMigration.Proofs.Selector.Respelling

/-!
Comments inside a selector. The scan for commas does not know them: it takes the quotes, brackets and
commas of a comment for those of the selector. A comment after a simple selector of a plain list is read as
one comment, with all around it as it was, exactly when that scan goes through the comment without a cut
and, unless the comment stands in the last branch, leaves no quote and no bracket open
(`isInert_commentText_iff`).

A scan that a comment leaves inside a quoted string or inside brackets stays there: no text of a plain list
leads out of them (`IsOpen.foldlM_eq`), so all branches that are left become one. A comma on which the scan
cuts ends the comment that is read, so none is read with its full text (`Place.mem_parts_of_cut`).
-/

set_option autoImplicit false

namespace StyleMigration.Selector

open Text

variable {text : List Char} {part : Part} {state : Quoting × Nesting} {c : Char}

/-! ### Comments in a branch -/

/-- The comment with the given text between its marks. -/
def commentText (body : List Char) : List Char :=
  '/' :: '*' :: (body ++ ['*', '/'])

theorem partsOf_comment (text : List Char) :
    partsOf ('/' :: '*' :: text) =
      .leaf (.comment ('/' :: '*' :: (takeBlockComment text).1)) :: partsOf (takeBlockComment text).2 := by
  have hcombinator : takeCombinator? ('/' :: '*' :: text) = none := by
    simp [takeCombinator?, isAsciiBlank, takeSign?]
  rw [partsOf_cons, takePiece, hcombinator]
  simp [takeSimple, Piece.toPart]

theorem isBoundary_comment (text : List Char) : IsBoundary ('/' :: '*' :: text) :=
  ⟨takeName_cons rfl (by decide) _, by simp⟩

namespace IsPlainParts

variable {left : Left}

theorem cases_of_mem {nested : List Branch → Prop} {parts : List Part}
    (hparts : IsPlainParts nested left parts) (hmem : part ∈ parts) :
    (∃ name, IsIdent name ∧ part = .leaf (.tag name)) ∨ IsAtom nested part ∨ IsCombinator part := by
  induction hparts with
  | nil => cases hmem
  | tag hname _ _ ih =>
    rcases List.mem_cons.mp hmem with rfl | hmem
    · exact .inl ⟨_, hname, rfl⟩
    · exact ih hmem
  | atom hpart _ ih =>
    rcases List.mem_cons.mp hmem with rfl | hmem
    · exact .inr (.inl hpart)
    · exact ih hmem
  | combinator hpart _ _ _ _ ih =>
    rcases List.mem_cons.mp hmem with rfl | hmem
    · exact .inr (.inr hpart)
    · exact ih hmem

/-- What comes after some plain parts is plain. -/
theorem of_append {nested : List Branch → Prop} {front rest : List Part}
    (hparts : IsPlainParts nested left (front ++ rest)) : ∃ left', IsPlainParts nested left' rest := by
  induction front generalizing left with
  | nil => exact ⟨left, hparts⟩
  | cons part front ih =>
    cases hparts with
    | tag _ _ hparts => exact ih hparts
    | atom _ hparts => exact ih hparts
    | combinator _ _ _ _ hparts => exact ih hparts

theorem isSegment_of_mem {parts : List Part}
    (hparts : IsPlainParts IsRecovered left parts) (hmem : part ∈ parts) : IsSegment part.text := by
  rcases hparts.cases_of_mem hmem with ⟨name, hname, rfl⟩ | hatom | hcombinator
  · exact (isSolid_tag hname).segment
  · exact hatom.isSolid.segment
  · exact hcombinator.isSegment

/-- Plain parts up to a simple selector are taken off the front of a text in which a name ends after
them. -/
theorem partsOf_append {front rest : List Part}
    (hparts : IsPlainParts IsRecovered left (front ++ part :: rest)) (hpart : ¬IsCombinator part)
    (htext : IsBoundary text) :
    partsOf (partsText (front ++ [part]) ++ text) = front ++ part :: partsOf text := by
  have hboundary (first : Part) (others : List Part) (back : List Char)
      (hfirst : IsPlainParts IsRecovered .name (first :: others)) : IsBoundary (first.text ++ back) := by
    cases hfirst with
    | tag _ hleft => exact absurd rfl hleft
    | atom hatom => exact hatom.isBoundary back
    | combinator hcombinator => exact hcombinator.isBoundary back
  have hstart (first : Part) (others : List Part) (back : List Char)
      (hfirst : IsPlainParts IsRecovered .combinator (first :: others)) :
      CanStart (first.text ++ back) := by
    have hsolid : IsSolid first := by
      cases hfirst with
      | tag hname => exact isSolid_tag hname
      | atom hatom => exact hatom.isSolid
      | combinator _ hleft => exact absurd rfl hleft
    intro c hc
    rw [List.head?_append, Option.or_of_isSome (List.isSome_head?.mpr hsolid.tight.nonempty)] at hc
    exact hsolid.starts c hc
  induction front generalizing left with
  | nil =>
    rw [List.nil_append, List.nil_append, partsText, partsText, List.append_nil]
    cases hparts with
    | tag hname => exact partsOf_tag hname htext.name
    | atom hatom => exact hatom.partsOf_eq fun _ => htext
    | combinator hcombinator => exact absurd hcombinator hpart
  | cons first front ih =>
    -- Something stands after the first part: the next one, or the one before the text.
    obtain ⟨next, others, hnext⟩ : ∃ next others, front ++ part :: rest = next :: others ∧
        ∃ back, partsText (front ++ [part]) ++ text = next.text ++ back := by
      cases front with
      | nil => exact ⟨part, rest, rfl, text, by simp [partsText]⟩
      | cons next front =>
        refine ⟨next, front ++ part :: rest, rfl, partsText (front ++ [part]) ++ text, ?_⟩
        rw [List.cons_append, partsText, List.append_assoc]
    obtain ⟨hrest, back, hback⟩ := hnext
    rw [List.cons_append, List.cons_append, partsText, List.append_assoc]
    cases hparts with
    | tag hname _ hparts =>
      have hends := hboundary next others back (hrest ▸ hparts)
      rw [← hback] at hends
      rw [Part.text, Leaf.text, partsOf_tag hname hends.name, ih hparts]
    | atom hatom hparts =>
      rw [hatom.partsOf_eq, ih hparts]
      intro hname
      rw [if_pos hname] at hparts
      rw [hback]
      exact hboundary next others back (hrest ▸ hparts)
    | combinator hcombinator _ _ _ hparts =>
      have hstarts := hstart next others back (hrest ▸ hparts)
      rw [← hback] at hstarts
      rw [hcombinator.partsOf_eq hstarts, ih hparts]

end IsPlainParts

/-! ### The scan for commas -/

/-- Whether a scan for commas goes through a text without a cut and, unless it may stop anywhere, comes
out of it outside quotes and brackets. -/
def goesThrough (anywhere : Bool) (text : List Char) : Bool :=
  (text.foldlM advanceSegment (.bare, .top)).any fun state => anywhere || state = (.bare, .top)

/-- A scan for commas goes through a level text in parentheses. -/
theorem IsLevel.foldlM_eq (htext : IsLevel text) (depth : Nat) :
    text.foldlM advanceSegment (.bare, .within .round (depth + 1)) =
      some (.bare, .within .round (depth + 1)) := by
  induction htext generalizing depth with
  | nil => rfl
  | @cons c text hc _ ih =>
    have hstep : advanceSegment (.bare, .within .round (depth + 1)) c =
        some (.bare, .within .round (depth + 1)) := by
      simp [advanceSegment, Quoting.step_of_isRawChar hc, Nesting.step,
        Brackets.closesAt_of_isRawChar hc, Brackets.depthAfter_of_isRawChar hc]
    rw [List.foldlM_cons, hstep]
    exact ih depth
  | @group inner text _ _ ihinner ih =>
    have hopening : advanceSegment (.bare, .within .round (depth + 1)) '(' =
        some (.bare, .within .round (depth + 1 + 1)) := rfl
    have hclosing : advanceSegment (.bare, .within .round (depth + 1 + 1)) ')' =
        some (.bare, .within .round (depth + 1)) := by
      simp [advanceSegment, Nesting.step, Brackets.closesAt, Brackets.depthAfter, Brackets.round,
        Quoting.step]
    rw [List.foldlM_cons, hopening, Option.bind_eq_bind, Option.bind_some, List.foldlM_append,
      ihinner (depth + 1), Option.bind_eq_bind, Option.bind_some, List.foldlM_cons, hclosing]
    exact ih depth

theorem IsSegment.foldlM_eq (htext : IsSegment text) :
    text.foldlM advanceSegment (.bare, .top) = some (.bare, .top) := by
  induction htext with
  | nil => rfl
  | @cons c text hc _ ih =>
    simp only [isSegmentChar, Bool.and_eq_true, bne_iff_ne] at hc
    obtain ⟨⟨⟨hraw, hcomma⟩, hsquare⟩, hcurly⟩ := hc
    have hround : c ≠ '(' := by
      rintro rfl
      exact absurd hraw (by decide)
    have hstep : advanceSegment (.bare, .top) c = some (.bare, .top) := by
      simp [advanceSegment, Quoting.step_of_isRawChar hraw, Nesting.step, hcomma, hround, hsquare,
        hcurly]
    rw [List.foldlM_cons, hstep]
    exact ih
  | @group inner text hinner _ ih =>
    have hopening : advanceSegment (.bare, .top) '(' = some (.bare, .within .round (0 + 1)) := rfl
    have hclosing : advanceSegment (.bare, .within .round (0 + 1)) ')' = some (.bare, .top) := rfl
    rw [List.foldlM_cons, hopening, Option.bind_eq_bind, Option.bind_some, List.foldlM_append,
      hinner.foldlM_eq, Option.bind_eq_bind, Option.bind_some, List.foldlM_cons, hclosing]
    exact ih

/-- A text through which the scan goes is one segment. -/
theorem splitCommas_of_foldlM {text : List Char} {state : Quoting × Nesting}
    (hthrough : text.foldlM advanceSegment (.bare, .top) = some state) : splitCommas text = [text] := by
  have hsingle := @splitCommas_of_arePart [text] ⟨state, hthrough⟩
  rwa [List.intercalate_singleton] at hsingle

/-- The scan cuts on a comma outside quotes and brackets. -/
theorem splitCommas_append {segment : List Char}
    (hthrough : segment.foldlM advanceSegment (.bare, .top) = some (.bare, .top)) (rest : List Char) :
    splitCommas (segment ++ ',' :: rest) = segment :: splitCommas rest := by
  rw [splitCommas, scanSegments_append_of_foldlM hthrough, scanSegments, if_pos ⟨rfl, rfl, rfl⟩]
  simp [splitCommas]

/-- A text through which the scan goes is put before the first segment. -/
theorem splitCommas_prepend {front : List Char}
    (hthrough : front.foldlM advanceSegment (.bare, .top) = some (.bare, .top)) {first : List Char}
    {others : List (List Char)} (hsplit : splitCommas text = first :: others) :
    splitCommas (front ++ text) = (front ++ first) :: others := by
  rw [splitCommas] at hsplit
  obtain ⟨hfirst, hothers⟩ := List.cons.inj hsplit
  rw [splitCommas, scanSegments_append_of_foldlM hthrough, hfirst, hothers]

theorem splitCommas_listText_append {front tail : List Branch}
    (hfront : ∀ branch ∈ front, IsSegment branch.text) (hne : tail ≠ []) :
    splitCommas (listText (front ++ tail)) =
      front.map Branch.text ++ splitCommas (listText tail) := by
  induction front with
  | nil => rfl
  | cons branch front ih =>
    rw [List.forall_mem_cons] at hfront
    obtain ⟨next, others, hothers⟩ :=
      List.exists_cons_of_ne_nil (List.append_ne_nil_of_right_ne_nil front hne)
    rw [List.cons_append, hothers, listText, splitCommas_append hfront.1.foldlM_eq, ← hothers,
      ih hfront.2, List.map_cons, List.cons_append]

/-- The scan stops at a comma that it reaches outside quotes and brackets. -/
theorem exists_comma_of_foldlM_eq_none {start : Quoting × Nesting}
    (hcut : text.foldlM advanceSegment start = none) :
    ∃ front back, text = front ++ ',' :: back ∧
      front.foldlM advanceSegment start = some (.bare, .top) := by
  induction text generalizing start with
  | nil => cases hcut
  | cons c text ih =>
    rw [List.foldlM_cons] at hcut
    cases hadvance : advanceSegment start c with
    | none =>
      rw [advanceSegment] at hadvance
      split at hadvance
      · rename_i hcomma
        obtain ⟨hbare, htop, rfl⟩ := hcomma
        exact ⟨[], text, rfl, congrArg some (Prod.ext hbare htop)⟩
      · cases hadvance
    | some next =>
      rw [hadvance] at hcut
      obtain ⟨front, back, rfl, hfront⟩ := ih hcut
      refine ⟨c :: front, back, rfl, ?_⟩
      rw [List.foldlM_cons, hadvance]
      exact hfront

/-! ### Open quotes and brackets -/

/-- A scan inside a quoted string, or inside brackets. -/
inductive IsOpen : Quoting × Nesting → Prop
  | quoted {mark : Char} {nesting : Nesting} (hmark : mark = '"' ∨ mark = '\'') :
      IsOpen (.inside mark, nesting)
  | bracketed {brackets : Brackets} {depth : Nat}
      (hbrackets : brackets ∈ [Brackets.round, .square, .curly]) :
      IsOpen (.bare, .within brackets (depth + 1))

/-- A character that is no quote, no backslash and no bracket other than a parenthesis. -/
def isQuietChar (c : Char) : Bool :=
  c != '"' && c != '\'' && c != '\\' && c != '[' && c != ']' && c != '{' && c != '}'

theorem foldlM_eq_of_forall (hstays : ∀ c ∈ text, advanceSegment state c = some state) :
    text.foldlM advanceSegment state = some state := by
  induction text with
  | nil => rfl
  | cons c text ih =>
    rw [List.forall_mem_cons] at hstays
    rw [List.foldlM_cons, hstays.1]
    exact ih hstays.2

/-- A level text without quotes and other brackets leads out of no quotes and no brackets. -/
theorem IsOpen.foldlM_eq (hopen : IsOpen state)
    (hlevel : IsLevel text) (hquiet : ∀ c ∈ text, isQuietChar c = true) :
    text.foldlM advanceSegment state = some state := by
  simp only [isQuietChar, Bool.and_eq_true, bne_iff_ne] at hquiet
  cases hopen with
  | @quoted mark nesting hmark =>
    refine foldlM_eq_of_forall fun c hc => ?_
    obtain ⟨⟨⟨⟨⟨⟨hdouble, hsingle⟩, hescape⟩, -⟩, -⟩, -⟩, -⟩ := hquiet c hc
    have hother : c ≠ mark := by rcases hmark with rfl | rfl <;> assumption
    have hnesting : Nesting.step (.inside mark) c nesting = nesting := by
      cases nesting <;> simp [Nesting.step, Brackets.closesAt, Brackets.depthAfter]
    simp [advanceSegment, Quoting.step, hescape, hother, hnesting]
  | @bracketed brackets depth hbrackets =>
    rcases List.mem_cons.mp hbrackets with rfl | hbrackets
    · exact hlevel.foldlM_eq depth
    · refine foldlM_eq_of_forall fun c hc => ?_
      obtain ⟨⟨⟨⟨⟨⟨hdouble, hsingle⟩, hescape⟩, hsquare⟩, hsquare'⟩, hcurly⟩, hcurly'⟩ := hquiet c hc
      have hother : c ≠ brackets.opening ∧ c ≠ brackets.closing := by
        rcases List.mem_cons.mp hbrackets with rfl | hbrackets
        · exact ⟨hsquare, hsquare'⟩
        · rw [List.mem_singleton.mp hbrackets]
          exact ⟨hcurly, hcurly'⟩
      simp [advanceSegment, Quoting.step, Nesting.step, Brackets.closesAt, Brackets.depthAfter,
        hdouble, hsingle, hescape, hother.1, hother.2]

/-- Where a scan can get: the quotes and brackets it is in are those it knows, and brackets around it are
open. -/
structure IsReached (state : Quoting × Nesting) : Prop where
  marks : ∀ mark, state.1 = .inside mark ∨ state.1 = .insideEscape mark → mark = '"' ∨ mark = '\''
  brackets : ∀ brackets depth, state.2 = .within brackets depth →
    brackets ∈ [Brackets.round, .square, .curly] ∧ depth ≠ 0

theorem IsReached.step {next : Quoting × Nesting} (hreached : IsReached state)
    (hadvance : advanceSegment state c = some next) : IsReached next := by
  obtain ⟨quoting, nesting⟩ := state
  rw [advanceSegment] at hadvance
  split at hadvance
  · cases hadvance
  · cases hadvance
    constructor
    · have hmarks := hreached.marks
      cases quoting <;> simp only [Quoting.step] <;> grind
    · have hbrackets := hreached.brackets
      cases nesting with
      | top => simp only [Nesting.step]; grind
      | within brackets depth =>
        simp only [Nesting.step, Brackets.closesAt, Brackets.depthAfter]
        grind

theorem IsReached.run {start : Quoting × Nesting} (hreached : IsReached start)
    (hthrough : text.foldlM advanceSegment start = some state) : IsReached state := by
  induction text generalizing start with
  | nil =>
    cases hthrough
    exact hreached
  | cons c text ih =>
    rw [List.foldlM_cons, Option.bind_eq_bind, Option.bind_eq_some_iff] at hthrough
    obtain ⟨next, hadvance, hothers⟩ := hthrough
    exact ih (hreached.step hadvance) hothers

/-- A character other than a comma does not cut. -/
theorem advanceSegment_of_ne (hc : c ≠ ',') (state : Quoting × Nesting) :
    advanceSegment state c = some (state.1.step c, state.2.step state.1 c) :=
  if_neg fun hcomma => hc hcomma.2.2

theorem foldlM_commentText (body : List Char) :
    (commentText body).foldlM advanceSegment (.bare, .top) =
      (body.foldlM advanceSegment (.bare, .top)).bind fun state =>
        some ((state.1.step '*').step '/',
          (state.2.step state.1 '*').step (state.1.step '*') '/') := by
  have hopening : ['/', '*'].foldlM advanceSegment (.bare, .top) = some (.bare, .top) := rfl
  have hsplit : commentText body = ['/', '*'] ++ (body ++ ['*', '/']) := rfl
  rw [hsplit, List.foldlM_append, hopening, Option.bind_eq_bind, Option.bind_some, List.foldlM_append]
  simp [advanceSegment_of_ne]

/-- After a comment the scan is outside quotes and brackets, or inside some that it knows. -/
theorem eq_or_isOpen_of_commentText {body : List Char}
    (hthrough : (commentText body).foldlM advanceSegment (.bare, .top) = some state) :
    state = (.bare, .top) ∨ IsOpen state := by
  have hreached : IsReached state := IsReached.run ⟨by simp, by simp⟩ hthrough
  have hquoting : state.1 = .bare ∨ ∃ mark, state.1 = .inside mark := by
    rw [foldlM_commentText, Option.bind_eq_some_iff] at hthrough
    obtain ⟨inner, -, hstate⟩ := hthrough
    cases hstate
    cases inner.1 <;> simp only [Quoting.step] <;> grind
  obtain ⟨quoting, nesting⟩ := state
  rcases hquoting with rfl | ⟨mark, rfl⟩
  · cases nesting with
    | top => exact .inl rfl
    | within brackets depth =>
      obtain ⟨hbrackets, hdepth⟩ := hreached.brackets brackets depth rfl
      obtain ⟨depth, rfl⟩ := Nat.exists_eq_succ_of_ne_zero hdepth
      exact .inr (.bracketed hbrackets)
  · exact .inr (.quoted (hreached.marks mark (.inl rfl)))

/-! ### Leaves and characters of plain lists -/

def Leaf.isComment : Leaf → Bool
  | comment _ => true
  | _ => false

/-- Whether a leaf is a pseudo-class whose argument is kept as it stands. -/
def Leaf.isRaw : Leaf → Bool
  | function _ _ => true
  | _ => false

theorem mem_listLeaves {branches : List Branch} {leaf : Leaf} :
    leaf ∈ listLeaves branches ↔
      ∃ branch ∈ branches, ∃ part ∈ branch.parts, leaf ∈ part.leaves := by
  have hleaves (branch : Branch) : branch.leaves = branch.parts.flatMap Part.leaves := by
    cases branch with
    | mk before parts after => rw [Branch.leaves, partsLeaves_eq_flatMap, Branch.parts]
  simp only [listLeaves_eq_flatMap, List.mem_flatMap, hleaves]

theorem isQuietChar_of_isWordChar (hc : isWordChar c = true) : isQuietChar c = true := by
  simp only [isQuietChar, Bool.and_eq_true, bne_iff_ne]
  refine ⟨⟨⟨⟨⟨⟨?_, ?_⟩, ?_⟩, ?_⟩, ?_⟩, ?_⟩, ?_⟩ <;> rintro rfl <;> exact absurd hc (by decide)

theorem isQuietChar_of_isAsciiBlank (hc : isAsciiBlank c = true) :
    isQuietChar c = true := by
  simp only [isQuietChar, Bool.and_eq_true, bne_iff_ne]
  refine ⟨⟨⟨⟨⟨⟨?_, ?_⟩, ?_⟩, ?_⟩, ?_⟩, ?_⟩, ?_⟩ <;> rintro rfl <;> exact absurd hc (by decide)

theorem forall_mem_listText {p : Char → Prop} {branches : List Branch} (hcomma : p ',')
    (hbranches : ∀ branch ∈ branches, ∀ c ∈ branch.text, p c) : ∀ c ∈ listText branches, p c := by
  match branches with
  | [] => simp [listText]
  | [branch] =>
    rw [listText]
    exact hbranches branch List.mem_cons_self
  | branch :: next :: others =>
    rw [List.forall_mem_cons] at hbranches
    rw [listText, List.forall_mem_append, List.forall_mem_cons]
    exact ⟨hbranches.1, hcomma, forall_mem_listText hcomma hbranches.2⟩

theorem IsCombinator.forall_isQuietChar (hpart : IsCombinator part) :
    ∀ c ∈ part.text, isQuietChar c = true := by
  have hblanks {blanks : List Char} (h : AreBlanks blanks) : ∀ c ∈ blanks, isQuietChar c = true :=
    fun c hc => isQuietChar_of_isAsciiBlank (h c hc)
  cases hpart with
  | descendant _ hdescendant => exact hblanks hdescendant
  | @sign sign before after hsign hbefore hafter =>
    have hsigns : ∀ sign ∈ signs, ∀ c ∈ sign, isQuietChar c = true := by decide
    rw [Part.text, Leaf.text, List.forall_mem_append, List.forall_mem_append]
    exact ⟨⟨hblanks hbefore, hsigns sign hsign⟩, hblanks hafter⟩

theorem IsAtom.forall_isQuietChar {nested : List Branch → Prop}
    (hpart : IsAtom nested part) (hraw : ∀ leaf ∈ part.leaves, leaf.isRaw = false)
    (hnested : ∀ branches, nested branches → (∀ leaf ∈ listLeaves branches, leaf.isRaw = false) →
      ∀ c ∈ listText branches, isQuietChar c = true) : ∀ c ∈ part.text, isQuietChar c = true := by
  have hname {name : List Char} (h : IsIdent name) : ∀ c ∈ name, isQuietChar c = true :=
    fun c hc => isQuietChar_of_isWordChar (h.word c hc)
  have hcolons {colons : List Char} (h : IsColons colons) : ∀ c ∈ colons, isQuietChar c = true := by
    rcases h with rfl | rfl <;> decide
  cases hpart with
  | universal => decide
  | nesting => decide
  | simple hsimple =>
    cases hsimple with
    | className h => exact List.forall_mem_cons.mpr ⟨by decide, hname h⟩
    | id h => exact List.forall_mem_cons.mpr ⟨by decide, hname h⟩
    | pseudo hc h => exact List.forall_mem_append.mpr ⟨hcolons hc, hname h⟩
    | function => simp [Part.leaves, Leaf.isRaw] at hraw
    | list hc h _ hbranches =>
      rw [Part.leaves] at hraw
      simp only [Part.text, List.forall_mem_append, List.forall_mem_singleton]
      exact ⟨⟨⟨⟨hcolons hc, hname h⟩, by decide⟩, hnested _ hbranches hraw⟩, by decide⟩

/-- Without raw arguments a plain list has no quotes and no brackets other than parentheses. -/
theorem IsPlain.forall_isQuietChar {depth : Nat} {branches : List Branch}
    (hplain : IsPlain depth branches) (hraw : ∀ leaf ∈ listLeaves branches, leaf.isRaw = false) :
    ∀ c ∈ listText branches, isQuietChar c = true := by
  induction depth generalizing branches with
  | zero => exact hplain.elim
  | succ depth ih =>
    refine forall_mem_listText (by decide) fun branch hbranch => ?_
    obtain @⟨before, after, parts, hbefore, hafter, -, hparts⟩ := hplain.2 branch hbranch
    rw [Branch.text, List.forall_mem_append, List.forall_mem_append]
    refine ⟨⟨fun c hc => isQuietChar_of_isAsciiBlank (hbefore c hc), fun c hc => ?_⟩,
      fun c hc => isQuietChar_of_isAsciiBlank (hafter c hc)⟩
    rw [partsText_eq_flatMap, List.mem_flatMap] at hc
    obtain ⟨part, hpart, hc⟩ := hc
    rcases hparts.cases_of_mem hpart with ⟨name, hname, rfl⟩ | hatom | hcombinator
    · exact isQuietChar_of_isWordChar (hname.word c hc)
    · refine hatom.forall_isQuietChar (fun leaf hleaf => ?_) (fun _ => ih) c hc
      exact hraw leaf (mem_listLeaves.mpr ⟨_, hbranch, part, hpart, hleaf⟩)
    · exact hcombinator.forall_isQuietChar c hc

theorem IsPlain.isComment_eq_false {depth : Nat} {branches : List Branch}
    (hplain : IsPlain depth branches) : ∀ leaf ∈ listLeaves branches, leaf.isComment = false := by
  induction depth generalizing branches with
  | zero => exact hplain.elim
  | succ depth ih =>
    intro leaf hleaf
    have hother {simple : Leaf} (hsimple : simple.isComment = false)
        (hmem : leaf ∈ (Part.leaf simple).leaves) : leaf.isComment = false := by
      rw [Part.leaves, List.mem_singleton] at hmem
      rw [hmem, hsimple]
    obtain ⟨branch, hbranch, part, hpart, hleaf⟩ := mem_listLeaves.mp hleaf
    obtain @⟨before, after, parts, -, -, -, hparts⟩ := hplain.2 branch hbranch
    rcases hparts.cases_of_mem hpart with ⟨name, -, rfl⟩ | hatom | hcombinator
    · exact hother rfl hleaf
    · cases hatom with
      | universal => exact hother rfl hleaf
      | nesting => exact hother rfl hleaf
      | simple hsimple =>
        cases hsimple with
        | list _ _ _ hbranches =>
          rw [Part.leaves] at hleaf
          exact ih hbranches leaf hleaf
        | _ => exact hother rfl hleaf
    · cases hcombinator with
      | _ => exact hother rfl hleaf

/-! ### A comment in its place -/

theorem trimEnd_append_cons (hc : isBlank c = false) (front back : List Char) :
    trimEnd (front ++ c :: back) = front ++ c :: trimEnd back := by
  simp only [trimEnd, List.reverse_append, List.reverse_cons, List.append_assoc, List.dropWhile_append]
  split
  · rename_i hblank
    rw [List.isEmpty_iff] at hblank
    simp [hblank, hc]
  · simp

/-- A place in a selector list: in one of its branches, between the parts up to there and the rest. -/
structure Place where
  front : List Branch
  before : List Char
  upTo : List Part
  rest : List Part
  after : List Char
  back : List Branch

namespace Place

/-- The branch with some parts put into the place. -/
def branch (place : Place) (inserted : List Part) : Branch :=
  .mk place.before (place.upTo ++ inserted ++ place.rest) place.after

/-- The list with some parts put into the place. -/
def around (place : Place) (inserted : List Part) : List Branch :=
  place.front ++ place.branch inserted :: place.back

/-- Whether the place is directly after a simple selector. -/
def IsAfterSimple (place : Place) : Prop :=
  ∃ parts part, place.upTo = parts ++ [part] ∧ ¬IsCombinator part

/-- The place in the list with the legacy combinators on both of its sides replaced. -/
def modernized (place : Place) : Place :=
  { front := modernizeList place.front
    before := place.before
    upTo := modernizeParts true place.upTo
    rest := modernizeParts false place.rest
    after := place.after
    back := modernizeList place.back }

end Place

theorem modernizeParts_append (hpart : ∀ leaf, part = .leaf leaf → leaf.isLegacy = false)
    (first : Bool) (front rest : List Part) :
    modernizeParts first (front ++ part :: rest) =
      modernizeParts first (front ++ [part]) ++ modernizeParts false rest := by
  induction front generalizing first with
  | nil =>
    cases part with
    | leaf leaf => simp [modernizeParts, hpart leaf rfl]
    | list value branches => simp [modernizeParts]
  | cons other front ih =>
    have hlast : (front ++ part :: rest).isEmpty = (front ++ [part]).isEmpty := by
      cases front <;> rfl
    cases other with
    | leaf leaf => simp [modernizeParts, ih, hlast]
    | list value branches => simp [modernizeParts, ih]

/-- The text of a list from a place in its first branch on is that of a list. -/
theorem listText_cons_append (before : List Char) (front rest : List Part) (after : List Char)
    (back : List Branch) :
    listText (.mk before (front ++ rest) after :: back) =
      before ++ partsText front ++ listText (.mk [] rest after :: back) := by
  cases back <;> simp [listText, Branch.text, partsText_append]

theorem read_listText_append {front tail : List Branch}
    (hfront : ∀ branch ∈ front, IsReadBranch branch) (hne : tail ≠ [])
    (hvisible : isAllBlank (listText tail) = false) :
    read (listText (front ++ tail)) =
      front ++ (splitCommas (listText tail)).map (Branch.ofSegment read) := by
  have hsame : (front.map Branch.text).map (Branch.ofSegment read) = front := by
    rw [List.map_map]
    exact (List.map_congr_left fun branch hmem => (hfront branch hmem).ofSegment_eq).trans
      (List.map_id front)
  have hsegments := splitCommas_listText_append (fun branch hmem => (hfront branch hmem).segment) hne
  have hvisible' : isAllBlank (listText (front ++ tail)) = false := by
    cases front with
    | nil => exact hvisible
    | cons branch front =>
      have hbranch := (hfront branch List.mem_cons_self).visible
      obtain ⟨next, others, hothers⟩ :=
        List.exists_cons_of_ne_nil (List.append_ne_nil_of_right_ne_nil front hne)
      rw [isAllBlank] at hbranch ⊢
      rw [List.cons_append, hothers, listText, List.all_append, hbranch, Bool.false_and]
  rw [read_eq, hvisible', if_neg Bool.false_ne_true, hsegments, List.map_append, hsame]

namespace Place

variable {place : Place} {depth : Nat} {body : List Char}

theorem listText_branch (place : Place) (inserted : List Part) :
    listText (place.branch inserted :: place.back) =
      place.before ++ partsText place.upTo ++ (partsText inserted ++
        listText (.mk [] place.rest place.after :: place.back)) := by
  rw [branch, listText_cons_append, partsText_append, List.append_assoc, List.append_assoc,
    List.append_assoc]

section Plain

variable (hplain : IsPlain depth (place.around []))
include hplain

theorem isPlainBranch_around :
    ∀ branch ∈ place.around [], IsPlainBranch IsRecovered branch := by
  intro branch hbranch
  cases depth with
  | zero => exact hplain.elim
  | succ depth =>
    obtain ⟨hbefore, hafter, hne, hparts⟩ := hplain.2 branch hbranch
    exact .mk hbefore hafter hne (hparts.mono fun _ => IsPlain.isRecovered)

theorem isReadBranch_front : ∀ branch ∈ place.front, IsReadBranch branch := fun branch hmem =>
  (isPlainBranch_around hplain branch (List.mem_append_left _ hmem)).isReadBranch

theorem isReadBranch_back : ∀ branch ∈ place.back, IsReadBranch branch := fun branch hmem =>
  (isPlainBranch_around hplain branch
    (List.mem_append_right _ (List.mem_cons_of_mem _ hmem))).isReadBranch

theorem isPlainParts_around : AreBlanks place.before ∧ AreBlanks place.after ∧
    IsPlainParts IsRecovered .edge (place.upTo ++ place.rest) := by
  have hbranch := isPlainBranch_around hplain _ (List.mem_append_right _ List.mem_cons_self)
  rw [branch, List.append_nil] at hbranch
  obtain ⟨hbefore, hafter, -, hparts⟩ := hbranch
  exact ⟨hbefore, hafter, hparts⟩

/-- The text before the place is a segment. -/
theorem isSegment_upTo : IsSegment (place.before ++ partsText place.upTo) := by
  obtain ⟨hbefore, -, hparts⟩ := isPlainParts_around hplain
  refine hbefore.isSegment.append (isSegment_partsText fun part hmem => ?_)
  exact hparts.isSegment_of_mem (List.mem_append_left _ hmem)

/-- What comes after the place is a list of segments. -/
theorem isSegment_rest :
    ∀ branch ∈ Branch.mk [] place.rest place.after :: place.back, IsSegment branch.text := by
  obtain ⟨-, hafter, hparts⟩ := isPlainParts_around hplain
  refine List.forall_mem_cons.mpr ⟨?_, fun branch hmem => (isReadBranch_back hplain branch hmem).segment⟩
  rw [Branch.text, List.nil_append]
  refine (isSegment_partsText fun part hmem => ?_).append hafter.isSegment
  exact hparts.isSegment_of_mem (List.mem_append_right _ hmem)

theorem forall_isQuietChar_rest
    (hraw : ∀ leaf ∈ listLeaves (place.around []), leaf.isRaw = false) :
    ∀ c ∈ listText (.mk [] place.rest place.after :: place.back), isQuietChar c = true := by
  have hsub : ∀ branch ∈ place.branch [] :: place.back, branch ∈ place.around [] :=
    fun branch hmem => List.mem_append_right _ hmem
  have htail : IsPlain depth (place.branch [] :: place.back) := by
    cases depth with
    | zero => exact hplain.elim
    | succ depth => exact ⟨List.cons_ne_nil _ _, fun branch hmem => hplain.2 branch (hsub branch hmem)⟩
  intro c hc
  refine htail.forall_isQuietChar (fun leaf hleaf => ?_) c ?_
  · obtain ⟨branch, hbranch, hleaf⟩ := mem_listLeaves.mp hleaf
    exact hraw leaf (mem_listLeaves.mpr ⟨branch, hsub branch hbranch, hleaf⟩)
  · rw [listText_branch]
    exact List.mem_append_right _ (List.mem_append_right _ hc)

theorem modernizeList_around (hsimple : place.IsAfterSimple) {inserted : List Part}
    (hinserted : modernizeParts false (inserted ++ place.rest) =
      inserted ++ modernizeParts false place.rest) :
    modernizeList (place.around inserted) = place.modernized.around inserted := by
  obtain ⟨parts, part, hupTo, hpart⟩ := hsimple
  obtain ⟨-, -, hparts⟩ := isPlainParts_around hplain
  have hlegacy : ∀ leaf, part = .leaf leaf → leaf.isLegacy = false := by
    rintro leaf rfl
    have hmem : .leaf leaf ∈ place.upTo ++ place.rest := by simp [hupTo]
    rcases hparts.cases_of_mem hmem with ⟨name, -, hleaf⟩ | hatom | hcombinator
    · cases hleaf
      rfl
    · cases hatom with
      | simple h =>
        cases h with
        | _ => rfl
      | _ => rfl
    · exact absurd hcombinator hpart
  have hsplit : modernizeParts true (place.upTo ++ inserted ++ place.rest) =
      modernizeParts true place.upTo ++ inserted ++ modernizeParts false place.rest := by
    rw [hupTo, List.append_assoc, List.append_assoc, List.singleton_append,
      modernizeParts_append hlegacy, hinserted, List.append_assoc]
  rw [around, around, modernizeList_eq_map, List.map_append, List.map_cons, branch, Branch.modernize,
    hsplit, ← modernizeList_eq_map, ← modernizeList_eq_map]
  rfl

end Plain

/-- The comment with the given text, as a part. -/
def commentPart (body : List Char) : List Part :=
  [.leaf (.comment (commentText body))]

theorem partsText_commentPart (body : List Char) : partsText (commentPart body) = commentText body := by
  rw [commentPart, partsText, partsText, Part.text, Leaf.text, List.append_nil]

section Commented

variable (hplain : IsPlain depth (place.around [])) (hsimple : place.IsAfterSimple)

include hplain in
/-- A comment that leaves no quote and no bracket open leaves the segments apart. -/
theorem splitCommas_of_top
    (hthrough : (commentText body).foldlM advanceSegment (.bare, .top) = some (.bare, .top)) :
    splitCommas (listText (place.branch (commentPart body) :: place.back)) =
      (place.branch (commentPart body) :: place.back).map Branch.text := by
  have hrest := splitCommas_listText (List.cons_ne_nil _ _) (isSegment_rest hplain)
  rw [listText_branch, partsText_commentPart,
    splitCommas_prepend (isSegment_upTo hplain).foldlM_eq (splitCommas_prepend hthrough hrest)]
  simp [branch, Branch.text, partsText_append, partsText_commentPart]

include hplain in
/-- A comment that leaves a quote or a bracket open makes one segment of all that is left. -/
theorem splitCommas_of_isOpen (hraw : ∀ leaf ∈ listLeaves (place.around []), leaf.isRaw = false)
    (hopen : IsOpen state)
    (hthrough : (commentText body).foldlM advanceSegment (.bare, .top) = some state) :
    splitCommas (listText (place.branch (commentPart body) :: place.back)) =
      [listText (place.branch (commentPart body) :: place.back)] := by
  have hrest := hopen.foldlM_eq (isLevel_listText (isSegment_rest hplain))
    (forall_isQuietChar_rest hplain hraw)
  apply @splitCommas_of_foldlM _ state
  rw [listText_branch, partsText_commentPart, List.foldlM_append, (isSegment_upTo hplain).foldlM_eq,
    Option.bind_eq_bind, Option.bind_some, List.foldlM_append, hthrough]
  exact hrest

include hplain in
/-- A comment with a comma outside quotes and brackets is cut there. -/
theorem splitCommas_of_cut (hcut : (commentText body).foldlM advanceSegment (.bare, .top) = none) :
    ∃ front back others, body = front ++ ',' :: back ∧
      splitCommas (listText (place.branch (commentPart body) :: place.back)) =
        (place.before ++ partsText place.upTo ++ '/' :: '*' :: front) :: others := by
  rw [foldlM_commentText, Option.bind_eq_none_iff] at hcut
  obtain ⟨front, back, rfl, hfront⟩ : ∃ front back, body = front ++ ',' :: back ∧
      front.foldlM advanceSegment (.bare, .top) = some (.bare, .top) := by
    refine exists_comma_of_foldlM_eq_none (Option.eq_none_iff_forall_ne_some.mpr fun state hstate => ?_)
    exact absurd (hcut state hstate) (by simp)
  have hstart : ('/' :: '*' :: front).foldlM advanceSegment (.bare, .top) = some (.bare, .top) := hfront
  have htext : listText (place.branch (commentPart (front ++ ',' :: back)) :: place.back) =
      place.before ++ partsText place.upTo ++ ('/' :: '*' :: front ++ ',' ::
        (back ++ ['*', '/'] ++ listText (.mk [] place.rest place.after :: place.back))) := by
    rw [listText_branch, partsText_commentPart, commentText]
    simp
  rw [htext]
  exact ⟨front, back, _, rfl,
    splitCommas_prepend (isSegment_upTo hplain).foldlM_eq (splitCommas_append hstart _)⟩

include hplain hsimple

/-- The parts up to the place are taken off the front of a text that goes on with a comment. -/
theorem partsOf_upTo (text : List Char) :
    partsOf (partsText place.upTo ++ '/' :: '*' :: text) =
      place.upTo ++ partsOf ('/' :: '*' :: text) := by
  obtain ⟨parts, part, hupTo, hpart⟩ := hsimple
  obtain ⟨-, -, hparts⟩ := isPlainParts_around hplain
  rw [hupTo, List.append_assoc, List.singleton_append] at hparts
  rw [hupTo, hparts.partsOf_append hpart (isBoundary_comment text), List.append_assoc,
    List.singleton_append]

/-- The text up to the place does not begin with a blank. -/
theorem head?_upTo (text : List Char) :
    ∀ c ∈ (partsText place.upTo ++ text).head?, isBlank c = false := by
  obtain ⟨parts, part, hupTo, hpart⟩ := hsimple
  obtain ⟨-, -, hparts⟩ := isPlainParts_around hplain
  have hsolid : IsSolid part := by
    rcases hparts.cases_of_mem (show part ∈ place.upTo ++ place.rest by simp [hupTo]) with
      ⟨name, hname, rfl⟩ | hatom | hcombinator
    · exact isSolid_tag hname
    · exact hatom.isSolid
    · exact absurd hcombinator hpart
  have hsome : (partsText place.upTo).head?.isSome := by
    rw [List.isSome_head?, hupTo, partsText_append]
    exact List.append_ne_nil_of_right_ne_nil _ (by simp [partsText, hsolid.tight.nonempty])
  have hfirst := (hparts.isTight (by simp [hupTo])).first
  rw [partsText_append, List.head?_append, Option.or_of_isSome hsome] at hfirst
  rw [List.head?_append, Option.or_of_isSome hsome]
  exact hfirst

/-- A branch with a comment in it is read as it was, with the comment in its place. -/
theorem ofSegment_branch_comment (hbody : ¬['*', '/'] <:+: body) :
    Branch.ofSegment read (place.branch (commentPart body)).text = place.branch (commentPart body) := by
  obtain ⟨hbefore, hafter, hparts⟩ := isPlainParts_around hplain
  obtain ⟨left, hrest⟩ := hparts.of_append
  have htight : IsTight (partsText (place.upTo ++ commentPart body ++ place.rest)) := by
    rw [partsText_append, partsText_append, partsText_commentPart, List.append_assoc]
    refine ⟨by simp [commentText], head?_upTo hplain hsimple _, ?_⟩
    have hcomment : (commentText body).getLast? = some '/' := by simp [commentText, List.getLast?_cons]
    rw [List.getLast?_append, List.getLast?_append, hcomment]
    cases hlast : (partsText place.rest).getLast? with
    | none =>
      rintro c hc
      cases hc
      rfl
    | some last =>
      rintro c hc
      cases hc
      exact hrest.isBlank_getLast? last hlast
  have hcomment : partsOf (commentText body ++ partsText place.rest) = commentPart body ++ place.rest := by
    rw [commentText, List.cons_append, List.cons_append, List.append_assoc, partsOf_comment,
      List.cons_append, List.singleton_append, takeBlockComment_of_closed hbody, hrest.partsOf_eq]
    rfl
  rw [branch, Branch.text, htight.ofSegment_eq hbefore hafter, partsText_append, partsText_append,
    partsText_commentPart, List.append_assoc, List.append_assoc]
  rw [commentText, List.cons_append, List.cons_append] at hcomment ⊢
  rw [partsOf_upTo hplain hsimple, hcomment]

/-- A comment that is cut is read up to the cut, without the blanks before it. -/
theorem mem_parts_of_cut {front : List Char} (hfront : ¬['*', '/'] <:+: front) :
    .leaf (.comment ('/' :: '*' :: trimEnd front)) ∈
      (Branch.ofSegment read (place.before ++ partsText place.upTo ++ '/' :: '*' :: front)).parts := by
  obtain ⟨hbefore, -, -⟩ := isPlainParts_around hplain
  have htrimmed : trimEnd front <+: front := ⟨_, trimEnd_append_trailingBlanks front⟩
  have htrim : trim (place.before ++ partsText place.upTo ++ '/' :: '*' :: front) =
      partsText place.upTo ++ '/' :: '*' :: trimEnd front := by
    have hstart : trimStart (partsText place.upTo ++ '/' :: '*' :: front) =
        partsText place.upTo ++ '/' :: '*' :: front := by
      have hhead := head?_upTo hplain hsimple ('/' :: '*' :: front)
      generalize partsText place.upTo ++ '/' :: '*' :: front = text at hhead ⊢
      cases text with
      | nil => rfl
      | cons c text => simp [trimStart, hhead c rfl]
    rw [trim, List.append_assoc, trimStart_append fun c hc => isBlank_of_isAsciiBlank (hbefore c hc),
      hstart, List.append_cons, trimEnd_append_cons (by decide), ← List.append_cons]
  rw [Branch.ofSegment, Branch.parts, htrim]
  show _ ∈ partsOf _
  rw [partsOf_upTo hplain hsimple, partsOf_comment,
    takeBlockComment_of_unclosed fun hinside => hfront (hinside.trans htrimmed.isInfix)]
  exact List.mem_append_right _ List.mem_cons_self

omit hsimple in
theorem read_around_comment_eq (body : List Char) :
    read (listText (place.around (commentPart body))) =
      place.front ++ (splitCommas (listText (place.branch (commentPart body) :: place.back))).map
        (Branch.ofSegment read) := by
  refine read_listText_append (isReadBranch_front hplain) (List.cons_ne_nil _ _) ?_
  have hslash : isBlank '/' = false := rfl
  simp [listText_branch, partsText_commentPart, commentText, isAllBlank, hslash]

variable (hraw : ∀ leaf ∈ listLeaves (place.around []), leaf.isRaw = false)
  (hbody : ¬['*', '/'] <:+: body)
include hraw hbody

/-- Where the scan goes through a comment, the list is read as it was, with the comment in its place. -/
theorem read_around_comment (hthrough : goesThrough place.back.isEmpty (commentText body) = true) :
    read (listText (place.around (commentPart body))) = place.around (commentPart body) := by
  have hsplit : splitCommas (listText (place.branch (commentPart body) :: place.back)) =
      (place.branch (commentPart body) :: place.back).map Branch.text := by
    rw [goesThrough, Option.any_eq_true] at hthrough
    obtain ⟨state, hfold, hstate⟩ := hthrough
    rcases eq_or_isOpen_of_commentText hfold with rfl | hopen
    · exact splitCommas_of_top hplain hfold
    · -- The scan is still inside something, so the branch is the last one.
      have hback : place.back = [] := by
        rw [Bool.or_eq_true, List.isEmpty_iff, decide_eq_true_eq] at hstate
        refine hstate.resolve_right ?_
        rintro rfl
        cases hopen
      rw [splitCommas_of_isOpen hplain hraw hopen hfold, hback, listText, List.map_singleton]
  have hback : (place.back.map Branch.text).map (Branch.ofSegment read) = place.back := by
    rw [List.map_map]
    exact (List.map_congr_left fun branch hmem =>
      (isReadBranch_back hplain branch hmem).ofSegment_eq).trans (List.map_id place.back)
  rw [read_around_comment_eq hplain, hsplit, List.map_cons, List.map_cons, hback,
    ofSegment_branch_comment hplain hsimple hbody, around]

/-- Where the scan does not go through a comment, branches are lost, or the comment is. -/
theorem goesThrough_of_read
    (hlength : (read (listText (place.around (commentPart body)))).length = (place.around []).length)
    (hcomments : (listLeaves (read (listText (place.around (commentPart body))))).filter
      Leaf.isComment = [.comment (commentText body)]) :
    goesThrough place.back.isEmpty (commentText body) = true := by
  rw [read_around_comment_eq hplain] at hlength hcomments
  cases hfold : (commentText body).foldlM advanceSegment (.bare, .top) with
  | some state =>
    rw [goesThrough, hfold, Option.any_some, Bool.or_eq_true, List.isEmpty_iff, decide_eq_true_eq]
    rcases eq_or_isOpen_of_commentText hfold with hstate | hopen
    · exact .inr hstate
    · rw [splitCommas_of_isOpen hplain hraw hopen hfold, around] at hlength
      simp only [List.length_append, List.map_singleton, List.length_cons, List.length_nil] at hlength
      exact .inl (List.length_eq_zero_iff.mp (by omega))
  | none =>
    obtain ⟨front, back, others, hcut, hsplit⟩ := splitCommas_of_cut hplain hfold
    have hfront : ¬['*', '/'] <:+: front := fun hinside =>
      hbody (hinside.trans ⟨[], ',' :: back, by simp [hcut]⟩)
    have hmem : Leaf.comment ('/' :: '*' :: trimEnd front) ∈ [Leaf.comment (commentText body)] := by
      rw [← hcomments, List.mem_filter, mem_listLeaves, hsplit, List.map_cons]
      exact ⟨⟨_, List.mem_append_right _ List.mem_cons_self, _, mem_parts_of_cut hplain hsimple hfront,
        List.mem_singleton_self _⟩, rfl⟩
    have hshort := congrArg List.length (trimEnd_append_trailingBlanks front)
    rw [List.mem_singleton, Leaf.comment.injEq] at hmem
    have hlong := congrArg List.length hmem
    simp only [commentText, hcut, List.length_cons, List.length_append, List.length_nil] at hlong hshort
    omega

omit hsimple hraw hbody in
/-- The comment in the place is the only one. -/
theorem filter_isComment_around (comment : List Char) :
    (listLeaves (place.around [.leaf (.comment comment)])).filter Leaf.isComment =
      [.comment comment] := by
  have hleaves (inserted : List Part) : listLeaves (place.around inserted) =
      listLeaves place.front ++ partsLeaves place.upTo ++
        (partsLeaves inserted ++ (partsLeaves place.rest ++ listLeaves place.back)) := by
    simp [around, branch, listLeaves_eq_flatMap, Branch.leaves, partsLeaves_eq_flatMap]
  have hnone := List.filter_eq_nil_iff.mpr fun leaf hleaf =>
    Bool.eq_false_iff.mp (hplain.isComment_eq_false leaf hleaf)
  rw [hleaves, partsLeaves, List.nil_append, List.filter_append, List.append_eq_nil_iff] at hnone
  rw [hleaves, List.filter_append, hnone.1, List.filter_append, hnone.2]
  simp [partsLeaves, Part.leaves, Leaf.isComment]

end Commented

end Place

/-- A comment after a simple selector of a plain list leaves the branches apart, is the only comment that is
read and is read with its full text, and legacy combinators are replaced on both sides of it as they are
without it, exactly when the scan for commas goes through it. -/
theorem isInert_commentText_iff {place : Place} {depth : Nat} {body : List Char}
    (hplain : IsPlain depth (place.around []))
    (hraw : ∀ leaf ∈ listLeaves (place.around []), leaf.isRaw = false)
    (hsimple : place.IsAfterSimple) (hbody : ¬['*', '/'] <:+: body) :
    let comment := commentText body
    let without := read (listText (place.around []))
    let commented := read (listText (place.around [.leaf (.comment comment)]))
    (commented.length = without.length ∧
        (listLeaves commented).filter Leaf.isComment = [.comment comment] ∧
        modernizeList without = place.modernized.around [] ∧
        modernizeList commented = place.modernized.around [.leaf (.comment comment)]) ↔
      goesThrough place.back.isEmpty comment = true := by
  intro comment without commented
  have hwithout : without = place.around [] := hplain.isRecovered.read_eq
  constructor
  · rintro ⟨hlength, hcomments, -⟩
    rw [hwithout] at hlength
    exact Place.goesThrough_of_read hplain hsimple hraw hbody hlength hcomments
  · intro hthrough
    have hcommented : commented = place.around [.leaf (.comment comment)] :=
      Place.read_around_comment hplain hsimple hraw hbody hthrough
    rw [hcommented, hwithout]
    refine ⟨by simp [Place.around], ?_, Place.modernizeList_around hplain hsimple rfl,
      Place.modernizeList_around hplain hsimple (by simp [modernizeParts, Leaf.isLegacy])⟩
    exact Place.filter_isComment_around hplain comment

/-- A comment with commas in brackets, in quotes and after a backslash, and with a legacy combinator, in the
second branch of `a > b, .c >>> d, e`. -/
theorem isInert_commentText_hidden :
    let place : Place :=
      { front := [.mk [] [.leaf (.tag ['a']), spelled ['>'] [' '] [' '], .leaf (.tag ['b'])] []]
        before := [' ']
        upTo := [.leaf (.className ['.', 'c'])]
        rest := [spelled ['>', '>', '>'] [' '] [' '], .leaf (.tag ['d'])]
        after := []
        back := [.mk [' '] [.leaf (.tag ['e'])] []] }
    let comment := commentText "[,] ',' \\, (>>>)".toList
    let commented := read (listText (place.around [.leaf (.comment comment)]))
    listText (place.around [.leaf (.comment comment)]) =
        "a > b, .c/*[,] ',' \\, (>>>)*/ >>> d, e".toList ∧
      IsPlain 1 (place.around []) ∧ goesThrough place.back.isEmpty comment = true ∧
      commented.length = 3 ∧ (listLeaves commented).filter Leaf.isComment = [.comment comment] ∧
      listText (modernizeList commented) = "a > b, .c/*[,] ',' \\, (>>>)*/ :deep d, e".toList := by
  intro place comment commented
  have hplain : IsPlain 1 (place.around []) := by
    refine ⟨by simp [Place.around], ?_⟩
    simp only [Place.around, Place.branch, place, List.append_nil, List.cons_append, List.nil_append,
      List.forall_mem_cons]
    refine ⟨.mk (by decide) (by decide) (by simp) ?_, .mk (by decide) (by decide) (by simp) ?_,
      .mk (by decide) (by decide) (by simp) ?_, by simp⟩
    · refine .tag (by decide +kernel) (by simp) (.combinator ?_ (by simp) (by simp) (by simp) ?_)
      · exact .sign (by decide) (by decide) (by decide)
      · exact .tag (by decide +kernel) (by simp) .nil
    · refine .atom (.simple (@IsSimple.className _ ['c'] (by decide +kernel)))
        (.combinator ?_ (by simp [Part.endsOnName]) (by simp [Part.endsOnName]) (by simp) ?_)
      · exact .sign (by decide) (by decide) (by decide)
      · exact .tag (by decide +kernel) (by simp) .nil
    · exact .tag (by decide +kernel) (by simp) .nil
  have hthrough : goesThrough place.back.isEmpty comment = true := by decide +kernel
  have hinert := (isInert_commentText_iff hplain (by decide +kernel)
    ⟨[], .leaf (.className ['.', 'c']), rfl, by rintro ⟨⟩⟩ (by decide +kernel)).mpr hthrough
  refine ⟨by decide +kernel, hplain, hthrough, ?_, hinert.2.1, ?_⟩
  · rw [hinert.1, hplain.isRecovered.read_eq]
    rfl
  · rw [hinert.2.2.2]
    decide +kernel

/-- A comma in a comment parts the selector. -/
theorem read_comma_in_comment :
    let place : Place :=
      { front := [], before := [], upTo := [.leaf (.tag ['a'])], rest := [], after := [], back := [] }
    let comment := commentText [',']
    listText (place.around [.leaf (.comment comment)]) = "a/*,*/".toList ∧
      IsPlain 1 (place.around []) ∧ (read "a".toList).length = 1 ∧
      (read "a/*,*/".toList).length = 2 ∧
      (listLeaves (read "a/*,*/".toList)).filter Leaf.isComment = [.comment "/*".toList] := by
  intro place comment
  refine ⟨by decide +kernel, ⟨by simp [Place.around], ?_⟩, by decide +kernel, by decide +kernel,
    by decide +kernel⟩
  refine List.forall_mem_singleton.mpr (.mk (by decide) (by decide) (by simp [place]) ?_)
  exact .tag (by decide +kernel) (by simp) .nil

end StyleMigration.Selector
