import StyleMigration.Proofs.Selector.Compound
import StyleMigration.Proofs.Selector.Deep
import StyleMigration.Proofs.Selector.Exchange

/-!
The pieces of a modern selector, read again. The `:deep` that takes the place of a legacy combinator is
written between other pieces. No piece takes it up or is taken up by it, since it is set off by spaces and
no piece looks beyond the first of them (`continues_modernText`). Only the blanks beside another combinator
come together with it, so the pieces that are read are not those that were written; but none of them is a
legacy combinator, and every argument ends where it ended before (`hasModernPieces_modernText`).
-/

set_option autoImplicit false

namespace StyleMigration.Selector

open Text

variable {text rest : List Char} {piece : Piece} {c : Char}

/-! ### Modern texts -/

/-- A text that is read with nothing unclosed and without legacy combinators, at any depth. -/
structure IsModern (text : List Char) : Prop where
  closed : unclosed text = 0
  modern : ∀ leaf ∈ listLeaves (read text), leaf.isLegacy = false

/-- A piece with nothing unclosed and without legacy combinators. -/
def Piece.IsModern : Piece → Prop
  | .leaf simple => simple.isLegacy = false
  | .call _ name span => isClosed span = true ∧
      ((takesList name && !isAllBlank (argumentOf span)) = true → Selector.IsModern (argumentOf span))

theorem Piece.IsModern.unclosed_eq_zero (hmodern : piece.IsModern) :
    piece.unclosed (Selector.unclosed piece.argument) = 0 := by
  cases piece with
  | leaf simple => rfl
  | call colons name span =>
    rw [Piece.unclosed, if_pos hmodern.1, Nat.zero_add]
    split
    · rename_i hlist
      exact (hmodern.2 hlist).closed
    · rfl

theorem Piece.IsModern.isLegacy_eq_false (hmodern : piece.IsModern) :
    ∀ leaf ∈ (piece.toPart read).leaves, leaf.isLegacy = false := by
  cases piece with
  | leaf simple =>
    rw [Piece.toPart, Part.leaves, List.forall_mem_singleton]
    exact hmodern
  | call colons name span =>
    simp only [Piece.toPart]
    split
    · rename_i hlist
      rw [Part.leaves]
      exact (hmodern.2 hlist).modern
    · rw [Part.leaves, List.forall_mem_singleton]
      rfl

theorem isModern_of_pieces
    (hpieces : ∀ segment ∈ splitCommas text, ∀ piece ∈ pieces (trim segment), piece.IsModern) :
    IsModern text := by
  constructor
  · rw [unclosed_eq]
    split
    · rfl
    · rw [List.sum_eq_zero_iff_forall_eq_nat, List.forall_mem_map]
      intro segment hsegment
      rw [List.sum_eq_zero_iff_forall_eq_nat, List.forall_mem_map]
      exact fun piece hpiece => (hpieces segment hsegment piece hpiece).unclosed_eq_zero
  · intro leaf hmem
    rw [read_eq] at hmem
    split at hmem
    · cases hmem
    · rw [listLeaves_eq_flatMap, List.flatMap_map, List.mem_flatMap] at hmem
      obtain ⟨segment, hsegment, hmem⟩ := hmem
      rw [Branch.ofSegment, Branch.leaves, partsLeaves_eq_flatMap, List.flatMap_map,
        List.mem_flatMap] at hmem
      obtain ⟨piece, hpiece, hmem⟩ := hmem
      exact (hpieces segment hsegment piece hpiece).isLegacy_eq_false leaf hmem

/-! ### Written pieces -/

/-- A selector text with its legacy combinators replaced. -/
def modernized (text : List Char) : List Char :=
  listText (modernizeList (read text))

/-- The text of pieces with their legacy combinators replaced, where `first` says whether they start a
branch. -/
def modernText (first : Bool) (cut : List Piece) : List Char :=
  partsText (modernizeParts first (cut.map (Piece.toPart read)))

/-- The argument of a pseudo-class of a name, with its legacy combinators replaced if it is a list. -/
def modernArgument (name argument : List Char) : List Char :=
  if takesList name && !isAllBlank argument then modernized argument else argument

@[simp] theorem modernText_nil (first : Bool) : modernText first [] = [] := by
  simp [modernText, modernizeParts, partsText]

theorem modernText_leaf (first : Bool) (simple : Leaf) (cut : List Piece) :
    modernText first (.leaf simple :: cut) =
      (if simple.isLegacy then deepText first cut.isEmpty else simple.text) ++ modernText false cut := by
  rw [modernText, List.map_cons, Piece.toPart, modernizeParts, partsText_append, List.isEmpty_map]
  split
  · rfl
  · rw [partsText, partsText, Part.text, List.append_nil]
    rfl

theorem modernText_call (first : Bool) (colons name span : List Char) (cut : List Piece) :
    modernText first (.call colons name span :: cut) =
      colons ++ name ++ ('(' :: (modernArgument name (argumentOf span) ++ [')'])) ++
        modernText false cut := by
  rw [modernText, List.map_cons, Piece.toPart, modernArgument]
  split
  · rw [modernizeParts, partsText, Part.text, modernized, modernText]
    simp
  · rw [modernizeParts, partsText_append, modernText]
    simp [Leaf.isLegacy, partsText, Part.text, Leaf.text]

/-- What is known of a piece of a text before its neighbours are looked at: its argument is closed, and
the argument that stands for it is modern and differs from it in exchanged characters only. -/
def Piece.IsReady : Piece → Prop
  | .leaf _ => True
  | .call _ name span => isClosed span = true ∧
      Exchanged false (argumentOf span) (modernArgument name (argumentOf span)) ∧
      ((takesList name && !isAllBlank (modernArgument name (argumentOf span))) = true →
        Selector.IsModern (modernArgument name (argumentOf span)))

/-- What holds of the empty text, and of a text if it holds of the rest after the first piece, holds of
every text. -/
theorem pieces_induction {motive : List Char → Prop} (text : List Char) (nil : motive [])
    (cons : ∀ c text piece rest, takePiece c text = (piece, rest) → motive rest → motive (c :: text)) :
    motive text := by
  induction hlength : text.length using Nat.strongRecOn generalizing text with
  | ind length ih =>
    cases text with
    | nil => exact nil
    | cons c text =>
      have hshorter := (takePiece_cut c text).rest_length
      exact cons c text _ _ (Prod.eta _).symm (ih _ (hlength ▸ hshorter) _ rfl)

theorem cut_of_takePiece
    (htaken : takePiece c text = (piece, rest)) : Cut (c :: text) (piece, rest) :=
  htaken ▸ takePiece_cut c text

theorem pieces_of_takePiece
    (htaken : takePiece c text = (piece, rest)) : pieces (c :: text) = piece :: pieces rest := by
  rw [pieces, dif_pos (takePiece_cut c text).rest_length, htaken]

/-- No simple selector is a combinator. -/
theorem not_isLegacy_of_takeSimple {simple : Leaf}
    (htaken : takeSimple c text = (.leaf simple, rest)) : simple.isLegacy = false := by
  cases takeSimple_eq_iff.mp htaken with
  | pseudo hpseudo =>
    unfold takePseudo at hpseudo
    grind [Leaf.isLegacy]
  | _ => rfl

/-- A legacy combinator is idle in every scan. -/
theorem isIdle_of_isLegacy {simple : Leaf}
    (htaken : takePiece c text = (.leaf simple, rest)) (hlegacy : simple.isLegacy = true) :
    ∀ c ∈ simple.text, isIdle c = true := by
  unfold takePiece at htaken
  split at htaken
  · rename_i leaf rest hcombinator
    cases htaken
    exact isIdle_of_takeCombinator? hcombinator
  · have hmodern := not_isLegacy_of_takeSimple htaken
    rw [hlegacy] at hmodern
    cases hmodern

/-- Replacing the legacy combinators of a text exchanges characters. -/
theorem exchanged_modernText (hready : ∀ piece ∈ pieces text, piece.IsReady)
    (first : Bool) : Exchanged false text (modernText first (pieces text)) := by
  induction text using pieces_induction generalizing first with
  | nil =>
    rw [pieces, modernText_nil]
    exact .nil
  | cons c text piece rest htaken ih =>
    have hcut := cut_of_takePiece htaken
    rw [pieces_of_takePiece htaken] at hready ⊢
    rw [List.forall_mem_cons] at hready
    have hrest := ih hready.2 false
    rw [← hcut.append]
    cases piece with
    | leaf simple =>
      rw [modernText_leaf, Piece.source]
      split
      · rename_i hlegacy
        exact .swap first _ (isIdle_of_isLegacy htaken hlegacy) hrest
      · refine .prepend _ ?_
        by_cases hnil : rest = []
        · rw [hnil, pieces, modernText_nil]
          exact .nil
        · rw [show escapesNext false simple.text = false from escapesNext_source htaken hnil]
          exact hrest
    | call colons name span =>
      obtain ⟨hclosed, hargument, -⟩ := hready.1
      have hsource : colons ++ name ++ span =
          colons ++ name ++ ['('] ++ (argumentOf span ++ ([')'] ++ [])) := by
        simpa using span_of_isClosed hcut.isCut.2 hclosed
      have hopening : escapesNext false (colons ++ name ++ ['(']) = false :=
        escapesNext_concat (by decide) _ _
      have hspan : Exchanged false (colons ++ name ++ ['('] ++ (argumentOf span ++ ([')'] ++ rest)))
          (colons ++ name ++ ['('] ++ (modernArgument name (argumentOf span) ++
            ([')'] ++ modernText false (pieces rest)))) := by
        refine .prepend _ ?_
        rw [hopening]
        exact hargument.append (.prepend _ (by rwa [← List.nil_append [')'], escapesNext_concat (by decide)]))
      rw [modernText_call, Piece.source, hsource]
      simpa using hspan

/-- The text begins as it did, or with `:deep` in the place of a legacy combinator. -/
theorem head?_modernText (first : Bool) (c : Char) (text : List Char) :
    (modernText first (pieces (c :: text))).head? = some c ∨
      (modernText first (pieces (c :: text))).head? = some (if first then ':' else ' ') := by
  have hcut := takePiece_cut c text
  have hhead (others : List Char) : ((takePiece c text).1.source ++ others).head? = some c := by
    obtain ⟨d, source, hsource⟩ := List.exists_cons_of_ne_nil hcut.ne_nil
    have happend := hcut.append
    rw [hsource] at happend ⊢
    exact congrArg some (List.cons.inj happend).1
  rcases htaken : takePiece c text with ⟨piece, rest⟩
  rw [htaken] at hcut hhead
  rw [pieces_of_takePiece htaken]
  cases piece with
  | leaf simple =>
    rw [modernText_leaf]
    split
    · right
      rw [List.head?_append, head?_deepText, Option.some_or]
    · exact .inl (hhead _)
  | call colons name span =>
    left
    obtain ⟨d, colons, rfl⟩ := List.exists_cons_of_ne_nil hcut.isCut.1
    rw [modernText_call]
    exact hhead []

/-- The rest of a text can be replaced with what stands for it. -/
theorem continues_modernText (hready : ∀ piece ∈ pieces rest, piece.IsReady) :
    Continues rest (modernText false (pieces rest)) := by
  have hhead : ∀ c ∈ (modernText false (pieces rest)).head?, c = ' ' ∨ rest.head? = some c := by
    intro c hc
    cases rest with
    | nil =>
      rw [pieces, modernText_nil] at hc
      cases hc
    | cons d rest =>
      rcases head?_modernText false d rest with hsame | hspace
      · exact .inr (hsame.symm.trans hc)
      · exact .inl (Option.some.inj (hc.symm.trans hspace))
  refine ⟨?_, fun hname => ?_, hhead⟩
  · rintro rfl
    rw [pieces, modernText_nil]
  · have hexchanged := exchanged_modernText hready false
    generalize modernText false (pieces rest) = written at hhead hexchanged
    cases written with
    | nil => rfl
    | cons c written =>
      rcases hhead c rfl with rfl | hsame
      · exact takeName_cons rfl (by decide) written
      · obtain ⟨others, rfl⟩ := List.head?_eq_some_iff.mp hsame
        -- An interpolation that begins here would begin in the old text as well.
        have hsharp (hbrace : c = '#' ∧ written.head? = some '{') : c = '#' ∧ others.head? = some '{' := by
          obtain ⟨rfl, hbrace⟩ := hbrace
          obtain ⟨after, rfl⟩ := List.head?_eq_some_iff.mp hbrace
          have hstart := @Exchanged.startsWith_of_startsWith _ _ _ hexchanged ['#', '{'] (by decide)
            ⟨after, rfl⟩
          obtain ⟨after', hafter⟩ := hstart
          cases hafter
          exact ⟨rfl, rfl⟩
        rw [takeName, scanName] at hname ⊢
        grind

/-! ### Signs -/

theorem takeSign?_eq_none_iff :
    takeSign? text = none ↔ ∀ sign ∈ signs, ¬ sign <+: text := by
  constructor
  · intro hnone sign hsign hstart
    obtain ⟨rest, rfl⟩ := hstart
    simp only [signs, List.mem_cons, List.not_mem_nil, or_false] at hsign
    rcases hsign with rfl | rfl | rfl | rfl | rfl
    · rw [List.singleton_append] at hnone
      unfold takeSign? at hnone
      grind
    all_goals cases hnone
  · intro hsigns
    cases htaken : takeSign? text with
    | none => rfl
    | some taken =>
      exact absurd ⟨taken.2, (takeSign?_append htaken).1⟩
        (hsigns taken.1 (mem_signs_of_takeSign? htaken))

/-- No sign comes about by an exchange. -/
theorem Exchanged.takeSign?_eq_none {escaped : Bool} {written : List Char}
    (hexchanged : Exchanged escaped text written) (hnone : takeSign? text = none) :
    takeSign? written = none := by
  have hall : ∀ sign ∈ signs, ∀ c ∈ sign, c ≠ ' ' ∧ c ≠ ':' := by decide
  rw [takeSign?_eq_none_iff] at hnone ⊢
  exact fun sign hsign hstart =>
    hnone sign hsign (hexchanged.startsWith_of_startsWith (hall sign hsign) hstart)

/-- A sign is taken as it was if something is exchanged after it. -/
theorem Exchanged.takeSign?_eq_some {sign written : List Char}
    (htaken : takeSign? text = some (sign, rest)) (hexchanged : Exchanged false rest written) :
    takeSign? (sign ++ written) = some (sign, written) := by
  have happend := (takeSign?_append htaken).1
  have hsign := mem_signs_of_takeSign? htaken
  simp only [signs, List.mem_cons, List.not_mem_nil, or_false] at hsign
  rcases hsign with rfl | rfl | rfl | rfl | rfl
  · have hlonger : ¬ ['>', '>'] <+: written := by
      intro hstart
      obtain ⟨after, rfl⟩ := hexchanged.startsWith_of_startsWith (by decide) hstart
      rw [← happend] at htaken
      cases htaken
    rw [List.singleton_append, takeSign?]
    rintro others rfl
    exact hlonger ⟨others, rfl⟩
  all_goals rfl

/-! ### Pieces read again -/

/-- The pieces of a text are modern, whatever blanks take the place of those at its front. -/
def HasModernPieces (text : List Char) : Prop :=
  ∀ blanks, AreBlanks blanks → ∀ piece ∈ pieces (blanks ++ text.dropWhile isAsciiBlank), piece.IsModern

theorem pieces_of_takeCombinator? {leaf : Leaf} (hne : text ≠ [])
    (htaken : takeCombinator? text = some (leaf, rest)) :
    pieces text = .leaf leaf :: pieces rest := by
  obtain ⟨c, text, rfl⟩ := List.exists_cons_of_ne_nil hne
  exact pieces_of_takePiece (by rw [takePiece, htaken])

namespace HasModernPieces

theorem forall_mem (htext : HasModernPieces text) :
    ∀ piece ∈ pieces text, piece.IsModern := by
  have hall := htext (text.takeWhile isAsciiBlank) (List.all_eq_true.mp List.all_takeWhile)
  rwa [List.takeWhile_append_dropWhile] at hall

theorem blanks {blanks text : List Char} (hblanks : AreBlanks blanks) (htext : HasModernPieces text) :
    HasModernPieces (blanks ++ text) := by
  intro others hothers
  rw [List.dropWhile_append_of_pos hblanks]
  exact htext others hothers

/-- Blanks before a text that begins with no combinator are a piece of their own. -/
theorem of_pieces (hhead : ∀ c ∈ text.head?, isAsciiBlank c = false)
    (hsign : takeSign? text = none) (hpieces : ∀ piece ∈ pieces text, piece.IsModern) :
    HasModernPieces text := by
  intro blanks hblanks
  have hspan := span_append hblanks hhead
  have hdrop := (@span_append isAsciiBlank [] text (by simp) hhead).2
  rw [List.nil_append] at hdrop
  rw [hdrop]
  by_cases hne : blanks = []
  · rwa [hne]
  · have htaken : takeCombinator? (blanks ++ text) = some (.combinator [' '] blanks, text) := by
      simp [takeCombinator?, hspan, hsign, hne]
    rw [pieces_of_takeCombinator? (List.append_ne_nil_of_left_ne_nil hne _) htaken,
      List.forall_mem_cons]
    exact ⟨rfl, hpieces⟩

theorem nil : HasModernPieces [] :=
  of_pieces (by simp) rfl (by simp [pieces])

theorem simple (hblank : isAsciiBlank c = false)
    (hsign : takeSign? (c :: text) = none) (htaken : takeSimple c text = (piece, rest))
    (hpiece : piece.IsModern) (hrest : HasModernPieces rest) : HasModernPieces (c :: text) := by
  have hcombinator : takeCombinator? (c :: text) = none := by
    simp [takeCombinator?, hblank, hsign]
  refine of_pieces (fun d hd => by cases hd; exact hblank) hsign ?_
  rw [pieces_of_takePiece (by rw [takePiece, hcombinator, htaken]), List.forall_mem_cons]
  exact ⟨hpiece, hrest.forall_mem⟩

theorem sign {sign rest : List Char} (htaken : takeSign? (sign ++ rest) = some (sign, rest))
    (hlegacy : (Leaf.combinator sign []).isLegacy = false) (hrest : HasModernPieces rest) :
    HasModernPieces (sign ++ rest) := by
  intro blanks hblanks
  have hne := (takeSign?_append htaken).2
  have hhead : ∀ c ∈ (sign ++ rest).head?, isAsciiBlank c = false := by
    have hall : ∀ sign ∈ signs, ∀ c ∈ sign.head?, isAsciiBlank c = false := by decide
    rw [List.head?_append, Option.or_of_isSome (List.isSome_head?.mpr hne)]
    exact hall sign (mem_signs_of_takeSign? htaken)
  have hspan := span_append hblanks hhead
  have hdrop := (@span_append isAsciiBlank [] (sign ++ rest) (by simp) hhead).2
  rw [List.nil_append] at hdrop
  rw [hdrop]
  have htaken' : takeCombinator? (blanks ++ (sign ++ rest)) =
      some (.combinator sign (blanks ++ sign ++ rest.takeWhile isAsciiBlank),
        rest.dropWhile isAsciiBlank) := by
    simp [takeCombinator?, hspan, htaken]
  rw [pieces_of_takeCombinator? (by simp [hne]) htaken', List.forall_mem_cons]
  exact ⟨hlegacy, hrest [] (by simp [AreBlanks])⟩

/-- The `:deep` in the place of a legacy combinator is read as such. -/
theorem deepText (first last : Bool) {rest : List Char} (hlast : last = true → rest = [])
    (hrest : HasModernPieces rest) : HasModernPieces (deepText first last ++ rest) := by
  have hspace : HasModernPieces ((if last then [] else [' ']) ++ rest) := by
    cases last with
    | true => exact hrest
    | false => exact blanks (by decide) hrest
  have htaken : takeSimple ':' (['d', 'e', 'e', 'p'] ++ ((if last then [] else [' ']) ++ rest)) =
      (.leaf deep, (if last then [] else [' ']) ++ rest) := by
    cases last with
    | true =>
      rw [hlast rfl]
      rfl
    | false => rfl
  have hdeep := simple (by decide) rfl htaken rfl hspace
  cases first with
  | true => cases last <;> exact hdeep
  | false => cases last <;> exact @blanks [' '] _ (by decide) hdeep

end HasModernPieces

theorem hasModernPieces_of_takeCombinator? {leaf : Leaf}
    (htaken : takeCombinator? text = some (leaf, rest)) (hready : ∀ piece ∈ pieces rest, piece.IsReady)
    (hrest : HasModernPieces (modernText false (pieces rest))) (first : Bool) :
    HasModernPieces (modernText first (.leaf leaf :: pieces rest)) := by
  rw [modernText_leaf]
  split
  · refine .deepText first _ (fun hlast => ?_) hrest
    rw [List.isEmpty_iff.mp hlast, modernText_nil]
  rename_i hlegacy
  rcases takeCombinator?_cases htaken with
    ⟨before, sign, after, rfl, hbefore, hafter, hsign⟩ | ⟨blanks, rfl, -, hblanks⟩
  · have hafter' : Exchanged false (after ++ rest) (after ++ modernText false (pieces rest)) := by
      refine .prepend after ?_
      rw [escapesNext_of_forall fun c hc => ne_backslash_of_isIdle (hafter.isIdle c hc)]
      exact exchanged_modernText hready false
    rw [Leaf.text, List.append_assoc, List.append_assoc]
    exact .blanks hbefore (.sign (Exchanged.takeSign?_eq_some hsign hafter')
      (Bool.eq_false_iff.mpr hlegacy) (.blanks hafter hrest))
  · exact .blanks hblanks hrest

theorem hasModernPieces_of_takeSimple {first : Bool}
    (htaken : takeSimple c text = (piece, rest)) (hblank : isAsciiBlank c = false)
    (hsign : takeSign? (modernText first (piece :: pieces rest)) = none) (hpiece : piece.IsReady)
    (hready : ∀ piece ∈ pieces rest, piece.IsReady)
    (hrest : HasModernPieces (modernText false (pieces rest))) :
    HasModernPieces (modernText first (piece :: pieces rest)) := by
  have hcontinues := continues_modernText hready
  cases piece with
  | leaf simple =>
    have hmodern := not_isLegacy_of_takeSimple htaken
    obtain ⟨front, hfront, htaken'⟩ := takeSimple_exchange htaken hcontinues
    rw [modernText_leaf, hmodern, if_neg Bool.false_ne_true, ← hfront] at hsign ⊢
    exact .simple hblank hsign htaken' hmodern hrest
  | call colons name span =>
    obtain ⟨hclosed, hargument, hmodern⟩ := hpiece
    obtain ⟨group, hgroup⟩ := exists_span_of_takeSimple htaken
    have hopening : span.head? = some '(' := by
      have hcut := (takeSimple_cut c text).isCut
      rw [htaken] at hcut
      exact hcut.2
    rw [span_of_isClosed hopening hclosed, List.cons_append] at hgroup
    have hspan := hargument.span_eq hgroup hcontinues.nil
    obtain ⟨front, hfront, htaken'⟩ := takeSimple_call_exchange htaken rfl hspan
    rw [modernText_call, ← hfront] at hsign ⊢
    refine .simple hblank hsign htaken' ⟨by simp [isClosed], ?_⟩ hrest
    rw [argumentOf_group]
    exact hmodern

/-- The pieces of a text with its legacy combinators replaced are modern. -/
theorem hasModernPieces_modernText (hready : ∀ piece ∈ pieces text, piece.IsReady) (first : Bool) :
    HasModernPieces (modernText first (pieces text)) := by
  induction text using pieces_induction generalizing first with
  | nil =>
    rw [pieces, modernText_nil]
    exact .nil
  | cons c text piece rest htaken ih =>
    have hexchanged := exchanged_modernText hready first
    rw [pieces_of_takePiece htaken] at hready hexchanged ⊢
    rw [List.forall_mem_cons] at hready
    have hrest := ih hready.2 false
    unfold takePiece at htaken
    split at htaken
    · rename_i leaf rest' hcombinator
      cases htaken
      exact hasModernPieces_of_takeCombinator? hcombinator hready.2 hrest first
    · rename_i hcombinator
      obtain ⟨hblank, hsign⟩ := takeCombinator?_eq_none hcombinator
      exact hasModernPieces_of_takeSimple htaken hblank (hexchanged.takeSign?_eq_none hsign) hready.1
        hready.2 hrest

end StyleMigration.Selector
