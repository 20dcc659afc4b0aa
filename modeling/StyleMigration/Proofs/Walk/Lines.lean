import StyleMigration.Proofs.Sheet.Indentation
import StyleMigration.Proofs.Walk.Braces

/-!
Stylesheets by indentation read by walking over their lines. A walk over a level stops at the first line that
does not belong to it, and the walk over the level around it goes on there. What a walk reads is the tree of
the tokens that lie within its level, and the lines where it stops are those of the other tokens
(`areLinesRead`). So the whole stylesheet is read without a fault (`walkIndentation_eq`).
-/

set_option autoImplicit false

namespace StyleMigration.Walk

open Text Sheet

/-! ### The reader -/

/-- A line with what is told of it once. -/
structure Line where
  text : List Char
  indent : Nat
  blank : Bool

/-- A line of a text with its indent in bytes. -/
def walkLine (text : List Char) : Except Fault Line := do
  let content := lineContent text
  let indent ← minus (byteLength content) (byteLength (content.dropWhile fun c => c == ' ' || c == '\t'))
  return ⟨text, indent, isAllBlank content⟩

/-- The items between two indices. -/
def itemsBetween {Item : Type} (items : List Item) (start stop : Nat) : Except Fault (List Item) :=
  if start ≤ stop ∧ stop ≤ items.length then .ok ((items.drop start).take (stop - start)) else .error .slice

/-- The indent of the first line from an index on that is not blank. -/
def walkNextIndent (lines : List Line) (place : Nat) : Except Fault (Option Nat) := do
  let rest ← itemsBetween lines place lines.length
  return (rest.find? (!·.blank)).map Line.indent

/-- Whether what has the given indent belongs to the body of a group with indent `parent?`; all belongs to the
top level. -/
def belongs (indent? parent? : Option Nat) : Bool :=
  parent?.all fun parent => indent?.any (parent < ·)

/-- The index of the last line of the header at an index. -/
def walkHeaderEnd (lines : List Line) (place : Nat) : Except Fault Nat := do
  let line ← itemAt lines place
  if _h : isContinued line.text ∧ place + 1 < lines.length then walkHeaderEnd lines (place + 1)
  else return place
termination_by lines.length - place

/-- The text of the comment that begins on the line `first`, from the line `place` on, and the index of the
line behind it. -/
def walkCommentLines (lines : List Line) (first indent place : Nat) : Except Fault (List Char × Nat) :=
  if _h : place < lines.length then do
    let line ← itemAt lines place
    if first < place ∧ line.blank = false ∧ line.indent ≤ indent then return ([], place)
    else do
      let (text, stop) ← walkCommentLines lines first indent (place + 1)
      return (line.text ++ text, stop)
  else
    return ([], place)
termination_by lines.length - place

/-- The header of a group by indentation, told apart by the trimmed text `first` of its first line. -/
def walkLinesHeader (first header : List Char) : Except Fault Header := do
  let isProperty ← walkNestedProperty first
  if first.head? = some '@' || first.head? = some '+' || first.head? = some '=' || isProperty then
    return .block header
  else do
    let body := trimEnd header
    let selector := trimStart body
    let before ← cut body 0 (← minus (byteLength body) (byteLength selector))
    return .rule before selector (← cutFrom header (byteLength body))

/-- The nodes of a level from a line on, and the index of the first line that does not belong to it. -/
def walkLevel (lines : List Line) (parent? : Option Nat) (place : Nat) : Except Fault (List Node × Nat) :=
  if _h : place < lines.length then do
    let line ← itemAt lines place
    if line.blank then do
      if belongs (← walkNextIndent lines place) parent? then do
        let (nodes, stop) ← walkLevel lines parent? (place + 1)
        return (.text line.text :: nodes, stop)
      else return ([], place)
    else if belongs (some line.indent) parent? then do
      let last ← walkHeaderEnd lines place
      if (← walkNextIndent lines (last + 1)).any (line.indent < ·) then do
        let first := trim (lineContent line.text)
        if opensComment first then do
          let (text, next) ← walkCommentLines lines place line.indent place
          if _h : place < next then do
            let (nodes, stop) ← walkLevel lines parent? next
            return (.text text :: nodes, stop)
          else throw .stuck
        else do
          let header := ((← itemsBetween lines place (last + 1)).map Line.text).flatten
          let head ← walkLinesHeader first header
          if _h : place ≤ last then do
            let (body, next) ← walkLevel lines (some line.indent) (last + 1)
            if _h : place < next then do
              let (nodes, stop) ← walkLevel lines parent? next
              return (.group head .indented body :: nodes, stop)
            else throw .stuck
          else throw .stuck
      else do
        let (nodes, stop) ← walkLevel lines parent? (place + 1)
        return (.text line.text :: nodes, stop)
    else return ([], place)
  else
    return ([], place)
termination_by lines.length - place

/-- Reads a stylesheet by indentation over its lines. -/
def walkIndentation (text : List Char) : Except Fault (List Node) := do
  let lines ← (splitLines text).mapM walkLine
  return (← walkLevel lines none 0).1

/-! ### Lines -/

def Line.of (text : List Char) : Line :=
  ⟨text, lineIndent text, isBlankLine text⟩

theorem walkLine_eq (text : List Char) : walkLine text = .ok (.of text) := by
  have hindent : ∀ c ∈ (lineContent text).takeWhile (fun c => c == ' ' || c == '\t'), IsAscii c := by
    intro c hmem
    have hc := List.all_eq_true.mp List.all_takeWhile c hmem
    simp only [Bool.or_eq_true, beq_iff_eq] at hc
    rcases hc with rfl | rfl <;> decide
  have hsplit := congrArg byteLength
    (List.takeWhile_append_dropWhile (p := fun c => c == ' ' || c == '\t') (l := lineContent text))
  rw [byteLength_append, byteLength_of_isAscii hindent] at hsplit
  rw [walkLine, minus_of_le (by omega), ← hsplit, Nat.add_sub_cancel]
  rfl

/-- Whether a line below a comment is taken in by it. -/
def isBelow (indent : Nat) (line : List Char) : Bool :=
  isBlankLine line || indent < lineIndent line

/-- The index of a line before a rest of the lines. -/
def IsLineAt (lines : List Line) (place : Nat) (rest : List (List Char)) : Prop :=
  ∃ front, lines = front ++ rest.map Line.of ∧ place = front.length

namespace IsLineAt

variable {lines : List Line} {place : Nat} {line : List Char} {rest middle : List (List Char)}

theorem skip (hat : IsLineAt lines place (middle ++ rest)) : IsLineAt lines (place + middle.length) rest := by
  obtain ⟨front, rfl, rfl⟩ := hat
  exact ⟨front ++ middle.map Line.of, by simp, by simp⟩

theorem next (hat : IsLineAt lines place (line :: rest)) : IsLineAt lines (place + 1) rest :=
  @skip lines place rest [line] hat

theorem length_eq (hat : IsLineAt lines place rest) : place + rest.length = lines.length := by
  obtain ⟨front, rfl, rfl⟩ := hat
  simp

theorem itemAt_eq (hat : IsLineAt lines place (line :: rest)) : itemAt lines place = .ok (.of line) := by
  obtain ⟨front, rfl, rfl⟩ := hat
  simp [itemAt]

theorem itemsBetween_eq (hat : IsLineAt lines place (middle ++ rest)) :
    itemsBetween lines place (place + middle.length) = .ok (middle.map Line.of) := by
  have hlength := hat.length_eq
  rw [List.length_append] at hlength
  rw [itemsBetween, if_pos ⟨by omega, by omega⟩]
  obtain ⟨front, rfl, rfl⟩ := hat
  simp

theorem walkNextIndent_eq (hat : IsLineAt lines place rest) :
    walkNextIndent lines place = .ok (nextIndent? rest) := by
  have hlength := hat.length_eq
  have hall : IsLineAt lines place (rest ++ []) := by rwa [List.append_nil]
  rw [walkNextIndent, ← hlength, hall.itemsBetween_eq, ok_bind, nextIndent?]
  simp only [List.find?_map, Option.map_map]
  rfl

/-- The header at a line is taken with the lines that go on with it. -/
theorem walkHeaderEnd_eq (hat : IsLineAt lines place (line :: rest)) :
    ∃ last, walkHeaderEnd lines place = .ok last ∧ last + 1 = place + (takeHeader line rest).1.length := by
  induction rest generalizing place line with
  | nil =>
    have hlength := hat.length_eq
    refine ⟨place, ?_, rfl⟩
    rw [walkHeaderEnd, hat.itemAt_eq, ok_bind, dif_neg fun hboth => ?_]
    · rfl
    · simp only [List.length_singleton] at hlength
      omega
  | cons next rest ih =>
    have hlength := hat.length_eq
    simp only [List.length_cons] at hlength
    rw [walkHeaderEnd, hat.itemAt_eq, ok_bind, takeHeader]
    by_cases hcontinued : isContinued line = true
    · obtain ⟨last, hlast, hstop⟩ := ih hat.next
      refine ⟨last, ?_, ?_⟩
      · rw [dif_pos ⟨hcontinued, by omega⟩, hlast]
      · rw [if_pos hcontinued, hstop, List.length_cons]
        omega
    · refine ⟨place, ?_, ?_⟩
      · rw [dif_neg fun hboth => hcontinued hboth.1]
        rfl
      · rw [if_neg hcontinued]
        rfl

theorem walkCommentLines_below {first indent : Nat} (hat : IsLineAt lines place rest) (hfirst : first < place) :
    walkCommentLines lines first indent place =
      .ok ((rest.takeWhile (isBelow indent)).flatten, place + (rest.takeWhile (isBelow indent)).length) := by
  induction rest generalizing place with
  | nil =>
    have hlength := hat.length_eq
    rw [walkCommentLines, dif_neg (by simp only [List.length_nil] at hlength; omega)]
    rfl
  | cons line rest ih =>
    have hlength := hat.length_eq
    simp only [List.length_cons] at hlength
    have hstops : (first < place ∧ (Line.of line).blank = false ∧ (Line.of line).indent ≤ indent) ↔
        isBelow indent line = false := by
      simp [isBelow, Line.of, hfirst]
    rw [walkCommentLines, dif_pos (by omega), hat.itemAt_eq, ok_bind]
    cases hbelow : isBelow indent line with
    | false =>
      rw [if_pos (hstops.mpr hbelow), List.takeWhile_cons_of_neg (by simp [hbelow])]
      rfl
    | true =>
      rw [if_neg fun hall => absurd (hstops.mp hall) (by simp [hbelow]), ih hat.next (by omega),
        List.takeWhile_cons_of_pos hbelow]
      simp [Line.of, Nat.add_assoc, Nat.add_comm 1]

/-- A comment takes in the lines below its first one that are blank or have a larger indent. -/
theorem walkCommentLines_eq {indent : Nat} (hat : IsLineAt lines place (line :: rest)) :
    walkCommentLines lines place indent place =
      .ok (line ++ (rest.takeWhile (isBelow indent)).flatten,
        place + 1 + (rest.takeWhile (isBelow indent)).length) := by
  have hlength := hat.length_eq
  simp only [List.length_cons] at hlength
  rw [walkCommentLines, dif_pos (by omega), hat.itemAt_eq, ok_bind,
    if_neg fun hall => absurd hall.1 (Nat.lt_irrefl _), hat.next.walkCommentLines_below (Nat.lt_succ_self _)]
  rfl

end IsLineAt

theorem walkLinesHeader_eq (first header : List Char) :
    walkLinesHeader first header = .ok (.ofLines first header) := by
  have hbody : IsAt (trimEnd header) 0 (leadingBlanks (trimEnd header) ++ trimStart (trimEnd header)) := by
    rw [leadingBlanks_append_trimStart]
    exact .start _
  have hheader : IsAt header 0 (trimEnd header ++ trailingBlanks header) := by
    rw [trimEnd_append_trailingBlanks]
    exact .start _
  have hbefore := hbody.cut_eq
  have hbetween := hheader.skip.cutFrom_eq
  have hlength := hbody.skip.length_eq
  rw [Nat.zero_add] at hbefore hbetween hlength
  rw [walkLinesHeader, walkNestedProperty_eq, ok_bind, Header.ofLines]
  split
  · rfl
  · dsimp only
    rw [minus_of_le (by omega), ok_bind, ← hlength, Nat.add_sub_cancel, hbefore, ok_bind, hlength, hbetween]
    rfl

/-! ### Levels -/

/-- Whether a token lies within a level. -/
def isIn (parent? : Option Nat) (token : LineToken) : Bool :=
  belongs token.indent? parent?

theorem isIn_some (mark : Nat) : isIn (some mark) = LineToken.isWithin mark := by
  funext token
  simp [isIn, belongs, LineToken.isWithin, isOutside]

/-- What lies within a group on a level lies within the level. -/
theorem isIn_of_isWithin {parent? : Option Nat} {mark : Nat} {head : Header}
    (hmark : isIn parent? (.header mark head) = true) (token : LineToken)
    (htoken : token.isWithin mark = true) : isIn parent? token = true := by
  cases parent? with
  | none => rfl
  | some parent =>
    rw [isIn_some] at hmark ⊢
    have houtside := @isOutside_of_isWithin parent mark token.indent? head hmark
    rw [LineToken.isWithin, Bool.not_eq_true'] at htoken ⊢
    cases hresult : isOutside token.indent? parent with
    | false => rfl
    | true => exact absurd (houtside hresult) (by simp [htoken])

/-- A stretch of tokens within a group is a stretch within the level around it. -/
theorem takeWhile_of_imp {Item : Type} {inner outer : Item → Bool}
    (himp : ∀ item, inner item = true → outer item = true) (items : List Item) :
    (items.takeWhile outer).takeWhile inner = items.takeWhile inner ∧
      (items.takeWhile outer).dropWhile inner = (items.dropWhile inner).takeWhile outer ∧
      (items.dropWhile inner).dropWhile outer = items.dropWhile outer := by
  induction items with
  | nil => exact ⟨rfl, rfl, rfl⟩
  | cons item items ih =>
    by_cases hinner : inner item = true
    · simp [hinner, himp item hinner, ih]
    · by_cases houter : outer item = true <;> simp [hinner, houter]

theorem indent?_takeLineToken (line : List Char) (lines : List (List Char)) :
    (takeLineToken line lines).1.indent? = nextIndent? (line :: lines) := by
  rw [nextIndent?_cons]
  fun_cases takeLineToken line lines with
  | case1 hblank => rw [if_pos hblank]; rfl
  | case2 hblank => rw [if_neg hblank]; rfl
  | case3 hblank => rw [if_neg hblank]; rfl
  | case4 hblank => rw [if_neg hblank]; rfl

theorem lineTokens_eq_cons (line : List Char) (lines : List (List Char)) :
    lineTokens (line :: lines) =
      (takeLineToken line lines).1 :: lineTokens (takeLineToken line lines).2 := by
  rw [lineTokens, dif_pos (takeLineToken_rest_length line lines)]

section Level

variable {lines : List Line} {parent? : Option Nat} {place : Nat} {rest : List (List Char)}

theorem walkLevel_cons {line : List Char} (hat : IsLineAt lines place (line :: rest)) :
    walkLevel lines parent? place =
      if isBlankLine line then do
        if belongs (← walkNextIndent lines place) parent? then do
          let (nodes, stop) ← walkLevel lines parent? (place + 1)
          return (.text line :: nodes, stop)
        else return ([], place)
      else if belongs (some (lineIndent line)) parent? then do
        let last ← walkHeaderEnd lines place
        if (← walkNextIndent lines (last + 1)).any (lineIndent line < ·) then do
          let first := trim (lineContent line)
          if opensComment first then do
            let (text, next) ← walkCommentLines lines place (lineIndent line) place
            if place < next then do
              let (nodes, stop) ← walkLevel lines parent? next
              return (.text text :: nodes, stop)
            else throw .stuck
          else do
            let header := ((← itemsBetween lines place (last + 1)).map Line.text).flatten
            let head ← walkLinesHeader first header
            if place ≤ last then do
              let (body, next) ← walkLevel lines (some (lineIndent line)) (last + 1)
              if place < next then do
                let (nodes, stop) ← walkLevel lines parent? next
                return (.group head .indented body :: nodes, stop)
              else throw .stuck
            else throw .stuck
        else do
          let (nodes, stop) ← walkLevel lines parent? (place + 1)
          return (.text line :: nodes, stop)
      else return ([], place) := by
  have hlength := hat.length_eq
  simp only [List.length_cons] at hlength
  rw [walkLevel, dif_pos (by omega), hat.itemAt_eq]
  rfl

/-- The level at a line is read without a fault up to the first line that does not belong to it, and what is
read is the tree of the tokens that lie within it. -/
def AreLinesRead (lines : List Line) (parent? : Option Nat) (place : Nat) (rest : List (List Char)) : Prop :=
  ∃ stop after,
    walkLevel lines parent? place = .ok (nest ((lineTokens rest).takeWhile (isIn parent?)), stop) ∧
    IsLineAt lines stop after ∧ after.length ≤ rest.length ∧
    lineTokens after = (lineTokens rest).dropWhile (isIn parent?)

section Step

variable {line : List Char} {others : List (List Char)} {next : Nat}

/-- A text on a level is a node, and the walk goes on behind its lines. -/
theorem areLinesRead_text {indent? : Option Nat} {content : List Char}
    (htaken : takeLineToken line rest = (.text indent? content, others))
    (hin : isIn parent? (takeLineToken line rest).1 = true)
    (hwalk : walkLevel lines parent? place = (do
      let (nodes, stop) ← walkLevel lines parent? next
      return (.text content :: nodes, stop)))
    (hnext : AreLinesRead lines parent? next others) : AreLinesRead lines parent? place (line :: rest) := by
  have htokens := lineTokens_eq_cons line rest
  have hshorter := takeLineToken_rest_length line rest
  rw [htaken] at htokens hin hshorter
  obtain ⟨stop, after, hwalk', hafter, hle, hothers⟩ := hnext
  refine ⟨stop, after, ?_, hafter, Nat.le_of_lt (Nat.lt_of_le_of_lt hle hshorter), ?_⟩
  · rw [hwalk, hwalk', htokens, List.takeWhile_cons_of_pos hin, nest]
    rfl
  · rw [hothers, htokens, List.dropWhile_cons_of_pos hin]

/-- A group on a level has the tree of what lies within it as its body, and the walk goes on behind that. -/
theorem areLinesRead_group {mark : Nat} {head : Header}
    (htaken : takeLineToken line rest = (.header mark head, others))
    (hin : isIn parent? (takeLineToken line rest).1 = true)
    (hwalk : walkLevel lines parent? place = (do
      let (body, stop) ← walkLevel lines (some mark) next
      if place < stop then do
        let (nodes, stop) ← walkLevel lines parent? stop
        return (.group head .indented body :: nodes, stop)
      else throw .stuck))
    (hplace : place < next) (hat : IsLineAt lines next others)
    (hnext : ∀ parent? place after, IsLineAt lines place after → after.length ≤ others.length →
      AreLinesRead lines parent? place after) :
    AreLinesRead lines parent? place (line :: rest) := by
  have htokens := lineTokens_eq_cons line rest
  have hshorter := takeLineToken_rest_length line rest
  rw [htaken] at htokens hin hshorter
  dsimp only at htokens hin hshorter
  obtain ⟨hbody, hrest, hafter⟩ := takeWhile_of_imp (isIn_of_isWithin hin) (lineTokens others)
  obtain ⟨bodyStop, middle, hwalk', hmiddle, hle, htree⟩ := hnext (some mark) next others hat (Nat.le_refl _)
  obtain ⟨stop, last, hwalk'', hlast, hle', htree'⟩ := hnext parent? bodyStop middle hmiddle hle
  rw [isIn_some] at hwalk' htree
  have hlength := hat.length_eq
  have hlength' := hmiddle.length_eq
  refine ⟨stop, last, ?_, hlast, by omega, ?_⟩
  · rw [hwalk, hwalk', ok_bind]
    dsimp only
    rw [if_pos (by omega), hwalk'', htokens, List.takeWhile_cons_of_pos hin, nest, hbody, hrest, htree]
    rfl
  · rw [htree', htree, hafter, htokens, List.dropWhile_cons_of_pos hin]

/-- A level ends at a line that does not belong to it. -/
theorem areLinesRead_end (hat : IsLineAt lines place (line :: rest))
    (hout : ¬belongs (nextIndent? (line :: rest)) parent? = true) :
    AreLinesRead lines parent? place (line :: rest) := by
  have htoken : ¬isIn parent? (takeLineToken line rest).1 = true := by rwa [isIn, indent?_takeLineToken]
  refine ⟨place, line :: rest, ?_, hat, Nat.le_refl _, ?_⟩
  · rw [walkLevel_cons hat, lineTokens_eq_cons, List.takeWhile_cons_of_neg htoken, nest]
    split
    · rw [hat.walkNextIndent_eq, ok_bind, if_neg hout]
      rfl
    · rename_i hblank
      rw [nextIndent?_cons, if_neg hblank] at hout
      exact if_neg hout
  · rw [lineTokens_eq_cons, List.dropWhile_cons_of_neg htoken]

/-- A line that is not blank is a text of its own, begins a comment, or heads a group. -/
theorem areLinesRead_filled (hat : IsLineAt lines place (line :: rest)) (hblank : ¬isBlankLine line = true)
    (hin : belongs (nextIndent? (line :: rest)) parent? = true)
    (hnext : ∀ parent? place after, IsLineAt lines place after → after.length < (line :: rest).length →
      AreLinesRead lines parent? place after) :
    AreLinesRead lines parent? place (line :: rest) := by
  have hfirst : isIn parent? (takeLineToken line rest).1 = true := by rwa [isIn, indent?_takeLineToken]
  have hshorter := takeLineToken_rest_length line rest
  have hwalk := @walkLevel_cons lines parent? place rest line hat
  rw [nextIndent?_cons, if_neg hblank] at hin
  obtain ⟨last, hlast, hstop⟩ := hat.walkHeaderEnd_eq
  have hheader : IsLineAt lines place ((takeHeader line rest).1 ++ (takeHeader line rest).2) := by
    rwa [takeHeader_append]
  have hafter := hheader.skip
  rw [← hstop] at hafter
  rw [if_neg hblank, if_pos hin, hlast, ok_bind, hafter.walkNextIndent_eq, ok_bind] at hwalk
  by_cases hbody : (nextIndent? (takeHeader line rest).2).any (lineIndent line < ·) = true
  case neg =>
    have htaken : takeLineToken line rest = (.text (some (lineIndent line)) line, rest) := by
      rw [takeLineToken, if_neg hblank]
      exact if_pos (by simpa using hbody)
    rw [if_neg hbody] at hwalk
    exact areLinesRead_text htaken hfirst hwalk (hnext _ _ _ hat.next (by simp))
  rw [if_pos hbody] at hwalk
  by_cases hcomment : opensComment (trim (lineContent line)) = true
  · have htaken : takeLineToken line rest =
        (.text (some (lineIndent line)) (line ++ (rest.takeWhile (isBelow (lineIndent line))).flatten),
          rest.dropWhile (isBelow (lineIndent line))) := by
      rw [takeLineToken, if_neg hblank]
      exact (if_neg (by simpa using hbody)).trans (if_pos hcomment)
    have hbelow := hat.next
    rw [← List.takeWhile_append_dropWhile (p := isBelow (lineIndent line)) (l := rest)] at hbelow
    rw [if_pos hcomment, hat.walkCommentLines_eq, ok_bind] at hwalk
    dsimp only at hwalk
    rw [if_pos (by omega)] at hwalk
    rw [htaken] at hshorter
    exact areLinesRead_text htaken hfirst hwalk (hnext _ _ _ hbelow.skip hshorter)
  · have htaken : takeLineToken line rest =
        (.header (lineIndent line) (.ofLines (trim (lineContent line)) (takeHeader line rest).1.flatten),
          (takeHeader line rest).2) := by
      rw [takeLineToken, if_neg hblank]
      exact (if_neg (by simpa using hbody)).trans (if_neg hcomment)
    have hlast' : place ≤ last := by
      have hlines := congrArg List.length (takeHeader_append line rest)
      have hrest := takeHeader_rest_length line rest
      simp only [List.length_append, List.length_cons] at hlines
      omega
    have hcut : itemsBetween lines place (last + 1) = .ok ((takeHeader line rest).1.map Line.of) := by
      rw [hstop, hheader.itemsBetween_eq]
    have hsame : ((takeHeader line rest).1.map Line.of).map Line.text = (takeHeader line rest).1 := by
      rw [List.map_map]
      exact List.map_id _
    rw [if_neg hcomment, hcut, ok_bind, hsame] at hwalk
    dsimp only at hwalk
    rw [walkLinesHeader_eq, ok_bind, if_pos hlast'] at hwalk
    rw [htaken] at hshorter
    exact areLinesRead_group htaken hfirst hwalk (Nat.lt_succ_of_le hlast') hafter
      fun parent? place after hat hle => hnext _ _ _ hat (Nat.lt_of_le_of_lt hle hshorter)

end Step

theorem areLinesRead (hat : IsLineAt lines place rest) : AreLinesRead lines parent? place rest := by
  induction hlength : rest.length using Nat.strongRecOn generalizing rest place parent? with
  | ind length ih =>
    subst hlength
    cases rest with
    | nil =>
      have hend := hat.length_eq
      refine ⟨place, [], ?_, hat, Nat.le_refl _, ?_⟩
      · rw [walkLevel, dif_neg (by simp only [List.length_nil] at hend; omega), lineTokens]
        simp [nest]
      · rw [lineTokens]
        rfl
    | cons line rest =>
      by_cases hin : belongs (nextIndent? (line :: rest)) parent? = true
      case neg => exact areLinesRead_end hat hin
      by_cases hblank : isBlankLine line = true
      · have htaken : takeLineToken line rest = (.text (nextIndent? rest) line, rest) := by
          rw [takeLineToken, if_pos hblank]
        have hwalk := @walkLevel_cons lines parent? place rest line hat
        rw [if_pos hblank, hat.walkNextIndent_eq, ok_bind, if_pos hin] at hwalk
        exact areLinesRead_text htaken (by rwa [isIn, indent?_takeLineToken]) hwalk
          (ih rest.length (Nat.lt_succ_self _) hat.next rfl)
      · exact areLinesRead_filled hat hblank hin fun parent? place after hafter hlt => ih _ hlt hafter rfl

end Level

theorem walkIndentation_eq (text : List Char) : walkIndentation text = .ok (readIndentation text) := by
  have hlines : (splitLines text).mapM walkLine = .ok ((splitLines text).map Line.of) :=
    mapM_eq_map fun line _ => walkLine_eq line
  obtain ⟨stop, after, hwalk, -⟩ :=
    @areLinesRead ((splitLines text).map Line.of) none 0 (splitLines text) ⟨[], rfl, rfl⟩
  have hall (tokens : List LineToken) : tokens.takeWhile (isIn none) = tokens := by
    induction tokens with
    | nil => rfl
    | cons token tokens ih => rw [List.takeWhile_cons_of_pos rfl, ih]
  rw [walkIndentation, hlines, ok_bind, hwalk, hall, readIndentation_eq_nest]
  rfl

end StyleMigration.Walk
