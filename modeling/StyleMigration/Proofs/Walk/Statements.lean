import StyleMigration.Proofs.Sheet.BraceGrammar
import StyleMigration.Proofs.Walk.Spans

/-!
Comments, blanks and statements of a stylesheet in braces, found by walking over its bytes. Blanks and
comments are passed (`skipTrivia_eq`), and a statement is walked over to the semicolon or brace that ends it
(`walkStatement_eq`), both without a fault. Comments in a statement are passed at one go, and so are
interpolations: these begin with their own opening brace, so no closing brace lowers the depth below zero
(`skipInterpolation_eq`).
-/

set_option autoImplicit false

namespace StyleMigration.Walk

open Text Sheet
open Selector (Quoting)

/-! ### The walks -/

/-- The offset behind the comment at an offset, if there is one. -/
def commentStop? (lineComments : Bool) (text : List Char) (i : Nat) : Except Fault (Option Nat) := do
  let rest ← cutFrom text i
  if ['/', '*'].isPrefixOf rest then do
    return some (((find? ['*', '/'] (← cutFrom rest 2)).map (i + 2 + · + 2)).getD (byteLength text))
  else if lineComments && ['/', '/'].isPrefixOf rest then
    return some (((find? ['\n'] rest).map (i + ·)).getD (byteLength text))
  else
    return none

/-- The offsets before and behind the blanks that follow the last comment at an offset. -/
def skipTrivia (lineComments : Bool) (text : List Char) (i : Nat) : Except Fault (Nat × Nat) := do
  let blanksStop ← skipBlanks (octets text) i
  match ← commentStop? lineComments text blanksStop with
  | some stop =>
    if _h : i < stop ∧ stop ≤ (octets text).length then skipTrivia lineComments text stop else throw .stuck
  | none => return (i, blanksStop)
termination_by (octets text).length - i

/-- The offset behind the brace that closes the first one, or behind the text; `depth` braces are open. -/
def skipInterpolation (bytes : Octets) (depth i : Nat) : Except Fault Nat :=
  if _h : i < bytes.length then do
    let c ← itemAt bytes i
    if c = '{' then skipInterpolation bytes (depth + 1) (i + 1)
    else if c = '}' then do
      let depth ← minus depth 1
      if depth = 0 then return i + 1 else skipInterpolation bytes depth (i + 1)
    else skipInterpolation bytes depth (i + 1)
  else
    return bytes.length
termination_by bytes.length - i

/-- What ends a statement, and the offset of the brace or behind the semicolon; `depth` parentheses and square
brackets are open, and a quoted string ends with `mark`. -/
def walkStatement (lineComments : Bool) (text : List Char) (depth : Nat) (mark : Option Char) (i : Nat) :
    Except Fault (Terminator × Nat) :=
  if _h : i < (octets text).length then do
    let c ← itemAt (octets text) i
    match mark with
    | some mark =>
      if c = mark then walkStatement lineComments text depth none (i + 1)
      else if c = '\\' then walkStatement lineComments text depth (some mark) (i + 2)
      else walkStatement lineComments text depth (some mark) (i + 1)
    | none =>
      if c = '\\' then walkStatement lineComments text depth none (i + 2)
      else if IsQuote c then walkStatement lineComments text depth (some c) (i + 1)
      else if c = '/' then do
        let rest ← cutFrom text i
        if ['/', '*'].isPrefixOf rest then do
          let last := ((find? ['*', '/'] (← cutFrom text (i + 2))).map (i + 2 + · + 1)).getD (byteLength text)
          if i < last then walkStatement lineComments text depth none (last + 1) else throw .stuck
        else if lineComments ∧ depth = 0 ∧ ['/', '/'].isPrefixOf rest then do
          let stop := ((find? ['\n'] rest).map (i + ·)).getD (byteLength text)
          if i < stop then walkStatement lineComments text depth none stop else throw .stuck
        else walkStatement lineComments text depth none (i + 1)
      else if c = '#' ∧ (octets text)[i + 1]? = some '{' then do
        let stop ← skipInterpolation (octets text) 0 (i + 1)
        if i < stop then walkStatement lineComments text depth none stop else throw .stuck
      else if c = '(' ∨ c = '[' then walkStatement lineComments text (depth + 1) none (i + 1)
      else if c = ')' ∨ c = ']' then walkStatement lineComments text (depth - 1) none (i + 1)
      else if c = ';' ∧ depth = 0 then return (.semicolon, i + 1)
      else if c = '{' ∧ depth = 0 then return (.opening, i)
      else if c = '}' ∧ depth = 0 then return (.stop, i)
      else walkStatement lineComments text depth none (i + 1)
  else
    return (.stop, min i (octets text).length)
termination_by (octets text).length - i

/-! ### Comments and blanks -/

section Trivia

variable {lineComments : Bool} {text rest : List Char} {i : Nat}

theorem blockCommentStop_eq {inner : List Char} (hat : IsAt text i ('/' :: '*' :: inner)) :
    ((find? ['*', '/'] inner).map (i + 2 + · + 2)).getD (byteLength text) =
      i + byteLength ('/' :: '*' :: (takeBlockComment inner).1) := by
  have hlength : i + (1 + (1 + byteLength inner)) = byteLength text := hat.length_eq
  have hfound := find?_comment inner
  show _ = i + (1 + (1 + byteLength (takeBlockComment inner).1))
  cases hplace : find? ['*', '/'] inner with
  | none =>
    rw [hplace, Option.map_none, Option.getD_none] at hfound
    rw [Option.map_none, Option.getD_none, ← hlength, hfound]
  | some place =>
    rw [hplace, Option.map_some, Option.getD_some] at hfound
    rw [Option.map_some, Option.getD_some, ← hfound]
    omega

theorem lineCommentStop_eq (hat : IsAt text i rest) :
    ((find? ['\n'] rest).map (i + ·)).getD (byteLength text) =
      i + byteLength (rest.takeWhile (· != '\n')) := by
  have hsplit := List.takeWhile_append_dropWhile (p := (· != '\n')) (l := rest)
  rw [find?_singleton]
  split
  · rename_i hnone
    rw [hnone, List.append_nil] at hsplit
    rw [hsplit]
    exact hat.length_eq.symm
  · rfl

theorem commentStop?_eq (hat : IsAt text i rest) :
    commentStop? lineComments text i =
      .ok ((takeComment? lineComments rest).map fun taken => i + byteLength taken.1) := by
  rw [commentStop?, hat.cutFrom_eq, ok_bind]
  fun_cases takeComment? lineComments rest with
  | case1 inner body after htaken =>
    have hinner : IsAt ('/' :: '*' :: inner) 2 inner := ⟨['/', '*'], rfl, rfl⟩
    rw [if_pos (by rfl), hinner.cutFrom_eq, ok_bind, blockCommentStop_eq hat, htaken]
    rfl
  | case2 inner hline =>
    rw [if_neg (by simp [List.isPrefixOf]), if_pos (by simp [hline, List.isPrefixOf]), lineCommentStop_eq hat]
    rfl
  | case3 inner hline =>
    rw [if_neg (by simp [List.isPrefixOf]), if_neg (by simp [hline])]
    rfl
  | case4 =>
    rename_i hblock hline
    have hstart : ¬['/', '*'].isPrefixOf rest = true := by
      rw [List.isPrefixOf_iff_prefix]
      rintro ⟨inner, rfl⟩
      exact hblock inner rfl
    have hstart' : ¬['/', '/'].isPrefixOf rest = true := by
      rw [List.isPrefixOf_iff_prefix]
      rintro ⟨inner, rfl⟩
      exact hline inner rfl
    rw [if_neg hstart, if_neg (by simp [hstart'])]
    rfl

theorem takeTrivia_of_comment {comment after : List Char}
    (hcomment : takeComment? lineComments (rest.dropWhile isAsciiBlank) = some (comment, after)) :
    takeTrivia lineComments rest =
      (rest.takeWhile isAsciiBlank ++ comment ++ (takeTrivia lineComments after).1,
        (takeTrivia lineComments after).2) := by
  have hshorter : after.length < rest.length :=
    Nat.lt_of_lt_of_le (takeComment?_append hcomment).2 (List.dropWhile_sublist _).length_le
  rw [takeTrivia, hcomment]
  exact dif_pos hshorter

theorem skipTrivia_eq (hat : IsAt text i rest) :
    skipTrivia lineComments text i =
      .ok (i + byteLength (takeTrivia lineComments rest).1,
        i + byteLength (takeTrivia lineComments rest).1 + byteLength (takeTrivia lineComments rest).2.1) := by
  induction hlength : rest.length using Nat.strongRecOn generalizing rest i with
  | ind length ih =>
    subst hlength
    have hblanks := List.takeWhile_append_dropWhile (p := isAsciiBlank) (l := rest)
    have hlonger := (List.dropWhile_sublist isAsciiBlank (l := rest)).length_le
    rw [skipTrivia, skipBlanks_eq hat, ok_bind]
    rw [← hblanks] at hat
    rw [commentStop?_eq hat.skip, ok_bind]
    cases hcomment : takeComment? lineComments (rest.dropWhile isAsciiBlank) with
    | none =>
      rw [takeTrivia, hcomment]
      rfl
    | some taken =>
      obtain ⟨comment, after⟩ := taken
      obtain ⟨happend, hshorter⟩ := takeComment?_append hcomment
      have hpositive : 0 < byteLength comment := by
        refine byteLength_pos ?_
        rintro rfl
        rw [← happend] at hshorter
        exact absurd hshorter (Nat.lt_irrefl _)
      rw [← happend] at hat
      have hafter := hat.skip.skip
      have hlength := hafter.length_eq
      rw [takeTrivia_of_comment hcomment, Option.map_some]
      dsimp only
      rw [dif_pos ⟨by omega, by rw [length_octets]; omega⟩, ih after.length (by omega) hafter rfl]
      simp only [byteLength_append, Nat.add_assoc]

end Trivia

/-! ### Inside a statement -/

theorem scanStatement_blockComment (lineComments : Bool) (depth : Nat) (text : List Char) :
    scanStatement lineComments depth .blockComment text =
      (scanStatement lineComments depth .plain (takeBlockComment text).2).prepend (takeBlockComment text).1 := by
  fun_induction takeBlockComment text with
  | case1 => rfl
  | case2 text => rfl
  | case3 c text hopen body rest htaken ih =>
    rw [htaken] at ih
    rw [scanStatement, ih]
    · rfl
    · exact hopen

theorem scanStatement_lineComment (lineComments : Bool) (depth : Nat) (text : List Char) :
    scanStatement lineComments depth .lineComment text =
      (scanStatement lineComments depth .plain (text.dropWhile (· != '\n'))).prepend
        (text.takeWhile (· != '\n')) := by
  induction text with
  | nil => rfl
  | cons c text ih =>
    by_cases hc : c = '\n'
    · rw [hc]
      rfl
    · rw [scanStatement, if_neg hc, ih, List.dropWhile_cons_of_pos (by simpa using hc),
        List.takeWhile_cons_of_pos (by simpa using hc)]
      rfl

section Interpolation

variable {bytes : Octets} {depth i : Nat} {c : Char}

theorem skipInterpolation_cons (hget : bytes[i]? = some c) :
    skipInterpolation bytes depth i =
      if c = '{' then skipInterpolation bytes (depth + 1) (i + 1)
      else if c = '}' then do
        let depth ← minus depth 1
        if depth = 0 then return i + 1 else skipInterpolation bytes depth (i + 1)
      else skipInterpolation bytes depth (i + 1) := by
  rw [skipInterpolation, dif_pos (lt_length_of_getElem? hget), itemAt_of_getElem? hget]
  rfl

theorem skipInterpolation_passes (hget : bytes[i]? = some c) (hc : ¬IsAscii c) :
    skipInterpolation bytes depth i = skipInterpolation bytes depth (i + 1) := by
  rw [skipInterpolation_cons hget, if_neg (ne_of_not_isAscii hc (by decide)),
    if_neg (ne_of_not_isAscii hc (by decide))]

/-- With a brace open, an interpolation is passed without a fault, up to where a scan of the statement takes
it to end. -/
theorem skipInterpolation_eq {text rest : List Char} (hdepth : 0 < depth) (hat : IsAt text i rest) :
    ∃ inside after, rest = inside ++ after ∧
      skipInterpolation (octets text) depth i = .ok (i + byteLength inside) ∧
      ∀ lineComments level, scanStatement lineComments level (.interpolation depth) rest =
        (scanStatement lineComments level .plain after).prepend inside := by
  induction rest generalizing depth i with
  | nil =>
    refine ⟨[], [], rfl, ?_, fun _ _ => rfl⟩
    rw [skipInterpolation, dif_neg hat.not_lt_octets,
      length_octets, hat.eq_of_nil]
    rfl
  | cons c rest ih =>
    -- The interpolation goes on behind the character with `depth'` braces open.
    have hgoes {depth' : Nat} (hdepth' : 0 < depth')
        (hwalk : skipInterpolation (octets text) depth i =
          skipInterpolation (octets text) depth' (i + c.utf8Size))
        (hscan : ∀ lineComments level, scanStatement lineComments level (.interpolation depth) (c :: rest) =
          (scanStatement lineComments level (.interpolation depth') rest).cons c) :
        ∃ inside after, c :: rest = inside ++ after ∧
          skipInterpolation (octets text) depth i = .ok (i + byteLength inside) ∧
          ∀ lineComments level, scanStatement lineComments level (.interpolation depth) (c :: rest) =
            (scanStatement lineComments level .plain after).prepend inside := by
      obtain ⟨inside, after, rfl, hstop, hrest⟩ := ih hdepth' hat.next
      refine ⟨c :: inside, after, rfl, ?_, fun lineComments level => ?_⟩
      · rw [hwalk, hstop, byteLength, Nat.add_assoc]
      · rw [hscan, hrest]
        rfl
    by_cases hc : IsAscii c
    · have hget := hat.getElem?_of_isAscii hc
      have hone := utf8Size_of_isAscii hc
      by_cases hopening : c = '{'
      · refine hgoes (Nat.succ_pos depth) ?_ fun _ _ => ?_
        · rw [skipInterpolation_cons hget, if_pos hopening, hone]
        · rw [scanStatement, if_pos hopening]
      by_cases hclosing : c = '}'
      · by_cases hlast : depth = 1
        · refine ⟨[c], rest, rfl, ?_, fun _ _ => ?_⟩
          · rw [skipInterpolation_cons hget, if_neg hopening, if_pos hclosing, minus_of_le hdepth, ok_bind,
              if_pos (by omega), byteLength, hone]
            rfl
          · rw [scanStatement, if_neg hopening, if_pos hclosing, if_pos (by omega)]
            rfl
        · refine hgoes (show 0 < depth - 1 by omega) ?_ fun _ _ => ?_
          · rw [skipInterpolation_cons hget, if_neg hopening, if_pos hclosing, minus_of_le hdepth, ok_bind,
              if_neg (by omega), hone]
          · rw [scanStatement, if_neg hopening, if_pos hclosing, if_neg (by omega)]
      · refine hgoes hdepth ?_ fun _ _ => ?_
        · rw [skipInterpolation_cons hget, if_neg hopening, if_neg hclosing, hone]
        · rw [scanStatement, if_neg hopening, if_neg hclosing]
    · refine hgoes hdepth ((hat.isNear hc).eq hat.next fun _ _ => skipInterpolation_passes) fun _ _ => ?_
      rw [scanStatement, if_neg (ne_of_not_isAscii hc (by decide)), if_neg (ne_of_not_isAscii hc (by decide))]

end Interpolation

/-! ### Statements -/

section Statement

variable {lineComments : Bool} {text : List Char} {depth i : Nat} {c : Char}

theorem walkStatement_of_le {mark : Option Char} (hle : (octets text).length ≤ i) :
    walkStatement lineComments text depth mark i = .ok (.stop, (octets text).length) := by
  rw [walkStatement, dif_neg (Nat.not_lt.mpr hle), Nat.min_eq_right hle]
  rfl

theorem walkStatement_none (hget : (octets text)[i]? = some c) :
    walkStatement lineComments text depth none i =
      if c = '\\' then walkStatement lineComments text depth none (i + 2)
      else if IsQuote c then walkStatement lineComments text depth (some c) (i + 1)
      else if c = '/' then do
        let rest ← cutFrom text i
        if ['/', '*'].isPrefixOf rest then do
          let last := ((find? ['*', '/'] (← cutFrom text (i + 2))).map (i + 2 + · + 1)).getD (byteLength text)
          if i < last then walkStatement lineComments text depth none (last + 1) else throw .stuck
        else if lineComments ∧ depth = 0 ∧ ['/', '/'].isPrefixOf rest then do
          let stop := ((find? ['\n'] rest).map (i + ·)).getD (byteLength text)
          if i < stop then walkStatement lineComments text depth none stop else throw .stuck
        else walkStatement lineComments text depth none (i + 1)
      else if c = '#' ∧ (octets text)[i + 1]? = some '{' then do
        let stop ← skipInterpolation (octets text) 0 (i + 1)
        if i < stop then walkStatement lineComments text depth none stop else throw .stuck
      else if c = '(' ∨ c = '[' then walkStatement lineComments text (depth + 1) none (i + 1)
      else if c = ')' ∨ c = ']' then walkStatement lineComments text (depth - 1) none (i + 1)
      else if c = ';' ∧ depth = 0 then return (.semicolon, i + 1)
      else if c = '{' ∧ depth = 0 then return (.opening, i)
      else if c = '}' ∧ depth = 0 then return (.stop, i)
      else walkStatement lineComments text depth none (i + 1) := by
  rw [walkStatement, dif_pos (lt_length_of_getElem? hget), itemAt_of_getElem? hget]
  rfl

theorem walkStatement_some {mark : Char} (hget : (octets text)[i]? = some c) :
    walkStatement lineComments text depth (some mark) i =
      if c = mark then walkStatement lineComments text depth none (i + 1)
      else if c = '\\' then walkStatement lineComments text depth (some mark) (i + 2)
      else walkStatement lineComments text depth (some mark) (i + 1) := by
  rw [walkStatement, dif_pos (lt_length_of_getElem? hget), itemAt_of_getElem? hget]
  rfl

theorem knowsQuotes_walkStatement (lineComments : Bool) (text : List Char) (depth : Nat) :
    KnowsQuotes (octets text) (walkStatement lineComments text depth) := by
  refine .of_step walkStatement_none walkStatement_some fun {i c} hwide => ?_
  have hother {mark : Char} (hmark : IsAscii mark) : c ≠ mark := ne_of_not_isAscii hwide hmark
  rw [if_neg (hother (by decide)), if_neg fun hboth => hother (by decide) hboth.1,
    if_neg (not_or.mpr ⟨hother (by decide), hother (by decide)⟩),
    if_neg (not_or.mpr ⟨hother (by decide), hother (by decide)⟩),
    if_neg fun hboth => hother (by decide) hboth.1, if_neg fun hboth => hother (by decide) hboth.1,
    if_neg fun hboth => hother (by decide) hboth.1]

/-- Where a scan of a statement stands outside comments and interpolations. -/
def stateOf : Quoting → StatementState
  | .bare => .plain
  | .escape => .escape
  | .inside mark => .quoted mark
  | .insideEscape mark => .quotedEscape mark

theorem scanStatement_plain {rest : List Char} (hcomment : ¬(c = '/' ∧ rest.head? = some '*')) :
    scanStatement lineComments depth .plain (c :: rest) =
      if c = '\\' then (scanStatement lineComments depth .escape rest).cons c
      else if IsQuote c then (scanStatement lineComments depth (.quoted c) rest).cons c
      else if c = '/' ∧ lineComments ∧ depth = 0 ∧ rest.head? = some '/' then
        (scanStatement lineComments depth .lineComment rest).cons c
      else if c = '#' ∧ rest.head? = some '{' then
        (scanStatement lineComments depth (.interpolation 0) rest).cons c
      else if c = '(' ∨ c = '[' then (scanStatement lineComments (depth + 1) .plain rest).cons c
      else if c = ')' ∨ c = ']' then (scanStatement lineComments (depth - 1) .plain rest).cons c
      else if c = ';' ∧ depth = 0 then ⟨[c], .semicolon, rest⟩
      else if c = '{' ∧ depth = 0 then ⟨[], .opening, rest⟩
      else if c = '}' ∧ depth = 0 then ⟨[], .stop, c :: rest⟩
      else (scanStatement lineComments depth .plain rest).cons c := by
  rw [scanStatement]
  · rfl
  · rintro inner rfl rfl
    exact hcomment ⟨rfl, rfl⟩

/-- A scan of a statement knows quotes as a scan of a selector does. -/
theorem scanStatement_step {quoting : Quoting} (hquoting : HasQuotes quoting) {rest : List Char}
    (hbare : quoting = .bare → c = '\\' ∨ IsQuote c ∨ ¬IsAscii c) :
    scanStatement lineComments depth (stateOf quoting) (c :: rest) =
      (scanStatement lineComments depth (stateOf (quoting.step c)) rest).cons c := by
  cases quoting with
  | bare =>
    show scanStatement lineComments depth .plain (c :: rest) = _
    rcases hbare rfl with rfl | hquote | hwide
    · rw [scanStatement_plain fun hboth => absurd hboth.1 (by decide), if_pos rfl]
      rfl
    · have hslash : c ≠ '/' := by
        rintro rfl
        exact absurd hquote (by decide)
      rw [scanStatement_plain fun hboth => hslash hboth.1, if_neg hquote.ne_backslash, if_pos hquote,
        step_of_isQuote hquote]
      rfl
    · have hother {mark : Char} (hmark : IsAscii mark) : c ≠ mark := ne_of_not_isAscii hwide hmark
      have hquote : ¬IsQuote c := fun hquote => hwide hquote.isAscii
      rw [scanStatement_plain fun hboth => hother (by decide) hboth.1, if_neg (hother (by decide)),
        if_neg hquote, if_neg fun hall => hother (by decide) hall.1,
        if_neg fun hboth => hother (by decide) hboth.1,
        if_neg (not_or.mpr ⟨hother (by decide), hother (by decide)⟩),
        if_neg (not_or.mpr ⟨hother (by decide), hother (by decide)⟩),
        if_neg fun hboth => hother (by decide) hboth.1, if_neg fun hboth => hother (by decide) hboth.1,
        if_neg fun hboth => hother (by decide) hboth.1, step_of_not_isQuote (hother (by decide)) hquote]
      rfl
  | escape => rw [stateOf, scanStatement, Quoting.step, stateOf]
  | inside mark =>
    have hmark : mark ≠ '\\' := IsQuote.ne_backslash hquoting
    simp only [stateOf, scanStatement, Quoting.step]
    by_cases hbackslash : c = '\\'
    · rw [if_neg fun heq => hmark (heq.symm.trans hbackslash), if_pos hbackslash, if_pos hbackslash]
    · rw [if_neg hbackslash, if_neg hbackslash]
      split <;> rfl
  | insideEscape mark => rw [stateOf, scanStatement, Quoting.step, stateOf]

/-- A comment in a statement is passed at one go. Without an end mark the walk goes one byte past the end of
the text. -/
theorem walk_blockComment {inner : List Char} (hat : IsAt text i ('/' :: '*' :: inner)) {last : Nat}
    (hlast : last = ((find? ['*', '/'] inner).map (i + 2 + · + 1)).getD (byteLength text)) :
    i < last ∧ walkStatement lineComments text depth none (last + 1) =
      walkStatement lineComments text depth none
        (i + byteLength ('/' :: '*' :: (takeBlockComment inner).1)) := by
  have hlength := hat.lt_length
  have hstop := blockCommentStop_eq hat
  rw [← hstop, hlast]
  cases find? ['*', '/'] inner with
  | none =>
    simp only [Option.map_none, Option.getD_none]
    refine ⟨hlength, ?_⟩
    rw [walkStatement_of_le (by rw [length_octets]; omega), walkStatement_of_le (Nat.le_of_eq (length_octets text))]
  | some place =>
    simp only [Option.map_some, Option.getD_some]
    exact ⟨by omega, trivial⟩

/-- From the offset `i` before `whole`, the walk and the scan pass the same characters and go on outside quotes,
with as many brackets open. -/
def Advances (lineComments : Bool) (text : List Char) (depth i : Nat) (whole : List Char) : Prop :=
  ∃ front after depth', whole = front ++ after ∧ front ≠ [] ∧
    walkStatement lineComments text depth none i =
      walkStatement lineComments text depth' none (i + byteLength front) ∧
    scanStatement lineComments depth .plain whole = (scanStatement lineComments depth' .plain after).prepend front

/-- From the offset `i` before `whole`, the walk ends where the scan does. -/
def Ends (lineComments : Bool) (text : List Char) (depth i : Nat) (whole : List Char) : Prop :=
  walkStatement lineComments text depth none i =
    .ok ((scanStatement lineComments depth .plain whole).ended,
      i + byteLength (scanStatement lineComments depth .plain whole).text)

section Step

variable {rest : List Char}

theorem advances_one {depth' : Nat} (hc : IsAscii c)
    (hwalk : walkStatement lineComments text depth none i = walkStatement lineComments text depth' none (i + 1))
    (hscan : scanStatement lineComments depth .plain (c :: rest) =
      (scanStatement lineComments depth' .plain rest).cons c) :
    Advances lineComments text depth i (c :: rest) := by
  refine ⟨[c], rest, depth', rfl, List.cons_ne_nil _ _, ?_, hscan⟩
  rw [hwalk, byteLength, byteLength, utf8Size_of_isAscii hc]

theorem advances_blockComment (hat : IsAt text i ('/' :: '*' :: rest)) :
    Advances lineComments text depth i ('/' :: '*' :: rest) := by
  have hinner := (hat.next_of_isAscii (by decide)).next_of_isAscii (by decide)
  obtain ⟨hlt, hwalk⟩ := @walk_blockComment lineComments text depth i rest hat _ rfl
  refine ⟨'/' :: '*' :: (takeBlockComment rest).1, (takeBlockComment rest).2, depth, ?_,
    List.cons_ne_nil _ _, ?_, ?_⟩
  · rw [List.cons_append, List.cons_append, takeBlockComment_append]
  · rw [walkStatement_none (hat.getElem?_of_isAscii (by decide)), if_neg (by decide), if_neg (by decide),
      if_pos rfl, hat.cutFrom_eq, ok_bind, if_pos (isPrefixOf_pair_iff.mpr ⟨rfl, rfl⟩), hinner.cutFrom_eq,
      ok_bind]
    dsimp only
    rw [if_pos hlt, hwalk]
  · rw [scanStatement, scanStatement_blockComment]
    rfl

/-- A slash that begins no block comment is passed, with the rest of its line if it begins a line comment. -/
theorem advances_slash (hat : IsAt text i ('/' :: rest)) (hstar : rest.head? ≠ some '*') :
    Advances lineComments text depth i ('/' :: rest) := by
  have hplain := @scanStatement_plain lineComments depth '/' rest fun hboth => hstar hboth.2
  have hwalk := @walkStatement_none lineComments text depth i '/' (hat.getElem?_of_isAscii (by decide))
  rw [if_neg (by decide), if_neg (by decide)] at hplain
  rw [if_neg (by decide), if_neg (by decide), if_pos rfl, hat.cutFrom_eq, ok_bind,
    if_neg fun hpair => hstar (isPrefixOf_pair_iff.mp hpair).2] at hwalk
  by_cases hline : lineComments = true ∧ depth = 0 ∧ rest.head? = some '/'
  · have hfront : ('/' :: rest).takeWhile (· != '\n') = '/' :: rest.takeWhile (· != '\n') := rfl
    rw [if_pos ⟨rfl, hline⟩, scanStatement_lineComment] at hplain
    rw [if_pos ⟨hline.1, hline.2.1, isPrefixOf_pair_iff.mpr ⟨rfl, hline.2.2⟩⟩] at hwalk
    dsimp only at hwalk
    rw [lineCommentStop_eq hat, hfront,
      if_pos (Nat.lt_add_of_pos_right (byteLength_pos (List.cons_ne_nil _ _)))] at hwalk
    refine ⟨_, rest.dropWhile (· != '\n'), depth, ?_, List.cons_ne_nil _ _, hwalk, hplain⟩
    rw [List.cons_append, List.takeWhile_append_dropWhile]
  · rw [if_neg fun hall => hline hall.2, if_neg fun hboth => absurd hboth.1 (by decide), if_neg (by decide),
      if_neg (by decide), if_neg fun hboth => absurd hboth.1 (by decide),
      if_neg fun hboth => absurd hboth.1 (by decide), if_neg fun hboth => absurd hboth.1 (by decide)] at hplain
    rw [if_neg fun hall => hline ⟨hall.1, hall.2.1, (isPrefixOf_pair_iff.mp hall.2.2).2⟩] at hwalk
    exact advances_one (by decide) hwalk hplain

theorem advances_interpolation (hat : IsAt text i ('#' :: '{' :: rest)) :
    Advances lineComments text depth i ('#' :: '{' :: rest) := by
  have hnext := hat.next_of_isAscii (by decide)
  obtain ⟨inside, after, rfl, hstop, hscan⟩ :=
    skipInterpolation_eq (Nat.succ_pos 0) (hnext.next_of_isAscii (by decide))
  have hopens : scanStatement lineComments depth (.interpolation 0) ('{' :: (inside ++ after)) =
      ((scanStatement lineComments depth .plain after).prepend inside).cons '{' := by
    rw [scanStatement, if_pos rfl, hscan]
  have hend : i + 1 + 1 + byteLength inside = i + byteLength ('#' :: '{' :: inside) := by
    rw [Nat.add_assoc, Nat.add_assoc]
    rfl
  refine ⟨'#' :: '{' :: inside, after, depth, rfl, List.cons_ne_nil _ _, ?_, ?_⟩
  · rw [walkStatement_none (hat.getElem?_of_isAscii (by decide)), if_neg (by decide), if_neg (by decide),
      if_neg (by decide), if_pos ⟨rfl, hnext.getElem?_of_isAscii (by decide)⟩,
      skipInterpolation_cons (hnext.getElem?_of_isAscii (by decide)), if_pos rfl, hstop, ok_bind,
      if_pos (by omega), hend]
  · rw [scanStatement_plain fun hboth => absurd hboth.1 (by decide), if_neg (by decide), if_neg (by decide),
      if_neg fun hall => absurd hall.1 (by decide), if_pos ⟨rfl, rfl⟩, hopens]
    rfl

/-- Outside quotes and escapes, one step of the walk goes as far as the scan of characters does. -/
theorem walkStatement_step (hat : IsAt text i (c :: rest)) (hc : IsAscii c) (hbackslash : c ≠ '\\')
    (hquote : ¬IsQuote c) :
    Advances lineComments text depth i (c :: rest) ∨ Ends lineComments text depth i (c :: rest) := by
  by_cases hslash : c = '/'
  · subst hslash
    by_cases hstar : rest.head? = some '*'
    · obtain ⟨inner, rfl⟩ := List.head?_eq_some_iff.mp hstar
      exact .inl (advances_blockComment hat)
    · exact .inl (advances_slash hat hstar)
  by_cases hsharp : c = '#' ∧ rest.head? = some '{'
  · obtain ⟨rfl, hbrace⟩ := hsharp
    obtain ⟨inner, rfl⟩ := List.head?_eq_some_iff.mp hbrace
    exact .inl (advances_interpolation hat)
  have hbrace := (hat.next_of_isAscii hc).getElem?_eq_some_iff (show IsAscii '{' by decide)
  have hone : byteLength [c] = 1 := by rw [byteLength, byteLength, utf8Size_of_isAscii hc]
  have hplain := @scanStatement_plain lineComments depth c rest fun hboth => hslash hboth.1
  have hwalk := @walkStatement_none lineComments text depth i c (hat.getElem?_of_isAscii hc)
  rw [if_neg hbackslash, if_neg hquote, if_neg fun hall => hslash hall.1, if_neg hsharp] at hplain
  rw [if_neg hbackslash, if_neg hquote, if_neg hslash,
    if_neg fun hboth => hsharp ⟨hboth.1, hbrace.mp hboth.2⟩] at hwalk
  by_cases hopens : c = '(' ∨ c = '['
  · rw [if_pos hopens] at hplain hwalk
    exact .inl (advances_one hc hwalk hplain)
  rw [if_neg hopens] at hplain hwalk
  by_cases hcloses : c = ')' ∨ c = ']'
  · rw [if_pos hcloses] at hplain hwalk
    exact .inl (advances_one hc hwalk hplain)
  rw [if_neg hcloses] at hplain hwalk
  by_cases hsemicolon : c = ';' ∧ depth = 0
  · rw [if_pos hsemicolon] at hplain hwalk
    right
    rw [Ends, hwalk, hplain, hone]
    rfl
  rw [if_neg hsemicolon] at hplain hwalk
  by_cases hopening : c = '{' ∧ depth = 0
  · rw [if_pos hopening] at hplain hwalk
    right
    rw [Ends, hwalk, hplain]
    rfl
  rw [if_neg hopening] at hplain hwalk
  by_cases hclosing : c = '}' ∧ depth = 0
  · rw [if_pos hclosing] at hplain hwalk
    right
    rw [Ends, hwalk, hplain]
    rfl
  rw [if_neg hclosing] at hplain hwalk
  exact .inl (advances_one hc hwalk hplain)

end Step

/-- A statement is walked over without a fault to the character that ends it. -/
theorem resume_walkStatement {quoting : Quoting} (hquoting : HasQuotes quoting) {rest : List Char}
    (hat : IsAt text i rest) :
    resume (walkStatement lineComments text depth) i quoting =
      .ok ((scanStatement lineComments depth (stateOf quoting) rest).ended,
        i + byteLength (scanStatement lineComments depth (stateOf quoting) rest).text) := by
  induction hlength : rest.length using Nat.strongRecOn generalizing rest depth i quoting with
  | ind length ih =>
    subst hlength
    cases rest with
    | nil =>
      have hlength : (octets text).length = i := by rw [length_octets, hat.eq_of_nil]
      cases quoting <;> rw [resume, walkStatement_of_le (by omega), hlength] <;> rfl
    | cons c rest =>
      by_cases hspecial : quoting = .bare → c = '\\' ∨ IsQuote c ∨ ¬IsAscii c
      · rw [(knowsQuotes_walkStatement lineComments text depth).resume_eq hquoting hat hspecial,
          ih rest.length (by simp) (hquoting.step c) hat.next rfl, scanStatement_step hquoting hspecial]
        simp [Scanned.cons, byteLength, Nat.add_assoc]
      obtain ⟨rfl, hbackslash, hquote, hc⟩ : quoting = .bare ∧ c ≠ '\\' ∧ ¬IsQuote c ∧ IsAscii c := by
        grind
      rcases walkStatement_step hat hc hbackslash hquote with hadvances | hends
      · obtain ⟨front, after, depth', hsplit, hne, hwalk, hscan⟩ := hadvances
        have hshorter : after.length < (c :: rest).length := by
          have hpositive := List.length_pos_iff.mpr hne
          rw [hsplit, List.length_append]
          omega
        rw [hsplit] at hat
        have hafter : walkStatement lineComments text depth' none (i + byteLength front) = _ :=
          ih after.length hshorter (show HasQuotes .bare from trivial) hat.skip rfl
        rw [resume, stateOf, hwalk, hafter, stateOf, hscan]
        simp [Scanned.prepend, byteLength_append, Nat.add_assoc]
      · exact hends

theorem walkStatement_eq {rest : List Char} (hat : IsAt text i rest) :
    walkStatement lineComments text 0 none i =
      .ok ((takeStatement lineComments rest).ended, i + byteLength (takeStatement lineComments rest).text) :=
  resume_walkStatement (show HasQuotes .bare from trivial) hat

end Statement

end StyleMigration.Walk
