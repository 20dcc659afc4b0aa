import StyleMigration.Proofs.Selector.Compound
import StyleMigration.Proofs.Walk.Spans

/-!
Selectors read by walking over the bytes of their text. Every part of a branch is cut out of the text between
two offsets that the walks give: the part that starts at an offset is the one that is told by characters, and
its end is where the walk goes on (`walkPart_eq`). So no byte is read past the end and no text is cut inside a
character, and reading over bytes gives what reading by characters gives (`walkSelector_eq`).
-/

set_option autoImplicit false

namespace StyleMigration.Walk

open Text Selector

/-! ### The reader -/

/-- The length of the sign of a combinator at the front of a text. -/
def signLength? (text : List Char) : Option Nat :=
  if ['>', '>', '>'].isPrefixOf text then some 3
  else if ['/', 'd', 'e', 'e', 'p', '/'].isPrefixOf text then some 6
  else if text.head? = some '>' ∨ text.head? = some '+' ∨ text.head? = some '~' then some 1
  else none

/-- A combinator at an offset, and the offset behind it. -/
def walkCombinator? (text : List Char) (i : Nat) : Except Fault (Option (Leaf × Nat)) := do
  let c ← itemAt (octets text) i
  if isAsciiBlank c then do
    let sign ← skipBlanks (octets text) i
    match signLength? (← cutFrom text sign) with
    | some length => do
      let stop ← skipBlanks (octets text) (sign + length)
      return some (.combinator (← cut text sign (sign + length)) (← cut text i stop), stop)
    | none => return some (.combinator [' '] (← cut text i sign), sign)
  else
    match signLength? (← cutFrom text i) with
    | some length => do
      let stop ← skipBlanks (octets text) (i + length)
      return some (.combinator (← cut text i (i + length)) (← cut text i stop), stop)
    | none => return none

/-- A pseudo-class or pseudo-element whose colons are at the offset `i` and whose name is at `nameStart`, and
the offset behind it. Its argument is read by `readArgument` where it is a selector list. -/
def walkNamed (readArgument : List Char → Except Fault (List Branch)) (text : List Char)
    (i nameStart : Nat) : Except Fault (Part × Nat) := do
  let nameStop ← scanName (octets text) nameStart
  let value ← cut text i nameStop
  if (octets text)[nameStop]? = some '(' then do
    let stop ← scanBrackets (octets text) .round 0 none nameStop
    let last ← minus stop 1
    let innerStop := if (octets text)[last]? = some ')' ∧ nameStop < last then last else stop
    let inner ← cut text (nameStop + 1) innerStop
    let name ← cut text nameStart nameStop
    if takesList name && !isAllBlank inner then return (.list value (← readArgument inner), stop)
    else return (.leaf (.function value inner), stop)
  else
    return (.leaf (.pseudo value), nameStop)

/-- A pseudo-class or pseudo-element at an offset, and the offset behind it. -/
def walkPseudo (readArgument : List Char → Except Fault (List Branch)) (text : List Char) (i : Nat) :
    Except Fault (Part × Nat) :=
  walkNamed readArgument text i (if (octets text)[i + 1]? = some ':' then i + 2 else i + 1)

/-- A leaf whose text lies between two offsets, and the second one. -/
def cutLeaf (leaf : List Char → Leaf) (text : List Char) (i stop : Nat) : Except Fault (Part × Nat) := do
  return (.leaf (leaf (← cut text i stop)), stop)

/-- A simple selector or a comment at an offset, and the offset behind it. -/
def walkSimple (readArgument : List Char → Except Fault (List Branch)) (text : List Char) (i : Nat) :
    Except Fault (Part × Nat) := do
  let c ← itemAt (octets text) i
  if c = '/' ∧ ['/', '*'].isPrefixOf (← cutFrom text i) then do
    let stop := match find? ['*', '/'] (← cutFrom text (i + 2)) with
      | some place => i + 2 + place + 2
      | none => byteLength text
    cutLeaf .comment text i stop
  else if c = '.' then do
    cutLeaf .className text i (← scanName (octets text) (i + 1))
  else if c = '#' then do
    if (octets text)[i + 1]? = some '{' then
      cutLeaf .other text i (← scanBrackets (octets text) .curly 0 none (i + 1))
    else
      cutLeaf .id text i (← scanName (octets text) (i + 1))
  else if c = '[' then do
    cutLeaf .attr text i (← scanBrackets (octets text) .square 0 none i)
  else if c = '&' then
    return (.leaf .nesting, i + 1)
  else if c = '*' then
    return (.leaf (.universal ['*']), i + 1)
  else if c = ':' then
    walkPseudo readArgument text i
  else if isNameChar c then do
    cutLeaf .tag text i (← scanName (octets text) i)
  else do
    let width := ((← cutFrom text i).head?.map Char.utf8Size).getD 1
    cutLeaf .other text i (i + width)

/-- The part at an offset, and the offset behind it. -/
def walkPart (readArgument : List Char → Except Fault (List Branch)) (text : List Char) (i : Nat) :
    Except Fault (Part × Nat) := do
  match ← walkCombinator? text i with
  | some (leaf, stop) => return (.leaf leaf, stop)
  | none => walkSimple readArgument text i

/-- The parts of a branch from an offset on. -/
def walkParts (readArgument : List Char → Except Fault (List Branch)) (text : List Char) (i : Nat) :
    Except Fault (List Part) :=
  if _h : i < (octets text).length then do
    let (part, stop) ← walkPart readArgument text i
    if i < stop then return part :: (← walkParts readArgument text stop) else throw .stuck
  else
    return []
termination_by (octets text).length - i

/-- The branch that a segment is. -/
def walkBranch (readArgument : List Char → Except Fault (List Branch)) (segment : List Char) :
    Except Fault Branch := do
  let core := trim segment
  let lead ← minus (byteLength segment) (byteLength (trimStart segment))
  let before ← cut segment 0 lead
  let after ← cutFrom segment (lead + byteLength core)
  let parts ← walkParts readArgument core 0
  return .mk before parts after

/-- Reads a selector list whose arguments are nested less than `depth` deep. -/
def walkList : Nat → List Char → Except Fault (List Branch)
  | 0, _ => throw .stuck
  | depth + 1, text => do
    if isAllBlank text then return []
    else (← walkSegments text 0 none 0).mapM (walkBranch (walkList depth))

/-- Reads a selector list over its bytes. -/
def walkSelector (text : List Char) : Except Fault (List Branch) :=
  walkList (text.length + 1) text

/-! ### Combinators -/

theorem signLength?_eq (text : List Char) :
    signLength? text = (takeSign? text).map fun taken => byteLength taken.1 := by
  simp only [signLength?, List.isPrefixOf_iff_prefix]
  by_cases hchevrons : ['>', '>', '>'] <+: text
  · rw [if_pos hchevrons]
    obtain ⟨others, rfl⟩ := hchevrons
    rfl
  by_cases hslashes : ['/', 'd', 'e', 'e', 'p', '/'] <+: text
  · rw [if_neg hchevrons, if_pos hslashes]
    obtain ⟨others, rfl⟩ := hslashes
    rfl
  rw [if_neg hchevrons, if_neg hslashes]
  cases htaken : takeSign? text with
  | none =>
    refine if_neg ?_
    rintro (hhead | hhead | hhead)
    all_goals
      obtain ⟨others, rfl⟩ := List.head?_eq_some_iff.mp hhead
    · rw [takeSign?] at htaken
      · cases htaken
      · rintro back rfl
        exact hchevrons ⟨back, rfl⟩
    · cases htaken
    · cases htaken
  | some taken =>
    unfold takeSign? at htaken
    split at htaken
    case h_1 others => exact absurd ⟨others, rfl⟩ hchevrons
    case h_2 others => exact absurd ⟨others, rfl⟩ hslashes
    case h_6 => cases htaken
    all_goals
      cases htaken
      rfl

section Combinator

variable {text rest : List Char} {i : Nat} {c : Char}

theorem isAsciiBlank_of_not_isAscii (hc : ¬IsAscii c) : isAsciiBlank c = false :=
  Bool.eq_false_iff.mpr fun hblank => hc (isAscii_of_isAsciiBlank hblank)

/-- A sign at an offset with the blanks after it; `front` are the blanks before it. -/
theorem walk_sign {front sign after : List Char} (hat : IsAt text i (front ++ (sign ++ after))) :
    skipBlanks (octets text) (i + byteLength front + byteLength sign) =
        .ok (i + byteLength (front ++ sign ++ after.takeWhile isAsciiBlank)) ∧
      cut text (i + byteLength front) (i + byteLength front + byteLength sign) = .ok sign ∧
      cut text i (i + byteLength (front ++ sign ++ after.takeWhile isAsciiBlank)) =
        .ok (front ++ sign ++ after.takeWhile isAsciiBlank) := by
  have hsign := hat.skip
  refine ⟨?_, hsign.cut_eq, ?_⟩
  · rw [skipBlanks_eq hsign.skip, byteLength_append, byteLength_append]
    simp only [Nat.add_assoc]
  · rw [← List.takeWhile_append_dropWhile (p := isAsciiBlank) (l := after)] at hat
    rw [← List.append_assoc, ← List.append_assoc] at hat
    exact hat.cut_eq

theorem walkCombinator?_eq (hat : IsAt text i (c :: rest)) :
    walkCombinator? text i = .ok ((takeCombinator? (c :: rest)).map fun taken =>
      (taken.1, i + byteLength taken.1.text)) := by
  obtain ⟨d, hd, hcases⟩ := exists_itemAt hat
  have hblank : isAsciiBlank d = isAsciiBlank c := by
    rcases hcases with ⟨-, rfl⟩ | ⟨hc, hd⟩
    · rfl
    · rw [isAsciiBlank_of_not_isAscii hc, isAsciiBlank_of_not_isAscii hd]
  rw [walkCombinator?, hd, ok_bind, hblank]
  by_cases hc : isAsciiBlank c = true
  · have hblanks := List.takeWhile_append_dropWhile (p := isAsciiBlank) (l := c :: rest)
    have hne : ((c :: rest).takeWhile isAsciiBlank).isEmpty = false := by
      rw [List.takeWhile_cons_of_pos hc, List.isEmpty_cons]
    rw [if_pos hc, skipBlanks_eq hat, ok_bind, takeCombinator?]
    rw [← hblanks] at hat
    rw [hat.skip.cutFrom_eq, ok_bind, signLength?_eq]
    cases hsign : takeSign? ((c :: rest).dropWhile isAsciiBlank) with
    | none =>
      simp only [Option.map_none, hat.cut_eq, ok_bind, hne]
      rfl
    | some taken =>
      obtain ⟨sign, after⟩ := taken
      rw [← (takeSign?_append hsign).1] at hat
      obtain ⟨hstop, hvalue, hraw⟩ := walk_sign hat
      simp only [Option.map_some, hstop, hvalue, hraw, ok_bind]
      rfl
  · have hnone : (c :: rest).takeWhile isAsciiBlank = [] := List.takeWhile_cons_of_neg hc
    have hall : (c :: rest).dropWhile isAsciiBlank = c :: rest := List.dropWhile_cons_of_neg hc
    rw [if_neg hc, hat.cutFrom_eq, ok_bind, signLength?_eq, takeCombinator?, hnone, hall]
    cases hsign : takeSign? (c :: rest) with
    | none => rfl
    | some taken =>
      obtain ⟨sign, after⟩ := taken
      rw [← (takeSign?_append hsign).1] at hat
      obtain ⟨hstop, hvalue, hraw⟩ := @walk_sign text i [] sign after hat
      rw [byteLength, Nat.add_zero] at hstop hvalue
      simp only [Option.map_some, hstop, hvalue, hraw, ok_bind]
      rfl

end Combinator

/-! ### Simple selectors -/

section Simple

variable {text : List Char} {i : Nat}

/-- The argument in a span, without the parenthesis that closes it, lies between two characters. -/
theorem cut_argument {body after : List Char} {last stop : Nat}
    (hat : IsAt text i ('(' :: (body ++ after))) (hstop : stop = i + byteLength ('(' :: body))
    (hlast : last = stop - 1) :
    cut text (i + 1) (if (octets text)[last]? = some ')' ∧ i < last then last else stop) =
      .ok (argumentOf ('(' :: body)) := by
  have hone : byteLength ('(' :: body) = 1 + byteLength body := rfl
  have hinner := hat.next_of_isAscii (by decide)
  rw [argumentOf, List.tail_cons]
  rcases List.eq_nil_or_concat body with rfl | ⟨front, c, rfl⟩
  · have hnone : ¬(i < last) := by
      have hzero : byteLength [] = 0 := rfl
      omega
    rw [if_neg fun hboth => hnone hboth.2, hstop, hone, ← Nat.add_assoc, hinner.cut_eq]
    rfl
  · rw [List.concat_eq_append] at hone hinner hstop hat ⊢
    have hfront : IsAt text (i + 1) (front ++ (c :: after)) := by simpa using hinner
    have hc := hfront.skip
    have hend : byteLength (front ++ [c]) = byteLength front + c.utf8Size := by
      rw [byteLength_append]
      rfl
    rw [List.getLast?_concat, List.dropLast_concat]
    by_cases hclosing : c = ')'
    · have hplace : last = i + 1 + byteLength front := by
        have hsize : c.utf8Size = 1 := by rw [hclosing]; rfl
        omega
      rw [hclosing] at hc
      rw [if_pos ⟨hplace ▸ hc.getElem?_of_isAscii (by decide), by omega⟩, if_pos (by rw [hclosing]),
        hplace, hfront.cut_eq]
    · have hother : (octets text)[last]? ≠ some ')' := by
        by_cases hascii : IsAscii c
        · have hplace : last = i + 1 + byteLength front := by
            rw [utf8Size_of_isAscii hascii] at hend
            omega
          rw [hplace, hc.getElem?_of_isAscii hascii]
          exact fun heq => hclosing (Option.some.inj heq)
        · have hpositive := c.utf8Size_pos
          have hplace : last = i + 1 + byteLength front + (c.utf8Size - 1) := by omega
          obtain ⟨d, hd, hwide⟩ := hc.exists_octet hascii (show c.utf8Size - 1 < c.utf8Size by omega)
          rw [hplace, hd]
          exact fun heq => ne_of_not_isAscii hwide (by decide) (Option.some.inj heq)
      rw [if_neg fun hboth => hother hboth.1, if_neg fun heq => hclosing (Option.some.inj heq), hstop, hone,
        ← Nat.add_assoc, hinner.cut_eq]

theorem walkNamed_eq {readArgument : List Char → Except Fault (List Branch)} {colons others : List Char}
    {piece : Piece} {nameStart : Nat} (hat : IsAt text i (colons ++ others))
    (hstart : nameStart = i + byteLength colons)
    (hpiece : piece = if (takeName others).2.head? = some '(' then
        .call colons (takeName others).1 (Brackets.round.span (takeName others).2).1
      else .leaf (.pseudo (colons ++ (takeName others).1)))
    (hread : readArgument piece.argument = .ok (read piece.argument)) :
    walkNamed readArgument text i nameStart =
      .ok (piece.toPart read, i + byteLength piece.source) := by
  have hscan := scanName_eq hat.skip
  rw [← takeName_append others] at hat
  generalize (takeName others).1 = name at *
  generalize (takeName others).2 = rest at *
  have hname := hat.skip
  have hnameStop : i + byteLength colons + byteLength name = i + byteLength (colons ++ name) := by
    rw [byteLength_append, Nat.add_assoc]
  have hvalue : cut text i (i + byteLength colons + byteLength name) = .ok (colons ++ name) := by
    rw [hnameStop]
    rw [← List.append_assoc] at hat
    exact hat.cut_eq
  have hround := hname.skip.getElem?_eq_some_iff (show IsAscii '(' by decide)
  rw [walkNamed, hstart, hscan, ok_bind, hvalue, ok_bind]
  by_cases hcall : rest.head? = some '('
  · rw [if_pos (hround.mpr hcall)]
    rw [if_pos hcall] at hpiece
    subst hpiece
    obtain ⟨inner, rfl⟩ := List.head?_eq_some_iff.mp hcall
    have hspan := Brackets.span_append .round ('(' :: inner)
    have hstop := scanBrackets_eq areApart_round hname.skip
    have hopening := span_opening areApart_round inner
    rw [show Brackets.round.opening = '(' from rfl] at hstop hopening
    rw [hopening] at hstop hspan hread ⊢
    dsimp only at hstop hspan hread ⊢
    generalize (Brackets.round.scan 1 .bare inner).1 = body at *
    generalize (Brackets.round.scan 1 .bare inner).2 = after at *
    have hparenthesis := hname.skip
    rw [← hspan, List.cons_append] at hparenthesis
    have hone : 1 ≤ byteLength ('(' :: body) := by
      rw [byteLength]
      exact Nat.le_add_right 1 _
    rw [hstop, ok_bind, minus_of_le (by omega), ok_bind, cut_argument hparenthesis rfl rfl, ok_bind,
      hname.cut_eq, ok_bind, Piece.toPart, Piece.source, byteLength_append, ← Nat.add_assoc, hnameStop]
    rw [Piece.argument] at hread
    split
    · rw [hread]
      rfl
    · rfl
  · rw [if_neg fun hhead => hcall (hround.mp hhead)]
    rw [if_neg hcall] at hpiece
    subst hpiece
    rw [hnameStop]
    rfl

theorem walkPseudo_eq {readArgument : List Char → Except Fault (List Branch)} {rest : List Char}
    (hat : IsAt text i (':' :: rest))
    (hread : readArgument (takePseudo rest).1.argument = .ok (read (takePseudo rest).1.argument)) :
    walkPseudo readArgument text i =
      .ok ((takePseudo rest).1.toPart read, i + byteLength (takePseudo rest).1.source) := by
  have hcolon := (hat.next_of_isAscii (by decide)).getElem?_eq_some_iff (show IsAscii ':' by decide)
  rw [walkPseudo]
  by_cases hsecond : rest.head? = some ':'
  · obtain ⟨others, rfl⟩ := List.head?_eq_some_iff.mp hsecond
    rw [if_pos (hcolon.mpr hsecond)]
    refine @walkNamed_eq text i readArgument [':', ':'] others _ _ hat rfl ?_ hread
    simp only [takePseudo]
    split <;> rfl
  · rw [if_neg fun hget => hsecond (hcolon.mp hget)]
    refine @walkNamed_eq text i readArgument [':'] rest _ _ hat rfl ?_ hread
    rw [takePseudo]
    · dsimp only
      split <;> rfl
    · rintro others rfl
      exact hsecond rfl

theorem cutLeaf_eq {leaf : List Char → Leaf} {middle rest : List Char} {stop : Nat}
    (hat : IsAt text i (middle ++ rest)) (hstop : stop = i + byteLength middle) :
    cutLeaf leaf text i stop = .ok (.leaf (leaf middle), i + byteLength middle) := by
  rw [cutLeaf, hstop, hat.cut_eq]
  rfl

variable {readArgument : List Char → Except Fault (List Branch)} {rest : List Char}

theorem walkSimple_comment {inner : List Char} (hat : IsAt text i ('/' :: '*' :: inner)) :
    walkSimple readArgument text i =
      .ok (.leaf (.comment ('/' :: '*' :: (takeBlockComment inner).1)),
        i + byteLength ('/' :: '*' :: (takeBlockComment inner).1)) := by
  have hinner := (hat.next_of_isAscii (by decide)).next_of_isAscii (by decide)
  have hlength := hinner.length_eq
  have hfound := find?_comment inner
  have hsource : IsAt text i (('/' :: '*' :: (takeBlockComment inner).1) ++ (takeBlockComment inner).2) := by
    rw [List.cons_append, List.cons_append, takeBlockComment_append]
    exact hat
  rw [walkSimple, hat.itemAt_eq (by decide), ok_bind, hat.cutFrom_eq, ok_bind,
    if_pos ⟨rfl, isPrefixOf_pair_iff.mpr ⟨rfl, rfl⟩⟩, hinner.cutFrom_eq, ok_bind]
  refine cutLeaf_eq hsource ?_
  show _ = i + (1 + (1 + byteLength (takeBlockComment inner).1))
  rw [← hfound]
  cases find? ['*', '/'] inner with
  | none =>
    simp only [Option.map_none, Option.getD_none]
    omega
  | some place =>
    simp only [Option.map_some, Option.getD_some]
    omega

/-- A leaf that is a mark and a name after it. -/
theorem cutLeaf_name {leaf : List Char → Leaf} {mark : Char} (hat : IsAt text i (mark :: rest))
    (hmark : IsAscii mark) :
    (do cutLeaf leaf text i (← scanName (octets text) (i + 1))) =
      .ok (.leaf (leaf (mark :: (takeName rest).1)), i + byteLength (mark :: (takeName rest).1)) := by
  have hstop := scanName_eq (hat.next_of_isAscii hmark)
  rw [← takeName_append rest, ← List.cons_append] at hat
  rw [hstop, ok_bind]
  refine cutLeaf_eq hat ?_
  rw [byteLength, utf8Size_of_isAscii hmark, Nat.add_assoc]

theorem walkSimple_className (hat : IsAt text i ('.' :: rest)) :
    walkSimple readArgument text i =
      .ok (.leaf (.className ('.' :: (takeName rest).1)), i + byteLength ('.' :: (takeName rest).1)) := by
  rw [walkSimple, hat.itemAt_eq (by decide), ok_bind, hat.cutFrom_eq, ok_bind, if_neg (by simp),
    if_pos rfl]
  exact cutLeaf_name hat (by decide)

theorem walkSimple_id (hat : IsAt text i ('#' :: rest)) (hid : rest.head? ≠ some '{') :
    walkSimple readArgument text i =
      .ok (.leaf (.id ('#' :: (takeName rest).1)), i + byteLength ('#' :: (takeName rest).1)) := by
  have hbrace := (hat.next_of_isAscii (by decide)).getElem?_eq_some_iff (show IsAscii '{' by decide)
  rw [walkSimple, hat.itemAt_eq (by decide), ok_bind, hat.cutFrom_eq, ok_bind, if_neg (by simp),
    if_neg (by decide), if_pos rfl, if_neg fun hget => hid (hbrace.mp hget)]
  exact cutLeaf_name hat (by decide)

theorem walkSimple_interpolation {inner : List Char} (hat : IsAt text i ('#' :: '{' :: inner)) :
    walkSimple readArgument text i =
      .ok (.leaf (.other ('#' :: (Brackets.curly.span ('{' :: inner)).1)),
        i + byteLength ('#' :: (Brackets.curly.span ('{' :: inner)).1)) := by
  have hnext := hat.next_of_isAscii (by decide)
  have hstop := scanBrackets_eq areApart_curly hnext
  rw [← Brackets.span_append .curly ('{' :: inner), ← List.cons_append] at hat
  rw [walkSimple, hat.itemAt_eq (by decide), ok_bind, hat.cutFrom_eq, ok_bind, if_neg (by simp),
    if_neg (by decide), if_pos rfl, if_pos (hnext.getElem?_of_isAscii (by decide))]
  rw [show Brackets.curly.opening = '{' from rfl] at hstop
  rw [hstop, ok_bind]
  exact cutLeaf_eq hat (Nat.add_assoc _ _ _)

theorem walkSimple_attr (hat : IsAt text i ('[' :: rest)) :
    walkSimple readArgument text i =
      .ok (.leaf (.attr (Brackets.square.span ('[' :: rest)).1),
        i + byteLength (Brackets.square.span ('[' :: rest)).1) := by
  have hstop := scanBrackets_eq areApart_square hat
  rw [walkSimple, hat.itemAt_eq (by decide), ok_bind, hat.cutFrom_eq, ok_bind, if_neg (by simp),
    if_neg (by decide), if_neg (by decide), if_pos rfl]
  rw [← Brackets.span_append .square ('[' :: rest)] at hat
  rw [show Brackets.square.opening = '[' from rfl] at hstop
  rw [hstop, ok_bind]
  exact cutLeaf_eq hat rfl

theorem walkSimple_nesting (hat : IsAt text i ('&' :: rest)) :
    walkSimple readArgument text i = .ok (.leaf .nesting, i + 1) := by
  rw [walkSimple, hat.itemAt_eq (by decide), ok_bind, hat.cutFrom_eq, ok_bind, if_neg (by simp),
    if_neg (by decide), if_neg (by decide), if_neg (by decide), if_pos rfl]
  rfl

theorem walkSimple_universal (hat : IsAt text i ('*' :: rest)) :
    walkSimple readArgument text i = .ok (.leaf (.universal ['*']), i + 1) := by
  rw [walkSimple, hat.itemAt_eq (by decide), ok_bind, hat.cutFrom_eq, ok_bind, if_neg (by simp),
    if_neg (by decide), if_neg (by decide), if_neg (by decide), if_neg (by decide), if_pos rfl]
  rfl

theorem walkSimple_pseudo (hat : IsAt text i (':' :: rest)) :
    walkSimple readArgument text i = walkPseudo readArgument text i := by
  rw [walkSimple, hat.itemAt_eq (by decide), ok_bind, hat.cutFrom_eq, ok_bind, if_neg (by simp),
    if_neg (by decide), if_neg (by decide), if_neg (by decide), if_neg (by decide),
    if_neg (by decide), if_pos rfl]

/-- The characters that tell by themselves what begins with them. -/
def simpleMarks : List Char := ['.', '#', '[', '&', '*', ':']

theorem notMem_simpleMarks_iff {c : Char} :
    c ∉ simpleMarks ↔ c ≠ '.' ∧ c ≠ '#' ∧ c ≠ '[' ∧ c ≠ '&' ∧ c ≠ '*' ∧ c ≠ ':' := by
  simp [simpleMarks]

/-- What begins with no mark is a tag or a single character. The first byte answers every test as the
character does. -/
theorem walkSimple_unmarked {c : Char} (hat : IsAt text i (c :: rest))
    (hcomment : ¬(c = '/' ∧ rest.head? = some '*')) (hmark : c ∉ simpleMarks) :
    walkSimple readArgument text i =
      if isNameChar c then .ok (.leaf (.tag (takeName (c :: rest)).1),
        i + byteLength (takeName (c :: rest)).1)
      else .ok (.leaf (.other [c]), i + byteLength [c]) := by
  obtain ⟨d, hd, hcases⟩ := exists_itemAt hat
  have hsame {mark : Char} (hascii : IsAscii mark) : d = mark ↔ c = mark := by
    rcases hcases with ⟨-, rfl⟩ | ⟨hc, hwide⟩
    · rfl
    · exact iff_of_false (ne_of_not_isAscii hwide hascii) (ne_of_not_isAscii hc hascii)
  have hnameChar : isNameChar d = isNameChar c := by
    rcases hcases with ⟨-, rfl⟩ | ⟨hc, hwide⟩
    · rfl
    · rw [isNameChar_of_not_isAscii hc, isNameChar_of_not_isAscii hwide]
  have hopen : ¬(d = '/' ∧ ['/', '*'].isPrefixOf (c :: rest) = true) := by
    rw [isPrefixOf_pair_iff]
    exact fun hboth => hcomment hboth.2
  rw [notMem_simpleMarks_iff] at hmark
  obtain ⟨hdot, hsharp, hsquare, hnesting, huniversal, hcolon⟩ := hmark
  rw [walkSimple, hd, ok_bind, hat.cutFrom_eq, ok_bind, if_neg hopen,
    if_neg fun heq => hdot ((hsame (by decide)).mp heq),
    if_neg fun heq => hsharp ((hsame (by decide)).mp heq),
    if_neg fun heq => hsquare ((hsame (by decide)).mp heq),
    if_neg fun heq => hnesting ((hsame (by decide)).mp heq),
    if_neg fun heq => huniversal ((hsame (by decide)).mp heq),
    if_neg fun heq => hcolon ((hsame (by decide)).mp heq), hnameChar]
  split
  · rw [scanName_eq hat, ok_bind]
    rw [← takeName_append (c :: rest)] at hat
    exact cutLeaf_eq hat rfl
  · exact @cutLeaf_eq _ _ .other [c] rest _ hat rfl

theorem takeSimple_unmarked {c : Char} (hcomment : ¬(c = '/' ∧ rest.head? = some '*'))
    (hmark : c ∉ simpleMarks) :
    takeSimple c rest =
      if isNameChar c then (.leaf (.tag (takeName (c :: rest)).1), (takeName (c :: rest)).2)
      else (.leaf (.other [c]), rest) := by
  rw [notMem_simpleMarks_iff] at hmark
  obtain ⟨hdot, hsharp, hsquare, hnesting, huniversal, hcolon⟩ := hmark
  rw [takeSimple, if_neg hcomment, if_neg hdot, if_neg hsharp, if_neg hsquare, if_neg hnesting,
    if_neg huniversal, if_neg hcolon]

/-- A simple selector or a comment is read without a fault, and is the one that its characters make. -/
theorem walkSimple_eq {c : Char} (hat : IsAt text i (c :: rest))
    (hread : readArgument (takeSimple c rest).1.argument = .ok (read (takeSimple c rest).1.argument)) :
    walkSimple readArgument text i =
      .ok ((takeSimple c rest).1.toPart read, i + byteLength (takeSimple c rest).1.source) := by
  by_cases hcomment : c = '/' ∧ rest.head? = some '*'
  · obtain ⟨rfl, hstar⟩ := hcomment
    obtain ⟨inner, rfl⟩ := List.head?_eq_some_iff.mp hstar
    exact walkSimple_comment hat
  by_cases hmark : c ∈ simpleMarks
  · simp only [simpleMarks, List.mem_cons, List.not_mem_nil, or_false] at hmark
    rcases hmark with rfl | rfl | rfl | rfl | rfl | rfl
    · exact walkSimple_className hat
    · by_cases hcurly : rest.head? = some '{'
      · obtain ⟨inner, rfl⟩ := List.head?_eq_some_iff.mp hcurly
        exact walkSimple_interpolation hat
      · rw [walkSimple_id hat hcurly, takeSimple, if_neg (by simp), if_neg (by decide), if_pos rfl,
          if_neg hcurly]
        rfl
    · exact walkSimple_attr hat
    · exact walkSimple_nesting hat
    · exact walkSimple_universal hat
    · exact (walkSimple_pseudo hat).trans (walkPseudo_eq hat hread)
  · rw [walkSimple_unmarked hat hcomment hmark, takeSimple_unmarked hcomment hmark]
    split <;> rfl

end Simple

/-! ### Branches and lists -/

section List

variable {readArgument : List Char → Except Fault (List Branch)}

theorem walkPart_eq {text rest : List Char} {i : Nat} {c : Char} (hat : IsAt text i (c :: rest))
    (hread : readArgument (takePiece c rest).1.argument = .ok (read (takePiece c rest).1.argument)) :
    walkPart readArgument text i =
      .ok ((takePiece c rest).1.toPart read, i + byteLength (takePiece c rest).1.source) := by
  rw [walkPart, walkCombinator?_eq hat, ok_bind]
  rw [takePiece] at hread ⊢
  cases hcombinator : takeCombinator? (c :: rest) with
  | some taken => rfl
  | none =>
    rw [hcombinator] at hread
    exact walkSimple_eq hat hread

/-- The walk goes on behind each piece, so it meets the pieces of the text one after the other. -/
theorem walkParts_eq {text rest : List Char} {i : Nat} (hat : IsAt text i rest)
    (hread : ∀ piece ∈ pieces rest, readArgument piece.argument = .ok (read piece.argument)) :
    walkParts readArgument text i = .ok ((pieces rest).map (Piece.toPart read)) := by
  fun_induction pieces rest generalizing i with
  | case1 =>
    rw [walkParts, dif_neg hat.not_lt_octets]
    rfl
  | case2 c rest =>
    rename_i ih
    rw [List.forall_mem_cons] at hread
    have hcut := takePiece_cut c rest
    have hlength := hat.lt_octets
    rw [walkParts, dif_pos hlength, walkPart_eq hat hread.1, ok_bind]
    dsimp only
    rw [← hcut.append] at hat
    rw [if_pos (Nat.lt_add_of_pos_right (byteLength_pos hcut.ne_nil)), ih hat.skip hread.2]
    rfl
  | case3 c rest =>
    rename_i hlong
    exact absurd (takePiece_cut c rest).rest_length hlong

theorem walkBranch_eq {segment : List Char}
    (hread : ∀ argument : List Char, argument.length < segment.length →
      readArgument argument = .ok (read argument)) :
    walkBranch readArgument segment = .ok (Branch.ofSegment read segment) := by
  have hlength := congrArg byteLength (leadingBlanks_append_trimStart segment)
  rw [byteLength_append] at hlength
  have hstart : IsAt segment 0 (leadingBlanks segment ++ trimStart segment) := by
    rw [leadingBlanks_append_trimStart]
    exact IsAt.start segment
  have hcore := hstart.skip
  rw [← trimEnd_append_trailingBlanks (trimStart segment)] at hcore
  have hparts : walkParts readArgument (trim segment) 0 =
      .ok ((pieces (trim segment)).map (Piece.toPart read)) := by
    refine walkParts_eq (IsAt.start _) fun piece hmem => hread _ ?_
    exact Nat.lt_of_lt_of_le (argument_length_lt hmem) (trim_length_le segment)
  have hlead : byteLength segment - byteLength (trimStart segment) = byteLength (leadingBlanks segment) := by
    omega
  have hbefore := hstart.cut_eq
  have hafter := hcore.skip.cutFrom_eq
  rw [Nat.zero_add] at hbefore hafter
  rw [walkBranch, minus_of_le (by omega), ok_bind, hlead, hbefore, ok_bind]
  rw [trim] at hparts ⊢
  rw [hafter, ok_bind, hparts]
  rfl

/-- Reading over bytes gives what reading by characters gives, where the bound on the depth is longer than
the text. -/
theorem walkList_eq {depth : Nat} {text : List Char} (hdepth : text.length < depth) :
    walkList depth text = .ok (read text) := by
  induction depth generalizing text with
  | zero => exact absurd hdepth (Nat.not_lt_zero _)
  | succ depth ih =>
    rw [walkList, read_eq]
    split
    · rfl
    · rw [walkSegments_eq, ok_bind]
      refine mapM_eq_map fun segment hmem => walkBranch_eq fun argument hshorter => ih ?_
      have hsegment := length_le_of_mem_splitCommas hmem
      omega

theorem walkSelector_eq (text : List Char) : walkSelector text = .ok (read text) :=
  walkList_eq (Nat.lt_succ_self _)

end List

end StyleMigration.Walk
