import StyleMigration.Proofs.Selector.Cuts
import StyleMigration.Proofs.Walk.Access

/-!
Spans of a selector text found by walking over its bytes. The walks know nothing of characters: a backslash
takes one byte after it, and all bytes that are no ASCII characters are passed over one by one. Each walk ends
without a fault, behind the span that is told by characters: a bracketed span (`scanBrackets_eq`), a name
(`scanName_eq`), blanks (`skipBlanks_eq`), and the segments between commas (`walkSegments_eq`). For a
bracketed span this needs that it starts with an opening bracket, since the depth is lowered at each closing
one.
-/

set_option autoImplicit false

namespace StyleMigration.Walk

open Text Selector

variable {c : Char} {i depth : Nat} {rest text : List Char} {bytes : Octets} {brackets : Brackets}

/-! ### Quotes -/

/-- A character that begins and ends a quoted string. -/
def IsQuote (c : Char) : Prop :=
  c = '"' ∨ c = '\''

instance instDecidableIsQuote (c : Char) : Decidable (IsQuote c) :=
  inferInstanceAs (Decidable (c = '"' ∨ c = '\''))

theorem IsQuote.isAscii (hc : IsQuote c) : IsAscii c := by
  rcases hc with rfl | rfl <;> decide

theorem IsQuote.ne_backslash (hc : IsQuote c) : c ≠ '\\' := by
  rcases hc with rfl | rfl <;> decide

theorem ne_of_not_isAscii {d : Char} (hc : ¬IsAscii c) (hd : IsAscii d) : c ≠ d := by
  rintro rfl
  exact hc hd

theorem itemAt_of_getElem? {Item : Type} {items : List Item} {item : Item}
    (hget : items[i]? = some item) : itemAt items i = .ok item := by
  rw [itemAt, hget]

/-- The byte at which a character begins is that character, if it is an ASCII one, and no ASCII character
otherwise. -/
theorem exists_itemAt (hat : IsAt text i (c :: rest)) :
    ∃ d, itemAt (octets text) i = .ok d ∧ (IsAscii c ∧ d = c ∨ ¬IsAscii c ∧ ¬IsAscii d) := by
  by_cases hc : IsAscii c
  · exact ⟨c, hat.itemAt_eq hc, .inl ⟨hc, rfl⟩⟩
  · obtain ⟨d, hget, hd⟩ := hat.exists_octet hc c.utf8Size_pos
    exact ⟨d, itemAt_of_getElem? hget, .inr ⟨hc, hd⟩⟩

theorem lt_length_of_getElem? (hget : bytes[i]? = some c) :
    i < bytes.length :=
  (List.getElem?_eq_some_iff.mp hget).1

theorem step_of_isQuote (hc : IsQuote c) : Quoting.bare.step c = .inside c :=
  (if_neg hc.ne_backslash).trans (if_pos hc)

theorem step_of_not_isQuote (hbackslash : c ≠ '\\') (hc : ¬IsQuote c) :
    Quoting.bare.step c = .bare :=
  (if_neg hbackslash).trans (if_neg hc)

/-- A walk that takes one byte after a backslash, knows quoted strings, and passes over bytes that are no
ASCII characters. Its first argument is the quote that ends the string it is in. -/
structure KnowsQuotes {Result : Type} (bytes : Octets) (walk : Option Char → Nat → Result) : Prop where
  escape : ∀ {mark : Option Char} {i : Nat}, (∀ quote ∈ mark, IsQuote quote) →
    bytes[i]? = some '\\' → walk mark i = walk mark (i + 2)
  opens : ∀ {quote : Char} {i : Nat}, IsQuote quote → bytes[i]? = some quote →
    walk none i = walk (some quote) (i + 1)
  closes : ∀ {quote : Char} {i : Nat}, IsQuote quote → bytes[i]? = some quote →
    walk (some quote) i = walk none (i + 1)
  inside : ∀ {quote c : Char} {i : Nat}, IsQuote quote → bytes[i]? = some c → c ≠ quote → c ≠ '\\' →
    walk (some quote) i = walk (some quote) (i + 1)
  passes : ∀ {c : Char} {i : Nat}, bytes[i]? = some c → ¬IsAscii c → walk none i = walk none (i + 1)

/-- A walk knows quotes if it looks for a backslash and for a quote first. -/
theorem KnowsQuotes.of_step {Result : Type} {walk : Option Char → Nat → Result}
    {other : Char → Nat → Result}
    (hnone : ∀ {i : Nat} {c : Char}, bytes[i]? = some c → walk none i =
      if c = '\\' then walk none (i + 2) else if IsQuote c then walk (some c) (i + 1) else other c i)
    (hsome : ∀ {i : Nat} {mark c : Char}, bytes[i]? = some c → walk (some mark) i =
      if c = mark then walk none (i + 1) else if c = '\\' then walk (some mark) (i + 2)
      else walk (some mark) (i + 1))
    (hother : ∀ {i : Nat} {c : Char}, ¬IsAscii c → other c i = walk none (i + 1)) :
    KnowsQuotes bytes walk where
  escape {mark i} hmark hget := by
    cases mark with
    | none => rw [hnone hget, if_pos rfl]
    | some mark =>
      have hquote : '\\' ≠ mark := fun heq => (hmark mark rfl).ne_backslash heq.symm
      rw [hsome hget, if_neg hquote, if_pos rfl]
  opens hmark hget := by
    rw [hnone hget, if_neg hmark.ne_backslash, if_pos hmark]
  closes hmark hget := by
    rw [hsome hget, if_pos rfl]
  inside hmark hget hquote hbackslash := by
    rw [hsome hget, if_neg hquote, if_neg hbackslash]
  passes hget hwide := by
    rw [hnone hget, if_neg (ne_of_not_isAscii hwide (by decide)), if_neg fun hquote => hwide hquote.isAscii,
      hother hwide]

/-- A walk that goes on where a scan of characters stands before the offset `i`. -/
def resume {Result : Type} (walk : Option Char → Nat → Result) (i : Nat) : Quoting → Result
  | .bare => walk none i
  | .escape => walk none (i + 1)
  | .inside mark => walk (some mark) i
  | .insideEscape mark => walk (some mark) (i + 1)

/-- The quoted string a scan is in ends with a quote. -/
def HasQuotes : Quoting → Prop
  | .bare | .escape => True
  | .inside mark | .insideEscape mark => IsQuote mark

theorem HasQuotes.step {quoting : Quoting} (hquoting : HasQuotes quoting) (c : Char) :
    HasQuotes (quoting.step c) := by
  cases quoting with
  | bare =>
    simp only [Quoting.step]
    split
    · trivial
    split
    · assumption
    · trivial
  | escape => trivial
  | inside mark =>
    simp only [Quoting.step]
    split
    · exact hquoting
    split
    · trivial
    · exact hquoting
  | insideEscape mark => exact hquoting

/-- A walk that knows quotes takes a character as a scan of characters does, whatever its bytes. Outside
quoted strings this says nothing about other ASCII characters. -/
theorem KnowsQuotes.resume_eq {Result : Type} {walk : Option Char → Nat → Result}
    (hwalk : KnowsQuotes (octets text) walk) {quoting : Quoting} (hquoting : HasQuotes quoting)
    (hat : IsAt text i (c :: rest)) (hbare : quoting = .bare → c = '\\' ∨ IsQuote c ∨ ¬IsAscii c) :
    resume walk i quoting = resume walk (i + c.utf8Size) (quoting.step c) := by
  have hpasses {quote : Char} (hquote : IsQuote quote) (j : Nat) (d : Char)
      (hget : (octets text)[j]? = some d) (hd : ¬IsAscii d) :
      walk (some quote) j = walk (some quote) (j + 1) :=
    hwalk.inside hquote hget (ne_of_not_isAscii hd hquote.isAscii) (ne_of_not_isAscii hd (by decide))
  cases quoting with
  | bare =>
    by_cases hc : IsAscii c
    · have hget := hat.getElem?_of_isAscii hc
      rw [utf8Size_of_isAscii hc]
      rcases hbare rfl with rfl | hquote | hwide
      · exact hwalk.escape (by simp) hget
      · rw [step_of_isQuote hquote]
        exact hwalk.opens hquote hget
      · exact absurd hc hwide
    · rw [step_of_not_isQuote (ne_of_not_isAscii hc (by decide)) fun hquote => hc hquote.isAscii]
      exact (hat.isNear hc).eq hat.next fun _ _ => hwalk.passes
  | escape => exact hat.isNear_next.eq hat.next fun _ _ => hwalk.passes
  | inside mark =>
    by_cases hc : IsAscii c
    · have hget := hat.getElem?_of_isAscii hc
      rw [utf8Size_of_isAscii hc, Quoting.step]
      split
      · rename_i heq
        rw [heq] at hget
        exact hwalk.escape (fun quote hmem => Option.some.inj hmem ▸ hquoting) hget
      · rename_i hbackslash
        split
        · rename_i heq
          rw [heq] at hget
          exact hwalk.closes hquoting hget
        · rename_i hother
          exact hwalk.inside hquoting hget hother hbackslash
    · rw [Quoting.step, if_neg (ne_of_not_isAscii hc (by decide)),
        if_neg (ne_of_not_isAscii hc (IsQuote.isAscii hquoting))]
      exact (hat.isNear hc).eq hat.next (hpasses hquoting)
  | insideEscape mark => exact hat.isNear_next.eq hat.next (hpasses hquoting)

/-! ### Bracketed spans -/

/-- The offset behind the bracket that closes the first one, or behind the text; `depth` brackets are open,
and a quoted string ends with `mark`. -/
def scanBrackets (bytes : Octets) (brackets : Brackets) (depth : Nat) (mark : Option Char) (i : Nat) :
    Except Fault Nat :=
  if _h : i < bytes.length then do
    let c ← itemAt bytes i
    match mark with
    | some mark =>
      if c = mark then scanBrackets bytes brackets depth none (i + 1)
      else if c = '\\' then scanBrackets bytes brackets depth (some mark) (i + 2)
      else scanBrackets bytes brackets depth (some mark) (i + 1)
    | none =>
      if c = '\\' then scanBrackets bytes brackets depth none (i + 2)
      else if IsQuote c then scanBrackets bytes brackets depth (some c) (i + 1)
      else if c = brackets.opening then scanBrackets bytes brackets (depth + 1) none (i + 1)
      else if c = brackets.closing then do
        let depth ← minus depth 1
        if depth = 0 then return i + 1 else scanBrackets bytes brackets depth none (i + 1)
      else scanBrackets bytes brackets depth none (i + 1)
  else
    return bytes.length
termination_by bytes.length - i

theorem scanBrackets_of_le {mark : Option Char} (hle : bytes.length ≤ i) :
    scanBrackets bytes brackets depth mark i = .ok bytes.length := by
  rw [scanBrackets, dif_neg (Nat.not_lt.mpr hle)]
  rfl

theorem scanBrackets_none (hget : bytes[i]? = some c) :
    scanBrackets bytes brackets depth none i =
      if c = '\\' then scanBrackets bytes brackets depth none (i + 2)
      else if IsQuote c then scanBrackets bytes brackets depth (some c) (i + 1)
      else if c = brackets.opening then scanBrackets bytes brackets (depth + 1) none (i + 1)
      else if c = brackets.closing then do
        let depth ← minus depth 1
        if depth = 0 then return i + 1 else scanBrackets bytes brackets depth none (i + 1)
      else scanBrackets bytes brackets depth none (i + 1) := by
  rw [scanBrackets, dif_pos (lt_length_of_getElem? hget), itemAt_of_getElem? hget]
  rfl

theorem scanBrackets_some {mark : Char} (hget : bytes[i]? = some c) :
    scanBrackets bytes brackets depth (some mark) i =
      if c = mark then scanBrackets bytes brackets depth none (i + 1)
      else if c = '\\' then scanBrackets bytes brackets depth (some mark) (i + 2)
      else scanBrackets bytes brackets depth (some mark) (i + 1) := by
  rw [scanBrackets, dif_pos (lt_length_of_getElem? hget), itemAt_of_getElem? hget]
  rfl

/-- What a scan of bracketed spans asks of the brackets. -/
structure AreApart (brackets : Brackets) : Prop where
  opening : IsAscii brackets.opening ∧ brackets.opening ≠ '\\' ∧ ¬IsQuote brackets.opening
  closing : IsAscii brackets.closing ∧ brackets.closing ≠ '\\' ∧ ¬IsQuote brackets.closing
  different : brackets.closing ≠ brackets.opening

theorem areApart_round : AreApart .round :=
  ⟨by decide, by decide, by decide⟩

theorem areApart_square : AreApart .square :=
  ⟨by decide, by decide, by decide⟩

theorem areApart_curly : AreApart .curly :=
  ⟨by decide, by decide, by decide⟩

section Brackets

variable {text : List Char} {brackets : Brackets} (hbrackets : AreApart brackets)
include hbrackets

theorem knowsQuotes_scanBrackets (depth : Nat) :
    KnowsQuotes (octets text) (scanBrackets (octets text) brackets depth) := by
  refine .of_step scanBrackets_none scanBrackets_some fun hwide => ?_
  rw [if_neg (ne_of_not_isAscii hwide hbrackets.opening.1), if_neg (ne_of_not_isAscii hwide hbrackets.closing.1)]

/-- With a bracket open, the scan goes on to the end of the span. -/
theorem resume_scanBrackets (hdepth : 0 < depth) {quoting : Quoting}
    (hquoting : HasQuotes quoting) (hat : IsAt text i rest) :
    resume (scanBrackets (octets text) brackets depth) i quoting =
      .ok (i + byteLength (brackets.scan depth quoting rest).1) := by
  induction rest generalizing depth quoting i with
  | nil =>
    have hlength : (octets text).length = i := by rw [length_octets, hat.eq_of_nil]
    cases quoting <;> rw [resume, scanBrackets_of_le (by omega), hlength] <;> rfl
  | cons c rest ih =>
    by_cases hspecial : quoting = .bare → c = '\\' ∨ IsQuote c ∨ ¬IsAscii c
    · -- The character is no bracket that counts.
      have hother (hquoting' : quoting = .bare) : c ≠ brackets.opening ∧ c ≠ brackets.closing := by
        rcases hspecial hquoting' with rfl | hquote | hwide
        · exact ⟨hbrackets.opening.2.1.symm, hbrackets.closing.2.1.symm⟩
        · exact ⟨fun heq => hbrackets.opening.2.2 (heq ▸ hquote),
            fun heq => hbrackets.closing.2.2 (heq ▸ hquote)⟩
        · exact ⟨ne_of_not_isAscii hwide hbrackets.opening.1, ne_of_not_isAscii hwide hbrackets.closing.1⟩
      have hcloses : brackets.closesAt depth quoting c = false := by
        simp only [Brackets.closesAt, Bool.and_eq_false_iff, decide_eq_false_iff_not]
        by_cases hbare : quoting = .bare
        · exact .inl (.inr (hother hbare).2)
        · exact .inl (.inl hbare)
      have hafter : brackets.depthAfter depth quoting c = depth := by
        rw [Brackets.depthAfter]
        split
        · rename_i hbare
          rw [if_neg (hother hbare).1, if_neg (hother hbare).2]
        · rfl
      rw [(knowsQuotes_scanBrackets hbrackets depth).resume_eq hquoting hat hspecial,
        ih hdepth (hquoting.step c) hat.next, Brackets.scan, hcloses, hafter]
      simp [byteLength, Nat.add_assoc]
    · obtain ⟨rfl, hbackslash, hquote, hc⟩ : quoting = .bare ∧ c ≠ '\\' ∧ ¬IsQuote c ∧ IsAscii c := by
        grind
      have hnext := hat.next_of_isAscii hc
      have hstep := step_of_not_isQuote hbackslash hquote
      have hone : byteLength [c] = 1 := by rw [byteLength, byteLength, utf8Size_of_isAscii hc]
      have hgoes {depth' : Nat} (hdepth' : 0 < depth')
          (hcloses : brackets.closesAt depth .bare c = false)
          (hafter : brackets.depthAfter depth .bare c = depth') :
          scanBrackets (octets text) brackets depth' none (i + 1) =
            .ok (i + byteLength (brackets.scan depth .bare (c :: rest)).1) := by
        have hrest := ih hdepth' (show HasQuotes .bare from trivial) hnext
        rw [resume] at hrest
        rw [hrest, Brackets.scan, hstep, hcloses, hafter]
        simp [byteLength, utf8Size_of_isAscii hc, Nat.add_assoc]
      rw [resume, scanBrackets_none (hat.getElem?_of_isAscii hc), if_neg hbackslash, if_neg hquote]
      by_cases hopening : c = brackets.opening
      · have hclosing : c ≠ brackets.closing := fun heq => hbrackets.different (heq ▸ hopening)
        rw [if_pos hopening]
        exact hgoes (Nat.succ_pos depth) (by simp [Brackets.closesAt, hclosing])
          (by simp [Brackets.depthAfter, hopening])
      rw [if_neg hopening]
      by_cases hclosing : c = brackets.closing
      · rw [if_pos hclosing, minus_of_le hdepth]
        by_cases hlast : depth = 1
        · have hcloses : brackets.closesAt depth .bare c = true := by
            simp [Brackets.closesAt, hclosing, hlast]
          rw [Brackets.scan, if_pos hcloses, hone, hlast]
          rfl
        · have hleft : depth - 1 ≠ 0 := by omega
          show (if depth - 1 = 0 then _ else _) = _
          rw [if_neg hleft]
          refine hgoes (by omega) ?_ (by simp [Brackets.depthAfter, hclosing, hbrackets.different])
          simp only [Brackets.closesAt, Bool.and_eq_false_iff, decide_eq_false_iff_not]
          exact .inr (by omega)
      · rw [if_neg hclosing]
        exact hgoes hdepth (by simp [Brackets.closesAt, hclosing])
          (by simp [Brackets.depthAfter, hopening, hclosing])

theorem span_opening (rest : List Char) :
    brackets.span (brackets.opening :: rest) =
      (brackets.opening :: (brackets.scan 1 .bare rest).1, (brackets.scan 1 .bare rest).2) := by
  have hcloses : brackets.closesAt 0 .bare brackets.opening = false := by
    simp [Brackets.closesAt, hbrackets.different.symm]
  have hafter : brackets.depthAfter 0 .bare brackets.opening = 1 := by simp [Brackets.depthAfter]
  rw [Brackets.span, Brackets.scan, hcloses, hafter,
    step_of_not_isQuote hbrackets.opening.2.1 hbrackets.opening.2.2]
  rfl

/-- From an opening bracket the scan goes behind the span, and no closing bracket comes too early. -/
theorem scanBrackets_eq (hat : IsAt text i (brackets.opening :: rest)) :
    scanBrackets (octets text) brackets 0 none i =
      .ok (i + byteLength (brackets.span (brackets.opening :: rest)).1) := by
  have hopening := hbrackets.opening
  have hrest := resume_scanBrackets hbrackets (Nat.succ_pos 0) (show HasQuotes .bare from trivial)
    (hat.next_of_isAscii hopening.1)
  rw [resume] at hrest
  rw [scanBrackets_none (hat.getElem?_of_isAscii hopening.1), if_neg hopening.2.1,
    if_neg hopening.2.2, if_pos rfl, hrest, span_opening hbrackets, byteLength,
    utf8Size_of_isAscii hopening.1, Nat.add_assoc]

/-- A scan from a closing bracket lowers the depth below zero. -/
theorem scanBrackets_of_closing (hat : IsAt text i (brackets.closing :: rest)) :
    scanBrackets (octets text) brackets 0 none i = .error .underflow := by
  have hclosing := hbrackets.closing
  rw [scanBrackets_none (hat.getElem?_of_isAscii hclosing.1), if_neg hclosing.2.1, if_neg hclosing.2.2,
    if_neg hbrackets.different, if_pos rfl]
  rfl

end Brackets

/-! ### Blanks -/

/-- The offset behind the ASCII blanks at an offset. -/
def skipBlanks (bytes : Octets) (i : Nat) : Except Fault Nat :=
  if _h : i < bytes.length then do
    if isAsciiBlank (← itemAt bytes i) then skipBlanks bytes (i + 1) else return i
  else
    return i
termination_by bytes.length - i

theorem isAscii_of_isAsciiBlank (hc : isAsciiBlank c = true) : IsAscii c := by
  simp only [isAsciiBlank, Bool.or_eq_true, beq_iff_eq] at hc
  rcases hc with (((rfl | rfl) | rfl) | rfl) | rfl <;> decide

theorem skipBlanks_eq (hat : IsAt text i rest) :
    skipBlanks (octets text) i = .ok (i + byteLength (rest.takeWhile isAsciiBlank)) := by
  induction rest generalizing i with
  | nil =>
    rw [skipBlanks, dif_neg hat.not_lt_octets]
    rfl
  | cons c rest ih =>
    obtain ⟨d, hget, hd⟩ : ∃ d, (octets text)[i]? = some d ∧ isAsciiBlank d = isAsciiBlank c := by
      by_cases hc : IsAscii c
      · exact ⟨c, hat.getElem?_of_isAscii hc, rfl⟩
      · obtain ⟨d, hget, hwide⟩ := hat.exists_octet hc c.utf8Size_pos
        refine ⟨d, hget, ?_⟩
        rw [Bool.eq_false_iff.mpr fun hblank => hwide (isAscii_of_isAsciiBlank hblank),
          Bool.eq_false_iff.mpr fun hblank => hc (isAscii_of_isAsciiBlank hblank)]
    rw [skipBlanks, dif_pos (lt_length_of_getElem? hget), itemAt_of_getElem? hget]
    show (if isAsciiBlank d = true then _ else _) = _
    rw [hd]
    by_cases hblank : isAsciiBlank c = true
    · have hc := isAscii_of_isAsciiBlank hblank
      rw [if_pos hblank, ih (hat.next_of_isAscii hc), List.takeWhile_cons_of_pos hblank, byteLength,
        utf8Size_of_isAscii hc, Nat.add_assoc]
    · rw [if_neg hblank, List.takeWhile_cons_of_neg hblank]
      rfl

/-! ### Names -/

/-- The offset behind the bytes that go on with a character. -/
def skipInside (bytes : Octets) (i : Nat) : Except Fault Nat :=
  if _h : i < bytes.length then do
    let c ← itemAt bytes i
    if 0x80 ≤ c.toNat ∧ c.toNat < 0xc0 then skipInside bytes (i + 1) else return i
  else
    return i
termination_by bytes.length - i

/-- The offset behind the name at an offset. -/
def scanName (bytes : Octets) (i : Nat) : Except Fault Nat :=
  if _h : i < bytes.length then do
    let c ← itemAt bytes i
    if c = '\\' then scanName bytes (min (i + 2) bytes.length)
    else if c = '#' ∧ bytes[i + 1]? = some '{' then do
      let stop ← scanBrackets bytes .curly 0 none (i + 1)
      if i < stop then scanName bytes stop else throw .stuck
    else if isNameChar c then scanName bytes (i + 1)
    else skipInside bytes i
  else
    skipInside bytes i
termination_by bytes.length - i

theorem skipInside_eq_self (hat : IsAt text i rest)
    (hrest : ∀ c ∈ rest.head?, IsAscii c) : skipInside (octets text) i = .ok i := by
  cases rest with
  | nil =>
    rw [skipInside, dif_neg hat.not_lt_octets]
    rfl
  | cons c rest =>
    have hc := hrest c rfl
    have hget := hat.getElem?_of_isAscii hc
    rw [skipInside, dif_pos (lt_length_of_getElem? hget), itemAt_of_getElem? hget]
    exact if_neg fun hinside => Nat.not_lt.mpr hinside.1 hc

/-- An interpolation in a name is a bracketed span. -/
theorem scanName_interpolation (depth : Nat) (quoting : Quoting) (text : List Char) :
    Selector.scanName (.interpolation depth quoting) text =
      ((Brackets.curly.scan depth quoting text).1 ++
          (takeName (Brackets.curly.scan depth quoting text).2).1,
        (takeName (Brackets.curly.scan depth quoting text).2).2) := by
  induction text generalizing depth quoting with
  | nil => rfl
  | cons c text ih =>
    by_cases hcloses : Brackets.curly.closesAt depth quoting c = true
    · rw [Selector.scanName, Brackets.scan, if_pos hcloses, if_pos hcloses]
      rfl
    · rw [Selector.scanName, Brackets.scan, if_neg hcloses, if_neg hcloses, ih]
      rfl

theorem isNameChar_of_not_isAscii (hc : ¬IsAscii c) : isNameChar c = true := by
  simp only [isNameChar, Bool.or_eq_true, decide_eq_true_eq]
  exact .inr (Nat.not_lt.mp hc)

theorem scanName_cons (hget : bytes[i]? = some c) :
    scanName bytes i =
      if c = '\\' then scanName bytes (min (i + 2) bytes.length)
      else if c = '#' ∧ bytes[i + 1]? = some '{' then do
        let stop ← scanBrackets bytes .curly 0 none (i + 1)
        if i < stop then scanName bytes stop else throw .stuck
      else if isNameChar c then scanName bytes (i + 1)
      else skipInside bytes i := by
  rw [scanName, dif_pos (lt_length_of_getElem? hget), itemAt_of_getElem? hget]
  rfl

theorem scanName_passes (hget : bytes[i]? = some c)
    (hc : ¬IsAscii c) : scanName bytes i = scanName bytes (i + 1) := by
  rw [scanName_cons hget, if_neg (ne_of_not_isAscii hc (by decide)),
    if_neg fun hsharp => ne_of_not_isAscii hc (by decide) hsharp.1,
    if_pos (isNameChar_of_not_isAscii hc)]

/-- The name at an offset is walked over without a fault, wherever its escapes lead. -/
theorem scanName_eq (hat : IsAt text i rest) :
    scanName (octets text) i = .ok (i + byteLength (takeName rest).1) := by
  induction hlength : rest.length using Nat.strongRecOn generalizing rest i with
  | ind length ih =>
    subst hlength
    cases rest with
    | nil =>
      rw [scanName, dif_neg hat.not_lt_octets,
        skipInside_eq_self hat (by simp)]
      rfl
    | cons c rest =>
      by_cases hc : IsAscii c
      · have hnext := hat.next_of_isAscii hc
        have hone := utf8Size_of_isAscii hc
        have hbrace := hnext.getElem?_eq_some_iff (show IsAscii '{' by decide)
        rw [scanName_cons (hat.getElem?_of_isAscii hc), takeName, Selector.scanName]
        by_cases hbackslash : c = '\\'
        · rw [if_pos hbackslash, if_pos hbackslash]
          cases rest with
          | nil =>
            have hend : min (i + 2) (octets text).length = i + 1 := by
              rw [length_octets, ← hnext.eq_of_nil]
              omega
            rw [hend, ih 0 (by simp) hnext rfl]
            simp [byteLength, hone, takeName, Selector.scanName]
          | cons d rest =>
            have hend : min (i + 2) (octets text).length = i + 2 := by
              have hlt := hnext.lt_length
              rw [length_octets]
              omega
            rw [hend, hnext.isNear_next.eq hnext.next fun _ _ => scanName_passes,
              ih rest.length (by simp only [List.length_cons]; omega) hnext.next rfl, Selector.scanName]
            simp [byteLength, hone, takeName, Nat.add_assoc]
        rw [if_neg hbackslash, if_neg hbackslash]
        by_cases hsharp : c = '#' ∧ rest.head? = some '{'
        · rw [if_pos ⟨hsharp.1, hbrace.mpr hsharp.2⟩, if_pos hsharp]
          obtain ⟨others, rfl⟩ : ∃ others, rest = '{' :: others := List.head?_eq_some_iff.mp hsharp.2
          have hspan := Brackets.span_append .curly ('{' :: others)
          have hscan := scanBrackets_eq areApart_curly hnext
          rw [show Brackets.curly.opening = '{' from rfl] at hscan
          rw [← hspan] at hnext
          rw [hscan, scanName_interpolation]
          show (if i < _ then _ else _) = _
          rw [if_pos (by omega), ih _ ?_ hnext.skip rfl, ← Brackets.span]
          · simp [byteLength, byteLength_append, hone, Nat.add_assoc]
          · have hshorter := congrArg List.length hspan
            simp only [List.length_append, List.length_cons] at hshorter ⊢
            omega
        rw [if_neg fun hboth => hsharp ⟨hboth.1, hbrace.mp hboth.2⟩, if_neg hsharp]
        by_cases hname : isNameChar c = true
        · rw [if_pos hname, if_pos hname, ih rest.length (by simp) hnext rfl]
          simp [byteLength, hone, takeName, Nat.add_assoc]
        · rw [if_neg hname, if_neg hname, skipInside_eq_self hat (by simp [hc])]
          rfl
      · rw [(hat.isNear hc).eq hat.next fun _ _ => scanName_passes,
          ih rest.length (by simp) hat.next rfl, takeName, takeName, Selector.scanName,
          if_neg (ne_of_not_isAscii hc (by decide)),
          if_neg fun hsharp => ne_of_not_isAscii hc (by decide) hsharp.1,
          if_pos (isNameChar_of_not_isAscii hc)]
        simp [byteLength, Nat.add_assoc]

/-! ### Comments -/

/-- A comment ends where the first end mark is found. -/
theorem find?_comment (text : List Char) :
    ((find? ['*', '/'] text).map (· + 2)).getD (byteLength text) = byteLength (takeBlockComment text).1 := by
  fun_induction takeBlockComment text with
  | case1 => rfl
  | case2 text => rfl
  | case3 c text hopen body rest hbody ih =>
    have hstart : ¬['*', '/'].isPrefixOf (c :: text) = true := by
      rw [List.isPrefixOf_iff_prefix]
      rintro ⟨others, hothers⟩
      cases hothers
      exact hopen others rfl rfl
    rw [hbody] at ih
    rw [find?, if_neg hstart, byteLength, byteLength, ← ih]
    cases find? ['*', '/'] text with
    | none => rfl
    | some place => exact Nat.add_assoc _ _ _

/-! ### Segments -/

/-- The brackets that a character opens. -/
def openedBy? (c : Char) : Option Brackets :=
  if c = '(' then some .round else if c = '[' then some .square else if c = '{' then some .curly
  else none

/-- The segments of a text between its commas, of which the first one began at `start`. -/
def walkSegments (text : List Char) (start : Nat) (mark : Option Char) (i : Nat) :
    Except Fault (List (List Char)) :=
  if _h : i < (octets text).length then do
    let c ← itemAt (octets text) i
    match mark with
    | some mark =>
      if c = mark then walkSegments text start none (i + 1)
      else if c = '\\' then walkSegments text start (some mark) (i + 2)
      else walkSegments text start (some mark) (i + 1)
    | none =>
      if c = '\\' then walkSegments text start none (i + 2)
      else if IsQuote c then walkSegments text start (some c) (i + 1)
      else if c = ',' then do
        let segment ← cut text start i
        let segments ← walkSegments text (i + 1) none (i + 1)
        return segment :: segments
      else
        match openedBy? c with
        | some brackets => do
          let stop ← scanBrackets (octets text) brackets 0 none i
          if i < stop then walkSegments text start none stop else throw .stuck
        | none => walkSegments text start none (i + 1)
  else do
    let segment ← cutFrom text start
    return [segment]
termination_by (octets text).length - i

theorem areApart_of_openedBy? (hopened : openedBy? c = some brackets) :
    AreApart brackets ∧ c = brackets.opening := by
  simp only [openedBy?] at hopened
  split at hopened
  · cases hopened
    exact ⟨areApart_round, by assumption⟩
  split at hopened
  · cases hopened
    exact ⟨areApart_square, by assumption⟩
  split at hopened
  · cases hopened
    exact ⟨areApart_curly, by assumption⟩
  · cases hopened

theorem step_top (c : Char) :
    Nesting.step .bare c .top = ((openedBy? c).map fun brackets => .within brackets 1).getD .top := by
  simp only [Nesting.step, openedBy?, if_true]
  repeat' split
  all_goals rfl

/-- Inside brackets a scan for commas goes to the end of their span. -/
theorem scanSegments_within (hbrackets : AreApart brackets) (depth : Nat)
    (quoting : Quoting) (text : List Char) :
    scanSegments quoting (.within brackets depth) text =
      ((brackets.scan depth quoting text).1 ++
          (scanSegments .bare .top (brackets.scan depth quoting text).2).1,
        (scanSegments .bare .top (brackets.scan depth quoting text).2).2) := by
  induction text generalizing depth quoting with
  | nil => rfl
  | cons c text ih =>
    rw [scanSegments, if_neg (by simp), Nesting.step, Brackets.scan]
    by_cases hcloses : brackets.closesAt depth quoting c = true
    · have hboth := hcloses
      simp only [Brackets.closesAt, Bool.and_eq_true, decide_eq_true_eq] at hboth
      obtain ⟨⟨rfl, rfl⟩, -⟩ := hboth
      rw [if_pos hcloses, if_pos hcloses, step_of_not_isQuote hbrackets.closing.2.1 hbrackets.closing.2.2]
      rfl
    · rw [if_neg hcloses, if_neg hcloses, ih]
      rfl

section Segments

variable {text : List Char} {start i : Nat}

theorem walkSegments_of_le {mark : Option Char} (hle : (octets text).length ≤ i) :
    walkSegments text start mark i = (cutFrom text start).map ([·]) := by
  rw [walkSegments, dif_neg (Nat.not_lt.mpr hle)]
  cases cutFrom text start <;> rfl

theorem walkSegments_none (hget : (octets text)[i]? = some c) :
    walkSegments text start none i =
      if c = '\\' then walkSegments text start none (i + 2)
      else if IsQuote c then walkSegments text start (some c) (i + 1)
      else if c = ',' then do
        let segment ← cut text start i
        let segments ← walkSegments text (i + 1) none (i + 1)
        return segment :: segments
      else
        match openedBy? c with
        | some brackets => do
          let stop ← scanBrackets (octets text) brackets 0 none i
          if i < stop then walkSegments text start none stop else throw .stuck
        | none => walkSegments text start none (i + 1) := by
  rw [walkSegments, dif_pos (lt_length_of_getElem? hget), itemAt_of_getElem? hget]
  rfl

theorem walkSegments_some {mark : Char} (hget : (octets text)[i]? = some c) :
    walkSegments text start (some mark) i =
      if c = mark then walkSegments text start none (i + 1)
      else if c = '\\' then walkSegments text start (some mark) (i + 2)
      else walkSegments text start (some mark) (i + 1) := by
  rw [walkSegments, dif_pos (lt_length_of_getElem? hget), itemAt_of_getElem? hget]
  rfl

theorem openedBy?_eq_none (hc : c = '\\' ∨ IsQuote c ∨ ¬IsAscii c) :
    openedBy? c = none := by
  cases hopened : openedBy? c with
  | none => rfl
  | some brackets =>
    obtain ⟨hbrackets, rfl⟩ := areApart_of_openedBy? hopened
    obtain ⟨hascii, hbackslash, hquote⟩ := hbrackets.opening
    rcases hc with heq | heq | hwide
    · exact absurd heq hbackslash
    · exact absurd heq hquote
    · exact absurd hascii hwide

theorem knowsQuotes_walkSegments (text : List Char) (start : Nat) :
    KnowsQuotes (octets text) (walkSegments text start) := by
  refine .of_step walkSegments_none walkSegments_some fun hwide => ?_
  rw [if_neg (ne_of_not_isAscii hwide (by decide)), openedBy?_eq_none (.inr (.inr hwide))]

/-- The commas of a text are found without a fault, and every segment is cut between characters. -/
theorem resume_walkSegments {seen rest : List Char} {quoting : Quoting} (hquoting : HasQuotes quoting)
    (hstart : IsAt text start (seen ++ rest)) (hi : i = start + byteLength seen) :
    resume (walkSegments text start) i quoting =
      .ok ((seen ++ (scanSegments quoting .top rest).1) :: (scanSegments quoting .top rest).2) := by
  induction hlength : rest.length using Nat.strongRecOn generalizing rest seen start i quoting with
  | ind length ih =>
    subst hlength
    have hat : IsAt text i rest := hi ▸ hstart.skip
    cases rest with
    | nil =>
      have hlength : (octets text).length = i := by rw [length_octets, hat.eq_of_nil]
      cases quoting <;> rw [resume, walkSegments_of_le (by omega), hstart.cutFrom_eq] <;> rfl
    | cons c rest =>
      have hseen : IsAt text start (seen ++ [c] ++ rest) := by rwa [List.append_assoc]
      -- A character that belongs to the segment.
      have hgoes (hstays : Nesting.step quoting c .top = .top)
          (hcomma : ¬(quoting = .bare ∧ Nesting.top = .top ∧ c = ',')) :
          resume (walkSegments text start) (i + c.utf8Size) (quoting.step c) =
            .ok ((seen ++ (scanSegments quoting .top (c :: rest)).1) ::
              (scanSegments quoting .top (c :: rest)).2) := by
        have hend : i + c.utf8Size = start + byteLength (seen ++ [c]) := by
          rw [hi, byteLength_append, Nat.add_assoc]
          rfl
        rw [ih rest.length (by simp) (hquoting.step c) hseen hend rfl, scanSegments, if_neg hcomma, hstays]
        simp
      by_cases hspecial : quoting = .bare → c = '\\' ∨ IsQuote c ∨ ¬IsAscii c
      · rw [(knowsQuotes_walkSegments text start).resume_eq hquoting hat hspecial]
        by_cases hbare : quoting = .bare
        · subst hbare
          refine hgoes (by rw [step_top, openedBy?_eq_none (hspecial rfl)]; rfl) ?_
          rintro ⟨-, -, rfl⟩
          exact absurd (hspecial rfl) (by decide)
        · exact hgoes (by rw [Nesting.step, if_neg hbare]) fun hcomma => hbare hcomma.1
      · obtain ⟨rfl, hbackslash, hquote, hc⟩ : quoting = .bare ∧ c ≠ '\\' ∧ ¬IsQuote c ∧ IsAscii c := by
          grind
        have hone := utf8Size_of_isAscii hc
        have hnext := hat.next_of_isAscii hc
        have hstep := step_of_not_isQuote hbackslash hquote
        rw [resume, walkSegments_none (hat.getElem?_of_isAscii hc), if_neg hbackslash, if_neg hquote]
        by_cases hcomma : c = ','
        · have hbare : HasQuotes .bare := trivial
          have hothers := ih rest.length (by simp) hbare (show IsAt text (i + 1) ([] ++ rest) from hnext)
            rfl rfl
          rw [resume, byteLength, Nat.add_zero] at hothers
          rw [if_pos hcomma, hi, hstart.cut_eq, ← hi, hothers, scanSegments, if_pos ⟨rfl, rfl, hcomma⟩]
          simp [bind, Except.bind, pure, Except.pure]
        rw [if_neg hcomma]
        cases hopened : openedBy? c with
        | none =>
          have hgoes := hgoes (by rw [step_top, hopened]; rfl) (by simp [hcomma])
          rwa [hone, hstep] at hgoes
        | some brackets =>
          obtain ⟨hbrackets, rfl⟩ := areApart_of_openedBy? hopened
          have hspan := Brackets.span_append brackets (brackets.opening :: rest)
          have hlength := congrArg List.length hspan
          have hpositive : 0 < byteLength (brackets.span (brackets.opening :: rest)).1 := by
            rw [span_opening hbrackets]
            exact byteLength_pos (List.cons_ne_nil _ _)
          rw [← hspan, ← List.append_assoc] at hstart
          have hrest := ih (brackets.span (brackets.opening :: rest)).2.length ?_
            (show HasQuotes .bare from trivial) hstart rfl rfl
          · rw [resume, byteLength_append, ← Nat.add_assoc, ← hi] at hrest
            dsimp only
            rw [scanBrackets_eq hbrackets hat]
            show (if i < _ then _ else _) = _
            rw [if_pos (by omega), hrest, scanSegments, if_neg (by simp [hcomma]), hstep, step_top, hopened,
              span_opening hbrackets]
            simp [scanSegments_within hbrackets]
          · rw [span_opening hbrackets] at hlength ⊢
            simp only [List.length_append, List.length_cons] at hlength ⊢
            omega

/-- The segments of a text. -/
theorem walkSegments_eq (text : List Char) : walkSegments text 0 none 0 = .ok (splitCommas text) :=
  @resume_walkSegments text 0 0 [] text .bare trivial (.start text) rfl

end Segments

end StyleMigration.Walk
