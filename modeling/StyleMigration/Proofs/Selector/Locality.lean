import StyleMigration.Proofs.Selector.Grammar

/-!
How far the cutting of a selector looks ahead. A piece is found by going through its own characters. Of
what comes after it, all that is looked at is whether a name ends there and what its first character is;
a piece that ran to the end of the text had nothing after it. So the piece is found as well in front of
another text that can take the place of what came after it (`Continues`, `takeSimple_exchange`). The proof
goes by the kinds of simple selectors, which `TakesSimple` tells apart.
-/

set_option autoImplicit false

namespace StyleMigration.Selector

open Text

variable {text rest other span name : List Char} {c : Char}

/-! ### Other rests -/

/-- Another text can take the place of the rest of a text: it is empty where the rest is, a name that ends
before the rest ends before it, and it begins like the rest or with a space. -/
structure Continues (rest other : List Char) : Prop where
  nil : rest = [] → other = []
  name : takeName rest = ([], rest) → takeName other = ([], other)
  head : ∀ c ∈ other.head?, c = ' ' ∨ rest.head? = some c

theorem Continues.head?_append_ne {rest other : List Char} (hother : Continues rest other) {c : Char}
    (hspace : c ≠ ' ') {front : List Char} (hrest : (front ++ rest).head? ≠ some c) :
    (front ++ other).head? ≠ some c := by
  cases front with
  | nil =>
    intro hhead
    rcases hother.head c hhead with heq | heq
    · exact hspace heq
    · exact hrest heq
  | cons first front => exact hrest

/-- A span that was closed does not depend on what comes after it. -/
theorem Brackets.scan_exchange {brackets : Brackets} {depth : Nat} {quoting : Quoting}
    (hscan : brackets.scan depth quoting text = (span, rest)) (hother : rest = [] → other = []) :
    brackets.scan depth quoting (span ++ other) = (span, other) := by
  fun_induction Brackets.scan brackets depth quoting text generalizing span with
  | case1 depth quoting =>
    cases hscan
    rw [hother rfl]
    rfl
  | case2 depth quoting c text hcloses =>
    cases hscan
    simp [scan, hcloses]
  | case3 depth quoting c text hopen span' rest' hscan' ih =>
    cases hscan
    simp [scan, hopen, ih hscan']

theorem Brackets.span_exchange {brackets : Brackets}
    (hspan : brackets.span text = (span, rest)) (hother : rest = [] → other = []) :
    brackets.span (span ++ other) = (span, other) :=
  scan_exchange hspan hother

theorem scanName_exchange {state : NameState}
    (hscan : scanName state text = (name, rest)) (hother : Continues rest other) :
    scanName state (name ++ other) = (name, other) := by
  fun_induction scanName state text generalizing name with
  | case1 state =>
    cases hscan
    rw [hother.nil rfl]
    cases state <;> rfl
  | case2 text name' rest' hscan' ih =>
    cases hscan
    simp [scanName, ih hscan']
  | case3 c text hescape hsharp name' rest' hscan' ih =>
    cases hscan
    -- The brace after the sign is in the name, since an interpolation takes every character.
    have hbrace : (name' ++ other).head? = some '{' := by
      obtain ⟨text, rfl⟩ := List.head?_eq_some_iff.mp hsharp.2
      cases hscan'
      rfl
    simp [scanName, hsharp.1, hbrace, ih hscan']
  | case4 c text hescape hsharp hname name' rest' hscan' ih =>
    cases hscan
    have hc : c ≠ '#' := by
      rintro rfl
      exact absurd hname (by decide)
    simp [scanName, hescape, hc, hname, ih hscan']
  | case5 c text hescape hsharp hname =>
    cases hscan
    exact hother.name (by simp [takeName, scanName, hescape, hsharp, hname])
  | case6 c text name' rest' hscan' ih =>
    cases hscan
    simp [scanName, ih hscan']
  | case7 depth quoting c text state name' rest' hscan' =>
    rename_i ih
    obtain ⟨rfl, rfl⟩ := Prod.mk.inj hscan
    rw [List.cons_append, scanName]
    exact congrArg (fun scanned => (c :: scanned.1, scanned.2)) (ih hscan')

theorem takeName_exchange (hname : takeName text = (name, rest))
    (hother : Continues rest other) : takeName (name ++ other) = (name, other) :=
  scanName_exchange hname hother

/-! ### Pieces -/

/-- A pseudo-class is cut into its colons, its name and what comes after it, in which an argument is found
if it begins with a parenthesis. -/
theorem exists_takePseudo_eq (text : List Char) :
    ∃ colon name rest, text = colon ++ name ++ rest ∧ (∀ c ∈ colon, c = ':') ∧
      takeName (name ++ rest) = (name, rest) ∧ ∀ other, Continues rest other →
        takePseudo (colon ++ name ++ other) =
          if other.head? = some '(' then
            (.call (':' :: colon) name (Brackets.round.span other).1, (Brackets.round.span other).2)
          else (.leaf (.pseudo (':' :: colon ++ name)), other) := by
  by_cases hcolon : text.head? = some ':'
  · obtain ⟨text, rfl⟩ := List.head?_eq_some_iff.mp hcolon
    have happend := takeName_append text
    refine ⟨[':'], (takeName text).1, (takeName text).2, by simp [happend], by simp,
      by rw [happend], fun other hother => ?_⟩
    have hname := takeName_exchange (Prod.eta (takeName text)).symm hother
    simp [takePseudo, hname]
  · have happend := takeName_append text
    refine ⟨[], (takeName text).1, (takeName text).2, by simp [happend], by simp,
      by rw [happend], fun other hother => ?_⟩
    have hcolon' : ((takeName text).1 ++ other).head? ≠ some ':' :=
      hother.head?_append_ne (by decide) (by rwa [happend])
    have hname := takeName_exchange (Prod.eta (takeName text)).symm hother
    rw [List.nil_append, takePseudo]
    · simp [hname]
    · exact fun others hothers => hcolon' (by rw [hothers]; rfl)

/-- A text can take its own place. -/
theorem Continues.refl (rest : List Char) : Continues rest rest :=
  ⟨id, id, fun _ => .inr⟩

/-- The piece and the rest that `takeSimple` finds, by the first character. -/
inductive TakesSimple : Char → List Char → Piece → List Char → Prop
  | comment {text body rest : List Char} (hbody : takeBlockComment text = (body, rest)) :
      TakesSimple '/' ('*' :: text) (.leaf (.comment ('/' :: '*' :: body))) rest
  | className {text name rest : List Char} (hname : takeName text = (name, rest)) :
      TakesSimple '.' text (.leaf (.className ('.' :: name))) rest
  | interpolation {text span rest : List Char} (hbrace : text.head? = some '{')
      (hspan : Brackets.curly.span text = (span, rest)) :
      TakesSimple '#' text (.leaf (.other ('#' :: span))) rest
  | id {text name rest : List Char} (hbrace : text.head? ≠ some '{')
      (hname : takeName text = (name, rest)) : TakesSimple '#' text (.leaf (.id ('#' :: name))) rest
  | attr {text span rest : List Char} (hspan : Brackets.square.span ('[' :: text) = (span, rest)) :
      TakesSimple '[' text (.leaf (.attr span)) rest
  | nesting (text : List Char) : TakesSimple '&' text (.leaf .nesting) text
  | universal (text : List Char) : TakesSimple '*' text (.leaf (.universal ['*'])) text
  | pseudo {text rest : List Char} {piece : Piece} (hpseudo : takePseudo text = (piece, rest)) :
      TakesSimple ':' text piece rest
  | tag {c : Char} {text name rest : List Char} (hstart : isNameChar c = true)
      (hname : takeName (c :: text) = (name, rest)) : TakesSimple c text (.leaf (.tag name)) rest
  | other {c : Char} (text : List Char) (hstart : isNameChar c = false)
      (hcomment : ¬ (c = '/' ∧ text.head? = some '*'))
      (hc : c ∉ ['.', '#', '[', '&', '*', ':']) : TakesSimple c text (.leaf (.other [c])) text

theorem takeSimple_eq_iff {piece : Piece} :
    takeSimple c text = (piece, rest) ↔ TakesSimple c text piece rest := by
  constructor
  · intro htaken
    unfold takeSimple at htaken
    split at htaken
    · rename_i hcomment
      obtain ⟨rfl, hstar⟩ := hcomment
      obtain ⟨text, rfl⟩ := List.head?_eq_some_iff.mp hstar
      cases htaken
      exact .comment rfl
    rename_i hcomment
    split at htaken
    · rename_i hclass
      cases hclass
      cases htaken
      exact .className rfl
    split at htaken
    · rename_i hsharp
      cases hsharp
      split at htaken
      · rename_i hbrace
        cases htaken
        exact .interpolation hbrace rfl
      · rename_i hbrace
        cases htaken
        exact .id hbrace rfl
    split at htaken
    · rename_i hsquare
      cases hsquare
      cases htaken
      exact .attr rfl
    split at htaken
    · rename_i hnesting
      cases hnesting
      cases htaken
      exact .nesting text
    split at htaken
    · rename_i huniversal
      cases huniversal
      cases htaken
      exact .universal text
    split at htaken
    · rename_i hcolon
      cases hcolon
      exact .pseudo htaken
    split at htaken
    · rename_i hstart
      cases htaken
      exact .tag hstart rfl
    · rename_i hstart
      cases htaken
      exact .other text (Bool.eq_false_iff.mpr hstart) hcomment (by simp_all)
  · intro htakes
    cases htakes with
    | comment hbody => simp [takeSimple, hbody]
    | className hname => simp [takeSimple, hname]
    | interpolation hbrace hspan => simp [takeSimple, hbrace, hspan]
    | id hbrace hname => simp [takeSimple, hbrace, hname]
    | attr hspan => simp [takeSimple, hspan]
    | nesting => simp [takeSimple]
    | universal => simp [takeSimple]
    | pseudo hpseudo => simp [takeSimple, hpseudo]
    | tag hstart hname =>
      have hc : c ∉ ['/', '.', '#', '[', '&', '*', ':'] := fun hmem => by
        have hnone : ∀ c ∈ ['/', '.', '#', '[', '&', '*', ':'], isNameChar c = false := by decide
        rw [hnone c hmem] at hstart
        cases hstart
      simp only [List.mem_cons, List.not_mem_nil, or_false, not_or] at hc
      simp [takeSimple, hc, hstart, hname]
    | other text hstart hcomment hc =>
      simp only [List.mem_cons, List.not_mem_nil, or_false, not_or] at hc
      simp [takeSimple, hcomment, hc, hstart]

/-- A simple selector without an argument is found as well in front of another rest. -/
theorem takeSimple_exchange {simple : Leaf}
    (htaken : takeSimple c text = (.leaf simple, rest)) (hother : Continues rest other) :
    ∃ front, c :: front = simple.text ∧ takeSimple c (front ++ other) = (.leaf simple, other) := by
  simp only [takeSimple_eq_iff] at htaken ⊢
  cases htaken with
  | comment hbody => exact ⟨_, rfl, .comment (takeBlockComment_exchange hbody hother.nil)⟩
  | className hname => exact ⟨_, rfl, .className (takeName_exchange hname hother)⟩
  | interpolation hbrace hspan =>
    have hhead := Brackets.curly.span_head? hbrace
    rw [hspan] at hhead
    exact ⟨_, rfl, .interpolation (by simp [hhead]) (Brackets.span_exchange hspan hother.nil)⟩
  | id hbrace hname =>
    have happend := takeName_append text
    rw [hname] at happend
    exact ⟨_, rfl, .id (hother.head?_append_ne (by decide) (by rwa [happend]))
      (takeName_exchange hname hother)⟩
  | attr hspan =>
    have hhead := Brackets.square.span_head? (show ('[' :: text).head? = some '[' from rfl)
    rw [hspan] at hhead
    obtain ⟨front, rfl⟩ := List.head?_eq_some_iff.mp hhead
    exact ⟨front, rfl, .attr (Brackets.span_exchange hspan hother.nil)⟩
  | nesting => exact ⟨[], rfl, .nesting other⟩
  | universal => exact ⟨[], rfl, .universal other⟩
  | pseudo hpseudo =>
    obtain ⟨colon, name, rest', rfl, -, -, hpseudo'⟩ := exists_takePseudo_eq text
    rw [hpseudo' rest' (.refl rest')] at hpseudo
    split at hpseudo
    · cases hpseudo
    · rename_i hargument
      cases hpseudo
      have hargument' : other.head? ≠ some '(' :=
        @Continues.head?_append_ne _ _ hother '(' (by decide) [] hargument
      refine ⟨colon ++ name, rfl, .pseudo ?_⟩
      rw [hpseudo' other hother, if_neg hargument']
  | tag hstart hname =>
    have happend := takeName_append (c :: text)
    have hne := takeName_ne_nil text hstart
    rw [hname] at happend hne
    obtain ⟨first, front, rfl⟩ := List.exists_cons_of_ne_nil hne
    obtain ⟨rfl, -⟩ := List.cons.inj happend
    exact ⟨front, rfl, .tag hstart (takeName_exchange hname hother)⟩
  | other text hstart hcomment hc =>
    have hcomment' : ¬ (c = '/' ∧ other.head? = some '*') := fun hslash =>
      @Continues.head?_append_ne _ _ hother '*' (by decide) []
        (fun hstar => hcomment ⟨hslash.1, hstar⟩) hslash.2
    exact ⟨[], rfl, .other other hstart hcomment' hc⟩

/-- The argument of a pseudo-class is a span. -/
theorem exists_span_of_takeSimple {colons : List Char}
    (htaken : takeSimple c text = (.call colons name span, rest)) :
    ∃ group, Brackets.round.span group = (span, rest) := by
  cases takeSimple_eq_iff.mp htaken with
  | pseudo hpseudo =>
    unfold takePseudo at hpseudo
    grind

/-- A pseudo-class is found with another argument, if the span of that argument ends where it should. -/
theorem takeSimple_call_exchange {colons span' : List Char}
    (htaken : takeSimple c text = (.call colons name span, rest)) (hopening : span'.head? = some '(')
    (hspan : Brackets.round.span (span' ++ other) = (span', other)) :
    ∃ front, c :: front = colons ++ name ++ span' ∧
      takeSimple c (front ++ other) = (.call colons name span', other) := by
  cases takeSimple_eq_iff.mp htaken
  rename_i hpseudo
  obtain ⟨colon, name', rest', rfl, -, -, hpseudo'⟩ := exists_takePseudo_eq text
  rw [hpseudo' rest' (.refl rest')] at hpseudo
  split at hpseudo
  · rename_i hargument
    cases hpseudo
    obtain ⟨after, hafter⟩ := List.head?_eq_some_iff.mp
      (show (span' ++ other).head? = some '(' by simp [hopening])
    have hother : Continues rest' (span' ++ other) := by
      rw [hafter]
      refine ⟨?_, fun _ => by simp [takeName, scanName, isNameChar], ?_⟩
      · rintro rfl
        cases hargument
      · rintro c hc
        cases hc
        exact .inr hargument
    refine ⟨colon ++ name ++ span', by simp, ?_⟩
    have htaken' := hpseudo' _ hother
    rw [hafter, List.head?_cons, if_pos rfl, ← hafter, hspan] at htaken'
    rw [takeSimple_eq_iff, List.append_assoc]
    exact .pseudo htaken'
  · cases hpseudo

/-! ### Combinators -/

theorem mem_signs_of_takeSign? {sign : List Char}
    (htaken : takeSign? text = some (sign, rest)) : sign ∈ signs := by
  unfold takeSign? at htaken
  split at htaken
  case h_6 => cases htaken
  all_goals
    obtain ⟨rfl, rfl⟩ := Prod.mk.inj (Option.some.inj htaken)
    decide

/-- A combinator is a sign with the blanks around it, or blanks with no sign after them. -/
theorem takeCombinator?_cases {leaf : Leaf} (htaken : takeCombinator? text = some (leaf, rest)) :
    (∃ before sign after, leaf = .combinator sign (before ++ sign ++ after) ∧ AreBlanks before ∧
        AreBlanks after ∧ takeSign? (text.dropWhile isAsciiBlank) = some (sign, after ++ rest)) ∨
      ∃ blanks, leaf = .combinator [' '] blanks ∧ blanks ≠ [] ∧ AreBlanks blanks := by
  have hblanks (text : List Char) : AreBlanks (text.takeWhile isAsciiBlank) :=
    fun c hc => List.all_eq_true.mp List.all_takeWhile c hc
  simp only [takeCombinator?] at htaken
  split at htaken
  · rename_i sign after hsign
    obtain ⟨rfl, rfl⟩ := Prod.mk.inj (Option.some.inj htaken)
    refine .inl ⟨_, sign, _, rfl, hblanks _, hblanks _, ?_⟩
    rw [List.takeWhile_append_dropWhile, hsign]
  · split at htaken
    · cases htaken
    · rename_i hne
      obtain ⟨rfl, rfl⟩ := Prod.mk.inj (Option.some.inj htaken)
      exact .inr ⟨_, rfl, by simpa using hne, hblanks _⟩

/-- Where no combinator is, there is neither a blank nor a sign. -/
theorem takeCombinator?_eq_none (hnone : takeCombinator? (c :: text) = none) :
    isAsciiBlank c = false ∧ takeSign? (c :: text) = none := by
  have hblank : isAsciiBlank c = false := by
    cases hc : isAsciiBlank c with
    | false => rfl
    | true =>
      simp only [takeCombinator?] at hnone
      split at hnone
      · cases hnone
      · simp [hc] at hnone
  refine ⟨hblank, ?_⟩
  simp only [takeCombinator?] at hnone
  split at hnone
  · cases hnone
  · rename_i hsign
    simpa [hblank] using hsign

end StyleMigration.Selector
