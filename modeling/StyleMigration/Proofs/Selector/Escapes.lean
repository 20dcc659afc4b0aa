import StyleMigration.Proofs.Selector.Locality

/-!
Which characters of a selector a scan through the whole text takes no notice of. A backslash takes the next
character with it wherever it stands, in a name, in a quoted string and in brackets. No piece but one at
the end of the text takes a backslash without the character after it (`escapesNext_source`), so a scan,
whatever else it keeps count of, begins every piece with a character that is not escaped. The characters of
a combinator are idle then: they open and close nothing (`isIdle_of_takeCombinator?`).
-/

set_option autoImplicit false

namespace StyleMigration.Selector

open Text

variable {text rest : List Char} {c : Char}

/-! ### Backslashes -/

/-- Whether a character is a backslash that takes the next one with it, where `escaped` says whether it is
taken itself. -/
def escapes (escaped : Bool) (c : Char) : Bool :=
  c == '\\' && !escaped

/-- Whether a text takes the character after it with it. -/
def escapesNext (escaped : Bool) (text : List Char) : Bool :=
  text.foldl escapes escaped

theorem escapesNext_append (escaped : Bool) (front back : List Char) :
    escapesNext escaped (front ++ back) = escapesNext (escapesNext escaped front) back :=
  List.foldl_append

theorem escapes_of_ne (hc : c ≠ '\\') (escaped : Bool) : escapes escaped c = false := by
  simp [escapes, hc]

theorem escapesNext_cons_of_ne (hc : c ≠ '\\') (escaped : Bool) (text : List Char) :
    escapesNext escaped (c :: text) = escapesNext false text := by
  rw [escapesNext, List.foldl_cons, escapes_of_ne hc, ← escapesNext]

/-- A text that does not end with a backslash takes nothing with it. -/
theorem escapesNext_concat {c : Char} (hc : c ≠ '\\') (escaped : Bool) (text : List Char) :
    escapesNext escaped (text ++ [c]) = false := by
  rw [escapesNext_append]
  exact escapes_of_ne hc _

theorem escapesNext_of_forall (htext : ∀ c ∈ text, c ≠ '\\') :
    escapesNext false text = false := by
  rcases List.eq_nil_or_concat text with rfl | ⟨front, c, rfl⟩
  · rfl
  · rw [List.concat_eq_append]
    exact escapesNext_concat (htext c (by simp)) false front

/-- Whether the next character is escaped. -/
def Quoting.isEscape : Quoting → Bool
  | bare | inside _ => false
  | escape | insideEscape _ => true

theorem Quoting.isEscape_step (quoting : Quoting) (c : Char) :
    (quoting.step c).isEscape = escapes quoting.isEscape c := by
  by_cases hc : c = '\\'
  · subst hc
    cases quoting <;> rfl
  · rw [escapes_of_ne hc]
    cases quoting <;> simp only [Quoting.step, if_neg hc]
    case bare => split <;> rfl
    case inside mark => split <;> rfl
    all_goals rfl

def NameState.isEscape : NameState → Bool
  | plain => false
  | escape => true
  | interpolation _ quoting => quoting.isEscape

/-- A span that was closed ends with its bracket. -/
theorem Brackets.escapesNext_scan {brackets : Brackets} (hbackslash : brackets.closing ≠ '\\')
    {depth : Nat} {quoting : Quoting} {span : List Char}
    (hscan : brackets.scan depth quoting text = (span, rest)) (hrest : rest ≠ []) :
    escapesNext quoting.isEscape span = false := by
  fun_induction Brackets.scan brackets depth quoting text generalizing span with
  | case1 depth quoting =>
    cases hscan
    exact absurd rfl hrest
  | case2 depth quoting c text hcloses =>
    cases hscan
    simp only [closesAt, Bool.and_eq_true, decide_eq_true_eq] at hcloses
    exact escapes_of_ne (hcloses.1.2 ▸ hbackslash) _
  | case3 depth quoting c text hopen span' rest' hscan' ih =>
    cases hscan
    have hspan := ih hscan'
    rwa [Quoting.isEscape_step] at hspan

theorem escapesNext_scanName {state : NameState} {name : List Char}
    (hscan : scanName state text = (name, rest)) (hrest : rest ≠ []) :
    escapesNext state.isEscape name = false := by
  fun_induction scanName state text generalizing name with
  | case1 state =>
    cases hscan
    exact absurd rfl hrest
  | case2 text name' rest' hscan' ih =>
    cases hscan
    exact ih hscan'
  | case3 c text hescape hsharp name' rest' hscan' ih =>
    cases hscan
    have hname := ih hscan'
    rw [hsharp.1]
    exact hname
  | case4 c text hescape hsharp hname name' rest' hscan' ih =>
    cases hscan
    have hname := ih hscan'
    rwa [show NameState.plain.isEscape = escapes NameState.plain.isEscape c from
      (escapes_of_ne hescape _).symm] at hname
  | case5 c text hescape hsharp hname =>
    cases hscan
    rfl
  | case6 c text name' rest' hscan' ih =>
    cases hscan
    have hname := ih hscan'
    rwa [show NameState.plain.isEscape = escapes NameState.escape.isEscape c by
      simp [NameState.isEscape, escapes]] at hname
  | case7 depth quoting c text state name' rest' hscan' =>
    rename_i ih
    obtain ⟨rfl, rfl⟩ := Prod.mk.inj hscan
    have hstate : state.isEscape = escapes quoting.isEscape c := by
      rw [← Quoting.isEscape_step]
      simp only [state]
      split
      · rename_i hcloses
        simp only [Brackets.closesAt, Bool.and_eq_true, decide_eq_true_eq] at hcloses
        obtain ⟨⟨rfl, rfl⟩, -⟩ := hcloses
        rfl
      · rfl
    have hname := ih hscan'
    rwa [hstate] at hname

/-! ### Idle characters -/

/-- A character that opens and closes nothing, parts nothing and hides nothing. -/
def isIdle (c : Char) : Bool :=
  isSegmentChar c && c != ']' && c != '}'

theorem ne_backslash_of_isIdle (hc : isIdle c = true) : c ≠ '\\' := by
  rintro rfl
  exact absurd hc (by decide)

theorem AreBlanks.isIdle {blanks : List Char} (hblanks : AreBlanks blanks) :
    ∀ c ∈ blanks, isIdle c = true := by
  intro c hc
  have hc := hblanks c hc
  simp only [isAsciiBlank, Bool.or_eq_true, beq_iff_eq] at hc
  rcases hc with (((rfl | rfl) | rfl) | rfl) | rfl <;> rfl

/-- A combinator is idle in every scan. -/
theorem isIdle_of_takeCombinator? {leaf : Leaf}
    (htaken : takeCombinator? text = some (leaf, rest)) : ∀ c ∈ leaf.text, isIdle c = true := by
  rcases takeCombinator?_cases htaken with
    ⟨before, sign, after, rfl, hbefore, hafter, hsign⟩ | ⟨blanks, rfl, -, hblanks⟩
  · have hall : ∀ sign ∈ signs, ∀ c ∈ sign, isIdle c = true := by decide
    rw [Leaf.text, List.forall_mem_append, List.forall_mem_append]
    exact ⟨⟨hbefore.isIdle, hall sign (mem_signs_of_takeSign? hsign)⟩, hafter.isIdle⟩
  · exact hblanks.isIdle

/-! ### Pieces and backslashes -/

theorem escapesNext_takeName {name : List Char} (hname : takeName text = (name, rest))
    (hrest : rest ≠ []) : escapesNext false name = false :=
  escapesNext_scanName hname hrest

theorem Brackets.escapesNext_span {brackets : Brackets} (hbackslash : brackets.closing ≠ '\\')
    {span : List Char} (hspan : brackets.span text = (span, rest)) (hrest : rest ≠ []) :
    escapesNext false span = false :=
  escapesNext_scan hbackslash hspan hrest

theorem escapesNext_takePseudo {piece : Piece}
    (htaken : takePseudo text = (piece, rest)) (hrest : rest ≠ []) :
    escapesNext false piece.source = false := by
  obtain ⟨colon, name, rest', rfl, hcolon, hname, hpseudo⟩ := exists_takePseudo_eq text
  have hcolons : escapesNext false (':' :: colon) = false := by
    refine escapesNext_of_forall (List.forall_mem_cons.mpr ⟨by decide, fun c hc => ?_⟩)
    rw [hcolon c hc]
    decide
  rw [hpseudo rest' (.refl rest')] at htaken
  split at htaken
  · rename_i hargument
    rcases hspan : Brackets.round.span rest' with ⟨span, after⟩
    rw [hspan] at htaken
    cases htaken
    have hrest' : rest' ≠ [] := by
      rintro rfl
      cases hargument
    rw [Piece.source, escapesNext_append, escapesNext_append, hcolons,
      escapesNext_takeName hname hrest']
    exact Brackets.escapesNext_span (by decide) hspan hrest
  · cases htaken
    rw [Piece.source, Leaf.text, List.cons_append, ← List.cons_append, escapesNext_append, hcolons]
    exact escapesNext_takeName hname hrest

theorem escapesNext_takeSimple {piece : Piece}
    (htaken : takeSimple c text = (piece, rest)) (hrest : rest ≠ []) :
    escapesNext false piece.source = false := by
  cases takeSimple_eq_iff.mp htaken with
  | comment hbody =>
    obtain ⟨front, rfl⟩ := takeBlockComment_eq_concat hbody hrest
    exact @escapesNext_concat '/' (by decide) false ('/' :: '*' :: front)
  | className hname =>
    rw [Piece.source, Leaf.text, escapesNext_cons_of_ne (by decide)]
    exact escapesNext_takeName hname hrest
  | interpolation hbrace hspan =>
    rw [Piece.source, Leaf.text, escapesNext_cons_of_ne (by decide)]
    exact Brackets.escapesNext_span (by decide) hspan hrest
  | id hbrace hname =>
    rw [Piece.source, Leaf.text, escapesNext_cons_of_ne (by decide)]
    exact escapesNext_takeName hname hrest
  | attr hspan => exact Brackets.escapesNext_span (by decide) hspan hrest
  | nesting => rfl
  | universal => rfl
  | pseudo hpseudo => exact escapesNext_takePseudo hpseudo hrest
  | tag hstart hname => exact escapesNext_takeName hname hrest
  | other text hstart hcomment hc =>
    refine escapes_of_ne ?_ _
    rintro rfl
    exact absurd hstart (by decide)

/-- No piece takes a backslash without the character after it, if there is one. -/
theorem escapesNext_source {piece : Piece}
    (htaken : takePiece c text = (piece, rest)) (hrest : rest ≠ []) :
    escapesNext false piece.source = false := by
  unfold takePiece at htaken
  split at htaken
  · rename_i leaf after hcombinator
    cases htaken
    exact escapesNext_of_forall fun c hc =>
      ne_backslash_of_isIdle (isIdle_of_takeCombinator? hcombinator c hc)
  · exact escapesNext_takeSimple htaken hrest

end StyleMigration.Selector
