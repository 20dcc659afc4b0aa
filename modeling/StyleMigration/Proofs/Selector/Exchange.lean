import StyleMigration.Selector.Deep
import StyleMigration.Proofs.Selector.Lossless
import StyleMigration.Proofs.Selector.Escapes

/-!
Texts in which legacy combinators are exchanged for `:deep`. The characters of both are idle: they open
and close nothing and hide nothing. So a scan for the end of an argument or for commas goes through both
texts alike, if no exchanged character is taken by a backslash before it (`Exchanged.foldlM_eq`). It finds
the same commas (`splitCommas_map`), and an argument in which something was exchanged ends where it ended
before (`Exchanged.span_eq`). As `:deep` has a space or a colon at its front, no sign comes about that was
not there (`Exchanged.startsWith_of_startsWith`).
-/

set_option autoImplicit false

namespace StyleMigration.Selector

open Text

variable {text : List Char} {c : Char} {brackets : Brackets} {quoting : Quoting}

/-! ### Exchanged characters -/

/-- What stands in the place of a legacy combinator. -/
def deepText (first last : Bool) : List Char :=
  partsText ((deepInPlace first last).map .leaf)

theorem isIdle_of_mem_deepText (first last : Bool) : ∀ c ∈ deepText first last, isIdle c = true := by
  cases first <;> cases last <;> decide +kernel

theorem head?_deepText (first last : Bool) :
    (deepText first last).head? = some (if first then ':' else ' ') := by
  cases first <;> cases last <;> rfl

/-- The second text is the first one with `:deep` in the place of idle characters here and there, where
none of these is escaped and `escaped` says whether the first character is. -/
inductive Exchanged : Bool → List Char → List Char → Prop
  | nil {escaped : Bool} : Exchanged escaped [] []
  | keep {escaped : Bool} {text written : List Char} (c : Char)
      (hothers : Exchanged (escapes escaped c) text written) :
      Exchanged escaped (c :: text) (c :: written)
  | swap {old text written : List Char} (first last : Bool) (hold : ∀ c ∈ old, isIdle c = true)
      (hothers : Exchanged false text written) :
      Exchanged false (old ++ text) (deepText first last ++ written)

namespace Exchanged

variable {escaped : Bool} {text written : List Char}

theorem refl (escaped : Bool) (text : List Char) : Exchanged escaped text text := by
  induction text generalizing escaped with
  | nil => exact nil
  | cons c text ih => exact keep c (ih _)

theorem append (hfirst : Exchanged escaped text written) {text' written' : List Char}
    (hsecond : Exchanged (escapesNext escaped text) text' written') :
    Exchanged escaped (text ++ text') (written ++ written') := by
  induction hfirst with
  | nil => exact hsecond
  | keep c _ ih => exact keep c (ih hsecond)
  | swap first last hold _ ih =>
    rw [escapesNext_append, escapesNext_of_forall fun c hc => ne_backslash_of_isIdle (hold c hc)]
      at hsecond
    rw [List.append_assoc, List.append_assoc]
    exact swap first last hold (ih hsecond)

theorem prepend (front : List Char) (hothers : Exchanged (escapesNext escaped front) text written) :
    Exchanged escaped (front ++ text) (front ++ written) :=
  (refl escaped front).append hothers

/-- What is exchanged is not blank. -/
theorem isAllBlank_of_isAllBlank (hexchanged : Exchanged escaped text written)
    (hblank : isAllBlank written = true) : isAllBlank text = true := by
  have hdeep (first last : Bool) : isAllBlank (deepText first last) = false := by
    cases first <;> cases last <;> decide +kernel
  induction hexchanged with
  | nil => rfl
  | keep c _ ih =>
    rw [isAllBlank, List.all_cons, Bool.and_eq_true] at hblank ⊢
    exact ⟨hblank.1, ih hblank.2⟩
  | swap first last hold _ ih =>
    rw [isAllBlank, List.all_append, ← isAllBlank, hdeep] at hblank
    cases hblank

/-- Characters other than a space and a colon at the front of a text were there before. -/
theorem startsWith_of_startsWith (hexchanged : Exchanged escaped text written) {front : List Char}
    (hfront : ∀ c ∈ front, c ≠ ' ' ∧ c ≠ ':') (hstart : front <+: written) : front <+: text := by
  induction hexchanged generalizing front with
  | nil => exact hstart
  | @keep escaped text written c _ ih =>
    cases front with
    | nil => exact List.nil_prefix
    | cons first front =>
      rw [List.cons_prefix_cons] at hstart ⊢
      exact ⟨hstart.1, ih (List.forall_mem_cons.mp hfront).2 hstart.2⟩
  | @swap old text written first last hold _ _ =>
    cases front with
    | nil => exact List.nil_prefix
    | cons c front =>
      obtain ⟨rest, hrest⟩ := hstart
      have hhead := head?_deepText first last
      obtain ⟨others, hothers⟩ := List.head?_eq_some_iff.mp hhead
      rw [hothers] at hrest
      obtain ⟨rfl, -⟩ := List.cons.inj hrest
      have hc := hfront _ List.mem_cons_self
      cases first
      · exact absurd rfl hc.1
      · exact absurd rfl hc.2

end Exchanged

/-! ### Scans that go through both texts -/

/-- A scan goes through a text with a state. It stays where it is on idle characters, and knows whether a
character is escaped. -/
structure IsScan {State : Type} (advance : State → Char → Option State) (escaped : State → Bool)
    (usual : State → Prop) : Prop where
  idle : ∀ state c, usual state → escaped state = false → isIdle c = true →
    advance state c = some state
  step : ∀ state c next, usual state → advance state c = some next →
    usual next ∧ escaped next = escapes (escaped state) c

section Scan

variable {State : Type} {advance : State → Char → Option State} {escaped : State → Bool}
  {usual : State → Prop} (hscan : IsScan advance escaped usual)
include hscan

theorem IsScan.foldlM_idle {state : State} (husual : usual state) (hescaped : escaped state = false)
    {front : List Char} (hfront : ∀ c ∈ front, isIdle c = true) (text : List Char) :
    (front ++ text).foldlM advance state = text.foldlM advance state := by
  induction front with
  | nil => rfl
  | cons c front ih =>
    rw [List.forall_mem_cons] at hfront
    rw [List.cons_append, List.foldlM_cons, hscan.idle state c husual hescaped hfront.1]
    exact ih hfront.2

/-- A scan goes through exchanged texts alike. -/
theorem Exchanged.foldlM_eq (state : State) (husual : usual state) {written : List Char}
    (hexchanged : Exchanged (escaped state) text written) :
    text.foldlM advance state = written.foldlM advance state := by
  generalize hescaped : escaped state = start at hexchanged
  induction hexchanged generalizing state with
  | nil => rfl
  | keep c _ ih =>
    rw [List.foldlM_cons, List.foldlM_cons]
    cases hadvance : advance state c with
    | none => rfl
    | some next =>
      obtain ⟨husual', hescaped'⟩ := hscan.step state c next husual hadvance
      exact ih next husual' (by rw [hescaped', hescaped])
  | swap first last hold _ ih =>
    rw [hscan.foldlM_idle husual hescaped hold,
      hscan.foldlM_idle husual hescaped (isIdle_of_mem_deepText first last)]
    exact ih state husual hescaped

end Scan

/-! ### Scans for brackets and for commas -/

/-- A quoted string is ended by a character that is not idle. -/
def Quoting.IsUsual : Quoting → Prop
  | bare | escape => True
  | inside mark | insideEscape mark => isIdle mark = false

def Brackets.IsUsual (brackets : Brackets) : Prop :=
  isIdle brackets.opening = false ∧ isIdle brackets.closing = false

def Nesting.IsUsual : Nesting → Prop
  | top => True
  | within brackets _ => brackets.IsUsual

theorem ne_of_isIdle {other : Char} (hc : isIdle c = true) (hother : isIdle other = false) :
    c ≠ other := by
  rintro rfl
  rw [hc] at hother
  cases hother

theorem Quoting.step_of_isIdle (husual : quoting.IsUsual)
    (hescaped : quoting.isEscape = false) (hc : isIdle c = true) :
    quoting.step c = quoting := by
  have hbackslash := ne_of_isIdle hc (show isIdle '\\' = false by decide)
  cases quoting with
  | bare =>
    have hdouble := ne_of_isIdle hc (show isIdle '"' = false by decide)
    have hsingle := ne_of_isIdle hc (show isIdle '\'' = false by decide)
    simp [Quoting.step, hbackslash, hdouble, hsingle]
  | inside mark => simp [Quoting.step, hbackslash, ne_of_isIdle hc husual]
  | escape | insideEscape => cases hescaped

theorem Quoting.IsUsual.step (husual : quoting.IsUsual) (c : Char) :
    (quoting.step c).IsUsual := by
  cases quoting with
  | bare =>
    simp only [Quoting.step]
    split
    · trivial
    split
    · rename_i hquote
      rcases hquote with rfl | rfl <;> rfl
    · trivial
  | inside mark =>
    simp only [Quoting.step]
    split
    · exact husual
    split
    · trivial
    · exact husual
  | escape => trivial
  | insideEscape mark => exact husual

theorem Brackets.closesAt_of_isIdle (husual : brackets.IsUsual)
    (hc : isIdle c = true) (depth : Nat) (quoting : Quoting) :
    brackets.closesAt depth quoting c = false := by
  simp [closesAt, ne_of_isIdle hc husual.2]

theorem Brackets.depthAfter_of_isIdle (husual : brackets.IsUsual)
    (hc : isIdle c = true) (depth : Nat) (quoting : Quoting) :
    brackets.depthAfter depth quoting c = depth := by
  simp [depthAfter, ne_of_isIdle hc husual.1, ne_of_isIdle hc husual.2]

/-- The brackets that are open and the quoting after one more character, unless it closes the span. -/
def Brackets.advance (brackets : Brackets) (state : Nat × Quoting) (c : Char) :
    Option (Nat × Quoting) :=
  if brackets.closesAt state.1 state.2 c then none
  else some (brackets.depthAfter state.1 state.2 c, state.2.step c)

theorem Brackets.isScan (husual : brackets.IsUsual) :
    IsScan brackets.advance (fun state => state.2.isEscape) (fun state => state.2.IsUsual) where
  idle state c hquoting hescaped hc := by
    rw [advance, closesAt_of_isIdle husual hc, depthAfter_of_isIdle husual hc,
      Quoting.step_of_isIdle hquoting hescaped hc]
    rfl
  step state c next hquoting hadvance := by
    rw [advance] at hadvance
    split at hadvance
    · cases hadvance
    · cases hadvance
      exact ⟨hquoting.step c, Quoting.isEscape_step state.2 c⟩

/-- The quoting and the nesting after one more character, unless it is a comma between segments. -/
def advanceSegment (state : Quoting × Nesting) (c : Char) : Option (Quoting × Nesting) :=
  if state.1 = .bare ∧ state.2 = .top ∧ c = ',' then none
  else some (state.1.step c, state.2.step state.1 c)

theorem Nesting.step_of_isIdle {nesting : Nesting} (husual : nesting.IsUsual)
    (hc : isIdle c = true) (quoting : Quoting) : nesting.step quoting c = nesting := by
  cases nesting with
  | top =>
    simp [Nesting.step, ne_of_isIdle hc (show isIdle '(' = false by decide),
      ne_of_isIdle hc (show isIdle '[' = false by decide),
      ne_of_isIdle hc (show isIdle '{' = false by decide)]
  | within brackets depth =>
    rw [Nesting.step, Brackets.closesAt_of_isIdle husual hc, Brackets.depthAfter_of_isIdle husual hc]
    rfl

theorem Nesting.IsUsual.step {nesting : Nesting} (husual : nesting.IsUsual) (quoting : Quoting)
    (c : Char) : (nesting.step quoting c).IsUsual := by
  cases nesting with
  | top =>
    simp only [Nesting.step]
    repeat' split
    all_goals trivial
  | within brackets depth =>
    simp only [Nesting.step]
    split
    · trivial
    · exact husual

theorem isScan_advanceSegment :
    IsScan advanceSegment (fun state => state.1.isEscape)
      (fun state => state.1.IsUsual ∧ state.2.IsUsual) where
  idle state c husual hescaped hc := by
    rw [advanceSegment, if_neg fun hcomma => ne_of_isIdle hc (by decide) hcomma.2.2,
      Quoting.step_of_isIdle husual.1 hescaped hc, Nesting.step_of_isIdle husual.2 hc]
  step state c next husual hadvance := by
    rw [advanceSegment] at hadvance
    split at hadvance
    · cases hadvance
    · cases hadvance
      exact ⟨⟨husual.1.step c, husual.2.step state.1 c⟩, Quoting.isEscape_step state.1 c⟩

/-! ### Arguments -/

/-- A text that does not close the span is part of it. -/
theorem Brackets.scan_append_of_foldlM
    {start state : Nat × Quoting} (hthrough : text.foldlM brackets.advance start = some state)
    (rest : List Char) :
    brackets.scan start.1 start.2 (text ++ rest) =
      (text ++ (brackets.scan state.1 state.2 rest).1, (brackets.scan state.1 state.2 rest).2) := by
  induction text generalizing start with
  | nil =>
    cases hthrough
    rfl
  | cons c text ih =>
    rw [List.foldlM_cons] at hthrough
    rw [List.cons_append, scan]
    by_cases hcloses : brackets.closesAt start.1 start.2 c
    · simp [advance, hcloses] at hthrough
    · rw [advance, if_neg hcloses] at hthrough
      rw [if_neg hcloses, ih hthrough]
      rfl

/-- A span runs to the end of the text or ends with the bracket that closes it. -/
theorem Brackets.scan_cases {depth : Nat}
    {span rest : List Char} (hscan : brackets.scan depth quoting text = (span, rest)) :
    (rest = [] ∧ ∃ state, span.foldlM brackets.advance (depth, quoting) = some state) ∨
      ∃ front c state, span = front ++ [c] ∧
        front.foldlM brackets.advance (depth, quoting) = some state ∧
        brackets.closesAt state.1 state.2 c = true := by
  fun_induction Brackets.scan brackets depth quoting text generalizing span with
  | case1 depth quoting =>
    cases hscan
    exact .inl ⟨rfl, _, rfl⟩
  | case2 depth quoting c text hcloses =>
    cases hscan
    exact .inr ⟨[], c, _, rfl, rfl, hcloses⟩
  | case3 depth quoting c text hopen span' rest' hscan' ih =>
    cases hscan
    have hadvance : brackets.advance (depth, quoting) c =
        some (brackets.depthAfter depth quoting c, quoting.step c) := if_neg hopen
    rcases ih hscan' with ⟨hrest, state, hthrough⟩ | ⟨front, last, state, rfl, hthrough, hcloses⟩
    · refine .inl ⟨hrest, state, ?_⟩
      rw [List.foldlM_cons, hadvance]
      exact hthrough
    · refine .inr ⟨c :: front, last, state, rfl, ?_, hcloses⟩
      rw [List.foldlM_cons, hadvance]
      exact hthrough

/-- The span of an argument in which something was exchanged ends with it. -/
theorem Exchanged.span_eq {argument written rest other : List Char}
    (hexchanged : Exchanged false argument written)
    (hspan : Brackets.round.span text = ('(' :: (argument ++ [')']), rest))
    (hother : rest = [] → other = []) :
    Brackets.round.span ('(' :: (written ++ [')']) ++ other) = ('(' :: (written ++ [')']), other) := by
  have hscan : IsScan Brackets.round.advance _ _ := Brackets.isScan ⟨rfl, rfl⟩
  have hgroup (back : List Char) : Exchanged (Quoting.isEscape .bare) ('(' :: (argument ++ back))
      ('(' :: (written ++ back)) := keep '(' (hexchanged.append (refl _ back))
  rcases Brackets.scan_cases hspan with
    ⟨hrest, state, hthrough⟩ | ⟨front, c, state, hfront, hthrough, hcloses⟩
  · rw [(hgroup [')']).foldlM_eq hscan (0, .bare) trivial] at hthrough
    have hend : Brackets.round.scan state.1 state.2 [] = ([], []) := rfl
    have hthrough' := Brackets.scan_append_of_foldlM hthrough []
    rw [hend, List.append_nil] at hthrough'
    rw [hother hrest, List.append_nil]
    exact hthrough'
  · rw [← List.cons_append] at hfront
    obtain ⟨rfl, hc⟩ := List.append_inj' hfront rfl
    cases hc
    rw [← List.append_nil argument, (hgroup []).foldlM_eq hscan (0, .bare) trivial,
      List.append_nil] at hthrough
    have hthrough' := Brackets.scan_append_of_foldlM hthrough (')' :: other)
    rw [@Brackets.scan.eq_2 _ state.1 state.2, if_pos hcloses] at hthrough'
    rw [Brackets.span]
    simpa using hthrough'

/-! ### Segments -/

/-- Texts that commas part, of which each ends outside brackets and quotes and the last one anywhere. -/
def ArePart : List (List Char) → Prop
  | [] => False
  | [segment] => ∃ state, segment.foldlM advanceSegment (.bare, .top) = some state
  | segment :: next :: segments =>
    segment.foldlM advanceSegment (.bare, .top) = some (.bare, .top) ∧ ArePart (next :: segments)

theorem scanSegments_append_of_foldlM {start state : Quoting × Nesting}
    (hthrough : text.foldlM advanceSegment start = some state) (rest : List Char) :
    scanSegments start.1 start.2 (text ++ rest) =
      (text ++ (scanSegments state.1 state.2 rest).1, (scanSegments state.1 state.2 rest).2) := by
  induction text generalizing start with
  | nil =>
    cases hthrough
    rfl
  | cons c text ih =>
    rw [List.foldlM_cons] at hthrough
    rw [List.cons_append, scanSegments]
    by_cases hcomma : start.1 = .bare ∧ start.2 = .top ∧ c = ','
    · simp [advanceSegment, hcomma] at hthrough
    · rw [advanceSegment, if_neg hcomma] at hthrough
      rw [if_neg hcomma, ih hthrough]
      rfl

theorem splitCommas_of_arePart {segments : List (List Char)} (hpart : ArePart segments) :
    splitCommas ([','].intercalate segments) = segments := by
  match segments with
  | [] => exact hpart.elim
  | [segment] =>
    obtain ⟨state, hthrough⟩ := hpart
    have hscan := scanSegments_append_of_foldlM hthrough []
    rw [List.append_nil] at hscan
    rw [List.intercalate_singleton, splitCommas, hscan]
    simp [scanSegments]
  | segment :: next :: segments =>
    have hothers := splitCommas_of_arePart hpart.2
    have hscan := scanSegments_append_of_foldlM hpart.1
      (',' :: [','].intercalate (next :: segments))
    rw [scanSegments, if_pos ⟨rfl, rfl, rfl⟩] at hscan
    rw [splitCommas] at hothers
    rw [List.intercalate_cons_cons, List.append_assoc, List.singleton_append, splitCommas, hscan]
    simp [hothers]

theorem arePart_cons {segment : List Char} {segments : List (List Char)}
    (hpart : (segments = [] ∧ ∃ state, segment.foldlM advanceSegment (.bare, .top) = some state) ∨
      segment.foldlM advanceSegment (.bare, .top) = some (.bare, .top) ∧ ArePart segments) :
    ArePart (segment :: segments) := by
  rcases hpart with ⟨rfl, hthrough⟩ | ⟨hthrough, hsegments⟩
  · exact hthrough
  · cases segments with
    | nil => exact hsegments.elim
    | cons next segments => exact ⟨hthrough, hsegments⟩

theorem arePart_scanSegments {nesting : Nesting} {segment : List Char}
    {segments : List (List Char)} (hscan : scanSegments quoting nesting text = (segment, segments)) :
    (segments = [] ∧ ∃ state, segment.foldlM advanceSegment (quoting, nesting) = some state) ∨
      segment.foldlM advanceSegment (quoting, nesting) = some (.bare, .top) ∧ ArePart segments := by
  fun_induction scanSegments quoting nesting text generalizing segment segments with
  | case1 quoting nesting =>
    cases hscan
    exact .inl ⟨rfl, _, rfl⟩
  | case2 quoting nesting c text hcomma first others hscan' ih =>
    cases hscan
    obtain ⟨rfl, rfl, rfl⟩ := hcomma
    exact .inr ⟨rfl, arePart_cons (ih hscan')⟩
  | case3 quoting nesting c text hcomma first others hscan' ih =>
    cases hscan
    have hadvance : advanceSegment (quoting, nesting) c =
        some (quoting.step c, nesting.step quoting c) := if_neg hcomma
    rw [List.foldlM_cons, hadvance]
    exact ih hscan'

/-- The segments of a text with something exchanged in each are the segments of the text in which it is
exchanged. -/
theorem splitCommas_map {exchange : List Char → List Char}
    (hexchange : ∀ segment ∈ splitCommas text, Exchanged false segment (exchange segment)) :
    splitCommas ([','].intercalate ((splitCommas text).map exchange)) =
      (splitCommas text).map exchange := by
  have hmap (segments : List (List Char)) (hpart : ArePart segments)
      (hsegments : ∀ segment ∈ segments, Exchanged false segment (exchange segment)) :
      ArePart (segments.map exchange) := by
    induction segments with
    | nil => exact hpart
    | cons segment segments ih =>
      rw [List.forall_mem_cons] at hsegments
      have hthrough := hsegments.1.foldlM_eq isScan_advanceSegment (.bare, .top) ⟨trivial, trivial⟩
      cases segments with
      | nil =>
        rw [ArePart, hthrough] at hpart
        exact hpart
      | cons next segments =>
        rw [ArePart, hthrough] at hpart
        exact ⟨hpart.1, ih hpart.2 hsegments.2⟩
  refine splitCommas_of_arePart (hmap _ (arePart_cons ?_) hexchange)
  exact arePart_scanSegments (Prod.eta _).symm

theorem Exchanged.intercalate {exchange : List Char → List Char} {segments : List (List Char)}
    (hsegments : ∀ segment ∈ segments, Exchanged false segment (exchange segment)) :
    Exchanged false ([','].intercalate segments) ([','].intercalate (segments.map exchange)) := by
  induction segments with
  | nil => exact nil
  | cons segment segments ih =>
    rw [List.forall_mem_cons] at hsegments
    cases segments with
    | nil =>
      rw [List.map_singleton, List.intercalate_singleton, List.intercalate_singleton]
      exact hsegments.1
    | cons next segments =>
      rw [List.map_cons, List.map_cons, List.intercalate_cons_cons, List.intercalate_cons_cons,
        List.append_assoc, List.append_assoc]
      refine hsegments.1.append (keep ',' ?_)
      rw [escapes_of_ne (by decide)]
      exact ih hsegments.2

end StyleMigration.Selector
