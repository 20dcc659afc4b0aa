import StyleMigration.Component.Section

/-!
The open elements while markup is read. Which elements a token opens and closes depends only on the tags
of those that are open, not on the nodes read so far (`Builder.map_outline_place?`). The style elements
on the outer level are those that are read with no element open, or only with such as end before them
(`outerStyle?`), and no token changes those that were read before it. So markup is read without a fault
if the open elements can be followed through its tokens (`levels?`), and the style elements are found by
going through them once (`map_filter_readWellformed?_eq_some_iff`).
-/

set_option autoImplicit false

namespace StyleMigration.Markup

open Component Text

/-! ### Tags of open elements -/

/-- The open elements, from the innermost on, that are left after those that end. -/
def dropEnding (ends : Tag → List Tag → Bool) : List Tag → List Tag
  | [] => []
  | innermost :: around =>
    if ends innermost (innermost :: around) then dropEnding ends around else innermost :: around

/-- The open elements that are left before a start tag with the given name. -/
def closedBefore (name : TagName) (opened : List Tag) : List Tag :=
  dropEnding (fun innermost _ =>
    innermost.isVoid || (name.isAttached && !innermost.canContain name.tag)) opened

/-- The open elements of which the innermost is the one that an end tag looks at. -/
def closedFor (name : TagName) (opened : List Tag) : List Tag :=
  dropEnding (fun innermost around =>
    name.isAttached && innermost != name.tag && around.any name.tag.isLike) opened

/-- The open elements that are left at the end of the text. -/
def closedAtEnd (opened : List Tag) : List Tag :=
  dropEnding (fun innermost _ => innermost.endsWithText) opened

/-- What the record of the open elements keeps of a tag that is opened. -/
def recordedTag (tag : Tag) (opened : List Tag) : Tag :=
  (Tag.record (tag :: opened)).headD .lost

/-- The open elements after a token, if it fits. -/
def openedAfter? (opened : List Tag) : Token → Option (List Tag)
  | .space | .text | .entity | .comment | .doctype _ => some opened
  | .startTag written =>
    let closed := closedBefore written.name opened
    if written.selfClosed then some closed else some (recordedTag written.name.tag closed :: closed)
  | .endTag name =>
    match closedFor name opened with
    | innermost :: around => some (if innermost = name.tag then around else innermost :: around)
    | [] => none
  | .raw written =>
    let closed := closedBefore written.name opened
    if recordedTag written.name.tag closed ≠ written.name.tag then none else some closed

/-- The open elements after some tokens, if they fit. -/
def levels? (opened : List Tag) (tokens : List (Token × List Char)) : Option (List Tag) :=
  tokens.foldlM (fun opened token => openedAfter? opened token.1) opened

theorem levels?_cons_of_some {opened next : List Tag} {token : Token} (piece : List Char)
    (tokens : List (Token × List Char)) (hnext : openedAfter? opened token = some next) :
    levels? opened ((token, piece) :: tokens) = levels? next tokens := by
  rw [levels?, List.foldlM_cons, hnext]
  rfl

/-- The style element on the outer level that a token is. -/
def outerStyle? (opened : List Tag) : Token → Option WrittenRaw
  | .raw written =>
    if closedBefore written.name opened = [] ∧ written.name.tag = .style then some written else none
  | _ => none

/-- The style elements on the outer level among some tokens, of which the first starts at a byte. -/
def stylesFrom (opened : List Tag) (offset : Nat) : List (Token × List Char) → List Node
  | [] => []
  | (token, text) :: tokens =>
    ((outerStyle? opened token).map fun written => .raw (Builder.rawElement offset written)).toList ++
      stylesFrom ((openedAfter? opened token).getD opened) (offset + byteLength text) tokens

namespace Builder

/-- The tags of the open elements, from the innermost on. -/
def tags (builder : Builder) : List Tag :=
  builder.opened.map (·.tag)

/-- The nodes on the outer level in reverse, where `nodes` are those of the open level. -/
def outerNodes (nodes : List Node) : List OpenElement → List Node
  | [] => nodes
  | element :: around => outerNodes element.before around

/-- The style elements on the outer level that were read, in reverse. -/
def styles (builder : Builder) : List Node :=
  (outerNodes builder.nodes builder.opened).filter (isRaw .style)

/-- What of a tree under construction decides on its style elements. -/
def outline (builder : Builder) : List Tag × List Node :=
  (builder.tags, builder.styles)

/-! ### Closing elements -/

theorem filter_outerNodes_close (nodes : List Node) (element : OpenElement)
    (around : List OpenElement) :
    (outerNodes (.element nodes.reverse :: element.before) around).filter (isRaw .style) =
      (outerNodes nodes (element :: around)).filter (isRaw .style) := by
  cases around with
  | nil => rfl
  | cons next around => rfl

theorem outline_close {builder : Builder} {element : OpenElement} {around : List OpenElement}
    (hopened : builder.opened = element :: around) :
    builder.close.outline = (around.map (·.tag), builder.styles) := by
  simp only [outline, close, hopened, tags, styles, Prod.mk.injEq, true_and]
  exact filter_outerNodes_close builder.nodes element around

theorem outline_closeWhile (builder : Builder) {ends : Tag → List OpenElement → Bool}
    (endsTag : Tag → List Tag → Bool)
    (hends : ∀ tag opened, ends tag opened = endsTag tag (opened.map (·.tag))) :
    (builder.closeWhile ends).outline = (dropEnding endsTag builder.tags, builder.styles) := by
  have hgo (nodes : List Node) (opened : List OpenElement) :
      (closeWhile.go builder ends nodes opened).outline =
        (dropEnding endsTag (opened.map (·.tag)),
          (outerNodes nodes opened).filter (isRaw .style)) := by
    induction opened generalizing nodes with
    | nil => rfl
    | cons element around ih =>
      rw [closeWhile.go, List.map_cons, dropEnding, ← List.map_cons, ← hends]
      split
      · rw [← filter_outerNodes_close]
        exact ih _
      · rfl
  exact hgo builder.nodes builder.opened

theorem outline_closeBefore (builder : Builder) (name : TagName) :
    (builder.closeBefore name).outline = (closedBefore name builder.tags, builder.styles) :=
  builder.outline_closeWhile _ fun _ _ => rfl

/-! ### Placing a token -/

theorem styles_add (builder : Builder) (node : Node) :
    (builder.add node).styles =
      if builder.tags = [] ∧ isRaw .style node = true then node :: builder.styles
      else builder.styles := by
  cases hopened : builder.opened with
  | nil =>
    simp only [styles, add, tags, hopened, outerNodes, List.map_nil, true_and, List.filter_cons]
  | cons element around => simp [styles, add, tags, hopened, outerNodes]

theorem outline_add {builder : Builder} {node : Node} (hnode : isRaw .style node = false) :
    (builder.add node).outline = builder.outline := by
  simp only [outline, styles_add, hnode, Bool.false_eq_true, and_false, if_false]
  rfl

theorem map_outline_endTag? (builder : Builder) (name : TagName) :
    (builder.endTag? name).map outline =
      (openedAfter? builder.tags (.endTag name)).map (·, builder.styles) := by
  simp only [endTag?, openedAfter?]
  generalize hclosed : builder.closeWhile _ = closed
  have houtline : closed.outline = (closedFor name builder.tags, builder.styles) := by
    rw [← hclosed]
    exact builder.outline_closeWhile _ fun tag opened => by rw [List.any_map]; rfl
  obtain ⟨htags, hstyles⟩ := Prod.mk.inj houtline
  rw [← htags, ← hstyles]
  cases hopened : closed.opened with
  | nil => simp only [tags, hopened, List.map_nil, Option.map_none]
  | cons element around =>
    simp only [tags, hopened, List.map_cons, Option.map_some]
    split
    · rw [outline_close hopened]
    · rw [outline_add rfl, outline, tags, hopened, List.map_cons]

/-- Which elements are open after a token depends on the tags of those that are open before it. Of the
style elements on the outer level a token can only add itself. -/
theorem map_outline_place? (builder : Builder) (token : Token) :
    (builder.place? token).map outline =
      (openedAfter? builder.tags token).map fun opened =>
        (opened, ((outerStyle? builder.tags token).map fun written =>
          .raw (rawElement builder.offset written)).toList ++ builder.styles) := by
  cases token with
  | space => rfl
  | text => exact congrArg some (outline_add rfl)
  | entity => exact congrArg some (outline_add rfl)
  | comment => exact congrArg some (outline_add rfl)
  | doctype content => exact congrArg some (outline_add rfl)
  | startTag written =>
    obtain ⟨htags, hstyles⟩ := Prod.mk.inj (builder.outline_closeBefore written.name)
    simp only [place?, openedAfter?, outerStyle?, ← htags, ← hstyles]
    split
    · exact congrArg some (outline_add rfl)
    · rfl
  | endTag name => exact map_outline_endTag? builder name
  | raw written =>
    obtain ⟨htags, hstyles⟩ := Prod.mk.inj (builder.outline_closeBefore written.name)
    simp only [place?, openedAfter?, outerStyle?, ← htags, ← hstyles]
    change Option.map outline (if recordedTag _ (builder.closeBefore written.name).tags ≠ _ then _
      else _) = _
    split
    · rfl
    · have hraw := @decide_eq_true_iff (written.name.tag = .style) _
      -- The new node stands on the outer level only if no element is left open before it.
      refine congrArg some (Prod.ext rfl ?_)
      refine (styles_add _ _).trans ?_
      by_cases houter : (builder.closeBefore written.name).tags = [] ∧ written.name.tag = .style
      · rw [if_pos houter, if_pos ⟨houter.1, hraw.mpr houter.2⟩]
        rfl
      · rw [if_neg houter, if_neg fun hboth => houter ⟨hboth.1, hraw.mp hboth.2⟩]
        rfl

theorem map_outline_step? (builder : Builder) (token : Token × List Char) :
    (builder.step? token).map outline = (builder.place? token.1).map outline := by
  rw [step?, Option.map_map]
  rfl

theorem offset_step? {builder next : Builder} {token : Token × List Char}
    (hstep : builder.step? token = some next) :
    next.offset = builder.offset + byteLength token.2 := by
  obtain ⟨placed, -, rfl⟩ := Option.map_eq_some_iff.mp hstep
  rfl

/-- The open elements and the style elements on the outer level after a run of tokens. -/
theorem map_outline_foldlM (tokens : List (Token × List Char)) (builder : Builder) :
    (tokens.foldlM step? builder).map outline =
      (levels? builder.tags tokens).map
        (·, (stylesFrom builder.tags builder.offset tokens).reverse ++ builder.styles) := by
  induction tokens generalizing builder with
  | nil => rfl
  | cons token tokens ih =>
    have hstep := (builder.map_outline_step? token).trans (builder.map_outline_place? token.1)
    rw [List.foldlM_cons, levels?, List.foldlM_cons, stylesFrom]
    cases hnext : builder.step? token with
    | none =>
      rw [hnext] at hstep
      rw [Option.map_eq_none_iff.mp hstep.symm]
      rfl
    | some next =>
      rw [hnext, Option.map_some] at hstep
      obtain ⟨opened, hopened, houtline⟩ := Option.map_eq_some_iff.mp hstep.symm
      obtain ⟨rfl, hstyles⟩ := Prod.mk.inj houtline
      rw [hopened, Option.getD_some, List.reverse_append, List.append_assoc]
      refine (ih next).trans ?_
      rw [← hstyles, offset_step? hnext]
      cases outerStyle? builder.tags token.1 <;> rfl

theorem map_filter_finish? (builder : Builder) :
    builder.finish?.map (·.filter (isRaw .style)) =
      if closedAtEnd builder.tags = [] then some builder.styles.reverse else none := by
  simp only [finish?]
  generalize hclosed : builder.closeWhile _ = closed
  have houtline : closed.outline = (closedAtEnd builder.tags, builder.styles) := by
    rw [← hclosed]
    exact builder.outline_closeWhile _ fun _ _ => rfl
  obtain ⟨htags, hstyles⟩ := Prod.mk.inj houtline
  rw [← htags, ← hstyles]
  cases hopened : closed.opened with
  | nil => simp [tags, styles, hopened, outerNodes, List.filter_reverse]
  | cons element around => simp [tags, hopened]

end Builder

/-- Whether all elements end that the tokens of a text open. -/
def areClosed (tokens : List (Token × List Char)) : Prop :=
  ∃ opened, levels? [] tokens = some opened ∧ closedAtEnd opened = []

theorem map_filter_bind_finish?_eq_some_iff {tokens : List (Token × List Char)} {styles : List Node} :
    ((tokens.foldlM Builder.step? ⟨[], [], 0⟩).bind Builder.finish?).map (·.filter (isRaw .style)) =
        some styles ↔
      areClosed tokens ∧ stylesFrom [] 0 tokens = styles := by
  have hrun : (tokens.foldlM Builder.step? ⟨[], [], 0⟩).map Builder.outline =
      (levels? [] tokens).map (·, (stylesFrom [] 0 tokens).reverse ++ []) :=
    Builder.map_outline_foldlM tokens ⟨[], [], 0⟩
  cases hfold : tokens.foldlM Builder.step? ⟨[], [], 0⟩ with
  | none =>
    rw [hfold] at hrun
    simp [areClosed, Option.map_eq_none_iff.mp hrun.symm]
  | some builder =>
    rw [hfold, Option.map_some] at hrun
    obtain ⟨opened, hlevels, houtline⟩ := Option.map_eq_some_iff.mp hrun.symm
    obtain ⟨rfl, hstyles⟩ := Prod.mk.inj houtline
    simp [areClosed, hlevels, Builder.map_filter_finish?, ← hstyles]

/-- Markup has no fault if it can be cut into tokens, all elements in it end and no null stands in it.
Its style elements on the outer level are those that are met with no element open. -/
theorem map_filter_readWellformed?_eq_some_iff {source : List Char} {styles : List Node} :
    (readWellformed? source).map (·.filter (isRaw .style)) = some styles ↔
      '\x00' ∉ source ∧ ∃ tokens, tokens? source = some tokens ∧ areClosed tokens ∧
        stylesFrom [] 0 tokens = styles := by
  unfold readWellformed?
  by_cases hnull : '\x00' ∈ source
  · simp [hnull]
  · have hcontains : source.contains '\x00' = false := by simpa using hnull
    simp only [hcontains, Bool.false_eq_true, if_false, Option.bind_eq_bind, Option.map_bind]
    rw [Option.bind_eq_some_iff]
    refine Iff.trans (exists_congr fun tokens => and_congr_right fun _ => ?_)
      (and_iff_right hnull).symm
    exact map_filter_bind_finish?_eq_some_iff

end StyleMigration.Markup
