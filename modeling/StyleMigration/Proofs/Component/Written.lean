import StyleMigration.Proofs.Component.Refill
import StyleMigration.Proofs.Markup.Written

/-!
Components as they are written: text, comments, style elements, and other elements that have all of these
inside them (`Item`). What is read from a place on, with some elements open, is followed through the
items one by one (`ReadsAs`). Text and comments change nothing, and neither does an element with all that
is in it, since it opens and closes itself and the style elements inside it are not on the outer level
(`readsAs_nested`). So the sections are the style elements that are items of the component itself
(`sections_written`), as long as no more elements are open at once than the record of them has room for.
The name of one more is lost and its end tag taken for the one of the element around it. Then a style
element is read on the outer level that stands inside an element, and in the end an end tag is left over
(`sections_styleInDiv`).
-/

set_option autoImplicit false

namespace StyleMigration.Component

open Markup Text

/-! ### Written components -/

/-- The elements that have other items inside them. -/
inductive Container where
  | template
  | div
  deriving DecidableEq, Repr

namespace Container

def name : Container → List Char
  | template => "template".toList
  | div => "div".toList

def tag : Container → Tag
  | template => ⟨"template"⟩
  | div => ⟨"div"⟩

theorem ofChars_name (container : Container) : Tag.ofChars container.name = container.tag := by
  cases container <;> decide

theorem isTagChar_of_mem_name (container : Container) :
    container.name ≠ [] ∧ ∀ c ∈ container.name, isTagChar c = true := by
  cases container <;> decide

/-- An element that holds other items goes on when any element starts inside it. -/
theorem closedBefore_map_tag (name : TagName) (around : List Container) :
    closedBefore name (around.map tag) = around.map tag := by
  cases around with
  | nil => rfl
  | cons container around =>
    have hgoesOn : container.tag.isVoid = false ∧ container.tag.canContain name.tag = true := by
      cases container <;> exact ⟨by decide, rfl⟩
    rw [List.map_cons, closedBefore, dropEnding, hgoesOn.1, hgoesOn.2]
    simp

end Container

/-- A style element: the inside of its start tag, in which no name stands twice, and its content. -/
structure WrittenStyle where
  tag : WrittenTag
  content : { content : List Char // '<' ∉ content }
  distinct : (tag.attributes.map (·.name.val)).Nodup

namespace WrittenStyle

def text (style : WrittenStyle) : List Char :=
  style.tag.styleOpening ++ (style.content.val ++ "</style>".toList)

/-- The section that a style element makes which starts at the byte `offset`. -/
def toSection (style : WrittenStyle) (offset index : Nat) : Section :=
  let start := offset + byteLength style.tag.styleOpening
  { content := style.content.val
    attributes := style.tag.attributes.map (·.toAttribute)
    start
    stop := start + byteLength style.content.val
    index }

end WrittenStyle

/-- A part of a component. Space is text as well. -/
inductive Item where
  | text (run : { run : List Char // ∀ c ∈ run, isTextChar c = true })
  | comment (body : { body : List Char // ¬ ['-', '-', '>'] <:+: body })
  | style (element : WrittenStyle)
  | container (element : Container) (tag : WrittenTag) (items : List Item)

def Container.opening (container : Container) (tag : WrittenTag) : List Char :=
  '<' :: (container.name ++ (tag.text ++ ['>']))

def Container.ending (container : Container) : List Char :=
  '<' :: '/' :: (container.name ++ ['>'])

mutual

def Item.written : Item → List Char
  | .text run => run.val
  | .comment body => "<!--".toList ++ (body.val ++ "-->".toList)
  | .style element => element.text
  | .container element tag items => element.opening tag ++ (writtenAll items ++ element.ending)

/-- The text of a component. -/
def writtenAll : List Item → List Char
  | [] => []
  | item :: items => item.written ++ writtenAll items

end

mutual

def Item.depth : Item → Nat
  | .text _ | .comment _ => 0
  | .style _ => 1
  | .container _ _ items => depthOf items + 1

/-- How many elements are open at once in a component, where a style element counts as well. -/
def depthOf : List Item → Nat
  | [] => 0
  | item :: items => max item.depth (depthOf items)

end

mutual

def Item.quotedFrom (rest : List Char) : Item → List (List Char)
  | .text _ | .comment _ => []
  | .style element =>
    element.tag.quotedFrom ('>' :: (element.content.val ++ ("</style>".toList ++ rest)))
  | .container element tag items =>
    tag.quotedFrom ('>' :: (writtenAll items ++ (element.ending ++ rest))) ++
      quotedFromAll (element.ending ++ rest) items

/-- The texts from each quoted value in a component on, if `rest` follows. -/
def quotedFromAll (rest : List Char) : List Item → List (List Char)
  | [] => []
  | item :: items => item.quotedFrom (writtenAll items ++ rest) ++ quotedFromAll rest items

end

/-- The sections of a component of which the first item starts at the byte `offset`, counted from `index`
on: the style elements with content that are items of the component itself. -/
def sectionsWritten (offset index : Nat) : List Item → List Section
  | [] => []
  | .style element :: items =>
    let next := offset + byteLength element.text
    if element.content.val = [] then sectionsWritten next index items
    else element.toSection offset index :: sectionsWritten next (index + 1) items
  | item :: items => sectionsWritten (offset + byteLength item.written) index items

/-! ### The record of the open elements -/

theorem recordIn_eq_self {tags : List Tag} {free : Nat}
    (htags : ∀ tag ∈ tags, tag.shortened = tag ∧ tag.room = 1) (hfree : tags.length ≤ free) :
    Tag.recordIn free tags = tags := by
  induction tags generalizing free with
  | nil => rfl
  | cons tag tags ih =>
    rw [List.forall_mem_cons] at htags
    rw [List.length_cons] at hfree
    simp only [Tag.recordIn, htags.1.1, htags.1.2]
    rw [if_pos (by omega), ih htags.2 (by omega)]

/-- No name is kept of an element for which there is no room left. -/
theorem recordIn_concat {tags : List Tag} (htags : ∀ tag ∈ tags, tag.shortened = tag ∧ tag.room = 1)
    (inner : Tag) : Tag.recordIn tags.length (tags ++ [inner]) = tags ++ [.lost] := by
  induction tags with
  | nil =>
    have hroom : ¬ inner.shortened.room ≤ 0 := by
      rw [Tag.room]
      split <;> omega
    simp [Tag.recordIn, hroom]
  | cons tag tags ih =>
    rw [List.forall_mem_cons] at htags
    simp only [List.cons_append, List.length_cons, Tag.recordIn, htags.1.1, htags.1.2]
    rw [if_pos (by omega), Nat.add_sub_cancel, ih htags.2]

theorem Container.room_tag {around : List Container} :
    ∀ tag ∈ (around.map Container.tag).reverse, tag.shortened = tag ∧ tag.room = 1 := by
  intro tag htag
  obtain ⟨container, -, rfl⟩ := List.mem_map.mp (List.mem_reverse.mp htag)
  cases container <;> decide

/-- An element is known by its name as long as there is room for it in the record. -/
theorem recordedTag_map_tag {inner : Tag} (hinner : inner.shortened = inner ∧ inner.room = 1)
    {around : List Container} (hroom : around.length < Tag.maxRoom) :
    recordedTag inner (around.map Container.tag) = inner := by
  have hall : ∀ tag ∈ ((around.map Container.tag).reverse ++ [inner]),
      tag.shortened = tag ∧ tag.room = 1 := by
    rw [List.forall_mem_append, List.forall_mem_singleton]
    exact ⟨Container.room_tag, hinner⟩
  rw [recordedTag, Tag.record, List.reverse_cons, recordIn_eq_self hall]
  · simp
  · rw [List.length_append, List.length_reverse, List.length_map, List.length_singleton]
    omega

theorem recordedTag_eq_lost {around : List Container} (hfull : around.length = Tag.maxRoom)
    (inner : Tag) : recordedTag inner (around.map Container.tag) = .lost := by
  have hrecord := recordIn_concat (@Container.room_tag around) inner
  rw [List.length_reverse, List.length_map, hfull] at hrecord
  rw [recordedTag, Tag.record, List.reverse_cons, hrecord]
  simp

/-! ### Reading on -/

/-- With the elements `opened` open, a text that starts at the byte `offset` can be read to its end, and
its sections, counted from `index` on, are `found`. -/
def ReadsAs (opened : List Tag) (offset index : Nat) (text : List Char) (found : List Section) :
    Prop :=
  ∃ tokens, tokens? text = some tokens ∧
    (∃ last, levels? opened tokens = some last ∧ closedAtEnd last = []) ∧
    sectionsFrom opened offset index tokens = found

section Token

variable {opened next : List Tag} {offset index : Nat} {c : Char} {front rest : List Char}
  {token : Token} {found : List Section}
  (htake : takeToken? c (front ++ rest) = some (token, rest))
  (hnext : openedAfter? opened token = some next)
include htake hnext

/-- One token is read, and what it adds to the sections after it is added. -/
theorem ReadsAs.cons {later : Nat} {all : List Section}
    (hadded : ∀ tokens, sectionsFrom next (offset + byteLength (c :: front)) later tokens = found →
      sectionsFrom opened offset index ((token, c :: front) :: tokens) = all)
    (hrest : ReadsAs next (offset + byteLength (c :: front)) later rest found) :
    ReadsAs opened offset index (c :: (front ++ rest)) all := by
  obtain ⟨tokens, htokens, hclosed, hfound⟩ := hrest
  refine ⟨(token, c :: front) :: tokens, ?_, ?_, hadded tokens hfound⟩
  · rw [tokens?_cons htake, htokens, Option.map_some]
  · rwa [levels?_cons_of_some _ _ hnext]

theorem ReadsAs.of_token (hnone : filledStyle? opened token = none)
    (hrest : ReadsAs next (offset + byteLength (c :: front)) index rest found) :
    ReadsAs opened offset index (c :: (front ++ rest)) found := by
  refine ReadsAs.cons htake hnext (fun tokens hfound => ?_) hrest
  simp only [sectionsFrom, hnone, hnext, Option.getD_some, hfound]

theorem ReadsAs.of_filledStyle {written : WrittenRaw}
    (hfilled : filledStyle? opened token = some written)
    (hrest : ReadsAs next (offset + byteLength (c :: front)) (index + 1) rest found) :
    ReadsAs opened offset index (c :: (front ++ rest)) (sectionAt offset index written :: found) := by
  refine ReadsAs.cons htake hnext (fun tokens hfound => ?_) hrest
  simp only [sectionsFrom, hfilled, hnext, Option.getD_some, hfound]

end Token

theorem levels?_append_of_areText {quiet : List (Token × List Char)} (hquiet : AreText quiet)
    (opened : List Tag) (tokens : List (Token × List Char)) :
    levels? opened (quiet ++ tokens) = levels? opened tokens := by
  induction quiet with
  | nil => rfl
  | cons token quiet ih =>
    obtain ⟨hfirst, hothers⟩ := List.forall_mem_cons.mp hquiet
    have hnext : openedAfter? opened token.1 = some opened := by
      rcases hfirst with htoken | htoken <;> rw [htoken] <;> rfl
    rw [List.cons_append, levels?_cons_of_some _ _ hnext, ih hothers]

theorem sectionsFrom_append_of_areText {quiet : List (Token × List Char)} (hquiet : AreText quiet)
    (opened : List Tag) (offset index : Nat) (tokens : List (Token × List Char)) :
    sectionsFrom opened offset index (quiet ++ tokens) =
      sectionsFrom opened (offset + byteLength (textOf quiet)) index tokens := by
  induction quiet generalizing offset with
  | nil => rfl
  | cons token quiet ih =>
    obtain ⟨hfirst, hothers⟩ := List.forall_mem_cons.mp hquiet
    have hnone : filledStyle? opened token.1 = none ∧
        (openedAfter? opened token.1).getD opened = opened := by
      rcases hfirst with htoken | htoken <;> rw [htoken] <;> exact ⟨rfl, rfl⟩
    simp only [List.cons_append, sectionsFrom, hnone, textOf, List.flatMap_cons, byteLength_append]
    rw [ih hothers, Nat.add_assoc]
    rfl

/-- What is read after a run of text does not depend on the run. -/
theorem readsAs_iff_dropWhile {opened : List Tag} {offset index : Nat} {text : List Char}
    {found : List Section} :
    ReadsAs opened offset index text found ↔
      ReadsAs opened (offset + byteLength (text.takeWhile isTextChar)) index
        (text.dropWhile isTextChar) found := by
  obtain ⟨quiet, hquiet, htext, htokens⟩ := exists_tokens?_text text
  rw [← htext]
  constructor
  · rintro ⟨all, hall, hclosed, hfound⟩
    obtain ⟨tokens, hrest, rfl⟩ := Option.map_eq_some_iff.mp (htokens.symm.trans hall)
    rw [levels?_append_of_areText hquiet] at hclosed
    rw [sectionsFrom_append_of_areText hquiet] at hfound
    exact ⟨tokens, hrest, hclosed, hfound⟩
  · rintro ⟨tokens, hrest, hclosed, hfound⟩
    refine ⟨quiet ++ tokens, by rw [htokens, hrest, Option.map_some], ?_, ?_⟩
    · rwa [levels?_append_of_areText hquiet]
    · rwa [sectionsFrom_append_of_areText hquiet]

section Items

variable {around : List Container} {offset index : Nat} {rest : List Char} {found : List Section}

theorem ReadsAs.text {opened : List Tag} {run : List Char} (hrun : ∀ c ∈ run, isTextChar c = true)
    (hrest : ReadsAs opened (offset + byteLength run) index rest found) :
    ReadsAs opened offset index (run ++ rest) found := by
  rw [readsAs_iff_dropWhile] at hrest ⊢
  rwa [List.takeWhile_append_of_pos hrun, List.dropWhile_append_of_pos hrun, byteLength_append,
    ← Nat.add_assoc]

theorem ReadsAs.comment {opened : List Tag} {body : List Char} (hbody : ¬ ['-', '-', '>'] <:+: body)
    (hrest : ReadsAs opened (offset + byteLength ("<!--".toList ++ (body ++ "-->".toList))) index rest
      found) :
    ReadsAs opened offset index ("<!--".toList ++ (body ++ "-->".toList) ++ rest) found := by
  have htake := takeToken?_comment hbody rest
  rw [← List.append_assoc, ← List.append_assoc, List.append_assoc _ body] at htake
  exact ReadsAs.of_token htake rfl rfl hrest

theorem Container.takeToken?_opening (container : Container) {tag : WrittenTag}
    (hquoted : ∀ text ∈ tag.quotedFrom ('>' :: rest), ¬ BeginsComment text) :
    takeToken? '<' ((container.opening tag).tail ++ rest) =
      some (.startTag ⟨⟨container.tag, true⟩, tag.attributes.map (·.toAttribute), false⟩, rest) := by
  obtain ⟨hne, hname⟩ := container.isTagChar_of_mem_name
  have hraw : ¬ (Tag.ofChars container.name = .style ∨ Tag.ofChars container.name = .script) := by
    cases container <;> decide
  have htake := takeToken?_written hne hname hraw tag hquoted
  rw [container.ofChars_name] at htake
  simpa [Container.opening] using htake

theorem Container.takeToken?_ending (container : Container) (rest : List Char) :
    takeToken? '<' (container.ending.tail ++ rest) =
      some (.endTag ⟨container.tag, true⟩, rest) := by
  obtain ⟨hne, hname⟩ := container.isTagChar_of_mem_name
  have htake := takeToken?_endTag hne hname rest
  rw [container.ofChars_name] at htake
  simpa [Container.ending] using htake

theorem openedAfter?_opening (container : Container) (attributes : List Attribute) :
    openedAfter? (around.map Container.tag) (.startTag ⟨⟨container.tag, true⟩, attributes, false⟩) =
      some (recordedTag container.tag (around.map Container.tag) :: around.map Container.tag) := by
  simp only [openedAfter?, Container.closedBefore_map_tag, Bool.false_eq_true, if_false]

theorem openedAfter?_ending (container : Container) :
    openedAfter? ((container :: around).map Container.tag) (.endTag ⟨container.tag, true⟩) =
      some (around.map Container.tag) := by
  simp [openedAfter?, closedFor, dropEnding]

/-- The start tag of an element opens it. -/
theorem ReadsAs.enter {container : Container} {tag : WrittenTag} (hroom : around.length < Tag.maxRoom)
    (hquoted : ∀ text ∈ tag.quotedFrom ('>' :: rest), ¬ BeginsComment text)
    (hrest : ReadsAs ((container :: around).map Container.tag)
      (offset + byteLength (container.opening tag)) index rest found) :
    ReadsAs (around.map Container.tag) offset index (container.opening tag ++ rest) found := by
  have hrecorded : recordedTag container.tag (around.map Container.tag) = container.tag :=
    recordedTag_map_tag (by cases container <;> decide) hroom
  refine ReadsAs.of_token (container.takeToken?_opening hquoted) (openedAfter?_opening _ _) rfl ?_
  rw [hrecorded]
  exact hrest

/-- The end tag of an element closes it. -/
theorem ReadsAs.leave {container : Container}
    (hrest : ReadsAs (around.map Container.tag) (offset + byteLength container.ending) index rest
      found) :
    ReadsAs ((container :: around).map Container.tag) offset index (container.ending ++ rest)
      found :=
  ReadsAs.of_token (container.takeToken?_ending rest) (openedAfter?_ending container) rfl hrest

/-- An element leaves what is read after it as it is, if the items inside it do. -/
theorem ReadsAs.container {element : Container} {tag : WrittenTag} {items : List Item}
    (hroom : around.length < Tag.maxRoom)
    (hquoted : ∀ text ∈ tag.quotedFrom ('>' :: (writtenAll items ++ (element.ending ++ rest))),
      ¬ BeginsComment text)
    (hinner : ∀ {offset : Nat},
      ReadsAs ((element :: around).map Container.tag) (offset + byteLength (writtenAll items)) index
        (element.ending ++ rest) found →
      ReadsAs ((element :: around).map Container.tag) offset index
        (writtenAll items ++ (element.ending ++ rest)) found)
    (hrest : ReadsAs (around.map Container.tag)
      (offset + byteLength (Item.container element tag items).written) index rest found) :
    ReadsAs (around.map Container.tag) offset index ((Item.container element tag items).written ++ rest)
      found := by
  simp only [Item.written, byteLength_append, ← Nat.add_assoc] at hrest
  rw [Item.written, List.append_assoc, List.append_assoc]
  exact ReadsAs.enter hroom hquoted (hinner hrest.leave)

/-! ### Style elements -/

/-- A style element as its token. -/
def WrittenStyle.raw (style : WrittenStyle) : WrittenRaw :=
  ⟨⟨.style, true⟩, style.tag.attributes.map (·.toAttribute), style.tag.styleOpening,
    style.content.val⟩

/-- A style element has room in the record where another element has. -/
theorem openedAfter?_style (style : WrittenStyle) (hroom : around.length < Tag.maxRoom) :
    openedAfter? (around.map Container.tag) (.raw style.raw) = some (around.map Container.tag) := by
  have hrecorded : recordedTag .style (around.map Container.tag) = .style :=
    recordedTag_map_tag (by decide) hroom
  simp only [openedAfter?, WrittenStyle.raw, Container.closedBefore_map_tag, hrecorded, ne_eq,
    not_true, if_false]

theorem filledStyle?_nested (style : WrittenStyle) (outer : Container) (around : List Container) :
    filledStyle? ((outer :: around).map Container.tag) (.raw style.raw) = none := by
  rw [filledStyle?, outerStyle?, Container.closedBefore_map_tag, if_neg (by simp)]
  rfl

theorem filledStyle?_outer (style : WrittenStyle) :
    filledStyle? [] (.raw style.raw) =
      if style.content.val = [] then none else some style.raw := by
  rw [filledStyle?, outerStyle?, if_pos ⟨rfl, rfl⟩, Option.filter_some]
  simp [WrittenStyle.raw]

/-- Attributes with different names all count. -/
theorem distinct_eq_self {attributes : List Attribute} (hnames : (attributes.map (·.name)).Nodup) :
    distinct attributes = attributes := by
  induction attributes with
  | nil => rfl
  | cons item attributes ih =>
    rw [List.map_cons, List.nodup_cons] at hnames
    simp only [distinct, ih hnames.2]
    rw [if_neg]
    intro hany
    obtain ⟨other, hother, hname⟩ := List.any_eq_true.mp hany
    exact hnames.1 (of_decide_eq_true hname ▸ List.mem_map_of_mem hother)

theorem sectionAt_raw (style : WrittenStyle) (offset index : Nat) :
    sectionAt offset index style.raw = style.toSection offset index := by
  have hnames : ((style.tag.attributes.map (·.toAttribute)).map (·.name)).Nodup := by
    rw [List.map_map, List.Nodup, List.pairwise_map]
    refine (List.pairwise_map.mp style.distinct).imp fun hdiffer hsame => hdiffer ?_
    exact String.ofList_injective hsame
  rw [sectionAt, WrittenStyle.toSection, WrittenStyle.raw, distinct_eq_self hnames]

section Style

variable {style : WrittenStyle}
  (hquoted : ∀ text ∈ style.tag.quotedFrom ('>' :: (style.content.val ++ ("</style>".toList ++ rest))),
    ¬ BeginsComment text)
include hquoted

theorem WrittenStyle.takeToken?_eq :
    takeToken? '<' (style.text.tail ++ rest) = some (.raw style.raw, rest) := by
  have htake := takeToken?_style style.tag style.content.property hquoted
  have htext : style.text.tail = "style".toList ++ (style.tag.text ++ ['>']) ++
      (style.content.val ++ "</style>".toList) := rfl
  rw [htext]
  simp only [List.append_assoc, List.cons_append, List.nil_append]
  exact htake

theorem ReadsAs.style_nested {outer : Container} (hroom : (outer :: around).length < Tag.maxRoom)
    (hrest : ReadsAs ((outer :: around).map Container.tag) (offset + byteLength style.text) index rest
      found) :
    ReadsAs ((outer :: around).map Container.tag) offset index (style.text ++ rest) found :=
  ReadsAs.of_token (WrittenStyle.takeToken?_eq hquoted) (openedAfter?_style style hroom)
    (filledStyle?_nested style outer around) hrest

theorem ReadsAs.style_outer (hcontent : style.content.val ≠ [])
    (hrest : ReadsAs [] (offset + byteLength style.text) (index + 1) rest found) :
    ReadsAs [] offset index (style.text ++ rest) (style.toSection offset index :: found) := by
  rw [← sectionAt_raw]
  have hfilled := filledStyle?_outer style
  rw [if_neg hcontent] at hfilled
  exact ReadsAs.of_filledStyle (WrittenStyle.takeToken?_eq hquoted)
    (@openedAfter?_style [] style (by decide)) hfilled hrest

theorem ReadsAs.style_empty (hcontent : style.content.val = [])
    (hrest : ReadsAs [] (offset + byteLength style.text) index rest found) :
    ReadsAs [] offset index (style.text ++ rest) found := by
  have hnone := filledStyle?_outer style
  rw [if_pos hcontent] at hnone
  exact ReadsAs.of_token (WrittenStyle.takeToken?_eq hquoted)
    (@openedAfter?_style [] style (by decide)) hnone hrest

end Style

end Items

/-! ### Whole components -/

mutual

/-- Inside an element an item leaves what is read after it as it is. -/
theorem Item.readsAs_nested {outer : Container} {around : List Container} {offset index : Nat}
    {rest : List Char} {found : List Section} (item : Item)
    (hroom : (outer :: around).length + item.depth ≤ Tag.maxRoom)
    (hquoted : ∀ text ∈ item.quotedFrom rest, ¬ BeginsComment text)
    (hrest : ReadsAs ((outer :: around).map Container.tag) (offset + byteLength item.written) index rest
      found) :
    ReadsAs ((outer :: around).map Container.tag) offset index (item.written ++ rest) found := by
  cases item with
  | text run => exact hrest.text run.property
  | comment body => exact hrest.comment body.property
  | style element =>
    rw [Item.depth] at hroom
    exact hrest.style_nested hquoted hroom
  | container element tag items =>
    rw [Item.depth] at hroom
    rw [Item.quotedFrom, List.forall_mem_append] at hquoted
    have hinner : (element :: outer :: around).length + depthOf items ≤ Tag.maxRoom := by
      rw [List.length_cons]
      omega
    exact hrest.container (by omega) hquoted.1 (readsAs_nested items hinner hquoted.2)

theorem readsAs_nested {outer : Container} {around : List Container} {offset index : Nat}
    {rest : List Char} {found : List Section} (items : List Item)
    (hroom : (outer :: around).length + depthOf items ≤ Tag.maxRoom)
    (hquoted : ∀ text ∈ quotedFromAll rest items, ¬ BeginsComment text)
    (hrest : ReadsAs ((outer :: around).map Container.tag) (offset + byteLength (writtenAll items)) index
      rest found) :
    ReadsAs ((outer :: around).map Container.tag) offset index (writtenAll items ++ rest) found := by
  cases items with
  | nil => exact hrest
  | cons item items =>
    rw [depthOf] at hroom
    rw [quotedFromAll, List.forall_mem_append] at hquoted
    rw [writtenAll, byteLength_append, ← Nat.add_assoc] at hrest
    rw [writtenAll, List.append_assoc]
    exact item.readsAs_nested (by omega) hquoted.1 (readsAs_nested items (by omega) hquoted.2 hrest)

end

/-- On the outer level the style elements with content are the sections. -/
theorem readsAs_outer {offset index : Nat} (items : List Item) (hroom : depthOf items ≤ Tag.maxRoom)
    (hquoted : ∀ text ∈ quotedFromAll [] items, ¬ BeginsComment text) :
    ReadsAs [] offset index (writtenAll items) (sectionsWritten offset index items) := by
  induction items generalizing offset index with
  | nil => exact ⟨[], by simp [writtenAll, tokens?], ⟨[], rfl, rfl⟩, rfl⟩
  | cons item items ih =>
    rw [depthOf] at hroom
    rw [quotedFromAll, List.forall_mem_append, List.append_nil] at hquoted
    have hrest {offset index : Nat} := @ih offset index (by omega) hquoted.2
    rw [writtenAll]
    cases item with
    | text run => exact hrest.text run.property
    | comment body => exact hrest.comment body.property
    | style element =>
      rw [sectionsWritten]
      split
      · rename_i hcontent
        exact hrest.style_empty hquoted.1 hcontent
      · rename_i hcontent
        exact hrest.style_outer hquoted.1 hcontent
    | container element tag inner =>
      rw [Item.depth] at hroom
      rw [Item.quotedFrom, List.forall_mem_append] at hquoted
      have hinner : [element].length + depthOf inner ≤ Tag.maxRoom := by
        rw [List.length_singleton]
        omega
      exact @ReadsAs.container [] _ _ _ _ _ _ _ (by decide) hquoted.1.1
        (readsAs_nested inner hinner hquoted.1.2) hrest

/-- A component that is written with text, comments, style elements and other elements around such has
the sections that its own style elements with content make. No more elements may be open at once than
the record has room for, no quoted value may begin with a comment, and no null may stand anywhere. -/
theorem sections_written (path : String) (items : List Item) (hroom : depthOf items ≤ Tag.maxRoom)
    (hquoted : ∀ text ∈ quotedFromAll [] items, ¬ BeginsComment text)
    (hnull : '\x00' ∉ writtenAll items) :
    sections path (writtenAll items) = .ok (sectionsWritten 0 0 items) ∧
      ArePlaced (writtenAll items) (sectionsWritten 0 0 items) := by
  obtain ⟨tokens, htokens, hclosed, hfound⟩ := @readsAs_outer 0 0 items hroom hquoted
  rw [← hfound]
  exact ⟨sections_eq_sectionsFrom htokens hclosed hnull path, arePlaced_sectionsFrom htokens⟩

/-- A space before an attribute. -/
def oneSpace : Word isSpace :=
  ⟨[' '], by decide⟩

def noSpace : Spaces :=
  ⟨[], by decide⟩

/-- A component with a style element inside other elements, an empty one, and one with attributes of all
kinds after text of more bytes than characters. -/
def nestedComponent : List Item :=
  [.comment ⟨" - -> ".toList, by decide +kernel⟩,
    .container .template
      ⟨[⟨oneSpace, ⟨['v'], by decide⟩, .quoted noSpace noSpace ⟨"<é>".toList, by decide⟩⟩], noSpace⟩
      [.container .div ⟨[], noSpace⟩ [.text ⟨"é ".toList, by decide⟩,
        .style ⟨⟨[], noSpace⟩, ⟨['p'], by decide⟩, by decide⟩]],
    .text ⟨['\n'], by decide⟩,
    .style ⟨⟨[], noSpace⟩, ⟨[], by decide⟩, by decide⟩,
    .style ⟨⟨[⟨oneSpace, ⟨"lang".toList, by decide⟩, .quoted noSpace noSpace ⟨"scss".toList, by decide⟩⟩,
          ⟨oneSpace, ⟨"scoped".toList, by decide⟩, .bare⟩,
          ⟨oneSpace, ⟨['n'], by decide⟩, .unquoted noSpace noSpace ⟨"1/".toList, by decide⟩⟩], noSpace⟩,
      ⟨"a > é".toList, by decide⟩, by decide⟩]

theorem sections_written_nestedComponent :
    (depthOf nestedComponent ≤ Tag.maxRoom ∧
      (∀ text ∈ quotedFromAll [] nestedComponent, ¬ BeginsComment text) ∧
      '\x00' ∉ writtenAll nestedComponent) ∧
    writtenAll nestedComponent =
      "<!-- - -> --><template v=\"<é>\"><div>é <style>p</style></div></template>\n".toList ++
        "<style></style><style lang=\"scss\" scoped n=1/>a > é</style>".toList ∧
    sections "a.vue" (writtenAll nestedComponent) =
      .ok [⟨"a > é".toList, [⟨"lang", some "scss"⟩, ⟨"scoped", none⟩, ⟨"n", some "1/"⟩],
        120, 126, 0⟩] := by
  have hroom : depthOf nestedComponent ≤ Tag.maxRoom := by decide
  have hquoted : ∀ text ∈ quotedFromAll [] nestedComponent, ¬ BeginsComment text := by decide +kernel
  have hnull : '\x00' ∉ writtenAll nestedComponent := by decide +kernel
  refine ⟨⟨hroom, hquoted, hnull⟩, by decide +kernel, ?_⟩
  rw [(sections_written "a.vue" nestedComponent hroom hquoted hnull).1]
  decide +kernel

/-- A style element with a value that begins with a comment. -/
def commentedValue : List Item :=
  [.style ⟨⟨[⟨oneSpace, ⟨['a'], by decide⟩, .quoted noSpace noSpace ⟨"<!---->b".toList, by decide⟩⟩],
    noSpace⟩, ⟨['x'], by decide⟩, by decide⟩]

/-- A style element with a null in its content. -/
def nullContent : List Item :=
  [.style ⟨⟨[], noSpace⟩, ⟨['a', '\x00'], by decide⟩, by decide⟩]

/-! ### One element too many -/

/-- A property of a text and the elements open before it that passes from behind a token to before it, if
the token makes no section. -/
def IsCarried (holds : List Tag → List Char → Prop) : Prop :=
  ∀ ⦃opened next : List Tag⦄ ⦃c : Char⦄ ⦃front rest : List Char⦄ ⦃token : Token⦄,
    takeToken? c (front ++ rest) = some (token, rest) → openedAfter? opened token = some next →
      filledStyle? opened token = none → holds next rest → holds opened (c :: (front ++ rest))

/-- A text cannot be read to its end. -/
def Unread (opened : List Tag) (text : List Char) : Prop :=
  (tokens? text).bind (levels? opened) = none

theorem isCarried_unread : IsCarried Unread := by
  intro opened next c front rest token htake hnext _ hrest
  rw [Unread, tokens?_cons htake, Option.bind_map]
  refine Eq.trans (congrArg _ (funext fun tokens => ?_)) hrest
  exact levels?_cons_of_some _ tokens hnext

theorem readWellformed?_eq_none {source : List Char} (hunread : Unread [] source) :
    readWellformed? source = none := by
  cases hread : readWellformed? source with
  | none => rfl
  | some nodes =>
    have hstyles := congrArg (Option.map (·.filter (isRaw .style))) hread
    obtain ⟨-, tokens, htokens, ⟨opened, hopened, -⟩, -⟩ :=
      map_filter_readWellformed?_eq_some_iff.mp hstyles
    rw [Unread, htokens, Option.bind_some, hopened] at hunread
    cases hunread

/-- A text has one section, with the given content. -/
def HasSection (content : List Char) (opened : List Tag) (text : List Char) : Prop :=
  ∀ offset, ∃ sec, sec.content = content ∧ ReadsAs opened offset 0 text [sec]

theorem isCarried_hasSection (content : List Char) : IsCarried (HasSection content) := by
  intro opened next c front rest token htake hnext hnone hrest offset
  obtain ⟨sec, hcontent, hreads⟩ := hrest (offset + byteLength (c :: front))
  exact ⟨sec, hcontent, ReadsAs.of_token htake hnext hnone hreads⟩

/-- Elements inside each other. -/
def nestedDivs : Nat → List Item
  | 0 => []
  | count + 1 => [.container .div ⟨[], noSpace⟩ (nestedDivs count)]

theorem writtenAll_nestedDivs_append (count : Nat) (rest : List Char) :
    writtenAll (nestedDivs (count + 1)) ++ rest =
      "<div>".toList ++ (writtenAll (nestedDivs count) ++ ("</div>".toList ++ rest)) := by
  rw [nestedDivs, writtenAll, writtenAll, Item.written, List.append_nil, List.append_assoc,
    List.append_assoc]
  rfl

theorem depthOf_nestedDivs (count : Nat) : depthOf (nestedDivs count) = count := by
  induction count with
  | zero => rfl
  | succ count ih => rw [nestedDivs, depthOf, depthOf, Item.depth, ih, Nat.max_zero]

theorem notMem_nestedDivs (count : Nat) : '\x00' ∉ writtenAll (nestedDivs count) := by
  induction count with
  | zero => simp [nestedDivs, writtenAll]
  | succ count ih =>
    have hwritten := writtenAll_nestedDivs_append count []
    rw [List.append_nil] at hwritten
    rw [hwritten]
    simp [ih]

section Overfull

variable {holds : List Tag → List Char → Prop} (hholds : IsCarried holds) {around : List Container}
  {rest : List Char}

/-- An end tag ends an element without a name together with the one around it. -/
theorem openedAfter?_lost (container : Container) :
    openedAfter? (.lost :: (container :: around).map Container.tag) (.endTag ⟨container.tag, true⟩) =
      some (around.map Container.tag) := by
  have hends : (Tag.lost != container.tag) = true ∧ container.tag.isLike container.tag = true := by
    cases container <;> decide
  rw [← openedAfter?_ending container]
  simp [openedAfter?, closedFor, dropEnding, hends]

include hholds

theorem IsCarried.enter (hrest : holds (recordedTag Container.div.tag (around.map Container.tag) ::
      around.map Container.tag) rest) :
    holds (around.map Container.tag) ("<div>".toList ++ rest) := by
  have htake := @Container.takeToken?_opening rest .div ⟨[], noSpace⟩
    (by simp [WrittenTag.quotedFrom, quotedValuesFrom])
  exact hholds htake (openedAfter?_opening _ _) rfl hrest

theorem IsCarried.leave {opened : List Tag}
    (hnext : openedAfter? opened (.endTag ⟨Container.div.tag, true⟩) = some (around.map Container.tag))
    (hrest : holds (around.map Container.tag) rest) : holds opened ("</div>".toList ++ rest) :=
  hholds (Container.div.takeToken?_ending rest) hnext rfl hrest

/-- Elements inside each other also end the one around them, if the record has room for all but the
innermost. -/
theorem IsCarried.nested (inner : Nat) (hfull : around.length + 1 + inner = Tag.maxRoom)
    (hrest : holds (around.map Container.tag) rest) :
    holds ((.div :: around).map Container.tag) (writtenAll (nestedDivs (inner + 1)) ++ rest) := by
  induction inner generalizing around rest with
  | zero =>
    rw [writtenAll_nestedDivs_append]
    refine hholds.enter ?_
    rw [@recordedTag_eq_lost (.div :: around) hfull]
    exact hholds.leave (openedAfter?_lost .div) hrest
  | succ inner ih =>
    rw [writtenAll_nestedDivs_append]
    refine hholds.enter ?_
    rw [recordedTag_map_tag (by decide) (by rw [List.length_cons]; omega)]
    refine @ih (.div :: around) _ (by rw [List.length_cons]; omega) ?_
    exact hholds.leave (openedAfter?_ending .div) hrest

/-- What follows the innermost elements is read as if it stood on the outer level. -/
theorem IsCarried.overfull {inner : Nat} (hfull : inner + 1 = Tag.maxRoom) (hrest : holds [] rest) :
    holds [] ("<div>".toList ++ (writtenAll (nestedDivs (inner + 1)) ++ rest)) := by
  refine @IsCarried.enter _ hholds [] _ ?_
  rw [recordedTag_map_tag (by decide) (by decide)]
  exact @IsCarried.nested _ hholds [] _ inner (by rw [List.length_nil]; omega) hrest

end Overfull

/-- A style element. -/
def oneStyle : WrittenStyle :=
  ⟨⟨[], noSpace⟩, ⟨['x'], by decide⟩, by decide⟩

theorem hasSection_oneStyle : HasSection ['x'] [] oneStyle.text := by
  intro offset
  refine ⟨oneStyle.toSection offset 0, rfl, ?_⟩
  rw [← List.append_nil oneStyle.text]
  refine ReadsAs.style_outer (by decide +kernel) (by decide) ?_
  exact ⟨[], by simp [tokens?], ⟨[], rfl, rfl⟩, rfl⟩

/-- A style element in an element, after others inside each other. -/
def styleInDiv (count : Nat) : List Item :=
  [.container .div ⟨[], noSpace⟩ (nestedDivs count ++ [.style oneStyle])]

theorem depthOf_styleInDiv (inner : Nat) : depthOf (styleInDiv (inner + 1)) = inner + 2 := by
  simp only [styleInDiv, nestedDivs, List.cons_append, List.nil_append, depthOf, Item.depth,
    depthOf_nestedDivs]
  omega

theorem writtenAll_styleInDiv (inner : Nat) :
    writtenAll (styleInDiv (inner + 1)) =
      "<div>".toList ++ (writtenAll (nestedDivs (inner + 1)) ++ oneStyle.text) ++ "</div>".toList := by
  simp only [styleInDiv, nestedDivs, List.cons_append, List.nil_append, writtenAll, Item.written,
    List.append_nil, List.append_assoc]
  rfl

/-- The style element is read as a section, and then an end tag is left over. -/
theorem sections_styleInDiv {inner : Nat} (hfull : inner + 1 = Tag.maxRoom) (path : String) :
    readWellformed? (writtenAll (styleInDiv (inner + 1))) = none ∧
      ∃ front sec, writtenAll (styleInDiv (inner + 1)) = front ++ "</div>".toList ∧
        sections path front = .ok [sec] ∧ sec.content = ['x'] := by
  rw [writtenAll_styleInDiv]
  constructor
  · have hend : Unread [] (oneStyle.text ++ "</div>".toList) := by
      unfold Unread
      decide +kernel
    have hunread := isCarried_unread.overfull hfull hend
    rw [List.append_assoc, List.append_assoc]
    exact readWellformed?_eq_none hunread
  · obtain ⟨sec, hcontent, tokens, htokens, hclosed, hfound⟩ :=
      (isCarried_hasSection ['x']).overfull hfull hasSection_oneStyle 0
    refine ⟨_, sec, rfl, ?_, hcontent⟩
    rw [← hfound]
    refine sections_eq_sectionsFrom htokens hclosed ?_ path
    have hstyle : '\x00' ∉ "<div>".toList ∧ '\x00' ∉ oneStyle.text := by decide +kernel
    simp only [List.mem_append, not_or]
    exact ⟨hstyle.1, notMem_nestedDivs _, hstyle.2⟩

/-- Components that are not read as they were written: a comment at the front of a value does not belong
to the value, and a null in a content ends the text. Where one element more is open than the record has
room for, a style element inside an element is read as a section, and an end tag is left over. -/
theorem sections_written_unread :
    (sections "a.vue" (writtenAll commentedValue) = .ok [⟨['x'], [⟨"a", some "b"⟩], 20, 21, 0⟩] ∧
      sectionsWritten 0 0 commentedValue = [⟨['x'], [⟨"a", some "<!---->b"⟩], 20, 21, 0⟩]) ∧
    ((sections "a.vue" (writtenAll nullContent)).toOption = none ∧
      sectionsWritten 0 0 nullContent = [⟨['a', '\x00'], [], 7, 9, 0⟩]) ∧
    (depthOf (styleInDiv Tag.maxRoom) = Tag.maxRoom + 1 ∧ sectionsWritten 0 0 (styleInDiv Tag.maxRoom) = [] ∧
      readWellformed? (writtenAll (styleInDiv Tag.maxRoom)) = none ∧
      ∃ front sec, writtenAll (styleInDiv Tag.maxRoom) = front ++ "</div>".toList ∧
        sections "a.vue" front = .ok [sec] ∧ sec.content = ['x']) := by
  refine ⟨by decide +kernel, by decide +kernel, ?_⟩
  obtain ⟨inner, hfull⟩ : ∃ inner, inner + 1 = Tag.maxRoom := ⟨1018, rfl⟩
  rw [← hfull]
  exact ⟨depthOf_styleInDiv inner, rfl, sections_styleInDiv hfull "a.vue"⟩

end StyleMigration.Component
