import StyleMigration.Proofs.Markup.Locality

/-!
Tags and comments as they are written. An attribute is a name alone, or a name with a value that stands
in double quotes or without any (`WrittenAttribute`). A tag that is made of such attributes is read as
it was written (`takeTagBody?_written`), unless a quoted value begins with a comment, which the reader
would pass over (`BeginsComment`). The comment may as well begin in the value and end after it.
-/

set_option autoImplicit false

namespace StyleMigration.Markup

open Text

variable {rest name : List Char} {c : Char}

/-! ### Comments -/

/-- A text begins with a comment, space aside. -/
def BeginsComment (text : List Char) : Prop :=
  ∃ blanks body rest, (∀ c ∈ blanks, isSpace c = true) ∧
    text = blanks ++ ("<!--".toList ++ (body ++ ("-->".toList ++ rest)))

/-- A comment ends with the first sign that ends one. -/
theorem afterCommentEnd?_append_end {body : List Char} (hbody : ¬ ['-', '-', '>'] <:+: body)
    (rest : List Char) : afterCommentEnd? 0 (body ++ ("-->".toList ++ rest)) = some rest := by
  have hskip (dashes : Nat) (front back : List Char) (hnone : afterCommentEnd? dashes front = none) :
      afterCommentEnd? dashes (front ++ back) = afterCommentEnd? (dashesAfter dashes front) back := by
    induction front generalizing dashes with
    | nil => rfl
    | cons c front ih =>
      rw [afterCommentEnd?] at hnone
      split at hnone
      · cases hnone
      · rename_i hopen
        rw [List.cons_append, afterCommentEnd?, if_neg hopen, dashesAfter]
        exact ih _ hnone
  rw [hskip 0 body _ (afterCommentEnd?_eq_none hbody)]
  simp [afterCommentEnd?]

theorem beginsComment_iff {text : List Char} :
    BeginsComment text ↔ (afterComment? (text.dropWhile isSpace)).isSome = true := by
  constructor
  · rintro ⟨blanks, body, rest, hblanks, rfl⟩
    rw [List.dropWhile_append_of_pos hblanks, Option.isSome_iff_ne_none]
    intro hnone
    change afterCommentEnd? 0 (body ++ ('-' :: '-' :: '>' :: rest)) = none at hnone
    have hend := (afterCommentEnd?_append_eq_none_iff.mp hnone).2
    simp [afterCommentEnd?] at hend
  · intro hsome
    obtain ⟨rest, hcomment⟩ := Option.isSome_iff_exists.mp hsome
    have htext := List.takeWhile_append_dropWhile (p := isSpace) (l := text)
    unfold afterComment? at hcomment
    split at hcomment
    · rename_i inside heq
      obtain ⟨front, rfl, body, hbody⟩ := suffix_of_afterCommentEnd? hcomment
      rw [List.replicate_zero, List.nil_append] at hbody
      refine ⟨text.takeWhile isSpace, body, rest, List.all_eq_true.mp List.all_takeWhile, ?_⟩
      refine htext.symm.trans ?_
      rw [heq, ← hbody]
      simp
    · cases hcomment

instance (text : List Char) : Decidable (BeginsComment text) :=
  decidable_of_iff _ beginsComment_iff.symm

theorem pastComments_of_not {text : List Char} (hnot : ¬ BeginsComment text) :
    pastComments text = text := by
  rw [beginsComment_iff, Option.not_isSome_iff_eq_none] at hnot
  rw [pastComments, hnot]

theorem takeToken?_comment {body : List Char} (hbody : ¬ ['-', '-', '>'] <:+: body)
    (rest : List Char) :
    takeToken? '<' ("!--".toList ++ (body ++ ("-->".toList ++ rest))) = some (.comment, rest) := by
  have hcomment : afterComment? ('<' :: ("!--".toList ++ (body ++ ("-->".toList ++ rest)))) =
      some rest := afterCommentEnd?_append_end hbody rest
  simp only [takeToken?, hcomment]
  rfl

/-! ### Text -/

/-- The six characters that may stand between the parts of a tag. -/
theorem mem_of_isSpace (hspace : isSpace c = true) :
    c ∈ [' ', '\t', '\n', '\x0b', '\x0c', '\r'] := by
  simp only [isSpace, Bool.or_eq_true, beq_iff_eq, Bool.and_eq_true, decide_eq_true_eq] at hspace
  rcases hspace with rfl | ⟨hlow, hhigh⟩
  · simp
  · have heq (d : Char) (hcode : c.toNat = d.toNat) : c = d := Char.toNat_inj.mp hcode
    have hcode : c.toNat = 9 ∨ c.toNat = 10 ∨ c.toNat = 11 ∨ c.toNat = 12 ∨ c.toNat = 13 := by omega
    rcases hcode with hcode | hcode | hcode | hcode | hcode
    · simp [heq '\t' hcode]
    · simp [heq '\n' hcode]
    · simp [heq '\x0b' hcode]
    · simp [heq '\x0c' hcode]
    · simp [heq '\r' hcode]

theorem isTextChar_of_isSpace (hspace : isSpace c = true) : isTextChar c = true := by
  have hall : ∀ c ∈ [' ', '\t', '\n', '\x0b', '\x0c', '\r'], isTextChar c = true := by decide
  exact hall c (mem_of_isSpace hspace)

/-- Tokens that make nothing but text. -/
def AreText (tokens : List (Token × List Char)) : Prop :=
  ∀ token ∈ tokens, token.1 = .space ∨ token.1 = .text

/-- Text that does not start with space is one token. -/
theorem exists_tokens?_word {text : List Char} (hhead : ∀ c ∈ text.head?, isSpace c = false) :
    ∃ quiet, AreText quiet ∧ textOf quiet = text.takeWhile isTextChar ∧
      tokens? text = (tokens? (text.dropWhile isTextChar)).map (quiet ++ ·) := by
  cases text with
  | nil => exact ⟨[], by simp [AreText], rfl, by simp [tokens?]⟩
  | cons c text =>
    cases hc : isTextChar c with
    | false =>
      rw [List.takeWhile_cons_of_neg (by simp [hc]), List.dropWhile_cons_of_neg (by simp [hc])]
      exact ⟨[], by simp [AreText], rfl, by simp⟩
    | true =>
      have hsplit := List.takeWhile_append_dropWhile (p := isTextChar) (l := text)
      rw [List.takeWhile_cons_of_pos hc, List.dropWhile_cons_of_pos hc]
      have htake : takeToken? c (text.takeWhile isTextChar ++ text.dropWhile isTextChar) =
          some (.text, text.dropWhile isTextChar) := by
        have hne : c ≠ '<' ∧ c ≠ '&' := by
          constructor <;> rintro rfl <;> cases hc
        unfold takeToken?
        rw [hsplit, if_neg (by simp [hhead c rfl]), if_neg hne.1, if_neg hne.2, if_pos hc]
      have htokens := tokens?_cons htake
      rw [hsplit] at htokens
      exact ⟨[(.text, c :: text.takeWhile isTextChar)], by simp [AreText], by simp [textOf], htokens⟩

/-- A run of text is read as text, whatever follows it. -/
theorem exists_tokens?_text (text : List Char) :
    ∃ quiet, AreText quiet ∧ textOf quiet = text.takeWhile isTextChar ∧
      tokens? text = (tokens? (text.dropWhile isTextChar)).map (quiet ++ ·) := by
  cases hspace : text.head?.any isSpace with
  | false =>
    refine exists_tokens?_word fun c hc => ?_
    rwa [Option.mem_def.mp hc, Option.any_some] at hspace
  | true =>
    obtain ⟨c, rest, rfl, hc⟩ : ∃ c rest, text = c :: rest ∧ isSpace c = true := by
      cases text with
      | nil => cases hspace
      | cons c rest => exact ⟨c, rest, rfl, hspace⟩
    -- The space is a token of its own, and the text after it starts with none.
    obtain ⟨quiet, hquiet, htext, htokens⟩ :=
      @exists_tokens?_word (rest.dropWhile isSpace) eq_false_of_head?_dropWhile
    have hsplit := List.takeWhile_append_dropWhile (p := isSpace) (l := rest)
    have hblanks : ∀ d ∈ c :: rest.takeWhile isSpace, isTextChar d = true := by
      refine List.forall_mem_cons.mpr ⟨isTextChar_of_isSpace hc, fun d hd => ?_⟩
      exact isTextChar_of_isSpace (List.all_eq_true.mp List.all_takeWhile d hd)
    have htake : takeToken? c (rest.takeWhile isSpace ++ rest.dropWhile isSpace) =
        some (.space, rest.dropWhile isSpace) := by
      unfold takeToken?
      rw [hsplit, if_pos hc]
    have hcons := tokens?_cons htake
    have hjoin : c :: rest = c :: rest.takeWhile isSpace ++ rest.dropWhile isSpace := by
      rw [List.cons_append, hsplit]
    refine ⟨(.space, c :: rest.takeWhile isSpace) :: quiet, ?_, ?_, ?_⟩
    · exact List.forall_mem_cons.mpr ⟨.inl rfl, hquiet⟩
    · rw [hjoin, List.takeWhile_append_of_pos hblanks, ← htext]
      rfl
    · rw [hjoin, List.dropWhile_append_of_pos hblanks, List.cons_append, hcons, htokens,
        Option.map_map]
      rfl

/-! ### Attributes -/

/-- The space before a part of a tag, or none. -/
abbrev Spaces := { blanks : List Char // ∀ c ∈ blanks, isSpace c = true }

/-- A word of characters of one class. -/
abbrev Word (isIn : Char → Bool) := { chars : List Char // chars ≠ [] ∧ ∀ c ∈ chars, isIn c = true }

/-- How the value of an attribute is written. Space may stand on both sides of the equals sign. -/
inductive WrittenValue where
  | bare
  | unquoted (left right : Spaces) (value : Word isAttributeValueChar)
  | quoted (left right : Spaces) (value : { value : List Char // '"' ∉ value })

namespace WrittenValue

def text : WrittenValue → List Char
  | bare => []
  | unquoted left right value => left.val ++ '=' :: (right.val ++ value.val)
  | quoted left right value => left.val ++ '=' :: (right.val ++ '"' :: (value.val ++ ['"']))

def value? : WrittenValue → Option String
  | bare => none
  | unquoted _ _ value => some (String.ofList value.val)
  | quoted _ _ value => some (String.ofList value.val)

/-- The text from a quoted value on, if `rest` follows. -/
def quotedFrom (rest : List Char) : WrittenValue → List (List Char)
  | bare | unquoted _ _ _ => []
  | quoted _ _ value => [value.val ++ '"' :: rest]

end WrittenValue

/-- An attribute with the space before it. -/
structure WrittenAttribute where
  gap : Word isSpace
  name : Word isAttributeNameChar
  value : WrittenValue

namespace WrittenAttribute

def text (written : WrittenAttribute) : List Char :=
  written.gap.val ++ (written.name.val ++ written.value.text)

def toAttribute (written : WrittenAttribute) : Attribute :=
  ⟨String.ofList written.name.val, written.value.value?⟩

end WrittenAttribute

theorem isAttributeNameChar_eq_false (hc : isAttributeValueChar c = false) :
    isAttributeNameChar c = false := by
  rw [isAttributeNameChar, hc, Bool.false_and]

/-- What a value or a name can start with is passed over by no gap. -/
theorem ne_of_isAttributeValueChar (hc : isAttributeValueChar c = true) :
    isSpace c = false ∧ c ≠ '<' ∧ c ≠ '"' ∧ c ≠ '\'' ∧ c ≠ '>' := by
  simp only [isAttributeValueChar, Bool.and_eq_true, Bool.not_eq_true', bne_iff_ne] at hc
  obtain ⟨⟨⟨⟨⟨⟨hspace, hopen⟩, hclose⟩, hdouble⟩, hsingle⟩, -⟩, -⟩ := hc
  exact ⟨hspace, hopen, hdouble, hsingle, hclose⟩

theorem pastGap_spaces (blanks : Spaces) (hspace : isSpace c = false) (hc : c ≠ '<')
    (rest : List Char) : pastGap (blanks.val ++ c :: rest) = c :: rest := by
  have hdrop : (blanks.val ++ c :: rest).dropWhile isSpace = c :: rest := by
    rw [List.dropWhile_append_of_pos blanks.property, List.dropWhile_cons_of_neg (by simp [hspace])]
  rw [pastGap, pastComments, hdrop, afterComment?_of_ne hc]
  exact hdrop

theorem takeValue?_unquoted (right : Spaces) (value : Word isAttributeValueChar)
    (hrest : ∀ c ∈ rest.head?, isAttributeValueChar c = false) :
    takeValue? (right.val ++ (value.val ++ rest)) = some (value.val, rest) := by
  obtain ⟨chars, hne, hchars⟩ := value
  obtain ⟨c, more, rfl⟩ := List.exists_cons_of_ne_nil hne
  have hc := hchars c List.mem_cons_self
  obtain ⟨hspace, hopen, hdouble, hsingle, -⟩ := ne_of_isAttributeValueChar hc
  have hspan := span_append hchars hrest
  rw [List.cons_append] at hspan
  simp only [takeValue?, List.cons_append, pastGap_spaces right hspace hopen, hdouble, hsingle, or_self,
    if_false, hc, if_true, hspan]

theorem takeValue?_quoted (right : Spaces) {value : List Char} (hvalue : '"' ∉ value)
    (hcomment : ¬ BeginsComment (value ++ '"' :: rest)) :
    takeValue? (right.val ++ '"' :: (value ++ '"' :: rest)) = some (value, rest) := by
  have hspan := @span_append (· != '"') value ('"' :: rest)
    (fun c hc => by rw [bne_iff_ne]; rintro rfl; exact hvalue hc) (by simp)
  simp only [takeValue?, pastGap_spaces right (show isSpace '"' = false by decide) (by decide),
    pastComments_of_not hcomment, hspan, true_or, if_true]

/-- An attribute is read as it was written, if what follows it does not go on with it. -/
theorem takeAttribute?_written (written : WrittenAttribute)
    (hrest : ∀ c ∈ rest.head?, isAttributeValueChar c = false)
    (hsign : (pastGap rest).head? ≠ some '=')
    (hquoted : ∀ text ∈ written.value.quotedFrom rest, ¬ BeginsComment text) :
    takeAttribute? (written.name.val ++ (written.value.text ++ rest)) =
      some (written.toAttribute, rest) := by
  obtain ⟨gap, ⟨name, hne, hname⟩, value⟩ := written
  have hsome : ¬ name.isEmpty = true := by simpa using hne
  have hequals (blanks : Spaces) (after : List Char) :
      ∀ c ∈ (blanks.val ++ '=' :: after).head?, isAttributeNameChar c = false := by
    obtain ⟨blanks, hblanks⟩ := blanks
    cases blanks with
    | nil => simp [isAttributeNameChar, isAttributeValueChar]
    | cons blank blanks =>
      have hblank := hblanks blank List.mem_cons_self
      simp [isAttributeNameChar, isAttributeValueChar, hblank]
  have hpast (blanks : Spaces) (after : List Char) :
      pastGap (blanks.val ++ '=' :: after) = '=' :: after :=
    pastGap_spaces blanks (by decide) (by decide) after
  cases value with
  | bare =>
    have hspan := span_append hname fun c hc => isAttributeNameChar_eq_false (hrest c hc)
    simp only [WrittenValue.text, List.nil_append, takeAttribute?, hspan, if_neg hsome]
    split
    · rename_i hgap
      rw [hgap] at hsign
      exact absurd rfl hsign
    · rfl
  | unquoted left right value =>
    have hspan := span_append hname (hequals left (right.val ++ (value.val ++ rest)))
    simp only [WrittenValue.text, List.append_assoc, List.cons_append, takeAttribute?, hspan,
      if_neg hsome, hpast, takeValue?_unquoted right value hrest, Option.map_some]
    rfl
  | quoted left right value =>
    have hspan := span_append hname (hequals left (right.val ++ '"' :: (value.val ++ '"' :: rest)))
    have hvalue := takeValue?_quoted right value.property
      (hquoted (value.val ++ '"' :: rest) (by simp [WrittenValue.quotedFrom]))
    simp only [WrittenValue.text, List.append_assoc, List.cons_append, List.nil_append, takeAttribute?,
      hspan, if_neg hsome, hpast, hvalue, Option.map_some]
    rfl

/-! ### Tags -/

/-- The inside of a tag after its name: the attributes, and the space at its end. -/
structure WrittenTag where
  attributes : List WrittenAttribute
  trailing : Spaces

/-- The texts from each quoted value on, if `rest` follows the attributes. -/
def quotedValuesFrom (rest : List Char) : List WrittenAttribute → List (List Char)
  | [] => []
  | written :: attributes =>
    written.value.quotedFrom (attributes.flatMap (·.text) ++ rest) ++ quotedValuesFrom rest attributes

namespace WrittenTag

def text (tag : WrittenTag) : List Char :=
  tag.attributes.flatMap (·.text) ++ tag.trailing.val

/-- The texts from each quoted value on, if `rest` follows the tag. -/
def quotedFrom (rest : List Char) (tag : WrittenTag) : List (List Char) :=
  quotedValuesFrom (tag.trailing.val ++ rest) tag.attributes

end WrittenTag

/-- What stands after a name or a value in a tag belongs to neither. -/
def EndsWord (text : List Char) : Prop :=
  ∀ c ∈ text.head?, isAttributeValueChar c = false ∧ isTagChar c = false

theorem endsWord_cons_of_isSpace (hspace : isSpace c = true) (text : List Char) :
    EndsWord (c :: text) := by
  intro d hd
  obtain rfl := Option.some.inj hd
  have hall : ∀ c ∈ [' ', '\t', '\n', '\x0b', '\x0c', '\r'],
      isAttributeValueChar c = false ∧ isTagChar c = false := by
    decide
  exact hall c (mem_of_isSpace hspace)

theorem endsWord_trailing (trailing : Spaces) (rest : List Char) :
    EndsWord (trailing.val ++ '>' :: rest) := by
  obtain ⟨blanks, hblanks⟩ := trailing
  cases blanks with
  | nil =>
    intro c hc
    obtain rfl := Option.some.inj hc
    decide
  | cons blank blanks => exact endsWord_cons_of_isSpace (hblanks blank List.mem_cons_self) _

theorem endsWord_attributes (attributes : List WrittenAttribute) (trailing : Spaces)
    (rest : List Char) :
    EndsWord (attributes.flatMap (·.text) ++ (trailing.val ++ '>' :: rest)) := by
  cases attributes with
  | nil => exact endsWord_trailing trailing rest
  | cons written attributes =>
    obtain ⟨⟨gap, hne, hgap⟩, name, value⟩ := written
    obtain ⟨blank, blanks, rfl⟩ := List.exists_cons_of_ne_nil hne
    exact endsWord_cons_of_isSpace (hgap blank List.mem_cons_self) _

/-- An attribute is the first one in a tag if the rest of the tag can be read. -/
theorem takeTagBody?_cons (written : WrittenAttribute) {body : TagBody}
    (hends : EndsWord rest) (hrest : takeTagBody? rest = some body)
    (hquoted : ∀ text ∈ written.value.quotedFrom rest, ¬ BeginsComment text) :
    takeTagBody? (written.text ++ rest) = some (body.add written.toAttribute) := by
  have hitem := takeAttribute?_written written (fun c hc => (hends c hc).1)
    (head?_pastGap_of_takeTagBody? hrest) hquoted
  -- The space before the name is passed over, and the name starts neither a comment nor the end.
  obtain ⟨c, more, hname⟩ := List.exists_cons_of_ne_nil written.name.property.1
  have hc : isAttributeNameChar c = true := written.name.property.2 c (by simp [hname])
  rw [isAttributeNameChar, Bool.and_eq_true, bne_iff_ne] at hc
  obtain ⟨hspace, hopen, -, -, hclose⟩ := ne_of_isAttributeValueChar hc.1
  have hpast := pastGap_spaces ⟨written.gap.val, written.gap.property.2⟩ hspace hopen
    (more ++ (written.value.text ++ rest))
  rw [hname, List.cons_append] at hitem
  rw [WrittenAttribute.text, hname, List.append_assoc, List.append_assoc, List.cons_append,
    takeTagBody?_of_attribute hpast ⟨hclose, hc.2⟩ hitem
      (by simp only [List.length_append, List.length_cons]; omega), hrest]
  rfl

/-- The inside of a tag is read as it was written. -/
theorem takeTagBody?_written (tag : WrittenTag)
    (hquoted : ∀ text ∈ tag.quotedFrom ('>' :: rest), ¬ BeginsComment text) :
    takeTagBody? (tag.text ++ '>' :: rest) =
      some ⟨tag.attributes.map (·.toAttribute), false, rest⟩ := by
  obtain ⟨attributes, trailing⟩ := tag
  simp only [WrittenTag.text, List.append_assoc]
  simp only [WrittenTag.quotedFrom] at hquoted
  induction attributes with
  | nil =>
    rw [List.flatMap_nil, List.nil_append, takeTagBody?, pastGap_spaces trailing (by decide) (by decide)]
    rfl
  | cons written attributes ih =>
    rw [quotedValuesFrom, List.forall_mem_append] at hquoted
    rw [List.flatMap_cons, List.append_assoc]
    exact takeTagBody?_cons written (endsWord_attributes attributes trailing rest) (ih hquoted.2)
      hquoted.1

theorem takeName?_written (hne : name ≠ [])
    (hname : ∀ c ∈ name, isTagChar c = true) (hrest : EndsWord rest) :
    takeName? (name ++ rest) = some (⟨.ofChars name, true⟩, rest) := by
  obtain ⟨c, more, rfl⟩ := List.exists_cons_of_ne_nil hne
  have hc := hname c List.mem_cons_self
  have hspace : isSpace c = false := by
    cases hspace : isSpace c with
    | false => rfl
    | true =>
      rw [((endsWord_cons_of_isSpace hspace [] : EndsWord [c]) c rfl).2] at hc
      cases hc
  have hbracket : c ≠ '<' := by
    rintro rfl
    cases hc
  have hspan := span_append hname fun d hd => (hrest d hd).2
  rw [List.cons_append] at hspan ⊢
  simp only [takeName?, pastGap_of_ne hspace hbracket, hspan, List.isEmpty_cons, Bool.false_eq_true,
    if_false, List.head?_cons, Option.any_some, hc]

theorem takeEndTag?_written (hne : name ≠ []) (hname : ∀ c ∈ name, isTagChar c = true)
    (rest : List Char) : takeEndTag? (name ++ '>' :: rest) = some (⟨.ofChars name, true⟩, rest) := by
  have htake := takeName?_written hne hname (endsWord_trailing ⟨[], by simp⟩ rest)
  rw [List.nil_append] at htake
  simp only [takeEndTag?, htake, Option.bind_eq_bind, Option.bind_some,
    pastGap_of_ne (show isSpace '>' = false by decide) (by decide)]

/-! ### Elements -/

theorem endsWord_tag (tag : WrittenTag) (rest : List Char) : EndsWord (tag.text ++ '>' :: rest) := by
  rw [WrittenTag.text, List.append_assoc]
  exact endsWord_attributes tag.attributes tag.trailing rest

theorem takeStartTag?_written (hne : name ≠ []) (hname : ∀ c ∈ name, isTagChar c = true)
    (hraw : ¬ (Tag.ofChars name = .style ∨ Tag.ofChars name = .script)) (tag : WrittenTag)
    (hquoted : ∀ text ∈ tag.quotedFrom ('>' :: rest), ¬ BeginsComment text) :
    takeStartTag? (name ++ (tag.text ++ '>' :: rest)) =
      some (.startTag ⟨⟨.ofChars name, true⟩, tag.attributes.map (·.toAttribute), false⟩, rest) := by
  simp only [takeStartTag?, takeName?_written hne hname (endsWord_tag tag rest),
    takeTagBody?_written tag hquoted, Option.bind_eq_bind, Option.bind_some, if_neg hraw]

/-- The start tag of a style element. -/
def WrittenTag.styleOpening (tag : WrittenTag) : List Char :=
  "<style".toList ++ (tag.text ++ ['>'])

/-- A style element is read as it was written. -/
theorem takeStartTag?_style (tag : WrittenTag) {content : List Char} (hcontent : '<' ∉ content)
    (hquoted : ∀ text ∈ tag.quotedFrom ('>' :: (content ++ ("</style>".toList ++ rest))),
      ¬ BeginsComment text) :
    takeStartTag? ("style".toList ++ (tag.text ++ '>' :: (content ++ ("</style>".toList ++ rest)))) =
      some (.raw ⟨⟨.style, true⟩, tag.attributes.map (·.toAttribute), tag.styleOpening, content⟩,
        rest) := by
  have hname := takeName?_written (show "style".toList ≠ [] by decide) (by decide)
    (endsWord_tag tag (content ++ ("</style>".toList ++ rest)))
  have htag : Tag.ofChars "style".toList = .style := by decide
  have hraw : takeRaw .style (content ++ ("</style>".toList ++ rest)) =
      some (content, "</style>".toList ++ rest) :=
    @scanRaw_of_notMem "/style".toList content "</style".toList (by decide) hcontent ('>' :: rest)
  have hend : takeEndTag? ("style>".toList ++ rest) = some (⟨.style, true⟩, rest) := by
    have htake := takeEndTag?_written (show "style".toList ≠ [] by decide) (by decide) rest
    rwa [htag] at htake
  have hopening : '<' :: before
      ("style".toList ++ (tag.text ++ '>' :: (content ++ ("</style>".toList ++ rest))))
      (content ++ ("</style>".toList ++ rest)) = tag.styleOpening := by
    have hsplit : "style".toList ++ (tag.text ++ '>' :: (content ++ ("</style>".toList ++ rest))) =
        ("style".toList ++ (tag.text ++ ['>'])) ++ (content ++ ("</style>".toList ++ rest)) := by
      simp
    rw [hsplit, before_append]
    rfl
  simp only [takeStartTag?, hname, takeTagBody?_written tag hquoted, Option.bind_eq_bind,
    Option.bind_some, htag, true_or, if_true, Bool.false_eq_true, if_false, hopening]
  simp only [takeRawElement?, hraw, Option.bind_eq_bind, Option.bind_some]
  change (takeEndTag? ("style>".toList ++ rest)).bind _ = _
  rw [hend]
  rfl

theorem takeToken?_style (tag : WrittenTag) {content : List Char} (hcontent : '<' ∉ content)
    (hquoted : ∀ text ∈ tag.quotedFrom ('>' :: (content ++ ("</style>".toList ++ rest))),
      ¬ BeginsComment text) :
    takeToken? '<' ("style".toList ++ (tag.text ++ '>' :: (content ++ ("</style>".toList ++ rest)))) =
      some (.raw ⟨⟨.style, true⟩, tag.attributes.map (·.toAttribute), tag.styleOpening, content⟩,
        rest) := by
  rw [← takeStartTag?_style tag hcontent hquoted]
  exact takeToken?_startTag (by decide) _

theorem takeToken?_written (hne : name ≠ []) (hname : ∀ c ∈ name, isTagChar c = true)
    (hraw : ¬ (Tag.ofChars name = .style ∨ Tag.ofChars name = .script)) (tag : WrittenTag)
    (hquoted : ∀ text ∈ tag.quotedFrom ('>' :: rest), ¬ BeginsComment text) :
    takeToken? '<' (name ++ (tag.text ++ '>' :: rest)) =
      some (.startTag ⟨⟨.ofChars name, true⟩, tag.attributes.map (·.toAttribute), false⟩, rest) := by
  rw [← takeStartTag?_written hne hname hraw tag hquoted]
  obtain ⟨c, more, rfl⟩ := List.exists_cons_of_ne_nil hne
  have hc : c ≠ '!' ∧ c ≠ '/' := by
    have hfirst := hname c List.mem_cons_self
    constructor <;> rintro rfl <;> cases hfirst
  exact takeToken?_startTag hc _

theorem takeToken?_endTag (hne : name ≠ []) (hname : ∀ c ∈ name, isTagChar c = true)
    (rest : List Char) :
    takeToken? '<' ('/' :: (name ++ '>' :: rest)) = some (.endTag ⟨.ofChars name, true⟩, rest) := by
  have hspace : isSpace '<' = false := by decide
  have hnone : afterComment? ('<' :: '/' :: (name ++ '>' :: rest)) = none := rfl
  simp only [takeToken?, hspace, hnone, takeEndTag?_written hne hname, Bool.false_eq_true, if_false,
    if_true, Option.map_some]

end StyleMigration.Markup
