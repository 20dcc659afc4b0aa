import StyleMigration.Proofs.Markup.Comment

/-!
Tags and raw elements in front of another text. The inside of a tag is read as well if something else
follows the tag, and an element of raw text is read as well with another content, if that has no
bracket in it (`takeStartTag?_append`, `takeStartTag?_raw`). Only a quoted value that begins with a sign
that could open a comment (`opensComment`) makes a tag depend on what follows it: no comment may then
get its end there.
-/

set_option autoImplicit false

namespace StyleMigration.Markup

open Text

variable {text rest : List Char} {c : Char} {body : TagBody} {name : TagName}

/-! ### Attributes -/

/-- Whether a text starts with a sign that could open a comment. -/
def opensComment (text : List Char) : Bool :=
  ['<', '!', '-', '-'].isPrefixOf (text.dropWhile isSpace)

/-- In front of a character that is not part of the sign, only the sign itself could open a comment. -/
theorem afterComment?_append_cons
    (hc : c ≠ '<' ∧ c ≠ '!' ∧ c ≠ '-') (hsign : ['<', '!', '-', '-'].isPrefixOf text = false) :
    afterComment? (text ++ c :: rest) = none := by
  obtain ⟨hbracket, hmark, hdash⟩ := hc
  unfold afterComment?
  split
  · rename_i more heq
    rcases text with _ | ⟨c₁, _ | ⟨c₂, _ | ⟨c₃, _ | ⟨c₄, text⟩⟩⟩⟩ <;> simp_all
  · rfl

/-- What a quoted text starts with is no comment as well in front of another text. -/
theorem afterComment?_quoted {quoted other : List Char}
    (hc : c ≠ '<' ∧ c ≠ '!' ∧ c ≠ '-') (hspace : isSpace c = false)
    (hopen : opensComment quoted = true → StaysOpen rest other)
    (hnone : afterComment? ((quoted ++ c :: rest).dropWhile isSpace) = none) :
    afterComment? ((quoted ++ c :: other).dropWhile isSpace) = none := by
  have hdrop (rest : List Char) : (quoted ++ c :: rest).dropWhile isSpace =
      quoted.dropWhile isSpace ++ c :: rest := by
    rw [List.dropWhile_append]
    split
    · rename_i hempty
      rw [List.isEmpty_iff.mp hempty, List.nil_append, List.dropWhile_cons_of_neg (by simp [hspace])]
    · rfl
  rw [hdrop] at hnone ⊢
  cases hsign : opensComment quoted with
  | false => exact afterComment?_append_cons hc hsign
  | true =>
    obtain ⟨more, hmore⟩ := List.isPrefixOf_iff_prefix.mp hsign
    rw [← hmore] at hnone ⊢
    have hstays := (hopen hsign).append (more ++ [c]) 0
    simp only [List.append_assoc, List.singleton_append] at hstays
    exact hstays hnone

/-- What is cut off by a class of characters is cut off as well in front of a text that begins alike. -/
theorem span_append_alike {p : Char → Bool} {text other : List Char}
    (hhead : other.head? = (text.dropWhile p).head?) :
    (text.takeWhile p ++ other).takeWhile p = text.takeWhile p ∧
      (text.takeWhile p ++ other).dropWhile p = other := by
  refine span_append (List.all_eq_true.mp List.all_takeWhile) fun c hc => ?_
  rw [hhead] at hc
  exact eq_false_of_head?_dropWhile c hc

/-- What stands between the comments at the front of a text and a mark. -/
theorem exists_marked {mark d : Char}
    (hmark : mark ≠ '<' ∧ mark ≠ '!' ∧ mark ≠ '-') (hspace : isSpace mark = false)
    (hdrop : (pastComments text).dropWhile (· != mark) = d :: rest) :
    ∃ comments, text = comments ++ ((pastComments text).takeWhile (· != mark) ++ mark :: rest) ∧
      ∀ other, (opensComment ((pastComments text).takeWhile (· != mark)) = true →
          StaysOpen rest other) →
        ∃ marked, pastComments (comments ++
              ((pastComments text).takeWhile (· != mark) ++ mark :: other)) = marked ∧
          marked.takeWhile (· != mark) = (pastComments text).takeWhile (· != mark) ∧
          marked.dropWhile (· != mark) = mark :: other := by
  obtain ⟨comments, htext, hnone, hpast⟩ := exists_pastComments text
  -- What is cut off stops at the first mark.
  have hd : d = mark := by
    have hfirst := @eq_false_of_head?_dropWhile (· != mark) (pastComments text) d (by rw [hdrop]; rfl)
    simpa using hfirst
  have hmarked := List.takeWhile_append_dropWhile (p := (· != mark)) (l := pastComments text)
  rw [hdrop, hd] at hmarked
  have hclass := List.all_eq_true.mp
    (List.all_takeWhile (p := (· != mark)) (l := pastComments text))
  generalize (pastComments text).takeWhile (· != mark) = written at hmarked hclass
  rw [← hmarked] at htext hnone
  refine ⟨comments, htext, fun other hopen => ⟨_, hpast _ ?_, ?_⟩⟩
  · exact afterComment?_quoted hmark hspace hopen hnone
  · exact @span_append (· != mark) written (mark :: other) hclass (by simp)

theorem exists_cons_of_takeWhile {p : Char → Bool}
    (hsome : ¬ (text.takeWhile p).isEmpty = true) : ∃ c more, text = c :: more ∧ p c = true := by
  cases text with
  | nil => exact absurd rfl hsome
  | cons c more =>
    cases hc : p c with
    | false => simp [hc] at hsome
    | true => exact ⟨c, more, rfl, hc⟩

theorem takeValue?_append {value : List Char} (htake : takeValue? text = some (value, rest)) :
    ∃ front, text = front ++ rest ∧
      ∀ other, other.head? = rest.head? →
        (opensComment value = true → StaysOpen rest other) →
        takeValue? (front ++ other) = some (value, other) := by
  unfold takeValue? at htake
  split at htake
  · cases htake
  rename_i c more hgap
  by_cases hquote : c = '"' ∨ c = '\''
  · have hsign : c ≠ '<' ∧ c ≠ '!' ∧ c ≠ '-' := by
      rcases hquote with rfl | rfl <;> decide
    obtain ⟨gap, rfl, hpastGap⟩ := exists_pastGap_cons hgap hsign.1
    rw [if_pos hquote] at htake
    simp only at htake
    split at htake
    · cases htake
    rename_i d after hdrop
    simp only [Option.some.injEq, Prod.mk.injEq] at htake
    obtain ⟨rfl, rfl⟩ := htake
    obtain ⟨comments, hmore, hother⟩ := exists_marked hsign (isSpace_of_pastGap hgap) hdrop
    generalize (pastComments more).takeWhile (· != c) = value at hmore hother
    refine ⟨gap ++ c :: comments ++ value ++ [c], ?_, fun other _ hopen => ?_⟩
    · rw [hmore]
      simp
    · obtain ⟨marked, hmarked, hvalue, hafter⟩ := hother other hopen
      have htext : gap ++ c :: comments ++ value ++ [c] ++ other =
          gap ++ c :: (comments ++ (value ++ c :: other)) := by simp
      rw [htext]
      simp only [takeValue?, hpastGap, if_pos hquote, hmarked, hvalue, hafter]
  · rw [if_neg hquote] at htake
    split at htake
    · rename_i hchar
      simp only [Option.some.injEq, Prod.mk.injEq] at htake
      obtain ⟨rfl, rfl⟩ := htake
      have hbracket : c ≠ '<' := by
        rintro rfl
        cases hchar
      obtain ⟨gap, rfl, hpastGap⟩ := exists_pastGap_cons hgap hbracket
      refine ⟨gap ++ (c :: more).takeWhile isAttributeValueChar, ?_, fun other hhead _ => ?_⟩
      · rw [List.append_assoc, List.takeWhile_append_dropWhile]
      · have hspan := span_append_alike hhead
        rw [List.takeWhile_cons_of_pos hchar, List.cons_append] at hspan
        rw [List.append_assoc, List.takeWhile_cons_of_pos hchar, List.cons_append, takeValue?,
          hpastGap]
        simp only [if_neg hquote, if_pos hchar, hspan]
    · cases htake

/-- Whether the value of an attribute starts with a sign that could open a comment. -/
def Attribute.opensComment (item : Attribute) : Bool :=
  item.value.any fun value => Markup.opensComment value.toList

theorem takeAttribute?_append {item : Attribute} (htake : takeAttribute? text = some (item, rest)) :
    ∃ c front, text = c :: front ++ rest ∧ isAttributeNameChar c = true ∧
      ∀ other, other.head? = rest.head? → (pastGap other).head? ≠ some '=' →
        (item.opensComment = true → StaysOpen rest other) →
        takeAttribute? (c :: front ++ other) = some (item, other) := by
  unfold takeAttribute? at htake
  simp only at htake
  split at htake
  · cases htake
  rename_i hname
  obtain ⟨c, more, rfl, hc⟩ := exists_cons_of_takeWhile hname
  have htext := List.takeWhile_append_dropWhile (p := isAttributeNameChar) (l := c :: more)
  have hspan {other : List Char} := @span_append_alike isAttributeNameChar (c :: more) other
  rw [List.takeWhile_cons_of_pos hc] at htake htext hspan
  generalize more.takeWhile isAttributeNameChar = name at htake htext hspan
  have hsome : ¬ (c :: name).isEmpty = true := by simp
  generalize (c :: more).dropWhile isAttributeNameChar = afterName at htake htext hspan
  split at htake
  · rename_i afterSign hgap
    obtain ⟨⟨value, rest'⟩, hvalue, heq⟩ := Option.map_eq_some_iff.mp htake
    simp only [Prod.mk.injEq] at heq
    obtain ⟨rfl, rfl⟩ := heq
    obtain ⟨gap, rfl, hpast⟩ := exists_pastGap_cons hgap (by decide)
    obtain ⟨front, rfl, hother⟩ := takeValue?_append hvalue
    refine ⟨c, name ++ gap ++ '=' :: front, ?_, hc, fun other hhead _ hopen => ?_⟩
    · rw [← htext]
      simp
    · have hcut := @hspan (gap ++ '=' :: (front ++ other)) (by cases gap <;> rfl)
      have hvalue' := hother other hhead (by simpa [Attribute.opensComment] using hopen)
      have hjoin : c :: (name ++ gap ++ '=' :: front) ++ other =
          c :: name ++ (gap ++ '=' :: (front ++ other)) := by simp
      rw [hjoin]
      simp only [takeAttribute?, hcut, if_neg hsome, hpast, hvalue', Option.map_some]
  · simp only [Option.some.injEq, Prod.mk.injEq] at htake
    obtain ⟨rfl, rfl⟩ := htake
    refine ⟨c, name, htext.symm, hc, fun other hhead hsign _ => ?_⟩
    simp only [takeAttribute?, hspan hhead, if_neg hsome]
    split
    · rename_i hpast
      rw [hpast] at hsign
      exact absurd rfl hsign
    · rfl

/-! ### Tags -/

/-- Whether the value of some attribute starts with a sign that could open a comment. -/
def openComments (attributes : List Attribute) : Bool :=
  attributes.any Attribute.opensComment

theorem head?_pastGap_of_takeTagBody?
    (htake : takeTagBody? text = some body) : (pastGap text).head? ≠ some '=' := by
  intro hsign
  cases hgap : pastGap text with
  | nil =>
    rw [hgap] at hsign
    cases hsign
  | cons c more =>
    rw [hgap, List.head?_cons, Option.some.injEq] at hsign
    subst hsign
    rw [takeTagBody?, hgap] at htake
    cases htake

theorem takeTagBody?_of_attribute {named : List Char} {item : Attribute}
    (hgap : pastGap text = c :: named) (hc : c ≠ '>' ∧ c ≠ '/')
    (hitem : takeAttribute? (c :: named) = some (item, rest)) (hshort : rest.length < text.length) :
    takeTagBody? text = (takeTagBody? rest).map (·.add item) := by
  rw [takeTagBody?, hgap]
  split
  · rename_i heq
    exact absurd (List.cons.inj heq).1 hc.1
  · rename_i heq
    exact absurd (List.cons.inj heq).1 hc.2
  · simp only [hitem, dif_pos hshort]

theorem takeTagBody?_append (htake : takeTagBody? text = some body) :
    ∃ front, text = front ++ '>' :: body.rest ∧
      ∀ other, (openComments body.attributes = true → StaysOpen ('>' :: body.rest) ('>' :: other)) →
        takeTagBody? (front ++ '>' :: other) = some { body with rest := other } := by
  fun_induction takeTagBody? text generalizing body with
  | case1 text rest hgap =>
    obtain rfl := Option.some.inj htake
    obtain ⟨front, rfl, hpast⟩ := exists_pastGap_cons hgap (by decide)
    refine ⟨front, rfl, fun other _ => ?_⟩
    rw [takeTagBody?, hpast]
    rfl
  | case2 text rest hgap =>
    obtain rfl := Option.some.inj htake
    obtain ⟨front, rfl, hpast⟩ := exists_pastGap_cons hgap (by decide)
    refine ⟨front ++ ['/'], by simp, fun other _ => ?_⟩
    rw [List.append_assoc, List.singleton_append, takeTagBody?, hpast]
    rfl
  | case3 => cases htake
  | case4 text item rest hshort _ _ hitem ih =>
    obtain ⟨inner, hinner, rfl⟩ := Option.map_eq_some_iff.mp htake
    obtain ⟨front, rfl, hother⟩ := ih hinner
    obtain ⟨c, written, hgap, hc, hitem'⟩ := takeAttribute?_append hitem
    have hbracket : c ≠ '<' ∧ c ≠ '>' ∧ c ≠ '/' := by
      refine ⟨?_, ?_, ?_⟩ <;> rintro rfl <;> cases hc
    rw [List.cons_append] at hgap
    obtain ⟨gap, rfl, hpast⟩ := exists_pastGap_cons hgap hbracket.1
    refine ⟨gap ++ c :: written ++ front, by simp [TagBody.add], fun other hopen => ?_⟩
    simp only [TagBody.add, openComments, List.any_cons, Bool.or_eq_true] at hopen
    have hbody := hother other fun hcomment => hopen (.inr hcomment)
    have hitem := hitem' (front ++ '>' :: other) (by cases front <;> rfl)
      (head?_pastGap_of_takeTagBody? hbody) fun hcomment => (hopen (.inl hcomment)).append front
    have hjoin : gap ++ c :: written ++ front ++ '>' :: other =
        gap ++ c :: (written ++ (front ++ '>' :: other)) := by
      simp
    rw [List.cons_append] at hitem
    rw [hjoin, takeTagBody?_of_attribute (hpast _) hbracket.2 hitem (by grind), hbody]
    rfl
  | case5 => cases htake

theorem takeName?_append (htake : takeName? text = some (name, rest)) :
    ∃ front, text = front ++ rest ∧ front ≠ [] ∧
      ∀ other, other.head? = rest.head? → takeName? (front ++ other) = some (name, other) := by
  unfold takeName? at htake
  simp only at htake
  split at htake
  · cases htake
  rename_i hname
  obtain ⟨c, more, hgap, hc⟩ := exists_cons_of_takeWhile hname
  simp only [Option.some.injEq, Prod.mk.injEq] at htake
  obtain ⟨rfl, rfl⟩ := htake
  have hbracket : c ≠ '<' := by
    rintro rfl
    cases hc
  obtain ⟨gap, rfl, hpast⟩ := exists_pastGap_cons hgap hbracket
  rw [hgap]
  have htext := List.takeWhile_append_dropWhile (p := isTagChar) (l := c :: more)
  have hspan {other : List Char} := @span_append_alike isTagChar (c :: more) other
  rw [List.takeWhile_cons_of_pos hc] at htext hspan ⊢
  generalize more.takeWhile isTagChar = written at htext hspan
  generalize (c :: more).dropWhile isTagChar = rest at htext hspan
  rw [List.cons_append] at htext
  rw [← htext]
  have hsome : ¬ (c :: written).isEmpty = true := by simp
  refine ⟨gap ++ c :: written, by simp, by simp, fun other hhead => ?_⟩
  have hcut := hspan hhead
  rw [List.cons_append] at hcut
  rw [List.append_assoc, List.cons_append]
  simp only [takeName?, hpast, hcut, if_neg hsome]
  cases gap <;> rfl

theorem takeEndTag?_append (htake : takeEndTag? text = some (name, rest)) :
    ∃ front, text = front ++ rest ∧ '>' ∈ front ∧
      ∀ other, takeEndTag? (front ++ other) = some (name, other) := by
  obtain ⟨⟨name', rest'⟩, hname, hclose⟩ := Option.bind_eq_some_iff.mp htake
  obtain ⟨written, rfl, -, hother⟩ := takeName?_append hname
  simp only at hclose
  split at hclose
  · rename_i rest'' hgap
    simp only [Option.some.injEq, Prod.mk.injEq] at hclose
    obtain ⟨rfl, rfl⟩ := hclose
    obtain ⟨gap, rfl, hpast⟩ := exists_pastGap_cons hgap (by decide)
    refine ⟨written ++ gap ++ ['>'], by simp, by simp, fun other => ?_⟩
    have hname' := hother (gap ++ '>' :: other) (by cases gap <;> rfl)
    have hjoin : written ++ gap ++ ['>'] ++ other = written ++ (gap ++ '>' :: other) := by simp
    rw [hjoin, takeEndTag?, hname']
    simp [hpast]
  · cases hclose

/-! ### Raw text -/

theorem eq_of_toLower_eq_bracket (hlower : c.toLower = '<') : c = '<' := by
  unfold Char.toLower at hlower
  split at hlower
  · rename_i hupper
    obtain ⟨hlow, hhigh⟩ := hupper
    have hval := congrArg UInt32.toNat (congrArg Char.val hlower)
    rw [ge_iff_le, UInt32.le_iff_toNat_le] at hlow
    rw [UInt32.le_iff_toNat_le] at hhigh
    simp [UInt32.toNat_add] at hval hlow hhigh
    omega
  · exact hlower

theorem scanRaw_of_map_eq (mark : List Char) {expected pending written : List Char}
    (hwritten : written.map Char.toLower = expected) (hne : expected ≠ []) (other : List Char) :
    scanRaw mark expected pending (written ++ other) = some ([], pending ++ written ++ other) := by
  induction written generalizing expected pending with
  | nil => exact absurd hwritten.symm hne
  | cons c written ih =>
    subst hwritten
    rw [List.cons_append, List.map_cons, scanRaw]
    simp only [if_true]
    split
    · rename_i hempty
      rw [List.isEmpty_iff, List.map_eq_nil_iff] at hempty
      simp [hempty]
    · rename_i hsome
      rw [List.isEmpty_iff] at hsome
      rw [ih rfl hsome]
      simp

/-- What was scanned is found in front of any text, since the scan stops with the mark. -/
theorem scanRaw_eq_some {mark expected pending content : List Char}
    (hmark : pending.map Char.toLower ++ expected = mark)
    (hscan : scanRaw mark expected pending text = some (content, rest)) :
    ∃ scanned written after, text = scanned ++ after ∧ rest = written ++ after ∧
      pending ++ scanned = content ++ written ∧ written.map Char.toLower = mark ∧
      ∀ other, scanRaw mark expected pending (scanned ++ other) = some (content, written ++ other) := by
  induction text generalizing expected pending content with
  | nil => cases hscan
  | cons c text ih =>
    cases expected with
    | nil => cases hscan
    | cons wanted expected =>
      by_cases hmatch : c.toLower = wanted
      · by_cases hlast : expected.isEmpty
        · rw [scanRaw, if_pos hmatch, if_pos hlast] at hscan
          simp only [Option.some.injEq, Prod.mk.injEq] at hscan
          obtain ⟨rfl, rfl⟩ := hscan
          refine ⟨[c], pending ++ [c], text, rfl, by simp, by simp, ?_, fun other => ?_⟩
          · rw [List.map_append, ← hmark, List.isEmpty_iff.mp hlast, List.map_singleton, hmatch]
          · rw [List.singleton_append, scanRaw, if_pos hmatch, if_pos hlast]
            simp
        · rw [scanRaw, if_pos hmatch, if_neg hlast] at hscan
          obtain ⟨scanned, written, after, rfl, rfl, hscanned, hwritten, hother⟩ :=
            ih (by simpa [hmatch] using hmark) hscan
          refine ⟨c :: scanned, written, after, rfl, rfl, by simpa using hscanned, hwritten,
            fun other => ?_⟩
          rw [List.cons_append, scanRaw, if_pos hmatch, if_neg hlast, hother]
      · rw [scanRaw, if_neg hmatch, Option.map_eq_some_iff] at hscan
        obtain ⟨⟨content', rest'⟩, hscan, heq⟩ := hscan
        simp only [Prod.mk.injEq] at heq
        obtain ⟨rfl, rfl⟩ := heq
        obtain ⟨scanned, written, after, rfl, rfl, hscanned, hwritten, hother⟩ :=
          ih (by simp) hscan
        refine ⟨c :: scanned, written, after, rfl, rfl, ?_, hwritten, fun other => ?_⟩
        · rw [List.nil_append] at hscanned
          simp [hscanned]
        · rw [List.cons_append, scanRaw, if_neg hmatch, hother]
          rfl

/-- A text without brackets is passed over. -/
theorem scanRaw_of_notMem {mark content written : List Char}
    (hwritten : written.map Char.toLower = '<' :: mark) (hcontent : '<' ∉ content)
    (other : List Char) :
    scanRaw ('<' :: mark) ('<' :: mark) [] (content ++ (written ++ other)) =
      some (content, written ++ other) := by
  induction content with
  | nil => exact scanRaw_of_map_eq _ hwritten (by simp) other
  | cons c content ih =>
    rw [List.mem_cons, not_or] at hcontent
    have hmatch : c.toLower ≠ '<' := fun h => hcontent.1 (eq_of_toLower_eq_bracket h).symm
    rw [List.cons_append, scanRaw, if_neg hmatch, ih hcontent.2]
    rfl

theorem takeRaw_eq_some {tag : Tag} {content : List Char}
    (htake : takeRaw tag text = some (content, rest)) :
    ∃ written after, text = content ++ (written ++ after) ∧ rest = written ++ after ∧
      written.map Char.toLower = '<' :: '/' :: tag.name.toList ∧
      ∀ content' other, content' = content ∨ '<' ∉ content' →
        takeRaw tag (content' ++ (written ++ other)) = some (content', written ++ other) := by
  obtain ⟨scanned, written, after, rfl, rfl, hscanned, hwritten, hother⟩ :=
    scanRaw_eq_some (by simp) htake
  rw [List.nil_append] at hscanned
  subst hscanned
  refine ⟨written, after, by simp, rfl, hwritten, ?_⟩
  rintro content' other (rfl | hcontent)
  · rw [← List.append_assoc]
    exact hother other
  · exact scanRaw_of_notMem hwritten hcontent other

/-- An element of raw text is read as well with another content, if that has no bracket in it, and in
front of another text. -/
theorem takeRawElement?_eq_some {opening : List Char}
    {token : Token} (hname : name.tag = .style ∨ name.tag = .script)
    (htake : takeRawElement? name opening body = some (token, rest)) :
    ∃ content ending, token = .raw ⟨name, body.attributes, opening, content⟩ ∧
      body.rest = content ++ ('<' :: ending ++ rest) ∧
      ∀ content' other, content' = content ∨ '<' ∉ content' →
        takeRawElement? name opening { body with rest := content' ++ ('<' :: ending ++ other) } =
          some (.raw ⟨name, body.attributes, opening, content'⟩, other) := by
  obtain ⟨⟨content, rest'⟩, hraw, htake⟩ := Option.bind_eq_some_iff.mp htake
  obtain ⟨⟨ending, rest''⟩, hend, htake⟩ := Option.bind_eq_some_iff.mp htake
  simp only at htake hend
  split at htake
  · rename_i htag
    simp only [Option.pure_def, Option.some.injEq, Prod.mk.injEq] at htake
    obtain ⟨rfl, rfl⟩ := htake
    obtain ⟨written, after, hbody, rfl, hwritten, hother⟩ := takeRaw_eq_some hraw
    obtain ⟨c, d, letters, rfl⟩ : ∃ c d letters, written = c :: d :: letters := by
      rcases written with _ | ⟨c, _ | ⟨d, letters⟩⟩
      · simp at hwritten
      · simp at hwritten
      · exact ⟨c, d, letters, rfl⟩
    rw [List.map_cons, List.map_cons, List.cons.injEq, List.cons.injEq] at hwritten
    obtain ⟨hbracket, -, hletters⟩ := hwritten
    obtain rfl := eq_of_toLower_eq_bracket hbracket
    obtain ⟨front, hfront, hclose, hend'⟩ := takeEndTag?_append hend
    -- The end tag goes on beyond the letters of the mark, since no name has a bracket in it.
    have hname' : '>' ∉ letters := by
      intro hmem
      have hmem' := List.mem_map_of_mem (f := Char.toLower) hmem
      rw [hletters] at hmem'
      rcases hname with hname | hname <;> rw [hname] at hmem' <;> revert hmem' <;> decide
    obtain ⟨more, rfl⟩ : ∃ more, front = letters ++ more := by
      change letters ++ after = front ++ rest'' at hfront
      rcases List.append_eq_append_iff.mp hfront with ⟨more, hmore, -⟩ | ⟨more, hmore, -⟩
      · exact ⟨more, hmore⟩
      · rw [hmore] at hname'
        exact absurd (List.mem_append_left _ hclose) hname'
    refine ⟨content, d :: (letters ++ more), rfl, ?_, fun content' other hcontent => ?_⟩
    · rw [hbody]
      simpa using hfront
    · have hraw' := hother content' (more ++ other) hcontent
      have hend'' := hend' other
      simp only [List.cons_append, List.append_assoc] at hraw' hend'' ⊢
      simp only [takeRawElement?, hraw', Option.bind_eq_bind, Option.bind_some,
        List.drop_succ_cons, List.drop_zero, hend'', if_pos htag]
      rfl
  · cases htake

theorem before_append (front rest : List Char) : before (front ++ rest) rest = front := by
  rw [before, List.length_append, Nat.add_sub_cancel, List.take_left']
  rfl

/-- The name and the inside of a start tag. -/
theorem exists_opening
    (hname : takeName? text = some (name, rest)) (hbody : takeTagBody? rest = some body) :
    ∃ c front, text = c :: front ++ '>' :: body.rest ∧
      ∀ other, (openComments body.attributes = true → StaysOpen ('>' :: body.rest) ('>' :: other)) →
        ∃ rest', takeName? (c :: front ++ '>' :: other) = some (name, rest') ∧
          takeTagBody? rest' = some { body with rest := other } := by
  obtain ⟨written, rfl, hne, hname'⟩ := takeName?_append hname
  obtain ⟨inside, rfl, hbody'⟩ := takeTagBody?_append hbody
  obtain ⟨c, written, rfl⟩ := List.exists_cons_of_ne_nil hne
  refine ⟨c, written ++ inside, by simp, fun other hopen =>
    ⟨inside ++ '>' :: other, ?_, hbody' other hopen⟩⟩
  have hname'' := hname' (inside ++ '>' :: other) (by cases inside <;> rfl)
  simpa using hname''

theorem takeStartTag?_cases {token : Token} (htake : takeStartTag? text = some (token, rest)) :
    (∃ written, token = .startTag written) ∨ ∃ written, token = .raw written := by
  obtain ⟨⟨name, rest'⟩, -, hrest⟩ := Option.bind_eq_some_iff.mp htake
  obtain ⟨body, -, hend⟩ := Option.bind_eq_some_iff.mp hrest
  split at hend
  · rename_i hraw
    split at hend
    · cases hend
    · obtain ⟨content, ending, htoken, -⟩ := takeRawElement?_eq_some hraw hend
      exact .inr ⟨_, htoken⟩
  · simp only [Option.some.injEq, Prod.mk.injEq] at hend
    exact .inl ⟨_, hend.1.symm⟩

theorem takeStartTag?_append {startTag : StartTag}
    (htake : takeStartTag? text = some (.startTag startTag, rest)) :
    ∃ c front, text = c :: front ++ rest ∧
      ∀ other, (openComments startTag.attributes = true → StaysOpen rest other) →
        takeStartTag? (c :: front ++ other) = some (.startTag startTag, other) := by
  obtain ⟨⟨name, rest'⟩, hname, hrest⟩ := Option.bind_eq_some_iff.mp htake
  obtain ⟨body, hbody, hend⟩ := Option.bind_eq_some_iff.mp hrest
  obtain ⟨c, front, rfl, hother⟩ := exists_opening hname hbody
  split at hend
  · rename_i hraw
    split at hend
    · cases hend
    · obtain ⟨content, ending, htoken, -⟩ := takeRawElement?_eq_some hraw hend
      cases htoken
  · rename_i hraw
    simp only [Option.some.injEq, Prod.mk.injEq, Token.startTag.injEq] at hend
    obtain ⟨rfl, rfl⟩ := hend
    refine ⟨c, front ++ ['>'], by simp, fun other hopen => ?_⟩
    obtain ⟨rest', hname', hbody'⟩ := hother other fun hcomment => (hopen hcomment).append ['>']
    rw [List.cons_append, List.append_assoc, List.singleton_append, ← List.cons_append]
    simp only [takeStartTag?, hname', hbody', Option.bind_eq_bind, Option.bind_some, if_neg hraw]

/-- A style or script element is read as well with another content without brackets, and in front of
another text. -/
theorem takeStartTag?_raw {written : WrittenRaw}
    (htake : takeStartTag? text = some (.raw written, rest)) :
    ∃ c front ending, written.opening = '<' :: c :: front ++ ['>'] ∧
      text = c :: front ++ '>' :: (written.content ++ ('<' :: ending ++ rest)) ∧
      ∀ content other, content = written.content ∨ '<' ∉ content →
        (openComments written.attributes = true →
          StaysOpen ('>' :: (written.content ++ ('<' :: ending ++ rest)))
            ('>' :: (content ++ ('<' :: ending ++ other)))) →
        takeStartTag? (c :: front ++ '>' :: (content ++ ('<' :: ending ++ other))) =
          some (.raw { written with content }, other) := by
  obtain ⟨⟨name, rest'⟩, hname, hrest⟩ := Option.bind_eq_some_iff.mp htake
  obtain ⟨body, hbody, hend⟩ := Option.bind_eq_some_iff.mp hrest
  obtain ⟨c, front, rfl, hother⟩ := exists_opening hname hbody
  split at hend
  · rename_i hraw
    split at hend
    · cases hend
    · rename_i hself
      have hopening (other : List Char) :
          before (c :: front ++ '>' :: other) other = c :: front ++ ['>'] := by
        rw [← before_append (c :: front ++ ['>']) other, List.append_assoc, List.singleton_append]
      rw [hopening] at hend
      obtain ⟨content, ending, htoken, hbody_rest, hcontent⟩ := takeRawElement?_eq_some hraw hend
      cases htoken
      refine ⟨c, front, ending, rfl, by rw [hbody_rest], fun content' other hnew hopen => ?_⟩
      rw [← hbody_rest] at hopen
      obtain ⟨rest', hname', hbody'⟩ := hother _ hopen
      simp only [takeStartTag?, hname', hbody', Option.bind_eq_bind, Option.bind_some, if_pos hraw,
        hself, hopening]
      exact hcontent content' other hnew
  · cases hend

end StyleMigration.Markup
