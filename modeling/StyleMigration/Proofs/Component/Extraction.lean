import StyleMigration.Proofs.Markup.Levels
import StyleMigration.Proofs.Markup.Locality

/-!
The sections of a component without faults. Each style element with content that is met on the outer
level while the tokens are gone through is a section, and its content stands between its start tag and
its end tag (`sectionsFrom`). Reading such a component gives these sections (`sections_eq_sectionsFrom`).
-/

set_option autoImplicit false

namespace StyleMigration.Component

open Markup Text

/-- The style element with content on the outer level that a token is. -/
def filledStyle? (opened : List Tag) (token : Token) : Option WrittenRaw :=
  (outerStyle? opened token).filter fun written => !written.content.isEmpty

/-- The section of a style element that starts at a byte. -/
def sectionAt (offset index : Nat) (written : WrittenRaw) : Section :=
  let start := offset + byteLength written.opening
  ⟨written.content, distinct written.attributes, start, start + byteLength written.content, index⟩

/-- The sections among some tokens, of which the first starts at the byte `offset`, counted from `index`
on. -/
def sectionsFrom (opened : List Tag) (offset index : Nat) : List (Token × List Char) → List Section
  | [] => []
  | (token, piece) :: tokens =>
    let opened' := (openedAfter? opened token).getD opened
    match filledStyle? opened token with
    | none => sectionsFrom opened' (offset + byteLength piece) index tokens
    | some written =>
      sectionAt offset index written ::
        sectionsFrom opened' (offset + byteLength piece) (index + 1) tokens

theorem eq_raw_of_outerStyle? {opened : List Tag} {token : Token} {written : WrittenRaw}
    (houter : outerStyle? opened token = some written) : token = .raw written := by
  cases token with
  | raw element =>
    rw [outerStyle?] at houter
    split at houter
    · cases houter
      rfl
    · cases houter
  | _ => cases houter

theorem start_lt_stop {opened : List Tag} {offset index : Nat} {tokens : List (Token × List Char)} :
    ∀ sec ∈ sectionsFrom opened offset index tokens, sec.start < sec.stop := by
  induction tokens generalizing opened offset index with
  | nil => simp [sectionsFrom]
  | cons token tokens ih =>
    rw [sectionsFrom]
    cases hfilled : filledStyle? opened token.1 with
    | none => exact ih
    | some written =>
      refine List.forall_mem_cons.mpr ⟨?_, ih⟩
      obtain ⟨c, content, hcontent⟩ := List.exists_cons_of_ne_nil
        (show written.content ≠ [] by simpa using (Option.filter_eq_some_iff.mp hfilled).2)
      have hpositive := c.utf8Size_pos
      simp only [sectionAt, hcontent, byteLength]
      omega

/-- The content of a style or script element stands between its start tag and its end tag. -/
theorem exists_ending {text piece : List Char} {written : WrittenRaw}
    {tokens : List (Token × List Char)}
    (htokens : tokens? text = some ((.raw written, piece) :: tokens)) :
    ∃ tag ending, written.opening = tag ++ ['>'] ∧
      piece = written.opening ++ (written.content ++ '<' :: ending) := by
  obtain ⟨c, front, rest, rfl, -, htake, -⟩ := tokens?_eq_some_cons htokens
  obtain ⟨tag, ending, hopening, hfront, -⟩ := takeToken?_raw htake
  have hpiece : front = tag ++ '>' :: (written.content ++ '<' :: ending) :=
    List.append_cancel_right (hfront.trans (by simp))
  refine ⟨c :: tag, ending, hopening, ?_⟩
  rw [hopening, hpiece]
  simp

theorem sectionOf_rawElement (front back : List Char) (written : WrittenRaw) (index : Nat) :
    sectionOf (front ++ (written.opening ++ (written.content ++ back))) index
        (.raw (Builder.rawElement (byteLength front) written)) =
      .ok (if written.content.isEmpty then none
        else some (sectionAt (byteLength front) index written)) := by
  have hslice := slice_append (front ++ written.opening) written.content back
  simp only [byteLength_append, List.append_assoc, ← Nat.add_assoc] at hslice
  simp only [Builder.rawElement]
  split
  · rfl
  · simp only [sectionOf, hslice, sectionAt]

/-- The sections that the style elements on the outer level make. -/
theorem sectionsOf_stylesFrom {front text : List Char} {tokens : List (Token × List Char)}
    (htokens : tokens? text = some tokens) (opened : List Tag) (index : Nat) :
    sectionsOf (front ++ text) index (stylesFrom opened (byteLength front) tokens) =
      .ok (sectionsFrom opened (byteLength front) index tokens) := by
  induction tokens generalizing front text opened index with
  | nil => rfl
  | cons first tokens ih =>
    obtain ⟨token, piece⟩ := first
    obtain ⟨c, piece', rest, hpiece, rfl, -, hrest⟩ := tokens?_eq_some_cons htokens
    have htext : front ++ c :: (piece' ++ rest) = front ++ piece ++ rest := by simp [hpiece]
    have htail := fun index => @ih (front ++ piece) rest hrest
      ((openedAfter? opened token).getD opened) index
    rw [byteLength_append] at htail
    rw [stylesFrom, sectionsFrom, filledStyle?]
    cases houter : outerStyle? opened token with
    | none =>
      rw [htext]
      exact htail index
    | some written =>
      obtain rfl := eq_raw_of_outerStyle? houter
      obtain ⟨_, ending, _, hending⟩ := exists_ending htokens
      have hwritten : front ++ c :: (piece' ++ rest) =
          front ++ (written.opening ++ (written.content ++ ('<' :: ending ++ rest))) := by
        rw [htext, hending]
        simp
      have hsection := sectionOf_rawElement front ('<' :: ending ++ rest) written index
      rw [← hwritten] at hsection
      simp only [Option.map_some, Option.toList_some, List.singleton_append, sectionsOf, hsection]
      cases hcontent : written.content.isEmpty with
      | true =>
        simp only [Option.filter_some, hcontent, Bool.not_true, Bool.false_eq_true, if_false, if_true]
        rw [htext]
        exact htail index
      | false =>
        simp only [Option.filter_some, hcontent, Bool.not_false, Bool.false_eq_true, if_false, if_true]
        rw [htext, htail (index + 1)]
        rfl

/-- A component without faults has the sections that are found by going through its tokens. -/
theorem sections_eq_sectionsFrom {source : List Char} {tokens : List (Token × List Char)}
    (htokens : tokens? source = some tokens) (hclosed : areClosed tokens) (hnull : '\x00' ∉ source)
    (path : String) : sections path source = .ok (sectionsFrom [] 0 0 tokens) := by
  have hread := map_filter_readWellformed?_eq_some_iff.mpr ⟨hnull, tokens, htokens, hclosed, rfl⟩
  obtain ⟨nodes, hnodes, hstyles⟩ := Option.map_eq_some_iff.mp hread
  have hsections := @sectionsOf_stylesFrom [] source tokens htokens [] 0
  rw [List.nil_append, byteLength] at hsections
  simp only [sections, sectionsBy, Query.select, Markup.read, hnodes, hstyles, hsections]
  rfl

theorem exists_tokens {source : List Char} {nodes : List Node}
    (hread : readWellformed? source = some nodes) :
    '\x00' ∉ source ∧ ∃ tokens, tokens? source = some tokens ∧ areClosed tokens := by
  have hstyles := congrArg (Option.map (·.filter (isRaw .style))) hread
  obtain ⟨hnull, tokens, htokens, hclosed, -⟩ := map_filter_readWellformed?_eq_some_iff.mp hstyles
  exact ⟨hnull, tokens, htokens, hclosed⟩

end StyleMigration.Component
