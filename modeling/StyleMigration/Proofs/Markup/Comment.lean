import StyleMigration.Markup.Token
import StyleMigration.Text.Blank

/-!
Comments in markup and the gaps between the parts of a tag. A comment that has its end is passed over
whatever follows it (`afterComment?_eq_some`, `exists_pastGap_cons`). Whether one has no end depends on
the whole text that follows (`StaysOpen`), and a text without the sign that ends comments does not end
one by itself (`afterCommentEnd?_eq_none`).
-/

set_option autoImplicit false

namespace StyleMigration.Markup

open Text

variable {text rest : List Char}

/-! ### Comments -/

/-- A comment that was closed is closed by its own characters. -/
theorem afterCommentEnd?_eq_some {dashes : Nat} (hend : afterCommentEnd? dashes text = some rest) :
    ∃ front, text = front ++ rest ∧ front ≠ [] ∧
      ∀ other, afterCommentEnd? dashes (front ++ other) = some other := by
  induction text generalizing dashes with
  | nil => cases hend
  | cons c text ih =>
    rw [afterCommentEnd?] at hend
    by_cases hclose : c = '>' ∧ 2 ≤ dashes
    · rw [if_pos hclose, Option.some.injEq] at hend
      subst hend
      exact ⟨[c], rfl, by simp, fun other => by simp [afterCommentEnd?, hclose]⟩
    · rw [if_neg hclose] at hend
      obtain ⟨front, rfl, -, hother⟩ := ih hend
      refine ⟨c :: front, rfl, by simp, fun other => ?_⟩
      rw [List.cons_append, afterCommentEnd?, if_neg hclose, hother]

/-- The dashes at the end of a text, counted on from some that stand before it. -/
def dashesAfter : Nat → List Char → Nat
  | dashes, [] => dashes
  | dashes, c :: text => dashesAfter (if c = '-' then dashes + 1 else 0) text

theorem afterCommentEnd?_append_eq_none_iff {dashes : Nat} {front back : List Char} :
    afterCommentEnd? dashes (front ++ back) = none ↔
      afterCommentEnd? dashes front = none ∧
        afterCommentEnd? (dashesAfter dashes front) back = none := by
  induction front generalizing dashes with
  | nil => simp [afterCommentEnd?, dashesAfter]
  | cons c front ih =>
    rw [List.cons_append, afterCommentEnd?, afterCommentEnd?, dashesAfter]
    by_cases hclose : c = '>' ∧ 2 ≤ dashes
    · simp [hclose]
    · rw [if_neg hclose, if_neg hclose, ih]

/-- Where a comment is closed, the sign for that stands before, or it is made up with dashes that were
read before. -/
theorem suffix_of_afterCommentEnd? {dashes : Nat}
    (hend : afterCommentEnd? dashes text = some rest) :
    ∃ front, text = front ++ rest ∧
      ['-', '-', '>'] <:+ List.replicate dashes '-' ++ front := by
  induction text generalizing dashes with
  | nil => cases hend
  | cons c text ih =>
    rw [afterCommentEnd?] at hend
    by_cases hclose : c = '>' ∧ 2 ≤ dashes
    · rw [if_pos hclose, Option.some.injEq] at hend
      obtain ⟨rfl, hdashes⟩ := hclose
      refine ⟨['>'], by rw [hend]; rfl, List.replicate (dashes - 2) '-', ?_⟩
      obtain ⟨more, rfl⟩ : ∃ more, dashes = more + 2 := ⟨dashes - 2, by omega⟩
      rw [Nat.add_sub_cancel, ← List.replicate_append_replicate, List.append_assoc]
      rfl
    · rw [if_neg hclose] at hend
      obtain ⟨front, rfl, hsuffix⟩ := ih hend
      refine ⟨c :: front, rfl, ?_⟩
      by_cases hdash : c = '-'
      · subst hdash
        rwa [if_pos rfl, List.replicate_succ', List.append_assoc] at hsuffix
      · rw [if_neg hdash, List.replicate_zero, List.nil_append] at hsuffix
        exact hsuffix.trans ⟨List.replicate dashes '-' ++ [c], by simp⟩

/-- A text without the sign that closes a comment closes none. -/
theorem afterCommentEnd?_eq_none (hclean : ¬ ['-', '-', '>'] <:+: text) :
    afterCommentEnd? 0 text = none := by
  cases hend : afterCommentEnd? 0 text with
  | none => rfl
  | some rest =>
    obtain ⟨front, rfl, hsuffix⟩ := suffix_of_afterCommentEnd? hend
    rw [List.replicate_zero, List.nil_append] at hsuffix
    exact absurd (hsuffix.isInfix.trans (List.prefix_append front rest).isInfix) hclean

/-- A comment that is not closed in one text is not closed in another one either. -/
def StaysOpen (rest other : List Char) : Prop :=
  ∀ dashes, afterCommentEnd? dashes rest = none → afterCommentEnd? dashes other = none

theorem StaysOpen.append {rest other : List Char} (hopen : StaysOpen rest other)
    (front : List Char) : StaysOpen (front ++ rest) (front ++ other) := by
  intro dashes hnone
  rw [afterCommentEnd?_append_eq_none_iff] at hnone ⊢
  exact ⟨hnone.1, hopen _ hnone.2⟩

/-- A text without the sign that ends comments, between two brackets, leaves comments open. -/
theorem StaysOpen.exchange {other content : List Char} (hopen : StaysOpen rest other)
    (hclean : ¬ ['-', '-', '>'] <:+: text) :
    StaysOpen ('>' :: (content ++ '<' :: rest)) ('>' :: (text ++ '<' :: other)) := by
  have hreset (dashes : Nat) (text : List Char) :
      afterCommentEnd? dashes ('<' :: text) = afterCommentEnd? 0 text :=
    rfl
  intro dashes hnone
  rw [afterCommentEnd?] at hnone ⊢
  split at hnone
  · cases hnone
  · rename_i hdashes
    rw [if_neg (by decide), afterCommentEnd?_append_eq_none_iff, hreset] at hnone
    rw [if_neg hdashes, if_neg (by decide), afterCommentEnd?_append_eq_none_iff, hreset]
    exact ⟨afterCommentEnd?_eq_none hclean, hopen 0 hnone.2⟩

theorem afterComment?_eq_some (hcomment : afterComment? text = some rest) :
    ∃ front, text = '<' :: front ++ rest ∧
      ∀ other, afterComment? ('<' :: front ++ other) = some other := by
  unfold afterComment? at hcomment
  split at hcomment
  · obtain ⟨front, rfl, -, hother⟩ := afterCommentEnd?_eq_some hcomment
    exact ⟨'!' :: '-' :: '-' :: front, rfl, hother⟩
  · cases hcomment

theorem afterComment?_of_ne {c : Char} (hc : c ≠ '<') (text : List Char) :
    afterComment? (c :: text) = none := by
  unfold afterComment?
  split
  · rename_i heq
    exact absurd (List.cons.inj heq).1 hc
  · rfl

/-! ### Gaps -/

/-- What is passed over is passed over as well in front of any text that starts with no comment. -/
theorem exists_pastComments (text : List Char) :
    ∃ front, text = front ++ pastComments text ∧
      afterComment? ((pastComments text).dropWhile isSpace) = none ∧
      ∀ other, afterComment? (other.dropWhile isSpace) = none →
        pastComments (front ++ other) = other := by
  induction hlength : text.length using Nat.strongRecOn generalizing text with
  | ind length ih =>
    cases hcomment : afterComment? (text.dropWhile isSpace) with
    | none =>
      have hself {other : List Char} (hother : afterComment? (other.dropWhile isSpace) = none) :
          pastComments other = other := by
        rw [pastComments, hother]
      rw [hself hcomment]
      exact ⟨[], rfl, hcomment, fun other => hself⟩
    | some rest =>
      obtain ⟨comment, htext, hsame⟩ := afterComment?_eq_some hcomment
      have hspaces := List.takeWhile_append_dropWhile (p := isSpace) (l := text)
      rw [htext] at hspaces
      generalize hblanks : text.takeWhile isSpace = blanks at hspaces
      have hblank : ∀ c ∈ blanks, isSpace c = true := by
        rw [← hblanks]
        exact List.all_eq_true.mp List.all_takeWhile
      have hstep (rest' : List Char) :
          pastComments (blanks ++ ('<' :: comment ++ rest')) = pastComments rest' := by
        rw [pastComments, List.dropWhile_append_of_pos hblank]
        have hdrop : ('<' :: comment ++ rest').dropWhile isSpace = '<' :: comment ++ rest' := rfl
        rw [hdrop, hsame]
        exact dif_pos (by simp; omega)
      have hshort : rest.length < length := by
        rw [← hlength, ← hspaces]
        simp
        omega
      obtain ⟨front, hrest, hnone, hother⟩ := ih rest.length hshort rest rfl
      rw [← hspaces, hstep]
      refine ⟨blanks ++ '<' :: comment ++ front, ?_, hnone, fun other hnone' => ?_⟩
      · simp only [List.append_assoc, List.cons_append]
        rw [← hrest]
      · calc pastComments (blanks ++ '<' :: comment ++ front ++ other)
          _ = pastComments (blanks ++ ('<' :: comment ++ (front ++ other))) := by simp
          _ = pastComments (front ++ other) := hstep _
          _ = other := hother other hnone'

/-- What stands in a gap is passed over as well in front of any text that starts with neither space nor
a comment. -/
theorem exists_pastGap (text : List Char) :
    ∃ front, text = front ++ pastGap text ∧
      ∀ other, (∀ c ∈ other.head?, isSpace c = false) → afterComment? other = none →
        pastGap (front ++ other) = other := by
  obtain ⟨front, htext, -, hpast⟩ := exists_pastComments text
  have hspaces := List.takeWhile_append_dropWhile (p := isSpace) (l := pastComments text)
  refine ⟨front ++ (pastComments text).takeWhile isSpace, ?_, fun other hhead hnone => ?_⟩
  · rw [List.append_assoc, pastGap, hspaces, ← htext]
  · have hdrop := (span_append (List.all_eq_true.mp (List.all_takeWhile (p := isSpace)
      (l := pastComments text))) hhead).2
    rw [pastGap, List.append_assoc, hpast _ (by rwa [hdrop]), hdrop]

theorem isSpace_of_pastGap {c : Char} (hgap : pastGap text = c :: rest) :
    isSpace c = false := by
  rw [pastGap] at hgap
  refine @eq_false_of_head?_dropWhile isSpace (pastComments text) c ?_
  rw [hgap]
  rfl

/-- The first character after a gap, if it is no bracket, is found there whatever follows it. -/
theorem exists_pastGap_cons {c : Char} (hgap : pastGap text = c :: rest) (hc : c ≠ '<') :
    ∃ front, text = front ++ c :: rest ∧ ∀ other, pastGap (front ++ c :: other) = c :: other := by
  obtain ⟨front, htext, hother⟩ := exists_pastGap text
  rw [hgap] at htext
  refine ⟨front, htext, fun other => hother _ ?_ (afterComment?_of_ne hc other)⟩
  intro d hd
  rw [List.head?_cons, Option.mem_some_iff] at hd
  exact hd ▸ isSpace_of_pastGap hgap

end StyleMigration.Markup
