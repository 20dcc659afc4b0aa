import StyleMigration.Proofs.Sheet.Lossless

/-!
How far the cutting of a stylesheet in braces looks ahead. A statement and a comment are found by going
through their own characters, and of what comes after them at most the first character is looked at. So
they are found as well in front of another text that begins alike (`scanStatement_followedBy`,
`takeTrivia_append_of_canFollow`). A statement that ended on a semicolon or an opening brace and a block
comment that was closed do not even depend on that character.
-/

set_option autoImplicit false

namespace StyleMigration.Sheet

open Text

variable {lineComments : Bool} {other text rest : List Char}

/-- Two characters are not there if they were not there before and the second is the same. -/
theorem lookAhead_ne {c first second : Char}
    (hnot : ∀ rest, c = first → text = second :: rest → False)
    (hhead : other.head? = text.head?) (rest : List Char) (hc : c = first)
    (hother : other = second :: rest) : False := by
  rw [hother] at hhead
  cases text with
  | nil => cases hhead
  | cons d text => exact hnot text hc (by rw [Option.some.inj hhead])

/-! ### Statements -/

/-- The same statement in front of another rest. -/
def Scanned.followedBy (scanned : Scanned) (rest : List Char) : Scanned :=
  { scanned with rest }

@[simp] theorem Scanned.followedBy_cons (c : Char) (scanned : Scanned) (rest : List Char) :
    (scanned.cons c).followedBy rest = (scanned.followedBy rest).cons c :=
  rfl

/-- A semicolon that ends a statement is its last character. -/
theorem scanStatement_semicolon {lineComments : Bool} {depth : Nat} {state : StatementState}
    {text : List Char} (hended : (scanStatement lineComments depth state text).ended = .semicolon) :
    ∃ front, (scanStatement lineComments depth state text).text = front ++ [';'] := by
  fun_induction scanStatement lineComments depth state text
  case case1 | case10 | case11 => cases hended
  case case9 hend => exact ⟨[], by rw [hend.1]; rfl⟩
  case case2 ih | case16 ih =>
    obtain ⟨front, hfront⟩ := ih hended
    exact ⟨_ :: _ :: front, congrArg (_ :: _ :: ·) hfront⟩
  all_goals
    rename_i ih
    obtain ⟨front, hfront⟩ := ih hended
    exact ⟨_ :: front, congrArg (_ :: ·) hfront⟩

/-- A statement is stopped by a closing brace or by the end of the text. -/
theorem scanStatement_stop {lineComments : Bool} {depth : Nat} {state : StatementState}
    {text : List Char} (hended : (scanStatement lineComments depth state text).ended = .stop) :
    (scanStatement lineComments depth state text).rest = [] ∨
      (scanStatement lineComments depth state text).rest.head? = some '}' := by
  fun_induction scanStatement lineComments depth state text
  case case1 => exact .inl rfl
  case case9 | case10 => cases hended
  case case11 hend => exact .inr (congrArg some hend.1)
  all_goals
    rename_i ih
    exact ih hended

theorem head?_source_followedBy (lineComments : Bool) (depth : Nat) (state : StatementState)
    (text : List Char) (hother : (scanStatement lineComments depth state text).ended = .stop →
      other.head? = (scanStatement lineComments depth state text).rest.head?) :
    ((scanStatement lineComments depth state text).followedBy other).source.head? = text.head? := by
  have hsource := scanStatement_source lineComments depth state text
  have hsemicolon := @scanStatement_semicolon lineComments depth state text
  generalize scanStatement lineComments depth state text = scanned at *
  subst hsource
  refine head?_append_eq fun hempty => ?_
  obtain ⟨htext, hended⟩ := List.append_eq_nil_iff.mp hempty
  cases hcase : scanned.ended with
  | semicolon =>
    obtain ⟨front, hfront⟩ := hsemicolon hcase
    rw [show (scanned.followedBy other).text = scanned.text from rfl, hfront] at htext
    cases front <;> cases htext
  | opening =>
    rw [show (scanned.followedBy other).ended = scanned.ended from rfl, hcase] at hended
    cases hended
  | stop => exact hother hcase

/-- A statement is scanned alike in front of any other rest; where it was stopped, that rest must begin
like the first one. -/
theorem scanStatement_followedBy (lineComments : Bool) (depth : Nat) (state : StatementState)
    (text : List Char) (hother : (scanStatement lineComments depth state text).ended = .stop →
      other.head? = (scanStatement lineComments depth state text).rest.head?) :
    scanStatement lineComments depth state
        ((scanStatement lineComments depth state text).followedBy other).source =
      (scanStatement lineComments depth state text).followedBy other := by
  fun_induction scanStatement lineComments depth state text
  case case1 depth state =>
    rw [List.head?_eq_none_iff.mp (hother rfl)]
    cases state <;> rfl
  case case9 hend =>
    rw [hend.1, hend.2]
    exact scanStatement.eq_3 lineComments 0 ';' other nofun
  case case10 hend =>
    rw [hend.2]
    rfl
  case case11 hend =>
    obtain ⟨rfl, rfl⟩ := hend
    obtain ⟨rest, rfl⟩ := List.head?_eq_some_iff.mp (hother rfl)
    rfl
  case case2 ih | case13 ih | case15 ih | case16 ih =>
    simp only [Scanned.followedBy_cons, Scanned.source_cons]
    rw [scanStatement, ih hother]
  case case14 ih | case18 ih | case19 ih =>
    simp only [Scanned.followedBy_cons, Scanned.source_cons, scanStatement]
    exact congrArg _ (ih hother)
  -- In all other cases the next character is looked at, which is the same.
  all_goals
    rename_i ih
    have hhead := head?_source_followedBy lineComments _ _ _ hother
    have hrest := ih hother
    clear ih hother
    simp only [Scanned.followedBy_cons, Scanned.source_cons]
    rw [scanStatement]
    · simp_all only [if_true, if_false, and_self]
    · exact lookAhead_ne ‹_› hhead

theorem takeStatement_followedBy (hother : (takeStatement lineComments text).ended = .stop →
      other.head? = (takeStatement lineComments text).rest.head?) :
    takeStatement lineComments ((takeStatement lineComments text).followedBy other).source =
        (takeStatement lineComments text).followedBy other ∧
      ((takeStatement lineComments text).followedBy other).source.head? = text.head? :=
  ⟨scanStatement_followedBy lineComments 0 .plain text hother,
    head?_source_followedBy lineComments 0 .plain text hother⟩

/-! ### Comments -/

/-- What can follow comments in the place of a rest: a text that begins alike, and after block comments
that something followed, anything. -/
def CanFollow (lineComments : Bool) (rest other : List Char) : Prop :=
  other.head? = rest.head? ∨ lineComments = false ∧ rest ≠ []

theorem CanFollow.eq_nil
    (hother : CanFollow lineComments rest other) (hrest : rest = []) : other = [] := by
  rcases hother with hhead | ⟨-, hne⟩
  · rwa [hrest, List.head?_nil, List.head?_eq_none_iff] at hhead
  · exact absurd hrest hne

theorem CanFollow.append {lineComments : Bool} {rest other : List Char}
    (hother : CanFollow lineComments rest other) (front : List Char) :
    CanFollow lineComments (front ++ rest) (front ++ other) := by
  rcases hother with hhead | ⟨hblock, hne⟩
  · exact .inl (head?_append_eq fun _ => hhead)
  · exact .inr ⟨hblock, List.append_ne_nil_of_right_ne_nil _ hne⟩

theorem takeComment?_append_of_canFollow {comment : List Char}
    (htaken : takeComment? lineComments text = some (comment, rest))
    (hother : CanFollow lineComments rest other) :
    takeComment? lineComments (comment ++ other) = some (comment, other) := by
  revert htaken
  fun_cases takeComment? lineComments text with
  | case1 text body rest' hbody =>
    intro htaken
    obtain ⟨rfl, rfl⟩ := Prod.mk.inj (Option.some.inj htaken)
    simp only [List.cons_append, takeComment?, takeBlockComment_exchange hbody hother.eq_nil]
  | case2 text hline =>
    intro htaken
    obtain ⟨rfl, rfl⟩ := Prod.mk.inj (Option.some.inj htaken)
    have hstop : ∀ c ∈ other.head?, (c != '\n') = false := by
      rcases hother with hhead | ⟨hblock, -⟩
      · rw [hhead]
        exact eq_false_of_head?_dropWhile
      · rw [hline] at hblock
        cases hblock
    have hbody : ∀ c ∈ text.takeWhile (· != '\n'), (c != '\n') = true :=
      List.all_eq_true.mp List.all_takeWhile
    have hspan := span_append hbody hstop
    rw [List.cons_append, List.cons_append, takeComment?, if_pos hline, hspan.1, hspan.2]
  | case3 | case4 => nofun

theorem takeComment?_head? {comment : List Char}
    (htaken : takeComment? lineComments text = some (comment, rest)) :
    comment.head? = some '/' := by
  revert htaken
  fun_cases takeComment? lineComments text with
  | case1 | case2 => exact fun htaken => (Prod.mk.inj (Option.some.inj htaken)).1 ▸ rfl
  | case3 | case4 => nofun

theorem length_lt_of_takeComment? {comment after : List Char}
    (htaken : takeComment? lineComments (text.dropWhile isAsciiBlank) = some (comment, after)) :
    after.length < text.length :=
  Nat.lt_of_lt_of_le (takeComment?_append htaken).2 (List.dropWhile_sublist _).length_le

/-- Whether a comment comes first is a matter of two characters. -/
theorem takeComment?_eq_none_iff :
    takeComment? lineComments text = none ↔
      text.take 2 ≠ ['/', '*'] ∧ (lineComments = true → text.take 2 ≠ ['/', '/']) := by
  fun_cases takeComment? lineComments text with
  | case1 => simp
  | case2 text hline => simp [hline]
  | case3 text hline => simp [hline]
  | case4 text hblock hline =>
    match text with
    | [] | [_] => simp
    | first :: second :: text =>
      refine ⟨fun _ => ⟨fun htwo => ?_, fun _ htwo => ?_⟩, fun _ => rfl⟩
      · cases htwo
        exact hblock text rfl
      · cases htwo
        exact hline text rfl

/-- No comment comes first where a statement is followed by another rest. -/
theorem takeComment?_followedBy (hnone : takeComment? lineComments text = none)
    (hother : (takeStatement lineComments text).ended = .stop →
      other.head? = (takeStatement lineComments text).rest.head?) :
    takeComment? lineComments ((takeStatement lineComments text).followedBy other).source = none := by
  have hsource := scanStatement_source lineComments 0 .plain text
  have hsemicolon := @scanStatement_semicolon lineComments 0 .plain text
  have hstop := @scanStatement_stop lineComments 0 .plain text
  rw [takeComment?_eq_none_iff] at hnone ⊢
  simp only [takeStatement] at hother ⊢
  generalize scanStatement lineComments 0 .plain text = scanned at *
  rw [← hsource] at hnone
  obtain ⟨content, ended, rest⟩ := scanned
  match content, ended with
  | first :: second :: content, _ => simpa [Scanned.source, Scanned.followedBy] using hnone
  | [first], .opening => simp [Scanned.source, Scanned.followedBy, Terminator.text]
  | [], .opening => cases other <;> simp [Scanned.source, Scanned.followedBy, Terminator.text]
  | [first], .semicolon =>
    obtain ⟨front, hfront⟩ := hsemicolon rfl
    cases front with
    | nil =>
      cases hfront
      cases other <;> simp [Scanned.source, Scanned.followedBy, Terminator.text]
    | cons c front => cases front <;> cases hfront
  | [], .semicolon =>
    obtain ⟨front, hfront⟩ := hsemicolon rfl
    cases front <;> cases hfront
  | [first], .stop =>
    have hhead := hother rfl
    cases other <;> cases rest <;> cases hhead
    · simp [Scanned.source, Scanned.followedBy, Terminator.text]
    · simpa [Scanned.source, Scanned.followedBy, Terminator.text] using hnone
  | [], .stop =>
    have hhead := hother rfl
    rcases hstop rfl with rfl | hbrace
    · rw [List.head?_eq_none_iff.mp hhead]
      simp [Scanned.source, Scanned.followedBy, Terminator.text]
    · obtain ⟨tail, rfl⟩ := List.head?_eq_some_iff.mp (hhead.trans hbrace)
      cases tail <;> simp [Scanned.source, Scanned.followedBy, Terminator.text]

/-- Blanks and a rest that begins neither with a blank nor with a comment. -/
structure IsLead (lineComments : Bool) (blanks rest : List Char) : Prop where
  blank : ∀ c ∈ blanks, isAsciiBlank c = true
  unblank : ∀ c ∈ rest.head?, isAsciiBlank c = false
  uncommented : takeComment? lineComments rest = none

theorem IsLead.takeTrivia_eq {blanks : List Char} (hlead : IsLead lineComments blanks rest) :
    takeTrivia lineComments (blanks ++ rest) = ([], blanks, rest) := by
  have hspan := span_append hlead.blank hlead.unblank
  rw [takeTrivia, hspan.1, hspan.2, hlead.uncommented]

/-- The same with another rest after the statement. -/
theorem IsLead.followedBy {blanks : List Char} (hlead : IsLead lineComments blanks rest)
    (hother : (takeStatement lineComments rest).ended = .stop →
      other.head? = (takeStatement lineComments rest).rest.head?) :
    IsLead lineComments blanks ((takeStatement lineComments rest).followedBy other).source := by
  refine ⟨hlead.blank, ?_, takeComment?_followedBy hlead.uncommented hother⟩
  rw [(takeStatement_followedBy hother).2]
  exact hlead.unblank

/-- The blanks after the comments and the rest are such. -/
theorem isLead_takeTrivia (lineComments : Bool) (text : List Char) :
    IsLead lineComments (takeTrivia lineComments text).2.1 (takeTrivia lineComments text).2.2 := by
  fun_induction takeTrivia lineComments text with
  | case1 text blanks rest hnone =>
    exact ⟨List.all_eq_true.mp List.all_takeWhile, eq_false_of_head?_dropWhile, hnone⟩
  | case2 text blanks rest comment after hcomment _ comments blanksAfter rest' htrivia ih =>
    rw [htrivia] at ih
    exact ih
  | case3 text blanks rest comment after hcomment hlong =>
    exact absurd (length_lt_of_takeComment? hcomment) hlong

/-- Comments are taken alike in front of every text that can follow them, and those of that text come
after them. -/
theorem takeTrivia_append_of_canFollow (hother : CanFollow lineComments
      ((takeTrivia lineComments text).2.1 ++ (takeTrivia lineComments text).2.2) other) :
    takeTrivia lineComments ((takeTrivia lineComments text).1 ++ other) =
      ((takeTrivia lineComments text).1 ++ (takeTrivia lineComments other).1,
        (takeTrivia lineComments other).2) := by
  fun_induction takeTrivia lineComments text with
  | case1 text blanks rest hnone => rfl
  | case2 text blanks rest comment after hcomment _ comments blanksAfter rest' htrivia ih =>
    have hafter := takeTrivia_append lineComments after
    rw [htrivia, List.append_assoc] at hafter
    have hfollow : CanFollow lineComments after (comments ++ other) :=
      hafter ▸ CanFollow.append hother comments
    have hslash := takeComment?_head? hcomment
    have hspan : ((blanks ++ (comment ++ (comments ++ other))).takeWhile isAsciiBlank = blanks ∧
        (blanks ++ (comment ++ (comments ++ other))).dropWhile isAsciiBlank =
          comment ++ (comments ++ other)) := by
      refine span_append (List.all_eq_true.mp List.all_takeWhile) ?_
      cases comment with
      | nil => cases hslash
      | cons c comment =>
        cases hslash
        rintro c hc
        cases hc
        rfl
    have htaken := takeComment?_append_of_canFollow hcomment hfollow
    have hshorter := length_lt_of_takeComment? (hspan.2 ▸ htaken)
    rw [List.append_assoc, List.append_assoc, takeTrivia, hspan.1, hspan.2]
    simp only [htaken, hshorter]
    rw [htrivia] at ih
    simp [ih hother]
  | case3 text blanks rest comment after hcomment hlong => rfl

end StyleMigration.Sheet
