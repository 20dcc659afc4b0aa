import StyleMigration.Proofs.Markup.StartTag

/-!
How far the tokens of markup look ahead. A token is found by going through its own characters, and of
what comes after it at most the first character is looked at. There is one exception. Where a quoted
value or a declaration starts with a sign that could open a comment, the end of that comment is looked
for in the whole text, and the sign is taken as it stands only if there is none. So a token is found as
well in front of another text that begins alike, if no such comment gets its end there
(`takeToken?_append`).
-/

set_option autoImplicit false

namespace StyleMigration.Markup

open Text

variable {text rest : List Char} {c : Char} {token : Token}

/-! ### Other tokens -/

theorem pastGap_of_ne (hspace : isSpace c = false) (hc : c ≠ '<') (text : List Char) :
    pastGap (c :: text) = c :: text := by
  have hdrop : (c :: text).dropWhile isSpace = c :: text :=
    List.dropWhile_cons_of_neg (by simp [hspace])
  rw [pastGap, pastComments, hdrop, afterComment?_of_ne hc]
  exact hdrop

theorem takeDeclaration?_append (htake : takeDeclaration? text = some (token, rest)) :
    ∃ c front content, token = .doctype content ∧ text = c :: front ++ rest ∧ c ≠ '-' ∧
      ∀ other, (opensComment content = true → StaysOpen rest other) →
        takeDeclaration? (c :: front ++ other) = some (token, other) := by
  unfold takeDeclaration? at htake
  simp only at htake
  split at htake
  · cases htake
  rename_i hword
  split at htake
  · rename_i d written e rest' htaken hdropped
    simp only [Option.some.injEq, Prod.mk.injEq] at htake
    obtain ⟨rfl, rfl⟩ := htake
    -- The word has its seven letters, and the first of them starts no comment.
    rw [Decidable.not_not] at hword
    have hletters : ((pastGap text).take 7).map Char.toLower = "doctype".toList := by
      rw [← hword, String.toList_ofList]
    have hlength : ((pastGap text).take 7).length = 7 := by
      rw [← List.length_map Char.toLower, hletters]
      rfl
    obtain ⟨letter, word, hseven⟩ : ∃ letter word, (pastGap text).take 7 = letter :: word :=
      List.exists_cons_of_ne_nil (by rintro hnil; rw [hnil] at hlength; cases hlength)
    have hnamed := List.take_append_drop 7 (pastGap text)
    rw [hseven] at hnamed hlength hword
    have hletter : letter ≠ '<' ∧ letter ≠ '-' := by
      constructor <;> rintro rfl <;> rw [hseven] at hletters <;> simp at hletters
    rw [List.cons_append] at hnamed
    obtain ⟨gap, htext, hpast⟩ := exists_pastGap_cons hnamed.symm hletter.1
    obtain ⟨comments, htail, hother⟩ := exists_marked (by decide) (by decide) hdropped
    rw [htaken] at htail hother
    have hdash : ∀ more, text ≠ '-' :: more := by
      rintro more rfl
      rw [pastGap_of_ne (by decide) (by decide), List.cons.injEq] at hnamed
      exact hletter.2 hnamed.1
    have hsplit : text =
        gap ++ letter :: word ++ comments ++ d :: written ++ ['>'] ++ rest' := by
      rw [htext]
      simp only [List.append_assoc, List.cons_append, List.nil_append, htail]
    obtain ⟨c, front, hfront⟩ : ∃ c front,
        gap ++ letter :: word ++ comments ++ d :: written ++ ['>'] = c :: front :=
      List.exists_cons_of_ne_nil (by simp)
    rw [hfront] at hsplit
    refine ⟨c, front, d :: written, rfl, hsplit, ?_, fun other hopen => ?_⟩
    · rintro rfl
      exact hdash _ hsplit
    · obtain ⟨marked, hmarked, hvalue, hafter⟩ := hother other hopen
      have hjoin : c :: front ++ other =
          gap ++ letter :: (word ++ (comments ++ (d :: written ++ '>' :: other))) := by
        rw [← hfront]
        simp
      have hcut (tail : List Char) : (letter :: (word ++ tail)).take 7 = letter :: word ∧
          (letter :: (word ++ tail)).drop 7 = tail := by
        rw [← List.cons_append]
        exact ⟨List.take_left' hlength, List.drop_left' hlength⟩
      rw [hjoin]
      simp only [takeDeclaration?, hpast, hcut, hword, hmarked, hvalue, hafter, ne_eq, not_true,
        if_false]
  · cases htake

/-- The characters of a class at the front of a text, at most so many, in front of a text that begins
alike. -/
theorem takeWhile_take_append {p : Char → Bool} {limit : Nat} {run other : List Char}
    (hrun : ((run ++ rest).take limit).takeWhile p = run) (hhead : other.head? = rest.head?) :
    ((run ++ other).take limit).takeWhile p = run := by
  have hlength : run.length ≤ limit := by
    have hle := congrArg List.length hrun
    have hshort := (List.takeWhile_prefix p (l := (run ++ rest).take limit)).length_le
    rw [hle, List.length_take] at hshort
    omega
  have hclass : ∀ c ∈ run, p c = true := by
    rw [← hrun]
    exact List.all_eq_true.mp List.all_takeWhile
  rw [List.take_append, List.take_of_length_le hlength, List.takeWhile_append_of_pos hclass]
    at hrun ⊢
  rw [List.append_right_eq_self] at hrun ⊢
  generalize limit - run.length = more at hrun ⊢
  cases more with
  | zero => rw [List.take_zero, List.takeWhile_nil]
  | succ more =>
    cases other with
    | nil => rfl
    | cons c other =>
      cases rest with
      | nil => cases hhead
      | cons d rest =>
        obtain rfl := Option.some.inj hhead
        rw [List.take_succ_cons] at hrun ⊢
        cases hc : p c with
        | false => exact List.takeWhile_cons_of_neg (by simp [hc])
        | true => simp [hc] at hrun

theorem afterRun?_append {limit : Nat} {isIn : Char → Bool}
    (htake : afterRun? limit isIn text = some rest) :
    ∃ c run, text = c :: run ++ rest ∧ isIn c = true ∧
      ∀ other, other.head? = rest.head? → afterRun? limit isIn (c :: run ++ other) = some other := by
  unfold afterRun? at htake
  simp only at htake
  split at htake
  · cases htake
  rename_i hsome
  rw [Option.some.injEq] at htake
  obtain ⟨tail, htext⟩ := (List.takeWhile_prefix isIn).trans (List.take_prefix limit text)
  generalize hrun : (text.take limit).takeWhile isIn = run at htake hsome htext
  have hclass : ∀ c ∈ run, isIn c = true := by
    rw [← hrun]
    exact List.all_eq_true.mp List.all_takeWhile
  subst htext
  rw [List.drop_left] at htake
  subst htake
  cases run with
  | nil => exact absurd rfl hsome
  | cons c run =>
    refine ⟨c, run, rfl, hclass c List.mem_cons_self, fun other hhead => ?_⟩
    simp only [afterRun?, takeWhile_take_append hrun hhead, if_neg hsome, List.drop_left]

theorem afterSemicolon_append (text : List Char) :
    ∃ front, text = front ++ afterSemicolon text ∧
      ∀ other, other.head? = (afterSemicolon text).head? →
        afterSemicolon (front ++ other) = other ∧ (front ++ other).head? = text.head? := by
  unfold afterSemicolon
  split
  · rename_i text
    exact ⟨[';'], rfl, fun other _ => ⟨rfl, rfl⟩⟩
  · rename_i hnone
    refine ⟨[], rfl, fun other hhead => ⟨?_, hhead⟩⟩
    rw [List.nil_append]
    split
    · cases text with
      | nil => cases hhead
      | cons c text =>
        obtain rfl := Option.some.inj hhead
        exact absurd rfl (hnone text)
    · rfl

/-- The name or number of an entity, by the class of characters that it is made of. -/
theorem afterRun?_afterSemicolon {limit : Nat} {isIn : Char → Bool}
    (htake : (afterRun? limit isIn text).map afterSemicolon = some rest) :
    ∃ c front, text = c :: front ++ rest ∧ isIn c = true ∧
      ∀ other, other.head? = rest.head? →
        (afterRun? limit isIn (c :: front ++ other)).map afterSemicolon = some other := by
  obtain ⟨rest', hrun, rfl⟩ := Option.map_eq_some_iff.mp htake
  obtain ⟨c, run, rfl, hc, hother⟩ := afterRun?_append hrun
  obtain ⟨sign, hrest, hsign⟩ := afterSemicolon_append rest'
  refine ⟨c, run ++ sign, by rw [← List.cons_append, List.append_assoc, ← hrest], hc,
    fun other hhead => ?_⟩
  obtain ⟨hafter, hhead'⟩ := hsign other hhead
  rw [← List.cons_append, List.append_assoc, hother _ hhead', Option.map_some, hafter]

theorem afterEntity?_append (htake : afterEntity? text = some rest) :
    ∃ front, text = front ++ rest ∧
      ∀ other, other.head? = rest.head? → afterEntity? (front ++ other) = some other := by
  unfold afterEntity? at htake
  split at htake
  · rename_i digits
    obtain ⟨c, front, rfl, -, hother⟩ := afterRun?_afterSemicolon htake
    exact ⟨'#' :: 'x' :: c :: front, rfl, hother⟩
  · rename_i digits
    obtain ⟨c, front, rfl, -, hother⟩ := afterRun?_afterSemicolon htake
    exact ⟨'#' :: 'X' :: c :: front, rfl, hother⟩
  · rename_i digits hx hX
    obtain ⟨c, front, rfl, hc, hother⟩ := afterRun?_afterSemicolon htake
    have hletter : c ≠ 'x' ∧ c ≠ 'X' := by
      constructor <;> rintro rfl <;> cases hc
    refine ⟨'#' :: c :: front, rfl, fun other hhead => ?_⟩
    rw [← hother other hhead, List.cons_append]
    unfold afterEntity?
    split <;> simp_all
  · rename_i hx hX hnumber
    obtain ⟨c, front, rfl, hc, hother⟩ := afterRun?_afterSemicolon htake
    have hnumber : c ≠ '#' := by
      rintro rfl
      cases hc
    refine ⟨c :: front, rfl, fun other hhead => ?_⟩
    rw [← hother other hhead, List.cons_append]
    unfold afterEntity?
    split <;> simp_all

/-! ### All tokens -/

/-- Whether a token has a part that starts with a sign that could open a comment. -/
def Token.opensComment : Token → Bool
  | .doctype content => Markup.opensComment content
  | .startTag written => openComments written.attributes
  | .raw written => openComments written.attributes
  | _ => false

theorem takeToken?_declaration (hnone : afterComment? ('<' :: '!' :: text) = none) :
    takeToken? '<' ('!' :: text) = takeDeclaration? text := by
  simp only [takeToken?, hnone]
  rfl

theorem afterComment?_declaration (hc : c ≠ '-') (text : List Char) :
    afterComment? ('<' :: '!' :: c :: text) = none := by
  unfold afterComment?
  split
  · rename_i heq
    simp only [List.cons.injEq] at heq
    exact absurd heq.2.2.1 hc
  · rfl

theorem takeToken?_startTag (hc : c ≠ '!' ∧ c ≠ '/') (text : List Char) :
    takeToken? '<' (c :: text) = takeStartTag? (c :: text) := by
  have hnone : afterComment? ('<' :: c :: text) = none := by
    unfold afterComment?
    split <;> simp_all
  have hspace : isSpace '<' = false := by decide
  simp only [takeToken?, hnone, hspace, Bool.false_eq_true, if_false, if_true]
  split <;> simp_all

/-- What a token that starts with a bracket can be. -/
theorem takeToken?_bracket (htake : takeToken? '<' text = some (token, rest)) :
    (afterComment? ('<' :: text) = some rest ∧ token = .comment) ∨
      (∃ text', text = '!' :: text' ∧ takeDeclaration? text' = some (token, rest)) ∨
      (∃ text' name, text = '/' :: text' ∧ token = .endTag name ∧
        takeEndTag? text' = some (name, rest)) ∨
      ((∀ text', text ≠ '!' :: text') ∧ (∀ text', text ≠ '/' :: text') ∧
        takeStartTag? text = some (token, rest)) := by
  have hspace : isSpace '<' = false := by decide
  simp only [takeToken?, hspace, Bool.false_eq_true, if_false, if_true] at htake
  split at htake
  · rename_i hcomment
    simp only [Option.some.injEq, Prod.mk.injEq] at htake
    obtain ⟨rfl, rfl⟩ := htake
    exact .inl ⟨hcomment, rfl⟩
  · exact .inr (.inl ⟨_, rfl, htake⟩)
  · obtain ⟨⟨name, rest'⟩, hend, heq⟩ := Option.map_eq_some_iff.mp htake
    simp only [Prod.mk.injEq] at heq
    obtain ⟨rfl, rfl⟩ := heq
    exact .inr (.inr (.inl ⟨_, name, rfl, rfl, hend⟩))
  · rename_i hmark hslash _
    exact .inr (.inr (.inr ⟨hmark, hslash, htake⟩))

/-- What a token that starts with another character can be. -/
theorem takeToken?_plain (hc : c ≠ '<') (htake : takeToken? c text = some (token, rest)) :
    (isSpace c = true ∧ token = .space ∧ text.dropWhile isSpace = rest) ∨
      (c = '&' ∧ token = .entity ∧ afterEntity? text = some rest) ∨
      (isSpace c = false ∧ c ≠ '&' ∧ isTextChar c = true ∧ token = .text ∧
        text.dropWhile isTextChar = rest) := by
  unfold takeToken? at htake
  rw [if_neg hc] at htake
  split at htake
  · rename_i hspace
    simp only [Option.some.injEq, Prod.mk.injEq] at htake
    exact .inl ⟨hspace, htake.1.symm, htake.2⟩
  rename_i hspace
  rw [Bool.not_eq_true] at hspace
  split at htake
  · rename_i hentity
    obtain ⟨rest', hrest, heq⟩ := Option.map_eq_some_iff.mp htake
    simp only [Prod.mk.injEq] at heq
    obtain ⟨rfl, rfl⟩ := heq
    exact .inr (.inl ⟨hentity, rfl, hrest⟩)
  rename_i hentity
  split at htake
  · rename_i htext
    simp only [Option.some.injEq, Prod.mk.injEq] at htake
    exact .inr (.inr ⟨hspace, hentity, htext, htake.1.symm, htake.2⟩)
  · cases htake

/-- A style or script element is a token as well with another content without brackets, and in front of
another text. -/
theorem takeToken?_raw {written : WrittenRaw}
    (htake : takeToken? c text = some (.raw written, rest)) :
    ∃ front ending, written.opening = c :: front ++ ['>'] ∧
      text = front ++ '>' :: (written.content ++ ('<' :: ending ++ rest)) ∧
      ∀ content other, content = written.content ∨ '<' ∉ content →
        (openComments written.attributes = true →
          StaysOpen ('>' :: (written.content ++ ('<' :: ending ++ rest)))
            ('>' :: (content ++ ('<' :: ending ++ other)))) →
        takeToken? c (front ++ '>' :: (content ++ ('<' :: ending ++ other))) =
          some (.raw { written with content }, other) := by
  by_cases hbracket : c = '<'
  · subst hbracket
    rcases takeToken?_bracket htake with ⟨-, htoken⟩ | ⟨text', rfl, hdeclaration⟩ |
      ⟨text', name, rfl, htoken, hend⟩ | ⟨hmark, hslash, hstart⟩
    · cases htoken
    · obtain ⟨_, _, _, htoken, -⟩ := takeDeclaration?_append hdeclaration
      cases htoken
    · cases htoken
    · obtain ⟨c, front, ending, hopening, rfl, hother⟩ := takeStartTag?_raw hstart
      have hc : c ≠ '!' ∧ c ≠ '/' :=
        ⟨fun h => hmark _ (by rw [h]; rfl), fun h => hslash _ (by rw [h]; rfl)⟩
      refine ⟨c :: front, ending, hopening, rfl, fun content other hcontent hopen => ?_⟩
      rw [List.cons_append, takeToken?_startTag hc]
      exact hother content other hcontent hopen
  · rcases takeToken?_plain hbracket htake with ⟨-, htoken, -⟩ | ⟨-, htoken, -⟩ |
      ⟨-, -, -, htoken, -⟩ <;> cases htoken

theorem takeToken?_append_plain (hc : c ≠ '<') (htake : takeToken? c text = some (token, rest)) :
    ∃ front, text = front ++ rest ∧
      ∀ other, other.head? = rest.head? → takeToken? c (front ++ other) = some (token, other) := by
  rcases takeToken?_plain hc htake with ⟨hspace, rfl, rfl⟩ | ⟨rfl, rfl, hrest⟩ |
    ⟨hspace, hentity, htext, rfl, rfl⟩
  · refine ⟨text.takeWhile isSpace, List.takeWhile_append_dropWhile.symm, fun other hhead => ?_⟩
    unfold takeToken?
    rw [if_pos hspace, (span_append_alike hhead).2]
  · obtain ⟨front, rfl, hother⟩ := afterEntity?_append hrest
    refine ⟨front, rfl, fun other hhead => ?_⟩
    have hspace : ¬ isSpace '&' = true := by decide
    unfold takeToken?
    rw [if_neg hspace, if_neg hc, if_pos rfl, hother other hhead]
    rfl
  · refine ⟨text.takeWhile isTextChar, List.takeWhile_append_dropWhile.symm, fun other hhead => ?_⟩
    unfold takeToken?
    rw [if_neg (by simp [hspace]), if_neg hc, if_neg hentity, if_pos htext,
      (span_append_alike hhead).2]

/-- A token is found as well in front of another text that begins alike, if a comment that the token
could open is not closed there. -/
theorem takeToken?_append (htake : takeToken? c text = some (token, rest)) :
    ∃ front, text = front ++ rest ∧
      ∀ other, other.head? = rest.head? →
        (token.opensComment = true → StaysOpen rest other) →
        takeToken? c (front ++ other) = some (token, other) := by
  by_cases hbracket : c = '<'
  · subst hbracket
    have hspace : ¬ isSpace '<' = true := by decide
    rcases takeToken?_bracket htake with ⟨hcomment, rfl⟩ | ⟨text', rfl, hdeclaration⟩ |
      ⟨text', name, rfl, rfl, hend⟩ | ⟨hmark, hslash, hstart⟩
    · obtain ⟨front, htext, hother⟩ := afterComment?_eq_some hcomment
      obtain rfl := (List.cons.inj htext).2
      refine ⟨front, rfl, fun other _ _ => ?_⟩
      have hcomment' := hother other
      rw [List.cons_append] at hcomment'
      unfold takeToken?
      rw [if_neg hspace, if_pos rfl, hcomment']
    · obtain ⟨d, front, content, rfl, rfl, hd, hother⟩ := takeDeclaration?_append hdeclaration
      refine ⟨'!' :: d :: front, rfl, fun other _ hopen => ?_⟩
      rw [List.cons_append, List.cons_append,
        takeToken?_declaration (afterComment?_declaration hd _)]
      exact hother other hopen
    · obtain ⟨front, rfl, -, hother⟩ := takeEndTag?_append hend
      refine ⟨'/' :: front, rfl, fun other _ _ => ?_⟩
      have hnone : afterComment? ('<' :: '/' :: (front ++ other)) = none := rfl
      unfold takeToken?
      rw [if_neg hspace, if_pos rfl, List.cons_append, hnone]
      simp only [hother other, Option.map_some]
    · rcases takeStartTag?_cases hstart with ⟨written, rfl⟩ | ⟨written, rfl⟩
      · obtain ⟨c, front, rfl, hother⟩ := takeStartTag?_append hstart
        have hc : c ≠ '!' ∧ c ≠ '/' :=
          ⟨fun h => hmark _ (by rw [h]; rfl), fun h => hslash _ (by rw [h]; rfl)⟩
        refine ⟨c :: front, rfl, fun other _ hopen => ?_⟩
        rw [List.cons_append, takeToken?_startTag hc]
        exact hother other hopen
      · obtain ⟨front, ending, -, rfl, hother⟩ := takeToken?_raw htake
        refine ⟨front ++ '>' :: (written.content ++ '<' :: ending), by simp, fun other _ hopen => ?_⟩
        have hraw := hother written.content other (.inl rfl) fun hcomment => by
          have hstays := (hopen hcomment).append ('>' :: (written.content ++ '<' :: ending))
          simpa using hstays
        simpa using hraw
  · obtain ⟨front, rfl, hother⟩ := takeToken?_append_plain hbracket htake
    exact ⟨front, rfl, fun other hhead _ => hother other hhead⟩

/-! ### Runs of tokens -/

/-- The text that tokens were read from. -/
def textOf (tokens : List (Token × List Char)) : List Char :=
  tokens.flatMap (·.2)

theorem tokens?_cons {front : List Char}
    (htake : takeToken? c (front ++ rest) = some (token, rest)) :
    tokens? (c :: (front ++ rest)) = (tokens? rest).map ((token, c :: front) :: ·) := by
  have hbefore : before (c :: (front ++ rest)) rest = c :: front := before_append (c :: front) rest
  have hshort : rest.length < (c :: (front ++ rest)).length := by
    rw [List.length_cons, List.length_append]
    omega
  rw [tokens?, htake]
  simp only [dif_pos hshort, hbefore]

/-- The first token of a run is taken from the front of the text, and the others are those of the
rest. -/
theorem tokens?_eq_some_cons {piece : List Char}
    {tokens : List (Token × List Char)} (htokens : tokens? text = some ((token, piece) :: tokens)) :
    ∃ c front rest, piece = c :: front ∧ text = c :: (front ++ rest) ∧
      takeToken? c (front ++ rest) = some (token, rest) ∧ tokens? rest = some tokens := by
  cases text with
  | nil =>
    rw [tokens?] at htokens
    cases htokens
  | cons c text =>
    cases htake : takeToken? c text with
    | none =>
      rw [tokens?, htake] at htokens
      cases htokens
    | some taken =>
      obtain ⟨token', rest⟩ := taken
      obtain ⟨front, rfl, -⟩ := takeToken?_append htake
      rw [tokens?_cons htake] at htokens
      obtain ⟨more, hmore, heq⟩ := Option.map_eq_some_iff.mp htokens
      cases heq
      exact ⟨c, front, rest, rfl, rfl, htake, hmore⟩

theorem textOf_of_tokens? {tokens : List (Token × List Char)}
    (htokens : tokens? text = some tokens) : textOf tokens = text := by
  induction tokens generalizing text with
  | nil =>
    cases text with
    | nil => rfl
    | cons c text =>
      rw [tokens?] at htokens
      split at htokens
      · cases htokens
      · split at htokens
        · simp at htokens
        · cases htokens
  | cons token tokens ih =>
    obtain ⟨c, front, rest, hpiece, rfl, -, hrest⟩ := tokens?_eq_some_cons htokens
    rw [textOf, List.flatMap_cons, hpiece, ← textOf, ih hrest]
    rfl

/-- The tokens of a text are those that are taken from its front one after the other. -/
theorem tokens?_textOf_cons_iff {piece : List Char} {tokens : List (Token × List Char)} :
    tokens? (textOf ((token, piece) :: tokens)) = some ((token, piece) :: tokens) ↔
      ∃ c front, piece = c :: front ∧
        takeToken? c (front ++ textOf tokens) = some (token, textOf tokens) ∧
        tokens? (textOf tokens) = some tokens := by
  constructor
  · intro htokens
    obtain ⟨c, front, rest, hpiece, -, htake, hrest⟩ := tokens?_eq_some_cons htokens
    rw [textOf_of_tokens? hrest]
    exact ⟨c, front, hpiece, htake, hrest⟩
  · rintro ⟨c, front, rfl, htake, htokens⟩
    have hcons := tokens?_cons htake
    rw [htokens] at hcons
    exact hcons

end StyleMigration.Markup
