/-!
Block comments, which are the same in selectors and in stylesheets. One whose opening mark was read
goes through its first end mark (`takeBlockComment_of_closed`), or to the end of the text if there is none
(`takeBlockComment_of_unclosed`). What is cut off does not depend on what follows the end mark
(`takeBlockComment_exchange`).
-/

set_option autoImplicit false

namespace StyleMigration.Text

/-- The rest of a comment whose opening was read, through its end if there is one. -/
def takeBlockComment : List Char → List Char × List Char
  | [] => ([], [])
  | '*' :: '/' :: text => (['*', '/'], text)
  | c :: text =>
    let (body, rest) := takeBlockComment text
    (c :: body, rest)

theorem takeBlockComment_append (text : List Char) :
    (takeBlockComment text).1 ++ (takeBlockComment text).2 = text := by
  fun_induction takeBlockComment text with
  | case1 => rfl
  | case2 text => rfl
  | case3 c text _ body rest htaken ih =>
    rw [htaken] at ih
    simpa using ih

theorem takeBlockComment_cons_ne_nil (c : Char) (text : List Char) :
    (takeBlockComment (c :: text)).1 ≠ [] := by
  unfold takeBlockComment
  split
  · rename_i hcons
    cases hcons
  · exact List.cons_ne_nil _ _
  · exact List.cons_ne_nil _ _

/-- What follows an end mark can be exchanged. A comment without one has nothing after it. -/
theorem takeBlockComment_exchange {text body rest other : List Char}
    (htaken : takeBlockComment text = (body, rest)) (hother : rest = [] → other = []) :
    takeBlockComment (body ++ other) = (body, other) := by
  fun_induction takeBlockComment text generalizing body with
  | case1 =>
    obtain ⟨rfl, rfl⟩ := Prod.mk.inj htaken
    rw [hother rfl]
    rfl
  | case2 text =>
    obtain ⟨rfl, rfl⟩ := Prod.mk.inj htaken
    rfl
  | case3 c text hopen body' rest' htaken' ih =>
    obtain ⟨rfl, rfl⟩ := Prod.mk.inj htaken
    have happend := takeBlockComment_append text
    rw [htaken'] at happend
    rw [List.cons_append, takeBlockComment]
    · rw [ih htaken']
    · intro others hc hslash
      cases body' with
      | nil =>
        -- Nothing more is taken only where the text is at its end.
        cases text with
        | nil =>
          rw [hother happend] at hslash
          cases hslash
        | cons d text => exact takeBlockComment_cons_ne_nil d text (by rw [htaken'])
      | cons d body' =>
        rw [← happend] at hopen
        exact hopen _ hc (congrArg (· :: _) (List.cons.inj hslash).1)

/-- A comment after which something comes ends with its end mark. -/
theorem takeBlockComment_eq_concat {text body rest : List Char}
    (htaken : takeBlockComment text = (body, rest)) (hrest : rest ≠ []) :
    ∃ front, body = front ++ ['/'] := by
  fun_induction takeBlockComment text generalizing body with
  | case1 =>
    cases htaken
    exact absurd rfl hrest
  | case2 text =>
    cases htaken
    exact ⟨['*'], rfl⟩
  | case3 c text hopen body' rest' htaken' ih =>
    cases htaken
    obtain ⟨front, rfl⟩ := ih htaken'
    exact ⟨c :: front, rfl⟩

theorem takeBlockComment_cons {c : Char} {text : List Char} (hopen : ¬['*', '/'] <+: c :: text) :
    takeBlockComment (c :: text) = (c :: (takeBlockComment text).1, (takeBlockComment text).2) := by
  rw [takeBlockComment]
  rintro others rfl rfl
  exact hopen (by simp)

/-- A comment ends with the first end mark. -/
theorem takeBlockComment_of_closed {body : List Char} (hbody : ¬['*', '/'] <:+: body)
    (rest : List Char) :
    takeBlockComment (body ++ '*' :: '/' :: rest) = (body ++ ['*', '/'], rest) := by
  induction body with
  | nil => rfl
  | cons c body ih =>
    have hopen : ¬['*', '/'] <+: c :: (body ++ '*' :: '/' :: rest) := by
      intro hends
      cases body with
      | nil => simp at hends
      | cons next body =>
        simp only [List.cons_append, List.cons_prefix_cons] at hends
        obtain ⟨rfl, rfl, -⟩ := hends
        exact hbody ⟨[], body, rfl⟩
    rw [List.cons_append, takeBlockComment_cons hopen,
      ih fun hinside => hbody (hinside.trans (List.suffix_cons c body).isInfix)]
    rfl

/-- A comment without an end mark runs to the end of the text. -/
theorem takeBlockComment_of_unclosed {text : List Char} (htext : ¬['*', '/'] <:+: text) :
    takeBlockComment text = (text, []) := by
  induction text with
  | nil => rfl
  | cons c text ih =>
    rw [takeBlockComment_cons fun hfront => htext hfront.isInfix,
      ih fun hinside => htext (hinside.trans (List.suffix_cons c text).isInfix)]

end StyleMigration.Text
