import StyleMigration.Proofs.Sheet.BraceGrammar
import StyleMigration.Proofs.Sheet.Forest

/-!
Stylesheets in braces that stand one after the other. A text whose last node is a group closed by a brace
ends with that brace, and no token before it looks past it: every token in the text is followed by one
more character of the text, and none looks further (`takeTokens_append`). So the tokens of what comes
after it start anew (`braceTokens_append`). At that place no group is open, so the tree goes on at the top
level as if nothing had been read before (`readBraces_append`), and the migration goes on with the nodes
of the second text after those of the first (`outcome_migrateAll_append`).
-/

set_option autoImplicit false

namespace StyleMigration.Sheet

open Text

/-! ### Tokens of a text with another one after it -/

section Tokens

variable {lineComments : Bool}

/-- Comments and the blanks after them are taken alike in front of a rest with more text at its end. -/
theorem takeTrivia_append_right {text other : List Char}
    (hlead : IsLead lineComments (takeTrivia lineComments text).2.1
      ((takeTrivia lineComments text).2.2 ++ other))
    (hrest : (takeTrivia lineComments text).2.2 ≠ []) :
    takeTrivia lineComments (text ++ other) =
      ((takeTrivia lineComments text).1, (takeTrivia lineComments text).2.1,
        (takeTrivia lineComments text).2.2 ++ other) := by
  have htext := takeTrivia_append lineComments text
  have hfollow : CanFollow lineComments
      ((takeTrivia lineComments text).2.1 ++ (takeTrivia lineComments text).2.2)
      ((takeTrivia lineComments text).2.1 ++ ((takeTrivia lineComments text).2.2 ++ other)) := by
    refine CanFollow.append (.inl ?_) _
    rw [List.head?_append, Option.or_of_isSome (List.isSome_head?.mpr hrest)]
  have htaken := takeTrivia_append_of_canFollow hfollow
  rw [hlead.takeTrivia_eq, List.append_nil, ← List.append_assoc, ← List.append_assoc, htext] at htaken
  exact htaken

/-- A statement with something after it is scanned alike with more text at the end. -/
theorem takeStatement_append {text : List Char}
    (hrest : (takeStatement lineComments text).rest ≠ []) (other : List Char) :
    takeStatement lineComments (text ++ other) =
        (takeStatement lineComments text).followedBy ((takeStatement lineComments text).rest ++ other) ∧
      ∀ blanks, IsLead lineComments blanks text → IsLead lineComments blanks (text ++ other) := by
  have hhead : (takeStatement lineComments text).ended = .stop →
      ((takeStatement lineComments text).rest ++ other).head? =
        (takeStatement lineComments text).rest.head? := by
    rw [List.head?_append, Option.or_of_isSome (List.isSome_head?.mpr hrest)]
    exact fun _ => rfl
  have hsource : ((takeStatement lineComments text).followedBy
      ((takeStatement lineComments text).rest ++ other)).source = text ++ other := by
    conv => rhs; rw [← scanStatement_source lineComments 0 .plain text]
    simp [Scanned.source, Scanned.followedBy, takeStatement]
  have hscan := (takeStatement_followedBy hhead).1
  rw [hsource] at hscan
  refine ⟨hscan, fun blanks hlead => ?_⟩
  rw [← hsource]
  exact hlead.followedBy hhead

/-- What the tokens at the front of a text are where a statement comes first. -/
theorem takeTokens_statement {text comments blanks rest : List Char}
    (htaken : takeTrivia lineComments text = (comments, blanks, rest)) (hrest : rest ≠ [])
    (hclosing : ∀ tail, rest = '}' :: tail → False) :
    takeTokens lineComments text =
      (BraceToken.ofText comments ++
          [if (takeStatement lineComments rest).ended = .opening then
            .opening blanks (takeStatement lineComments rest).text
          else .text (blanks ++ (takeStatement lineComments rest).text)],
        (takeStatement lineComments rest).rest) := by
  by_cases hopening : (takeStatement lineComments rest).ended = .opening <;>
    simp only [takeTokens, htaken, hopening, if_true, if_false]

/-- Tokens before the end of a text, or with a closing brace at the end, are taken alike with more text at
the end. -/
theorem takeTokens_append {text : List Char}
    (hended : (takeTokens lineComments text).2 ≠ [] ∨
      (takeTokens lineComments text).1.getLast? = some .closing) (other : List Char) :
    takeTokens lineComments (text ++ other) =
      ((takeTokens lineComments text).1, (takeTokens lineComments text).2 ++ other) := by
  have hlead := isLead_takeTrivia lineComments text
  have htrivia := @takeTrivia_append_right lineComments text other
  rcases htaken : takeTrivia lineComments text with ⟨comments, blanks, rest⟩
  rw [htaken] at hlead htrivia
  by_cases hrest : rest = []
  · -- At the end of the text no closing brace was taken.
    subst hrest
    simp only [takeTokens, htaken, BraceToken.ofText, ne_eq, not_true_eq_false, false_or] at hended
    split at hended <;> split at hended <;> cases hended
  by_cases hclosing : ∃ tail, rest = '}' :: tail
  · obtain ⟨tail, rfl⟩ := hclosing
    have hnew := htrivia (isLead_closing lineComments hlead.blank _) (by simp)
    rw [takeTokens, hnew, takeTokens, htaken]
    rfl
  have hstatement : ∀ tail, rest = '}' :: tail → False := fun tail htail => hclosing ⟨tail, htail⟩
  have htokens := takeTokens_statement htaken hrest hstatement
  have hne : (takeStatement lineComments rest).rest ≠ [] := by
    rw [htokens] at hended
    refine hended.resolve_right fun hlast => ?_
    rw [List.getLast?_concat] at hlast
    split at hlast <;> cases hlast
  obtain ⟨hscan, hleads⟩ := takeStatement_append hne other
  obtain ⟨c, rest, rfl⟩ := List.exists_cons_of_ne_nil hrest
  rw [htokens, takeTokens_statement (htrivia (hleads blanks hlead) hrest) (by simp), hscan]
  · rfl
  · intro tail htail
    rw [List.cons_append, List.cons.injEq] at htail
    exact hstatement rest (by rw [htail.1])

/-- After a closing brace the tokens start anew. -/
theorem braceTokens_append {text : List Char}
    (hlast : (braceTokens lineComments text).getLast? = some .closing) (other : List Char) :
    braceTokens lineComments (text ++ other) =
      braceTokens lineComments text ++ braceTokens lineComments other := by
  fun_induction braceTokens lineComments text with
  | case1 text taken hshorter ih =>
    have hne : text ≠ [] := fun hnil => Nat.not_lt_zero _ (hnil ▸ hshorter)
    by_cases hrest : taken.2 = []
    · rw [hrest, braceTokens_nil, List.append_nil] at hlast
      have htokens := takeTokens_append (.inr hlast) other
      rw [braceTokens_eq_append (List.append_ne_nil_of_left_ne_nil hne _) htokens]
      simp [taken, hrest, braceTokens_nil]
    · have htokens := takeTokens_append (.inl hrest) other
      have hothers : braceTokens lineComments taken.2 ≠ [] := fun hnil => hrest (by
        rw [← braceTokens_source lineComments taken.2, hnil, List.flatMap_nil])
      rw [List.getLast?_append, Option.or_of_isSome (List.getLast?_isSome.mpr hothers)] at hlast
      rw [braceTokens_eq_append (List.append_ne_nil_of_left_ne_nil hne _) htokens, ih hlast,
        List.append_assoc]
  | case2 text taken hlong =>
    by_cases hne : text = []
    · have hnone : taken.1 = [] := by
        simp [taken, hne, takeTokens, takeTrivia, takeComment?, BraceToken.ofText]
      rw [hnone] at hlast
      cases hlast
    · exact absurd (takeTokens_rest_length lineComments hne) hlong

end Tokens

/-! ### Trees of a text with another one after it -/

namespace Outline

variable {Mark : Type}

/-- The open groups with earlier nodes before the outermost of them, in reverse as they are. -/
def framesAfter (earlier : List Node) :
    List (Mark × Header × List Node) → List (Mark × Header × List Node)
  | [] => []
  | [(mark, header, before)] => [(mark, header, before ++ earlier)]
  | frame :: next :: outer => frame :: framesAfter earlier (next :: outer)

/-- An outline with earlier nodes on the top level. -/
def after (earlier : List Node) (outline : Outline Mark) : Outline Mark :=
  ⟨if outline.around.isEmpty then outline.nodes ++ earlier else outline.nodes,
    framesAfter earlier outline.around⟩

variable (earlier : List Node) (outline : Outline Mark)

@[simp] theorem isEmpty_framesAfter (around : List (Mark × Header × List Node)) :
    (framesAfter earlier around).isEmpty = around.isEmpty := by
  fun_cases framesAfter earlier around <;> rfl

theorem after_add (node : Node) : (outline.after earlier).add node = (outline.add node).after earlier := by
  obtain ⟨nodes, around⟩ := outline
  cases around <;> rfl

theorem after_enter (mark : Mark) (header : Header) :
    (outline.after earlier).enter mark header = (outline.enter mark header).after earlier := by
  obtain ⟨nodes, around⟩ := outline
  cases around <;> rfl

theorem after_leave (enclosure : Enclosure) (hopen : outline.around ≠ []) :
    (outline.after earlier).leave enclosure = (outline.leave enclosure).after earlier := by
  obtain ⟨nodes, around⟩ := outline
  match around with
  | [] => exact absurd rfl hopen
  | [(mark, header, before)] => rfl
  | (mark, header, before) :: next :: outer => rfl

theorem after_addBraceToken (outline : Outline Unit) (token : BraceToken) :
    (outline.after earlier).addBraceToken token = (outline.addBraceToken token).after earlier := by
  cases token with
  | text content => exact after_add earlier outline _
  | opening blanks header => exact after_enter earlier outline _ _
  | closing =>
    simp only [addBraceToken]
    rw [show (outline.after earlier).around.isEmpty = outline.around.isEmpty from
      isEmpty_framesAfter earlier outline.around]
    split
    · exact after_add earlier outline _
    · rename_i hopen
      exact after_leave earlier outline _ (by simpa using hopen)

/-- Earlier nodes are in front once every group is closed. -/
theorem finish_after (enclosure : Enclosure) :
    (outline.after earlier).finish enclosure = earlier.reverse ++ outline.finish enclosure := by
  obtain ⟨nodes, around⟩ := outline
  simp only [finish, leaveWhile, after]
  induction around generalizing nodes with
  | nil => simp [leaveWhile.go, framesAfter]
  | cons frame outer ih =>
    obtain ⟨mark, header, before⟩ := frame
    cases outer with
    | nil => simp [leaveWhile.go, framesAfter]
    | cons next outer => simpa [leaveWhile.go, framesAfter] using ih (_ :: before)

end Outline

theorem foldl_addBraceToken_after (tokens : List BraceToken) (earlier : List Node)
    (outline : Outline Unit) :
    tokens.foldl Outline.addBraceToken (outline.after earlier) =
      (tokens.foldl Outline.addBraceToken outline).after earlier := by
  induction tokens generalizing outline with
  | nil => rfl
  | cons token tokens ih =>
    rw [List.foldl_cons, List.foldl_cons, Outline.after_addBraceToken, ih]

/-- A group that is never closed is the last of the finished tree. -/
theorem Outline.getLast?_finish (outline : Outline Unit) (hopen : outline.around ≠ []) :
    ∃ header body, (outline.finish .openBrace).getLast? = some (.group header .openBrace body) := by
  obtain ⟨nodes, around⟩ := outline
  simp only [finish, leaveWhile]
  induction around generalizing nodes with
  | nil => exact absurd rfl hopen
  | cons frame outer ih =>
    obtain ⟨mark, header, before⟩ := frame
    rw [leaveWhile.go, if_pos rfl]
    cases outer with
    | nil => exact ⟨header, nodes.reverse, by simp [leaveWhile.go]⟩
    | cons next outer => exact ih _ (by simp)

theorem Outline.finish_of_around_eq_nil {outline : Outline Unit} (haround : outline.around = []) :
    outline.finish .openBrace = outline.nodes.reverse := by
  simp [finish, leaveWhile, leaveWhile.go, haround]

/-- Whether a node is a group that is closed by a brace. -/
def Node.isBraced : Node → Bool
  | .text _ => false
  | .group _ enclosure _ => enclosure == .braces

/-- If a group closed by a brace is the last node of a text, then that brace is its last token and leaves
no group open. -/
theorem braceTokens_of_isBraced {lineComments : Bool} {text : List Char}
    (hlast : (readBraces lineComments text).getLast?.any Node.isBraced = true) :
    (braceTokens lineComments text).getLast? = some .closing ∧
      ((braceTokens lineComments text).foldl Outline.addBraceToken .empty).around = [] := by
  have haround : ((braceTokens lineComments text).foldl Outline.addBraceToken .empty).around = [] := by
    refine Decidable.byContradiction fun hopen => ?_
    obtain ⟨header, body, hgroup⟩ := Outline.getLast?_finish _ hopen
    rw [readBraces, hgroup] at hlast
    cases hlast
  refine ⟨?_, haround⟩
  rw [readBraces, Outline.finish_of_around_eq_nil haround, List.getLast?_reverse] at hlast
  rcases List.eq_nil_or_concat (braceTokens lineComments text) with hnil | ⟨init, token, htokens⟩
  · rw [hnil] at hlast
    cases hlast
  · rw [List.concat_eq_append] at htokens
    rw [htokens, List.foldl_append] at hlast haround
    rw [htokens, List.getLast?_concat]
    cases token with
    | text content => cases hlast
    | opening blanks header => cases haround
    | closing => rfl

/-- After a group closed by a brace, another text is read as if it stood alone. -/
theorem readBraces_append {lineComments : Bool} {first : List Char}
    (hlast : (readBraces lineComments first).getLast?.any Node.isBraced = true) (second : List Char) :
    readBraces lineComments (first ++ second) =
      readBraces lineComments first ++ readBraces lineComments second := by
  obtain ⟨hclosing, haround⟩ := braceTokens_of_isBraced hlast
  have hfirst := Outline.finish_of_around_eq_nil haround
  simp only [readBraces]
  rw [braceTokens_append hclosing, List.foldl_append, hfirst]
  generalize (braceTokens lineComments first).foldl Outline.addBraceToken .empty = outline at *
  have houtline : outline = Outline.empty.after outline.nodes := by
    obtain ⟨nodes, around⟩ := outline
    rw [show around = [] from haround]
    rfl
  rw [houtline, foldl_addBraceToken_after, Outline.finish_after, ← houtline]

/-! ### Migration -/

/-- Nodes are migrated one after the other, up to the first that is ambiguous. -/
theorem outcome_migrateAll_append (drops : Bool) (first second : List Node) :
    (migrateAll drops (first ++ second)).outcome = do
      let front ← (migrateAll drops first).outcome
      let back ← (migrateAll drops second).outcome
      return front ++ back := by
  induction first with
  | nil =>
    change _ = (migrateAll drops second).outcome >>= pure
    rw [bind_pure]
    rfl
  | cons node first ih =>
    rw [List.cons_append, outcome_migrateAll_cons, outcome_migrateAll_cons, ih]
    split
    · rfl
    · rcases node.migrate.outcome with ambiguity | changed
      · rfl
      · rcases (migrateAll drops first).outcome with ambiguity | front
        · rfl
        · rcases (migrateAll drops second).outcome with ambiguity | back <;> rfl

/-- If the last node of a stylesheet in braces is a group closed by a brace, then another text after it
adds its own nodes and changes none. So the two are migrated one after the other: where both can be
migrated the results stand side by side, and else the first ambiguity is reported. -/
theorem migrate_append_of_isBraced {language : Language} (hlanguage : language ≠ .sass)
    {first : List Char} (hlast : (read language first).getLast?.any Node.isBraced = true)
    (second : List Char) :
    read language (first ++ second) = read language first ++ read language second ∧
      migrate language (first ++ second) = do
        let front ← migrate language first
        let back ← migrate language second
        return front ++ back := by
  have hread : read language (first ++ second) = read language first ++ read language second := by
    cases language with
    | css => exact readBraces_append hlast second
    | scss => exact readBraces_append hlast second
    | sass => exact absurd rfl hlanguage
  refine ⟨hread, ?_⟩
  simp only [migrate_eq_map_outcome, hread, outcome_migrateAll_append]
  rcases (migrateAll false (read language first)).outcome with ambiguity | front
  · rfl
  · rcases (migrateAll false (read language second)).outcome with ambiguity | back
    · rfl
    · change Except.ok (print (front ++ back)) = .ok (print front ++ print back)
      rw [print_append]

/-- The texts `@m{.a >>> .b{c:'}'/*}*/#{$x}}}` and `// '` with `.d /deep/ e{&-f{}` on the next line: braces
hidden in a string, a comment and an interpolation, and after them a quote in a comment and a group that is
never closed. -/
theorem migrate_append_of_isBraced_hidden :
    let first := "@m\x7b.a >>> .b\x7bc:'\x7d'/*\x7d*/#\x7b$x\x7d\x7d\x7d".toList
    let second := "// '\n.d /deep/ e\x7b&-f{}".toList
    (read .scss first).getLast?.any Node.isBraced = true ∧
      migrate .scss first = .ok "@m\x7b.a :deep .b\x7bc:'\x7d'/*\x7d*/#\x7b$x\x7d\x7d\x7d".toList ∧
      migrate .scss second = .ok "// '\n.d :deep e\x7b&-f{}".toList ∧
      read .scss (first ++ second) = read .scss first ++ read .scss second ∧
      migrate .scss (first ++ second) = do
        let front ← migrate .scss first
        let back ← migrate .scss second
        return front ++ back := by
  intro first second
  have hlast : (read .scss first).getLast?.any Node.isBraced = true := by decide +kernel
  exact ⟨hlast, by decide +kernel, by decide +kernel,
    migrate_append_of_isBraced (by decide) hlast second⟩

end StyleMigration.Sheet
