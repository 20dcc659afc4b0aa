import StyleMigration.Proofs.Component.Extraction
import StyleMigration.Proofs.Component.Staging
import StyleMigration.Proofs.Splice

/-!
Other texts in place of the contents of a component's sections. The tokens of the component then have
other contents and are the same otherwise (`Refilled`). Splicing gives the text of these tokens
(`Refilled.substituted`, `Substituted.splice_eq`), and reading that text gives them back
(`Refilled.tokens?_eq`) unless a new content has a bracket in it or ends a comment that was open. The
open elements are the same all along (`Refilled.levels?_eq`), so the same elements count as sections
(`Refilled.map_sectionsFrom`). Together these say what is found when the sections are extracted,
exchanged and extracted again (`sections_splice`).
-/

set_option autoImplicit false

namespace StyleMigration.Component

open Markup Text

/-! ### Exchanged contents -/

namespace Substituted

variable {cursor : Nat} {rest output : List Char} {parts : List (Section × List Char)}

theorem spliced (hsubstituted : Substituted cursor rest parts output) :
    Spliced cursor rest (parts.map exchange) output := by
  induction hsubstituted with
  | nil => exact .nil _ _
  | cons hstart hstop _ ih => exact .cons hstart hstop ih

theorem start_le_stop (hsubstituted : Substituted cursor rest parts output) :
    ∀ part ∈ parts, part.1.start ≤ part.1.stop := by
  induction hsubstituted with
  | nil => simp
  | cons _ hstop _ ih => exact List.forall_mem_cons.mpr ⟨hstop ▸ Nat.le_add_right .., ih⟩

/-- Contents that stand one after the other are exchanged by splicing. -/
theorem splice_eq {source : List Char} (hsubstituted : Substituted 0 source parts output) :
    splice source (parts.map exchange) = .ok output := by
  have hsorted : (parts.map exchange).Pairwise fun first second => first.start ≤ second.start := by
    refine List.pairwise_map.mpr (hsubstituted.pairwise.imp_of_mem fun hfirst _ horder => ?_)
    exact (hsubstituted.start_le_stop _ hfirst).trans horder
  have hordered := (isStableOrder_mergeSort (parts.map exchange)).eq ⟨.refl _, hsorted, fun _ => rfl⟩
  rw [splice_eq_ok_iff, hordered]
  exact hsubstituted.spliced

end Substituted

/-! ### Tokens with other contents -/

/-- Whether some token that starts before the byte `stop` has a part that begins with a sign that could
open a comment. The first of the tokens starts at the byte `offset`. -/
def opensCommentBefore (stop offset : Nat) : List (Token × List Char) → Bool
  | [] => false
  | (token, piece) :: tokens =>
    decide (offset < stop) &&
      (token.opensComment || opensCommentBefore stop (offset + byteLength piece) tokens)

theorem opensCommentBefore_cons {stop offset : Nat} (token : Token) (piece : List Char)
    (tokens : List (Token × List Char)) (hbefore : offset < stop) :
    opensCommentBefore stop offset ((token, piece) :: tokens) =
      (token.opensComment || opensCommentBefore stop (offset + byteLength piece) tokens) := by
  rw [opensCommentBefore, decide_eq_true hbefore, Bool.true_and]

/-- `Refilled opened offset index tokens parts refilled` says that `refilled` are the tokens with the
content of each section among them exchanged, and that `parts` are the sections beside the new texts. -/
inductive Refilled : List Tag → Nat → Nat → List (Token × List Char) →
    List (Section × List Char) → List (Token × List Char) → Prop where
  | nil (opened : List Tag) (offset index : Nat) : Refilled opened offset index [] [] []
  | kept {opened : List Tag} {offset index : Nat} {token : Token} {piece : List Char}
      {tokens refilled : List (Token × List Char)} {parts : List (Section × List Char)} :
      filledStyle? opened token = none →
      Refilled ((openedAfter? opened token).getD opened) (offset + byteLength piece) index tokens
        parts refilled →
      Refilled opened offset index ((token, piece) :: tokens) parts ((token, piece) :: refilled)
  | filled {opened : List Tag} {offset index : Nat} {written : WrittenRaw}
      {tag ending text : List Char} {tokens refilled : List (Token × List Char)}
      {parts : List (Section × List Char)} :
      filledStyle? opened (.raw written) = some written → written.opening = tag ++ ['>'] →
      Refilled ((openedAfter? opened (.raw written)).getD opened)
        (offset + byteLength (written.opening ++ (written.content ++ '<' :: ending))) (index + 1)
        tokens parts refilled →
      Refilled opened offset index
        ((.raw written, written.opening ++ (written.content ++ '<' :: ending)) :: tokens)
        ((sectionAt offset index written, text) :: parts)
        ((.raw { written with content := text }, written.opening ++ (text ++ '<' :: ending)) ::
          refilled)

/-- Sections can be given any texts. -/
theorem exists_refilled {source : List Char} {tokens : List (Token × List Char)}
    (htokens : tokens? source = some tokens) (opened : List Tag) (offset index : Nat)
    {texts : List (List Char)}
    (hlength : texts.length = (sectionsFrom opened offset index tokens).length) :
    ∃ refilled, Refilled opened offset index tokens
      ((sectionsFrom opened offset index tokens).zip texts) refilled := by
  induction tokens generalizing source opened offset index texts with
  | nil => exact ⟨[], .nil _ _ _⟩
  | cons first tokens ih =>
    obtain ⟨token, piece⟩ := first
    obtain ⟨_, _, rest, -, -, -, hrest⟩ := tokens?_eq_some_cons htokens
    rw [sectionsFrom] at hlength ⊢
    cases hfilled : filledStyle? opened token with
    | none =>
      simp only [hfilled] at hlength ⊢
      obtain ⟨refilled, htail⟩ := ih hrest _ _ _ hlength
      exact ⟨_, .kept hfilled htail⟩
    | some written =>
      simp only [hfilled] at hlength ⊢
      obtain rfl := eq_raw_of_outerStyle? (Option.filter_eq_some_iff.mp hfilled).1
      obtain ⟨tag, ending, hopening, rfl⟩ := exists_ending htokens
      cases texts with
      | nil => cases hlength
      | cons text texts =>
        obtain ⟨refilled, htail⟩ := ih hrest _ _ _ (Nat.succ.inj hlength)
        exact ⟨_, .filled hfilled hopening htail⟩

/-- An element that counts as a section does so as well with another content. -/
theorem filledStyle?_refill {opened : List Tag} {written : WrittenRaw} {text : List Char}
    (hfilled : filledStyle? opened (.raw written) = some written) (htext : text ≠ []) :
    filledStyle? opened (.raw { written with content := text }) =
      some { written with content := text } := by
  have houter := (Option.filter_eq_some_iff.mp hfilled).1
  rw [outerStyle?] at houter
  split at houter
  · rename_i hlevel
    rw [filledStyle?, outerStyle?, if_pos hlevel]
    simp [htext]
  · cases houter

namespace Refilled

variable {opened : List Tag} {offset index : Nat} {tokens refilled : List (Token × List Char)}
  {parts : List (Section × List Char)}
  (hrefilled : Refilled opened offset index tokens parts refilled)
include hrefilled

theorem substituted :
    Substituted offset (textOf tokens) parts (textOf refilled) := by
  induction hrefilled with
  | nil => exact .nil _ _
  | kept _ _ ih => exact ih.prepend
  | @filled opened offset index written tag ending text tokens refilled parts _ _ _ ih =>
    have hoffset : offset + byteLength (written.opening ++ (written.content ++ '<' :: ending)) =
        (sectionAt offset index written).stop + byteLength ('<' :: ending) := by
      simp only [sectionAt, byteLength_append]
      omega
    rw [hoffset] at ih
    have hcons : Substituted offset
        (written.opening ++ written.content ++ ('<' :: ending ++ textOf tokens))
        ((sectionAt offset index written, text) :: parts)
        (written.opening ++ text ++ ('<' :: ending ++ textOf refilled)) :=
      .cons rfl rfl ih.prepend
    simpa [textOf] using hcons

/-- The new contents leave the open elements as they are. -/
theorem levels?_eq :
    levels? opened refilled = levels? opened tokens := by
  induction hrefilled with
  | nil => rfl
  | @kept opened offset index token piece tokens refilled parts _ _ ih =>
    rw [levels?, levels?, List.foldlM_cons, List.foldlM_cons]
    cases hopened : openedAfter? opened token with
    | none => rfl
    | some after =>
      rw [hopened] at ih
      exact ih
  | @filled opened offset index written tag ending text tokens refilled parts _ _ _ ih =>
    rw [levels?, levels?, List.foldlM_cons, List.foldlM_cons]
    change (openedAfter? opened (.raw written)).bind _ = (openedAfter? opened (.raw written)).bind _
    cases hopened : openedAfter? opened (.raw written) with
    | none => rfl
    | some after =>
      rw [hopened] at ih
      exact ih

/-- The sections among the new tokens have the attributes that they had, and the new texts. -/
theorem map_sectionsFrom (hsome : ∀ part ∈ parts, part.2 ≠ []) (offset' index' : Nat) :
    (sectionsFrom opened offset' index' refilled).map (fun sec => (sec.attributes, sec.content)) =
      parts.map fun part => (part.1.attributes, part.2) := by
  induction hrefilled generalizing offset' index' with
  | nil => rfl
  | kept hkept _ ih =>
    simp only [sectionsFrom, hkept]
    exact ih hsome _ _
  | @filled opened offset index written tag ending text tokens refilled parts hfilled _ _ ih =>
    rw [List.forall_mem_cons] at hsome
    simp only [sectionsFrom, filledStyle?_refill hfilled hsome.1, List.map_cons]
    exact congrArg _ (ih hsome.2 _ _)

theorem notMem {c : Char}
    (htokens : c ∉ textOf tokens) (hparts : ∀ part ∈ parts, c ∉ part.2) : c ∉ textOf refilled := by
  induction hrefilled with
  | nil => exact htokens
  | kept _ _ ih =>
    simp only [textOf, List.flatMap_cons, List.mem_append, not_or] at htokens ih ⊢
    exact ⟨htokens.1, ih htokens.2 hparts⟩
  | filled _ _ _ ih =>
    simp only [textOf, List.flatMap_cons, List.mem_append, not_or, List.forall_mem_cons] at *
    exact ⟨⟨htokens.1.1, hparts.1, htokens.1.2.2⟩, ih htokens.2 hparts.2⟩

theorem head?_textOf :
    (textOf refilled).head? = (textOf tokens).head? := by
  induction hrefilled with
  | nil => rfl
  | @kept opened offset index token piece tokens refilled parts _ _ ih =>
    cases piece with
    | nil => exact ih
    | cons c piece => rfl
  | @filled opened offset index written tag ending text tokens refilled parts _ hopening _ ih =>
    simp only [textOf, List.flatMap_cons, hopening]
    cases tag <;> rfl

theorem lt_start :
    ∀ part ∈ parts, offset < part.1.start := by
  induction hrefilled with
  | nil => simp
  | kept _ _ ih =>
    intro part hmem
    have hafter := ih part hmem
    omega
  | @filled opened offset index written tag ending text tokens refilled parts _ hopening _ ih =>
    have hpositive : 0 < byteLength written.opening := by
      rw [hopening, byteLength_append]
      exact Nat.add_pos_right _ (Char.utf8Size_pos '>')
    refine List.forall_mem_cons.mpr ⟨?_, fun part hmem => ?_⟩
    · simp only [sectionAt]
      omega
    · have hafter := ih part hmem
      omega

/-- New texts without the sign that ends comments leave comments open. -/
theorem staysOpen (hclean : ∀ part ∈ parts, ¬ ['-', '-', '>'] <:+: part.2) :
    StaysOpen (textOf tokens) (textOf refilled) := by
  induction hrefilled with
  | nil => exact fun _ => id
  | kept _ _ ih => exact (ih hclean).append _
  | @filled opened offset index written tag ending text tokens refilled parts _ hopening _ ih =>
    -- The start tag ends with a bracket and the end tag begins with one, so no dash outside the new
    -- content counts for a sign inside it.
    rw [List.forall_mem_cons] at hclean
    have hexchange := ((((ih hclean.2).append ending).exchange hclean.1).append tag :
      StaysOpen (tag ++ '>' :: (written.content ++ '<' :: (ending ++ textOf tokens))) _)
    simpa [textOf, hopening] using hexchange

/-- The new text is cut into the new tokens. -/
theorem tokens?_eq
    (htokens : tokens? (textOf tokens) = some tokens) (hbracket : ∀ part ∈ parts, '<' ∉ part.2)
    (hclean : ∀ part ∈ parts, opensCommentBefore part.1.start offset tokens = true →
      ¬ ['-', '-', '>'] <:+: part.2) :
    tokens? (textOf refilled) = some refilled := by
  induction hrefilled with
  | nil => exact htokens
  | @kept opened offset index token piece tokens refilled parts hkept hrest ih =>
    obtain ⟨c, front, rfl, htake, htail⟩ := tokens?_textOf_cons_iff.mp htokens
    obtain ⟨front', hfront, hother⟩ := takeToken?_append htake
    obtain rfl := List.append_cancel_right hfront
    have hbefore (part : Section × List Char) (hmem : part ∈ parts) :=
      opensCommentBefore_cons token (c :: front) tokens ((kept hkept hrest).lt_start part hmem)
    refine tokens?_textOf_cons_iff.mpr ⟨c, front, rfl, ?_, ih htail hbracket ?_⟩
    · refine hother _ hrest.head?_textOf fun hcomment => hrest.staysOpen fun part hmem => ?_
      exact hclean part hmem (by rw [hbefore part hmem, hcomment, Bool.true_or])
    · intro part hmem hcomment
      exact hclean part hmem (by rw [hbefore part hmem, hcomment, Bool.or_true])
  | @filled opened offset index written tag ending text tokens refilled parts hfilled hopening
      hrest ih =>
    obtain ⟨c, front, hpiece, htake, htail⟩ := tokens?_textOf_cons_iff.mp htokens
    obtain ⟨tag', ending', hopening', hfront, hother⟩ := takeToken?_raw htake
    -- Both ways to cut the element give the same end tag.
    obtain rfl : ending = ending' := by
      rw [hopening', List.cons_append, List.cons_append, List.cons.injEq] at hpiece
      rw [← hpiece.2] at hfront
      simpa using hfront
    have hbefore (part : Section × List Char)
        (hmem : part ∈ (sectionAt offset index written, text) :: parts) :=
      opensCommentBefore_cons (.raw written)
        (written.opening ++ (written.content ++ '<' :: ending)) tokens
        ((filled hfilled hopening hrest).lt_start part hmem)
    rw [List.forall_mem_cons] at hbracket
    refine tokens?_textOf_cons_iff.mpr
      ⟨c, tag' ++ '>' :: (text ++ '<' :: ending), by simp [hopening'], ?_, ih htail hbracket.2 ?_⟩
    · have hraw := hother text (textOf refilled) (.inr hbracket.1) fun hcomment => by
        have hall : ∀ part ∈ (sectionAt offset index written, text) :: parts,
            ¬ ['-', '-', '>'] <:+: part.2 := fun part hmem =>
          hclean part hmem (by rw [hbefore part hmem, Token.opensComment, hcomment, Bool.true_or])
        rw [List.forall_mem_cons] at hall
        exact ((hrest.staysOpen hall.2).append ending).exchange hall.1
      simpa using hraw
    · intro part hmem hcomment
      have hmem' := List.mem_cons_of_mem (sectionAt offset index written, text) hmem
      exact hclean part hmem' (by rw [hbefore part hmem', hcomment, Bool.or_true])

end Refilled

/-! ### Reading the sections again -/

/-- Sections as they stand in a component: counted from zero, in order and apart, each with a range
between characters that is not empty and has the content in it. -/
structure ArePlaced (source : List Char) (found : List Section) : Prop where
  index : found.map (·.index) = List.range found.length
  apart : found.Pairwise fun first second => first.stop ≤ second.start
  ranges : ∀ sec ∈ found, sec.start < sec.stop ∧ isBoundary source sec.start = true ∧
    isBoundary source sec.stop = true ∧ sec.content = slice source sec.start sec.stop

/-- A text that is found again as the content of a section when it is put there. If a value or a
declaration before it begins with a sign that could open a comment, then it must not close that. -/
structure IsContent (source : List Char) (sec : Section) (text : List Char) : Prop where
  nonempty : text ≠ []
  bracket : '<' ∉ text
  null : '\x00' ∉ text
  comment : opensCommentBefore sec.start 0 ((tokens? source).getD []) = true →
    ¬ ['-', '-', '>'] <:+: text

theorem map_fst_zip_of_length {found : List Section} {texts : List (List Char)}
    (hlength : texts.length = found.length) : (found.zip texts).map (·.1) = found :=
  List.map_fst_zip (by omega)

theorem arePlaced_sectionsFrom {source : List Char} {tokens : List (Token × List Char)}
    (htokens : tokens? source = some tokens) :
    ArePlaced source (sectionsFrom [] 0 0 tokens) := by
  obtain ⟨hindex, hcontent⟩ := sectionsOf_eq_ok (@sectionsOf_stylesFrom [] _ _ htokens [] 0)
  have hlength : ((sectionsFrom [] 0 0 tokens).map (·.content)).length =
      (sectionsFrom [] 0 0 tokens).length := List.length_map ..
  obtain ⟨refilled, hrefilled⟩ := exists_refilled htokens [] 0 0 hlength
  -- The places of the sections do not depend on the texts, so any exchange of the contents shows them.
  have hsubstituted := hrefilled.substituted
  rw [textOf_of_tokens? htokens] at hsubstituted
  have hfound := map_fst_zip_of_length hlength
  refine ⟨hindex.trans List.range_eq_range'.symm, ?_, fun sec hmem => ?_⟩
  · rw [← hfound, List.pairwise_map]
    exact hsubstituted.pairwise
  · obtain ⟨part, hpart, rfl⟩ := List.mem_map.mp (hfound ▸ hmem)
    obtain ⟨hstart, hstop⟩ := @Substituted.isBoundary _ _ _ [] hsubstituted part hpart
    exact ⟨start_lt_stop _ hmem, hstart, hstop, hcontent _ hmem⟩

/-- A component with other contents has no faults either, and its sections are those among the new
tokens. -/
theorem Refilled.sections_eq {source : List Char} {tokens refilled : List (Token × List Char)}
    {parts : List (Section × List Char)} (hrefilled : Refilled [] 0 0 tokens parts refilled)
    (htokens : tokens? source = some tokens) (hclosed : areClosed tokens) (hnull : '\x00' ∉ source)
    (hparts : ∀ part ∈ parts, IsContent source part.1 part.2) (path : String) :
    sections path (textOf refilled) = .ok (sectionsFrom [] 0 0 refilled) := by
  have hsource := textOf_of_tokens? htokens
  have hcut : tokens? (textOf refilled) = some refilled := by
    refine hrefilled.tokens?_eq (hsource ▸ htokens) (fun part hmem => (hparts part hmem).bracket)
      fun part hmem hbefore => (hparts part hmem).comment ?_
    rw [htokens]
    exact hbefore
  have hclosed' : areClosed refilled := by
    rw [areClosed, hrefilled.levels?_eq]
    exact hclosed
  have hnull' := hrefilled.notMem (hsource ▸ hnull) fun part hmem => (hparts part hmem).null
  exact sections_eq_sectionsFrom hcut hclosed' hnull' path

/-- The sections of a component without faults are placed in it, and texts can be put in place of their
contents. The contents themselves give the component back, and other texts are found again as the
contents of sections with the same attributes. -/
theorem sections_splice (path : String) {source : List Char} {nodes : List Node}
    (hread : readWellformed? source = some nodes) :
    ∃ found, sections path source = .ok found ∧ ArePlaced source found ∧
      ∀ texts, texts.length = found.length →
        ∃ output, splice source ((found.zip texts).map exchange) = .ok output ∧
          (texts = found.map (·.content) → output = source) ∧
          ((∀ part ∈ found.zip texts, IsContent source part.1 part.2) →
            ∃ again, sections path output = .ok again ∧
              again.map (·.attributes) = found.map (·.attributes) ∧
              again.map (·.content) = texts) := by
  obtain ⟨hnull, tokens, htokens, hclosed⟩ := exists_tokens hread
  refine ⟨_, sections_eq_sectionsFrom htokens hclosed hnull path, arePlaced_sectionsFrom htokens,
    fun texts hlength => ?_⟩
  obtain ⟨refilled, hrefilled⟩ := exists_refilled htokens [] 0 0 hlength
  have hsubstituted := hrefilled.substituted
  rw [textOf_of_tokens? htokens] at hsubstituted
  refine ⟨_, hsubstituted.splice_eq, fun htexts => hsubstituted.eq_of_contents ?_, fun hparts => ?_⟩
  · have hzip := List.zip_map' (f := id) (g := Section.content) (l := sectionsFrom [] 0 0 tokens)
    rw [List.map_id] at hzip
    rw [htexts, hzip, List.forall_mem_map]
    exact fun _ _ => rfl
  · refine ⟨_, hrefilled.sections_eq htokens hclosed hnull hparts path, ?_⟩
    have hsections := hrefilled.map_sectionsFrom (fun part hmem => (hparts part hmem).nonempty) 0 0
    constructor
    · have hattributes := congrArg (List.map Prod.fst) hsections
      rw [List.map_map, List.map_map] at hattributes
      refine hattributes.trans ?_
      rw [← congrArg (List.map (·.attributes)) (map_fst_zip_of_length hlength), List.map_map]
      rfl
    · have hcontents := congrArg (List.map Prod.snd) hsections
      rw [List.map_map, List.map_map] at hcontents
      exact hcontents.trans (List.map_snd_zip (by omega))

/-- A component with two sections, after a value that begins with a sign that could open a comment. -/
def signedComponent : List Char :=
  "<p b=\"<!--\">é</p><style lang=\"scss\">a</style><STYLE>b</STYLE>".toList

/-- A text may have dashes and brackets that close, apart from each other, after such a sign. -/
theorem sections_splice_signedComponent :
    (readWellformed? signedComponent).isSome = true ∧
      ∃ output again,
        splice signedComponent [⟨37, 38, "x > y--".toList⟩, ⟨53, 54, "> --".toList⟩] = .ok output ∧
        sections "a.vue" output = .ok again ∧
        again.map (·.attributes) = [[⟨"lang", some "scss"⟩], []] ∧
        again.map (·.content) = ["x > y--".toList, "> --".toList] := by
  have hsome : (readWellformed? signedComponent).isSome = true := by decide +kernel
  obtain ⟨nodes, hnodes⟩ := Option.isSome_iff_exists.mp hsome
  have hsections : sections "a.vue" signedComponent =
      .ok [⟨['a'], [⟨"lang", some "scss"⟩], 37, 38, 0⟩, ⟨['b'], [], 53, 54, 1⟩] := by
    decide +kernel
  obtain ⟨found, hfound, -, hrefill⟩ := sections_splice "a.vue" hnodes
  obtain rfl := Except.ok.inj (hsections.symm.trans hfound)
  obtain ⟨output, hsplice, -, hagain⟩ := hrefill ["x > y--".toList, "> --".toList] rfl
  have hcontent : ∀ part ∈ List.zip
      [⟨['a'], [⟨"lang", some "scss"⟩], 37, 38, 0⟩, ⟨['b'], [], 53, 54, 1⟩]
      ["x > y--".toList, "> --".toList], IsContent signedComponent part.1 part.2 := by
    simp only [List.zip_cons_cons, List.zip_nil_left, List.forall_mem_cons]
    have hfirst : ¬ ['-', '-', '>'] <:+: "x > y--".toList := by decide +kernel
    have hsecond : ¬ ['-', '-', '>'] <:+: "> --".toList := by decide +kernel
    exact ⟨⟨by decide, by decide, by decide, fun _ => hfirst⟩,
      ⟨by decide, by decide, by decide, fun _ => hsecond⟩, by simp⟩
  obtain ⟨again, hsections', hattributes, hcontents⟩ := hagain hcontent
  exact ⟨hsome, output, again, hsplice, hsections', hattributes, hcontents⟩

/-- Texts that are not found again, though they are not empty and have no opening bracket: one that ends
a comment after a sign that could open one, and one with a null in it. -/
theorem sections_splice_unreadable :
    ((readWellformed? "<style a=\"<!--\">p</style>".toList).isSome = true ∧
      sections "a.vue" "<style a=\"<!--\">p</style>".toList =
        .ok [⟨['p'], [⟨"a", some "<!--"⟩], 16, 17, 0⟩] ∧
      splice "<style a=\"<!--\">p</style>".toList [⟨16, 17, "-->".toList⟩] =
        .ok "<style a=\"<!--\">--></style>".toList ∧
      (sections "a.vue" "<style a=\"<!--\">--></style>".toList).toOption = none) ∧
    ((readWellformed? "<style>p</style>".toList).isSome = true ∧
      sections "a.vue" "<style>p</style>".toList = .ok [⟨['p'], [], 7, 8, 0⟩] ∧
      splice "<style>p</style>".toList [⟨7, 8, "a\x00b".toList⟩] =
        .ok "<style>a\x00b</style>".toList ∧
      (sections "a.vue" "<style>a\x00b</style>".toList).toOption = none) := by
  decide +kernel

end StyleMigration.Component
