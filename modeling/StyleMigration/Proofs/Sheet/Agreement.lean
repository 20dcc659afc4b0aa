import StyleMigration.Failure
import StyleMigration.Proofs.Sheet.BraceGrammar
import StyleMigration.Proofs.Sheet.Forest

/-!
Both writings of a forest are migrated alike. Each is read as the tree of a layout
(`IsForest.readBraces_braced`, `IsForest.readIndentation_indented`), and the tree of a layout is written
as the forest is (`print_bracedNodes`, `print_nodes_lineLayout`). Since the migration of such a tree is
the rewriting of the forest whatever the layout, the two results are writings of one forest, or both fail
at the same rule (`migrate_braced_indented`).

By indentation a line heads a group if the next line is deeper. While the lines of a level are read, the
groups deeper than the level are left one by one; what the level has is told by the outline once they
are all left.
-/

set_option autoImplicit false

namespace StyleMigration.Sheet

open Text

variable {entries : List Entry}

/-! ### Forests that both writings carry -/

/-- A text that stands on one line in both writings. -/
structure IsLine (text : List Char) : Prop where
  plain : IsPlain 0 text
  nonempty : text ≠ []
  trimmed : trim text = text
  unbroken : '\n' ∉ text
  uncontinued : text.getLast? ≠ some ','

/-- A selector that heads a rule in both writings. -/
structure IsSelectorLine (selector : List Char) : Prop extends IsLine selector where
  unmarked : ∀ c ∈ selector.head?, c ≠ '@' ∧ c ≠ '+' ∧ c ≠ '='
  notProperty : isNestedProperty selector = false

/-- A forest of such declarations and rules. Every rule has something in it: without, a line does not
head a group. -/
inductive IsForest : List Entry → Prop
  | empty : IsForest []
  | declaration {text : List Char} {entries : List Entry} (htext : IsLine text)
      (hentries : IsForest entries) : IsForest (.declaration text :: entries)
  | rule {selector : List Char} {body entries : List Entry} (hselector : IsSelectorLine selector)
      (hne : body ≠ []) (hbody : IsForest body) (hentries : IsForest entries) :
      IsForest (.rule selector body :: entries)

theorem isBlank_of_mem_indentation {depth : Nat} {c : Char} (hmem : c ∈ indentation depth) :
    isAsciiBlank c = true := by
  rw [List.eq_of_mem_replicate hmem]
  rfl

/-! ### Braces -/

/-- How the entries of a forest in braces are read. The line feed that ends a line belongs to what comes
next. -/
def braceLayout : Layout where
  lead depth := '\n' :: indentation depth
  stop := [';']
  between := [' ']
  enclosure := .braces
  ending depth := ['\n' :: indentation depth]

/-- The tree of a forest in braces. -/
def bracedNodes (entries : List Entry) : List Node :=
  nodes braceLayout 0 [] entries ++ (if entries.isEmpty then [] else [['\n']]).map .text

theorem Entry.print_node_append (layout : Layout) (depth : Nat) (front lead : List Char)
    (entry : Entry) :
    (entry.node layout depth (front ++ lead)).print = front ++ (entry.node layout depth lead).print := by
  cases entry with
  | declaration text => simp [Entry.node, Node.print]
  | rule selector body => simp [Entry.node, Node.print, Header.text]

mutual

theorem Entry.print_node_braceLayout (depth : Nat) (entry : Entry) :
    (entry.node braceLayout depth (indentation depth)).print ++ ['\n'] = entry.braced depth := by
  match entry with
  | .declaration text => simp [Entry.node, Node.print, Entry.braced, braceLayout]
  | .rule selector body =>
    have hbody := print_nodes_braceLayout (depth + 1) body
    calc
      _ = indentation depth ++ selector ++ [' ', '{'] ++
            (print (nodes braceLayout (depth + 1) (braceLayout.lead (depth + 1)) body) ++ ['\n']) ++
            indentation depth ++ ['}', '\n'] := by
        simp [Entry.node, Node.print, Header.text, braceLayout, print_append, print,
          Enclosure.opening, Enclosure.closing]
      _ = _ := by
        rw [hbody]
        simp [Entry.braced]

theorem print_nodes_braceLayout (depth : Nat) (entries : List Entry) :
    print (nodes braceLayout depth (braceLayout.lead depth) entries) ++ ['\n'] =
      '\n' :: braced depth entries := by
  match entries with
  | [] => simp [nodes, print, braced]
  | entry :: entries =>
    have hentry := entry.print_node_braceLayout depth
    have hentries := print_nodes_braceLayout depth entries
    have hlead := entry.print_node_append braceLayout depth ['\n'] (indentation depth)
    calc
      _ = (entry.node braceLayout depth (['\n'] ++ indentation depth)).print ++
            (print (nodes braceLayout depth (braceLayout.lead depth) entries) ++ ['\n']) := by
        rw [nodes, print, List.append_assoc]
        rfl
      _ = '\n' :: ((entry.node braceLayout depth (indentation depth)).print ++ ['\n'] ++
            braced depth entries) := by
        rw [hlead, hentries]
        simp
      _ = _ := by rw [hentry, braced]

end

theorem print_bracedNodes (entries : List Entry) : print (bracedNodes entries) = braced 0 entries := by
  cases entries with
  | nil => simp [bracedNodes, nodes, print, braced]
  | cons entry entries =>
    calc
      _ = (entry.node braceLayout 0 (indentation 0)).print ++
            (print (nodes braceLayout 0 (braceLayout.lead 0) entries) ++ ['\n']) := by
        simp [bracedNodes, nodes, print, print_append, Node.print, indentation]
      _ = (entry.node braceLayout 0 (indentation 0)).print ++ ['\n'] ++ braced 0 entries := by
        rw [print_nodes_braceLayout, List.append_assoc, List.singleton_append]
      _ = _ := by rw [Entry.print_node_braceLayout, braced]

theorem IsForest.isBody_nodes (hforest : IsForest entries) (depth : Nat)
    {lead : List Char} (hlead : ∀ c ∈ lead, isAsciiBlank c = true) {texts : List (List Char)}
    (htexts : IsBody (texts.map .text)) :
    IsBody (nodes braceLayout depth lead entries ++ texts.map .text) := by
  have hbreak (depth : Nat) : ∀ c ∈ '\n' :: indentation depth, isAsciiBlank c = true :=
    List.forall_mem_cons.mpr ⟨rfl, fun _ => isBlank_of_mem_indentation⟩
  induction hforest generalizing depth lead texts with
  | empty => simpa [nodes] using htexts
  | @declaration text entries htext hentries ih =>
    rw [nodes, Entry.node, List.cons_append]
    exact .declaration hlead htext.plain (ih depth (hbreak depth) htexts)
  | @rule selector body entries hselector hne hbody hentries ihbody ihentries =>
    have hending : IsBody ((braceLayout.ending depth).map .text) :=
      .blank (List.cons_ne_nil _ _) fun c hc => isBlank_of_isAsciiBlank (hbreak depth c hc)
    rw [nodes, Entry.node, List.cons_append]
    exact .rule hlead hselector.plain hselector.nonempty hselector.trimmed
      (fun hat => (hselector.unmarked _ hat).1 rfl) hselector.notProperty
      (by rintro c hc; cases List.mem_singleton.mp hc; rfl)
      (ihbody (depth + 1) (hbreak (depth + 1)) hending) (ihentries depth (hbreak depth) htexts)

theorem isApart_nodes_braceLayout (depth : Nat) (lead : List Char) (texts : List (List Char))
    (entries : List Entry) : IsApart (nodes braceLayout depth lead entries ++ texts.map .text) := by
  match entries with
  | [] =>
    rw [nodes, List.nil_append]
    induction texts with
    | nil => exact List.forall_mem_nil _
    | cons text texts ih => exact isApart_text_cons.mpr ih
  | .declaration text :: entries =>
    rw [nodes, Entry.node, List.cons_append, isApart_text_cons]
    exact isApart_nodes_braceLayout depth _ texts entries
  | .rule selector body :: entries =>
    rw [nodes, Entry.node, List.cons_append, isApart_group_cons]
    refine ⟨?_, isApart_nodes_braceLayout (depth + 1) _ _ body,
      isApart_nodes_braceLayout depth _ texts entries⟩
    simp [Header.text, braceLayout]

/-- A forest in braces is read as the tree of its layout. -/
theorem IsForest.readBraces_braced (lineComments : Bool) (hforest : IsForest entries) :
    readBraces lineComments (braced 0 entries) = bracedNodes entries := by
  have htexts : IsBody ((if entries.isEmpty then [] else [['\n']]).map .text) := by
    split
    · exact .empty
    · exact .blank (List.cons_ne_nil _ _) (by decide)
  have hbody := hforest.isBody_nodes 0 (List.forall_mem_nil _) htexts
  rw [← print_bracedNodes]
  exact hbody.readBraces_print lineComments (isApart_nodes_braceLayout 0 [] _ entries)

/-! ### Lines -/

/-- How the entries of a forest by indentation are read. -/
def lineLayout : Layout where
  lead := indentation
  stop := ['\n']
  between := ['\n']
  enclosure := .indented
  ending _ := []

mutual

theorem Entry.print_node_lineLayout (depth : Nat) (entry : Entry) :
    (entry.node lineLayout depth (indentation depth)).print = entry.indented depth := by
  match entry with
  | .declaration text => simp [Entry.node, Node.print, Entry.indented, lineLayout]
  | .rule selector body =>
    have hbody := print_nodes_lineLayout (depth + 1) body
    simpa [Entry.node, Node.print, Header.text, Entry.indented, Enclosure.opening, Enclosure.closing,
      lineLayout] using hbody

theorem print_nodes_lineLayout (depth : Nat) (entries : List Entry) :
    print (nodes lineLayout depth (indentation depth) entries) = indented depth entries := by
  match entries with
  | [] => rw [nodes, print, indented]
  | entry :: entries =>
    have hentries := print_nodes_lineLayout depth entries
    rw [nodes, print, entry.print_node_lineLayout, indented]
    exact congrArg _ hentries

end

theorem splitLines_line {text : List Char} (hunbroken : '\n' ∉ text) (rest : List Char) :
    splitLines (text ++ '\n' :: rest) = (text ++ ['\n']) :: splitLines rest := by
  induction text with
  | nil => rfl
  | cons c text ih =>
    rw [List.mem_cons, not_or] at hunbroken
    rw [List.cons_append, splitLines, ih hunbroken.2]
    · rfl
    · exact fun hbreak => hunbroken.1 hbreak.symm

theorem ne_of_isBlank {c blank : Char} (hc : isBlank c = false) (hblank : isBlank blank = true) :
    c ≠ blank := by
  rintro rfl
  rw [hc] at hblank
  cases hblank

theorem takeHeader_of_not_isContinued {line : List Char} (hline : isContinued line = false)
    (lines : List (List Char)) : takeHeader line lines = ([line], lines) := by
  cases lines with
  | nil => rfl
  | cons next lines => rw [takeHeader, hline, if_neg Bool.false_ne_true]

/-- The line of a text on a level. -/
def lineAt (depth : Nat) (text : List Char) : List Char :=
  indentation depth ++ text ++ ['\n']

section Line

variable {text : List Char} (htext : IsLine text) (depth : Nat)
include htext

theorem IsLine.splitLines_lineAt (rest : List Char) :
    splitLines (lineAt depth text ++ rest) = lineAt depth text :: splitLines rest := by
  have hunbroken : '\n' ∉ indentation depth ++ text := by
    rw [List.mem_append, not_or]
    refine ⟨fun hmem => ?_, htext.unbroken⟩
    cases List.eq_of_mem_replicate hmem
  rw [lineAt, List.append_assoc]
  exact splitLines_line hunbroken rest

theorem IsLine.lineContent_eq : lineContent (lineAt depth text) = indentation depth ++ text := by
  obtain ⟨front, last, rfl⟩ := (List.eq_nil_or_concat text).resolve_left htext.nonempty
  have hlast := getLast?_of_trimmed htext.trimmed last (by simp)
  have hbreak : last ≠ '\n' ∧ last ≠ '\r' := ⟨ne_of_isBlank hlast rfl, ne_of_isBlank hlast rfl⟩
  simp [lineContent, lineAt, hbreak]

theorem IsLine.lineIndent_eq : lineIndent (lineAt depth text) = 2 * depth := by
  have hspan : ((indentation depth ++ text).takeWhile fun c => c == ' ' || c == '\t') =
      indentation depth := by
    refine (span_append (fun c hc => ?_) fun c hc => ?_).1
    · rw [List.eq_of_mem_replicate hc]
      rfl
    · have hblank := head?_of_trimmed htext.trimmed c hc
      have hspace : c ≠ ' ' ∧ c ≠ '\t' := ⟨ne_of_isBlank hblank rfl, ne_of_isBlank hblank rfl⟩
      simp [hspace]
  rw [lineIndent, htext.lineContent_eq, hspan, indentation, List.length_replicate]

theorem IsLine.trim_lineContent : trim (lineContent (lineAt depth text)) = text := by
  have hblanks : ∀ c ∈ indentation depth, isBlank c = true :=
    fun c hc => isBlank_of_isAsciiBlank (isBlank_of_mem_indentation hc)
  rw [htext.lineContent_eq, trim, trimStart_append hblanks, ← trim, htext.trimmed]

theorem IsLine.isBlankLine_eq : isBlankLine (lineAt depth text) = false := by
  obtain ⟨c, rest, rfl⟩ := List.exists_cons_of_ne_nil htext.nonempty
  have hfirst := head?_of_trimmed htext.trimmed c rfl
  simp [isBlankLine, htext.lineContent_eq, isAllBlank, hfirst]

theorem IsLine.isContinued_eq : isContinued (lineAt depth text) = false := by
  rw [isContinued, htext.trim_lineContent, decide_eq_false htext.uncontinued]

theorem IsLine.opensComment_eq : opensComment text = false := by
  unfold opensComment
  split
  · rename_i rest
    exact absurd ⟨[], rest, rfl⟩ htext.plain.uncommented.2
  · rename_i rest
    exact absurd ⟨[], rest, rfl⟩ htext.plain.uncommented.1
  · rfl

/-- A line before one that is not deeper is a text. -/
theorem IsLine.takeLineToken_text {lines : List (List Char)}
    (hlines : (nextIndent? lines).any (2 * depth < ·) = false) :
    takeLineToken (lineAt depth text) lines = (.text (some (2 * depth)) (lineAt depth text), lines) := by
  simp [takeLineToken, htext.isBlankLine_eq, htext.lineIndent_eq,
    takeHeader_of_not_isContinued (htext.isContinued_eq depth), hlines]

end Line

/-- A line before a deeper one heads a group. -/
theorem IsSelectorLine.takeLineToken_header {selector : List Char}
    (hselector : IsSelectorLine selector) (depth : Nat) {lines : List (List Char)}
    (hlines : (nextIndent? lines).any (2 * depth < ·) = true) :
    takeLineToken (lineAt depth selector) lines =
      (.header (2 * depth) (.rule (indentation depth) selector ['\n']), lines) := by
  have hblanks : ∀ c ∈ indentation depth, isBlank c = true :=
    fun c hc => isBlank_of_isAsciiBlank (isBlank_of_mem_indentation hc)
  have hheader : Header.ofLines selector (lineAt depth selector) =
      .rule (indentation depth) selector ['\n'] := by
    have hbody : trimEnd (lineAt depth selector) = indentation depth ++ selector := by
      rw [lineAt, trimEnd_append (by decide),
        trimEnd_append_of_trimmed hselector.trimmed hselector.nonempty]
    have hend : trailingBlanks (lineAt depth selector) = ['\n'] := by
      rw [lineAt, trailingBlanks_append (by decide),
        trailingBlanks_append_of_trimmed hselector.trimmed hselector.nonempty, List.nil_append]
    have hunmarked {c : Char} (hc : c = '@' ∨ c = '+' ∨ c = '=') : selector.head? ≠ some c := by
      intro hhead
      have hmarks := hselector.unmarked c hhead
      rcases hc with hat | hplus | hequals
      · exact hmarks.1 hat
      · exact hmarks.2.1 hplus
      · exact hmarks.2.2 hequals
    simp [Header.ofLines, hunmarked, hselector.notProperty, hbody, hend, leadingBlanks_append hblanks,
      leadingBlanks_eq_nil hselector.trimmed, trimStart_append hblanks,
      trimStart_eq_self hselector.trimmed]
  simp [takeLineToken, hselector.isBlankLine_eq, hselector.lineIndent_eq,
    takeHeader_of_not_isContinued (hselector.isContinued_eq depth), hlines,
    hselector.trim_lineContent, hselector.opensComment_eq, hheader]

/-- The lines of a level that is not empty begin with one of the level. -/
theorem IsForest.nextIndent?_indented (hforest : IsForest entries)
    (hne : entries ≠ []) (depth : Nat) (rest : List Char) :
    nextIndent? (splitLines (indented depth entries ++ rest)) = some (2 * depth) := by
  have hfirst {text : List Char} (htext : IsLine text) (others : List Char) :
      nextIndent? (splitLines (lineAt depth text ++ others)) = some (2 * depth) := by
    rw [htext.splitLines_lineAt, nextIndent?, List.find?_cons_of_pos (by simp [htext.isBlankLine_eq]),
      Option.map_some, htext.lineIndent_eq]
  cases hforest with
  | empty => exact absurd rfl hne
  | declaration htext hentries =>
    rw [indented, Entry.indented, List.append_assoc]
    exact hfirst htext _
  | rule hselector hbody =>
    rw [indented, Entry.indented, List.append_assoc, List.append_assoc]
    exact hfirst hselector.toIsLine _

/-! ### Levels of an outline -/

namespace Outline

variable {Mark : Type}

/-- The innermost group of an outline is not to be left. -/
def Stays (leaves : Mark → Bool) (outline : Outline Mark) : Prop :=
  ∀ frame ∈ outline.around.head?, leaves frame.1 = false

theorem Stays.leaveWhile_eq {leaves : Mark → Bool} {outline : Outline Mark}
    (hstays : outline.Stays leaves) (enclosure : Enclosure) :
    outline.leaveWhile enclosure leaves = outline := by
  obtain ⟨nodes, around⟩ := outline
  cases around with
  | nil => rfl
  | cons frame around =>
    have hframe := hstays frame rfl
    simp [leaveWhile, leaveWhile.go, hframe]

theorem stays_leaveWhile (outline : Outline Mark) (enclosure : Enclosure) (leaves : Mark → Bool) :
    (outline.leaveWhile enclosure leaves).Stays leaves := by
  obtain ⟨nodes, around⟩ := outline
  rw [leaveWhile]
  induction around generalizing nodes with
  | nil =>
    intro frame hframe
    cases hframe
  | cons frame around ih =>
    rw [leaveWhile.go]
    split
    · exact ih _
    · rename_i hstays
      rintro frame hframe
      cases hframe
      simpa using hstays

/-- To leave some groups before all that are to be left changes nothing. -/
theorem leaveWhile_leaveWhile (outline : Outline Mark) (enclosure : Enclosure)
    {first second : Mark → Bool} (hfirst : ∀ mark, first mark = true → second mark = true) :
    (outline.leaveWhile enclosure first).leaveWhile enclosure second =
      outline.leaveWhile enclosure second := by
  obtain ⟨nodes, around⟩ := outline
  simp only [leaveWhile]
  induction around generalizing nodes with
  | nil => rfl
  | cons frame around ih =>
    rw [leaveWhile.go]
    split
    · rename_i hleaves
      rw [ih, leaveWhile.go, if_pos (hfirst _ hleaves)]
    · rfl

/-- A group that was entered is left with what was added to it. -/
theorem Stays.leaveWhile_enter {leaves : Mark → Bool} {outline : Outline Mark}
    (hstays : outline.Stays leaves) {mark : Mark} (hmark : leaves mark = true) (header : Header)
    (enclosure : Enclosure) (body : List Node) :
    ((outline.enter mark header).addAll body).leaveWhile enclosure leaves =
      outline.add (.group header enclosure body) := by
  have hadd : (outline.add (.group header enclosure body)).Stays leaves := hstays
  rw [← hadd.leaveWhile_eq enclosure]
  simp [leaveWhile, leaveWhile.go, enter, addAll, hmark, add]

end Outline

/-- The outline of a level, with all deeper groups left. -/
def Outline.atLevel (depth : Nat) (outline : Outline Nat) : Outline Nat :=
  outline.leaveWhile .indented (isOutside (some (2 * depth)))

theorem Outline.addLineToken_text (outline : Outline Nat) (depth : Nat) (text : List Char) :
    outline.addLineToken (.text (some (2 * depth)) text) = (outline.atLevel depth).add (.text text) :=
  rfl

theorem Outline.addLineToken_header (outline : Outline Nat) (depth : Nat) (header : Header) :
    outline.addLineToken (.header (2 * depth) header) =
      (outline.atLevel depth).enter (2 * depth) header :=
  rfl

theorem Outline.stays_atLevel (outline : Outline Nat) (depth : Nat) :
    (outline.atLevel depth).Stays (isOutside (some (2 * depth))) :=
  stays_leaveWhile outline _ _

theorem lineTokens_cons {line : List Char} {lines : List (List Char)} {token : LineToken}
    (htaken : takeLineToken line lines = (token, lines)) :
    lineTokens (line :: lines) = token :: lineTokens lines := by
  rw [lineTokens, htaken]
  simp

/-- The lines of a level and what comes after them, if that is not deeper, begin with a line that is
not deeper. -/
theorem IsForest.not_deeper (hforest : IsForest entries) {depth : Nat}
    {rest : List Char} (hrest : (nextIndent? (splitLines rest)).any (2 * depth < ·) = false) :
    (nextIndent? (splitLines (indented depth entries ++ rest))).any (2 * depth < ·) = false := by
  by_cases hne : entries = []
  · rwa [hne, indented, List.nil_append]
  · rw [hforest.nextIndent?_indented hne]
    simp

/-- The lines of a level build it, up to groups that the next line leaves. -/
theorem IsForest.foldl_lineTokens (hforest : IsForest entries) (depth : Nat)
    {rest : List Char} (hrest : (nextIndent? (splitLines rest)).any (2 * depth < ·) = false)
    (outline : Outline Nat) :
    ∃ after : Outline Nat,
      (lineTokens (splitLines (indented depth entries ++ rest))).foldl Outline.addLineToken outline =
        (lineTokens (splitLines rest)).foldl Outline.addLineToken after ∧
      after.atLevel depth =
        (outline.atLevel depth).addAll (nodes lineLayout depth (indentation depth) entries) := by
  induction hforest generalizing depth rest outline with
  | empty => exact ⟨outline, by rw [indented, List.nil_append], by rw [nodes]; rfl⟩
  | @declaration text entries htext hentries ih =>
    have hsource : indented depth (.declaration text :: entries) ++ rest =
        lineAt depth text ++ (indented depth entries ++ rest) := by
      rw [indented, Entry.indented, List.append_assoc, lineAt]
    have htoken := lineTokens_cons (htext.takeLineToken_text depth (hentries.not_deeper hrest))
    have hstays : ((outline.atLevel depth).add (.text (lineAt depth text))).Stays
        (isOutside (some (2 * depth))) := outline.stays_atLevel depth
    obtain ⟨after, hafter, hlevel⟩ :=
      ih depth hrest ((outline.atLevel depth).add (.text (lineAt depth text)))
    refine ⟨after, ?_, ?_⟩
    · rw [hsource, htext.splitLines_lineAt, htoken, List.foldl_cons, Outline.addLineToken_text, hafter]
    · rw [hlevel, Outline.atLevel, hstays.leaveWhile_eq, nodes, Entry.node]
      simp [Outline.addAll, Outline.add, lineLayout, lineAt]
  | @rule selector body entries hselector hne hbody hentries ihbody ihentries =>
    have hsource : indented depth (.rule selector body :: entries) ++ rest =
        lineAt depth selector ++ (indented (depth + 1) body ++ (indented depth entries ++ rest)) := by
      rw [indented, Entry.indented, List.append_assoc, List.append_assoc, lineAt]
    have hdeeper : (nextIndent? (splitLines (indented (depth + 1) body ++
        (indented depth entries ++ rest)))).any (2 * depth < ·) = true := by
      rw [hbody.nextIndent?_indented hne]
      simp
    have htoken := lineTokens_cons (hselector.takeLineToken_header depth hdeeper)
    have hrest' : (nextIndent? (splitLines (indented depth entries ++ rest))).any
        (2 * (depth + 1) < ·) = false := by
      have hnot := hentries.not_deeper hrest
      cases hnext : nextIndent? (splitLines (indented depth entries ++ rest)) with
      | none => rfl
      | some indent =>
        rw [hnext] at hnot
        simp only [Option.any_some, decide_eq_false_iff_not] at hnot ⊢
        omega
    -- The body is built inside the group, which is left on the way back to the level.
    obtain ⟨inner, hinner, hinside⟩ := ihbody (depth + 1) hrest'
      ((outline.atLevel depth).enter (2 * depth) (.rule (indentation depth) selector ['\n']))
    obtain ⟨after, hafter, hlevel⟩ := ihentries depth hrest inner
    have hentered : ((outline.atLevel depth).enter (2 * depth)
        (.rule (indentation depth) selector ['\n'])).Stays (isOutside (some (2 * (depth + 1)))) := by
      rintro frame hframe
      cases hframe
      simp [isOutside]
    have hdeeper' (mark : Nat) (hmark : isOutside (some (2 * (depth + 1))) mark = true) :
        isOutside (some (2 * depth)) mark = true := by
      simp only [isOutside, Option.any_some, Bool.not_eq_true', decide_eq_false_iff_not] at hmark ⊢
      omega
    refine ⟨after, ?_, ?_⟩
    · rw [hsource, hselector.splitLines_lineAt, htoken, List.foldl_cons, Outline.addLineToken_header,
        hinner, hafter]
    · rw [Outline.atLevel, Outline.atLevel, hentered.leaveWhile_eq] at hinside
      have hgroup : inner.atLevel depth = (outline.atLevel depth).add
          (.group (.rule (indentation depth) selector ['\n']) .indented
            (nodes lineLayout (depth + 1) (indentation (depth + 1)) body)) := by
        rw [Outline.atLevel, ← inner.leaveWhile_leaveWhile .indented hdeeper', hinside]
        exact (outline.stays_atLevel depth).leaveWhile_enter (by simp [isOutside]) _ _ _
      rw [hlevel, hgroup, nodes, Entry.node]
      simp [Outline.addAll, Outline.add, lineLayout]

/-- A forest by indentation is read as the tree of its layout. -/
theorem IsForest.readIndentation_indented (hforest : IsForest entries) :
    readIndentation (indented 0 entries) = nodes lineLayout 0 [] entries := by
  have hnone : (nextIndent? (splitLines [])).any (2 * 0 < ·) = false := rfl
  obtain ⟨after, hafter, hlevel⟩ := hforest.foldl_lineTokens 0 hnone .empty
  have hempty : lineTokens (splitLines []) = [] := by
    rw [splitLines, lineTokens]
  rw [List.append_nil, hempty, List.foldl_nil] at hafter
  rw [Outline.atLevel] at hlevel
  rw [readIndentation, hafter, Outline.finish,
    ← after.leaveWhile_leaveWhile .indented fun _ _ => rfl, hlevel]
  simp [Outline.atLevel, Outline.empty, Outline.leaveWhile, Outline.leaveWhile.go, Outline.addAll,
    indentation]

/-! ### Both writings -/

/-- Without dropping, rewriting leaves nothing only of nothing. -/
theorem isEmpty_of_rewriteAll {rewritten : List Entry}
    (hrewritten : rewriteAll false entries = .ok rewritten) :
    rewritten.isEmpty = entries.isEmpty := by
  cases entries with
  | nil =>
    rw [rewriteAll, Except.ok.injEq] at hrewritten
    rw [← hrewritten]
  | cons entry entries =>
    rw [rewriteAll, Bool.false_and, if_neg Bool.false_ne_true, bind_eq_ok_iff] at hrewritten
    obtain ⟨first, -, hrewritten⟩ := hrewritten
    rw [bind_eq_ok_iff] at hrewritten
    obtain ⟨others, -, hrewritten⟩ := hrewritten
    cases hrewritten
    rfl

theorem IsForest.migrate_braced (hforest : IsForest entries) :
    migrate .scss (braced 0 entries) = (rewriteAll false entries).map (braced 0) := by
  rw [migrate_eq_map_outcome, read, hforest.readBraces_braced, bracedNodes,
    outcome_migrateAll_nodes braceLayout 0 [] false (absurd · Bool.false_ne_true)]
  cases hrewritten : rewriteAll false entries with
  | error ambiguity => rfl
  | ok rewritten =>
    have hprint := print_bracedNodes rewritten
    rw [bracedNodes, isEmpty_of_rewriteAll hrewritten] at hprint
    exact congrArg Except.ok hprint

theorem IsForest.migrate_indented (hforest : IsForest entries) :
    migrate .sass (indented 0 entries) = (rewriteAll false entries).map (indented 0) := by
  have houtcome := outcome_migrateAll_nodes lineLayout 0 [] false nofun [] entries
  simp only [List.map_nil, List.append_nil] at houtcome
  rw [migrate_eq_map_outcome, read, hforest.readIndentation_indented, houtcome]
  cases rewriteAll false entries with
  | error ambiguity => rfl
  | ok rewritten => exact congrArg Except.ok (print_nodes_lineLayout 0 rewritten)

/-- A forest of one-line declarations and rules is migrated alike in braces and by indentation: both
migrations fail at the same rule, or both give a writing of one forest. -/
theorem migrate_braced_indented {entries : List Entry} (hforest : IsForest entries) :
    migrate .scss (braced 0 entries) = (rewriteAll false entries).map (braced 0) ∧
      migrate .sass (indented 0 entries) = (rewriteAll false entries).map (indented 0) :=
  ⟨hforest.migrate_braced, hforest.migrate_indented⟩

/-- A rule with a legacy combinator, and in it a rule whose appending child goes. -/
def droppingForest : List Entry :=
  [.rule ".a >>> .b".toList
    [.declaration "color: #fff".toList,
      .rule ".c:deep".toList
        [.rule "&-d".toList [.declaration "top: 0".toList], .declaration "left: calc(1px)".toList]]]

theorem migrate_droppingForest :
    IsForest droppingForest ∧
      migrate .scss (braced 0 droppingForest) =
        .ok ".a :deep .b \x7b\n  color: #fff;\n  .c:deep \x7b\n    left: calc(1px);\n  \x7d\n\x7d\n".toList ∧
      migrate .sass (indented 0 droppingForest) =
        .ok ".a :deep .b\n  color: #fff\n  .c:deep\n    left: calc(1px)\n".toList := by
  have hforest : IsForest droppingForest := by
    refine .rule ⟨⟨?_, ?_, ?_, ?_, ?_⟩, ?_, ?_⟩ (List.cons_ne_nil _ _)
      (.declaration ⟨?_, ?_, ?_, ?_, ?_⟩ (.rule ⟨⟨?_, ?_, ?_, ?_, ?_⟩, ?_, ?_⟩ (List.cons_ne_nil _ _)
        (.rule ⟨⟨?_, ?_, ?_, ?_, ?_⟩, ?_, ?_⟩ (List.cons_ne_nil _ _)
          (.declaration ⟨?_, ?_, ?_, ?_, ?_⟩ .empty) (.declaration ⟨?_, ?_, ?_, ?_, ?_⟩ .empty))
        .empty)) .empty <;> decide +kernel
  obtain ⟨hbraced, hindented⟩ := migrate_braced_indented hforest
  refine ⟨hforest, hbraced.trans ?_, hindented.trans ?_⟩ <;> decide +kernel

end StyleMigration.Sheet
