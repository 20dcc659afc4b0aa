import StyleMigration.Proofs.Selector.Compound

/-!
Reading recovers the selector lists of the grammar. The parts of a branch come off its text one after the
other (`IsChain.partsOf_eq`). The commas of a list and the blanks around its branches are found since the
texts of the branches are segments and neither begin nor end with a blank (`IsBranch.isReadBranch`).
Arguments are read in the same way, one level further in (`IsWritten.isRecovered`).

A blank on the outer side of a combinator at the edge of a branch is read as a blank around the branch.
Apart from such blanks every list of the grammar is recovered (`read_listText_eq_self_iff`).
-/

set_option autoImplicit false

namespace StyleMigration.Selector

open Text

variable {branches : List Branch} {text : List Char}

/-! ### Branches and lists -/

section Chain

variable {parts : List Part} (hparts : IsChain IsRecovered parts)
include hparts

theorem IsChain.canStart (rest : List Char) : CanStart (partsText parts ++ rest) := by
  cases hparts with
  | compound hcompound => exact hcompound.canStart rest
  | cons hcompound hcombinator hothers =>
    rw [partsText_append, List.append_assoc]
    exact hcompound.canStart _

theorem IsChain.isTight : IsTight (partsText parts) := by
  induction hparts with
  | compound hcompound => exact hcompound.isTight
  | cons hcompound hcombinator hothers ih =>
    rw [partsText_append, partsText, ← List.append_assoc]
    exact hcompound.isTight.append_middle _ ih

theorem IsChain.isSegment : IsSegment (partsText parts) := by
  have hsegment {parts : List Part} (hcompound : IsCompound IsRecovered parts) :
      IsSegment (partsText parts) :=
    isSegment_partsText fun part hmem => (hcompound.isSolid part hmem).segment
  induction hparts with
  | compound hcompound => exact hsegment hcompound
  | cons hcompound hcombinator hothers ih =>
    rw [partsText_append, partsText]
    exact (hsegment hcompound).append (hcombinator.isSegment.append ih)

/-- The parts of a chain come off the front of a text one after the other. -/
theorem IsChain.partsOf_eq {rest : List Char} (hrest : IsBoundary rest) :
    partsOf (partsText parts ++ rest) = parts ++ partsOf rest := by
  induction hparts with
  | compound hcompound => exact hcompound.partsOf_eq hrest
  | @cons parts others combinator hcompound hcombinator hothers ih =>
    have hsource : partsText (parts ++ combinator :: others) ++ rest =
        partsText parts ++ (combinator.text ++ (partsText others ++ rest)) := by
      simp [partsText_append, partsText]
    rw [hsource, hcompound.partsOf_eq (hcombinator.isBoundary _),
      hcombinator.partsOf_eq (hothers.canStart rest), ih, List.append_assoc, List.cons_append]

end Chain

theorem IsFirst.cases_combinator {tight : Bool} {first : List Part} (hfirst : IsFirst tight first) :
    first = [] ∨ ∃ part, first = [part] ∧ IsCombinator part := by
  cases hfirst with
  | none => exact .inl rfl
  | sign hsign hbefore hafter htight => exact .inr ⟨_, rfl, .sign hsign hbefore hafter⟩

theorem IsLast.cases_combinator {tight : Bool} {last : List Part} (hlast : IsLast tight last) :
    last = [] ∨ ∃ part, last = [part] ∧ IsCombinator part := by
  cases hlast with
  | none => exact .inl rfl
  | sign hsign hbefore hafter htight => exact .inr ⟨_, rfl, .sign hsign hbefore hafter⟩

section Edges

variable {tight : Bool} {first chain last : List Part} (hfirst : IsFirst tight first)
  (hchain : IsChain IsRecovered chain) (hlast : IsLast tight last)
include hfirst hchain hlast

/-- The parts of a branch are read from their text. -/
theorem partsOf_branch : partsOf (partsText (first ++ chain ++ last)) = first ++ chain ++ last := by
  have hend : partsOf (partsText last) = last ∧ IsBoundary (partsText last) := by
    rcases hlast.cases_combinator with rfl | ⟨part, rfl, hpart⟩
    · rw [partsText]
      exact ⟨partsOf_nil, isBoundary_nil⟩
    · have hboundary := hpart.isBoundary []
      have htaken := @IsCombinator.partsOf_eq part hpart [] (by simp [CanStart])
      rw [partsOf_nil] at htaken
      exact ⟨by simpa [partsText] using htaken, by simpa [partsText] using hboundary⟩
  have hrest : partsOf (partsText (chain ++ last)) = chain ++ last := by
    rw [partsText_append, hchain.partsOf_eq hend.2, hend.1]
  rw [List.append_assoc]
  rcases hfirst.cases_combinator with rfl | ⟨part, rfl, hpart⟩
  · exact hrest
  · have hstart : CanStart (partsText (chain ++ last)) := by
      rw [partsText_append]
      exact hchain.canStart _
    rw [List.singleton_append, partsText, hpart.partsOf_eq hstart, hrest]

theorem isSegment_branch : IsSegment (partsText (first ++ chain ++ last)) := by
  have hedge {parts : List Part} (hparts : parts = [] ∨ ∃ part, parts = [part] ∧ IsCombinator part) :
      IsSegment (partsText parts) := by
    rcases hparts with rfl | ⟨part, rfl, hpart⟩
    · rw [partsText]
      exact .nil
    · rw [partsText, partsText, List.append_nil]
      exact hpart.isSegment
  rw [partsText_append, partsText_append]
  exact ((hedge hfirst.cases_combinator).append hchain.isSegment).append (hedge hlast.cases_combinator)

end Edges

/-- In a tight branch the text of the parts is tight. -/
theorem isTight_branch {first chain last : List Part} (hfirst : IsFirst true first)
    (hchain : IsChain IsRecovered chain) (hlast : IsLast true last) :
    IsTight (partsText (first ++ chain ++ last)) := by
  have hend : IsTight (partsText (chain ++ last)) := by
    rw [partsText_append]
    cases hlast with
    | none =>
      rw [partsText, List.append_nil]
      exact hchain.isTight
    | @sign sign before after hsign hbefore hafter htight =>
      have hsigned := hchain.isTight.append_middle before (isTight_of_mem_signs hsign)
      simpa [partsText, Part.text, Leaf.text, htight rfl] using hsigned
  rw [List.append_assoc]
  cases hfirst with
  | none => exact hend
  | @sign sign before after hsign hbefore hafter htight =>
    have hsigned := (isTight_of_mem_signs hsign).append_middle after hend
    simpa [partsText, Part.text, Leaf.text, htight rfl] using hsigned

/-- The blanks around a tight text are told from it. -/
theorem IsTight.ofSegment_eq {before after : List Char} (htight : IsTight text)
    (hbefore : AreBlanks before) (hafter : AreBlanks after) :
    Branch.ofSegment read (before ++ text ++ after) = .mk before (partsOf text) after := by
  have hblank {blanks : List Char} (hblanks : AreBlanks blanks) : ∀ c ∈ blanks, isBlank c = true :=
    fun c hc => isBlank_of_isAsciiBlank (hblanks c hc)
  have hstart : trimStart (before ++ text ++ after) = text ++ after := by
    rw [List.append_assoc, trimStart_append (hblank hbefore),
      trimStart_append_of_trimmed htight.trim_eq htight.nonempty]
  have hleading : leadingBlanks (before ++ text ++ after) = before := by
    rw [List.append_assoc, leadingBlanks_append (hblank hbefore),
      leadingBlanks_append_of_trimmed htight.trim_eq htight.nonempty, List.append_nil]
  have htrailing : trailingBlanks (text ++ after) = after := by
    rw [trailingBlanks_append (hblank hafter), trailingBlanks_eq_nil htight.trim_eq, List.nil_append]
  have hcore : trim (before ++ text ++ after) = text := by
    rw [trim, hstart, trimEnd_append (hblank hafter), trimEnd_eq_self htight.trim_eq]
  rw [Branch.ofSegment, hcore, hleading, hstart, htrailing, partsOf]

theorem IsTight.isAllBlank_eq (htight : IsTight text) (before after : List Char) :
    isAllBlank (before ++ text ++ after) = false := by
  obtain ⟨c, rest, rfl⟩ := List.exists_cons_of_ne_nil htight.nonempty
  have hc := htight.first c rfl
  simp [isAllBlank, hc]

/-- What a tight branch of recovered lists is like as a segment. -/
structure IsReadBranch (branch : Branch) : Prop where
  segment : IsSegment branch.text
  visible : isAllBlank branch.text = false
  ofSegment_eq : Branch.ofSegment read branch.text = branch

theorem IsBranch.isReadBranch {branch : Branch} (hbranch : IsBranch true IsRecovered branch) :
    IsReadBranch branch := by
  obtain ⟨hbefore, hafter, hfirst, hchain, hlast⟩ := hbranch
  have htight := isTight_branch hfirst hchain hlast
  refine ⟨?_, ?_, ?_⟩
  · rw [Branch.text]
    exact (hbefore.isSegment.append (isSegment_branch hfirst hchain hlast)).append hafter.isSegment
  · rw [Branch.text]
    exact htight.isAllBlank_eq _ _
  · rw [Branch.text, htight.ofSegment_eq hbefore hafter, partsOf_branch hfirst hchain hlast]

theorem isRecovered_of_isReadBranch (hne : branches ≠ [])
    (hread : ∀ branch ∈ branches, IsReadBranch branch) : IsRecovered branches := by
  have hsegments : ∀ branch ∈ branches, IsSegment branch.text :=
    fun branch hmem => (hread branch hmem).segment
  have hvisible : isAllBlank (listText branches) = false := by
    match branches with
    | [] => exact absurd rfl hne
    | [branch] =>
      rw [listText]
      exact (hread branch List.mem_cons_self).visible
    | branch :: next :: others =>
      have hfirst := (hread branch List.mem_cons_self).visible
      rw [isAllBlank] at hfirst ⊢
      rw [listText, List.all_append, hfirst, Bool.false_and]
  refine ⟨hne, isLevel_listText hsegments, ?_⟩
  rw [read_eq, hvisible, if_neg Bool.false_ne_true, splitCommas_listText hne hsegments, List.map_map]
  exact (List.map_congr_left fun branch hmem => (hread branch hmem).ofSegment_eq).trans
    (List.map_id branches)

theorem isRecovered_of_isBranch (hne : branches ≠ [])
    (hbranches : ∀ branch ∈ branches, IsBranch true IsRecovered branch) : IsRecovered branches :=
  isRecovered_of_isReadBranch hne fun branch hmem => (hbranches branch hmem).isReadBranch

/-- Tight lists of the grammar are recovered, whatever their depth. -/
theorem IsWritten.isRecovered {depth : Nat}
    (hbranches : IsWritten true depth branches) : IsRecovered branches := by
  induction depth generalizing branches with
  | zero => exact hbranches.elim
  | succ depth ih =>
    refine isRecovered_of_isBranch hbranches.1 fun branch hmem => ?_
    obtain ⟨hbefore, hafter, hfirst, hchain, hlast⟩ := hbranches.2 branch hmem
    exact .mk hbefore hafter hfirst (hchain.mono fun _ _ _ hnested => ih hnested) hlast

/-! ### Lists that were read -/

/-- A list in a part that was read was read itself. -/
theorem exists_read_of_mem_partsOf {value : List Char}
    (hmem : .list value branches ∈ partsOf text) : ∃ argument, read argument = branches := by
  obtain ⟨piece, -, hpiece⟩ := List.mem_map.mp hmem
  cases piece with
  | leaf leaf => cases hpiece
  | call colons name span =>
    rw [Piece.toPart] at hpiece
    split at hpiece
    · exact ⟨argumentOf span, (Part.list.inj hpiece).2⟩
    · cases hpiece

theorem Piece.eq_of_toPart_eq_combinator {piece : Piece} {value raw : List Char}
    (hpiece : piece.toPart read = .leaf (.combinator value raw)) :
    piece = .leaf (.combinator value raw) := by
  cases piece with
  | leaf leaf => rw [Part.leaf.inj hpiece]
  | call colons name span =>
    rw [Piece.toPart] at hpiece
    split at hpiece <;> cases hpiece

/-- A combinator that was read stands where it was read. -/
theorem eq_append_of_partsOf_eq {text value raw : List Char} {front back : List Part}
    (hparts : partsOf text = front ++ .leaf (.combinator value raw) :: back) :
    ∃ before after, text = before ++ raw ++ after ∧ (front = [] → before = []) ∧
      (back = [] → after = []) := by
  obtain ⟨frontPieces, backPieces, hpieces, hfront, hback⟩ := List.map_eq_append_iff.mp hparts
  obtain ⟨piece, others, rfl, hpiece, hothers⟩ := List.map_eq_cons_iff.mp hback
  refine ⟨frontPieces.flatMap Piece.source, others.flatMap Piece.source, ?_, ?_, ?_⟩
  · rw [← pieces_source text, hpieces, Piece.eq_of_toPart_eq_combinator hpiece]
    simp [Piece.source, Leaf.text]
  · rintro rfl
    rw [List.map_eq_nil_iff.mp hfront, List.flatMap_nil]
  · rintro rfl
    rw [List.map_eq_nil_iff.mp hothers, List.flatMap_nil]

section Trimmed

variable {segment : List Char} {first chain last : List Part}
  (hparts : partsOf (trim segment) = first ++ chain ++ last)
include hparts

/-- A branch that was read does not begin with a blank. -/
theorem IsFirst.tight_of_partsOf (hfirst : IsFirst false first) : IsFirst true first := by
  cases hfirst with
  | none => exact .none
  | @sign sign before after hsign hbefore hafter htight =>
    refine .sign hsign hbefore hafter fun _ => ?_
    obtain ⟨front, back, htext, hfront, -⟩ := @eq_append_of_partsOf_eq (trim segment) sign
      (before ++ sign ++ after) [] (chain ++ last) (by simpa using hparts)
    cases before with
    | nil => rfl
    | cons c before =>
      have hblank := isBlank_of_isAsciiBlank (hbefore c List.mem_cons_self)
      have hnot := head?_trim segment c (by rw [htext, hfront rfl]; rfl)
      rw [hblank] at hnot
      cases hnot

/-- A branch that was read does not end with a blank. -/
theorem IsLast.tight_of_partsOf (hlast : IsLast false last) : IsLast true last := by
  cases hlast with
  | none => exact .none
  | @sign sign before after hsign hbefore hafter htight =>
    refine .sign hsign hbefore hafter fun _ => ?_
    obtain ⟨front, back, htext, -, hback⟩ := eq_append_of_partsOf_eq hparts
    rcases List.eq_nil_or_concat after with rfl | ⟨others, c, rfl⟩
    · rfl
    · have hblank := isBlank_of_isAsciiBlank (hafter c (by simp))
      have hnot := getLast?_trim segment c (by rw [htext, hback rfl]; simp)
      rw [hblank] at hnot
      cases hnot

end Trimmed

/-- A list of the grammar that was read is tight. -/
theorem IsWritten.tight_of_read {depth : Nat}
    (hbranches : IsWritten false depth branches) (hread : read text = branches) :
    IsWritten true depth branches := by
  induction depth generalizing branches text with
  | zero => exact hbranches.elim
  | succ depth ih =>
    obtain ⟨hne, hall⟩ := hbranches
    refine ⟨hne, fun branch hmem => ?_⟩
    have hsegment : ∃ segment, Branch.ofSegment read segment = branch := by
      rw [← hread, read_eq] at hmem
      split at hmem
      · cases hmem
      · obtain ⟨segment, -, hsegment⟩ := List.mem_map.mp hmem
        exact ⟨segment, hsegment⟩
    obtain ⟨segment, hsegment⟩ := hsegment
    obtain ⟨hbefore, hafter, hfirst, hchain, hlast⟩ := hall branch hmem
    have hparts := (Branch.mk.inj hsegment).2.1
    rw [← partsOf] at hparts
    refine .mk hbefore hafter (hfirst.tight_of_partsOf hparts) (hchain.mono ?_)
      (hlast.tight_of_partsOf hparts)
    intro value nested hlist hnested
    have hmem' : .list value nested ∈ partsOf (trim segment) := by
      rw [hparts]
      simp [hlist]
    obtain ⟨argument, hargument⟩ := exists_read_of_mem_partsOf hmem'
    exact ih hnested hargument

/-- A selector list of the grammar is recovered from its text just when it is tight: no combinator at
the edge of a branch, at any depth, has blanks on its outer side. -/
theorem read_listText_eq_self_iff {depth : Nat} {branches : List Branch}
    (hbranches : IsWritten false depth branches) :
    read (listText branches) = branches ↔ IsWritten true depth branches :=
  ⟨hbranches.tight_of_read, fun htight => htight.isRecovered.read_eq⟩

/-- The list of `a > &-b:not(.c, :is(#d)) >>>` with a blank after it, and of
`*::before:nth-child(2n + 1)` on a new line. -/
def nestedList : List Branch :=
  [.mk [] [.leaf (.tag "a".toList), .leaf (.combinator ">".toList " > ".toList), .leaf .nesting,
      .leaf (.tag "-b".toList),
      .list ":not".toList [.mk [] [.leaf (.className ".c".toList)] [],
        .mk " ".toList [.list ":is".toList [.mk [] [.leaf (.id "#d".toList)] []]] []],
      .leaf (.combinator ">>>".toList " >>>".toList)] " ".toList,
    .mk "\n".toList [.leaf (.universal "*".toList), .leaf (.pseudo "::before".toList),
      .leaf (.function ":nth-child".toList "2n + 1".toList)] []]

/-- A branch of simple selectors with no combinator. -/
theorem isBranch_simples {tight : Bool} {nested : List Branch → Prop} {before : List Char}
    {head simples : List Part} (hbefore : AreBlanks before) (hhead : IsHead head)
    (hsimples : ∀ part ∈ simples, IsSimple nested part) (hne : head ++ simples ≠ []) :
    IsBranch tight nested (.mk before (head ++ simples) []) := by
  have hbranch : IsBranch tight nested (.mk before ([] ++ (head ++ simples) ++ []) []) :=
    .mk hbefore (List.forall_mem_nil _) .none (.compound (.mk hhead hsimples hne)) .none
  rwa [List.nil_append, List.append_nil] at hbranch

theorem isWritten_nestedList (tight : Bool) : IsWritten tight 3 nestedList := by
  have hinner : IsWritten tight 1 [.mk [] [.leaf (.id "#d".toList)] []] := by
    refine ⟨List.cons_ne_nil _ _, List.forall_mem_singleton.mpr ?_⟩
    refine @isBranch_simples tight _ [] [] [_] (by decide) .none ?_ (List.cons_ne_nil _ _)
    exact List.forall_mem_singleton.mpr
      (@IsSimple.id _ "d".toList (by decide +kernel))
  have houter : IsWritten tight 2 [.mk [] [.leaf (.className ".c".toList)] [],
      .mk " ".toList [.list ":is".toList [.mk [] [.leaf (.id "#d".toList)] []]] []] := by
    refine ⟨List.cons_ne_nil _ _, List.forall_mem_cons.mpr ⟨?_, List.forall_mem_singleton.mpr ?_⟩⟩
    · refine @isBranch_simples tight _ [] [] [_] (by decide) .none ?_ (List.cons_ne_nil _ _)
      exact List.forall_mem_singleton.mpr
        (@IsSimple.className _ "c".toList (by decide +kernel))
    · refine @isBranch_simples tight _ " ".toList [] [_] (by decide +kernel) .none ?_
        (List.cons_ne_nil _ _)
      exact List.forall_mem_singleton.mpr (@IsSimple.list _ [':'] "is".toList _ (.inl rfl)
        (by decide +kernel) (by decide +kernel) hinner)
  refine ⟨List.cons_ne_nil _ _, List.forall_mem_cons.mpr ⟨?_, List.forall_mem_singleton.mpr ?_⟩⟩
  · have htag : IsCompound (IsWritten tight 2) [.leaf (.tag "a".toList)] :=
      @IsCompound.mk _ [_] [] (.tag (by decide +kernel)) (List.forall_mem_nil _)
        (List.cons_ne_nil _ _)
    have hnot : IsSimple (IsWritten tight 2) (.list ":not".toList _) :=
      @IsSimple.list _ [':'] "not".toList _ (.inl rfl) (by decide +kernel)
        (by decide +kernel) houter
    have hnesting : IsCompound (IsWritten tight 2) _ :=
      @IsCompound.mk _ [.leaf .nesting, .leaf (.tag "-b".toList)] [_]
        (.nestingTag (by decide +kernel)) (List.forall_mem_singleton.mpr hnot)
        (List.cons_ne_nil _ _)
    have hchild : IsCombinator (.leaf (.combinator ">".toList " > ".toList)) :=
      @IsCombinator.sign ['>'] [' '] [' '] (by decide) (by decide) (by decide)
    have hlast : IsLast tight [.leaf (.combinator ">>>".toList " >>>".toList)] :=
      @IsLast.sign tight ['>', '>', '>'] [' '] [] (by decide) (by decide) (by decide) fun _ => rfl
    exact @IsBranch.mk tight _ [] " ".toList [] _ _ (by decide) (by decide +kernel) .none
      (.cons htag hchild (.compound hnesting)) hlast
  · refine @isBranch_simples tight _ "\n".toList [_] [_, _] (by decide +kernel) .universal ?_
      (List.cons_ne_nil _ _)
    refine List.forall_mem_cons.mpr ⟨?_, List.forall_mem_singleton.mpr ?_⟩
    · exact @IsSimple.pseudo _ [':', ':'] "before".toList (.inr rfl)
        (by decide +kernel)
    · exact @IsSimple.function _ [':'] "nth-child".toList _ (.inl rfl)
        (by decide +kernel) (by decide +kernel) (by decide +kernel)

theorem read_nestedList :
    IsWritten false 3 nestedList ∧ IsWritten true 3 nestedList ∧
      read (listText nestedList) = nestedList :=
  ⟨isWritten_nestedList false, isWritten_nestedList true,
    (read_listText_eq_self_iff (isWritten_nestedList false)).mpr (isWritten_nestedList true)⟩

/-- A branch whose first part is a combinator with a blank on each side. -/
def edgeList : List Branch :=
  [.mk [] [.leaf (.combinator ['>'] [' ', '>', ' ']), .leaf (.tag ['a'])] []]

/-- The blank on the outer side of that combinator is read as one before the branch. -/
theorem read_edgeList :
    IsWritten false 1 edgeList ∧ listText edgeList = " > a".toList ∧
      read (listText edgeList) =
        [.mk [' '] [.leaf (.combinator ['>'] ['>', ' ']), .leaf (.tag ['a'])] []] ∧
      read (listText edgeList) ≠ edgeList := by
  have hwritten {tight : Bool} {before outer : List Char} (hbefore : AreBlanks before)
      (houter : AreBlanks outer) (htight : tight = true → outer = []) : IsWritten tight 1
      [.mk before [.leaf (.combinator ['>'] (outer ++ ['>'] ++ [' '])), .leaf (.tag ['a'])] []] := by
    have htag : IsCompound (IsWritten tight 0) [.leaf (.tag ['a'])] :=
      @IsCompound.mk _ [_] [] (.tag (by decide +kernel)) (List.forall_mem_nil _)
        (List.cons_ne_nil _ _)
    refine ⟨List.cons_ne_nil _ _, List.forall_mem_singleton.mpr ?_⟩
    exact @IsBranch.mk tight _ before [] [_] _ [] hbefore (List.forall_mem_nil _)
      (.sign (by decide) houter (by decide) htight) (.compound htag) .none
  have htext : listText edgeList =
      listText [.mk [' '] [.leaf (.combinator ['>'] ['>', ' ']), .leaf (.tag ['a'])] []] := by
    simp [edgeList, listText, Branch.text, partsText, Part.text, Leaf.text]
  have hread : read (listText edgeList) =
      [.mk [' '] [.leaf (.combinator ['>'] ['>', ' ']), .leaf (.tag ['a'])] []] := by
    rw [htext]
    exact (@hwritten true [' '] [] (by decide) (by decide) fun _ => rfl).isRecovered.read_eq
  refine ⟨@hwritten false [] [' '] (by decide) (by decide) (by simp), ?_, hread, ?_⟩
  · simp [edgeList, listText, Branch.text, partsText, Part.text, Leaf.text]
  · rw [hread]
    simp [edgeList]

end StyleMigration.Selector
