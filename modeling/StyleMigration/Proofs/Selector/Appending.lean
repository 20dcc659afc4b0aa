import StyleMigration.Proofs.Selector.Compound
import StyleMigration.Proofs.Selector.Locality
import StyleMigration.Proofs.Selector.TableReading

/-!
Selectors that append to the name of their parent. Where a text has no quotes, brackets, escapes and
comments, a nesting sign is always a part of its own and a name is a run of its characters. So whether a
tag follows a nesting sign among the parts can be seen from the text, two characters at a time
(`isConcatenating_eq_appends`): commas and the blanks around a branch are no characters of a name, and so
part no sign from its name. Going through the table of a selector and asking each nesting sign for the
node after it comes to the same, for every text (`Table.isConcatenating_ofList`).
-/

set_option autoImplicit false

namespace StyleMigration.Selector

open Text

variable {text : List Char} {c : Char}

/-! ### Two characters at a time -/

/-- A letter, a digit or one of the signs that a name can start with. -/
def isSuffixChar (c : Char) : Bool :=
  c.isAlphanum || c == '-' || c == '_' || c == '%'

/-- Whether a text has the nesting sign with a character of a name right after it. -/
def appends : List Char → Bool
  | [] => false
  | c :: text => (c == '&' && text.head?.any isSuffixChar) || appends text

theorem appends_eq_true_iff :
    appends text = true ↔ ∃ c, isSuffixChar c = true ∧ ['&', c] <:+: text := by
  induction text with
  | nil => simp [appends]
  | cons first text ih =>
    have hhead : (first == '&' && text.head?.any isSuffixChar) = true ↔
        ∃ c, isSuffixChar c = true ∧ ['&', c] <+: first :: text := by
      cases text with
      | nil => simp [List.cons_prefix_cons]
      | cons next text => simp [List.cons_prefix_cons, and_comm, eq_comm (a := '&')]
    rw [appends, Bool.or_eq_true, hhead, ih]
    simp only [List.infix_cons_iff, and_or_left, exists_or]

/-- What two texts have together either one has, or it stands where they meet. -/
theorem appends_append (front back : List Char) :
    appends (front ++ back) =
      (appends front || appends back ||
        (front.getLast? == some '&' && back.head?.any isSuffixChar)) := by
  induction front with
  | nil => simp [appends]
  | cons c front ih =>
    rw [List.cons_append, appends, ih, appends]
    cases front with
    | nil => simp [appends, Bool.or_comm]
    | cons next front => simp [Bool.or_assoc]

theorem appends_of_notMem (htext : '&' ∉ text) : appends text = false := by
  rw [← Bool.not_eq_true, appends_eq_true_iff]
  rintro ⟨c, -, hpair⟩
  exact htext (hpair.subset List.mem_cons_self)

theorem getLast?_ne_of_notMem (htext : c ∉ text) :
    text.getLast? ≠ some c :=
  fun hlast => htext (List.mem_of_getLast? hlast)

/-- No nesting sign appends a name over a comma. -/
theorem appends_intercalate (segments : List (List Char)) :
    appends ([','].intercalate segments) = segments.any appends := by
  induction segments with
  | nil => rfl
  | cons first segments ih =>
    cases segments with
    | nil => simp
    | cons next segments =>
      have hcomma : isSuffixChar ',' = false := rfl
      rw [List.intercalate_cons_cons, appends_append, appends_append, ih, List.any_cons]
      simp [appends, hcomma]

/-! ### Texts without marks -/

/-- The marks of escapes, quotes, brackets and comments. -/
def marks : List Char :=
  ['\\', '"', '\'', '[', ']', '(', ')', '{', '}', '/']

/-- An ASCII character other than the marks. -/
def isUnmarked (c : Char) : Bool :=
  c.toNat < 0x80 && !marks.contains c

/-- What holds of each of the unmarked characters, by their numbers, holds of all. -/
theorem forall_isUnmarked {holds : Char → Bool}
    (hall : ∀ number < 0x80, isUnmarked (Char.ofNat number) = true → holds (Char.ofNat number) = true)
    {c : Char} (hc : isUnmarked c = true) : holds c = true := by
  have hascii : c.toNat < 0x80 := by
    simp only [isUnmarked, Bool.and_eq_true, decide_eq_true_eq] at hc
    exact hc.1
  have hholds := hall c.toNat hascii
  rw [Char.ofNat_toNat] at hholds
  exact hholds hc

theorem isNameChar_eq_isSuffixChar (hc : isUnmarked c = true) :
    isNameChar c = isSuffixChar c := by
  have hall := @forall_isUnmarked (fun c => isNameChar c == isSuffixChar c) (by decide +kernel) c hc
  exact beq_iff_eq.mp hall

theorem isSuffixChar_of_isBlank (hc : isUnmarked c = true) (hblank : isBlank c = true) :
    isSuffixChar c = false := by
  have hall := @forall_isUnmarked (fun c => !isBlank c || !isSuffixChar c) (by decide +kernel) c hc
  simpa [hblank] using hall

theorem isStarter_of_isSuffixChar (hc : isUnmarked c = true)
    (hsuffix : isSuffixChar c = true) : isStarter c = true := by
  have hall := @forall_isUnmarked (fun c => !isSuffixChar c || isStarter c) (by decide +kernel) c hc
  simpa [hsuffix] using hall

theorem ne_of_isUnmarked {mark : Char} (hc : isUnmarked c = true)
    (hmark : isUnmarked mark = false) : c ≠ mark := by
  rintro rfl
  rw [hmark] at hc
  cases hc

/-- No nesting sign appends a name over the blanks around a segment. -/
theorem appends_trim {segment : List Char} (hsegment : ∀ c ∈ segment, isUnmarked c = true) :
    appends (trim segment) = appends segment := by
  have hwhole := trim_segment segment
  have hnone {blanks : List Char} (hblanks : ∀ c ∈ blanks, isBlank c = true) : '&' ∉ blanks :=
    fun hmem => absurd (hblanks '&' hmem) (by decide)
  have hlead := hnone (@isBlank_of_mem_leadingBlanks segment)
  have htrail := @isBlank_of_mem_trailingBlanks (trimStart segment)
  have hafter : (trailingBlanks (trimStart segment)).head?.any isSuffixChar = false := by
    rw [Option.any_eq_false]
    intro c hc
    have hmem := List.mem_of_head? hc
    have hin : c ∈ segment := hwhole ▸ List.mem_append_right _ hmem
    simp [isSuffixChar_of_isBlank (hsegment c hin) (htrail c hmem)]
  conv => rhs; rw [← hwhole]
  rw [appends_append, appends_append, appends_of_notMem hlead, appends_of_notMem (hnone htrail),
    hafter]
  simp [getLast?_ne_of_notMem hlead]

/-- Without escapes and interpolations a name is a run of its characters. -/
theorem takeName_of_isUnmarked (htext : ∀ c ∈ text, isUnmarked c = true) :
    takeName text = (text.takeWhile isNameChar, text.dropWhile isNameChar) := by
  induction text with
  | nil => rfl
  | cons c text ih =>
    rw [List.forall_mem_cons] at htext
    have hbackslash : c ≠ '\\' := ne_of_isUnmarked htext.1 (by decide)
    have hbrace : ¬ (c = '#' ∧ text.head? = some '{') := fun h =>
      absurd (htext.2 '{' (List.mem_of_head? h.2)) (by decide)
    rw [takeName] at ih ⊢
    rw [scanName, if_neg hbackslash, if_neg hbrace, ih htext.2]
    cases hname : isNameChar c <;> simp [hname]

theorem notMem_takeName {text : List Char} (htext : ∀ c ∈ text, isUnmarked c = true) :
    '&' ∉ (takeName text).1 := by
  rw [takeName_of_isUnmarked htext]
  exact fun hmem => absurd (List.all_eq_true.mp List.all_takeWhile _ hmem) (by decide)

/-! ### The first piece -/

/-- A leaf that is the nesting sign or has none in it. -/
def IsApart (leaf : Leaf) : Prop :=
  leaf = .nesting ∨ '&' ∉ leaf.text

theorem isApart_of_takeCombinator? {rest : List Char} {leaf : Leaf}
    (htaken : takeCombinator? text = some (leaf, rest)) : IsApart leaf := by
  have hblank {blanks : List Char} (hblanks : AreBlanks blanks) : '&' ∉ blanks :=
    fun hmem => absurd (hblanks '&' hmem) (by decide)
  rcases takeCombinator?_cases htaken with ⟨before, sign, after, rfl, hbefore, hafter, hsign⟩ |
    ⟨blanks, rfl, -, hblanks⟩
  · have hnone : '&' ∉ sign := (by decide : ∀ sign ∈ signs, '&' ∉ sign) sign
      (mem_signs_of_takeSign? hsign)
    exact .inr (by simp [Leaf.text, hblank hbefore, hblank hafter, hnone])
  · exact .inr (hblank hblanks)

theorem takePseudo_of_isUnmarked (htext : ∀ c ∈ text, isUnmarked c = true) :
    ∃ value rest, takePseudo text = (.leaf (.pseudo value), rest) ∧ '&' ∉ value := by
  obtain ⟨colon, name, rest, rfl, hcolon, hname, htake⟩ := exists_takePseudo_eq text
  have hparenthesis : rest.head? ≠ some '(' := fun hhead =>
    absurd (htext '(' (List.mem_append_right _ (List.mem_of_head? hhead))) (by decide)
  have hnone : '&' ∉ name := by
    have hnotMem := @notMem_takeName (name ++ rest) fun c hc => htext c (by
      rw [List.append_assoc]
      exact List.mem_append_right _ hc)
    rwa [hname] at hnotMem
  refine ⟨_, rest, by rw [htake rest (.refl rest), if_neg hparenthesis], ?_⟩
  have hsign : '&' ∉ colon := fun hmem => absurd (hcolon '&' hmem) (by decide)
  simp [hsign, hnone]

theorem takeSimple_of_isUnmarked (hc : isUnmarked c = true)
    (htext : ∀ d ∈ text, isUnmarked d = true) :
    ∃ leaf rest, takeSimple c text = (.leaf leaf, rest) ∧ IsApart leaf ∧
      startsWithTag [.leaf leaf] = isSuffixChar c := by
  have hmarked {mark : Char} (hmark : isUnmarked mark = false) (hmem : mark ∈ c :: text) : False := by
    have hall : ∀ d ∈ c :: text, isUnmarked d = true := List.forall_mem_cons.mpr ⟨hc, htext⟩
    exact ne_of_isUnmarked (hall mark hmem) hmark rfl
  have hname := notMem_takeName htext
  have htaken := takeSimple_eq_iff.mp (Prod.eta (takeSimple c text)).symm
  generalize (takeSimple c text).1 = piece at htaken
  generalize (takeSimple c text).2 = rest at htaken
  simp only [takeSimple_eq_iff]
  cases htaken with
  | comment hbody => exact (hmarked (by decide) List.mem_cons_self).elim
  | attr hspan => exact (hmarked (by decide) List.mem_cons_self).elim
  | interpolation hbrace hspan =>
    exact (hmarked (by decide) (List.mem_cons_of_mem _ (List.mem_of_head? hbrace))).elim
  | className htake =>
    rw [htake] at hname
    exact ⟨_, _, .className htake, .inr (by simpa [Leaf.text] using hname), rfl⟩
  | id hbrace htake =>
    rw [htake] at hname
    exact ⟨_, _, .id hbrace htake, .inr (by simpa [Leaf.text] using hname), rfl⟩
  | nesting => exact ⟨_, _, .nesting text, .inl rfl, rfl⟩
  | universal => exact ⟨_, _, .universal text, .inr (by decide), rfl⟩
  | pseudo hpseudo =>
    obtain ⟨value, rest, htake, hnone⟩ := takePseudo_of_isUnmarked htext
    exact ⟨_, _, .pseudo htake, .inr hnone, rfl⟩
  | tag hstart htake =>
    have hnone := notMem_takeName (List.forall_mem_cons.mpr ⟨hc, htext⟩)
    rw [htake] at hnone
    rw [isNameChar_eq_isSuffixChar hc] at hstart
    exact ⟨_, _, .tag (by rw [isNameChar_eq_isSuffixChar hc, hstart]) htake, .inr hnone,
      hstart.symm⟩
  | other text hstart hcomment hother =>
    refine ⟨_, _, .other text hstart hcomment hother, .inr ?_, ?_⟩
    · rw [Leaf.text, List.mem_singleton]
      rintro rfl
      exact hother (by decide)
    · rw [← isNameChar_eq_isSuffixChar hc, hstart]
      rfl

/-- What is cut off the front of a text without marks is a leaf, and it is a tag just if the text starts
with a character of a name. -/
theorem takePiece_of_isUnmarked (hc : isUnmarked c = true)
    (htext : ∀ d ∈ text, isUnmarked d = true) :
    ∃ leaf rest, takePiece c text = (.leaf leaf, rest) ∧ IsApart leaf ∧
      startsWithTag [.leaf leaf] = isSuffixChar c := by
  rw [takePiece]
  cases htaken : takeCombinator? (c :: text) with
  | none => exact takeSimple_of_isUnmarked hc htext
  | some taken =>
    obtain ⟨leaf, rest⟩ := taken
    refine ⟨leaf, rest, rfl, isApart_of_takeCombinator? htaken, ?_⟩
    have hsuffix : isSuffixChar c = false := by
      rw [← Bool.not_eq_true]
      intro hsuffix
      rw [takeCombinator?_of_isStarter (isStarter_of_isSuffixChar hc hsuffix)] at htaken
      cases htaken
    rw [hsuffix]
    rcases takeCombinator?_cases htaken with ⟨_, _, _, rfl, -⟩ | ⟨_, rfl, -⟩ <;> rfl

/-! ### From the parts to the text -/

theorem startsWithTag_partsOf (htext : ∀ c ∈ text, isUnmarked c = true) :
    startsWithTag (partsOf text) = text.head?.any isSuffixChar := by
  cases text with
  | nil => rw [partsOf_nil]; rfl
  | cons c text =>
    rw [List.forall_mem_cons] at htext
    obtain ⟨leaf, rest, htaken, -, htag⟩ := takePiece_of_isUnmarked htext.1 htext.2
    rw [partsOf_cons, htaken, List.head?_cons, Option.any_some, ← htag]
    cases leaf <;> rfl

/-- A tag follows a nesting sign among the parts just where a character of a name follows the sign in
the text. -/
theorem partsConcatenate_partsOf (htext : ∀ c ∈ text, isUnmarked c = true) :
    partsConcatenate (partsOf text) = appends text := by
  -- A piece can be long, so the induction is on the length. Within a piece no sign can append, since the
  -- sign is a piece of its own; where two pieces meet, the second tells whether it starts with a name.
  induction hlength : text.length using Nat.strongRecOn generalizing text with
  | ind length ih =>
    cases text with
    | nil => rw [partsOf_nil]; rfl
    | cons c text =>
      obtain ⟨hc, hothers⟩ := List.forall_mem_cons.mp htext
      obtain ⟨leaf, rest, htaken, hapart, -⟩ := takePiece_of_isUnmarked hc hothers
      have hcut := takePiece_cut c text
      rw [htaken] at hcut
      have hwhole : leaf.text ++ rest = c :: text := hcut.append
      have hrest : ∀ d ∈ rest, isUnmarked d = true := fun d hd =>
        htext d (hwhole ▸ List.mem_append_right _ hd)
      have ih := ih rest.length (hlength ▸ hcut.rest_length) hrest rfl
      rw [partsOf_cons, htaken, Piece.toPart, partsConcatenate, startsWithTag_partsOf hrest, ih,
        ← hwhole, appends_append]
      rcases hapart with rfl | hnone
      · simp [Leaf.text, appends, Bool.or_comm]
      · have hne : leaf ≠ .nesting := by
          rintro rfl
          exact hnone (by decide)
        rw [appends_of_notMem hnone, beq_false_of_ne hne,
          beq_false_of_ne (getLast?_ne_of_notMem hnone)]
        simp

theorem listConcatenates_map (segments : List (List Char)) :
    listConcatenates (segments.map (Branch.ofSegment read)) =
      segments.any fun segment => partsConcatenate (partsOf (trim segment)) := by
  induction segments with
  | nil => rfl
  | cons segment segments ih =>
    rw [List.map_cons, listConcatenates, ih]
    rfl

/-- Whether a text without marks appends to the name of its parent can be seen two characters at a
time. -/
theorem isConcatenating_eq_appends (htext : ∀ c ∈ text, isUnmarked c = true) :
    isConcatenating text = appends text := by
  rw [isConcatenating, read_eq]
  split
  · rename_i hblank
    have hnone : '&' ∉ text := fun hmem =>
      absurd (List.all_eq_true.mp hblank '&' hmem) (by decide)
    rw [appends_of_notMem hnone]
    rfl
  · rw [listConcatenates_map]
    conv => rhs; rw [← splitCommas_intercalate text, appends_intercalate]
    rw [Bool.eq_iff_iff, List.any_eq_true, List.any_eq_true]
    refine exists_congr fun segment => and_congr_right fun hsegment => ?_
    have hin : ∀ c ∈ segment, isUnmarked c = true := fun c hc =>
      htext c ((infix_of_mem_splitCommas hsegment).subset hc)
    rw [partsConcatenate_partsOf fun c hc => hin c ((trim_isInfix segment).subset hc), appends_trim hin]

/-! ### In the table -/

namespace Table

def isTag (table : Table) (node : Nat) : Bool :=
  match table.kind node with
  | .leaf (.tag _) => true
  | _ => false

/-- Whether a node is a nesting sign, and the node after it a tag. -/
def isAppended (table : Table) (node : Nat) : Bool :=
  table.kind node == .leaf .nesting && (table.next node).any table.isTag

/-- Whether any nesting sign below the root has a tag after it. -/
def isConcatenating (table : Table) : Bool :=
  table.descendants.any table.isAppended

theorem IsTree.next_eq {table : Table} (htree : table.IsTree) {node parent : Nat}
    (hparent : table.Reachable parent) {front back : List Nat}
    (hlist : table.children parent = front ++ node :: back) : table.next node = back.head? := by
  have hlinked := htree.linked parent hparent node (by simp [hlist])
  have hnodup := htree.nodup parent hparent
  rw [hlist, List.nodup_middle, List.nodup_cons, List.mem_append, not_or] at hnodup
  rw [next, index, hlinked, Option.bind_some, Option.bind_some, hlist,
    idxOf?_append_cons back hnodup.1.1, Option.bind_some,
    List.getElem?_append_right (Nat.le_add_right _ 1)]
  simp [List.head?_eq_getElem?]

theorem isTag_of_holdsParts {table : Table} {nodes : List Nat} {parts : List Part}
    (hholds : table.HoldsParts nodes parts) : nodes.head?.any table.isTag = startsWithTag parts := by
  cases parts with
  | nil =>
    rw [HoldsParts] at hholds
    rw [hholds]
    rfl
  | cons part parts =>
    rw [HoldsParts] at hholds
    obtain ⟨node, others, rfl, hpart, -⟩ := hholds
    rw [List.head?_cons, Option.any_some, isTag]
    cases part with
    | leaf leaf =>
      rw [HoldsPart] at hpart
      rw [hpart.1]
      cases leaf <;> rfl
    | list value branches =>
      rw [HoldsPart] at hpart
      rw [hpart.1]
      rfl

mutual

theorem any_below_of_holdsBranch {table : Table} (htree : table.IsTree) (branch : Branch)
    {node : Nat} (hnode : table.Reachable node) (hholds : table.HoldsBranch node branch) :
    (table.below node).any table.isAppended = branch.isConcatenating := by
  match branch with
  | .mk before parts after =>
    rw [HoldsBranch] at hholds
    have hself : table.isAppended node = false := by simp [isAppended, hholds.1]
    rw [htree.isShallow.below_eq hnode, List.any_cons, hself, Bool.false_or, List.any_flatMap,
      Branch.isConcatenating]
    exact any_below_of_holdsParts htree parts hnode (List.nil_append _).symm hholds.2

/-- `nodes` are the last ones in the list of a node, so that each has the next one after it. -/
theorem any_below_of_holdsParts {table : Table} (htree : table.IsTree) (parts : List Part)
    {parent : Nat} {front nodes : List Nat} (hparent : table.Reachable parent)
    (hlist : table.children parent = front ++ nodes) (hholds : table.HoldsParts nodes parts) :
    (nodes.any fun node => (table.below node).any table.isAppended) = partsConcatenate parts := by
  match parts with
  | [] =>
    rw [HoldsParts] at hholds
    rw [hholds]
    rfl
  | part :: parts =>
    rw [HoldsParts] at hholds
    obtain ⟨node, others, rfl, hpart, hothers⟩ := hholds
    have hnode : table.Reachable node := hparent.child (by simp [hlist])
    have hfront : table.children parent = (front ++ [node]) ++ others := by simp [hlist]
    have hrest := any_below_of_holdsParts htree parts hparent hfront hothers
    rw [List.any_cons, hrest, htree.isShallow.below_eq hnode, List.any_cons]
    match part with
    | .leaf leaf =>
      rw [HoldsPart] at hpart
      have hself : (table.kind node == .leaf .nesting) = (leaf == .nesting) := by
        rw [Bool.eq_iff_iff, beq_iff_eq, beq_iff_eq, hpart.1, Kind.leaf.injEq]
      rw [isAppended, hself, hpart.2, htree.next_eq hparent hlist, isTag_of_holdsParts hothers,
        partsConcatenate, List.flatMap_nil, List.any_nil, Bool.or_false]
    | .list value branches =>
      rw [HoldsPart] at hpart
      have hself : table.isAppended node = false := by simp [isAppended, hpart.1]
      have hlist := any_below_of_holdsList htree branches (fun _ hchild => hnode.child hchild) hpart.2
      rw [hself, Bool.false_or, List.any_flatMap, hlist, partsConcatenate]

theorem any_below_of_holdsList {table : Table} (htree : table.IsTree) (branches : List Branch)
    {nodes : List Nat} (hnodes : ∀ node ∈ nodes, table.Reachable node)
    (hholds : table.HoldsList nodes branches) :
    (nodes.any fun node => (table.below node).any table.isAppended) = listConcatenates branches := by
  match branches with
  | [] =>
    rw [HoldsList] at hholds
    rw [hholds]
    rfl
  | branch :: branches =>
    rw [HoldsList] at hholds
    obtain ⟨node, others, rfl, hbranch, hothers⟩ := hholds
    rw [List.forall_mem_cons] at hnodes
    rw [List.any_cons, any_below_of_holdsBranch htree branch hnodes.1 hbranch,
      any_below_of_holdsList htree branches hnodes.2 hothers, listConcatenates]

end

/-- Going through the table of a text gives the same as going through its parts. -/
theorem isConcatenating_ofList (text : List Char) :
    (ofList (read text)).isConcatenating = Selector.isConcatenating text := by
  have htree := isTree_ofList (read text)
  obtain ⟨hroot, hbranches⟩ := shows_ofList (read text)
  have hself : (ofList (read text)).isAppended root = false := by simp [isAppended, hroot]
  rw [isConcatenating, descendants_eq, htree.isShallow.below_eq .origin, List.any_cons, hself,
    Bool.false_or, List.any_flatMap, Selector.isConcatenating]
  exact any_below_of_holdsList htree (read text) (fun node hnode => .child .origin hnode) hbranches

end Table

/-- In a text without marks a tag is glued to a nesting sign just if a letter, a digit or one of `-`, `_`
and `%` follows the sign directly, whichever way the parts are gone through. -/
theorem isConcatenating_iff_glued {text : List Char} (htext : ∀ c ∈ text, isUnmarked c = true) :
    (isConcatenating text = true ↔ ∃ c, isSuffixChar c = true ∧ ['&', c] <:+: text) ∧
      (Table.ofList (read text)).isConcatenating = isConcatenating text := by
  rw [isConcatenating_eq_appends htext]
  refine ⟨appends_eq_true_iff, ?_⟩
  rw [Table.isConcatenating_ofList, isConcatenating_eq_appends htext]

/-- Of four nesting signs, before a comma, a blank, a colon and a name, the last one counts. -/
theorem isConcatenating_four_signs :
    isConcatenating ".a > &, & b ~ &:hover,* &-title".toList = true ∧
      isConcatenating ".a > &, & b ~ &:hover,* & -title".toList = false := by
  have hglued := @isConcatenating_iff_glued ".a > &, & b ~ &:hover,* &-title".toList (by decide)
  have hapart := @isConcatenating_iff_glued ".a > &, & b ~ &:hover,* & -title".toList (by decide)
  refine ⟨hglued.1.mpr ⟨'-', by decide, ?_⟩, ?_⟩
  · exact ⟨".a > &, & b ~ &:hover,* ".toList, "title".toList, by decide⟩
  · rw [← Bool.not_eq_true, hapart.1, ← appends_eq_true_iff]
    decide

end StyleMigration.Selector
