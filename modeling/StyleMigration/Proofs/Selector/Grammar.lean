import StyleMigration.Instances
import StyleMigration.Proofs.Selector.Cuts

/-!
A grammar of selector lists. A branch is a chain of compounds with combinators between them, and there
may be a combinator with a sign before the first compound and after the last one (`IsBranch`). A compound
is a tag, `*`, `&` or `&` with a tag, followed by simple selectors, any of which may be missing but not
all (`IsCompound`); the argument of a simple selector may be a list again. In a tight list a combinator at
the edge of a branch has no blanks on its outer side.

The texts of the grammar are level: what is opened in them is closed in them, and no quote and no
backslash hides a bracket (`IsLevel`). So a scan for the end of an argument and a scan for commas come out
of such a text as they went into it.
-/

set_option autoImplicit false

namespace StyleMigration.Selector

open Text

variable {text : List Char}

/-! ### Names, signs and blanks -/

/-- A character of a name that is written as it is. -/
def isWordChar (c : Char) : Bool :=
  isNameChar c && c != '\\' && !isBlank c

structure IsIdent (name : List Char) : Prop where
  nonempty : name ≠ []
  word : ∀ c ∈ name, isWordChar c = true

instance instDecidableIsIdent (name : List Char) : Decidable (IsIdent name) :=
  decidable_of_iff (name ≠ [] ∧ ∀ c ∈ name, isWordChar c = true)
    ⟨fun ⟨hne, hword⟩ => ⟨hne, hword⟩, fun hname => ⟨hname.nonempty, hname.word⟩⟩

def IsColons (colons : List Char) : Prop :=
  colons = [':'] ∨ colons = [':', ':']

/-- A character that neither opens nor closes a parenthesis, nor hides one that does. -/
def isRawChar (c : Char) : Bool :=
  c != '(' && c != ')' && c != '"' && c != '\'' && c != '\\'

/-- The combinators that are written with a sign. -/
def signs : List (List Char) :=
  [['>'], ['+'], ['~'], ['>', '>', '>'], ['/', 'd', 'e', 'e', 'p', '/']]

def AreBlanks (blanks : List Char) : Prop :=
  ∀ c ∈ blanks, isAsciiBlank c = true

instance instDecidableAreBlanks (blanks : List Char) : Decidable (AreBlanks blanks) :=
  inferInstanceAs (Decidable (∀ c ∈ blanks, isAsciiBlank c = true))

/-! ### Branches -/

/-- The parts that may come anywhere in a compound; an argument that is a list is one of `nested`. -/
inductive IsSimple (nested : List Branch → Prop) : Part → Prop
  | className {name : List Char} (hname : IsIdent name) :
      IsSimple nested (.leaf (.className ('.' :: name)))
  | id {name : List Char} (hname : IsIdent name) : IsSimple nested (.leaf (.id ('#' :: name)))
  | pseudo {colons name : List Char} (hcolons : IsColons colons) (hname : IsIdent name) :
      IsSimple nested (.leaf (.pseudo (colons ++ name)))
  | function {colons name argument : List Char} (hcolons : IsColons colons) (hname : IsIdent name)
      (htakes : takesList name = false) (hargument : ∀ c ∈ argument, isRawChar c = true) :
      IsSimple nested (.leaf (.function (colons ++ name) argument))
  | list {colons name : List Char} {branches : List Branch} (hcolons : IsColons colons)
      (hname : IsIdent name) (htakes : takesList name = true) (hbranches : nested branches) :
      IsSimple nested (.list (colons ++ name) branches)

/-- What may come before the simple selectors of a compound. -/
inductive IsHead : List Part → Prop
  | none : IsHead []
  | tag {name : List Char} (hname : IsIdent name) : IsHead [.leaf (.tag name)]
  | universal : IsHead [.leaf (.universal ['*'])]
  | nesting : IsHead [.leaf .nesting]
  | nestingTag {name : List Char} (hname : IsIdent name) :
      IsHead [.leaf .nesting, .leaf (.tag name)]

inductive IsCompound (nested : List Branch → Prop) : List Part → Prop
  | mk {head simples : List Part} (hhead : IsHead head)
      (hsimples : ∀ part ∈ simples, IsSimple nested part) (hne : head ++ simples ≠ []) :
      IsCompound nested (head ++ simples)

inductive IsCombinator : Part → Prop
  | descendant {blanks : List Char} (hne : blanks ≠ []) (hblanks : AreBlanks blanks) :
      IsCombinator (.leaf (.combinator [' '] blanks))
  | sign {sign before after : List Char} (hsign : sign ∈ signs) (hbefore : AreBlanks before)
      (hafter : AreBlanks after) :
      IsCombinator (.leaf (.combinator sign (before ++ sign ++ after)))

/-- Compounds with a combinator between each two of them. -/
inductive IsChain (nested : List Branch → Prop) : List Part → Prop
  | compound {parts : List Part} (hparts : IsCompound nested parts) : IsChain nested parts
  | cons {parts others : List Part} {combinator : Part} (hparts : IsCompound nested parts)
      (hcombinator : IsCombinator combinator) (hothers : IsChain nested others) :
      IsChain nested (parts ++ combinator :: others)

/-- What may come before the first compound of a branch. -/
inductive IsFirst (tight : Bool) : List Part → Prop
  | none : IsFirst tight []
  | sign {sign before after : List Char} (hsign : sign ∈ signs) (hbefore : AreBlanks before)
      (hafter : AreBlanks after) (htight : tight = true → before = []) :
      IsFirst tight [.leaf (.combinator sign (before ++ sign ++ after))]

/-- What may come after the last compound of a branch. -/
inductive IsLast (tight : Bool) : List Part → Prop
  | none : IsLast tight []
  | sign {sign before after : List Char} (hsign : sign ∈ signs) (hbefore : AreBlanks before)
      (hafter : AreBlanks after) (htight : tight = true → after = []) :
      IsLast tight [.leaf (.combinator sign (before ++ sign ++ after))]

inductive IsBranch (tight : Bool) (nested : List Branch → Prop) : Branch → Prop
  | mk {before after : List Char} {first chain last : List Part} (hbefore : AreBlanks before)
      (hafter : AreBlanks after) (hfirst : IsFirst tight first) (hchain : IsChain nested chain)
      (hlast : IsLast tight last) : IsBranch tight nested (.mk before (first ++ chain ++ last) after)

/-- A selector list whose arguments are nested less than `depth` deep. -/
def IsWritten (tight : Bool) : Nat → List Branch → Prop
  | 0, _ => False
  | depth + 1, branches =>
    branches ≠ [] ∧ ∀ branch ∈ branches, IsBranch tight (IsWritten tight depth) branch

section Mono

variable {nested other : List Branch → Prop}

theorem IsSimple.mono {part : Part} (hpart : IsSimple nested part)
    (hmono : ∀ value branches, part = .list value branches → nested branches → other branches) :
    IsSimple other part := by
  cases hpart with
  | className hname => exact .className hname
  | id hname => exact .id hname
  | pseudo hcolons hname => exact .pseudo hcolons hname
  | function hcolons hname htakes hargument => exact .function hcolons hname htakes hargument
  | list hcolons hname htakes hbranches =>
    exact .list hcolons hname htakes (hmono _ _ rfl hbranches)

theorem IsCompound.mono {parts : List Part} (hparts : IsCompound nested parts)
    (hmono : ∀ value branches, .list value branches ∈ parts → nested branches → other branches) :
    IsCompound other parts := by
  obtain ⟨hhead, hsimples, hne⟩ := hparts
  refine ⟨hhead, fun part hmem => (hsimples part hmem).mono fun value branches hlist => ?_, hne⟩
  exact hmono value branches (List.mem_append_right _ (hlist ▸ hmem))

/-- The arguments of a chain may be taken from another class of lists that has them. -/
theorem IsChain.mono {parts : List Part} (hparts : IsChain nested parts)
    (hmono : ∀ value branches, .list value branches ∈ parts → nested branches → other branches) :
    IsChain other parts := by
  induction hparts with
  | compound hcompound => exact .compound (hcompound.mono hmono)
  | cons hcompound hcombinator hothers ih =>
    refine .cons (hcompound.mono ?_) hcombinator (ih ?_)
    · exact fun value branches hmem => hmono value branches (List.mem_append_left _ hmem)
    · exact fun value branches hmem =>
        hmono value branches (List.mem_append_right _ (List.mem_cons_of_mem _ hmem))

end Mono

/-! ### Level texts -/

/-- A text that closes the parentheses it opens. -/
inductive IsLevel : List Char → Prop
  | nil : IsLevel []
  | cons {c : Char} {text : List Char} (hc : isRawChar c = true) (htext : IsLevel text) :
      IsLevel (c :: text)
  | group {inner text : List Char} (hinner : IsLevel inner) (htext : IsLevel text) :
      IsLevel ('(' :: (inner ++ ')' :: text))

/-- A character that stands for itself outside parentheses. -/
def isSegmentChar (c : Char) : Bool :=
  isRawChar c && c != ',' && c != '[' && c != '{'

/-- A level text without a comma, other than in parentheses. -/
inductive IsSegment : List Char → Prop
  | nil : IsSegment []
  | cons {c : Char} {text : List Char} (hc : isSegmentChar c = true) (htext : IsSegment text) :
      IsSegment (c :: text)
  | group {inner text : List Char} (hinner : IsLevel inner) (htext : IsSegment text) :
      IsSegment ('(' :: (inner ++ ')' :: text))

theorem IsLevel.append {first second : List Char} (hfirst : IsLevel first)
    (hsecond : IsLevel second) : IsLevel (first ++ second) := by
  induction hfirst with
  | nil => exact hsecond
  | cons hc htext ih => exact .cons hc ih
  | group hinner htext ihinner ih =>
    rw [List.cons_append, List.append_assoc]
    exact .group hinner ih

theorem isLevel_of_isRawChar (htext : ∀ c ∈ text, isRawChar c = true) :
    IsLevel text := by
  induction text with
  | nil => exact .nil
  | cons c text ih =>
    rw [List.forall_mem_cons] at htext
    exact .cons htext.1 (ih htext.2)

theorem IsSegment.append {first second : List Char} (hfirst : IsSegment first)
    (hsecond : IsSegment second) : IsSegment (first ++ second) := by
  induction hfirst with
  | nil => exact hsecond
  | cons hc htext ih => exact .cons hc ih
  | group hinner htext ih =>
    rw [List.cons_append, List.append_assoc]
    exact .group hinner ih

theorem isSegment_of_isSegmentChar (htext : ∀ c ∈ text, isSegmentChar c = true) :
    IsSegment text := by
  induction text with
  | nil => exact .nil
  | cons c text ih =>
    rw [List.forall_mem_cons] at htext
    exact .cons htext.1 (ih htext.2)

theorem IsSegment.isLevel (htext : IsSegment text) : IsLevel text := by
  induction htext with
  | nil => exact .nil
  | cons hc htext ih =>
    simp only [isSegmentChar, Bool.and_eq_true] at hc
    exact .cons hc.1.1.1 ih
  | group hinner htext ih => exact .group hinner ih

/-- A character that hides nothing leaves a scan bare. -/
theorem Quoting.step_of_isRawChar {c : Char} (hc : isRawChar c = true) :
    Quoting.bare.step c = .bare := by
  simp only [isRawChar, Bool.and_eq_true, bne_iff_ne] at hc
  simp [Quoting.step, hc]

theorem Brackets.closesAt_of_isRawChar {c : Char} (hc : isRawChar c = true) (depth : Nat) :
    Brackets.round.closesAt depth .bare c = false := by
  simp only [isRawChar, Bool.and_eq_true, bne_iff_ne] at hc
  simp [closesAt, round, hc]

theorem Brackets.depthAfter_of_isRawChar {c : Char} (hc : isRawChar c = true) (depth : Nat) :
    Brackets.round.depthAfter depth .bare c = depth := by
  simp only [isRawChar, Bool.and_eq_true, bne_iff_ne] at hc
  simp [depthAfter, round, hc]

/-- A scan for the closing parenthesis goes through a level text. -/
theorem IsLevel.scan_eq (htext : IsLevel text) (depth : Nat) (rest : List Char) :
    Brackets.round.scan (depth + 1) .bare (text ++ rest) =
      (text ++ (Brackets.round.scan (depth + 1) .bare rest).1,
        (Brackets.round.scan (depth + 1) .bare rest).2) := by
  induction htext generalizing depth rest with
  | nil => rfl
  | @cons c text hc htext ih =>
    rw [List.cons_append, Brackets.scan, Brackets.closesAt_of_isRawChar hc,
      Brackets.depthAfter_of_isRawChar hc, Quoting.step_of_isRawChar hc, ih]
    rfl
  | @group inner text hinner htext ihinner ih =>
    have hclosing : Brackets.round.scan (depth + 1 + 1) .bare (')' :: (text ++ rest)) =
        (')' :: (Brackets.round.scan (depth + 1) .bare (text ++ rest)).1,
          (Brackets.round.scan (depth + 1) .bare (text ++ rest)).2) := by
      rw [Brackets.scan]
      simp [Brackets.closesAt, Brackets.depthAfter, Brackets.round, Quoting.step]
    have hopening : Brackets.round.scan (depth + 1) .bare
        ('(' :: (inner ++ ')' :: (text ++ rest))) =
          ('(' :: (Brackets.round.scan (depth + 1 + 1) .bare (inner ++ ')' :: (text ++ rest))).1,
            (Brackets.round.scan (depth + 1 + 1) .bare (inner ++ ')' :: (text ++ rest))).2) := by
      rw [Brackets.scan]
      simp [Brackets.closesAt, Brackets.depthAfter, Brackets.round, Quoting.step]
    rw [List.cons_append, List.append_assoc, List.cons_append, hopening, ihinner, hclosing, ih]
    simp

/-- The span of a level argument ends with it. -/
theorem IsLevel.span_eq {argument : List Char} (hargument : IsLevel argument) (rest : List Char) :
    Brackets.round.span ('(' :: (argument ++ ')' :: rest)) = ('(' :: (argument ++ [')']), rest) := by
  have hopening : Brackets.round.span ('(' :: (argument ++ ')' :: rest)) =
      ('(' :: (Brackets.round.scan (0 + 1) .bare (argument ++ ')' :: rest)).1,
        (Brackets.round.scan (0 + 1) .bare (argument ++ ')' :: rest)).2) := by
    rw [Brackets.span, Brackets.scan]
    simp [Brackets.closesAt, Brackets.depthAfter, Brackets.round, Quoting.step]
  have hclosing : Brackets.round.scan (0 + 1) .bare (')' :: rest) = ([')'], rest) := by
    rw [Brackets.scan]
    simp [Brackets.closesAt, Brackets.round]
  rw [hopening, hargument.scan_eq, hclosing]

/-! ### Segments -/

/-- A scan for commas goes through a level text in parentheses. -/
theorem IsLevel.scanSegments_eq (htext : IsLevel text) (depth : Nat) (rest : List Char) :
    scanSegments .bare (.within .round (depth + 1)) (text ++ rest) =
      (text ++ (scanSegments .bare (.within .round (depth + 1)) rest).1,
        (scanSegments .bare (.within .round (depth + 1)) rest).2) := by
  induction htext generalizing depth rest with
  | nil => rfl
  | @cons c text hc htext ih =>
    have hstep : Nesting.step .bare c (.within .round (depth + 1)) = .within .round (depth + 1) := by
      rw [Nesting.step, Brackets.closesAt_of_isRawChar hc, Brackets.depthAfter_of_isRawChar hc]
      rfl
    rw [List.cons_append, scanSegments, if_neg (by simp), hstep, Quoting.step_of_isRawChar hc, ih]
    rfl
  | @group inner text hinner htext ihinner ih =>
    have hclosing : scanSegments .bare (.within .round (depth + 1 + 1)) (')' :: (text ++ rest)) =
        (')' :: (scanSegments .bare (.within .round (depth + 1)) (text ++ rest)).1,
          (scanSegments .bare (.within .round (depth + 1)) (text ++ rest)).2) := by
      rw [scanSegments]
      simp [Nesting.step, Brackets.closesAt, Brackets.depthAfter, Brackets.round, Quoting.step]
    have hopening : scanSegments .bare (.within .round (depth + 1))
        ('(' :: (inner ++ ')' :: (text ++ rest))) =
          ('(' :: (scanSegments .bare (.within .round (depth + 1 + 1))
              (inner ++ ')' :: (text ++ rest))).1,
            (scanSegments .bare (.within .round (depth + 1 + 1))
              (inner ++ ')' :: (text ++ rest))).2) := by
      rw [scanSegments]
      simp [Nesting.step, Brackets.closesAt, Brackets.depthAfter, Brackets.round, Quoting.step]
    rw [List.cons_append, List.append_assoc, List.cons_append, hopening, ihinner, hclosing, ih]
    simp

/-- A scan for commas goes through a segment. -/
theorem IsSegment.scanSegments_eq (htext : IsSegment text) (rest : List Char) :
    scanSegments .bare .top (text ++ rest) =
      (text ++ (scanSegments .bare .top rest).1, (scanSegments .bare .top rest).2) := by
  induction htext with
  | nil => rfl
  | @cons c text hc htext ih =>
    simp only [isSegmentChar, Bool.and_eq_true, bne_iff_ne] at hc
    obtain ⟨⟨⟨hraw, hcomma⟩, hsquare⟩, hcurly⟩ := hc
    have hround : c ≠ '(' := by
      rintro rfl
      exact absurd hraw (by decide)
    have hstep : Nesting.step .bare c .top = .top := by
      simp [Nesting.step, hround, hsquare, hcurly]
    rw [List.cons_append, scanSegments, if_neg (by simp [hcomma]), hstep,
      Quoting.step_of_isRawChar hraw, ih]
    rfl
  | @group inner text hinner htext ih =>
    have hclosing : scanSegments .bare (.within .round (0 + 1)) (')' :: (text ++ rest)) =
        (')' :: (scanSegments .bare .top (text ++ rest)).1,
          (scanSegments .bare .top (text ++ rest)).2) := by
      rw [scanSegments]
      simp [Nesting.step, Brackets.closesAt, Brackets.round, Quoting.step]
    have hopening : scanSegments .bare .top ('(' :: (inner ++ ')' :: (text ++ rest))) =
        ('(' :: (scanSegments .bare (.within .round (0 + 1)) (inner ++ ')' :: (text ++ rest))).1,
          (scanSegments .bare (.within .round (0 + 1)) (inner ++ ')' :: (text ++ rest))).2) := by
      rw [scanSegments]
      simp [Nesting.step, Quoting.step]
    rw [List.cons_append, List.append_assoc, List.cons_append, hopening, hinner.scanSegments_eq,
      hclosing, ih]
    simp

/-- The segments of a list are the texts of its branches. -/
theorem splitCommas_listText {branches : List Branch} (hne : branches ≠ [])
    (hsegments : ∀ branch ∈ branches, IsSegment branch.text) :
    splitCommas (listText branches) = branches.map Branch.text := by
  match branches with
  | [] => exact absurd rfl hne
  | [branch] =>
    have hscan := (hsegments branch List.mem_cons_self).scanSegments_eq []
    rw [List.append_nil] at hscan
    rw [listText, splitCommas, hscan]
    simp [scanSegments]
  | branch :: next :: branches =>
    rw [List.forall_mem_cons] at hsegments
    have hothers := splitCommas_listText (List.cons_ne_nil next branches) hsegments.2
    rw [listText, splitCommas, hsegments.1.scanSegments_eq, scanSegments, if_pos ⟨rfl, rfl, rfl⟩]
    rw [splitCommas] at hothers
    rw [List.map_cons, ← hothers]
    simp

theorem isLevel_listText {branches : List Branch}
    (hsegments : ∀ branch ∈ branches, IsSegment branch.text) : IsLevel (listText branches) := by
  match branches with
  | [] =>
    rw [listText]
    exact .nil
  | [branch] =>
    rw [listText]
    exact (hsegments branch List.mem_cons_self).isLevel
  | branch :: next :: branches =>
    rw [List.forall_mem_cons] at hsegments
    rw [listText]
    exact hsegments.1.isLevel.append (.cons rfl (isLevel_listText hsegments.2))

end StyleMigration.Selector
