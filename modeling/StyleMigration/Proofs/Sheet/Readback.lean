import StyleMigration.Proofs.Sheet.Nesting

/-!
Whether a migrated stylesheet in braces is read as it was meant. Reading is local: a text or a header
that was read somewhere is read alike in every place where the same comes after it, and a header even
before anything (`isFirm_items_readBraces`). So of a migrated stylesheet only the news can go wrong, the
headers with a new selector and the texts before something new. If these are read as they stand, then
the groups of the whole are (`groups_readBraces_print_migrated`).

Nothing new comes after a text but where a group was dropped or has a new header, and there the text is a
statement with its semicolon or ends with a comment. In the first case, and after a block comment,
anything can come next. A line comment goes on to the end of the line, and the line break that ends it
goes away with a group that is dropped, for it is part of what stands before the header.

A new header goes wrong where the last slash of `/deep/` was the first character of a comment too: what
was in the comment is then part of the selector.
-/

set_option autoImplicit false

namespace StyleMigration.Sheet

open Text

variable {lineComments : Bool} {blanks text : List Char}

/-! ### Items that are read -/

theorem items_readBraces (lineComments : Bool) (text : List Char) :
    items (readBraces lineComments text) =
      (braceTokens lineComments text).flatMap (BraceToken.walk itemizing) :=
  walk_readBraces itemizing_regular lineComments text

theorem source_items_readBraces (lineComments : Bool) (text : List Char) :
    source (items (readBraces lineComments text)) = text := by
  rw [(isNested_readBraces lineComments text).source_items, print_readBraces]

/-- The items at the front of a text come from the tokens there. -/
theorem items_readBraces_takeTokens (lineComments : Bool) (text : List Char) :
    items (readBraces lineComments text) =
      (takeTokens lineComments text).1.flatMap (BraceToken.walk itemizing) ++
        items (readBraces lineComments (takeTokens lineComments text).2) := by
  by_cases hne : text = []
  · subst hne
    have htokens : takeTokens lineComments [] = ([], []) := by
      simp [takeTokens, takeTrivia, takeComment?, BraceToken.ofText]
    rw [htokens, List.flatMap_nil, List.nil_append]
  · rw [items_readBraces, braceTokens, dif_pos (takeTokens_rest_length lineComments hne),
      List.flatMap_append, items_readBraces]

/-- A text as an item, left out if it is empty. -/
def textItems (text : List Char) : List Item :=
  if text.isEmpty then [] else [.text text]

theorem flatMap_ofText (hhead : text.head? ≠ some '}') :
    (BraceToken.ofText text).flatMap (BraceToken.walk itemizing) = textItems text := by
  rw [BraceToken.ofText, textItems]
  split
  · rfl
  · have hne : text ≠ ['}'] := fun hbrace => hhead (hbrace ▸ rfl)
    simp [BraceToken.walk, itemizing, hne]

/-- Comments are a text of their own. -/
theorem items_readBraces_of_takeTrivia (lineComments : Bool) (text : List Char) :
    items (readBraces lineComments text) =
      textItems (takeTrivia lineComments text).1 ++ items (readBraces lineComments
        ((takeTrivia lineComments text).2.1 ++ (takeTrivia lineComments text).2.2)) := by
  have hlead := isLead_takeTrivia lineComments text
  have hcomments := flatMap_ofText (takeTrivia_head?_ne lineComments text)
  have htokens : takeTokens lineComments text =
      (BraceToken.ofText (takeTrivia lineComments text).1 ++ (takeTokens lineComments
          ((takeTrivia lineComments text).2.1 ++ (takeTrivia lineComments text).2.2)).1,
        (takeTokens lineComments
          ((takeTrivia lineComments text).2.1 ++ (takeTrivia lineComments text).2.2)).2) := by
    rw [takeTokens, takeTokens, hlead.takeTrivia_eq]
    generalize takeTrivia lineComments text = trivia
    obtain ⟨comments, blanks, rest⟩ := trivia
    simp only [BraceToken.ofText]
    split
    · simp
    · simp
    · split <;> simp
  rw [items_readBraces_takeTokens, htokens, List.flatMap_append, hcomments, List.append_assoc,
    ← items_readBraces_takeTokens]

section Lead

variable {lineComments : Bool} {blanks rest : List Char}

theorem IsLead.items_nil (hlead : IsLead lineComments blanks []) :
    items (readBraces lineComments blanks) = textItems blanks := by
  have htrivia := hlead.takeTrivia_eq
  rw [List.append_nil] at htrivia
  have htokens : takeTokens lineComments blanks = (BraceToken.ofText blanks, []) := by
    rw [takeTokens, htrivia]
    rfl
  have hnil : items (readBraces lineComments []) = [] := by
    simp [items_readBraces, braceTokens, takeTokens, takeTrivia, takeComment?, BraceToken.ofText]
  rw [items_readBraces_takeTokens, htokens, flatMap_ofText hlead.head?_blanks_ne, hnil, List.append_nil]

theorem IsLead.items_closing (hlead : IsLead lineComments blanks ('}' :: rest)) :
    items (readBraces lineComments (blanks ++ '}' :: rest)) =
      textItems blanks ++ .closing :: items (readBraces lineComments rest) := by
  have htokens : takeTokens lineComments (blanks ++ '}' :: rest) =
      (BraceToken.ofText blanks ++ [.closing], rest) := by
    rw [takeTokens, hlead.takeTrivia_eq]
    rfl
  rw [items_readBraces_takeTokens, htokens, List.flatMap_append, flatMap_ofText hlead.head?_blanks_ne,
    List.append_assoc]
  rfl

variable (hlead : IsLead lineComments blanks rest) (hne : rest ≠ []) (hclosing : rest.head? ≠ some '}')
include hlead hne hclosing

theorem IsLead.takeTokens_eq :
    takeTokens lineComments (blanks ++ rest) =
      if (takeStatement lineComments rest).ended = .opening then
        ([.opening blanks (takeStatement lineComments rest).text],
          (takeStatement lineComments rest).rest)
      else
        ([.text (blanks ++ (takeStatement lineComments rest).text)],
          (takeStatement lineComments rest).rest) := by
  rw [takeTokens, hlead.takeTrivia_eq]
  simp only [BraceToken.ofText, List.isEmpty_nil, if_true, List.nil_append]
  split
  · exact absurd rfl hne
  · exact absurd rfl hclosing
  · rfl

theorem IsLead.items_opening (hended : (takeStatement lineComments rest).ended = .opening) :
    items (readBraces lineComments (blanks ++ rest)) =
      .opening (.ofBraces blanks (takeStatement lineComments rest).text) ::
        items (readBraces lineComments (takeStatement lineComments rest).rest) := by
  rw [items_readBraces_takeTokens, hlead.takeTokens_eq hne hclosing, if_pos hended]
  rfl

theorem IsLead.items_statement (hended : (takeStatement lineComments rest).ended ≠ .opening) :
    items (readBraces lineComments (blanks ++ rest)) =
      .text (blanks ++ (takeStatement lineComments rest).text) ::
        items (readBraces lineComments (takeStatement lineComments rest).rest) := by
  have htokens := hlead.takeTokens_eq hne hclosing
  rw [if_neg hended] at htokens
  have hproper : (BraceToken.text (blanks ++ (takeStatement lineComments rest).text)).IsProper := by
    apply @isProper_of_mem_takeTokens lineComments (blanks ++ rest)
    rw [htokens]
    exact List.mem_singleton_self _
  have hbrace : blanks ++ (takeStatement lineComments rest).text ≠ ['}'] :=
    fun hbrace => hproper.2 (hbrace ▸ rfl)
  rw [items_readBraces_takeTokens, htokens]
  simp only [List.flatMap_singleton, BraceToken.walk, itemizing, if_neg hbrace,
    List.singleton_append]

end Lead

/-! ### Braces that are read -/

/-- The openings and closings that are read in a text. -/
def braces (lineComments : Bool) (text : List Char) : List Item :=
  (items (readBraces lineComments text)).filter Item.isBrace

@[simp] theorem filter_textItems (text : List Char) : (textItems text).filter Item.isBrace = [] := by
  rw [textItems]
  split <;> rfl

theorem braces_of_takeTrivia (lineComments : Bool) (text : List Char) :
    braces lineComments text = braces lineComments
      ((takeTrivia lineComments text).2.1 ++ (takeTrivia lineComments text).2.2) := by
  rw [braces, items_readBraces_of_takeTrivia, List.filter_append, filter_textItems,
    List.nil_append, braces]

theorem isLead_nil (lineComments : Bool)
    (hblank : ∀ c ∈ blanks, isAsciiBlank c = true) : IsLead lineComments blanks [] :=
  ⟨hblank, nofun, rfl⟩

theorem isLead_closing (lineComments : Bool)
    (hblank : ∀ c ∈ blanks, isAsciiBlank c = true) (rest : List Char) :
    IsLead lineComments blanks ('}' :: rest) := by
  refine ⟨hblank, ?_, takeComment?_eq_none_iff.mpr (by cases rest <;> simp)⟩
  rintro c hc
  cases hc
  rfl

theorem braces_nil (lineComments : Bool)
    (hblank : ∀ c ∈ blanks, isAsciiBlank c = true) : braces lineComments blanks = [] := by
  rw [braces, (isLead_nil lineComments hblank).items_nil, filter_textItems]

theorem braces_closing (lineComments : Bool)
    (hblank : ∀ c ∈ blanks, isAsciiBlank c = true) (rest : List Char) :
    braces lineComments (blanks ++ '}' :: rest) = .closing :: braces lineComments rest := by
  rw [braces, (isLead_closing lineComments hblank rest).items_closing, List.filter_append,
    filter_textItems]
  rfl

/-- Comments say nothing about the braces after them. -/
theorem braces_comments {other : List Char} (hother : CanFollow lineComments
      ((takeTrivia lineComments text).2.1 ++ (takeTrivia lineComments text).2.2) other) :
    braces lineComments ((takeTrivia lineComments text).1 ++ other) = braces lineComments other := by
  rw [braces_of_takeTrivia, takeTrivia_append_of_canFollow hother, ← braces_of_takeTrivia]

section Statement

variable {lineComments : Bool} {blanks rest other : List Char}
  (hlead : IsLead lineComments blanks rest) (hclosing : rest.head? ≠ some '}')
include hlead hclosing

/-- A header opens a group whatever comes after it. -/
theorem IsLead.braces_opening (hended : (takeStatement lineComments rest).ended = .opening) :
    braces lineComments
        ((Header.ofBraces blanks (takeStatement lineComments rest).text).text ++ '{' :: other) =
      .opening (.ofBraces blanks (takeStatement lineComments rest).text) ::
        braces lineComments other := by
  have hother : (takeStatement lineComments rest).ended = .stop →
      other.head? = (takeStatement lineComments rest).rest.head? := by
    rw [hended]
    nofun
  obtain ⟨hscan, hhead⟩ := takeStatement_followedBy hother
  have hnew := hlead.followedBy hother
  have hsource : ((takeStatement lineComments rest).followedBy other).source =
      (takeStatement lineComments rest).text ++ '{' :: other := by
    simp [Scanned.source, Scanned.followedBy, hended, Terminator.text]
  rw [hsource] at hscan hhead hnew
  rw [Header.ofBraces_text, List.append_assoc, braces,
    hnew.items_opening (by simp) (hhead ▸ hclosing) (hscan ▸ hended), hscan]
  rfl

/-- A statement says nothing about the braces after it. -/
theorem IsLead.braces_statement (hne : rest ≠ [])
    (hended : (takeStatement lineComments rest).ended ≠ .opening)
    (hother : (takeStatement lineComments rest).ended = .stop →
      other.head? = (takeStatement lineComments rest).rest.head?) :
    braces lineComments (blanks ++ (takeStatement lineComments rest).text ++ other) =
      braces lineComments other := by
  obtain ⟨hscan, hhead⟩ := takeStatement_followedBy hother
  have hnew := hlead.followedBy hother
  have hsource : ((takeStatement lineComments rest).followedBy other).source =
      (takeStatement lineComments rest).text ++ other := by
    cases h : (takeStatement lineComments rest).ended <;>
      simp_all [Scanned.source, Scanned.followedBy, Terminator.text]
  rw [hsource] at hscan hhead hnew
  have hnonempty := List.append_ne_nil_of_left_ne_nil
    (takeStatement_text_ne_nil hne hclosing hended) other
  rw [List.append_assoc, braces,
    hnew.items_statement hnonempty (hhead ▸ hclosing) (hscan ▸ hended), hscan]
  rfl

end Statement

/-! ### Items that hold wherever they stand -/

/-- A text that adds no brace to a text that begins with a character, or to none. -/
def IsInert (lineComments : Bool) (content : List Char) (next : Option Char) : Prop :=
  ∀ other : List Char, other.head? = next →
    braces lineComments (content ++ other) = braces lineComments other

/-- A header that opens a group whatever comes after it. -/
def IsOpening (lineComments : Bool) (header : Header) : Prop :=
  ∀ other, braces lineComments (header.text ++ '{' :: other) =
    .opening header :: braces lineComments other

/-- What can come after a text in the place of other items: a text that begins alike, and without
line comments in the place of a header anything. -/
def CanReplace (lineComments : Bool) (rest : List Item) (other : List Char) : Prop :=
  other.head? = (source rest).head? ∨
    lineComments = false ∧ ∃ header after, rest = .opening header :: after

/-- Texts and headers that are read alike in other places. -/
def IsFirm (lineComments : Bool) : List Item → Prop
  | [] => True
  | .text content :: rest =>
    content ≠ [] ∧ (∀ other, CanReplace lineComments rest other →
      braces lineComments (content ++ other) = braces lineComments other) ∧
      IsFirm lineComments rest
  | .opening header :: rest => IsOpening lineComments header ∧ IsFirm lineComments rest
  | .closing :: rest => IsFirm lineComments rest

theorem isFirm_textItems_append {content : List Char} {rest : List Item}
    (hrest : IsFirm lineComments rest) (hcontent : ∀ other, CanReplace lineComments rest other →
      braces lineComments (content ++ other) = braces lineComments other) :
    IsFirm lineComments (textItems content ++ rest) := by
  rw [textItems]
  split
  · exact hrest
  · rename_i hne
    exact ⟨fun hempty => hne (List.isEmpty_iff.mpr hempty), hcontent, hrest⟩

theorem canFollow_of_canReplace {other : List Char}
    (hother : CanReplace lineComments (items (readBraces lineComments text)) other) :
    CanFollow lineComments text other := by
  have hsource := source_items_readBraces lineComments text
  rcases hother with hhead | ⟨hblock, header, after, hopening⟩
  · rw [hsource] at hhead
    exact .inl hhead
  · refine .inr ⟨hblock, fun hempty => ?_⟩
    rw [hopening, hempty] at hsource
    simp [Item.source] at hsource

/-- Where a statement was stopped no header comes next. -/
theorem head?_eq_of_canReplace {other : List Char} (hother : CanReplace lineComments
      (items (readBraces lineComments (takeStatement lineComments text).rest)) other)
    (hended : (takeStatement lineComments text).ended = .stop) :
    other.head? = (takeStatement lineComments text).rest.head? := by
  rcases hother with hhead | ⟨-, header, after, hopening⟩
  · rwa [source_items_readBraces] at hhead
  · rcases scanStatement_stop hended with hrest | hbrace
    · rw [takeStatement, hrest,
        (isLead_nil lineComments (List.forall_mem_nil _)).items_nil] at hopening
      cases hopening
    · obtain ⟨tail, htail⟩ := List.head?_eq_some_iff.mp hbrace
      rw [takeStatement, htail, ← List.nil_append ('}' :: tail),
        (isLead_closing lineComments (List.forall_mem_nil _) tail).items_closing] at hopening
      cases hopening

theorem IsLead.isFirm {rest : List Char} (hlead : IsLead lineComments blanks rest)
    (hshorter : ∀ text : List Char, text.length < rest.length →
      IsFirm lineComments (items (readBraces lineComments text))) :
    IsFirm lineComments (items (readBraces lineComments (blanks ++ rest))) := by
  cases rest with
  | nil =>
    rw [List.append_nil, hlead.items_nil, ← List.append_nil (textItems blanks)]
    refine isFirm_textItems_append trivial fun other hother => ?_
    rcases hother with hhead | ⟨-, header, after, hopening⟩
    · rw [List.head?_eq_none_iff.mp hhead, List.append_nil, braces_nil lineComments hlead.blank,
        braces_nil lineComments (List.forall_mem_nil _)]
    · cases hopening
  | cons c rest =>
    by_cases hbrace : c = '}'
    · subst hbrace
      rw [hlead.items_closing]
      refine isFirm_textItems_append (hshorter rest (Nat.lt_succ_self _)) fun other hother => ?_
      rcases hother with hhead | ⟨-, header, after, hopening⟩
      · obtain ⟨tail, rfl⟩ := List.head?_eq_some_iff.mp hhead
        rw [braces_closing lineComments hlead.blank]
        exact (braces_closing lineComments (List.forall_mem_nil _) tail).symm
      · cases hopening
    · have hne : c :: rest ≠ [] := List.cons_ne_nil _ _
      have hclosing : (c :: rest).head? ≠ some '}' := fun hhead => hbrace (Option.some.inj hhead)
      have hrest := hshorter _ (scanStatement_rest_length lineComments 0 .plain hne hclosing)
      rw [← takeStatement] at hrest
      by_cases hended : (takeStatement lineComments (c :: rest)).ended = .opening
      · rw [hlead.items_opening hne hclosing hended]
        exact ⟨fun other => hlead.braces_opening hclosing hended, hrest⟩
      · rw [hlead.items_statement hne hclosing hended]
        exact ⟨List.append_ne_nil_of_right_ne_nil _ (takeStatement_text_ne_nil hne hclosing hended),
          fun other hother => hlead.braces_statement hclosing hne hended
            (head?_eq_of_canReplace hother), hrest⟩

/-- All that is read holds in other places too. -/
theorem isFirm_items_readBraces (lineComments : Bool) (text : List Char) :
    IsFirm lineComments (items (readBraces lineComments text)) := by
  -- The rest after the first statement or brace is shorter than the text.
  induction hlength : text.length using Nat.strongRecOn generalizing text with
  | ind length ih =>
    subst hlength
    have happend := congrArg List.length (takeTrivia_append lineComments text)
    rw [List.length_append, List.length_append] at happend
    rw [items_readBraces_of_takeTrivia]
    refine isFirm_textItems_append ((isLead_takeTrivia lineComments text).isFirm ?_)
      fun other hother => braces_comments (canFollow_of_canReplace hother)
    exact fun shorter hshorter => ih shorter.length (by omega) shorter rfl

/-! ### Reading items back -/

/-- The texts among items, each with the character that comes after it. -/
def joinsOf : List Item → List (List Char × Option Char)
  | [] => []
  | .text content :: rest => (content, (source rest).head?) :: joinsOf rest
  | .opening _ :: rest | .closing :: rest => joinsOf rest

/-- The texts of a tree, each with the character that comes after it. -/
def joins (nodes : List Node) : List (List Char × Option Char) :=
  joinsOf (items nodes)

theorem IsFirm.isInert {list : List Item} (hfirm : IsFirm lineComments list)
    {join : List Char × Option Char} (hmem : join ∈ joinsOf list) :
    IsInert lineComments join.1 join.2 := by
  induction list with
  | nil => cases hmem
  | cons item rest ih =>
    cases item with
    | text content =>
      rcases List.mem_cons.mp hmem with rfl | hmem
      · exact fun other hhead => hfirm.2.1 other (.inl hhead)
      · exact ih hfirm.2.2 hmem
    | opening header => exact ih hfirm.2 hmem
    | closing => exact ih hfirm hmem

theorem IsFirm.isOpening {list : List Item} (hfirm : IsFirm lineComments list)
    {header : Header} (hmem : .opening header ∈ list) : IsOpening lineComments header := by
  induction list with
  | nil => cases hmem
  | cons item rest ih =>
    cases item with
    | text content => exact ih hfirm.2.2 (by simpa using hmem)
    | opening first =>
      rcases List.mem_cons.mp hmem with heq | hmem
      · cases heq
        exact hfirm.1
      · exact ih hfirm.2 hmem
    | closing => exact ih hfirm (by simpa using hmem)

/-- Items are read back with their braces if their texts and headers allow it. -/
theorem braces_source {list : List Item}
    (hheaders : ∀ header, .opening header ∈ list → IsOpening lineComments header)
    (hjoins : ∀ join ∈ joinsOf list, IsInert lineComments join.1 join.2) :
    braces lineComments (source list) = list.filter Item.isBrace := by
  induction list with
  | nil => exact braces_nil lineComments (List.forall_mem_nil _)
  | cons item rest ih =>
    have hrest := ih fun header hmem => hheaders header (List.mem_cons_of_mem _ hmem)
    cases item with
    | text content =>
      rw [joinsOf, List.forall_mem_cons] at hjoins
      rw [source_cons, Item.source, hjoins.1 _ rfl, hrest hjoins.2]
      rfl
    | opening header =>
      have hopening := hheaders header List.mem_cons_self (source rest)
      rw [source_cons, Item.source, List.append_assoc, List.singleton_append, hopening, hrest hjoins]
      rfl
    | closing =>
      have hclosing := braces_closing lineComments (List.forall_mem_nil _) (source rest)
      rw [source_cons, Item.source, List.singleton_append]
      exact hclosing.trans (congrArg _ (hrest hjoins))

/-! ### Items after a migration -/

/-- The items that are left of others if headers are changed and groups are dropped. -/
inductive Thinned : List Item → List Item → Prop
  | nil : Thinned [] []
  | text {content : List Char} {after before : List Item} (hrest : Thinned after before) :
      Thinned (.text content :: after) (.text content :: before)
  | closing {after before : List Item} (hrest : Thinned after before) :
      Thinned (.closing :: after) (.closing :: before)
  | opening {header changed : Header} {after before : List Item} (hrest : Thinned after before) :
      Thinned (.opening changed :: after) (.opening header :: before)
  | dropped {header : Header} {after before : List Item} (body : List Item)
      (hrest : Thinned after before) : Thinned after (.opening header :: (body ++ before))

theorem Thinned.refl (list : List Item) : Thinned list list := by
  induction list with
  | nil => exact .nil
  | cons item list ih =>
    cases item with
    | text content => exact .text ih
    | opening header => exact .opening ih
    | closing => exact .closing ih

theorem Thinned.append {after before after' before' : List Item} (hfirst : Thinned after before)
    (hsecond : Thinned after' before') : Thinned (after ++ after') (before ++ before') := by
  induction hfirst with
  | nil => exact hsecond
  | text _ ih => exact .text ih
  | closing _ ih => exact .closing ih
  | opening _ ih => exact .opening ih
  | dropped body _ ih =>
    rw [List.cons_append, List.append_assoc]
    exact .dropped body ih

theorem thinned_recastAll (select : RuleSite → List Char) (drops : Bool) (nodes : List Node) :
    Thinned (items (recastAll select drops nodes)) (items nodes) := by
  match nodes with
  | [] => exact .refl _
  | .text content :: nodes =>
    rw [recastAll]
    split
    · rename_i hdropped
      simp [Node.isAppending, Node.selector?] at hdropped
    · rw [Node.recast, items_text_cons, items_text_cons]
      exact (Thinned.refl [_]).append (thinned_recastAll select drops nodes)
  | .group header enclosure body :: nodes =>
    have hrest := thinned_recastAll select drops nodes
    rw [recastAll]
    split
    · rw [items_group_cons]
      exact .dropped _ hrest
    · cases header <;>
      · rw [Node.recast, items_group_cons, items_group_cons]
        exact .opening (((thinned_recastAll select _ body).append (.refl _)).append hrest)

theorem IsFirm.of_append {first second : List Item}
    (hfirm : IsFirm lineComments (first ++ second)) : IsFirm lineComments second := by
  induction first with
  | nil => exact hfirm
  | cons item first ih =>
    cases item with
    | text content => exact ih hfirm.2.2
    | opening header => exact ih hfirm.2
    | closing => exact ih hfirm

/-- What is left begins like what was there, unless a header came first. -/
theorem Thinned.head?_source {after before : List Item}
    (hthinned : Thinned after before) (hfirm : IsFirm lineComments before) :
    (source after).head? = (source before).head? ∨
      ∃ header rest, before = .opening header :: rest := by
  cases hthinned with
  | nil => exact .inl rfl
  | @text content after before hrest =>
    exact .inl (head?_append_eq fun hempty => absurd hempty hfirm.1)
  | closing hrest => exact .inl rfl
  | opening hrest => exact .inr ⟨_, _, rfl⟩
  | dropped body hrest => exact .inr ⟨_, _, rfl⟩

/-- Without line comments a text says nothing about the braces after it, whatever is dropped. -/
theorem Thinned.isInert {after before : List Item} (hthinned : Thinned after before)
    (hfirm : IsFirm false before) : ∀ join ∈ joinsOf after, IsInert false join.1 join.2 := by
  induction hthinned with
  | nil => nofun
  | @text content after before hrest ih =>
    rw [joinsOf, List.forall_mem_cons]
    refine ⟨fun other hhead => hfirm.2.1 other ?_, ih hfirm.2.2⟩
    rcases hrest.head?_source hfirm.2.2 with hsame | hopening
    · exact .inl (hhead.trans hsame)
    · exact .inr ⟨rfl, hopening⟩
  | closing _ ih => exact ih hfirm
  | opening _ ih => exact ih hfirm.2
  | dropped body _ ih => exact ih hfirm.2.of_append

/-! ### Reading a migrated stylesheet -/

theorem mem_headers_iff {header : Header} (nodes : List Node) :
    header ∈ headers nodes ↔ .opening header ∈ items nodes := by
  match nodes with
  | [] => simp [headers, walk]
  | .text content :: nodes =>
    have hlist : headers (.text content :: nodes) = headers nodes := by
      rw [headers, walk, Node.walk]
      rfl
    rw [hlist, items_text_cons, List.mem_cons, mem_headers_iff nodes]
    split <;> simp
  | .group first enclosure body :: nodes =>
    have hlist : headers (.group first enclosure body :: nodes) =
        first :: (headers body ++ [] ++ headers nodes) := by
      rw [headers, walk, Node.walk]
      rfl
    have hclosing : .opening header ∉ enclosure.closingItems := by
      cases enclosure <;> simp [Enclosure.closingItems]
    simp [hlist, items_group_cons, mem_headers_iff body, mem_headers_iff nodes, hclosing]

/-- A header that is read as it stands before an opening brace. -/
def Header.ReadsAlone (lineComments : Bool) (header : Header) : Prop :=
  headers (readBraces lineComments (header.text ++ ['{'])) = [header]

instance (lineComments : Bool) (header : Header) : Decidable (header.ReadsAlone lineComments) :=
  inferInstanceAs (Decidable (_ = _))

-- The new header of `a /deep/*{*/ b`, where the brace stood in a comment.
example : ¬(Header.rule [] "a :deep *\x7b*/ b".toList []).ReadsAlone false := by
  decide +kernel

/-- A text that is read as it stands before a character, or before none. -/
def StandsAlone (lineComments : Bool) (join : List Char × Option Char) : Prop :=
  join ∈ joins (readBraces lineComments (join.1 ++ join.2.toList))

instance (lineComments : Bool) (join : List Char × Option Char) :
    Decidable (StandsAlone lineComments join) :=
  inferInstanceAs (Decidable (_ ∈ _))

/-- A migrated stylesheet in braces is read as it was meant: it has the same groups with the same
headers, nested in the same way and in the same order, each closed or left open. For this every new
header must be read as it stands, and where line comments are known also every text with something new
after it. -/
theorem groups_readBraces_print_migrated (lineComments : Bool) (text : List Char)
    (hdone : (migrateAll false (readBraces lineComments text)).stopped = none)
    (hheaders : ∀ header ∈ headers (migrateAll false (readBraces lineComments text)).result,
      header ∉ headers (readBraces lineComments text) → header.ReadsAlone lineComments)
    (hjoins : lineComments = true →
      ∀ join ∈ joins (migrateAll false (readBraces lineComments text)).result,
        join ∉ joins (readBraces lineComments text) → StandsAlone lineComments join) :
    groups (readBraces lineComments
        (print (migrateAll false (readBraces lineComments text)).result)) =
      groups (migrateAll false (readBraces lineComments text)).result := by
  have hfirm := isFirm_items_readBraces lineComments
  have hnested := (isNested_readBraces lineComments text).recastAll RuleSite.rewritten false
  have hthinned := thinned_recastAll RuleSite.rewritten false (readBraces lineComments text)
  rw [migrateAll_result false _ hdone] at hheaders hjoins ⊢
  generalize recastAll RuleSite.rewritten false (readBraces lineComments text) = result at *
  have hopenings : ∀ header, .opening header ∈ items result → IsOpening lineComments header := by
    intro header hmem
    by_cases hold : header ∈ headers (readBraces lineComments text)
    · exact (hfirm text).isOpening ((mem_headers_iff _).mp hold)
    · have halone := hheaders header ((mem_headers_iff _).mpr hmem) hold
      refine (hfirm (header.text ++ ['{'])).isOpening ((mem_headers_iff _).mp ?_)
      rw [halone]
      exact List.mem_singleton_self header
  have hinert : ∀ join ∈ joinsOf (items result), IsInert lineComments join.1 join.2 := by
    cases lineComments with
    | false => exact hthinned.isInert (hfirm text)
    | true =>
      intro join hmem
      by_cases hold : join ∈ joins (readBraces true text)
      · exact (hfirm text).isInert hold
      · exact (hfirm _).isInert (hjoins rfl join hmem hold)
  calc groups (readBraces lineComments (print result))
      = regroup (items (readBraces lineComments (print result))) :=
        (isNested_readBraces lineComments _).regroup_items.symm
    _ = regroup (braces lineComments (print result)) := (regroup_filter_isBrace _).symm
    _ = regroup ((items result).filter Item.isBrace) := by
        rw [← hnested.source_items, braces_source hopenings hinert]
    _ = groups result := by rw [regroup_filter_isBrace, hnested.regroup_items]

/-- The stylesheet `.p:deep{a:b;&-c{}.d >>> .e{}}` with a line break after the first rule in it. -/
def statementSheet : List Node :=
  readBraces true ".p:deep\x7ba:b;&-c{}\n.d >>> .e{}\x7d".toList

/-- A child is dropped between a statement and a rule with a new selector. -/
theorem groups_readBraces_print_migrated_statement :
    print (migrateAll false statementSheet).result = ".p:deep\x7ba:b;\n.d :deep .e{}\x7d".toList ∧
      groups (readBraces true (print (migrateAll false statementSheet).result)) =
        groups (migrateAll false statementSheet).result :=
  ⟨by decide +kernel, groups_readBraces_print_migrated true _
    (by decide +kernel) (by decide +kernel) (by decide +kernel)⟩

/-- The stylesheet `.p{.a:deep{// c&-b{}}&-z{}}` with a line break before each child with `&`. -/
def lineCommentSheet : List Node :=
  readBraces true ".p\x7b.a:deep\x7b// c\n&-b{}\x7d\n&-z{}\x7d".toList

/-- A child is dropped after a line comment, which then takes the closing brace. -/
theorem groups_readBraces_print_line_comment :
    (migrateAll false lineCommentSheet).stopped = none ∧
      print (migrateAll false lineCommentSheet).result =
        ".p\x7b.a:deep\x7b// c\x7d\n&-z{}\x7d".toList ∧
      groups (readBraces true (print (migrateAll false lineCommentSheet).result)) ≠
        groups (migrateAll false lineCommentSheet).result := by
  refine ⟨by decide +kernel, by decide +kernel, fun hsame => ?_⟩
  have hitems := congrArg items hsame
  revert hitems
  decide +kernel

end StyleMigration.Sheet
