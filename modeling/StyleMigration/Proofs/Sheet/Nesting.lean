import StyleMigration.Proofs.Sheet.Compositional
import StyleMigration.Proofs.Sheet.Locality

/-!
How the groups of a stylesheet in braces are nested, told by its braces. A tree that was read is nested
(`isNested_readBraces`): a group that is never closed is the last of its level, and only at the top level
a closing brace is text. A migration keeps it so (`IsNested.recastAll`). The openings and closings of a
nested tree, in the order of the text, say which groups it has and how they lie in each other
(`IsNested.regroup_items`).
-/

set_option autoImplicit false

namespace StyleMigration.Sheet

open Text

variable {nodes : List Node} {text : List Char}

/-! ### Groups and items -/

mutual

def Node.groups : Node → List Node
  | .text _ => []
  | .group header enclosure body => [.group header enclosure (groups body)]

/-- The groups of a tree, each with its header, its enclosure and the groups in it. Texts are left
out. -/
def groups : List Node → List Node
  | [] => []
  | node :: nodes => node.groups ++ groups nodes

end

theorem groups_append (first second : List Node) :
    groups (first ++ second) = groups first ++ groups second := by
  induction first with
  | nil => simp [groups]
  | cons node first ih => simp [groups, ih]

/-- What a stylesheet in braces is made of. -/
inductive Item where
  | text (content : List Char)
  | opening (header : Header)
  | closing
  deriving DecidableEq, Repr

def Item.source : Item → List Char
  | .text content => content
  | .opening header => header.text ++ ['{']
  | .closing => ['}']

def Item.isBrace : Item → Bool
  | .text _ => false
  | .opening _ | .closing => true

/-- What closes a group. -/
def Enclosure.closingItems : Enclosure → List Item
  | braces => [.closing]
  | openBrace | indented => []

/-- The walk that collects items. A closing brace that is text is an item of its own. -/
def itemizing : Walk Item where
  onText content := [if content = ['}'] then .closing else .text content]
  onOpening header _ := [.opening header]
  onClosing enclosure := enclosure.closingItems

theorem itemizing_regular : itemizing.Regular := ⟨fun _ => rfl, rfl, rfl, rfl⟩

/-- The items of a tree in the order of the text. -/
def items (nodes : List Node) : List Item :=
  walk itemizing nodes

/-- The text of items. -/
def source (list : List Item) : List Char :=
  list.flatMap Item.source

@[simp] theorem source_nil : source [] = [] :=
  rfl

@[simp] theorem source_cons (item : Item) (list : List Item) :
    source (item :: list) = item.source ++ source list :=
  List.flatMap_cons

theorem source_append (first second : List Item) :
    source (first ++ second) = source first ++ source second :=
  List.flatMap_append

@[simp] theorem items_nil : items [] = [] := by
  rw [items, walk]

theorem items_text_cons (content : List Char) (nodes : List Node) :
    items (.text content :: nodes) =
      (if content = ['}'] then .closing else .text content) :: items nodes := by
  rw [items, walk, Node.walk]
  rfl

theorem items_group_cons (header : Header) (enclosure : Enclosure) (body nodes : List Node) :
    items (.group header enclosure body :: nodes) =
      .opening header :: (items body ++ enclosure.closingItems ++ items nodes) := by
  rw [items, walk, Node.walk]
  rfl

theorem items_append (first second : List Node) :
    items (first ++ second) = items first ++ items second :=
  walk_append itemizing first second

/-- Builds groups from openings and closings. A closing without an opening is passed over. -/
def Outline.addItem (outline : Outline Unit) : Item → Outline Unit
  | .text _ => outline
  | .opening header => outline.enter () header
  | .closing => if outline.around.isEmpty then outline else outline.leave .braces

/-- The groups that items tell of. -/
def regroup (list : List Item) : List Node :=
  (list.foldl Outline.addItem .empty).finish .openBrace

theorem regroup_filter_isBrace (list : List Item) :
    regroup (list.filter Item.isBrace) = regroup list := by
  have hfold (outline : Outline Unit) : (list.filter Item.isBrace).foldl Outline.addItem outline =
      list.foldl Outline.addItem outline := by
    induction list generalizing outline with
    | nil => rfl
    | cons item list ih =>
      cases item with
      | text content => exact ih outline
      | opening header => exact ih _
      | closing => exact ih _
  rw [regroup, hfold, regroup]

/-! ### Nested trees -/

/-- All groups are closed by braces, and `inside` a group no closing brace is text. -/
def isClosed (inside : Bool) : List Node → Bool
  | [] => true
  | .text content :: nodes => !(inside && content == ['}']) && isClosed inside nodes
  | .group _ enclosure body :: nodes =>
    enclosure == .braces && isClosed true body && isClosed inside nodes

/-- A group that is never closed is the last of its level. -/
inductive IsNested : Bool → List Node → Prop
  | closed {inside : Bool} {nodes : List Node} (hnodes : isClosed inside nodes = true) :
      IsNested inside nodes
  | opened {inside : Bool} {nodes body : List Node} {header : Header}
      (hnodes : isClosed inside nodes = true) (hbody : IsNested true body) :
      IsNested inside (nodes ++ [.group header .openBrace body])

theorem isClosed_append (inside : Bool) (first second : List Node) :
    isClosed inside (first ++ second) = (isClosed inside first && isClosed inside second) := by
  induction first with
  | nil => simp [isClosed]
  | cons node first ih => cases node <;> simp [isClosed, ih, Bool.and_assoc]

theorem source_items_of_isClosed {inside : Bool} (nodes : List Node)
    (hclosed : isClosed inside nodes = true) : source (items nodes) = print nodes := by
  match nodes with
  | [] => simp [print]
  | .text content :: nodes =>
    simp only [isClosed, Bool.and_eq_true] at hclosed
    rw [items_text_cons, source_cons, source_items_of_isClosed nodes hclosed.2, print, Node.print]
    split
    · rename_i hbrace
      rw [hbrace, Item.source]
    · rw [Item.source]
  | .group header enclosure body :: nodes =>
    simp only [isClosed, Bool.and_eq_true, beq_iff_eq] at hclosed
    obtain ⟨⟨rfl, hbody⟩, hnodes⟩ := hclosed
    rw [items_group_cons, source_cons, source_append, source_append,
      source_items_of_isClosed body hbody, source_items_of_isClosed nodes hnodes, print, Node.print]
    simp [Item.source, Enclosure.closingItems, Enclosure.opening, Enclosure.closing]

theorem print_append (first second : List Node) :
    print (first ++ second) = print first ++ print second := by
  rw [← walk_printing, walk_append, walk_printing, walk_printing]

/-- A nested tree is written as its items are. -/
theorem IsNested.source_items {inside : Bool} (hnested : IsNested inside nodes) :
    source (items nodes) = print nodes := by
  induction hnested with
  | closed hnodes => exact source_items_of_isClosed _ hnodes
  | @opened inside nodes body header hnodes hbody ih =>
    rw [items_append, source_append, source_items_of_isClosed nodes hnodes, items_group_cons,
      source_cons, source_append, source_append, ih, print_append]
    simp [Item.source, Enclosure.closingItems, print, Node.print, Enclosure.opening,
      Enclosure.closing]

/-! ### Groups from braces -/

/-- An outline with more nodes on its open level. -/
def Outline.addAll {Mark : Type} (outline : Outline Mark) (nodes : List Node) : Outline Mark :=
  { outline with nodes := nodes.reverse ++ outline.nodes }

/-- Going through a closed tree adds its groups. -/
theorem foldl_addItem_of_isClosed {inside : Bool} (nodes : List Node)
    (hclosed : isClosed inside nodes = true) (outline : Outline Unit)
    (hinside : outline.around.isEmpty = !inside) :
    (items nodes).foldl Outline.addItem outline = outline.addAll (groups nodes) := by
  match nodes with
  | [] =>
    rw [items_nil, groups]
    rfl
  | .text content :: nodes =>
    simp only [isClosed, Bool.and_eq_true] at hclosed
    have hsame : outline.addItem (if content = ['}'] then .closing else .text content) = outline := by
      split
      · rename_i hbrace
        have hempty : outline.around.isEmpty = true := by
          simpa [hbrace, hinside] using hclosed.1
        rw [Outline.addItem, if_pos hempty]
      · rfl
    rw [items_text_cons, List.foldl_cons, hsame, groups, Node.groups, List.nil_append,
      foldl_addItem_of_isClosed nodes hclosed.2 outline hinside]
  | .group header enclosure body :: nodes =>
    simp only [isClosed, Bool.and_eq_true, beq_iff_eq] at hclosed
    obtain ⟨⟨rfl, hbody⟩, hnodes⟩ := hclosed
    rw [items_group_cons, List.foldl_cons, List.foldl_append, List.foldl_append, Outline.addItem,
      foldl_addItem_of_isClosed body hbody (outline.enter () header) rfl]
    have hgroup : [Item.closing].foldl Outline.addItem
        ((outline.enter () header).addAll (groups body)) =
          outline.add (.group header .braces (groups body)) := by
      simp [Outline.addItem, Outline.enter, Outline.addAll, Outline.leave, Outline.add]
    rw [Enclosure.closingItems, hgroup,
      foldl_addItem_of_isClosed nodes hnodes (outline.add _) hinside, groups, Node.groups]
    simp [Outline.addAll, Outline.add]

/-- Going through a nested tree and closing all groups does so too. -/
theorem IsNested.finish_foldl {inside : Bool} (hnested : IsNested inside nodes)
    (outline : Outline Unit) (hinside : outline.around.isEmpty = !inside) :
    ((items nodes).foldl Outline.addItem outline).finish .openBrace =
      (outline.addAll (groups nodes)).finish .openBrace := by
  induction hnested generalizing outline with
  | closed hnodes => rw [foldl_addItem_of_isClosed _ hnodes outline hinside]
  | @opened inside nodes body header hnodes hbody ih =>
    rw [items_append, List.foldl_append, foldl_addItem_of_isClosed nodes hnodes outline hinside,
      items_group_cons, Enclosure.closingItems, items_nil, List.append_nil, List.append_nil,
      List.foldl_cons, Outline.addItem, ih _ rfl, groups_append]
    simp [Outline.finish, Outline.leaveWhile, Outline.leaveWhile.go, Outline.enter, Outline.addAll,
      groups, Node.groups]

/-- The items of a nested tree tell its groups. -/
theorem IsNested.regroup_items (hnested : IsNested false nodes) :
    regroup (items nodes) = groups nodes := by
  rw [regroup, hnested.finish_foldl .empty rfl]
  simp [Outline.addAll, Outline.finish, Outline.leaveWhile, Outline.leaveWhile.go, Outline.empty]

/-! ### Trees that were read -/

/-- A text token has something in it, and does not begin with a closing brace. -/
def BraceToken.IsProper : BraceToken → Prop
  | .text content => content ≠ [] ∧ content.head? ≠ some '}'
  | .opening _ _ | .closing => True

theorem isProper_of_mem_ofText (hhead : text.head? ≠ some '}')
    {token : BraceToken} (hmem : token ∈ BraceToken.ofText text) : token.IsProper := by
  rw [BraceToken.ofText] at hmem
  split at hmem
  · cases hmem
  · rename_i hne
    rw [List.mem_singleton.mp hmem]
    exact ⟨fun hempty => hne (List.isEmpty_iff.mpr hempty), hhead⟩

theorem head?_ne_of_isAsciiBlank (hblank : ∀ c ∈ text, isAsciiBlank c = true)
    {rest : List Char} (hrest : text = [] → rest.head? ≠ some '}') :
    (text ++ rest).head? ≠ some '}' := by
  cases text with
  | nil => exact hrest rfl
  | cons c text =>
    intro hbrace
    cases hbrace
    exact absurd (hblank '}' List.mem_cons_self) (by decide)

theorem IsLead.head?_blanks_ne {lineComments : Bool} {blanks rest : List Char}
    (hlead : IsLead lineComments blanks rest) : blanks.head? ≠ some '}' := by
  rw [← List.append_nil blanks]
  exact head?_ne_of_isAsciiBlank hlead.blank nofun

theorem takeTrivia_head?_ne (lineComments : Bool) (text : List Char) :
    (takeTrivia lineComments text).1.head? ≠ some '}' := by
  fun_cases takeTrivia lineComments text with
  | case1 | case3 => nofun
  | case2 blanks rest comment after hcomment _ comments blanksAfter rest' htrivia =>
    rw [List.append_assoc]
    refine head?_ne_of_isAsciiBlank (List.all_eq_true.mp List.all_takeWhile) fun _ => ?_
    have hslash := takeComment?_head? hcomment
    cases comment with
    | nil => cases hslash
    | cons c comment =>
      cases hslash
      nofun

/-- A statement that does not open a group has something in it. -/
theorem takeStatement_text_ne_nil {lineComments : Bool} (hne : text ≠ [])
    (hclosing : text.head? ≠ some '}')
    (hended : (takeStatement lineComments text).ended ≠ .opening) :
    (takeStatement lineComments text).text ≠ [] := by
  intro hempty
  have hsource := scanStatement_source lineComments 0 .plain text
  have hshorter := scanStatement_rest_length lineComments 0 .plain hne hclosing
  rw [← takeStatement] at hsource hshorter
  have hnone : (takeStatement lineComments text).ended.text = [] := by
    cases h : (takeStatement lineComments text).ended <;> simp_all [Terminator.text]
  rw [Scanned.source, hempty, hnone, List.nil_append, List.nil_append] at hsource
  rw [hsource] at hshorter
  exact Nat.lt_irrefl _ hshorter

theorem isProper_of_mem_takeTokens {lineComments : Bool} {text : List Char} {token : BraceToken}
    (hmem : token ∈ (takeTokens lineComments text).1) : token.IsProper := by
  have hlead := isLead_takeTrivia lineComments text
  have hcomments := takeTrivia_head?_ne lineComments text
  revert hmem
  fun_cases takeTokens lineComments text with
  | case1 comments blanks lead htaken =>
    rw [htaken] at hlead hcomments
    intro hmem
    rcases List.mem_append.mp hmem with hmem | hmem
    · exact isProper_of_mem_ofText hcomments hmem
    · exact isProper_of_mem_ofText hlead.head?_blanks_ne hmem
  | case2 comments blanks lead rest htaken =>
    rw [htaken] at hlead hcomments
    intro hmem
    rw [List.mem_append, List.mem_append, List.mem_singleton] at hmem
    rcases hmem with (hmem | hmem) | rfl
    · exact isProper_of_mem_ofText hcomments hmem
    · exact isProper_of_mem_ofText hlead.head?_blanks_ne hmem
    · trivial
  | case3 comments blanks lead rest hrest hclosing scanned hopening htaken =>
    rw [htaken] at hcomments
    intro hmem
    rw [List.mem_append, List.mem_singleton] at hmem
    rcases hmem with hmem | rfl
    · exact isProper_of_mem_ofText hcomments hmem
    · trivial
  | case4 comments blanks lead rest hrest hclosing scanned hother htaken =>
    rw [htaken] at hlead hcomments
    intro hmem
    rw [List.mem_append, List.mem_singleton] at hmem
    rcases hmem with hmem | rfl
    · exact isProper_of_mem_ofText hcomments hmem
    · have hhead : rest.head? ≠ some '}' := fun hbrace => by
        obtain ⟨others, hothers⟩ := List.head?_eq_some_iff.mp hbrace
        exact hclosing others hothers
      have htext : scanned.text ≠ [] := takeStatement_text_ne_nil hrest hhead hother
      have hsame : scanned.text.head? = rest.head? := by
        have hsource : scanned.source = rest := scanStatement_source lineComments 0 .plain rest
        rw [← hsource, Scanned.source, List.append_assoc]
        cases h : scanned.text with
        | nil => exact absurd h htext
        | cons c content => rfl
      exact ⟨List.append_ne_nil_of_right_ne_nil _ htext,
        head?_ne_of_isAsciiBlank hlead.blank fun _ => hsame ▸ hhead⟩

theorem isProper_of_mem_braceTokens {lineComments : Bool} {token : BraceToken}
    (hmem : token ∈ braceTokens lineComments text) : token.IsProper := by
  fun_induction braceTokens lineComments text with
  | case1 text taken _ ih =>
    rcases List.mem_append.mp hmem with hmem | hmem
    · exact isProper_of_mem_takeTokens hmem
    · exact ih hmem
  | case2 text taken _ => exact isProper_of_mem_takeTokens hmem

/-- The open groups of an outline have closed groups before them. -/
def Outline.framesClosed : List (Unit × Header × List Node) → Bool
  | [] => true
  | (_, _, before) :: outer => isClosed (!outer.isEmpty) before.reverse && framesClosed outer

/-- All groups that an outline has left are closed. -/
structure Outline.IsClosed (outline : Outline Unit) : Prop where
  nodes : Sheet.isClosed (!outline.around.isEmpty) outline.nodes.reverse = true
  frames : framesClosed outline.around = true

theorem isClosed_concat {inside : Bool} {node : Node} :
    isClosed inside (nodes ++ [node]) = true ↔
      isClosed inside nodes = true ∧ isClosed inside [node] = true := by
  rw [isClosed_append, Bool.and_eq_true]

theorem Outline.IsClosed.addBraceToken {outline : Outline Unit} (hclosed : outline.IsClosed)
    {token : BraceToken} (hproper : token.IsProper) : (outline.addBraceToken token).IsClosed := by
  obtain ⟨nodes, around⟩ := outline
  obtain ⟨hnodes, hframes⟩ := hclosed
  cases token with
  | text content =>
    refine ⟨?_, hframes⟩
    have hne : content ≠ ['}'] := fun hbrace => hproper.2 (hbrace ▸ rfl)
    simpa [Outline.addBraceToken, add, isClosed_concat, hne, Sheet.isClosed] using hnodes
  | opening blanks header =>
    refine ⟨by simp [Outline.addBraceToken, enter, Sheet.isClosed], ?_⟩
    simp only [Outline.addBraceToken, enter, framesClosed, Bool.and_eq_true]
    exact ⟨hnodes, hframes⟩
  | closing =>
    cases around with
    | nil =>
      refine ⟨?_, rfl⟩
      simpa [Outline.addBraceToken, add, isClosed_concat, Sheet.isClosed] using hnodes
    | cons frame outer =>
      obtain ⟨mark, header, before⟩ := frame
      simp only [framesClosed, Bool.and_eq_true] at hframes
      refine ⟨?_, hframes.2⟩
      simp only [Outline.addBraceToken, List.isEmpty_cons, Bool.false_eq_true, if_false, leave,
        List.reverse_cons, isClosed_concat]
      refine ⟨hframes.1, ?_⟩
      simpa [Sheet.isClosed] using hnodes

theorem Outline.IsClosed.foldl {tokens : List BraceToken}
    (hproper : ∀ token ∈ tokens, token.IsProper) {outline : Outline Unit}
    (hclosed : outline.IsClosed) : (tokens.foldl Outline.addBraceToken outline).IsClosed := by
  induction tokens generalizing outline with
  | nil => exact hclosed
  | cons token tokens ih =>
    rw [List.forall_mem_cons] at hproper
    exact ih hproper.2 (hclosed.addBraceToken hproper.1)

/-- Closing what is open makes a nested tree. -/
theorem isNested_go {around : List (Unit × Header × List Node)}
    (hnodes : IsNested (!around.isEmpty) nodes.reverse) (hframes : Outline.framesClosed around = true) :
    IsNested false (Outline.leaveWhile.go .openBrace (fun _ => true) nodes around).nodes.reverse := by
  induction around generalizing nodes with
  | nil => exact hnodes
  | cons frame outer ih =>
    obtain ⟨mark, header, before⟩ := frame
    simp only [Outline.framesClosed, Bool.and_eq_true] at hframes
    rw [Outline.leaveWhile.go, if_pos rfl]
    refine ih ?_ hframes.2
    rw [List.reverse_cons]
    exact .opened hframes.1 hnodes

/-- A tree that was read is nested. -/
theorem isNested_readBraces (lineComments : Bool) (text : List Char) :
    IsNested false (readBraces lineComments text) := by
  have hempty : (.empty : Outline Unit).IsClosed :=
    ⟨by simp [Outline.empty, isClosed], rfl⟩
  have hclosed := hempty.foldl fun token (hmem : token ∈ braceTokens lineComments text) =>
    isProper_of_mem_braceTokens hmem
  exact isNested_go (.closed hclosed.nodes) hclosed.frames

/-! ### Trees that were migrated -/

theorem recastAll_append (select : RuleSite → List Char) (drops : Bool) (first second : List Node) :
    recastAll select drops (first ++ second) =
      recastAll select drops first ++ recastAll select drops second := by
  induction first with
  | nil => simp [recastAll]
  | cons node first ih =>
    rw [List.cons_append, recastAll, recastAll]
    split
    · exact ih
    · rw [ih, List.cons_append]

theorem isClosed_recastAll (select : RuleSite → List Char) (drops : Bool) {inside : Bool}
    (nodes : List Node) (hclosed : isClosed inside nodes = true) :
    isClosed inside (recastAll select drops nodes) = true := by
  match nodes with
  | [] => rw [recastAll, isClosed]
  | .text content :: nodes =>
    simp only [isClosed, Bool.and_eq_true] at hclosed
    rw [recastAll]
    split
    · exact isClosed_recastAll select drops nodes hclosed.2
    · simp only [Node.recast, isClosed, Bool.and_eq_true]
      exact ⟨hclosed.1, isClosed_recastAll select drops nodes hclosed.2⟩
  | .group header enclosure body :: nodes =>
    simp only [isClosed, Bool.and_eq_true] at hclosed
    rw [recastAll]
    split
    · exact isClosed_recastAll select drops nodes hclosed.2
    · cases header <;>
      · simp only [Node.recast, isClosed, Bool.and_eq_true]
        exact ⟨⟨hclosed.1.1, isClosed_recastAll select _ body hclosed.1.2⟩,
          isClosed_recastAll select drops nodes hclosed.2⟩

/-- New selectors and dropped children keep a tree nested. -/
theorem IsNested.recastAll (select : RuleSite → List Char) (drops : Bool) {inside : Bool}
    {nodes : List Node} (hnested : IsNested inside nodes) :
    IsNested inside (recastAll select drops nodes) := by
  induction hnested generalizing drops with
  | closed hnodes => exact .closed (isClosed_recastAll select drops _ hnodes)
  | @opened inside nodes body header hnodes hbody ih =>
    have hfront := isClosed_recastAll select drops nodes hnodes
    rw [recastAll_append, Sheet.recastAll, Sheet.recastAll]
    split
    · rw [List.append_nil]
      exact .closed hfront
    · cases header with
      | block content =>
        rw [Node.recast]
        exact .opened hfront (ih false)
      | rule before selector between =>
        rw [Node.recast]
        exact .opened hfront (ih _)

end StyleMigration.Sheet
