import StyleMigration.Proofs.Sheet.Agreement

/-!
How a stylesheet by indentation is nested. The tokens of its lines are put into a tree with a stack of
open groups; the same tree comes of a recursion in which the body of a group is all that follows it with a
larger indent (`readIndentation_eq_nest`). In the order of the text the nodes of that tree are the tokens,
and the body of a group reaches as far as tokens lie within it (`map_outline_nest`).

Where no header goes on to the next line and no comment takes lines in, each line is a token of its own. The
indent that decides on its level is that of the first line that is not blank from there on
(`indent?_tokenOf`), so the lines of a body are told by their indents alone
(`liesIn_readIndentation_iff`).
-/

set_option autoImplicit false

namespace StyleMigration.Sheet

open Text

variable {place head start : Nat} {line : List Char} {lines : List (List Char)}

/-! ### Groups by recursion -/

/-- The indent that decides on the level of a token. -/
def LineToken.indent? : LineToken → Option Nat
  | .text indent _ => indent
  | .header indent _ => some indent

/-- Whether a token lies in the body of a group with indent `mark`. -/
def LineToken.isWithin (mark : Nat) (token : LineToken) : Bool :=
  !isOutside token.indent? mark

/-- The tree of some tokens: the body of a group goes on for as long as tokens lie within it. -/
def nest : List LineToken → List Node
  | [] => []
  | .text _ content :: tokens => .text content :: nest tokens
  | .header mark head :: tokens =>
    .group head .indented (nest (tokens.takeWhile (·.isWithin mark))) ::
      nest (tokens.dropWhile (·.isWithin mark))
termination_by tokens => tokens.length
decreasing_by
  · simp
  · exact Nat.lt_succ_of_le (List.takeWhile_sublist _).length_le
  · exact Nat.lt_succ_of_le (List.dropWhile_sublist _).length_le

/-- What lies outside a group lies outside every group in it. -/
theorem isOutside_of_isWithin {mark inner : Nat} {indent? : Option Nat} {head : Header}
    (hinner : (LineToken.header inner head).isWithin mark = true)
    (houtside : isOutside indent? mark = true) : isOutside indent? inner = true := by
  cases indent? with
  | none => rfl
  | some indent =>
    simp only [LineToken.isWithin, LineToken.indent?, isOutside, Option.any_some, Bool.not_eq_true',
      decide_eq_false_iff_not, Bool.not_not, decide_eq_true_eq] at hinner houtside ⊢
    omega

/-- A group that was entered is left with what was added to it, and so are groups around it. -/
theorem Outline.leaveWhile_enter {Mark : Type} {leaves : Mark → Bool} (outline : Outline Mark)
    {mark : Mark} (hmark : leaves mark = true) (header : Header) (enclosure : Enclosure)
    (body : List Node) :
    ((outline.enter mark header).addAll body).leaveWhile enclosure leaves =
      (outline.add (.group header enclosure body)).leaveWhile enclosure leaves := by
  simp [leaveWhile, leaveWhile.go, enter, addAll, hmark, add]

/-- A token sees of an outline only what it does not leave. -/
theorem Outline.addLineToken_congr {outline other : Outline Nat} {token : LineToken}
    (hsame : outline.leaveWhile .indented (isOutside token.indent?) =
      other.leaveWhile .indented (isOutside token.indent?)) :
    outline.addLineToken token = other.addLineToken token := by
  cases token with
  | text indent content => exact congrArg (·.add (.text content)) hsame
  | header indent head => exact congrArg (·.enter indent head) hsame

/-- Tokens that do not leave the groups of an outline add their tree to it, once the groups they opened are
left. -/
theorem Outline.leaveWhile_foldl_addLineToken (tokens : List LineToken) (outline : Outline Nat)
    (leaves : Nat → Bool) (hstays : ∀ token ∈ tokens, outline.Stays (isOutside token.indent?))
    (hleaves : ∀ mark head, .header mark head ∈ tokens → leaves mark = true) :
    (tokens.foldl Outline.addLineToken outline).leaveWhile .indented leaves =
      (outline.addAll (nest tokens)).leaveWhile .indented leaves := by
  fun_induction nest tokens generalizing outline leaves with
  | case1 => rfl
  | case2 indent content tokens ih =>
    rw [List.forall_mem_cons] at hstays
    have hadd : outline.addLineToken (.text indent content) = outline.add (.text content) :=
      congrArg (·.add (.text content)) (hstays.1.leaveWhile_eq .indented)
    rw [List.foldl_cons, hadd, ih (outline.add (.text content)) leaves hstays.2
      fun mark head hmem => hleaves mark head (List.mem_cons_of_mem _ hmem)]
    simp [addAll, add]
  | case3 mark head tokens ihbody ihrest =>
    rw [List.forall_mem_cons] at hstays
    have henter : outline.addLineToken (.header mark head) = outline.enter mark head :=
      congrArg (·.enter mark head) (hstays.1.leaveWhile_eq .indented)
    have hwithin := List.all_eq_true.mp (List.all_takeWhile (p := (·.isWithin mark)) (l := tokens))
    have hsplit := List.takeWhile_append_dropWhile (p := (·.isWithin mark)) (l := tokens)
    have hnext := List.head?_dropWhile_not (·.isWithin mark) tokens
    rw [List.foldl_cons, henter]
    generalize tokens.takeWhile (·.isWithin mark) = body at *
    generalize tokens.dropWhile (·.isWithin mark) = rest at *
    subst hsplit
    -- What leaves the group finds it closed, with the tree of its body in it.
    have hclosed (leaves : Nat → Bool) (hmark : leaves mark = true)
        (hbody : ∀ inner head, .header inner head ∈ body → leaves inner = true) :
        (body.foldl Outline.addLineToken (outline.enter mark head)).leaveWhile .indented leaves =
          (outline.add (.group head .indented (nest body))).leaveWhile .indented leaves := by
      rw [ihbody (outline.enter mark head) leaves ?_ hbody, outline.leaveWhile_enter hmark]
      rintro token hmem frame hframe
      cases hframe
      simpa [LineToken.isWithin] using hwithin token hmem
    rw [List.foldl_append]
    cases rest with
    | nil =>
      rw [List.foldl_nil, hclosed leaves (hleaves mark head List.mem_cons_self)
        fun inner head hmem => hleaves inner head (by simp [hmem])]
      simp [addAll, add, nest]
    | cons next rest =>
      have houtside : isOutside next.indent? mark = true := by
        simpa [LineToken.isWithin] using hnext
      have hsame := addLineToken_congr (hclosed (isOutside next.indent?) houtside
        fun inner head hmem => isOutside_of_isWithin (hwithin _ hmem) houtside)
      rw [List.foldl_cons, hsame, ← List.foldl_cons,
        ihrest (outline.add _) leaves (fun token hmem => hstays.2 token (by simp [hmem]))
          fun inner head hmem => hleaves inner head (by simp [hmem])]
      simp [addAll, add]

/-- A stylesheet by indentation is the tree of its tokens. -/
theorem readIndentation_eq_nest (text : List Char) :
    readIndentation text = nest (lineTokens (splitLines text)) := by
  have hempty (token : LineToken) :
      (.empty : Outline Nat).Stays (isOutside token.indent?) := by
    simp [Outline.Stays, Outline.empty]
  rw [readIndentation, Outline.finish,
    Outline.leaveWhile_foldl_addLineToken _ .empty _ (fun token _ => hempty token) fun _ _ _ => rfl]
  simp [Outline.addAll, Outline.empty, Outline.leaveWhile, Outline.leaveWhile.go]

/-! ### Nodes in the order of the text -/

/-- The text of a node without that of its body. -/
def Node.ownText : Node → List Char
  | .text content => content
  | .group header _ _ => header.text

/-- How many nodes there are in the body of a group, at any depth. -/
def Node.bodySize? : Node → Option Nat
  | .text _ => none
  | .group _ _ body => some (Sheet.outline 0 body).length

/-- How far the body of a group reaches that a token opens before other tokens. -/
def LineToken.reach? (tokens : List LineToken) : LineToken → Option Nat
  | .text _ _ => none
  | .header mark _ => some (tokens.takeWhile (·.isWithin mark)).length

/-- What each token becomes a node of: its text, and how far its body reaches. -/
def profiles : List LineToken → List (List Char × Option Nat)
  | [] => []
  | token :: tokens => (token.source, token.reach? tokens) :: profiles tokens

theorem length_profiles (tokens : List LineToken) : (profiles tokens).length = tokens.length := by
  induction tokens with
  | nil => rfl
  | cons token tokens ih => rw [profiles, List.length_cons, ih, List.length_cons]

/-- Bodies end where the next token lies outside the group around them. -/
theorem profiles_append {mark : Nat} {body rest : List LineToken}
    (hbody : ∀ token ∈ body, token.isWithin mark = true)
    (hrest : ∀ token ∈ rest.head?, token.isWithin mark = false) :
    profiles (body ++ rest) = profiles body ++ profiles rest := by
  induction body with
  | nil => rfl
  | cons token body ih =>
    rw [List.forall_mem_cons] at hbody
    have hreach : token.reach? (body ++ rest) = token.reach? body := by
      cases token with
      | text indent content => rfl
      | header inner head =>
        have hnone : rest.takeWhile (·.isWithin inner) = [] := by
          cases rest with
          | nil => rfl
          | cons next rest =>
            have hnext : isOutside next.indent? mark = true := by
              simpa [LineToken.isWithin] using hrest next rfl
            have houtside := isOutside_of_isWithin hbody.1 hnext
            simp [LineToken.isWithin, houtside]
        rw [LineToken.reach?, LineToken.reach?, List.takeWhile_append, hnone, List.append_nil]
        split
        · rename_i hall
          rw [hall]
        · rfl
    rw [List.cons_append, profiles, profiles, ih hbody.2, hreach, List.cons_append]

/-- In the order of the text the nodes of a tree are the tokens, and bodies reach as far as tokens lie within
them. -/
theorem map_outline_nest (depth : Nat) (tokens : List LineToken) :
    (outline depth (nest tokens)).map (fun entry => (entry.2.ownText, entry.2.bodySize?)) =
      profiles tokens := by
  fun_induction nest tokens generalizing depth with
  | case1 => simp [outline, profiles]
  | case2 indent content tokens ih =>
    rw [outline, Node.outline, List.map_append, ih, profiles]
    rfl
  | case3 mark head tokens ihbody ihrest =>
    have hwithin := List.all_eq_true.mp (List.all_takeWhile (p := (·.isWithin mark)) (l := tokens))
    have hrest : ∀ token ∈ (tokens.dropWhile (·.isWithin mark)).head?,
        token.isWithin mark = false := by
      intro token hmem
      have hhead := List.head?_dropWhile_not (·.isWithin mark) tokens
      rwa [Option.mem_def.mp hmem] at hhead
    have hlength : (outline 0 (nest (tokens.takeWhile (·.isWithin mark)))).length =
        (tokens.takeWhile (·.isWithin mark)).length := by
      rw [← length_profiles, ← ihbody 0, List.length_map]
    have hsplit := profiles_append hwithin hrest
    rw [List.takeWhile_append_dropWhile] at hsplit
    rw [outline, Node.outline, List.map_append, List.map_cons, ihbody, ihrest, profiles, hsplit]
    simp only [Node.ownText, Node.bodySize?, hlength, LineToken.source, LineToken.reach?,
      List.cons_append]

mutual

theorem Node.length_outline (depth other : Nat) (node : Node) :
    (node.outline depth).length = (node.outline other).length := by
  match node with
  | .text content => rfl
  | .group header enclosure body =>
    rw [Node.outline, Node.outline, List.length_cons, List.length_cons,
      length_outline (depth + 1) (other + 1) body]

/-- There are as many nodes in a tree at any depth. -/
theorem length_outline (depth other : Nat) (nodes : List Node) :
    (outline depth nodes).length = (outline other nodes).length := by
  match nodes with
  | [] => rfl
  | node :: nodes =>
    rw [outline, outline, List.length_append, List.length_append, node.length_outline depth other,
      length_outline depth other nodes]

end

mutual

theorem Node.exists_outline_eq {depth place level : Nat} {header : Header} {enclosure : Enclosure}
    {body : List Node} (node : Node)
    (hplace : (node.outline depth)[place]? = some (level, .group header enclosure body)) :
    ∃ front back, node.outline depth =
      front ++ (level, .group header enclosure body) :: (outline (level + 1) body ++ back) ∧
        front.length = place := by
  match node with
  | .text content =>
    rw [Node.outline] at hplace
    cases place <;> cases hplace
  | .group _ _ inner =>
    rw [Node.outline] at hplace ⊢
    cases place with
    | zero =>
      cases hplace
      exact ⟨[], [], by simp, rfl⟩
    | succ place =>
      obtain ⟨front, back, houtline, hlength⟩ := exists_outline_eq inner hplace
      exact ⟨_ :: front, back, by rw [houtline, List.cons_append], by rw [List.length_cons, hlength]⟩

/-- The nodes of a body come right after their group. -/
theorem exists_outline_eq {depth place level : Nat} {header : Header} {enclosure : Enclosure}
    {body : List Node} (nodes : List Node)
    (hplace : (outline depth nodes)[place]? = some (level, .group header enclosure body)) :
    ∃ front back, outline depth nodes =
      front ++ (level, .group header enclosure body) :: (outline (level + 1) body ++ back) ∧
        front.length = place := by
  match nodes with
  | [] =>
    rw [outline] at hplace
    cases hplace
  | node :: nodes =>
    rw [outline] at hplace ⊢
    by_cases hfirst : place < (node.outline depth).length
    · rw [List.getElem?_append_left hfirst] at hplace
      obtain ⟨front, back, houtline, hlength⟩ := node.exists_outline_eq hplace
      exact ⟨front, back ++ outline depth nodes, by simp [houtline], hlength⟩
    · rw [List.getElem?_append_right (Nat.le_of_not_lt hfirst)] at hplace
      obtain ⟨front, back, houtline, hlength⟩ := exists_outline_eq nodes hplace
      refine ⟨node.outline depth ++ front, back, by simp [houtline], ?_⟩
      rw [List.length_append, hlength]
      omega

end

/-- In the order of the text, the node at `place` is in the body of the group at `head`. -/
def LiesIn (nodes : List Node) (head place : Nat) : Prop :=
  ∃ front depth header enclosure body back,
    outline 0 nodes =
        front ++ (depth, .group header enclosure body) :: (outline (depth + 1) body ++ back) ∧
      front.length = head ∧ head < place ∧ place ≤ head + (outline (depth + 1) body).length

theorem liesIn_iff {nodes : List Node} :
    LiesIn nodes head place ↔ ∃ size, (outline 0 nodes)[head]?.bind (·.2.bodySize?) = some size ∧
      head < place ∧ place ≤ head + size := by
  constructor
  · rintro ⟨front, depth, header, enclosure, body, back, houtline, rfl, hafter, hplace⟩
    refine ⟨(outline (depth + 1) body).length, ?_, hafter, hplace⟩
    rw [houtline, List.getElem?_append_right (Nat.le_refl _), Nat.sub_self, length_outline _ 0]
    rfl
  · rintro ⟨size, hsize, hafter, hplace⟩
    obtain ⟨⟨depth, node⟩, hnode, hbody⟩ := Option.bind_eq_some_iff.mp hsize
    cases node with
    | text content => cases hbody
    | group header enclosure body =>
      cases hbody
      obtain ⟨front, back, houtline, hlength⟩ := exists_outline_eq nodes hnode
      refine ⟨front, depth, header, enclosure, body, back, houtline, hlength, hafter, ?_⟩
      rwa [length_outline _ 0]

theorem getElem?_profiles (tokens : List LineToken) (place : Nat) :
    (profiles tokens)[place]? =
      tokens[place]?.map fun token => (token.source, token.reach? (tokens.drop (place + 1))) := by
  induction tokens generalizing place with
  | nil => rfl
  | cons token tokens ih =>
    cases place with
    | zero => rfl
    | succ place => exact ih place

/-- The node of a token. -/
theorem getElem?_outline_nest (tokens : List LineToken) (place : Nat) :
    (outline 0 (nest tokens))[place]?.map (fun entry => (entry.2.ownText, entry.2.bodySize?)) =
      tokens[place]?.map fun token => (token.source, token.reach? (tokens.drop (place + 1))) := by
  rw [← List.getElem?_map, map_outline_nest, getElem?_profiles]

theorem lt_length_takeWhile_iff {α : Type} {p : α → Bool} {items : List α} :
    place < (items.takeWhile p).length ↔
      ∀ k ≤ place, ∃ item, items[k]? = some item ∧ p item = true := by
  induction items generalizing place with
  | nil =>
    refine ⟨fun hlt => absurd hlt (Nat.not_lt_zero _), fun hall => ?_⟩
    obtain ⟨item, hitem, -⟩ := hall 0 (Nat.zero_le _)
    cases hitem
  | cons first items ih =>
    rw [List.takeWhile_cons]
    split
    · rename_i hfirst
      cases place with
      | zero =>
        refine ⟨fun _ k hk => ⟨first, by rw [Nat.le_zero.mp hk]; rfl, hfirst⟩, fun _ => ?_⟩
        exact Nat.zero_lt_succ _
      | succ place =>
        rw [List.length_cons, Nat.add_lt_add_iff_right, ih]
        constructor
        · intro hall k hk
          cases k with
          | zero => exact ⟨first, rfl, hfirst⟩
          | succ k => exact hall k (Nat.le_of_succ_le_succ hk)
        · exact fun hall k hk => hall (k + 1) (Nat.succ_le_succ hk)
    · rename_i hfirst
      refine ⟨fun hlt => absurd hlt (Nat.not_lt_zero _), fun hall => ?_⟩
      obtain ⟨item, hitem, hp⟩ := hall 0 (Nat.zero_le _)
      cases hitem
      exact absurd hp hfirst

/-- A token lies in a body if it and all tokens from the header on lie within it. -/
theorem liesIn_nest_iff {tokens : List LineToken} :
    LiesIn (nest tokens) head place ↔ ∃ mark header, tokens[head]? = some (.header mark header) ∧
      head < place ∧ ∀ k, head < k → k ≤ place →
        ∃ token, tokens[k]? = some token ∧ token.isWithin mark = true := by
  have hsize : (outline 0 (nest tokens))[head]?.bind (·.2.bodySize?) =
      tokens[head]?.bind fun token => token.reach? (tokens.drop (head + 1)) := by
    have hnode := congrArg (Option.bind · (·.2)) (getElem?_outline_nest tokens head)
    simp only [Option.bind_map] at hnode
    exact hnode
  have hreach (mark : Nat) (hafter : head < place) :
      place ≤ head + ((tokens.drop (head + 1)).takeWhile (·.isWithin mark)).length ↔
        ∀ k, head < k → k ≤ place →
          ∃ token, tokens[k]? = some token ∧ token.isWithin mark = true := by
    have hplace : place ≤ head + ((tokens.drop (head + 1)).takeWhile (·.isWithin mark)).length ↔
        place - head - 1 < ((tokens.drop (head + 1)).takeWhile (·.isWithin mark)).length := by omega
    rw [hplace, lt_length_takeWhile_iff]
    simp only [List.getElem?_drop]
    constructor
    · intro hall k hhead hk
      have hitem := hall (k - head - 1) (by omega)
      rwa [show head + 1 + (k - head - 1) = k by omega] at hitem
    · exact fun hall k hk => hall (head + 1 + k) (by omega) (by omega)
  rw [liesIn_iff, hsize]
  constructor
  · rintro ⟨size, hbind, hafter, hplace⟩
    obtain ⟨token, htoken, hsize⟩ := Option.bind_eq_some_iff.mp hbind
    cases token with
    | text indent content => cases hsize
    | header mark header =>
      cases hsize
      exact ⟨mark, header, htoken, hafter, (hreach mark hafter).mp hplace⟩
  · rintro ⟨mark, header, htoken, hafter, hall⟩
    refine ⟨_, ?_, hafter, (hreach mark hafter).mpr hall⟩
    rw [htoken]
    rfl

/-! ### Lines that are tokens -/

/-- A line that neither goes on with the next one nor opens a comment. -/
def IsLoneLine (line : List Char) : Prop :=
  isContinued line = false ∧ opensComment (trim (lineContent line)) = false

instance instDecidableIsLoneLine (line : List Char) : Decidable (IsLoneLine line) :=
  instDecidableAnd

theorem nextIndent?_cons (line : List Char) (lines : List (List Char)) :
    nextIndent? (line :: lines) =
      if isBlankLine line then nextIndent? lines else some (lineIndent line) := by
  cases hblank : isBlankLine line <;> simp [nextIndent?, hblank]

/-- The token of a line that takes no other lines in. -/
def tokenOf (line : List Char) (lines : List (List Char)) : LineToken :=
  if isBlankLine line then .text (nextIndent? lines) line
  else if (nextIndent? lines).any (lineIndent line < ·) then
    .header (lineIndent line) (.ofLines (trim (lineContent line)) line)
  else .text (some (lineIndent line)) line

theorem IsLoneLine.takeLineToken_eq (hline : IsLoneLine line)
    (lines : List (List Char)) : takeLineToken line lines = (tokenOf line lines, lines) := by
  rw [takeLineToken, tokenOf, takeHeader_of_not_isContinued hline.1]
  simp only [hline.2, List.flatten_singleton]
  split
  · rfl
  · cases (nextIndent? lines).any (lineIndent line < ·) <;> rfl

theorem indent?_tokenOf (line : List Char) (lines : List (List Char)) :
    (tokenOf line lines).indent? = nextIndent? (line :: lines) := by
  rw [tokenOf, nextIndent?_cons]
  split
  · rfl
  · split <;> rfl

theorem source_tokenOf (line : List Char) (lines : List (List Char)) :
    (tokenOf line lines).source = line := by
  rw [tokenOf]
  split
  · rfl
  · split
    · exact Header.ofLines_text _ _
    · rfl

/-- Lines that take no other lines in are a token each. -/
theorem getElem?_lineTokens (hlines : ∀ line ∈ lines, IsLoneLine line) (place : Nat) :
    (lineTokens lines)[place]? = lines[place]?.map (tokenOf · (lines.drop (place + 1))) := by
  induction lines generalizing place with
  | nil =>
    rw [lineTokens]
    rfl
  | cons line lines ih =>
    rw [List.forall_mem_cons] at hlines
    rw [lineTokens_cons (hlines.1.takeLineToken_eq lines)]
    cases place with
    | zero => rfl
    | succ place => exact ih hlines.2 place

/-- The first line that is not blank from a place on. -/
structure IsNextFilled (lines : List (List Char)) (start place : Nat) : Prop where
  le : start ≤ place
  filled : ∃ line, lines[place]? = some line ∧ isBlankLine line = false
  blank : ∀ k line, start ≤ k → k < place → lines[k]? = some line → isBlankLine line = true

theorem IsNextFilled.of_le {other : Nat}
    (hnext : IsNextFilled lines start place) (hstart : start ≤ other) (hother : other ≤ place) :
    IsNextFilled lines other place :=
  ⟨hother, hnext.filled, fun k line hk => hnext.blank k line (Nat.le_trans hstart hk)⟩

theorem IsNextFilled.eq {other : Nat}
    (hplace : IsNextFilled lines start place) (hother : IsNextFilled lines start other) :
    place = other := by
  obtain ⟨line, hline, hfilled⟩ := hplace.filled
  obtain ⟨line', hline', hfilled'⟩ := hother.filled
  rcases Nat.lt_trichotomy place other with hlt | heq | hlt
  · rw [hother.blank place line hplace.le hlt hline] at hfilled
    cases hfilled
  · exact heq
  · rw [hplace.blank other line' hother.le hlt hline'] at hfilled'
    cases hfilled'

theorem exists_isNextFilled
    (hle : start ≤ place) (hline : lines[place]? = some line) (hfilled : isBlankLine line = false) :
    ∃ next ≤ place, IsNextFilled lines start next := by
  obtain ⟨distance, rfl⟩ := Nat.exists_eq_add_of_le hle
  induction distance generalizing start with
  | zero =>
    refine ⟨start, Nat.le_refl _, Nat.le_refl _, ⟨line, hline, hfilled⟩, fun k _ hstart hk => ?_⟩
    omega
  | succ distance ih =>
    have hlt : start < lines.length :=
      Nat.lt_of_le_of_lt hle (List.getElem?_eq_some_iff.mp hline).1
    have hfirst := List.getElem?_eq_getElem hlt
    cases hblank : isBlankLine lines[start] with
    | false =>
      exact ⟨start, hle, Nat.le_refl _, ⟨_, hfirst, hblank⟩, fun k _ hstart hk => by omega⟩
    | true =>
      rw [show start + (distance + 1) = start + 1 + distance by omega] at hline ⊢
      obtain ⟨next, hnext, hfirstFilled⟩ := ih (Nat.le_add_right _ _) hline
      refine ⟨next, hnext, Nat.le_of_succ_le hfirstFilled.le, hfirstFilled.filled, ?_⟩
      intro k other hstart hk hother
      rcases Nat.eq_or_lt_of_le hstart with rfl | hstart
      · rwa [← Option.some.inj (hfirst.symm.trans hother)]
      · exact hfirstFilled.blank k other hstart hk hother

/-- What lies within a group from a line on is told by the first line that is not blank. -/
theorem any_nextIndent?_iff {mark : Nat} :
    (nextIndent? (lines.drop start)).any (mark < ·) = true ↔
      ∃ place line, IsNextFilled lines start place ∧ lines[place]? = some line ∧
        mark < lineIndent line := by
  have hdrop (k : Nat) : (lines.drop start)[k]? = lines[start + k]? := List.getElem?_drop
  rw [Option.any_eq_true]
  constructor
  · rintro ⟨indent, hindent, hmark⟩
    obtain ⟨line, hfind, rfl⟩ := Option.map_eq_some_iff.mp hindent
    obtain ⟨hfilled, k, hk, hline, hblank⟩ := List.find?_eq_some_iff_getElem.mp hfind
    have hplace : lines[start + k]? = some line := by
      rw [← hdrop, List.getElem?_eq_getElem hk, hline]
    refine ⟨start + k, line, ⟨Nat.le_add_right _ _, ⟨line, hplace, by simpa using hfilled⟩, ?_⟩, hplace,
      by simpa using hmark⟩
    intro other line' hstart hother hline'
    have hlt : other - start < k := by omega
    have hsame := hdrop (other - start)
    rw [Nat.add_sub_cancel' hstart, hline', List.getElem?_eq_getElem (Nat.lt_trans hlt hk)] at hsame
    have hnot := hblank (other - start) hlt
    rw [Option.some.inj hsame] at hnot
    simpa using hnot
  · rintro ⟨place, line, hnext, hline, hmark⟩
    have hfilled : isBlankLine line = false := by
      obtain ⟨line', hline', hfilled⟩ := hnext.filled
      rwa [Option.some.inj (hline.symm.trans hline')]
    have hplace := hdrop (place - start)
    rw [Nat.add_sub_cancel' hnext.le, hline] at hplace
    obtain ⟨hlt, hitem⟩ := List.getElem?_eq_some_iff.mp hplace
    have hfind : (lines.drop start).find? (fun line => !isBlankLine line) = some line := by
      refine List.find?_eq_some_iff_getElem.mpr ⟨by simp [hfilled], place - start, hlt, hitem, ?_⟩
      intro k hk
      have hbefore := hdrop k
      rw [List.getElem?_eq_getElem (Nat.lt_trans hk hlt)] at hbefore
      rw [Bool.not_not]
      exact hnext.blank (start + k) _ (Nat.le_add_right _ _) (by omega) hbefore.symm
    exact ⟨lineIndent line, by rw [nextIndent?, hfind]; rfl, by simpa using hmark⟩

section Lines

variable {lines : List (List Char)} (hlines : ∀ line ∈ lines, IsLoneLine line)
include hlines

/-- A line heads a group if the next line that is not blank is indented deeper. -/
theorem getElem?_lineTokens_eq_header_iff
    (hline : lines[place]? = some line) (hfilled : isBlankLine line = false) {mark : Nat} :
    (∃ header, (lineTokens lines)[place]? = some (.header mark header)) ↔
      mark = lineIndent line ∧ (nextIndent? (lines.drop (place + 1))).any (lineIndent line < ·) = true := by
  rw [getElem?_lineTokens hlines, hline, Option.map_some, tokenOf, hfilled, if_neg Bool.false_ne_true]
  split
  · rename_i hdeeper
    constructor
    · rintro ⟨header, hheader⟩
      cases hheader
      exact ⟨rfl, hdeeper⟩
    · rintro ⟨rfl, -⟩
      exact ⟨_, rfl⟩
  · rename_i hnot
    constructor
    · rintro ⟨header, hheader⟩
      cases hheader
    · rintro ⟨-, hdeeper⟩
      exact absurd hdeeper hnot

/-- The lines of a body are those up to which the next line that is not blank is always indented deeper
than the header. -/
theorem liesIn_lines_iff (hline : lines[head]? = some line)
    (hfilled : isBlankLine line = false) (hplace : place < lines.length) :
    LiesIn (nest (lineTokens lines)) head place ↔ head < place ∧ ∀ k, head < k → k ≤ place →
      ∃ next other, IsNextFilled lines k next ∧ lines[next]? = some other ∧
        lineIndent line < lineIndent other := by
  have hwithin (mark k : Nat) (hk : k ≤ place) :
      (∃ token, (lineTokens lines)[k]? = some token ∧ token.isWithin mark = true) ↔
        (nextIndent? (lines.drop k)).any (mark < ·) = true := by
    have hlt := Nat.lt_of_le_of_lt hk hplace
    rw [getElem?_lineTokens hlines, List.getElem?_eq_getElem hlt, Option.map_some]
    simp only [Option.some.injEq, exists_eq_left']
    rw [LineToken.isWithin, indent?_tokenOf, ← List.drop_eq_getElem_cons hlt, isOutside, Bool.not_not]
  simp only [← any_nextIndent?_iff]
  rw [liesIn_nest_iff]
  constructor
  · rintro ⟨mark, header, hheader, hafter, hall⟩
    obtain ⟨rfl, -⟩ := (getElem?_lineTokens_eq_header_iff hlines hline hfilled).mp ⟨header, hheader⟩
    exact ⟨hafter, fun k hhead hk => (hwithin _ k hk).mp (hall k hhead hk)⟩
  · rintro ⟨hafter, hall⟩
    have hheads := hall (head + 1) (Nat.lt_succ_self _) hafter
    obtain ⟨header, hheader⟩ :=
      (getElem?_lineTokens_eq_header_iff hlines hline hfilled).mpr ⟨rfl, hheads⟩
    exact ⟨_, header, hheader, hafter, fun k hhead hk => (hwithin _ k hk).mpr (hall k hhead hk)⟩

/-- A line that is not blank lies in a body if all such lines from the header on are indented deeper. -/
theorem liesIn_filled_iff {other : List Char} (hline : lines[head]? = some line)
    (hfilled : isBlankLine line = false) (hother : lines[place]? = some other)
    (hplace : isBlankLine other = false) :
    LiesIn (nest (lineTokens lines)) head place ↔ head < place ∧
      ∀ k next, head < k → k ≤ place → lines[k]? = some next → isBlankLine next = false →
        lineIndent line < lineIndent next := by
  rw [liesIn_lines_iff hlines hline hfilled (List.getElem?_eq_some_iff.mp hother).1]
  refine and_congr_right fun _ => ⟨fun hall k next hhead hk hnext hnextFilled => ?_,
    fun hall k hhead hk => ?_⟩
  · obtain ⟨first, other', hfirst, hother', hdeeper⟩ := hall k hhead hk
    have hself : IsNextFilled lines k k :=
      ⟨Nat.le_refl _, ⟨next, hnext, hnextFilled⟩, fun m _ hkm hmk => by omega⟩
    rw [hfirst.eq hself, hnext] at hother'
    rwa [← Option.some.inj hother'] at hdeeper
  · obtain ⟨next, hnext, hfirst⟩ := exists_isNextFilled hk hother hplace
    obtain ⟨other', hother', hnextFilled⟩ := hfirst.filled
    exact ⟨next, other', hfirst, hother',
      hall next other' (Nat.lt_of_lt_of_le hhead hfirst.le) hnext hother' hnextFilled⟩

/-- A blank line lies in a body if the next line that is not blank does. -/
theorem liesIn_blank_iff {other : List Char} (hline : lines[head]? = some line)
    (hfilled : isBlankLine line = false) (hother : lines[place]? = some other)
    (hplace : isBlankLine other = true) :
    LiesIn (nest (lineTokens lines)) head place ↔ head < place ∧
      ∃ next, IsNextFilled lines (place + 1) next ∧ LiesIn (nest (lineTokens lines)) head next := by
  have hbody {next : Nat} (hnext : ∃ line, lines[next]? = some line) :=
    liesIn_lines_iff hlines hline hfilled (List.getElem?_eq_some_iff.mp hnext.choose_spec).1
  rw [hbody ⟨other, hother⟩]
  refine and_congr_right fun hafter => ⟨fun hall => ?_, ?_⟩
  · obtain ⟨next, other', hfirst, hother', hdeeper⟩ := hall place hafter (Nat.le_refl _)
    have hne : place ≠ next := by
      rintro rfl
      obtain ⟨_, hsame, hnot⟩ := hfirst.filled
      rw [Option.some.inj (hsame.symm.trans hother), hplace] at hnot
      cases hnot
    have hlt : place < next := Nat.lt_of_le_of_ne hfirst.le hne
    refine ⟨next, hfirst.of_le (Nat.le_succ _) hlt, (hbody ⟨other', hother'⟩).mpr
      ⟨Nat.lt_trans hafter hlt, fun k hhead hk => ?_⟩⟩
    by_cases hbefore : k ≤ place
    · exact hall k hhead hbefore
    · exact ⟨next, other', hfirst.of_le (Nat.le_of_not_le hbefore) hk, hother', hdeeper⟩
  · rintro ⟨next, hfirst, hlies⟩ k hhead hk
    obtain ⟨other', hother', -⟩ := hfirst.filled
    have hlt : place < next := hfirst.le
    exact ((hbody ⟨other', hother'⟩).mp hlies).2 k hhead (by omega)

end Lines

/-- The node of a line: a text, or a group headed by the line if the next line that is not blank is indented
deeper. -/
theorem getElem?_outline_lines (hlines : ∀ line ∈ lines, IsLoneLine line)
    (hline : lines[place]? = some line) :
    ∃ depth node, (outline 0 (nest (lineTokens lines)))[place]? = some (depth, node) ∧
      node.ownText = line ∧
        node.bodySize? = (tokenOf line (lines.drop (place + 1))).reach?
          ((lineTokens lines).drop (place + 1)) := by
  have hnode := getElem?_outline_nest (lineTokens lines) place
  rw [getElem?_lineTokens hlines, hline] at hnode
  obtain ⟨⟨depth, node⟩, hentry, hprofile⟩ := Option.map_eq_some_iff.mp hnode
  obtain ⟨hown, hbody⟩ := Prod.mk.inj hprofile
  exact ⟨depth, node, hentry, hown.trans (source_tokenOf _ _), hbody⟩

theorem map_ownText_outline (hlines : ∀ line ∈ lines, IsLoneLine line) :
    (outline 0 (nest (lineTokens lines))).map (·.2.ownText) = lines := by
  refine List.ext_getElem? fun place => ?_
  have hnode := congrArg (Option.map Prod.fst) (getElem?_outline_nest (lineTokens lines) place)
  simp only [Option.map_map, getElem?_lineTokens hlines] at hnode
  rw [List.getElem?_map]
  refine hnode.trans ?_
  cases lines[place]? with
  | none => rfl
  | some line => exact congrArg some (source_tokenOf _ _)

/-- In a stylesheet by indentation where no header goes on to the next line and no line opens a comment,
each line is a node. It heads a group if the next line that is not blank is indented deeper, and else is a
text. Its body has those lines up to which all that are not blank are indented deeper, and the blank lines
before such a line. -/
theorem liesIn_readIndentation_iff {text : List Char}
    (hlines : ∀ line ∈ splitLines text, IsLoneLine line) :
    (outline 0 (read .sass text)).map (·.2.ownText) = splitLines text ∧
    ∀ head line, (splitLines text)[head]? = some line → isBlankLine line = false →
      ((∃ depth header enclosure body,
          (outline 0 (read .sass text))[head]? = some (depth, .group header enclosure body)) ↔
        ∃ next other, IsNextFilled (splitLines text) (head + 1) next ∧
          (splitLines text)[next]? = some other ∧ lineIndent line < lineIndent other) ∧
      ((∃ depth header enclosure body,
          (outline 0 (read .sass text))[head]? = some (depth, .group header enclosure body)) ∨
        ∃ depth, (outline 0 (read .sass text))[head]? = some (depth, .text line)) ∧
      ∀ place other, (splitLines text)[place]? = some other →
        (isBlankLine other = false → (LiesIn (read .sass text) head place ↔ head < place ∧
          ∀ k next, head < k → k ≤ place → (splitLines text)[k]? = some next →
            isBlankLine next = false → lineIndent line < lineIndent next)) ∧
        (isBlankLine other = true → (LiesIn (read .sass text) head place ↔ head < place ∧
          ∃ next, IsNextFilled (splitLines text) (place + 1) next ∧
            LiesIn (read .sass text) head next)) := by
  rw [show read .sass text = nest (lineTokens (splitLines text)) from readIndentation_eq_nest text]
  refine ⟨map_ownText_outline hlines, fun head line hline hfilled => ?_⟩
  obtain ⟨depth, node, hentry, hown, hbody⟩ := getElem?_outline_lines hlines hline
  have hdeeper : node.bodySize?.isSome =
      (nextIndent? ((splitLines text).drop (head + 1))).any (lineIndent line < ·) := by
    rw [hbody, tokenOf, hfilled, if_neg Bool.false_ne_true]
    split
    · rename_i hnext
      rw [hnext]
      rfl
    · rename_i hnext
      rw [Bool.not_eq_true _ |>.mp hnext]
      rfl
  rw [hentry, ← any_nextIndent?_iff, ← hdeeper]
  refine ⟨?_, ?_, fun place other hother => ⟨liesIn_filled_iff hlines hline hfilled hother,
    liesIn_blank_iff hlines hline hfilled hother⟩⟩
  · cases node <;> simp [Node.bodySize?]
  · cases node with
    | text content => exact .inr ⟨depth, by rw [← hown, Node.ownText]⟩
    | group header enclosure body => exact .inl ⟨depth, header, enclosure, body, rfl⟩

/-- A line that goes back to an indent that no group has stays in the body of the first line, with the blank
line before it; the blank line after it goes with the last line. -/
theorem liesIn_readIndentation_iff_dedent :
    let text := "a\n    b\n\n  c: d\n \ne".toList
    (∀ line ∈ splitLines text, IsLoneLine line) ∧ LiesIn (read .sass text) 0 3 ∧
      LiesIn (read .sass text) 0 2 ∧ ¬LiesIn (read .sass text) 0 4 := by
  intro text
  have hlines : ∀ line ∈ splitLines text, IsLoneLine line := by decide +kernel
  have hbody := ((liesIn_readIndentation_iff hlines).2 0 "a\n".toList (by decide +kernel)
    (by decide +kernel)).2.2
  have hdedent : LiesIn (read .sass text) 0 3 := by
    refine ((hbody 3 "  c: d\n".toList (by decide +kernel)).1 (by decide +kernel)).mpr ⟨by decide, ?_⟩
    intro k next hhead hk
    obtain rfl | rfl | rfl : k = 1 ∨ k = 2 ∨ k = 3 := by omega
    all_goals
      intro hnext
      cases hnext
      decide +kernel
  have hblank : LiesIn (read .sass text) 0 2 := by
    refine ((hbody 2 "\n".toList (by decide +kernel)).2 (by decide +kernel)).mpr ⟨by decide, 3, ?_, hdedent⟩
    exact ⟨Nat.le_refl _, ⟨"  c: d\n".toList, by decide +kernel, by decide +kernel⟩,
      fun k line hstart hk => by omega⟩
  refine ⟨hlines, hdedent, hblank, fun hlies => ?_⟩
  obtain ⟨-, next, hnext, hlies⟩ :=
    ((hbody 4 " \n".toList (by decide +kernel)).2 (by decide +kernel)).mp hlies
  have hlast : IsNextFilled (splitLines text) 5 5 :=
    ⟨Nat.le_refl _, ⟨"e".toList, by decide +kernel, by decide +kernel⟩, fun k line hstart hk => by omega⟩
  rw [hnext.eq hlast] at hlies
  have hdeeper := (((hbody 5 "e".toList (by decide +kernel)).1 (by decide +kernel)).mp hlies).2 5 "e".toList
    (by decide) (Nat.le_refl _) (by decide +kernel) (by decide +kernel)
  exact absurd hdeeper (by decide +kernel)

end StyleMigration.Sheet
