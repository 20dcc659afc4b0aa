import StyleMigration.Sheet.Reader

/-!
Reading a stylesheet loses nothing. Both readers cut the text into tokens and then fold the tokens
into a tree, so the proof has two halves. The tokens of a text, put side by side, are the text
(`braceTokens_source`, `lineTokens_source`): every cut keeps both of its sides, and every token but
those at the end of the text takes something away, so the cutting ends at the end of the text. The
tree under construction keeps what was read in the order in which it was read: closing a group moves
it from the stack to the level around it, at the place where it was opened.

A walk collects something at every text, at every opening and at every closing of a tree (`Walk`).
Printing is a walk, and so is listing the headers; the fold is followed once for all walks
(`walk_finish`, `walked_addBraceToken`, `walked_addLineToken`). A stylesheet of any language is
written back as it stood (`print_read`), and the headers of its tree are as the tokens have them, so
none has a selector of blanks only (`isTidy_of_mem_headers`).
-/

set_option autoImplicit false

namespace StyleMigration.Sheet

open Text

/-! ### Walks over a tree -/

/-- What is collected on the way through a tree: at a text, where a group opens, and where it
closes. -/
structure Walk (α : Type) where
  onText : List Char → List α
  onOpening : Header → Enclosure → List α
  onClosing : Enclosure → List α

variable {α : Type}

mutual

def Node.walk (walker : Walk α) : Node → List α
  | .text text => walker.onText text
  | .group header enclosure body =>
    walker.onOpening header enclosure ++ walk walker body ++ walker.onClosing enclosure

/-- What a walk collects in a list of nodes, in the order of the text. -/
def walk (walker : Walk α) : List Node → List α
  | [] => []
  | node :: nodes => node.walk walker ++ walk walker nodes

end

/-- The walk that collects the text. -/
def printing : Walk Char where
  onText text := text
  onOpening header enclosure := header.text ++ enclosure.opening
  onClosing enclosure := enclosure.closing

/-- The walk that collects the headers. -/
def listing : Walk Header where
  onText _ := []
  onOpening header _ := [header]
  onClosing _ := []

/-- A walk that sees of a group what is written of it. It does not tell from an opening brace
whether it is closed, nor a closing brace from a text, and collects nothing where nothing closes a
group. -/
structure Walk.Regular (walker : Walk α) : Prop where
  opening_braces : ∀ header, walker.onOpening header .braces = walker.onOpening header .openBrace
  closing_braces : walker.onClosing .braces = walker.onText ['}']
  closing_openBrace : walker.onClosing .openBrace = []
  closing_indented : walker.onClosing .indented = []

theorem printing_regular : printing.Regular := ⟨fun _ => rfl, rfl, rfl, rfl⟩

theorem listing_regular : listing.Regular := ⟨fun _ => rfl, rfl, rfl, rfl⟩

/-- The headers of all groups of a tree, at any depth, in the order of the text. -/
def headers (nodes : List Node) : List Header :=
  walk listing nodes

mutual

theorem Node.walk_printing (node : Node) : node.walk printing = node.print := by
  cases node with
  | text text => simp only [Node.walk, Node.print, printing]
  | group header enclosure body =>
    simp only [Node.walk, Node.print, walk_printing body]
    simp only [printing]

theorem walk_printing (nodes : List Node) : walk printing nodes = print nodes := by
  cases nodes with
  | nil => simp only [walk, print]
  | cons node nodes =>
    simp only [walk, print, node.walk_printing, walk_printing nodes]

end

theorem walk_append (walker : Walk α) (first second : List Node) :
    walk walker (first ++ second) = walk walker first ++ walk walker second := by
  induction first with
  | nil => simp [walk]
  | cons node first ih => simp [walk, ih]

/-! ### Walks over a tree under construction -/

namespace Outline

variable {Mark : Type}

/-- What a walk collects up to the place where an outline is open, if the groups around that place
will have the given enclosure. -/
def walked (walker : Walk α) (enclosure : Enclosure) (outline : Outline Mark) : List α :=
  around outline.around ++ walk walker outline.nodes.reverse
where
  around : List (Mark × Header × List Node) → List α
    | [] => []
    | (_, header, before) :: outer =>
      around outer ++ walk walker before.reverse ++ walker.onOpening header enclosure

@[simp] theorem walked_empty (walker : Walk α) (enclosure : Enclosure) :
    (empty : Outline Mark).walked walker enclosure = [] := by
  simp [walked, walked.around, empty, walk]

@[simp] theorem walked_add (walker : Walk α) (enclosure : Enclosure) (outline : Outline Mark)
    (node : Node) :
    (outline.add node).walked walker enclosure =
      outline.walked walker enclosure ++ node.walk walker := by
  simp [walked, add, walk_append, walk]

@[simp] theorem walked_enter (walker : Walk α) (enclosure : Enclosure) (outline : Outline Mark)
    (mark : Mark) (header : Header) :
    (outline.enter mark header).walked walker enclosure =
      outline.walked walker enclosure ++ walker.onOpening header enclosure := by
  simp [walked, walked.around, enter, walk]

/-- Closing a group adds its closing. The group may get an enclosure of its own, as long as it opens
alike. -/
theorem walked_leave (walker : Walk α) {enclosure closed : Enclosure}
    (halike : ∀ header, walker.onOpening header closed = walker.onOpening header enclosure)
    (outline : Outline Mark) (hopen : outline.around ≠ []) :
    (outline.leave closed).walked walker enclosure =
      outline.walked walker enclosure ++ walker.onClosing closed := by
  obtain ⟨nodes, around⟩ := outline
  cases around with
  | nil => exact absurd rfl hopen
  | cons frame outer =>
    obtain ⟨mark, header, before⟩ := frame
    simp [walked, walked.around, leave, walk_append, walk, Node.walk, halike]

/-- Closing groups that have no closing of their own adds nothing. -/
theorem walked_leaveWhile (walker : Walk α) {enclosure : Enclosure}
    (hclosing : walker.onClosing enclosure = []) (leaves : Mark → Bool) (outline : Outline Mark) :
    (outline.leaveWhile enclosure leaves).walked walker enclosure =
      outline.walked walker enclosure := by
  obtain ⟨nodes, around⟩ := outline
  simp only [leaveWhile]
  induction around generalizing nodes with
  | nil => simp [leaveWhile.go, walked]
  | cons frame outer ih =>
    obtain ⟨mark, header, before⟩ := frame
    rw [leaveWhile.go]
    split
    · rw [ih]
      simp [walked, walked.around, walk_append, walk, Node.walk, hclosing]
    · rfl

/-- Once every group is left, nothing is around. -/
theorem leaveWhile_all_around (enclosure : Enclosure) (outline : Outline Mark) :
    (outline.leaveWhile enclosure fun _ => true).around = [] := by
  obtain ⟨nodes, around⟩ := outline
  simp only [leaveWhile]
  induction around generalizing nodes with
  | nil => rfl
  | cons frame outer ih =>
    obtain ⟨mark, header, before⟩ := frame
    simpa [leaveWhile.go] using ih _

/-- The finished tree holds what the outline holds, in the same order. -/
theorem walk_finish (walker : Walk α) {enclosure : Enclosure}
    (hclosing : walker.onClosing enclosure = []) (outline : Outline Mark) :
    walk walker (outline.finish enclosure) = outline.walked walker enclosure := by
  rw [← walked_leaveWhile walker hclosing (fun _ => true) outline]
  simp [finish, walked, leaveWhile_all_around, walked.around]

end Outline

/-! ### Tokens of a stylesheet in braces -/

/-- The text a token was cut from. -/
def BraceToken.source : BraceToken → List Char
  | .text content => content
  | .opening blanks header => blanks ++ header ++ ['{']
  | .closing => ['}']

/-- A comment is cut off the front of a text and takes at least its two opening characters. -/
theorem takeComment?_append {lineComments : Bool} {text comment rest : List Char}
    (htaken : takeComment? lineComments text = some (comment, rest)) :
    comment ++ rest = text ∧ rest.length < text.length := by
  have happend : comment ++ rest = text ∧ 0 < comment.length := by
    unfold takeComment? at htaken
    split at htaken
    · rename_i text
      obtain ⟨rfl, rfl⟩ := Prod.mk.inj (Option.some.inj htaken)
      simp [takeBlockComment_append]
    · rename_i text
      split at htaken
      · obtain ⟨rfl, rfl⟩ := Prod.mk.inj (Option.some.inj htaken)
        simp [List.takeWhile_append_dropWhile]
      · cases htaken
    · cases htaken
  obtain ⟨rfl, hpositive⟩ := happend
  refine ⟨rfl, ?_⟩
  rw [List.length_append]
  omega

/-- Comments, the blanks after them and the rest make up the text. -/
theorem takeTrivia_append (lineComments : Bool) (text : List Char) :
    (takeTrivia lineComments text).1 ++ (takeTrivia lineComments text).2.1 ++
      (takeTrivia lineComments text).2.2 = text := by
  fun_induction takeTrivia lineComments text with
  | case1 text blanks rest hnone => simp [blanks, rest, List.takeWhile_append_dropWhile]
  | case2 text blanks rest comment after hcomment _ comments blanksAfter rest' htrivia ih =>
    rw [htrivia] at ih
    have hrest : comment ++ after = rest := (takeComment?_append hcomment).1
    calc blanks ++ comment ++ comments ++ blanksAfter ++ rest'
        = blanks ++ (comment ++ (comments ++ blanksAfter ++ rest')) := by simp
      _ = blanks ++ rest := by rw [ih, hrest]
      _ = text := List.takeWhile_append_dropWhile
  | case3 text blanks rest comment after hcomment hlong =>
    -- A comment is never empty, so what comes after it is shorter than the text.
    have hafter := (takeComment?_append hcomment).2
    have hrest : rest.length ≤ text.length := (List.dropWhile_sublist _).length_le
    omega

/-- The character that ended a statement, where it belongs neither to the statement nor to the
rest. -/
def Terminator.text : Terminator → List Char
  | opening => ['{']
  | semicolon | stop => []

/-- The text a scanned statement was cut from, the rest included. -/
def Scanned.source (scanned : Scanned) : List Char :=
  scanned.text ++ scanned.ended.text ++ scanned.rest

@[simp] theorem Scanned.source_cons (c : Char) (scanned : Scanned) :
    (scanned.cons c).source = c :: scanned.source :=
  rfl

theorem scanStatement_source (lineComments : Bool) (depth : Nat) (state : StatementState)
    (text : List Char) : (scanStatement lineComments depth state text).source = text := by
  -- Every step but the last puts one character in front of what the next one scans.
  fun_induction scanStatement lineComments depth state text
  case case1 => rfl
  case case9 => rfl
  case case10 hopening =>
    rw [hopening.1]
    rfl
  case case11 => rfl
  all_goals simp_all only [Scanned.source_cons]

/-- A scan takes at least one character of a text, unless a closing brace comes first. -/
theorem scanStatement_rest_length (lineComments : Bool) (depth : Nat) (state : StatementState)
    {text : List Char} (hne : text ≠ []) (hclosing : text.head? ≠ some '}') :
    (scanStatement lineComments depth state text).rest.length < text.length := by
  have hsource := congrArg List.length (scanStatement_source lineComments depth state text)
  have htaken : (scanStatement lineComments depth state text).text ≠ [] ∨
      (scanStatement lineComments depth state text).ended = .opening := by
    fun_cases scanStatement lineComments depth state text
    case case1 => exact absurd rfl hne
    case case10 => exact Or.inr rfl
    case case11 hstop => exact absurd (congrArg some hstop.1) hclosing
    all_goals exact Or.inl (List.cons_ne_nil _ _)
  rw [Scanned.source, List.length_append, List.length_append] at hsource
  rcases htaken with htext | hopening
  · have := List.length_pos_iff.mpr htext
    omega
  · rw [hopening] at hsource
    simp only [Terminator.text, List.length_singleton] at hsource
    omega

@[simp] theorem BraceToken.flatMap_ofText (text : List Char) :
    (BraceToken.ofText text).flatMap BraceToken.source = text := by
  rw [BraceToken.ofText]
  split
  · rename_i hempty
    rw [List.isEmpty_iff.mp hempty]
    rfl
  · simp [BraceToken.source]

/-- The tokens cut off a text and the rest make up the text. -/
theorem takeTokens_source (lineComments : Bool) (text : List Char) :
    (takeTokens lineComments text).1.flatMap BraceToken.source ++
      (takeTokens lineComments text).2 = text := by
  have htrivia := takeTrivia_append lineComments text
  fun_cases takeTokens lineComments text with
  | case1 comments blanks lead htaken =>
    rw [htaken] at htrivia
    simpa [lead] using htrivia
  | case2 comments blanks lead rest htaken =>
    rw [htaken] at htrivia
    simpa [lead, BraceToken.source] using htrivia
  | case3 comments blanks lead rest _ _ scanned hopening htaken =>
    have hscanned : scanned.source = rest := scanStatement_source lineComments 0 .plain rest
    rw [Scanned.source, hopening, Terminator.text, List.append_assoc] at hscanned
    rw [htaken, ← hscanned] at htrivia
    simpa [lead, BraceToken.source] using htrivia
  | case4 comments blanks lead rest _ _ scanned hother htaken =>
    have hended : scanned.ended.text = [] := by
      cases h : scanned.ended <;> simp_all [Terminator.text]
    have hscanned : scanned.source = rest := scanStatement_source lineComments 0 .plain rest
    rw [Scanned.source, hended, List.append_nil] at hscanned
    rw [htaken, ← hscanned] at htrivia
    simpa [lead, BraceToken.source] using htrivia

/-- Tokens take something of a text that is not at its end. -/
theorem takeTokens_rest_length (lineComments : Bool) {text : List Char} (hne : text ≠ []) :
    (takeTokens lineComments text).2.length < text.length := by
  have htrivia := congrArg List.length (takeTrivia_append lineComments text)
  have hpositive := List.length_pos_iff.mpr hne
  have hstatement {rest : List Char} (hrest : rest = [] → False)
      (hclosing : ∀ others, rest = '}' :: others → False) :
      (takeStatement lineComments rest).rest.length < rest.length := by
    refine scanStatement_rest_length lineComments 0 .plain hrest ?_
    cases rest with
    | nil => simp
    | cons c others => exact fun h => hclosing others (by rw [Option.some.inj h])
  fun_cases takeTokens lineComments text with
  | case1 comments blanks lead htaken => exact hpositive
  | case2 comments blanks lead rest htaken =>
    rw [htaken] at htrivia
    simp only [List.length_append, List.length_cons] at htrivia ⊢
    omega
  | case3 comments blanks lead rest hrest hclosing scanned _ htaken =>
    have hshorter : scanned.rest.length < rest.length := hstatement hrest hclosing
    rw [htaken] at htrivia
    simp only [List.length_append] at htrivia ⊢
    omega
  | case4 comments blanks lead rest hrest hclosing scanned _ htaken =>
    have hshorter : scanned.rest.length < rest.length := hstatement hrest hclosing
    rw [htaken] at htrivia
    simp only [List.length_append] at htrivia ⊢
    omega

/-- The tokens of a text, side by side, are the text. -/
theorem braceTokens_source (lineComments : Bool) (text : List Char) :
    (braceTokens lineComments text).flatMap BraceToken.source = text := by
  have hsource := takeTokens_source lineComments text
  fun_induction braceTokens lineComments text with
  | case1 text taken hshorter ih =>
    rw [List.flatMap_append, ih (takeTokens_source lineComments taken.2)]
    exact hsource
  | case2 text taken hlong =>
    by_cases hne : text = []
    · subst hne
      exact (List.append_eq_nil_iff.mp hsource).1
    · exact absurd (takeTokens_rest_length lineComments hne) hlong

@[simp] theorem Header.ofBraces_text (blanks header : List Char) :
    (Header.ofBraces blanks header).text = blanks ++ header := by
  simp only [Header.ofBraces]
  split
  · rfl
  · rw [Header.text, List.append_assoc, trimEnd_append_trailingBlanks]

/-- What a walk collects at a token. -/
def BraceToken.walk (walker : Walk α) : BraceToken → List α
  | .text content => walker.onText content
  | .opening blanks header => walker.onOpening (.ofBraces blanks header) .openBrace
  | .closing => walker.onText ['}']

theorem BraceToken.walk_printing (token : BraceToken) : token.walk printing = token.source := by
  cases token with
  | text content => rfl
  | opening blanks header =>
    change (Header.ofBraces blanks header).text ++ ['{'] = blanks ++ header ++ ['{']
    rw [Header.ofBraces_text]
  | closing => rfl

/-- A token adds to an outline what a walk collects at it. -/
theorem Outline.walked_addBraceToken {walker : Walk α} (hregular : walker.Regular)
    (outline : Outline Unit) (token : BraceToken) :
    (outline.addBraceToken token).walked walker .openBrace =
      outline.walked walker .openBrace ++ token.walk walker := by
  cases token with
  | text content => simp [addBraceToken, BraceToken.walk, Node.walk]
  | opening blanks header => simp [addBraceToken, BraceToken.walk]
  | closing =>
    rw [addBraceToken, BraceToken.walk]
    split
    · simp [Node.walk]
    · rename_i hopen
      rw [walked_leave walker hregular.opening_braces outline (by simpa using hopen),
        hregular.closing_braces]

/-- What a walk collects in a stylesheet in braces is what it collects at the tokens. -/
theorem walk_readBraces {walker : Walk α} (hregular : walker.Regular) (lineComments : Bool)
    (text : List Char) :
    walk walker (readBraces lineComments text) =
      (braceTokens lineComments text).flatMap (BraceToken.walk walker) := by
  have hfold (tokens : List BraceToken) (outline : Outline Unit) :
      (tokens.foldl Outline.addBraceToken outline).walked walker .openBrace =
        outline.walked walker .openBrace ++ tokens.flatMap (BraceToken.walk walker) := by
    induction tokens generalizing outline with
    | nil => simp
    | cons token tokens ih => simp [ih, Outline.walked_addBraceToken hregular]
  rw [readBraces, Outline.walk_finish walker hregular.closing_openBrace, hfold,
    Outline.walked_empty, List.nil_append]

/-! ### Tokens of a stylesheet by indentation -/

theorem splitLines_flatten (text : List Char) : (splitLines text).flatten = text := by
  fun_induction splitLines text with
  | case1 => rfl
  | case2 text ih => simp [ih]
  | case3 c text _ hlines ih =>
    rw [hlines] at ih
    simp [← ih]
  | case4 c text _ line lines hlines ih =>
    rw [hlines] at ih
    simpa using ih

/-- A header and the lines after it are the lines from its first one on. -/
theorem takeHeader_append (line : List Char) (lines : List (List Char)) :
    (takeHeader line lines).1 ++ (takeHeader line lines).2 = line :: lines := by
  fun_induction takeHeader line lines with
  | case1 line => rfl
  | case2 line next lines _ header rest htaken ih =>
    rw [htaken] at ih
    simpa using ih
  | case3 line next lines _ => rfl

/-- A header has at least one line. -/
theorem takeHeader_rest_length (line : List Char) (lines : List (List Char)) :
    (takeHeader line lines).2.length ≤ lines.length := by
  fun_induction takeHeader line lines with
  | case1 line => simp
  | case2 line next lines _ header rest htaken ih =>
    rw [htaken] at ih
    exact Nat.le_succ_of_le ih
  | case3 line next lines _ => simp

@[simp] theorem Header.ofLines_text (first header : List Char) :
    (Header.ofLines first header).text = header := by
  simp only [Header.ofLines]
  split
  · rfl
  · rw [Header.text, leadingBlanks_append_trimStart, trimEnd_append_trailingBlanks]

/-- The text a token was cut from. -/
def LineToken.source : LineToken → List Char
  | .text _ content => content
  | .header _ head => head.text

/-- A token and the lines after it are the lines from its first one on. -/
theorem takeLineToken_source (line : List Char) (lines : List (List Char)) :
    (takeLineToken line lines).1.source ++ (takeLineToken line lines).2.flatten =
      line ++ lines.flatten := by
  fun_cases takeLineToken line lines with
  | case1 _ => rfl
  | case2 _ indent header rest _ _ => rfl
  | case3 _ indent first header rest _ _ _ isBelow =>
    have hlines := congrArg List.flatten
      (List.takeWhile_append_dropWhile (p := isBelow) (l := lines))
    rw [List.flatten_append] at hlines
    rw [LineToken.source, List.append_assoc, hlines]
  | case4 _ indent first header rest htaken _ _ =>
    have hlines := congrArg List.flatten (takeHeader_append line lines)
    rw [htaken, List.flatten_append, List.flatten_cons] at hlines
    rw [LineToken.source, Header.ofLines_text, hlines]

/-- A token takes at least one line. -/
theorem takeLineToken_rest_length (line : List Char) (lines : List (List Char)) :
    (takeLineToken line lines).2.length < (line :: lines).length := by
  rw [List.length_cons, Nat.lt_succ_iff]
  fun_cases takeLineToken line lines with
  | case1 _ => exact Nat.le_refl _
  | case2 _ indent header rest _ _ => exact Nat.le_refl _
  | case3 _ indent first header rest _ _ _ isBelow => exact (List.dropWhile_sublist _).length_le
  | case4 _ indent first header rest htaken _ _ =>
    have hrest := takeHeader_rest_length line lines
    rw [htaken] at hrest
    exact hrest

/-- The tokens of a list of lines, side by side, are the lines. -/
theorem lineTokens_source (lines : List (List Char)) :
    (lineTokens lines).flatMap LineToken.source = lines.flatten := by
  fun_induction lineTokens lines with
  | case1 => rfl
  | case2 line lines taken hshorter ih =>
    rw [List.flatMap_cons, ih, List.flatten_cons]
    exact takeLineToken_source line lines
  | case3 line lines taken hlong => exact absurd (takeLineToken_rest_length line lines) hlong

/-- What a walk collects at a token. -/
def LineToken.walk (walker : Walk α) : LineToken → List α
  | .text _ content => walker.onText content
  | .header _ head => walker.onOpening head .indented

theorem LineToken.walk_printing (token : LineToken) : token.walk printing = token.source := by
  cases token with
  | text indent content => rfl
  | header indent head => exact List.append_nil _

/-- A token adds to an outline what a walk collects at it: the groups it leaves are closed without a
trace. -/
theorem Outline.walked_addLineToken {walker : Walk α} (hregular : walker.Regular)
    (outline : Outline Nat) (token : LineToken) :
    (outline.addLineToken token).walked walker .indented =
      outline.walked walker .indented ++ token.walk walker := by
  cases token with
  | text indent content =>
    rw [addLineToken, walked_add, walked_leaveWhile walker hregular.closing_indented]
    rfl
  | header indent head =>
    rw [addLineToken, walked_enter, walked_leaveWhile walker hregular.closing_indented]
    rfl

/-- What a walk collects in a stylesheet by indentation is what it collects at the tokens. -/
theorem walk_readIndentation {walker : Walk α} (hregular : walker.Regular) (text : List Char) :
    walk walker (readIndentation text) =
      (lineTokens (splitLines text)).flatMap (LineToken.walk walker) := by
  have hfold (tokens : List LineToken) (outline : Outline Nat) :
      (tokens.foldl Outline.addLineToken outline).walked walker .indented =
        outline.walked walker .indented ++ tokens.flatMap (LineToken.walk walker) := by
    induction tokens generalizing outline with
    | nil => simp
    | cons token tokens ih => simp [ih, Outline.walked_addLineToken hregular]
  rw [readIndentation, Outline.walk_finish walker hregular.closing_indented, hfold,
    Outline.walked_empty, List.nil_append]

/-! ### Stylesheets of every language -/

theorem print_readBraces (lineComments : Bool) (text : List Char) :
    print (readBraces lineComments text) = text := by
  rw [← walk_printing, walk_readBraces printing_regular, funext BraceToken.walk_printing,
    braceTokens_source]

theorem print_readIndentation (text : List Char) : print (readIndentation text) = text := by
  rw [← walk_printing, walk_readIndentation printing_regular, funext LineToken.walk_printing,
    lineTokens_source, splitLines_flatten]

/-- A stylesheet is written back as it stood. -/
theorem print_read (language : Language) (text : List Char) :
    print (read language text) = text := by
  cases language with
  | css => exact print_readBraces false text
  | scss => exact print_readBraces true text
  | sass => exact print_readIndentation text

/-- Byte for byte a stylesheet is written back as it stood, whatever its text and its language. -/
theorem toByteArray_print_read (language : Language) (source : String) :
    (String.ofList (print (read language source.toList))).toByteArray = source.toByteArray := by
  rw [print_read, String.ofList_toList]

/-! ### Headers of a tree that was read -/

theorem trimStart_eq_nil {text : List Char} (hblank : isAllBlank (trimStart text)) :
    trimStart text = [] := by
  cases hrest : trimStart text with
  | nil => rfl
  | cons c rest =>
    have hfirst : isBlank c = false := by
      have hhead := List.head?_dropWhile_not isBlank text
      rw [← trimStart, hrest] at hhead
      simpa using hhead
    rw [hrest, isAllBlank, List.all_cons, hfirst] at hblank
    cases hblank

theorem trimEnd_eq_nil {text : List Char} (hblank : isAllBlank (trimEnd text)) :
    trimEnd text = [] := by
  rw [trimEnd, isAllBlank, List.all_reverse] at hblank
  rw [trimEnd, List.reverse_eq_nil_iff]
  exact trimStart_eq_nil hblank

/-- A header whose selector, if it has one, is empty or has something in it besides blanks. -/
def Header.IsTidy : Header → Prop
  | .rule _ selector _ => isAllBlank selector → selector = []
  | .block _ => True

theorem Header.ofBraces_isTidy (blanks header : List Char) :
    (Header.ofBraces blanks header).IsTidy := by
  simp only [Header.ofBraces]
  split
  · trivial
  · exact trimEnd_eq_nil

theorem Header.ofLines_isTidy (first header : List Char) :
    (Header.ofLines first header).IsTidy := by
  simp only [Header.ofLines]
  split
  · trivial
  · exact trimStart_eq_nil

/-- A token that heads a group has a tidy header. -/
def LineToken.IsTidy : LineToken → Prop
  | .text _ _ => True
  | .header _ head => head.IsTidy

theorem isTidy_of_mem_lineTokens {lines : List (List Char)} {token : LineToken}
    (hmem : token ∈ lineTokens lines) : token.IsTidy := by
  have hfirst (line : List Char) (lines : List (List Char)) :
      (takeLineToken line lines).1.IsTidy := by
    fun_cases takeLineToken line lines with
    | case4 => exact Header.ofLines_isTidy _ _
    | _ => trivial
  fun_induction lineTokens lines with
  | case1 => cases hmem
  | case2 line lines taken _ ih =>
    rcases List.mem_cons.mp hmem with rfl | hmem
    · exact hfirst line lines
    · exact ih hmem
  | case3 line lines taken _ =>
    rw [List.mem_singleton.mp hmem]
    exact hfirst line lines

/-- All headers of a tree that was read are tidy. -/
theorem isTidy_of_mem_headers {language : Language} {text : List Char} {header : Header}
    (hmem : header ∈ headers (read language text)) : header.IsTidy := by
  have hbraces (lineComments : Bool) (hmem : header ∈ headers (readBraces lineComments text)) :
      header.IsTidy := by
    rw [headers, walk_readBraces listing_regular, List.mem_flatMap] at hmem
    obtain ⟨token, -, hmem⟩ := hmem
    cases token with
    | opening blanks head =>
      rw [List.mem_singleton.mp hmem]
      exact Header.ofBraces_isTidy blanks head
    | text content => cases hmem
    | closing => cases hmem
  cases language with
  | css => exact hbraces false hmem
  | scss => exact hbraces true hmem
  | sass =>
    rw [headers, read, walk_readIndentation listing_regular, List.mem_flatMap] at hmem
    obtain ⟨token, htoken, hmem⟩ := hmem
    have htidy := isTidy_of_mem_lineTokens htoken
    cases token with
    | header indent head =>
      rw [List.mem_singleton.mp hmem]
      exact htidy
    | text indent content => cases hmem

end StyleMigration.Sheet
