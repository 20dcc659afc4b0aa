import StyleMigration.Instances
import StyleMigration.Proofs.Sheet.Readback

/-!
A grammar of stylesheets in braces, and that reading recovers it. A body is written from declarations,
rules and at-rules, each with the blanks before it, and blanks at its end (`IsBody`). Statements,
selectors and headers are plain: a scan goes through them character by character and stops at what
comes after them (`IsPlain.scanStatement_eq`). So each piece of a written body is one token of its text,
and the tokens of a group build the group on the level where it was opened
(`IsBody.isBuilt`).

A number sign before an opening brace begins an interpolation. A header that ends with one is the only
piece of the grammar that is not read as it was written: a tree is recovered just when it has no such
header (`read_print_eq_self_iff`).
-/

set_option autoImplicit false

namespace StyleMigration.Sheet

open Text

variable {text blanks rest : List Char} {depth : Nat} {nodes : List Node} {lineComments : Bool}

/-! ### Plain texts -/

/-- The characters of strings, escapes, blocks and statement ends. -/
def isReserved (c : Char) : Bool :=
  c == '"' || c == '\'' || c == '\\' || c == '{' || c == '}' || c == ';'

/-- How many parentheses and square brackets are open after a text, if `depth` are open before it. None
may be closed that is not open. -/
def balance (depth : Nat) : List Char → Option Nat
  | [] => some depth
  | c :: text =>
    if c = '(' ∨ c = '[' then balance (depth + 1) text
    else if c = ')' ∨ c = ']' then if depth = 0 then none else balance (depth - 1) text
    else balance depth text

/-- A text without strings, escapes, comments, braces and semicolons that closes the parentheses and
square brackets it opens, and `depth` that were opened before it. -/
structure IsPlain (depth : Nat) (text : List Char) : Prop where
  unreserved : ∀ c ∈ text, isReserved c = false
  uncommented : ¬['/', '*'] <:+: text ∧ ¬['/', '/'] <:+: text
  balanced : balance depth text = some 0

instance instDecidableIsPlain (depth : Nat) (text : List Char) : Decidable (IsPlain depth text) :=
  decidable_of_iff ((∀ c ∈ text, isReserved c = false) ∧
      (¬['/', '*'] <:+: text ∧ ¬['/', '/'] <:+: text) ∧ balance depth text = some 0)
    ⟨fun ⟨hunreserved, huncommented, hbalanced⟩ => ⟨hunreserved, huncommented, hbalanced⟩,
      fun hplain => ⟨hplain.unreserved, hplain.uncommented, hplain.balanced⟩⟩

/-- A rest that a plain text does not run into: no comment and no interpolation begins on the border. -/
def StandsApart (text rest : List Char) : Prop :=
  ∀ c ∈ rest.head?, c ≠ '*' ∧ c ≠ '/' ∧ (c = '{' → text.getLast? ≠ some '#')

/-- A text in front of a statement. -/
def Scanned.prepend (front : List Char) (scanned : Scanned) : Scanned :=
  { scanned with text := front ++ scanned.text }

theorem isReserved_of_isBlank {c : Char} (hblank : isBlank c = true) : isReserved c = false := by
  rw [← Bool.not_eq_true]
  intro hreserved
  simp only [isReserved, Bool.or_eq_true, beq_iff_eq] at hreserved
  rcases hreserved with ((((rfl | rfl) | rfl) | rfl) | rfl) | rfl <;> exact absurd hblank (by decide)

theorem balance_append_of_isBlank (hblanks : ∀ c ∈ blanks, isBlank c = true) (text : List Char) :
    balance depth (blanks ++ text) = balance depth text := by
  induction blanks with
  | nil => rfl
  | cons c blanks ih =>
    rw [List.forall_mem_cons] at hblanks
    have hopening : ¬(c = '(' ∨ c = '[') := by
      rintro (rfl | rfl) <;> exact absurd hblanks.1 (by decide)
    have hclosing : ¬(c = ')' ∨ c = ']') := by
      rintro (rfl | rfl) <;> exact absurd hblanks.1 (by decide)
    rw [List.cons_append, balance, if_neg hopening, if_neg hclosing, ih hblanks.2]

theorem isPlain_of_isBlank (hblanks : ∀ c ∈ blanks, isBlank c = true) :
    IsPlain 0 blanks := by
  have hslash : '/' ∉ blanks := fun hmem => absurd (hblanks '/' hmem) (by decide)
  refine ⟨fun c hc => isReserved_of_isBlank (hblanks c hc), ⟨?_, ?_⟩, ?_⟩
  · exact fun hwithin => hslash (hwithin.subset List.mem_cons_self)
  · exact fun hwithin => hslash (hwithin.subset List.mem_cons_self)
  · rw [← List.append_nil blanks, balance_append_of_isBlank hblanks]
    rfl

/-- A plain text stays plain without blanks at its front. -/
theorem IsPlain.of_append
    (hplain : IsPlain depth (blanks ++ text)) (hblanks : ∀ c ∈ blanks, isBlank c = true) :
    IsPlain depth text := by
  have hwithin : text <:+: blanks ++ text := (List.suffix_append blanks text).isInfix
  refine ⟨fun c hc => hplain.unreserved c (List.mem_append_right _ hc), ?_, ?_⟩
  · exact ⟨fun hcomment => hplain.uncommented.1 (hcomment.trans hwithin),
      fun hcomment => hplain.uncommented.2 (hcomment.trans hwithin)⟩
  · rw [← hplain.balanced, balance_append_of_isBlank hblanks]

/-- The next character never makes a comment or an interpolation of a character of a plain text. -/
theorem IsPlain.lookAhead {depth : Nat} {c : Char} {text rest : List Char}
    (hplain : IsPlain depth (c :: text)) (hapart : StandsApart (c :: text) rest) {second : Char}
    (hsecond : (text ++ rest).head? = some second) :
    (c = '/' → second ≠ '*' ∧ second ≠ '/') ∧ (c = '#' → second ≠ '{') := by
  cases text with
  | nil =>
    obtain ⟨hstar, hslash, hbrace⟩ := hapart second hsecond
    exact ⟨fun _ => ⟨hstar, hslash⟩, fun hc hsecond => hbrace hsecond (by rw [hc]; rfl)⟩
  | cons next text =>
    obtain rfl : next = second := Option.some.inj hsecond
    have hwithin : [c, next] <:+: c :: next :: text := ⟨[], text, rfl⟩
    constructor
    · rintro rfl
      constructor
      · rintro rfl
        exact hplain.uncommented.1 hwithin
      · rintro rfl
        exact hplain.uncommented.2 hwithin
    · rintro - rfl
      exact absurd (hplain.unreserved '{' (by simp)) (by decide)

/-- A scan goes through a plain text and on with what comes after it. -/
theorem IsPlain.scanStatement_eq (lineComments : Bool)
    (hplain : IsPlain depth text) (hapart : StandsApart text rest) :
    scanStatement lineComments depth .plain (text ++ rest) =
      (scanStatement lineComments 0 .plain rest).prepend text := by
  induction text generalizing depth with
  | nil =>
    obtain rfl : depth = 0 := Option.some.inj hplain.balanced
    rfl
  | cons c text ih =>
    have hrest : StandsApart text rest := by
      intro next hnext
      obtain ⟨hstar, hslash, hbrace⟩ := hapart next hnext
      refine ⟨hstar, hslash, fun heq hlast => hbrace heq ?_⟩
      cases text with
      | nil => cases hlast
      | cons second text => rwa [List.getLast?_cons_cons]
    have htail {depth' : Nat} (hbalanced : balance depth' text = some 0) : IsPlain depth' text := by
      have hwithin : text <:+: c :: text := (List.suffix_cons c text).isInfix
      exact ⟨fun other hmem => hplain.unreserved other (List.mem_cons_of_mem _ hmem),
        ⟨fun hcomment => hplain.uncommented.1 (hcomment.trans hwithin),
          fun hcomment => hplain.uncommented.2 (hcomment.trans hwithin)⟩, hbalanced⟩
    have hahead := @IsPlain.lookAhead depth c text rest hplain hapart
    have hbalanced := hplain.balanced
    have hunreserved := hplain.unreserved c List.mem_cons_self
    simp only [isReserved, Bool.or_eq_false_iff, beq_eq_false_iff_ne] at hunreserved
    obtain ⟨⟨⟨⟨⟨hquote, happstrophe⟩, hescape⟩, hopening⟩, hclosing⟩, hsemicolon⟩ := hunreserved
    have hline : ¬(c = '/' ∧ lineComments = true ∧ depth = 0 ∧ (text ++ rest).head? = some '/') :=
      fun h => ((hahead h.2.2.2).1 h.1).2 rfl
    have hinterpolation : ¬(c = '#' ∧ (text ++ rest).head? = some '{') :=
      fun h => (hahead h.2).2 h.1 rfl
    rw [List.cons_append, scanStatement]
    · rw [if_neg hescape, if_neg (not_or.mpr ⟨hquote, happstrophe⟩), if_neg hline,
        if_neg hinterpolation]
      rw [balance] at hbalanced
      split at hbalanced
      · rename_i hopens
        rw [if_pos hopens, ih (htail hbalanced) hrest]
        rfl
      · rename_i hopens
        rw [if_neg hopens]
        split at hbalanced
        · rename_i hcloses
          rw [if_pos hcloses]
          split at hbalanced
          · cases hbalanced
          · rw [ih (htail hbalanced) hrest]
            rfl
        · rename_i hcloses
          rw [if_neg hcloses, if_neg fun h => hsemicolon h.1, if_neg fun h => hopening h.1,
            if_neg fun h => hclosing h.1, ih (htail hbalanced) hrest]
          rfl
    · intro others hslash hothers
      exact ((hahead (by rw [hothers]; rfl)).1 hslash).1 rfl

/-- No comment begins at the front of a plain text. -/
theorem IsPlain.takeComment?_eq_none (lineComments : Bool)
    (hplain : IsPlain depth text) (hapart : StandsApart text rest) :
    takeComment? lineComments (text ++ rest) = none := by
  rw [takeComment?_eq_none_iff]
  cases text with
  | nil =>
    cases rest with
    | nil => simp
    | cons c rest => cases rest <;> simp [(hapart c rfl).2.1]
  | cons c text =>
    have hahead := @IsPlain.lookAhead depth c text rest hplain hapart
    rw [List.cons_append]
    generalize text ++ rest = others at hahead
    cases others with
    | nil => simp
    | cons second others =>
      have hsecond := hahead rfl
      simp only [List.take_succ_cons, List.take_zero, ne_eq, List.cons.injEq, and_true, not_and]
      exact ⟨fun hslash => (hsecond.1 hslash).1, fun _ hslash => (hsecond.1 hslash).2⟩

/-! ### Tokens of a written body -/

theorem braceTokens_nil (lineComments : Bool) : braceTokens lineComments [] = [] := by
  simp [braceTokens, takeTokens, takeTrivia, takeComment?, BraceToken.ofText]

/-- The tokens of a text go on after those at its front. -/
theorem braceTokens_eq_append {tokens : List BraceToken}
    (hne : text ≠ []) (htaken : takeTokens lineComments text = (tokens, rest)) :
    braceTokens lineComments text = tokens ++ braceTokens lineComments rest := by
  have hshorter := takeTokens_rest_length lineComments hne
  rw [braceTokens, dif_pos hshorter, htaken]

/-- Blanks before the end of a body are a token of their own. -/
theorem braceTokens_closing (lineComments : Bool) {blanks : List Char}
    (hblanks : ∀ c ∈ blanks, isAsciiBlank c = true) (rest : List Char) :
    braceTokens lineComments (blanks ++ '}' :: rest) =
      BraceToken.ofText blanks ++ .closing :: braceTokens lineComments rest := by
  have htaken : takeTokens lineComments (blanks ++ '}' :: rest) =
      (BraceToken.ofText blanks ++ [.closing], rest) := by
    rw [takeTokens, (isLead_closing lineComments hblanks rest).takeTrivia_eq]
    rfl
  rw [braceTokens_eq_append (by simp) htaken, List.append_assoc]
  rfl

/-- A plain text with blanks before it is taken up to where the scan of the rest ends. -/
theorem IsPlain.takeTokens_eq (lineComments : Bool) {scanned : Scanned}
    (hplain : IsPlain 0 text) (hblanks : ∀ c ∈ blanks, isAsciiBlank c = true)
    (hne : text ++ rest ≠ [])
    (hfirst : ∀ c ∈ (text ++ rest).head?, isAsciiBlank c = false ∧ c ≠ '}')
    (hapart : StandsApart text rest) (hscan : scanStatement lineComments 0 .plain rest = scanned) :
    takeTokens lineComments (blanks ++ (text ++ rest)) =
      if scanned.ended = .opening then ([.opening blanks (text ++ scanned.text)], scanned.rest)
      else ([.text (blanks ++ (text ++ scanned.text))], scanned.rest) := by
  have hlead : IsLead lineComments blanks (text ++ rest) :=
    ⟨hblanks, fun c hc => (hfirst c hc).1, hplain.takeComment?_eq_none lineComments hapart⟩
  have hclosing : (text ++ rest).head? ≠ some '}' := fun hbrace => (hfirst '}' hbrace).2 rfl
  rw [hlead.takeTokens_eq hne hclosing, takeStatement, hplain.scanStatement_eq lineComments hapart,
    hscan]
  rfl

/-- The blanks at the front of a text, and a core that does not begin with one. -/
theorem exists_core (text : List Char) :
    ∃ front core, text = front ++ core ∧ (∀ c ∈ front, isAsciiBlank c = true) ∧
      ∀ c ∈ core.head?, isAsciiBlank c = false :=
  ⟨_, _, List.takeWhile_append_dropWhile.symm, List.all_eq_true.mp List.all_takeWhile,
    eq_false_of_head?_dropWhile⟩

/-- A plain text does not begin with a closing brace. -/
theorem IsPlain.head?_ne (hplain : IsPlain depth text) :
    ∀ c ∈ text.head?, c ≠ '}' := by
  rintro c hc rfl
  exact absurd (hplain.unreserved '}' (List.mem_of_mem_head? hc)) (by decide)

/-- A statement with its semicolon is a token, together with the blanks before it. -/
theorem braceTokens_statement (lineComments : Bool) {statement : List Char}
    (hblanks : ∀ c ∈ blanks, isAsciiBlank c = true) (hplain : IsPlain 0 statement)
    (rest : List Char) :
    braceTokens lineComments (blanks ++ statement ++ ';' :: rest) =
      .text (blanks ++ statement ++ [';']) :: braceTokens lineComments rest := by
  -- Blanks at the front of the statement are not told from those before it.
  obtain ⟨front, core, rfl, hfront, hcore⟩ := exists_core statement
  have hplain' : IsPlain 0 core :=
    hplain.of_append fun c hc => isBlank_of_isAsciiBlank (hfront c hc)
  have hlead : ∀ c ∈ blanks ++ front, isAsciiBlank c = true := by
    intro c hc
    exact (List.mem_append.mp hc).elim (hblanks c) (hfront c)
  have hfirst : ∀ c ∈ (core ++ ';' :: rest).head?, isAsciiBlank c = false ∧ c ≠ '}' := by
    intro c hc
    cases core with
    | nil =>
      cases hc
      decide
    | cons first core => exact ⟨hcore c hc, hplain'.head?_ne c hc⟩
  have hapart : StandsApart core (';' :: rest) := by
    rintro c hc
    cases hc
    simp
  have hscan : scanStatement lineComments 0 .plain (';' :: rest) = ⟨[';'], .semicolon, rest⟩ :=
    scanStatement.eq_3 lineComments 0 ';' rest (by simp)
  have htaken := hplain'.takeTokens_eq lineComments hlead (by simp) hfirst hapart hscan
  have hsource : blanks ++ (front ++ core) ++ ';' :: rest =
      blanks ++ front ++ (core ++ ';' :: rest) := by simp
  rw [hsource, braceTokens_eq_append (by simp) htaken]
  simp

/-- A header is a token, up to its opening brace. -/
theorem braceTokens_header (lineComments : Bool) {blanks header between : List Char}
    (hblanks : ∀ c ∈ blanks, isAsciiBlank c = true) (hne : header ≠ [])
    (hfirst : ∀ c ∈ header.head?, isAsciiBlank c = false) (hplain : IsPlain 0 header)
    (hbetween : ∀ c ∈ between, isBlank c = true)
    (hlast : (blanks ++ (header ++ between)).getLast? ≠ some '#') (rest : List Char) :
    braceTokens lineComments (blanks ++ (header ++ between) ++ '{' :: rest) =
      .opening blanks (header ++ between) :: braceTokens lineComments rest := by
  have hfirst' : ∀ c ∈ (header ++ (between ++ '{' :: rest)).head?,
      isAsciiBlank c = false ∧ c ≠ '}' := by
    rw [List.head?_append, Option.or_of_isSome (List.isSome_head?.mpr hne)]
    exact fun c hc => ⟨hfirst c hc, hplain.head?_ne c hc⟩
  have hapart : StandsApart header (between ++ '{' :: rest) := by
    intro c hc
    cases between with
    | nil =>
      cases hc
      rw [List.append_nil, List.getLast?_append, Option.or_of_isSome (List.getLast?_isSome.mpr hne)]
        at hlast
      exact ⟨by simp, by simp, fun _ => hlast⟩
    | cons blank between =>
      cases hc
      have hblank := hbetween c List.mem_cons_self
      refine ⟨?_, ?_, ?_⟩ <;> rintro rfl <;> exact absurd hblank (by decide)
  have hapart' : StandsApart between ('{' :: rest) := by
    rintro c hc
    cases hc
    refine ⟨by simp, by simp, fun _ hlast => ?_⟩
    exact absurd (hbetween '#' (List.mem_of_getLast? hlast)) (by decide)
  have hscan : scanStatement lineComments 0 .plain (between ++ '{' :: rest) =
      ⟨between, .opening, rest⟩ := by
    rw [(isPlain_of_isBlank hbetween).scanStatement_eq lineComments hapart', scanStatement]
    · simp [Scanned.prepend]
    · simp
  have htaken := hplain.takeTokens_eq lineComments hblanks (by simp [hne]) hfirst' hapart hscan
  rw [if_pos rfl] at htaken
  have hsource : blanks ++ (header ++ between) ++ '{' :: rest =
      blanks ++ (header ++ (between ++ '{' :: rest)) := by simp
  rw [hsource, braceTokens_eq_append (by simp [hne]) htaken]
  rfl

/-- Blanks at the end of a body are a token. -/
theorem braceTokens_blank (lineComments : Bool) (hne : blanks ≠ [])
    (hblanks : ∀ c ∈ blanks, isBlank c = true) (hrest : ∀ c ∈ rest.head?, c = '}') :
    braceTokens lineComments (blanks ++ rest) = .text blanks :: braceTokens lineComments rest := by
  obtain ⟨front, core, rfl, hfront, hcore⟩ := exists_core blanks
  by_cases hempty : core = []
  · subst hempty
    rw [List.append_nil] at hne ⊢
    have htext : BraceToken.ofText front = [.text front] := by simp [BraceToken.ofText, hne]
    cases rest with
    | nil =>
      have htrivia := (isLead_nil lineComments hfront).takeTrivia_eq
      have htaken : takeTokens lineComments (front ++ []) = (BraceToken.ofText front, []) := by
        rw [takeTokens, htrivia]
        rfl
      rw [braceTokens_eq_append (by simpa using hne) htaken, htext]
      rfl
    | cons c rest =>
      obtain rfl := hrest c rfl
      have hclosing := braceTokens_closing lineComments (List.forall_mem_nil _) rest
      rw [braceTokens_closing lineComments hfront, htext]
      exact congrArg _ hclosing.symm
  · -- A blank that is not an ASCII one begins a statement, which ends with the body.
    have hplain : IsPlain 0 core := isPlain_of_isBlank fun c hc =>
      hblanks c (List.mem_append_right _ hc)
    have hfirst : ∀ c ∈ (core ++ rest).head?, isAsciiBlank c = false ∧ c ≠ '}' := by
      rw [List.head?_append, Option.or_of_isSome (List.isSome_head?.mpr hempty)]
      exact fun c hc => ⟨hcore c hc, hplain.head?_ne c hc⟩
    have hapart : StandsApart core rest := by
      intro c hc
      simp [hrest c hc]
    have hscan : scanStatement lineComments 0 .plain rest = ⟨[], .stop, rest⟩ := by
      cases rest with
      | nil => rfl
      | cons c rest =>
        rw [hrest c rfl]
        exact scanStatement.eq_3 lineComments 0 '}' rest (by simp)
    have htaken := hplain.takeTokens_eq lineComments hfront (by simp [hempty]) hfirst hapart hscan
    rw [List.append_assoc, braceTokens_eq_append (by simp [hempty]) htaken]
    simp

/-! ### Written bodies -/

/-- What can be written in a body: declarations, rules and at-rules with the blanks before them, and at
the end a text of blanks. -/
inductive IsBody : List Node → Prop
  | empty : IsBody []
  | blank {blanks : List Char} (hne : blanks ≠ []) (hblanks : ∀ c ∈ blanks, isBlank c = true) :
      IsBody [.text blanks]
  | declaration {blanks statement : List Char} {nodes : List Node}
      (hblanks : ∀ c ∈ blanks, isAsciiBlank c = true) (hstatement : IsPlain 0 statement)
      (hnodes : IsBody nodes) : IsBody (.text (blanks ++ statement ++ [';']) :: nodes)
  | rule {before selector between : List Char} {body nodes : List Node}
      (hbefore : ∀ c ∈ before, isAsciiBlank c = true) (hselector : IsPlain 0 selector)
      (hne : selector ≠ []) (htrimmed : trim selector = selector)
      (hat : selector.head? ≠ some '@') (hproperty : isNestedProperty selector = false)
      (hbetween : ∀ c ∈ between, isBlank c = true) (hbody : IsBody body) (hnodes : IsBody nodes) :
      IsBody (.group (.rule before selector between) .braces body :: nodes)
  | atRule {blanks header : List Char} {body nodes : List Node}
      (hblanks : ∀ c ∈ blanks, isAsciiBlank c = true) (hheader : IsPlain 0 header)
      (hat : header.head? = some '@') (hbody : IsBody body) (hnodes : IsBody nodes) :
      IsBody (.group (.block (blanks ++ header)) .braces body :: nodes)

theorem headers_text_cons (text : List Char) (nodes : List Node) :
    headers (.text text :: nodes) = headers nodes := by
  rw [headers, walk, Node.walk]
  rfl

theorem headers_group_cons (header : Header) (enclosure : Enclosure) (body nodes : List Node) :
    headers (.group header enclosure body :: nodes) = header :: (headers body ++ headers nodes) := by
  rw [headers, walk, Node.walk]
  simp [listing, headers]

/-- No header of a tree runs into its opening brace. -/
def IsApart (nodes : List Node) : Prop :=
  ∀ header ∈ headers nodes, header.text.getLast? ≠ some '#'

theorem isApart_text_cons :
    IsApart (.text text :: nodes) ↔ IsApart nodes := by
  unfold IsApart
  rw [headers_text_cons]

theorem isApart_group_cons {header : Header} {enclosure : Enclosure} {body : List Node} :
    IsApart (.group header enclosure body :: nodes) ↔
      header.text.getLast? ≠ some '#' ∧ IsApart body ∧ IsApart nodes := by
  unfold IsApart
  rw [headers_group_cons, List.forall_mem_cons, List.forall_mem_append]

/-- A trimmed selector with blanks around it heads a rule. -/
theorem Header.ofBraces_rule {before selector between : List Char} (htrimmed : trim selector = selector)
    (hat : selector.head? ≠ some '@') (hproperty : isNestedProperty selector = false)
    (hbetween : ∀ c ∈ between, isBlank c = true) :
    Header.ofBraces before (selector ++ between) = .rule before selector between := by
  have hselector : trimEnd (selector ++ between) = selector := by
    rw [trimEnd_append hbetween, trimEnd_eq_self htrimmed]
  have hblanks : trailingBlanks (selector ++ between) = between := by
    rw [trailingBlanks_append hbetween, trailingBlanks_eq_nil htrimmed, List.nil_append]
  simp only [Header.ofBraces, hselector, hblanks, hproperty, Bool.or_false, decide_eq_true_eq]
  rw [if_neg hat]

/-- A header with an at sign heads a block. -/
theorem Header.ofBraces_atRule {header : List Char} (hat : header.head? = some '@') :
    Header.ofBraces blanks header = .block (blanks ++ header) := by
  have hat' : (trimEnd header).head? = some '@' := by
    have happend := trimEnd_append_trailingBlanks header
    cases hend : trimEnd header with
    | nil =>
      rw [hend, List.nil_append] at happend
      rw [← happend, trailingBlanks, List.head?_reverse] at hat
      have hblank := List.all_eq_true.mp List.all_takeWhile _ (List.mem_of_getLast? hat)
      exact absurd hblank (by decide)
    | cons c front =>
      rw [hend] at happend
      rw [← happend] at hat
      exact hat
  simp [Header.ofBraces, hat']

/-- The tokens of a tree, wherever its level ends, build the tree on the level that is open. -/
def IsBuilt (lineComments : Bool) (nodes : List Node) : Prop :=
  ∀ (rest : List Char), (∀ c ∈ rest.head?, c = '}') → ∀ (outline : Outline Unit),
    (braceTokens lineComments (print nodes ++ rest)).foldl Outline.addBraceToken outline =
      (braceTokens lineComments rest).foldl Outline.addBraceToken (outline.addAll nodes)

/-- A group is entered, its body is built inside it, and the closing brace leaves it. -/
theorem IsBuilt.group {lineComments : Bool} {blanks text : List Char} {body nodes : List Node}
    (hopening : ∀ rest, braceTokens lineComments (blanks ++ text ++ '{' :: rest) =
      .opening blanks text :: braceTokens lineComments rest)
    (hbody : IsBuilt lineComments body) (hnodes : IsBuilt lineComments nodes) :
    IsBuilt lineComments (.group (.ofBraces blanks text) .braces body :: nodes) := by
  intro rest hrest outline
  have hclosing := braceTokens_closing lineComments (List.forall_mem_nil _) (print nodes ++ rest)
  have hinside : ∀ c ∈ ('}' :: (print nodes ++ rest)).head?, c = '}' := by
    rintro c hc
    cases hc
    rfl
  calc
    _ = (braceTokens lineComments (blanks ++ text ++
          '{' :: (print body ++ '}' :: (print nodes ++ rest)))).foldl Outline.addBraceToken outline := by
      simp [print, Node.print, Enclosure.opening, Enclosure.closing]
    _ = (braceTokens lineComments ('}' :: (print nodes ++ rest))).foldl Outline.addBraceToken
          ((outline.enter () (.ofBraces blanks text)).addAll body) := by
      rw [hopening, List.foldl_cons, hbody _ hinside]
      rfl
    _ = (braceTokens lineComments (print nodes ++ rest)).foldl Outline.addBraceToken
          (outline.add (.group (.ofBraces blanks text) .braces body)) := by
      rw [← List.nil_append ('}' :: _), hclosing]
      simp [BraceToken.ofText, Outline.addBraceToken, Outline.enter, Outline.addAll, Outline.leave,
        Outline.add]
    _ = _ := by
      rw [hnodes rest hrest]
      simp [Outline.addAll, Outline.add]

/-- A written body is built if none of its headers runs into its brace. -/
theorem IsBody.isBuilt (lineComments : Bool) (hnodes : IsBody nodes)
    (hapart : IsApart nodes) : IsBuilt lineComments nodes := by
  induction hnodes with
  | empty =>
    intro rest hrest outline
    simp [print, Outline.addAll]
  | blank hne hblanks =>
    intro rest hrest outline
    rw [print, print, Node.print, List.append_nil, braceTokens_blank lineComments hne hblanks hrest]
    rfl
  | @declaration blanks statement nodes hblanks hstatement hnodes ih =>
    intro rest hrest outline
    have hsource : print (.text (blanks ++ statement ++ [';']) :: nodes) ++ rest =
        blanks ++ statement ++ ';' :: (print nodes ++ rest) := by
      simp [print, Node.print]
    rw [hsource, braceTokens_statement lineComments hblanks hstatement, List.foldl_cons,
      ih (isApart_text_cons.mp hapart) rest hrest]
    simp [Outline.addBraceToken, Outline.add, Outline.addAll]
  | @rule before selector between body nodes hbefore hselector hne htrimmed hat hproperty hbetween
      hbody hnodes ihbody ihnodes =>
    obtain ⟨hlast, hapartBody, hapartNodes⟩ := isApart_group_cons.mp hapart
    rw [← Header.ofBraces_rule htrimmed hat hproperty hbetween] at hlast ⊢
    rw [Header.ofBraces_text] at hlast
    have hfirst : ∀ c ∈ selector.head?, isAsciiBlank c = false := by
      intro c hc
      rw [← Bool.not_eq_true]
      exact fun hblank => Bool.eq_false_iff.mp (head?_of_trimmed htrimmed c hc)
        (isBlank_of_isAsciiBlank hblank)
    exact .group (braceTokens_header lineComments hbefore hne hfirst hselector hbetween hlast)
      (ihbody hapartBody) (ihnodes hapartNodes)
  | @atRule blanks header body nodes hblanks hheader hat hbody hnodes ihbody ihnodes =>
    obtain ⟨hlast, hapartBody, hapartNodes⟩ := isApart_group_cons.mp hapart
    have hne : header ≠ [] := by
      rintro rfl
      cases hat
    have hfirst : ∀ c ∈ header.head?, isAsciiBlank c = false := by
      rw [hat]
      rintro c hc
      cases hc
      rfl
    have hopening := @braceTokens_header lineComments blanks header [] hblanks hne hfirst hheader
      (List.forall_mem_nil _) (by rwa [List.append_nil])
    rw [List.append_nil] at hopening
    rw [← Header.ofBraces_atRule hat]
    exact .group hopening (ihbody hapartBody) (ihnodes hapartNodes)

/-- A written tree none of whose headers runs into its brace is recovered from its text. -/
theorem IsBody.readBraces_print (lineComments : Bool) (hnodes : IsBody nodes)
    (hapart : IsApart nodes) : readBraces lineComments (print nodes) = nodes := by
  have hbuilt := hnodes.isBuilt lineComments hapart [] nofun .empty
  rw [List.append_nil, braceTokens_nil] at hbuilt
  rw [readBraces, hbuilt]
  simp [Outline.addAll, Outline.finish, Outline.leaveWhile, Outline.leaveWhile.go, Outline.empty]

/-! ### Headers that run into their brace -/

/-- A statement that is nothing but an opening brace is scanned from the brace. -/
theorem scanStatement_eq_nil {state : StatementState}
    (hended : (scanStatement lineComments depth state text).ended = .opening)
    (hempty : (scanStatement lineComments depth state text).text = []) :
    state = .plain ∧ text.head? = some '{' := by
  revert hended hempty
  fun_cases scanStatement lineComments depth state text
  case case1 | case11 =>
    intro hended
    cases hended
  case case10 hopening => exact fun _ _ => ⟨rfl, congrArg some hopening.1⟩
  all_goals
    intro _ hempty
    cases hempty

/-- A state in which a number sign can be passed over without a look at what comes after it. -/
def StatementState.passesSharp : StatementState → Bool
  | .escape => true
  | .quoted mark | .quotedEscape mark => mark == '#'
  | .plain | .blockComment | .lineComment | .interpolation _ => false

/-- A statement that opens a group and ends with a number sign has a backslash in it, unless its scan
began in a state that passes over the sign. -/
def HasBackslash (state : StatementState) (scanned : Scanned) : Prop :=
  scanned.ended = .opening → scanned.text.getLast? = some '#' →
    '\\' ∈ scanned.text ∨ state.passesSharp = true

theorem HasBackslash.cons {lineComments : Bool} {depth : Nat} {state next : StatementState} {c : Char}
    {text : List Char} (hscanned : HasBackslash next (scanStatement lineComments depth next text))
    (hescape : next.passesSharp = true → c = '\\' ∨ state.passesSharp = true)
    (hsharp : c = '#' → next = .plain → text.head? = some '{' → state.passesSharp = true) :
    HasBackslash state ((scanStatement lineComments depth next text).cons c) := by
  intro hended hlast
  by_cases hempty : (scanStatement lineComments depth next text).text = []
  · -- The sign is the last character before the brace.
    obtain ⟨hnext, hhead⟩ := scanStatement_eq_nil hended hempty
    rw [Scanned.cons, hempty] at hlast
    exact .inr (hsharp (Option.some.inj hlast) hnext hhead)
  · obtain ⟨second, others, hothers⟩ := List.exists_cons_of_ne_nil hempty
    rw [Scanned.cons, hothers, List.getLast?_cons_cons, ← hothers] at hlast
    rcases hscanned hended hlast with hmem | hpasses
    · exact .inl (List.mem_cons_of_mem c hmem)
    · rcases hescape hpasses with rfl | hpasses
      · exact .inl List.mem_cons_self
      · exact .inr hpasses

theorem HasBackslash.cons_of_cons {state : StatementState} {c second : Char} {scanned : Scanned}
    (hscanned : HasBackslash state (scanned.cons second)) :
    HasBackslash state ((scanned.cons second).cons c) := by
  intro hended hlast
  exact (hscanned hended hlast).imp_left (List.mem_cons_of_mem c)

theorem hasBackslash_scanStatement (lineComments : Bool) (depth : Nat) (state : StatementState)
    (text : List Char) : HasBackslash state (scanStatement lineComments depth state text) := by
  fun_induction scanStatement lineComments depth state text
  case case1 | case10 | case11 =>
    intro _ hlast
    cases hlast
  case case9 =>
    intro hended
    cases hended
  case case2 ih | case16 ih =>
    exact .cons_of_cons (.cons ih (by simp [StatementState.passesSharp]) (by simp))
  case case4 hquote ih =>
    refine ih.cons ?_ (by simp)
    rcases hquote with rfl | rfl <;> simp [StatementState.passesSharp]
  case case13 ih => exact ih.cons (by simp [StatementState.passesSharp]) fun _ _ _ => rfl
  case case14 state ih | case18 state ih | case19 state ih =>
    -- A state that depends on the character is not left by a number sign.
    refine ih.cons ?_ ?_ <;> grind [StatementState.passesSharp]
  all_goals
    rename_i ih
    refine ih.cons ?_ ?_ <;> simp_all [StatementState.passesSharp]

/-- What is read as a header ends with a number sign only after a backslash. -/
theorem mem_of_opening_mem_takeTokens {head : List Char}
    (hmem : .opening blanks head ∈ (takeTokens lineComments text).1)
    (hlast : (blanks ++ head).getLast? = some '#') : '\\' ∈ head := by
  have hlead := isLead_takeTrivia lineComments text
  have hnone {content : List Char} : .opening blanks head ∉ BraceToken.ofText content := by
    rw [BraceToken.ofText]
    split <;> simp
  revert hmem
  fun_cases takeTokens lineComments text with
  | case1 comments blanks' lead htaken => simp [lead, hnone]
  | case2 comments blanks' lead rest htaken => simp [lead, hnone]
  | case3 comments blanks' lead rest hrest hclosing scanned hended htaken =>
    intro hmem
    rw [List.mem_append, List.mem_singleton] at hmem
    obtain ⟨rfl, rfl⟩ := BraceToken.opening.inj (hmem.resolve_left hnone)
    rw [htaken] at hlead
    have hsharp : scanned.text.getLast? = some '#' := by
      rw [List.getLast?_append] at hlast
      refine (Option.or_eq_some_iff.mp hlast).resolve_right fun hblank => ?_
      exact absurd (hlead.blank '#' (List.mem_of_getLast? hblank.2)) (by decide)
    exact (hasBackslash_scanStatement lineComments 0 .plain rest hended hsharp).resolve_right
      (by simp [StatementState.passesSharp])
  | case4 comments blanks' lead rest hrest hclosing scanned hended htaken => simp [lead, hnone]

theorem mem_of_opening_mem_braceTokens {head : List Char}
    (hmem : .opening blanks head ∈ braceTokens lineComments text)
    (hlast : (blanks ++ head).getLast? = some '#') : '\\' ∈ head := by
  fun_induction braceTokens lineComments text with
  | case1 text taken _ ih =>
    rcases List.mem_append.mp hmem with hmem | hmem
    · exact mem_of_opening_mem_takeTokens hmem hlast
    · exact ih hmem
  | case2 text taken _ => exact mem_of_opening_mem_takeTokens hmem hlast

theorem mem_of_mem_headers_readBraces {header : Header}
    (hmem : header ∈ headers (readBraces lineComments text))
    (hlast : header.text.getLast? = some '#') : '\\' ∈ header.text := by
  rw [headers, walk_readBraces listing_regular, List.mem_flatMap] at hmem
  obtain ⟨token, htoken, hmem⟩ := hmem
  cases token with
  | opening blanks head =>
    rw [List.mem_singleton.mp hmem, Header.ofBraces_text] at hlast ⊢
    exact List.mem_append_right _ (mem_of_opening_mem_braceTokens htoken hlast)
  | text content => cases hmem
  | closing => cases hmem

theorem IsPlain.notMem (hplain : IsPlain depth text) :
    '\\' ∉ text :=
  fun hmem => absurd (hplain.unreserved _ hmem) (by decide)

/-- A written tree has no backslash in its headers. -/
theorem IsBody.notMem_of_mem_headers (hnodes : IsBody nodes) {header : Header}
    (hmem : header ∈ headers nodes) : '\\' ∉ header.text := by
  have hascii {blanks : List Char} (hblanks : ∀ c ∈ blanks, isAsciiBlank c = true) :
      '\\' ∉ blanks :=
    (isPlain_of_isBlank fun c hc => isBlank_of_isAsciiBlank (hblanks c hc)).notMem
  induction hnodes with
  | empty | blank => cases hmem
  | declaration hblanks hstatement hnodes ih => exact ih hmem
  | rule hbefore hselector hne htrimmed hat hproperty hbetween hbody hnodes ihbody ihnodes =>
    rw [headers_group_cons, List.mem_cons, List.mem_append] at hmem
    rcases hmem with rfl | hmem | hmem
    · simp [Header.text, hascii hbefore, hselector.notMem, (isPlain_of_isBlank hbetween).notMem]
    · exact ihbody hmem
    · exact ihnodes hmem
  | atRule hblanks hheader hat hbody hnodes ihbody ihnodes =>
    rw [headers_group_cons, List.mem_cons, List.mem_append] at hmem
    rcases hmem with rfl | hmem | hmem
    · simp [Header.text, hascii hblanks, hheader.notMem]
    · exact ihbody hmem
    · exact ihnodes hmem

theorem IsBody.readBraces_print_eq_self_iff (lineComments : Bool)
    (hnodes : IsBody nodes) : readBraces lineComments (print nodes) = nodes ↔ IsApart nodes := by
  refine ⟨fun hsame header hmem hlast => ?_, hnodes.readBraces_print lineComments⟩
  rw [← hsame] at hmem
  have hmem' := mem_of_mem_headers_readBraces hmem hlast
  rw [hsame] at hmem
  exact hnodes.notMem_of_mem_headers hmem hmem'

/-- A tree of declarations, rules and at-rules is recovered from its text in css and in scss, just when
none of its headers ends with a number sign before the opening brace. -/
theorem read_print_eq_self_iff {nodes : List Node} (hnodes : IsBody nodes) :
    (read .css (print nodes) = nodes ↔ IsApart nodes) ∧
      (read .scss (print nodes) = nodes ↔ IsApart nodes) :=
  ⟨hnodes.readBraces_print_eq_self_iff false, hnodes.readBraces_print_eq_self_iff true⟩

/-- An at-rule with a rule in it, a declaration in that rule, and blanks at the end of each body. -/
def nestedSheet : List Node :=
  [.group (.block ([] ++ "@media (width > 1px) ".toList)) .braces
      [.text ("\n  ".toList ++ "--size: [a]".toList ++ [';']),
        .group (.rule "\n  ".toList "a:not(#b) > c/d, e".toList " ".toList) .braces
          [.text ("\n    ".toList ++ "color: #fff".toList ++ [';']), .text "\n  ".toList],
        .text "\n".toList],
    .group (.rule "\n".toList "#".toList "\t".toList) .braces [], .text "\n".toList]

theorem isBody_nestedSheet : IsBody nestedSheet := by
  refine .atRule (by decide +kernel) (by decide +kernel) (by decide +kernel) ?_ ?_
  · refine .declaration (by decide +kernel) (by decide +kernel) (.rule ?_ ?_ ?_ ?_ ?_ ?_ ?_
      (.declaration ?_ ?_ (.blank ?_ ?_)) (.blank ?_ ?_)) <;> decide +kernel
  · refine .rule ?_ ?_ ?_ ?_ ?_ ?_ ?_ .empty (.blank ?_ ?_) <;> decide +kernel

theorem read_print_nestedSheet :
    IsBody nestedSheet ∧ IsApart nestedSheet ∧ read .css (print nestedSheet) = nestedSheet ∧
      read .scss (print nestedSheet) = nestedSheet := by
  have hapart : IsApart nestedSheet := by
    unfold IsApart
    decide +kernel
  have hread := read_print_eq_self_iff isBody_nestedSheet
  exact ⟨isBody_nestedSheet, hapart, hread.1.mpr hapart, hread.2.mpr hapart⟩

/-- A rule whose selector ends with a number sign. -/
def signSheet : List Node :=
  [.group (.rule [] "a#".toList []) .braces []]

/-- A selector that ends with a number sign runs into its brace: the text is read as an
interpolation. -/
theorem read_print_signSheet :
    IsBody signSheet ∧ print signSheet = "a#\x7b\x7d".toList ∧
      (read .css (print signSheet) = [.text "a#\x7b\x7d".toList] ∧
        read .css (print signSheet) ≠ signSheet) ∧
      (read .scss (print signSheet) = [.text "a#\x7b\x7d".toList] ∧
        read .scss (print signSheet) ≠ signSheet) := by
  have hbody : IsBody signSheet := by
    refine .rule ?_ ?_ ?_ ?_ ?_ ?_ ?_ .empty .empty <;> decide +kernel
  have hprint : print signSheet = "a#\x7b\x7d".toList := by decide +kernel
  have hread (lineComments : Bool) :
      readBraces lineComments (print signSheet) = [.text "a#\x7b\x7d".toList] := by
    have htokens :
        braceTokens lineComments "a#\x7b\x7d".toList = [.text "a#\x7b\x7d".toList] := by
      simp [braceTokens, takeTokens, takeTrivia, takeComment?, takeStatement, scanStatement,
        Scanned.cons, BraceToken.ofText, Text.isAsciiBlank]
    rw [hprint, readBraces, htokens]
    rfl
  have hother (lineComments : Bool) : readBraces lineComments (print signSheet) ≠ signSheet := by
    rw [hread]
    simp [signSheet]
  exact ⟨hbody, hprint, ⟨hread false, hother false⟩, hread true, hother true⟩

end StyleMigration.Sheet
