import StyleMigration.Proofs.Walk.Statements

/-!
Stylesheets in braces read by walking over their bytes. The body of a group is read by the same walk that
reads the group, and the walk goes on behind the brace that closes it. What one walk over a level reads is what
the tokens of the text add to a tree whose innermost group is that level (`isLevelRead`), up to the closing
brace or the end of the text at which it stops. So the whole stylesheet is read without a fault, and gives the
tree that its tokens make (`walkBraces_eq`).
-/

set_option autoImplicit false

namespace StyleMigration.Walk

open Text Sheet

/-! ### The reader -/

/-- Whether a header names a property whose parts are nested in the body. -/
def walkNestedProperty (header : List Char) : Except Fault Bool := do
  let header := trim header
  match find? [':'] header with
  | none => return false
  | some colon => do
    let name ← cut header 0 colon
    let value ← cutFrom header colon
    let rest ← cutFrom value 1
    return !name.isEmpty && (trimEnd name).all isPropertyChar && (rest.isEmpty || rest.head?.any isBlank)

/-- The header of a group in braces, with the blanks before it. -/
def walkHeader (blanks header : List Char) : Except Fault Header := do
  let selector := trimEnd header
  let isProperty ← walkNestedProperty selector
  if selector.head? = some '@' || isProperty then return .block (blanks ++ header)
  else return .rule blanks selector (← cutFrom header (byteLength selector))

/-- A text node, left out if the text is empty. -/
def textNodes (text : List Char) : List Node :=
  if text.isEmpty then [] else [.text text]

/-- How a body is marked off that ends at an offset, and the offset behind the group. -/
def closeBody (text : List Char) (stop : Nat) : Enclosure × Nat :=
  if stop < (octets text).length then (.braces, stop + 1) else (.openBrace, stop)

/-- The nodes from an offset on, up to a closing brace that belongs to no group among them, and its offset. -/
def walkNodes (lineComments : Bool) (text : List Char) (i : Nat) : Except Fault (List Node × Nat) := do
  let (blanksStart, start) ← skipTrivia lineComments text i
  let lead := textNodes (← cut text i blanksStart)
  let blanks ← cut text blanksStart start
  if start < (octets text).length then do
    if (← itemAt (octets text) start) = '}' then return (lead ++ textNodes blanks, start)
    else do
      let (ended, stop) ← walkStatement lineComments text 0 none start
      if ended = .opening then do
        let header ← walkHeader blanks (← cut text start stop)
        if _h : i < (octets text).length ∧ i ≤ stop then do
          let (body, bodyStop) ← walkNodes lineComments text (stop + 1)
          let (enclosure, next) := closeBody text bodyStop
          if _h : i < next then do
            let (nodes, last) ← walkNodes lineComments text next
            return (lead ++ .group header enclosure body :: nodes, last)
          else throw .stuck
        else throw .stuck
      else do
        let statement ← cut text blanksStart stop
        if _h : i < (octets text).length ∧ i < stop then do
          let (nodes, last) ← walkNodes lineComments text stop
          return (lead ++ .text statement :: nodes, last)
        else throw .stuck
  else
    return (lead ++ textNodes blanks, start)
termination_by (octets text).length - i

/-- The nodes of the top level from an offset on. A closing brace that belongs to no group is text. -/
def walkTop (lineComments : Bool) (text : List Char) (i : Nat) : Except Fault (List Node) := do
  let (nodes, stop) ← walkNodes lineComments text i
  if stop < (octets text).length then do
    if _h : i < (octets text).length ∧ i ≤ stop then
      return nodes ++ .text ['}'] :: (← walkTop lineComments text (stop + 1))
    else throw .stuck
  else
    return nodes
termination_by (octets text).length - i

/-- Reads a stylesheet in braces over its bytes. -/
def walkBraces (lineComments : Bool) (text : List Char) : Except Fault (List Node) :=
  walkTop lineComments text 0

/-! ### Headers -/

theorem walkNestedProperty_eq (header : List Char) :
    walkNestedProperty header = .ok (isNestedProperty header) := by
  rw [walkNestedProperty, isNestedProperty, find?_singleton]
  generalize trim header = inner
  have hat : IsAt inner 0 (inner.takeWhile (· != ':') ++ inner.dropWhile (· != ':')) := by
    rw [List.takeWhile_append_dropWhile]
    exact .start inner
  have hcolon := List.head?_dropWhile_not (· != ':') inner
  cases hvalue : inner.dropWhile (· != ':') with
  | nil => rfl
  | cons c rest =>
    rw [hvalue] at hat hcolon
    have hc : c = ':' := by simpa using hcolon
    subst hc
    have hname := hat.cut_eq
    have hrest := hat.skip.cutFrom_eq
    have hafter := ((IsAt.start (':' :: rest)).next_of_isAscii (by decide)).cutFrom_eq
    rw [Nat.zero_add] at hname hrest hafter
    rw [if_neg (List.cons_ne_nil _ _)]
    dsimp only
    rw [hname, ok_bind, hrest, ok_bind, hafter]
    rfl

theorem walkHeader_eq (blanks header : List Char) :
    walkHeader blanks header = .ok (.ofBraces blanks header) := by
  have hat : IsAt header 0 (trimEnd header ++ trailingBlanks header) := by
    rw [trimEnd_append_trailingBlanks]
    exact .start header
  have hbetween := hat.skip.cutFrom_eq
  rw [Nat.zero_add] at hbetween
  rw [walkHeader, walkNestedProperty_eq, ok_bind, hbetween, Header.ofBraces]
  split <;> rfl

/-! ### What tokens add to a tree -/

/-- The tree that the tokens of a text make of a tree under construction. -/
def readOn (lineComments : Bool) (outline : Outline Unit) (text : List Char) : List Node :=
  ((braceTokens lineComments text).foldl Outline.addBraceToken outline).finish .openBrace

theorem addAll_append (outline : Outline Unit) (first second : List Node) :
    outline.addAll (first ++ second) = (outline.addAll first).addAll second := by
  simp [Outline.addAll]

theorem addAll_cons (outline : Outline Unit) (node : Node) (nodes : List Node) :
    outline.addAll (node :: nodes) = (outline.add node).addAll nodes := by
  simp [Outline.addAll, Outline.add]

theorem foldl_ofText (outline : Outline Unit) (text : List Char) :
    (BraceToken.ofText text).foldl Outline.addBraceToken outline = outline.addAll (textNodes text) := by
  rw [BraceToken.ofText, textNodes]
  split <;> rfl

section Tree

variable {lineComments : Bool} {text comments blanks rest : List Char}

theorem readOn_closing (outline : Outline Unit) (more : List Char) :
    readOn lineComments outline ('}' :: more) =
      readOn lineComments (outline.addBraceToken .closing) more := by
  have htokens := @braceTokens_closing lineComments [] (by simp) more
  rw [List.nil_append] at htokens
  rw [readOn, htokens]
  rfl

theorem readOn_of_takeTokens {tokens : List BraceToken} (hne : text ≠ [])
    (htaken : takeTokens lineComments text = (tokens, rest)) (outline : Outline Unit) :
    readOn lineComments outline text =
      readOn lineComments (tokens.foldl Outline.addBraceToken outline) rest := by
  rw [readOn, braceTokens_eq_append hne htaken, List.foldl_append]
  rfl

variable (htrivia : takeTrivia lineComments text = (comments, blanks, rest))
include htrivia

/-- At the end of a level only comments and blanks are left. -/
theorem readOn_end (hrest : ∀ c ∈ rest.head?, c = '}') (outline : Outline Unit) :
    readOn lineComments outline text =
      readOn lineComments (outline.addAll (textNodes comments ++ textNodes blanks)) rest := by
  have hsource := takeTrivia_append lineComments text
  rw [htrivia] at hsource
  cases rest with
  | nil =>
    have htaken : takeTokens lineComments text = (BraceToken.ofText comments ++ BraceToken.ofText blanks, []) := by
      rw [takeTokens, htrivia]
    by_cases hne : text = []
    · subst hne
      simp_all [textNodes, Outline.addAll]
    · rw [readOn_of_takeTokens hne htaken, List.foldl_append, foldl_ofText, foldl_ofText, addAll_append]
  | cons c more =>
    obtain rfl := hrest c rfl
    have htaken : takeTokens lineComments text =
        (BraceToken.ofText comments ++ BraceToken.ofText blanks ++ [.closing], more) := by
      rw [takeTokens, htrivia]
      rfl
    have hne : text ≠ [] := by
      rw [← hsource]
      simp
    rw [readOn_of_takeTokens hne htaken, List.foldl_append, List.foldl_append, foldl_ofText, foldl_ofText,
      readOn_closing, addAll_append]
    rfl

variable (hne : rest ≠ []) (hclosing : rest.head? ≠ some '}')
include hne hclosing

theorem takeTokens_statement :
    takeTokens lineComments text =
      if (takeStatement lineComments rest).ended = .opening then
        (BraceToken.ofText comments ++ [.opening blanks (takeStatement lineComments rest).text],
          (takeStatement lineComments rest).rest)
      else
        (BraceToken.ofText comments ++ [.text (blanks ++ (takeStatement lineComments rest).text)],
          (takeStatement lineComments rest).rest) := by
  rw [takeTokens, htrivia]
  dsimp only
  split
  · exact absurd rfl hne
  · exact absurd rfl hclosing
  · rfl

/-- A statement is a node of the level; one that ends with an opening brace heads a group. -/
theorem readOn_statement (outline : Outline Unit) :
    readOn lineComments outline text =
      readOn lineComments
        (if (takeStatement lineComments rest).ended = .opening then
          (outline.addAll (textNodes comments)).enter ()
            (.ofBraces blanks (takeStatement lineComments rest).text)
        else
          (outline.addAll (textNodes comments)).add
            (.text (blanks ++ (takeStatement lineComments rest).text)))
        (takeStatement lineComments rest).rest := by
  have hsource := takeTrivia_append lineComments text
  rw [htrivia] at hsource
  have hne' : text ≠ [] := by
    rw [← hsource]
    exact List.append_ne_nil_of_right_ne_nil _ hne
  have htaken := takeTokens_statement htrivia hne hclosing
  split
  · rename_i hended
    rw [if_pos hended] at htaken
    rw [readOn_of_takeTokens hne' htaken, List.foldl_append, foldl_ofText]
    rfl
  · rename_i hended
    rw [if_neg hended] at htaken
    rw [readOn_of_takeTokens hne' htaken, List.foldl_append, foldl_ofText]
    rfl

end Tree

/-! ### Levels -/

section Level

variable {lineComments : Bool} {text rest : List Char} {i : Nat}

/-- A group whose body ends at a closing brace or with the text is a node of the level around it. -/
theorem closeBody_eq {after : List Char} {stop : Nat} (hat : IsAt text stop after)
    (hafter : ∀ c ∈ after.head?, c = '}') :
    ∃ enclosure next more, closeBody text stop = (enclosure, next) ∧ IsAt text next more ∧ stop ≤ next ∧
      more <:+ after ∧ ∀ (outline : Outline Unit) (header : Header) (body : List Node),
        readOn lineComments ((outline.enter () header).addAll body) after =
          readOn lineComments (outline.add (.group header enclosure body)) more := by
  cases after with
  | nil =>
    have hend := hat.not_lt_octets
    refine ⟨.openBrace, stop, [], by rw [closeBody, if_neg hend], hat, Nat.le_refl _, List.suffix_refl _,
      fun outline header body => ?_⟩
    rw [readOn, readOn, braceTokens_nil]
    simp [Outline.finish, Outline.leaveWhile, Outline.leaveWhile.go, Outline.enter, Outline.addAll, Outline.add]
  | cons c more =>
    obtain rfl := hafter c rfl
    have hinside := hat.lt_octets
    refine ⟨.braces, stop + 1, more, by rw [closeBody, if_pos hinside], hat.next_of_isAscii (by decide),
      Nat.le_succ _, List.suffix_cons _ _, fun outline header body => ?_⟩
    rw [readOn_closing]
    simp [Outline.addBraceToken, Outline.enter, Outline.addAll, Outline.add, Outline.leave]

/-- The level at the offset `i` before `rest` is read without a fault up to a closing brace or the end of the
text, and what is read is what the tokens up to there add to a tree. -/
def IsLevelRead (lineComments : Bool) (text : List Char) (i : Nat) (rest : List Char) : Prop :=
  ∃ nodes stop after, walkNodes lineComments text i = .ok (nodes, stop) ∧ IsAt text stop after ∧
    i ≤ stop ∧ after <:+ rest ∧ (∀ c ∈ after.head?, c = '}') ∧
    ∀ outline, readOn lineComments outline rest = readOn lineComments (outline.addAll nodes) after

section Step

variable {comments blanks tail : List Char} (hat : IsAt text i rest)
  (htrivia : takeTrivia lineComments rest = (comments, blanks, tail))
include hat htrivia

theorem isAt_trivia : IsAt text i (comments ++ (blanks ++ tail)) := by
  have hsource := takeTrivia_append lineComments rest
  rw [htrivia, List.append_assoc] at hsource
  rwa [hsource]

/-- After its comments and blanks, a level ends or goes on with a statement. -/
theorem walkNodes_trivia {start : Nat} (hstart : start = i + byteLength comments + byteLength blanks) :
    walkNodes lineComments text i =
      if start < (octets text).length then do
        if (← itemAt (octets text) start) = '}' then
          return (textNodes comments ++ textNodes blanks, start)
        else do
          let (ended, stop) ← walkStatement lineComments text 0 none start
          if ended = .opening then do
            let header ← walkHeader blanks (← cut text start stop)
            if i < (octets text).length ∧ i ≤ stop then do
              let (body, bodyStop) ← walkNodes lineComments text (stop + 1)
              let (enclosure, next) := closeBody text bodyStop
              if i < next then do
                let (nodes, last) ← walkNodes lineComments text next
                return (textNodes comments ++ .group header enclosure body :: nodes, last)
              else throw .stuck
            else throw .stuck
          else do
            let statement ← cut text (i + byteLength comments) stop
            if i < (octets text).length ∧ i < stop then do
              let (nodes, last) ← walkNodes lineComments text stop
              return (textNodes comments ++ .text statement :: nodes, last)
            else throw .stuck
      else return (textNodes comments ++ textNodes blanks, start) := by
  have hparts := isAt_trivia hat htrivia
  rw [walkNodes, skipTrivia_eq hat, htrivia, ok_bind]
  dsimp only
  rw [hparts.cut_eq, ok_bind, hparts.skip.cut_eq, hstart]
  rfl

theorem isLevelRead_end (hend : ∀ c ∈ tail.head?, c = '}') : IsLevelRead lineComments text i rest := by
  have htail := (isAt_trivia hat htrivia).skip.skip
  have hsuffix := takeTrivia_append lineComments rest
  rw [htrivia] at hsuffix
  refine ⟨textNodes comments ++ textNodes blanks, _, tail, ?_, htail, by omega, ⟨_, hsuffix⟩, hend,
    readOn_end htrivia hend⟩
  rw [walkNodes_trivia hat htrivia rfl]
  cases tail with
  | nil =>
    rw [if_neg htail.not_lt_octets]
    rfl
  | cons c more =>
    obtain rfl := hend c rfl
    rw [if_pos htail.lt_octets, htail.itemAt_eq (by decide), ok_bind, if_pos rfl]
    rfl

variable (hne : tail ≠ []) (hclosing : tail.head? ≠ some '}')
include hne hclosing

theorem walkNodes_statement {start stop : Nat} (hstart : start = i + byteLength comments + byteLength blanks)
    (hstop : stop = start + byteLength (takeStatement lineComments tail).text) :
    walkNodes lineComments text i =
      if (takeStatement lineComments tail).ended = .opening then do
        let header ← walkHeader blanks (← cut text start stop)
        if i < (octets text).length ∧ i ≤ stop then do
          let (body, bodyStop) ← walkNodes lineComments text (stop + 1)
          let (enclosure, next) := closeBody text bodyStop
          if i < next then do
            let (nodes, last) ← walkNodes lineComments text next
            return (textNodes comments ++ .group header enclosure body :: nodes, last)
          else throw .stuck
        else throw .stuck
      else (do
        let statement ← cut text (i + byteLength comments) stop
        if i < (octets text).length ∧ i < stop then do
          let (nodes, last) ← walkNodes lineComments text stop
          return (textNodes comments ++ .text statement :: nodes, last)
        else throw .stuck) := by
  have htail := (isAt_trivia hat htrivia).skip.skip
  rw [← hstart] at htail
  obtain ⟨c, more, rfl⟩ := List.exists_cons_of_ne_nil hne
  have hc : c ≠ '}' := fun heq => hclosing (congrArg some heq)
  obtain ⟨d, hd, hcases⟩ := exists_itemAt htail
  have hd' : d ≠ '}' := by
    rcases hcases with ⟨-, rfl⟩ | ⟨-, hwide⟩
    · exact hc
    · exact ne_of_not_isAscii hwide (by decide)
  rw [walkNodes_trivia hat htrivia hstart, if_pos htail.lt_octets, hd, ok_bind, if_neg hd',
    walkStatement_eq htail, ok_bind, hstop]

/-- A statement is read up to its end, and goes with the blanks before it. -/
theorem isLevelRead_statement (hended : (takeStatement lineComments tail).ended ≠ .opening)
    (hnext : ∀ j, IsAt text j (takeStatement lineComments tail).rest →
      IsLevelRead lineComments text j (takeStatement lineComments tail).rest) :
    IsLevelRead lineComments text i rest := by
  have hparts := isAt_trivia hat htrivia
  have hsuffix := takeTrivia_append lineComments rest
  have hread := readOn_statement htrivia hne hclosing
  have hwalk := walkNodes_statement hat htrivia hne hclosing rfl rfl
  have hscanned : (takeStatement lineComments tail).source = tail := scanStatement_source lineComments 0 .plain tail
  have hshorter : (takeStatement lineComments tail).rest.length < tail.length :=
    scanStatement_rest_length lineComments 0 .plain hne hclosing
  rw [htrivia] at hsuffix
  simp only [if_neg hended] at hread
  rw [if_neg hended] at hwalk
  generalize takeStatement lineComments tail = scanned at *
  have hnone : scanned.ended.text = [] := by
    cases hother : scanned.ended with
    | opening => exact absurd hother hended
    | semicolon => rfl
    | stop => rfl
  rw [Scanned.source, hnone, List.append_nil] at hscanned
  subst hscanned
  have hpositive : 0 < byteLength scanned.text := by
    refine byteLength_pos fun hempty => ?_
    rw [hempty] at hshorter
    exact absurd hshorter (Nat.lt_irrefl _)
  have hblanks := hparts.skip
  rw [← List.append_assoc] at hblanks
  have hstatement := hblanks.cut_eq
  have hrest := hparts.skip.skip.skip
  have hlength := hrest.length_eq
  rw [byteLength_append, ← Nat.add_assoc] at hstatement
  obtain ⟨nodes, stop, last, hwalk', hlast, hle, hlastSuffix, hlastClosing, htree⟩ := hnext _ hrest
  refine ⟨textNodes comments ++ .text (blanks ++ scanned.text) :: nodes, stop, last, ?_, hlast, by omega,
    hlastSuffix.trans ⟨comments ++ blanks ++ scanned.text, by rw [← hsuffix]; simp⟩, hlastClosing,
    fun outline => ?_⟩
  · rw [hwalk, hstatement, ok_bind, if_pos ⟨by rw [length_octets]; omega, by omega⟩, hwalk']
    rfl
  · rw [hread, htree, addAll_append, addAll_cons]

/-- A group is read with its body, up to the brace that closes it. -/
theorem isLevelRead_group (hended : (takeStatement lineComments tail).ended = .opening)
    (hnext : ∀ j after, IsAt text j after → after <:+ (takeStatement lineComments tail).rest →
      IsLevelRead lineComments text j after) :
    IsLevelRead lineComments text i rest := by
  have hparts := isAt_trivia hat htrivia
  have hsuffix := takeTrivia_append lineComments rest
  have hread := readOn_statement htrivia hne hclosing
  have hwalk := walkNodes_statement hat htrivia hne hclosing rfl rfl
  have hscanned : (takeStatement lineComments tail).source = tail := scanStatement_source lineComments 0 .plain tail
  rw [htrivia] at hsuffix
  simp only [if_pos hended] at hread
  rw [if_pos hended] at hwalk
  generalize takeStatement lineComments tail = scanned at *
  rw [Scanned.source, hended, Terminator.text, List.append_assoc] at hscanned
  subst hscanned
  have hheader := hparts.skip.skip.cut_eq
  have hbody : IsAt text (i + byteLength comments + byteLength blanks + byteLength scanned.text + 1) scanned.rest :=
    hparts.skip.skip.skip.next_of_isAscii (by decide)
  have hlength := hbody.length_eq
  obtain ⟨body, bodyStop, after, hwalk', hafter, hle, hbodySuffix, hbodyClosing, htree⟩ :=
    hnext _ _ hbody (List.suffix_refl _)
  obtain ⟨enclosure, next, others, hclosed, hothers, hle', hothersSuffix, hgroup⟩ :=
    @closeBody_eq lineComments text after bodyStop hafter hbodyClosing
  obtain ⟨nodes, stop, last, hwalk'', hlast, hle'', hlastSuffix, hlastClosing, htree'⟩ :=
    hnext _ _ hothers (hothersSuffix.trans hbodySuffix)
  refine ⟨textNodes comments ++ .group (.ofBraces blanks scanned.text) enclosure body :: nodes, stop, last, ?_,
    hlast, by omega, (hlastSuffix.trans (hothersSuffix.trans hbodySuffix)).trans
      ⟨comments ++ blanks ++ scanned.text ++ ['{'], by rw [← hsuffix]; simp⟩, hlastClosing, fun outline => ?_⟩
  · rw [hwalk, hheader, ok_bind, walkHeader_eq, ok_bind, if_pos ⟨by rw [length_octets]; omega, by omega⟩, hwalk',
      ok_bind]
    dsimp only
    rw [hclosed]
    dsimp only
    rw [if_pos (by omega), hwalk'']
    rfl
  · rw [hread, htree, hgroup, htree', addAll_append, addAll_cons]

end Step

theorem isLevelRead (hat : IsAt text i rest) : IsLevelRead lineComments text i rest := by
  induction hlength : rest.length using Nat.strongRecOn generalizing rest i with
  | ind length ih =>
    subst hlength
    obtain ⟨comments, blanks, tail, htrivia⟩ :
        ∃ comments blanks tail, takeTrivia lineComments rest = (comments, blanks, tail) := ⟨_, _, _, rfl⟩
    by_cases hend : ∀ c ∈ tail.head?, c = '}'
    · exact isLevelRead_end hat htrivia hend
    have hne : tail ≠ [] := by
      rintro rfl
      exact hend (by simp)
    have hclosing : tail.head? ≠ some '}' := fun hhead => hend (by simp [hhead])
    have hshorter : (takeStatement lineComments tail).rest.length < rest.length := by
      have hsource := congrArg List.length (takeTrivia_append lineComments rest)
      have hrest : (takeStatement lineComments tail).rest.length < tail.length :=
        scanStatement_rest_length lineComments 0 .plain hne hclosing
      rw [htrivia, List.length_append, List.length_append] at hsource
      dsimp only at hsource
      omega
    by_cases hended : (takeStatement lineComments tail).ended = .opening
    · exact isLevelRead_group hat htrivia hne hclosing hended fun j after hafter hsuffix =>
        ih after.length (Nat.lt_of_le_of_lt hsuffix.length_le hshorter) hafter rfl
    · exact isLevelRead_statement hat htrivia hne hclosing hended fun j hrest => ih _ hshorter hrest rfl

/-- A closing brace at which a level ends without a group around it is text. -/
theorem walkTop_eq (hat : IsAt text i rest) {outline : Outline Unit} (haround : outline.around = []) :
    ∃ nodes, walkTop lineComments text i = .ok nodes ∧
      readOn lineComments outline rest = (outline.addAll nodes).finish .openBrace := by
  induction hlength : rest.length using Nat.strongRecOn generalizing rest i outline with
  | ind length ih =>
    subst hlength
    obtain ⟨nodes, stop, after, hwalk, hafter, hle, hsuffix, hclosing, htree⟩ :=
      @isLevelRead lineComments _ _ _ hat
    rw [walkTop, hwalk, ok_bind]
    dsimp only
    cases after with
    | nil =>
      refine ⟨nodes, ?_, ?_⟩
      · rw [if_neg hafter.not_lt_octets]
        rfl
      · rw [htree, readOn, braceTokens_nil]
        rfl
    | cons c more =>
      obtain rfl := hclosing c rfl
      have hlt := hafter.lt_octets
      have hstray : (outline.addAll nodes).addBraceToken .closing = (outline.addAll nodes).add (.text ['}']) :=
        if_pos (List.isEmpty_iff.mpr haround)
      obtain ⟨others, hothers, htree'⟩ :=
        @ih more.length hsuffix.length_le more (stop + 1) (hafter.next_of_isAscii (by decide))
          ((outline.addAll nodes).add (.text ['}'])) haround rfl
      refine ⟨nodes ++ .text ['}'] :: others, ?_, ?_⟩
      · rw [if_pos hlt, dif_pos ⟨by omega, hle⟩, hothers]
        rfl
      · rw [htree, readOn_closing, hstray, htree', addAll_append, addAll_cons]

end Level

/-- A stylesheet in braces is read over its bytes without a fault. -/
theorem walkBraces_eq (lineComments : Bool) (text : List Char) :
    walkBraces lineComments text = .ok (readBraces lineComments text) := by
  obtain ⟨nodes, hwalk, htree⟩ := @walkTop_eq lineComments text text 0 (.start text) .empty rfl
  have hnodes : readBraces lineComments text = nodes := by
    rw [readBraces, ← readOn, htree]
    simp [Outline.finish, Outline.leaveWhile, Outline.leaveWhile.go, Outline.addAll, Outline.empty]
  rw [walkBraces, hwalk, hnodes]

end StyleMigration.Walk
