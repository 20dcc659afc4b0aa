import StyleMigration.Proofs.Component.StagingName
import StyleMigration.Proofs.Component.Substitution
import StyleMigration.Proofs.Files.Search

/-!
Staging a component and putting it back. Staging writes the contents of sections until it stops, and has
recorded these and at most one more that it could not write (`Writes`, `Stops`). Staging that does not
stop writes the content of each section to the section's own staging file, leaves all else alone
(`stage_eq`) and records all sections (`isRecord_stage`). Putting back reads the staging files as they are
then, and exchanges the contents of the sections for them (`IsRecord.writeBack_eq_ok`,
`writeBack_eq_ok`).
-/

set_option autoImplicit false

namespace StyleMigration.Component

open FileTree Text

variable {path : String} {tree after : FileTree} {found : List Section} {source : List Char}

theorem sectionOf_eq_some {index : Nat} {node : Markup.Node} {sec : Section}
    (hsection : sectionOf source index node = .ok (some sec)) :
    sec.index = index ∧ sec.content = slice source sec.start sec.stop := by
  unfold sectionOf at hsection
  -- Only an element with one piece of text makes a section.
  split at hsection
  · split at hsection <;> cases hsection
    exact ⟨rfl, rfl⟩
  all_goals cases hsection

/-- Sections are numbered in order, and their contents are slices of the component. -/
theorem sectionsOf_eq_ok {index : Nat} {nodes : List Markup.Node}
    (hsections : sectionsOf source index nodes = .ok found) :
    found.map (·.index) = List.range' index found.length ∧
      ∀ sec ∈ found, sec.content = slice source sec.start sec.stop := by
  induction nodes generalizing index found with
  | nil =>
    cases hsections
    exact ⟨rfl, nofun⟩
  | cons node nodes ih =>
    rw [sectionsOf, bind_eq_ok_iff] at hsections
    obtain ⟨first?, hfirst, hrest⟩ := hsections
    cases first? with
    | none => exact ih hrest
    | some first =>
      obtain ⟨rest, htail, hfound⟩ := bind_eq_ok_iff.mp hrest
      cases hfound
      obtain ⟨hindex, hcontent⟩ := sectionOf_eq_some hfirst
      obtain ⟨hindices, hcontents⟩ := ih htail
      refine ⟨?_, List.forall_mem_cons.mpr ⟨hcontent, hcontents⟩⟩
      rw [List.map_cons, hindex, hindices, List.length_cons, List.range'_succ]

theorem sections_eq_ok (hsections : sections path source = .ok found) :
    (found.map (·.index)).Nodup ∧
      ∀ sec ∈ found, sec.content = slice source sec.start sec.stop := by
  unfold sections sectionsBy at hsections
  simp only at hsections
  split at hsections
  · cases hsections
  · obtain ⟨hindices, hcontents⟩ := sectionsOf_eq_ok (mapError_eq_ok_iff.mp hsections)
    exact ⟨hindices ▸ List.nodup_range', hcontents⟩

/-- The record of a staged section of a component. -/
def chunkOf (path : String) (part : Section × Language) : Chunk :=
  ⟨stagingPath path part.1.index part.2, part.2, part.1.start, part.1.stop, part.1.index⟩

/-- All sections of a component are recorded, in their languages. -/
structure IsRecord (tree : FileTree) (staged : Staged) (source : List Char)
    (parts : List (Section × Language)) : Prop where
  text : tree.readText staged.path = .ok source
  sections : sections staged.path source = .ok (parts.map (·.1))
  languages : ∀ part ∈ parts, Language.ofAttribute staged.path part.1.language? = .ok part.2
  chunks : staged.chunks = parts.map (chunkOf staged.path)

/-- The contents of some sections were written to their staging files, one after the other. -/
inductive Writes (path : String) :
    (before : FileTree) → List (Section × Language) → (after : FileTree) → Prop where
  | nil {tree : FileTree} : Writes path tree [] tree
  | cons {tree next after : FileTree} {part : Section × Language} {parts : List (Section × Language)}
      (hwrite : tree.writeText (chunkOf path part).stagingPath part.1.content = .ok next)
      (hrest : Writes path next parts after) : Writes path tree (part :: parts) after

/-- Why staging stopped after some of the sections were written: `recorded` are these and, if it was the
writing that failed, one more. -/
inductive Stops (path : String) (found : List Section) (after : FileTree)
    (written : List (Section × Language)) :
    (recorded : List (Section × Language)) → Option Failure → Prop where
  | never (hfound : found = written.map (·.1)) : Stops path found after written written none
  | atLanguage {sec : Section} {rest : List Section} {failure : Failure}
      (hfound : found = written.map (·.1) ++ sec :: rest)
      (hlanguage : Language.ofAttribute path sec.language? = .error failure) :
      Stops path found after written written (some failure)
  | atWrite {part : Section × Language} {rest : List Section} {cause : IoCause}
      (hfound : found = written.map (·.1) ++ part.1 :: rest)
      (hwrite : after.writeText (chunkOf path part).stagingPath part.1.content = .error cause) :
      Stops path found after written (written ++ [part])
        (some (.io (chunkOf path part).stagingPath cause))

theorem Stops.cons {path : String} {found : List Section} {after : FileTree}
    {written recorded : List (Section × Language)} {stopped : Option Failure}
    (hstops : Stops path found after written recorded stopped) (part : Section × Language) :
    Stops path (part.1 :: found) after (part :: written) (part :: recorded) stopped := by
  cases hstops with
  | never hfound => exact .never (by rw [hfound, List.map_cons])
  | atLanguage hfound hlanguage => exact .atLanguage (by rw [hfound]; rfl) hlanguage
  | atWrite hfound hwrite => exact .atWrite (by rw [hfound]; rfl) hwrite

theorem Stops.isPrefix {written recorded : List (Section × Language)} {stopped : Option Failure}
    (hstops : Stops path found after written recorded stopped) :
    recorded.map (·.1) <+: found ∧ (stopped = none → recorded.map (·.1) = found) := by
  cases hstops with
  | never hfound => exact ⟨hfound ▸ List.prefix_refl _, fun _ => hfound.symm⟩
  | atLanguage hfound hlanguage => exact ⟨hfound ▸ List.prefix_append _ _, by simp⟩
  | @atWrite part rest cause hfound hwrite =>
    refine ⟨⟨rest, ?_⟩, by simp⟩
    rw [hfound, List.map_append, List.append_assoc]
    rfl

theorem Stops.recorded_cases
    {written recorded : List (Section × Language)} {stopped : Option Failure}
    (hstops : Stops path found after written recorded stopped) :
    recorded = written ∨ ∃ part cause, recorded = written ++ [part] ∧
      stopped = some (.io (chunkOf path part).stagingPath cause) := by
  cases hstops with
  | never hfound => exact .inl rfl
  | atLanguage hfound hlanguage => exact .inl rfl
  | @atWrite part rest cause hfound hwrite => exact .inr ⟨part, cause, rfl, rfl⟩

theorem Stops.written_isPrefix
    {written recorded : List (Section × Language)} {stopped : Option Failure}
    (hstops : Stops path found after written recorded stopped) : written <+: recorded := by
  rcases hstops.recorded_cases with rfl | ⟨last, cause, rfl, -⟩
  · exact List.prefix_refl _
  · exact List.prefix_append _ _

/-- Staging writes sections until it stops. -/
theorem exists_writes_stageSections (path : String) (tree : FileTree) (found : List Section) :
    ∃ written recorded, Writes path tree written (stageSections path tree found).tree ∧
      Stops path found (stageSections path tree found).tree written recorded
        (stageSections path tree found).stopped ∧
      (∀ part ∈ recorded, Language.ofAttribute path part.1.language? = .ok part.2) ∧
      (stageSections path tree found).recorded = recorded.map (chunkOf path) := by
  fun_induction stageSections path tree found with
  | case1 tree => exact ⟨[], [], .nil, .never rfl, List.forall_mem_nil _, rfl⟩
  | case2 tree sec sections failure hlanguage =>
    exact ⟨[], [], .nil, .atLanguage rfl hlanguage, List.forall_mem_nil _, rfl⟩
  | case3 tree sec sections language hlanguage chunk cause hwrite =>
    exact ⟨[], [(sec, language)], .nil, .atWrite rfl hwrite, by simpa using hlanguage, rfl⟩
  | case4 tree sec sections language hlanguage chunk after hwrite rest ih =>
    obtain ⟨written, recorded, hwrites, hstops, hlanguages, hrecorded⟩ := ih
    refine ⟨(sec, language) :: written, (sec, language) :: recorded, .cons hwrite hwrites,
      hstops.cons (sec, language), List.forall_mem_cons.mpr ⟨hlanguage, hlanguages⟩, ?_⟩
    rw [List.map_cons, ← hrecorded]
    rfl

theorem recorded_stageSections {sections : List Section}
    (hstopped : (stageSections path tree sections).stopped = none) :
    ∃ parts : List (Section × Language), parts.map (·.1) = sections ∧
      (∀ part ∈ parts, Language.ofAttribute path part.1.language? = .ok part.2) ∧
      (stageSections path tree sections).recorded = parts.map (chunkOf path) := by
  obtain ⟨written, parts, -, hstops, hlanguages, hrecorded⟩ :=
    exists_writes_stageSections path tree sections
  exact ⟨parts, hstops.isPrefix.2 hstopped, hlanguages, hrecorded⟩

/-- Staging that does not stop records all sections. -/
theorem isRecord_stage (hstopped : (stage tree path).stopped = none) :
    ∃ source parts, IsRecord tree (stage tree path).recorded source parts := by
  simp only [stage] at hstopped ⊢
  split at hstopped
  · cases hstopped
  · rename_i found hfound
    obtain ⟨source, hread, hsections⟩ := bind_eq_ok_iff.mp hfound
    obtain ⟨parts, rfl, hlanguages, hrecorded⟩ := recorded_stageSections hstopped
    exact ⟨source, parts, mapError_eq_ok_iff.mp hread, hsections, hlanguages, hrecorded⟩

/-- Sections beside the texts that their staging paths have in a tree. -/
inductive IsExchange (held : FileTree) (path : String) :
    List (Section × Language) → List (Section × List Char) → Prop where
  | nil : IsExchange held path [] []
  | cons {part : Section × Language} {text : List Char} {parts : List (Section × Language)}
      {exchanges : List (Section × List Char)}
      (hread : held.readText (stagingPath path part.1.index part.2) = .ok text)
      (hrest : IsExchange held path parts exchanges) :
      IsExchange held path (part :: parts) ((part.1, text) :: exchanges)

namespace IsExchange

variable {held : FileTree} {path : String} {parts : List (Section × Language)}
  {exchanges : List (Section × List Char)}

theorem sections (hexchange : IsExchange held path parts exchanges) :
    exchanges.map (·.1) = parts.map (·.1) := by
  induction hexchange with
  | nil => rfl
  | cons _ _ ih => rw [List.map_cons, List.map_cons, ih]

theorem texts (hexchange : IsExchange held path parts exchanges) :
    ∀ item ∈ exchanges, ∃ language, (item.1, language) ∈ parts ∧
      held.readText (stagingPath path item.1.index language) = .ok item.2 := by
  induction hexchange with
  | nil => exact nofun
  | @cons part text parts exchanges hread _ ih =>
    refine List.forall_mem_cons.mpr ⟨⟨part.2, List.mem_cons_self, hread⟩, fun item hitem => ?_⟩
    obtain ⟨language, hmem, htext⟩ := ih item hitem
    exact ⟨language, List.mem_cons_of_mem _ hmem, htext⟩

theorem eq_textAt (hexchange : IsExchange held path parts exchanges)
    {key : Section × Language → Key}
    (hled : ∀ part ∈ parts, held.LeadsTo true (stagingPath path part.1.index part.2) (key part)) :
    exchanges = parts.map fun part => (part.1, held.textAt (key part)) := by
  induction hexchange with
  | nil => rfl
  | cons hread _ ih =>
    rw [List.forall_mem_cons] at hled
    rw [List.map_cons, (hled.1.readText_eq_ok_iff.mp hread).textAt_eq, ih hled.2]

end IsExchange

theorem exists_isExchange {parts : List (Section × Language)} {replacements : List Replacement}
    (hreplacements :
      (parts.map (chunkOf path)).mapM (Chunk.replacement tree) = .ok replacements) :
    ∃ exchanges, IsExchange tree path parts exchanges ∧ replacements = exchanges.map exchange := by
  induction parts generalizing replacements with
  | nil =>
    cases hreplacements
    exact ⟨[], .nil, rfl⟩
  | cons part parts ih =>
    rw [List.map_cons, List.mapM_cons, bind_eq_ok_iff] at hreplacements
    obtain ⟨first, hfirst, hrest⟩ := hreplacements
    obtain ⟨rest, htail, hpure⟩ := bind_eq_ok_iff.mp hrest
    cases hpure
    obtain ⟨text, hread, hpure⟩ := bind_eq_ok_iff.mp hfirst
    cases hpure
    obtain ⟨exchanges, hexchange, rfl⟩ := ih htail
    exact ⟨_, .cons (mapError_eq_ok_iff.mp hread) hexchange, rfl⟩

/-- Putting a component back exchanges the contents of its sections, and changes nothing else. -/
theorem IsRecord.writeBack_eq_ok {base : FileTree} {staged : Staged}
    {parts : List (Section × Language)} (hrecord : IsRecord base staged source parts)
    (hread : tree.readText staged.path = base.readText staged.path) {key : Key}
    (hleads : tree.LeadsTo true staged.path key) {flag : Bool}
    (hback : staged.writeBack tree = .ok (flag, after)) :
    ∃ output, (∃ exchanges, IsExchange tree staged.path parts exchanges ∧
        ∃ ordered, ordered.Perm exchanges ∧ Substituted 0 source ordered output) ∧
      after.HasText key output ∧ SameOff [key] tree after ∧
      flag = decide (after.get? key ≠ tree.get? key) := by
  obtain ⟨replacements, hreplacements, happly⟩ := bind_eq_ok_iff.mp hback
  rw [Staged.replacements, hrecord.chunks] at hreplacements
  obtain ⟨exchanges, hexchange, rfl⟩ := exists_isExchange hreplacements
  obtain ⟨text, htext, hrest⟩ := bind_eq_ok_iff.mp happly
  rw [mapError_eq_ok_iff] at htext
  obtain rfl : text = source := by
    rw [hread, hrecord.text] at htext
    exact (Except.ok.inj htext).symm
  obtain ⟨output, hsplice, hwrite⟩ := bind_eq_ok_iff.mp hrest
  refine ⟨output, ⟨exchanges, hexchange, ?_⟩,
    hleads.replaceText (hleads.readText_eq_ok_iff.mp htext) hwrite⟩
  refine substituted_of_splice (fun item hitem => ?_) hsplice
  have hmem : item.1 ∈ parts.map (·.1) := hexchange.sections ▸ List.mem_map_of_mem hitem
  exact (sections_eq_ok hrecord.sections).2 item.1 hmem

/-- The key of the staging file for a section of the component that some names lead to. -/
def partKey (top names : Key) (part : Section × Language) : Key :=
  stagingKey (top ++ names) part.1.index part.2

/-- The record of a staged section. -/
def partChunk (root : String) (names : Key) (part : Section × Language) : Chunk :=
  ⟨stagingPath (pathFrom root names) part.1.index part.2, part.2, part.1.start, part.1.stop,
    part.1.index⟩

/-- Sections were staged: each has its content in its own file, to which its staging path leads, and
all else is as before. Where paths lead is said of a tree with the same ways. -/
structure PartsStaged (base : FileTree) (root : String) (top names : Key)
    (parts : List (Section × Language)) (before after : FileTree) : Prop where
  same : SameOff (parts.map (partKey top names)) before after
  distinct : before.IsDistinct → after.IsDistinct
  written : ∀ part ∈ parts, after.HasText (partKey top names part) part.1.content
  led : ∀ part ∈ parts, ∀ follow,
    base.LeadsTo follow (partChunk root names part).stagingPath (partKey top names part)

/-- A component, by the names that lead to it, with its text and its sections in their languages. -/
structure Extract where
  names : Key
  source : List Char
  parts : List (Section × Language)

/-- What was taken from a component is what a tree has there. -/
structure Extract.IsFrom (tree : FileTree) (root : String) (top : Key) (extract : Extract) :
    Prop where
  text : tree.HasText (top ++ extract.names) extract.source
  sections :
    sections (pathFrom root extract.names) extract.source = .ok (extract.parts.map (·.1))
  languages : ∀ part ∈ extract.parts,
    Language.ofAttribute (pathFrom root extract.names) part.1.language? = .ok part.2

/-- The record of the staged component. -/
def Extract.staged (root : String) (extract : Extract) : Staged :=
  ⟨pathFrom root extract.names, extract.parts.map (partChunk root extract.names)⟩

section Staging

variable {base : FileTree} {root : String} {top : Key}

theorem stageSections_eq (hsound : base.IsSound)
    (hroot : base.resolve true root = .ok (.taken top .directory)) {names : Key}
    (hnames : names ≠ [])
    (hspot : ∀ index language, base.Spot top (stagingKey names index language))
    (hways : base.way? = tree.way?)
    {sections : List Section} (hindices : (sections.map (·.index)).Nodup)
    (hstopped : (stageSections (pathFrom root names) tree sections).stopped = none) :
    ∃ parts, parts.map (·.1) = sections ∧
      (∀ part ∈ parts,
        Language.ofAttribute (pathFrom root names) part.1.language? = .ok part.2) ∧
      (stageSections (pathFrom root names) tree sections).recorded =
        parts.map (partChunk root names) ∧
      PartsStaged base root top names parts tree
        (stageSections (pathFrom root names) tree sections).tree := by
  induction sections generalizing tree with
  | nil => exact ⟨[], rfl, nofun, rfl, SameOff.refl _ tree, id, nofun, nofun⟩
  | cons sec sections ih =>
    rw [stageSections] at hstopped ⊢
    cases hlanguage : Language.ofAttribute (pathFrom root names) sec.language? with
    | error failure => simp [hlanguage] at hstopped
    | ok language =>
      simp only [hlanguage] at hstopped ⊢
      cases hwrite : tree.writeText (stagingPath (pathFrom root names) sec.index language)
          sec.content with
      | error cause => simp [hwrite] at hstopped
      | ok next =>
        simp only [hwrite] at hstopped ⊢
        rw [List.map_cons, List.nodup_cons] at hindices
        have hled : ∀ follow, base.LeadsTo follow
            (stagingPath (pathFrom root names) sec.index language)
            (partKey top names (sec, language)) := by
          intro follow
          obtain ⟨key, hleads⟩ := writeText_eq_ok hwrite
          rw [partKey, stagingKey_append top hnames, stagingPath_pathFrom root hnames]
          rw [stagingPath_pathFrom root hnames] at hleads
          exact (hspot sec.index language).leadsTo_of_way?_eq hsound hroot hways hleads.resolves
            follow
        have hleads := (hled true).of_way?_eq hways
        rw [hleads.writeText_eq] at hwrite
        cases hwrite
        have hsame := SameOff.set hleads.noWay (String.ofList sec.content).toUTF8
        obtain ⟨parts, rfl, hlanguages, hrecorded, hstaged⟩ :=
          ih (hways.trans hsame.ways) hindices.2 hstopped
        -- The later sections have other numbers, so they are staged elsewhere.
        have hother : partKey top names (sec, language) ∉ parts.map (partKey top names) := by
          intro hmem
          obtain ⟨part, hpart, hkey⟩ := List.mem_map.mp hmem
          have hkeys := stagingKey_inj (by simp [hnames]) (by simp [hnames]) hkey
          exact hindices.1 (List.mem_map.mpr ⟨part.1, List.mem_map_of_mem hpart, hkeys.2.1⟩)
        refine ⟨(sec, language) :: parts, rfl, List.forall_mem_cons.mpr ⟨hlanguage, hlanguages⟩,
          by rw [hrecorded]; rfl, hsame.trans hstaged.same,
          fun hdistinct => hstaged.distinct (hdistinct.set _ _),
          List.forall_mem_cons.mpr ⟨?_, hstaged.written⟩,
          List.forall_mem_cons.mpr ⟨hled, hstaged.led⟩⟩
        rw [hstaged.same.hasText hother]
        exact hasText_set tree (ne_nil_of_way? hleads.noWay) _

/-- Staging that does not stop takes all sections from a component and stages them. -/
theorem stage_eq (hsound : base.IsSound)
    (hroot : base.resolve true root = .ok (.taken top .directory)) {names : Key}
    (hspot : base.Spot top names)
    (hstaging : ∀ index language, base.Spot top (stagingKey names index language))
    (hways : base.way? = tree.way?) (hstopped : (stage tree (pathFrom root names)).stopped = none) :
    ∃ extract : Extract, extract.names = names ∧ extract.IsFrom tree root top ∧
      (stage tree (pathFrom root names)).recorded = extract.staged root ∧
      PartsStaged base root top names extract.parts tree (stage tree (pathFrom root names)).tree ∧
      ∀ follow, base.LeadsTo follow (pathFrom root names) (top ++ names) := by
  simp only [stage] at hstopped ⊢
  split at hstopped
  · cases hstopped
  · rename_i found hfound
    obtain ⟨source, hread, hsections⟩ := bind_eq_ok_iff.mp hfound
    rw [mapError_eq_ok_iff] at hread
    obtain ⟨place, hresolve⟩ := resolve_of_readText hread
    have hleads := hspot.leadsTo_of_way?_eq hsound hroot hways hresolve
    rw [((hleads true).of_way?_eq hways).readText_eq_ok_iff] at hread
    obtain ⟨hindices, -⟩ := sections_eq_ok hsections
    obtain ⟨parts, rfl, hlanguages, hrecorded, hstaged⟩ :=
      stageSections_eq hsound hroot hspot.ne_nil hstaging hways hindices hstopped
    refine ⟨⟨names, source, parts⟩, rfl, ⟨hread, hsections, hlanguages⟩, ?_, ?_, hleads⟩
    · simp only [hrecorded, Extract.staged]
    · exact hstaged

/-- The sections of a component beside the texts in their staging files. -/
def Extract.exchanges (tree : FileTree) (top : Key) (extract : Extract) :
    List (Section × List Char) :=
  extract.parts.map fun part => (part.1, tree.textAt (partKey top extract.names part))

/-- Putting a component back exchanges the contents of its sections for what their staging files hold,
and changes nothing else. -/
theorem writeBack_eq_ok {extract : Extract} {flag : Bool} (hfrom : extract.IsFrom tree root top)
    (hleads : tree.LeadsTo true (pathFrom root extract.names) (top ++ extract.names))
    (hled : ∀ part ∈ extract.parts, tree.LeadsTo true
      (partChunk root extract.names part).stagingPath (partKey top extract.names part))
    (hback : (extract.staged root).writeBack tree = .ok (flag, after)) :
    ∃ output, (∃ ordered, ordered.Perm (extract.exchanges tree top) ∧
        Substituted 0 extract.source ordered output) ∧
      after.HasText (top ++ extract.names) output ∧
      SameOff [top ++ extract.names] tree after ∧
      flag = decide (after.get? (top ++ extract.names) ≠ tree.get? (top ++ extract.names)) := by
  have hrecord : IsRecord tree (extract.staged root) extract.source extract.parts :=
    ⟨hleads.readText_eq_ok_iff.mpr hfrom.text, hfrom.sections, hfrom.languages, rfl⟩
  obtain ⟨output, ⟨exchanges, hexchange, hordered⟩, hafter⟩ :=
    hrecord.writeBack_eq_ok rfl hleads hback
  refine ⟨output, ?_, hafter⟩
  rw [Extract.exchanges, ← hexchange.eq_textAt hled]
  exact hordered

end Staging

end StyleMigration.Component
