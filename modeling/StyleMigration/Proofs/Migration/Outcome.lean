import StyleMigration.Proofs.Migration.Trail

/-!
What a migration does to a project as a whole. If it does not fail, each component it finds has the
contents of its style sections exchanged and is else as it was, each stylesheet it finds is migrated,
nothing else is changed and no staging file is left, and the report counts what was done
(`run_outcome`). A text goes through the same hands whether it is a stylesheet or a section: its
selectors are migrated, and the division command edits it if it is run.
-/

set_option autoImplicit false

namespace StyleMigration.Migration

open Command Component FileTree

/-- What became of a stylesheet. -/
structure SheetRecord where
  path : String
  language : Language
  old : List Char
  migrated : List Char
  new : List Char

/-- What became of a style section. -/
structure SectionRecord where
  sec : Section
  language : Language
  migrated : List Char
  new : List Char

/-- What became of a component. -/
structure ComponentRecord where
  path : String
  old : List Char
  new : List Char
  sections : List SectionRecord

/-- The stylesheet is migrated and divided. -/
structure SheetRecord.Holds (settings : Settings) (edit : List Char → List Char)
    (before after : FileTree) (record : SheetRecord) : Prop where
  language : Language.ofPath record.path = .ok record.language
  old : before.readText record.path = .ok record.old
  migrated : Sheet.migrate record.language record.old = .ok record.migrated
  new : record.new = divisionOf settings edit record.migrated
  written : after.readText record.path = .ok record.new

/-- Whether stylesheets in the language of a section are migrated. -/
def SectionRecord.isTreated (settings : Settings) (record : SectionRecord) : Bool :=
  settings.stylesheetExtensions.contains record.language.name

/-- The section is migrated and divided like a stylesheet if its language is asked for, and stays as it
is otherwise. -/
structure SectionRecord.Holds (settings : Settings) (edit : List Char → List Char) (path : String)
    (record : SectionRecord) : Prop where
  language : Language.ofAttribute path record.sec.language? = .ok record.language
  treated : record.isTreated settings = true →
    Sheet.migrate record.language record.sec.content = .ok record.migrated ∧
      record.new = divisionOf settings edit record.migrated
  untreated : record.isTreated settings = false → record.new = record.sec.content

/-- The contents of all style sections of the component are exchanged, and nothing else in it. -/
structure ComponentRecord.Holds (settings : Settings) (edit : List Char → List Char)
    (before after : FileTree) (record : ComponentRecord) : Prop where
  old : before.readText record.path = .ok record.old
  sections : Component.sections record.path record.old = .ok (record.sections.map (·.sec))
  treated : ∀ sec ∈ record.sections, sec.Holds settings edit record.path
  new : ∃ ordered, ordered.Perm (record.sections.map fun sec => (sec.sec, sec.new)) ∧
    Substituted 0 record.old ordered record.new
  written : after.readText record.path = .ok record.new

/-- The sections of components that are treated like stylesheets. -/
def treatedSections (settings : Settings) (components : List ComponentRecord) :
    List SectionRecord :=
  (components.flatMap (·.sections)).filter (·.isTreated settings)

/-- What a migration did to the files below a root, and what it reports. -/
structure Outcome (settings : Settings) (edit : List Char → List Char) (root : String)
    (before after : FileTree) (report : Report) (components : List ComponentRecord)
    (sheets : List SheetRecord) : Prop where
  foundComponents : before.findFiles root [settings.componentExtension] =
    .ok (components.map (·.path))
  foundSheets : before.findFiles root settings.stylesheetExtensions = .ok (sheets.map (·.path))
  componentsHold : ∀ component ∈ components, component.Holds settings edit before after
  sheetsHold : ∀ sheet ∈ sheets, sheet.Holds settings edit before after
  others : ∀ key,
    (∀ path ∈ components.map (·.path) ++ sheets.map (·.path), ¬ before.LeadsTo true path key) →
      after.get? key = before.get? key
  unmarked : ∀ key entry, after.get? key = some entry →
    ∀ name ∈ key, ¬ stagingMark.toList <:+: name.toList
  reported : report = {
    components := components.length
    chunks := (components.map (·.sections.length)).sum
    stylesheets := sheets.length + (treatedSections settings components).length
    changedStylesheets := (sheets.countP fun sheet => sheet.migrated ≠ sheet.old) +
      (treatedSections settings components).countP fun sec => sec.migrated ≠ sec.sec.content
    batches := report.batches
    changedComponents := components.countP fun component => component.new ≠ component.old }
  batches : if settings.runDivision then report.batches.sum = report.stylesheets
    else report.batches = []

namespace Trail

variable {settings : Settings} {edit : List Char → List Char} {root : String} {top : Key}
  {base final : FileTree} {report : Report}

/-- What became of a stylesheet that was there before. -/
def sheetRecord (trail : Trail settings edit root top base final report) (names : Key) :
    SheetRecord where
  path := pathFrom root names
  language := (Language.ofPath (pathFrom root names)).toOption.getD .css
  old := base.textAt (top ++ names)
  migrated := trail.migrated.textAt (top ++ names)
  new := final.textAt (top ++ names)

/-- What became of a section of a component. -/
def sectionRecord (trail : Trail settings edit root top base final report) (extract : Extract)
    (part : Section × Language) : SectionRecord where
  sec := part.1
  language := part.2
  migrated := trail.migrated.textAt (partKey top extract.names part)
  new := trail.divided.textAt (partKey top extract.names part)

/-- What became of a component. -/
def componentRecord (trail : Trail settings edit root top base final report) (extract : Extract) :
    ComponentRecord where
  path := pathFrom root extract.names
  old := extract.source
  new := final.textAt (top ++ extract.names)
  sections := extract.parts.map (trail.sectionRecord extract)

theorem ways (trail : Trail settings edit root top base final report) :
    base.way? = final.way? := by
  rw [trail.staging.same.ways, trail.migration.same.ways, trail.division.ways,
    trail.restoration.same.ways, trail.removal.ways]

variable (trail : Trail settings edit root top base final report)

theorem ofPath_stagingKey {names : Key} (hspot : base.Spot top names) (part : Section × Language) :
    Language.ofPath (pathFrom root (stagingKey names part.1.index part.2)) = .ok part.2 := by
  rw [← stagingPath_pathFrom root hspot.ne_nil]
  exact ofPath_stagingPath _ _ _

/-- The staged sections that are treated like stylesheets. -/
def treatedParts : List (Extract × (Section × Language)) :=
  trail.extracts.flatMap fun extract =>
    (extract.parts.filter fun part =>
      settings.stylesheetExtensions.contains part.2.name).map fun part => (extract, part)

theorem stagedNames_eq_map :
    trail.extracts.flatMap (stagedNames settings.stylesheetExtensions) =
      trail.treatedParts.map fun item =>
        stagingKey item.1.names item.2.1.index item.2.2 := by
  simp only [treatedParts, List.map_flatMap, List.map_map]
  rfl

theorem treatedSections_eq_map :
    treatedSections settings (trail.extracts.map trail.componentRecord) =
      trail.treatedParts.map fun item => trail.sectionRecord item.1 item.2 := by
  simp only [treatedSections, treatedParts, List.flatMap_map, List.map_flatMap, List.map_map,
    List.filter_flatMap, componentRecord, List.filter_map]
  rfl

variable (hproject : IsProject base root top)
include trail hproject

/-- No key of a staging file is the key of an entry of the project. -/
theorem notMem_stagingKeys {key : Key} {entry : FileEntry}
    (hget : base.get? key = some entry) : key ∉ trail.extracts.flatMap (stagingKeys top) := by
  intro hmem
  obtain ⟨extract, hextract, hmem⟩ := List.mem_flatMap.mp hmem
  exact hproject.notMem_stagingKeys hget (files_of_found hproject trail.found extract hextract).1 hmem

/-- A staged section, until it is put back. -/
theorem part {extract : Extract} (hextract : extract ∈ trail.extracts) {part : Section × Language}
    (hpart : part ∈ extract.parts) :
    if settings.stylesheetExtensions.contains part.2.name then
      ∃ migrated, Sheet.migrate part.2 part.1.content = .ok migrated ∧
        trail.migrated.HasText (partKey top extract.names part) migrated ∧
        trail.divided.HasText (partKey top extract.names part) (divisionOf settings edit migrated)
    else trail.divided.HasText (partKey top extract.names part) part.1.content := by
  have hfiles := files_of_found hproject trail.found
  obtain ⟨hne, bytes, hget⟩ := hfiles extract hextract
  have hspot := hproject.sound.spot hne hget
  have hperm := found_perm hproject trail.found trail.staging settings.stylesheetExtensions
  have hwritten := trail.staging.written extract hextract part hpart
  split
  · rename_i hlanguage
    have hmem : stagingKey extract.names part.1.index part.2 ∈
        trail.staged.found root top settings.stylesheetExtensions := by
      rw [hperm.mem_iff]
      exact List.mem_append_right _ (List.mem_flatMap.mpr ⟨extract, hextract,
        List.mem_map.mpr ⟨part, List.mem_filter.mpr ⟨hpart, hlanguage⟩, rfl⟩⟩)
    obtain ⟨migrated, ⟨-, language, old, hofPath, hold, hmigrate⟩, hmigrated⟩ :=
      trail.migration.changed _ hmem
    have hedited := trail.edited _ hmem migrated hmigrated
    rw [append_stagingKey hne] at hold hmigrated hedited
    rw [ofPath_stagingKey hspot, Except.ok.injEq] at hofPath
    obtain rfl := hold.inj hwritten
    exact ⟨migrated, hofPath ▸ hmigrate, hmigrated, hedited⟩
  · rename_i hlanguage
    have hnot : partKey top extract.names part ∉
        (trail.staged.found root top settings.stylesheetExtensions).map (top ++ ·) := by
      intro hmem
      obtain ⟨names, hmem, hkey⟩ := List.mem_map.mp hmem
      rw [hperm.mem_iff, List.mem_append] at hmem
      rcases hmem with hmem | hmem
      · obtain ⟨-, -, ⟨_, hfile⟩, -⟩ := (mem_found_iff hproject.sound.distinct).mp hmem
        rw [hkey, hproject.get?_partKey hne] at hfile
        cases hfile
      · obtain ⟨other, hother, hmem⟩ := List.mem_flatMap.mp hmem
        obtain ⟨part', hpart', rfl⟩ := List.mem_map.mp hmem
        rw [← append_stagingKey hne] at hkey
        have hsame := stagingKey_inj (hfiles other hother).1 hne (List.append_cancel_left hkey)
        rw [List.mem_filter, hsame.2.2] at hpart'
        exact hlanguage hpart'.2
    rw [trail.division.hasText hnot, trail.migration.same.hasText hnot]
    exact hwritten

theorem sectionRecord_holds {extract : Extract}
    (hextract : extract ∈ trail.extracts) {part : Section × Language}
    (hpart : part ∈ extract.parts) :
    (trail.sectionRecord extract part).Holds settings edit (pathFrom root extract.names) := by
  have hthrough := trail.part hproject hextract hpart
  refine ⟨(trail.staging.taken extract hextract).languages part hpart, fun htreated => ?_,
    fun huntreated => ?_⟩
  · rw [SectionRecord.isTreated, sectionRecord] at htreated
    rw [if_pos htreated] at hthrough
    obtain ⟨migrated, hmigrate, hmigrated, hdivided⟩ := hthrough
    simp only [sectionRecord, hmigrated.textAt_eq, hdivided.textAt_eq]
    exact ⟨hmigrate, trivial⟩
  · rw [SectionRecord.isTreated, sectionRecord] at huntreated
    rw [if_neg (Bool.not_eq_true _ ▸ huntreated)] at hthrough
    exact hthrough.textAt_eq

/-- What is neither a component nor a stylesheet is as before. -/
theorem kept {key : Key}
    (hcomponents : key ∉ trail.extracts.map fun extract => top ++ extract.names)
    (hsheets : key ∉ (base.found root top settings.stylesheetExtensions).map (top ++ ·)) :
    final.get? key = base.get? key := by
  have hfiles := files_of_found hproject trail.found
  by_cases hstaging : key ∈ trail.extracts.flatMap (stagingKeys top)
  · obtain ⟨extract, hextract, hmem⟩ := List.mem_flatMap.mp hstaging
    obtain ⟨part, hpart, rfl⟩ := List.mem_map.mp hmem
    rw [trail.removed extract hextract part hpart,
      hproject.get?_partKey (hfiles extract hextract).1]
  · have hfound : key ∉
        (trail.staged.found root top settings.stylesheetExtensions).map (top ++ ·) := by
      intro hkey
      obtain ⟨names, hmem, rfl⟩ := List.mem_map.mp hkey
      rw [(found_perm hproject trail.found trail.staging _).mem_iff, List.mem_append] at hmem
      rcases hmem with hmem | hmem
      · exact hsheets (List.mem_map_of_mem hmem)
      · obtain ⟨extract, hextract, hmem⟩ := List.mem_flatMap.mp hmem
        obtain ⟨part, hpart, rfl⟩ := List.mem_map.mp hmem
        rw [append_stagingKey (hfiles extract hextract).1] at hstaging
        exact hstaging (List.mem_flatMap.mpr ⟨extract, hextract,
          List.mem_map_of_mem (List.mem_filter.mp hpart).1⟩)
    rw [trail.removal.kept _ hstaging, trail.restoration.same.kept _ hcomponents,
      trail.division.kept _ hfound, trail.migration.same.kept _ hfound,
      trail.staging.same.kept _ hstaging]

/-- Entries were there before. -/
theorem get?_of_final {key : Key} {entry : FileEntry}
    (hget : final.get? key = some entry) : ∃ entry, base.get? key = some entry := by
  by_cases hcomponents : key ∈ trail.extracts.map fun extract => top ++ extract.names
  · obtain ⟨extract, hextract, rfl⟩ := List.mem_map.mp hcomponents
    obtain ⟨-, bytes, hfile⟩ := files_of_found hproject trail.found extract hextract
    exact ⟨_, hfile⟩
  · by_cases hsheets : key ∈ (base.found root top settings.stylesheetExtensions).map (top ++ ·)
    · obtain ⟨names, hnames, rfl⟩ := List.mem_map.mp hsheets
      obtain ⟨-, -, ⟨bytes, hfile⟩, -⟩ := (mem_found_iff hproject.sound.distinct).mp hnames
      exact ⟨_, hfile⟩
    · rw [trail.kept hproject hcomponents hsheets] at hget
      exact ⟨entry, hget⟩

variable (hextension : settings.componentExtension ∉ settings.stylesheetExtensions)
include hextension

/-- A stylesheet that was there before, through all phases. -/
theorem sheet {names : Key} (hnames : names ∈ base.found root top settings.stylesheetExtensions) :
    ∃ language old migrated, Language.ofPath (pathFrom root names) = .ok language ∧
      base.LeadsTo true (pathFrom root names) (top ++ names) ∧
      Sheet.migrate language old = .ok migrated ∧
      base.HasText (top ++ names) old ∧ trail.staged.HasText (top ++ names) old ∧
      trail.migrated.HasText (top ++ names) migrated ∧
      final.HasText (top ++ names) (divisionOf settings edit migrated) := by
  have hmem : names ∈ trail.staged.found root top settings.stylesheetExtensions := by
    rw [(found_perm hproject trail.found trail.staging _).mem_iff]
    exact List.mem_append_left _ hnames
  obtain ⟨-, -, ⟨bytes, hget⟩, -⟩ := (mem_found_iff hproject.sound.distinct).mp hnames
  have hstaging := trail.notMem_stagingKeys hproject hget
  have hcomponent : top ++ names ∉ trail.extracts.map fun extract => top ++ extract.names := by
    intro hkey
    obtain ⟨extract, hextract, hkey⟩ := List.mem_map.mp hkey
    obtain rfl := List.append_cancel_left hkey
    exact notMem_found hproject hextension (trail.found ▸ List.mem_map_of_mem hextract) hnames
  obtain ⟨migrated, ⟨hled, language, old, hlanguage, hold, hmigrate⟩, hmigrated⟩ :=
    trail.migration.changed names hmem
  refine ⟨language, old, migrated, hlanguage, hled true, hmigrate,
    (trail.staging.same.hasText hstaging).mp hold, hold, hmigrated, ?_⟩
  rw [trail.removal.hasText hstaging, trail.restoration.same.hasText hcomponent]
  exact trail.edited names hmem migrated hmigrated

/-- A component, from its reading to its writing. -/
theorem component {extract : Extract} (hextract : extract ∈ trail.extracts) :
    ∃ output, (∃ ordered, ordered.Perm (extract.exchanges trail.divided top) ∧
        Substituted 0 extract.source ordered output) ∧
      trail.divided.HasText (top ++ extract.names) extract.source ∧
      trail.restored.HasText (top ++ extract.names) output ∧
      final.HasText (top ++ extract.names) output := by
  obtain ⟨-, bytes, hget⟩ := files_of_found hproject trail.found extract hextract
  have hstaging := trail.notMem_stagingKeys hproject hget
  have hsheets :=
    component_notMem_sheets hproject hextension trail.found trail.staging hextract
  obtain ⟨output, houtput, hrestored⟩ := trail.restoration.changed extract hextract
  refine ⟨output, houtput, ?_, hrestored, (trail.removal.hasText hstaging).mpr hrestored⟩
  rw [trail.division.hasText hsheets, trail.migration.same.hasText hsheets,
    trail.staging.same.hasText hstaging]
  exact (trail.staging.taken extract hextract).text

theorem sheetRecord_holds {names : Key}
    (hnames : names ∈ base.found root top settings.stylesheetExtensions) :
    (trail.sheetRecord names).Holds settings edit base final := by
  obtain ⟨language, old, migrated, hlanguage, hleads, hmigrate, hold, -, hmigrated, hfinal⟩ :=
    trail.sheet hproject hextension hnames
  have hrecord : trail.sheetRecord names =
      ⟨pathFrom root names, language, old, migrated, divisionOf settings edit migrated⟩ := by
    rw [sheetRecord, hlanguage, hold.textAt_eq, hmigrated.textAt_eq, hfinal.textAt_eq]
    rfl
  rw [hrecord]
  exact ⟨hlanguage, hleads.readText_eq_ok_iff.mpr hold, hmigrate, rfl,
    (hleads.of_way?_eq trail.ways).readText_eq_ok_iff.mpr hfinal⟩

theorem componentRecord_holds {extract : Extract} (hextract : extract ∈ trail.extracts) :
    (trail.componentRecord extract).Holds settings edit base final := by
  obtain ⟨htext, hsections, -⟩ := trail.staging.taken extract hextract
  have hleads := trail.staging.reached extract hextract true
  obtain ⟨output, houtput, -, -, hfinal⟩ := trail.component hproject hextension hextract
  constructor
  · exact hleads.readText_eq_ok_iff.mpr htext
  · simpa [componentRecord, sectionRecord, Function.comp_def] using hsections
  · intro sec hsec
    obtain ⟨part, hpart, rfl⟩ := List.mem_map.mp hsec
    exact trail.sectionRecord_holds hproject hextract hpart
  · simpa [componentRecord, sectionRecord, Function.comp_def, hfinal.textAt_eq, Extract.exchanges]
      using houtput
  · simp only [componentRecord, hfinal.textAt_eq]
    exact (hleads.of_way?_eq trail.ways).readText_eq_ok_iff.mpr hfinal

theorem count_changedSheets :
    trail.changedSheets.count true =
      ((base.found root top settings.stylesheetExtensions).map trail.sheetRecord).countP
          (fun sheet => sheet.migrated ≠ sheet.old) +
        (treatedSections settings (trail.extracts.map trail.componentRecord)).countP
          fun sec => sec.migrated ≠ sec.sec.content := by
  have hperm := found_perm hproject trail.found trail.staging settings.stylesheetExtensions
  rw [trail.migration.told, List.count, List.countP_map, hperm.countP_eq, List.countP_append,
    stagedNames_eq_map, treatedSections_eq_map, List.countP_map, List.countP_map, List.countP_map]
  congr 1
  · apply List.countP_congr
    intro names hnames
    obtain ⟨language, old, migrated, -, -, -, hold, hold', hmigrated, -⟩ :=
      trail.sheet hproject hextension hnames
    simp only [Function.comp_apply, sheetRecord, hold.textAt_eq, hmigrated.textAt_eq]
    simp [hmigrated.get?_ne_iff hold']
  · apply List.countP_congr
    intro item hitem
    obtain ⟨extract, hextract, hmem⟩ := List.mem_flatMap.mp hitem
    obtain ⟨part, hpart, rfl⟩ := List.mem_map.mp hmem
    obtain ⟨hpart, htreated⟩ := List.mem_filter.mp hpart
    have hthrough := trail.part hproject hextract hpart
    rw [if_pos htreated] at hthrough
    obtain ⟨migrated, -, hmigrated, -⟩ := hthrough
    have hold := trail.staging.written extract hextract part hpart
    have hne := (files_of_found hproject trail.found extract hextract).1
    simp only [Function.comp_apply, sectionRecord, hmigrated.textAt_eq, append_stagingKey hne]
    simp [hmigrated.get?_ne_iff hold]

theorem count_changedComponents :
    trail.changedComponents.count true =
      (trail.extracts.map trail.componentRecord).countP
        fun component => component.new ≠ component.old := by
  rw [trail.restoration.told, List.count, List.countP_map, List.countP_map]
  apply List.countP_congr
  intro extract hextract
  obtain ⟨output, -, hold, hrestored, hfinal⟩ := trail.component hproject hextension hextract
  simp only [Function.comp_apply, componentRecord, hfinal.textAt_eq]
  simp [hrestored.get?_ne_iff hold]

/-- The report counts the components, their sections, and the stylesheets. -/
theorem reported :
    let components := trail.extracts.map trail.componentRecord
    let sheets := (base.found root top settings.stylesheetExtensions).map trail.sheetRecord
    report = {
      components := components.length
      chunks := (components.map (·.sections.length)).sum
      stylesheets := sheets.length + (treatedSections settings components).length
      changedStylesheets := (sheets.countP fun sheet => sheet.migrated ≠ sheet.old) +
        (treatedSections settings components).countP fun sec => sec.migrated ≠ sec.sec.content
      batches := report.batches
      changedComponents := components.countP fun component => component.new ≠ component.old } := by
  intro components sheets
  obtain ⟨hcomponents, hchunks, hstylesheets, hchangedSheets, hchangedComponents, -⟩ := trail.told
  have hlength : components.length = report.components := by
    rw [hcomponents, List.length_map]
  have hsections : (components.map (·.sections.length)).sum = report.chunks := by
    rw [hchunks, List.map_map]
    simp [componentRecord, Function.comp_def]
  have hall : sheets.length + (treatedSections settings components).length =
      report.stylesheets := by
    rw [hstylesheets, (found_perm hproject trail.found trail.staging _).length_eq,
      List.length_append, trail.stagedNames_eq_map, trail.treatedSections_eq_map, List.length_map,
      List.length_map, List.length_map]
  rw [hlength, hsections, hall, ← trail.count_changedSheets hproject hextension,
    ← trail.count_changedComponents hproject hextension, ← hchangedSheets, ← hchangedComponents]

end Trail

/-- A migration of a project that does not fail, with a division command that edits the files it is
given. Each component it finds is as before but for its style sections, each of which has become what
a stylesheet with its text would have become if its language is asked for, and is as before otherwise.
Each stylesheet it finds is migrated and edited. All else is as before, no name has the mark of
staging files, and the report counts what was done. -/
theorem run_outcome {σ : Type} (settings : Settings) (root : String) (top : Key)
    (runner : Runner σ) (edit : List Char → List Char) (world : World σ) (report : Report)
    (hproject : IsProject world.tree root top)
    (hextension : settings.componentExtension ∉ settings.stylesheetExtensions)
    (hrunner : EditsFiles runner settings.command edit)
    (hrun : (run settings root runner world).1 = .ok report) :
    ∃ components sheets, Outcome settings edit root world.tree
      (run settings root runner world).2.tree report components sheets := by
  obtain ⟨trail⟩ := exists_trail hproject hextension hrunner hrun
  refine ⟨trail.extracts.map trail.componentRecord,
    (world.tree.found root top settings.stylesheetExtensions).map trail.sheetRecord, ?_⟩
  constructor
  · rw [findFiles_eq hproject.rooted, ← trail.found, List.map_map, List.map_map]
    rfl
  · rw [findFiles_eq hproject.rooted, List.map_map]
    rfl
  · intro component hmem
    obtain ⟨extract, hextract, rfl⟩ := List.mem_map.mp hmem
    exact trail.componentRecord_holds hproject hextension hextract
  · intro sheet hmem
    obtain ⟨names, hnames, rfl⟩ := List.mem_map.mp hmem
    exact trail.sheetRecord_holds hproject hextension hnames
  · intro key hkey
    apply trail.kept hproject
    · intro hmem
      obtain ⟨extract, hextract, rfl⟩ := List.mem_map.mp hmem
      refine hkey (pathFrom root extract.names) (List.mem_append_left _ ?_)
        (trail.staging.reached extract hextract true)
      exact List.mem_map.mpr ⟨_, List.mem_map_of_mem hextract, rfl⟩
    · intro hmem
      obtain ⟨names, hnames, rfl⟩ := List.mem_map.mp hmem
      obtain ⟨_, _, _, -, hleads, -⟩ := trail.sheet hproject hextension hnames
      refine hkey (pathFrom root names) (List.mem_append_right _ ?_) hleads
      exact List.mem_map.mpr ⟨_, List.mem_map_of_mem hnames, rfl⟩
  · intro key entry hget name hname
    obtain ⟨entry, hget⟩ := trail.get?_of_final hproject hget
    have hkey : key ≠ [] := List.ne_nil_of_mem hname
    exact hproject.unmarked key (List.mem_map_of_mem (mem_keys_of_get? hkey hget)) name hname
  · exact trail.reported hproject hextension
  · exact trail.told.2.2.2.2.2

/-- A project with a component and a note. -/
def smallProject : FileTree where
  entries := [(["app"], .directory), (["app", "notes"], .file "todo".toUTF8),
    (["app", "box.vue"], .file "<p/><style lang=\"scss\">.a >>> .b{}</style>".toUTF8)]

theorem isProject_smallProject : IsProject smallProject "app" ["app"] where
  sound := by decide +kernel
  rooted := rfl
  unmarked := by decide +kernel

/-- Edits the text of a file, if it has one. -/
def editFile (edit : List Char → List Char) (tree : FileTree) (path : String) : FileTree :=
  match tree.readText path with
  | .error _ => tree
  | .ok text =>
    match tree.writeText path (edit text) with
    | .error _ => tree
    | .ok after => after

theorem textsEdited_editFile (edit : List Char → List Char) {tree : FileTree} {path : String}
    (htexts : LeadToTexts tree [path]) : TextsEdited edit [path] tree (editFile edit tree path) := by
  obtain ⟨key, text, hleads, htext⟩ := htexts.texts path (List.mem_singleton_self path)
  have hedit : editFile edit tree path =
      tree.set key (.file (String.ofList (edit text)).toUTF8) := by
    rw [editFile, hleads.readText_eq_ok_iff.mpr htext]
    simp only [hleads.writeText_eq]
  rw [hedit]
  constructor
  · intro other hdiffers
    refine ⟨path, List.mem_singleton_self path, ?_⟩
    obtain rfl : other = key := by
      false_or_by_contra
      rename_i hother
      exact hdiffers ((SameOff.set hleads.noWay _).kept other (by simpa using hother))
    exact hleads
  · intro other hother found text' hfound htext'
    obtain rfl := List.mem_singleton.mp hother
    obtain rfl := hfound.key_eq hleads
    obtain rfl := htext.inj htext'
    exact hasText_set tree (ne_nil_of_way? hleads.noWay) _

/-- Files of their own can be edited one after the other. -/
theorem textsEdited_foldl_editFile (edit : List Char → List Char) {tree : FileTree}
    {paths : List String} (htexts : LeadToTexts tree paths) :
    TextsEdited edit paths tree (paths.foldl (editFile edit) tree) := by
  induction paths generalizing tree with
  | nil => exact textsEdited_nil edit tree
  | cons path paths ih =>
    have hsplit : LeadToTexts tree ([path] ++ paths) := htexts
    have hfirst := textsEdited_editFile edit hsplit.of_append
    exact hfirst.append hsplit (ih (hsplit.of_textsEdited hfirst))

/-- A command of two words that ends each file with a line break. -/
def lineEnder : Runner Unit := fun arguments world =>
  (.exited 0, { world with
    tree := (arguments.drop 3).foldl (editFile (· ++ ['\n'])) world.tree })

theorem editsFiles_lineEnder : EditsFiles lineEnder Settings.default.command (· ++ ['\n']) :=
  fun _ _ _ htexts => ⟨rfl, textsEdited_foldl_editFile _ htexts⟩

theorem run_outcome_smallProject :
    (run .default "app" lineEnder ⟨smallProject, ()⟩).1 = .ok ⟨1, 1, 1, 1, [1], 1⟩ ∧
      ∃ components sheets, Outcome .default (· ++ ['\n']) "app" smallProject
        (run .default "app" lineEnder ⟨smallProject, ()⟩).2.tree ⟨1, 1, 1, 1, [1], 1⟩
        components sheets := by
  have hextension :
      Settings.default.componentExtension ∉ Settings.default.stylesheetExtensions := by decide
  have hrun : (run .default "app" lineEnder ⟨smallProject, ()⟩).1 = .ok ⟨1, 1, 1, 1, [1], 1⟩ := by
    decide +kernel
  exact ⟨hrun, run_outcome .default "app" ["app"] lineEnder (· ++ ['\n']) ⟨smallProject, ()⟩ _
    isProject_smallProject hextension editsFiles_lineEnder hrun⟩

end StyleMigration.Migration
