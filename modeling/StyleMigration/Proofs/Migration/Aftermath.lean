import StyleMigration.Proofs.Migration.Scene

/-!
What a migration that fails leaves behind. Nothing is rolled back, but every file is read, migrated and
written as a whole, since a tree has no faults of the storage that could stop a write in the middle, and
the phases come in an order in which components are written last. So the failure tells how far it came
(`Aftermath`): up to the end of staging nothing has changed, a stylesheet that cannot be migrated is
where the migration of stylesheets ends, the components are as before as long as the division command
has not ended well, and a component that cannot be put back is where putting back ends
(`aftermath_migrate`).
-/

set_option autoImplicit false

namespace StyleMigration.Migration

open Command Component FileTree

variable {σ : Type}

/-- The stylesheet at a path has been migrated. -/
def IsRewritten (before after : FileTree) (path : String) : Prop :=
  ∃ language old new, Language.ofPath path = .ok language ∧ before.readText path = .ok old ∧
    Sheet.migrate language old = .ok new ∧ after.readText path = .ok new

/-- The component at a path has other texts in place of its sections, which are those that its staging
paths had in a tree, and is else as before. -/
structure IsRestored (before held after : FileTree) (path : String) (old new : List Char)
    (exchanges : List (Section × List Char)) : Prop where
  read : before.readText path = .ok old
  sections : sections path old = .ok (exchanges.map (·.1))
  texts : ∀ item ∈ exchanges, ∃ language,
    Language.ofAttribute path item.1.language? = .ok language ∧
      held.readText (stagingPath path item.1.index language) = .ok item.2
  substituted : ∃ ordered, ordered.Perm exchanges ∧ Substituted 0 old ordered new
  written : after.readText path = .ok new

/-- All components at some paths have been put back. Each was put back from a tree that differs from
the one before at these components alone. -/
def AreRestored (paths : List String) (before divided after : FileTree) : Prop :=
  ∀ path ∈ paths, ∃ held old new exchanges,
    (∀ key, (∀ other ∈ paths, ¬ before.LeadsTo true other key) →
      held.get? key = divided.get? key) ∧
    IsRestored before held after path old new exchanges

section Progress

variable (settings : Settings) (root : String) (runner : Runner σ) (before : World σ)
  (components sheets : List String)

/-- All components have been staged, and then the stylesheets were found. -/
def HaveStaged (staged : State σ) : Prop :=
  before.tree.findFiles root [settings.componentExtension] = .ok components ∧
    (∃ counts, Yields (components.mapM stageComponent) ⟨before, []⟩ counts staged) ∧
    staged.world.tree.findFiles root settings.stylesheetExtensions = .ok sheets

/-- All stylesheets have been migrated. -/
def HaveMigrated (migrated : State σ) : Prop :=
  ∃ staged, HaveStaged settings root before components sheets staged ∧
    ∃ flags, Yields (sheets.mapM fun path => onTree fun tree => Sheet.migrateFile tree path) staged
      flags migrated

/-- The division command has been run on all stylesheets, if it is to be run. -/
def HaveDivided (divided : State σ) : Prop :=
  ∃ migrated, HaveMigrated settings root before components sheets migrated ∧
    ∃ sizes, Yields (if settings.runDivision then divide settings runner sheets else pure [])
      migrated sizes divided

end Progress

/-- A migration failed, and this is what it left behind. -/
inductive Aftermath (settings : Settings) (root : String) (runner : Runner σ) (before : World σ) :
    Failure → World σ → Prop where
  /-- The search for components failed. -/
  | search {failure : Failure}
      (hsearch : before.tree.findFiles root [settings.componentExtension] = .error failure) :
      Aftermath settings root runner before failure before
  /-- A component could not be staged. -/
  | staging {failure : Failure} {components : List String} {next : State σ}
      (hfound : before.tree.findFiles root [settings.componentExtension] = .ok components)
      (hfails : Fails (components.mapM stageComponent) ⟨before, []⟩ failure next) :
      Aftermath settings root runner before failure before
  /-- A stylesheet could not be migrated. -/
  | migrating {failure : Failure} {after : World σ} {components done rest present : List String}
      {path : String} {staged migrated : State σ} {flags : List Bool}
      (hstaged : HaveStaged settings root before components (done ++ path :: rest) staged)
      (hdone : Yields (done.mapM fun path => onTree fun tree => Sheet.migrateFile tree path) staged
        flags migrated)
      (hfails : Sheet.migrateFile migrated.world.tree path = .error failure)
      (hcomponents : SameBytes components before.tree after.tree)
      (hlater : SameBytes (path :: rest) before.tree after.tree)
      (hpresent : before.tree.findFiles root settings.stylesheetExtensions = .ok present)
      (hlisted : ∀ sheet ∈ present, sheet ∈ done ++ path :: rest)
      (hrewritten : ∀ sheet ∈ present, sheet ∈ done → IsRewritten before.tree after.tree sheet)
      (hchanged : ChangedAt done before.tree after.tree) :
      Aftermath settings root runner before failure after
  /-- The division command failed on a batch. -/
  | dividing {failure : Failure} {after : World σ} {components sheets : List String}
      {migrated next : State σ}
      (hmigrated : HaveMigrated settings root before components sheets migrated)
      (hfails : Fails (divide settings runner sheets) migrated failure next)
      (hcomponents : SameBytes components before.tree after.tree)
      (hchanged : ChangedAt sheets before.tree after.tree) :
      Aftermath settings root runner before failure after
  /-- A component could not be put back. -/
  | restoring {failure : Failure} {after : World σ} {sheets : List String}
      {done rest : List Staged} {component : Staged} {divided restored : State σ} {flags : List Bool}
      (hdivided : HaveDivided settings root runner before
        ((done ++ component :: rest).map (·.path)) sheets divided)
      (hrecorded : divided.staged = done ++ component :: rest)
      (hdone : Yields (done.mapM fun staged => onTree staged.writeBack) divided flags restored)
      (hfails : component.writeBack restored.world.tree = .error failure)
      (hrestored : AreRestored (done.map (·.path)) before.tree divided.world.tree after.tree)
      (hlater : SameBytes ((component :: rest).map (·.path)) before.tree after.tree)
      (hchanged : ChangedAt (done.map (·.path) ++ sheets) before.tree after.tree) :
      Aftermath settings root runner before failure after
  /-- All was done, but some staging files could not be removed. -/
  | removal {after : World σ} {components sheets refused : List String} {divided restored : State σ}
      {flags : List Bool}
      (hdivided : HaveDivided settings root runner before components sheets divided)
      (hdone : Yields (divided.staged.mapM fun staged => onTree staged.writeBack) divided flags
        restored)
      (hrefused : refused.Sublist (stagingPaths divided.staged))
      (hrestored : AreRestored components before.tree divided.world.tree after.tree)
      (hchanged : ChangedAt (components ++ sheets) before.tree after.tree) :
      Aftermath settings root runner before (.leftover refused) after

section Phases

variable {records : List (Staged × Key)} {staged : State σ} {refused : List String}
  {tree final : FileTree}

namespace Scene

/-- A stylesheet of the project that has been migrated is so in the end. -/
theorem isRewritten {base : FileTree} {sites done : List (String × Key)} {migrated : State σ}
    (hscene : Scene base sites staged records) (hmigrates : Migrates base staged migrated done)
    (hremoval : Removal migrated.world.tree (stagingPaths staged.staged) refused final)
    {site : String × Key} (hsite : base.IsSite site) (hdone : site.1 ∈ done.map (·.1)) :
    IsRewritten base final site.1 := by
  obtain ⟨other, hother, hpath⟩ := List.mem_map.mp hdone
  have hleads := hmigrates.led other hother
  obtain rfl : other = site := by
    rw [hpath] at hleads
    have hkey := hleads.key_eq
      (hsite.leadsTo (keepsWays_of_way?_eq rfl) hsite.noWay hleads.resolves)
    exact Prod.ext hpath hkey
  have hmarked := isMarked_site hscene.unmarked hsite
  obtain ⟨new, ⟨-, language, old, hlanguage, hold, hnew⟩, htext⟩ := hmigrates.texts other hother
  obtain ⟨hfinal, hsame, -⟩ :=
    hremoval.sameUnmarked hscene.unmarked hscene.places hmigrates.keeps
  rw [HasText, hscene.stagedOver.same.get?_eq hmarked] at hold
  rw [HasText, ← hsame.get?_eq hmarked] at htext
  have hleads' := hleads.of_keepsWays hfinal (way?_eq_none.mpr (.inr ⟨_, htext⟩))
  exact ⟨language, old, new, hlanguage, hleads.readText_eq_ok_iff.mpr hold, hnew,
    hleads'.readText_eq_ok_iff.mpr htext⟩

/-- Components that have been put back are so in the end. -/
theorem areRestored {base divided : FileTree} {sites : List (String × Key)}
    (hscene : Scene base sites staged records) {items : List (Staged × Key)}
    (hitems : ∀ record ∈ items, record ∈ records) {flags : List Bool}
    (hchanged : FilesChanged (·.2) (RecordRestored base divided (items.map (·.2))) items divided tree
      flags)
    (hkeeps : base.KeepsWays divided)
    (hremoval : Removal tree (stagingPaths staged.staged) refused final) :
    AreRestored (items.map (·.1.path)) base divided final := by
  obtain ⟨hfinal, hsame, -⟩ := hremoval.sameUnmarked hscene.unmarked hscene.places
    (hkeeps.of_way?_eq hchanged.same.ways)
  intro path hpath
  obtain ⟨record, hrecord, rfl⟩ := List.mem_map.mp hpath
  obtain ⟨new, ⟨held, hheld, old, parts, hread, exchanges, hexchange, hordered⟩, htext⟩ :=
    hchanged.changed record hrecord
  refine ⟨held, old, new, exchanges, fun key hkey => hheld key fun hmem => ?_, hread.text, ?_, ?_,
    hordered, ?_⟩
  · obtain ⟨other, hother, rfl⟩ := List.mem_map.mp hmem
    exact hkey other.1.path (List.mem_map.mpr ⟨other, hother, rfl⟩)
      (hscene.leadsTo_record (hitems other hother))
  · rw [hexchange.sections]
    exact hread.sections
  · intro item hitem
    obtain ⟨language, hpart, hstaging⟩ := hexchange.texts item hitem
    exact ⟨language, hread.languages _ hpart, hstaging⟩
  · have hmarked := isMarked_site hscene.unmarked (hscene.isSite_record (hitems record hrecord))
    rw [HasText, ← hsame.get?_eq hmarked] at htext
    exact ((hscene.leadsTo_record (hitems record hrecord)).of_keepsWays hfinal
      (way?_eq_none.mpr (.inr ⟨_, htext⟩))).readText_eq_ok_iff.mpr htext

end Scene

end Phases

section Cases

variable {settings : Settings} {root : String} {runner : Runner σ} {before : World σ}
  {components sheets : List String} {failure : Failure}

theorem removal_cleanUp (state : State σ) :
    Removal state.world.tree (stagingPaths state.staged) (cleanUp state).1
      (cleanUp state).2.world.tree :=
  removal_removeStaging _ _

/-- Staging that fails is undone as a whole. -/
theorem world_cleanUp_staging (hsound : before.tree.IsSound) (hunmarked : IsUnmarked before.tree)
    (hfound : before.tree.findFiles root [settings.componentExtension] = .ok components)
    {next : State σ} (hfails : Fails (components.mapM stageComponent) ⟨before, []⟩ failure next) :
    (cleanUp next).2.world = before := by
  obtain rfl := findFiles_eq_ok hfound
  obtain ⟨hover, houtside, hcovered, hplaces⟩ := @stageSites σ _ hsound hunmarked _
    (fun site => hsound.isSite) ⟨before, []⟩ next rfl rfl (congrArg Prod.snd hfails)
  have htree := hover.eq_of_removal hunmarked hcovered hplaces (removal_cleanUp next)
  calc (cleanUp next).2.world
      = ⟨(cleanUp next).2.world.tree, next.world.outside⟩ := rfl
    _ = before := by rw [htree, houtside]

/-- The search for stylesheets finds the root as the search for components did. -/
theorem not_fails_listing (hsound : before.tree.IsSound) (hunmarked : IsUnmarked before.tree)
    (hfound : before.tree.findFiles root [settings.componentExtension] = .ok components)
    {counts : List Nat} {staged next : State σ}
    (hyields : Yields (components.mapM stageComponent) ⟨before, []⟩ counts staged) :
    ¬ Fails (findFiles root settings.stylesheetExtensions) staged failure next := by
  have hsites := findFiles_eq_ok hfound
  subst hsites
  obtain ⟨hover, -⟩ := @stageSites σ _ hsound hunmarked _ (fun site => hsound.isSite) ⟨before, []⟩
    staged rfl rfl (congrArg Prod.snd hyields)
  obtain ⟨paths, hlisted⟩ := exists_findFiles hover.ways hfound (fun key _ hget => by
    refine hover.same.get?_eq ?_
    rw [← Bool.not_eq_true]
    exact fun hmarked => hget (hunmarked.get?_eq_none hmarked)) settings.stylesheetExtensions
  rw [fails_findFiles, hlisted]
  exact fun hfails => nomatch hfails.1

/-- Where staging has come to its end. -/
theorem HaveStaged.exists_scene (hsound : before.tree.IsSound) (hunmarked : IsUnmarked before.tree)
    {staged : State σ} (hstaged : HaveStaged settings root before components sheets staged) :
    ∃ records, Scene before.tree (before.tree.sites root [settings.componentExtension]) staged
        records ∧
      components = records.map (·.1.path) ∧
      sheets = (staged.world.tree.sites root settings.stylesheetExtensions).map (·.1) := by
  obtain ⟨hfound, ⟨counts, hyields⟩, hlisted⟩ := hstaged
  obtain rfl := findFiles_eq_ok hfound
  obtain ⟨records, hscene⟩ := @Migration.exists_scene σ _ hsound hunmarked _
    (fun site => hsound.isSite) ⟨before, []⟩ staged rfl rfl _ hyields
  refine ⟨records, hscene, ?_, findFiles_eq_ok hlisted⟩
  rw [← hscene.found, List.map_map]
  rfl

theorem aftermath_migrating (hsound : before.tree.IsSound) (hunmarked : IsUnmarked before.tree)
    (hextension : settings.componentExtension ∉ settings.stylesheetExtensions) {staged next : State σ}
    (hstaged : HaveStaged settings root before components sheets staged)
    (hfails : Fails (sheets.mapM fun path => onTree fun tree => Sheet.migrateFile tree path) staged
      failure next) :
    Aftermath settings root runner before failure (cleanUp next).2.world := by
  obtain ⟨records, hscene, hcomponents, hsheets⟩ := hstaged.exists_scene hsound hunmarked
  obtain ⟨done, path, rest, flags, migrated, rfl, hdone, hfailed⟩ := fails_mapM hfails
  obtain ⟨hfailed, rfl⟩ := fails_onTree.mp hfailed
  obtain ⟨doneSites, laterSites, hlisting, rfl, hlater⟩ := List.map_eq_append_iff.mp hsheets.symm
  have hisSite : ∀ site ∈ doneSites ++ laterSites, staged.world.tree.IsSite site :=
    fun site hsite => hscene.stagedOver.sound.isSite (hlisting ▸ hsite)
  have hnodup : ((staged.world.tree.sites root settings.stylesheetExtensions).map (·.2)).Nodup :=
    nodup_sites hscene.stagedOver.sound.distinct
  have hnot := hscene.record_notMem_sheets hextension
  rw [hlisting, List.map_append] at hnodup hnot
  rw [List.nodup_append] at hnodup
  rw [List.forall_mem_append] at hisSite
  have hmigrates := hscene.migrates hisSite.1 hnodup.1 hdone
  have hremoval := removal_cleanUp next
  rw [hmigrates.record] at hremoval
  obtain ⟨present, hpresent⟩ := exists_findFiles rfl hstaged.1 (fun _ _ _ => rfl)
    settings.stylesheetExtensions
  obtain rfl := findFiles_eq_ok hpresent
  refine .migrating hstaged hdone hfailed ?_ ?_ hpresent ?_ ?_ ?_
  · rw [hcomponents]
    refine hscene.sameBytes_record hmigrates.toChanges hremoval (fun _ hmem => hmem) ?_
    exact fun record hrecord hmem => hnot record hrecord (List.mem_append_left _ hmem)
  · rw [← hlater]
    refine hscene.sameBytes_sheet hmigrates.toChanges hremoval hisSite.2 ?_
    exact fun site hsite hmem => hnodup.2.2 _ hmem _ (List.mem_map_of_mem hsite) rfl
  · intro sheet hsheet
    obtain ⟨site, hsite, rfl⟩ := List.mem_map.mp hsheet
    rw [← hlater, ← List.map_append, ← hlisting]
    exact List.mem_map_of_mem (mem_sites_of_way?_eq hscene.stagedOver.ways hsound.distinct
      hscene.stagedOver.sound.distinct hsite
      (hscene.stagedOver.same.get?_eq (isMarked_site hunmarked (hsound.isSite hsite))))
  · intro sheet hsheet hmem
    obtain ⟨site, hsite, rfl⟩ := List.mem_map.mp hsheet
    exact hscene.isRewritten hmigrates hremoval (hsound.isSite hsite) hmem
  · exact hscene.changedAt hmigrates.toChanges hremoval

/-- Where all stylesheets have been migrated. -/
theorem HaveMigrated.exists_scene (hsound : before.tree.IsSound)
    (hunmarked : IsUnmarked before.tree) {migrated : State σ}
    (hmigrated : HaveMigrated settings root before components sheets migrated) :
    ∃ records staged, Scene before.tree (before.tree.sites root [settings.componentExtension]) staged
        records ∧
      components = records.map (·.1.path) ∧
      ∃ sheetSites, sheetSites = staged.world.tree.sites root settings.stylesheetExtensions ∧
        sheets = sheetSites.map (·.1) ∧ Scene.Migrates before.tree staged migrated sheetSites := by
  obtain ⟨staged, hstaged, flags, hyields⟩ := hmigrated
  obtain ⟨records, hscene, hcomponents, rfl⟩ := hstaged.exists_scene hsound hunmarked
  exact ⟨records, staged, hscene, hcomponents, _, rfl, rfl,
    hscene.migrates (fun site => hscene.stagedOver.sound.isSite)
      (nodup_sites hscene.stagedOver.sound.distinct) hyields⟩

theorem aftermath_dividing (hsound : before.tree.IsSound) (hunmarked : IsUnmarked before.tree)
    (hextension : settings.componentExtension ∉ settings.stylesheetExtensions)
    (hrunner : ChangesGiven runner settings.command) {migrated next : State σ}
    (hmigrated : HaveMigrated settings root before components sheets migrated)
    (hfails : Fails (if settings.runDivision then divide settings runner sheets else pure [])
      migrated failure next) :
    Aftermath settings root runner before failure (cleanUp next).2.world := by
  obtain ⟨records, staged, hscene, hcomponents, sheetSites, rfl, rfl, hmigrates⟩ :=
    hmigrated.exists_scene hsound hunmarked
  have hchanges := hscene.changes_divide hrunner (fun site => hscene.stagedOver.sound.isSite)
    (nodup_sites hscene.stagedOver.sound.distinct) hmigrates (congrArg Prod.snd hfails)
  have hremoval := removal_cleanUp next
  rw [hchanges.record] at hremoval
  split at hfails
  · refine .dividing hmigrated hfails ?_ (hscene.changedAt hchanges hremoval)
    rw [hcomponents]
    exact hscene.sameBytes_record hchanges hremoval (fun _ hmem => hmem)
      (hscene.record_notMem_sheets hextension)
  · exact absurd hfails not_fails_pure

/-- Where the division command has done its work. -/
theorem HaveDivided.exists_scene (hsound : before.tree.IsSound)
    (hunmarked : IsUnmarked before.tree) (hrunner : ChangesGiven runner settings.command)
    {divided : State σ}
    (hdivided : HaveDivided settings root runner before components sheets divided) :
    ∃ records staged, Scene before.tree (before.tree.sites root [settings.componentExtension]) staged
        records ∧
      components = records.map (·.1.path) ∧
      ∃ sheetSites, sheetSites = staged.world.tree.sites root settings.stylesheetExtensions ∧
        sheets = sheetSites.map (·.1) ∧ Scene.Changes before.tree staged divided sheetSites := by
  obtain ⟨migrated, hmigrated, sizes, hyields⟩ := hdivided
  obtain ⟨records, staged, hscene, hcomponents, sheetSites, rfl, rfl, hmigrates⟩ :=
    hmigrated.exists_scene hsound hunmarked
  exact ⟨records, staged, hscene, hcomponents, _, rfl, rfl,
    hscene.changes_divide hrunner (fun site => hscene.stagedOver.sound.isSite)
      (nodup_sites hscene.stagedOver.sound.distinct) hmigrates (congrArg Prod.snd hyields)⟩

theorem aftermath_restoring (hsound : before.tree.IsSound) (hunmarked : IsUnmarked before.tree)
    (hextension : settings.componentExtension ∉ settings.stylesheetExtensions)
    (hrunner : ChangesGiven runner settings.command) {divided next : State σ}
    (hdivided : HaveDivided settings root runner before components sheets divided)
    (hfails : Fails (divided.staged.mapM fun staged => onTree staged.writeBack) divided failure
      next) :
    Aftermath settings root runner before failure (cleanUp next).2.world := by
  obtain ⟨records, staged, hscene, rfl, sheetSites, rfl, rfl, hchanges⟩ :=
    hdivided.exists_scene hsound hunmarked hrunner
  obtain ⟨done, component, rest, flags, restored, hrecorded, hdone, hfailed⟩ := fails_mapM hfails
  obtain ⟨hfailed, rfl⟩ := fails_onTree.mp hfailed
  have hrecords := hrecorded
  rw [hchanges.record, hscene.recorded, List.map_eq_append_iff] at hrecords
  obtain ⟨doneRecords, laterRecords, rfl, rfl, hlater⟩ := hrecords
  have hnodup := hscene.nodup_records
  have hnot := hscene.record_notMem_sheets hextension
  rw [List.map_append, List.nodup_append] at hnodup
  rw [List.forall_mem_append] at hnot
  have hmem : ∀ record ∈ doneRecords, record ∈ doneRecords ++ laterRecords :=
    fun record => List.mem_append_left _
  obtain ⟨hrestores, hchanged⟩ := hscene.restores hchanges hmem hnodup.1 hnot.1 hdone
  have hremoval := removal_cleanUp next
  rw [hrestores.record] at hremoval
  have hpaths (items : List (Staged × Key)) :
      (items.map (·.1)).map (·.path) = items.map (·.1.path) := List.map_map
  rw [← hpaths, List.map_append, hlater] at hdivided
  refine .restoring hdivided hrecorded hdone hfailed ?_ ?_ ?_
  · rw [hpaths]
    exact hscene.areRestored hmem hchanged hchanges.keeps hremoval
  · rw [← hlater, hpaths]
    refine hscene.sameBytes_record hrestores hremoval (fun record => List.mem_append_right _) ?_
    intro record hrecord hkey
    rw [List.map_append, List.map_map, List.mem_append] at hkey
    rcases hkey with hkey | hkey
    · exact hnodup.2.2 _ hkey _ (List.mem_map_of_mem hrecord) rfl
    · exact hnot.2 record hrecord hkey
  · have hat := hscene.changedAt hrestores hremoval
    rw [List.map_append, List.map_map] at hat
    rw [hpaths]
    exact hat

theorem aftermath_removal (hsound : before.tree.IsSound) (hunmarked : IsUnmarked before.tree)
    (hextension : settings.componentExtension ∉ settings.stylesheetExtensions)
    (hrunner : ChangesGiven runner settings.command) {divided next : State σ}
    (hdivided : HaveDivided settings root runner before components sheets divided)
    {flags : List Bool}
    (hdone : Yields (divided.staged.mapM fun staged => onTree staged.writeBack) divided flags next) :
    Aftermath settings root runner before (.leftover (cleanUp next).1) (cleanUp next).2.world := by
  obtain ⟨records, staged, hscene, rfl, sheetSites, rfl, rfl, hchanges⟩ :=
    hdivided.exists_scene hsound hunmarked hrunner
  have hyields := hdone
  rw [hchanges.record, hscene.recorded] at hyields
  obtain ⟨hrestores, hchanged⟩ := hscene.restores hchanges (fun _ hmem => hmem)
    hscene.nodup_records (hscene.record_notMem_sheets hextension) hyields
  have hremoval := removal_cleanUp next
  rw [hrestores.record] at hremoval
  refine .removal hdivided hdone ?_ ?_ ?_
  · rw [hchanges.record]
    exact hremoval.refused_sublist
  · exact hscene.areRestored (fun _ hmem => hmem) hchanged hchanges.keeps hremoval
  · have hat := hscene.changedAt hrestores hremoval
    rwa [List.map_append, List.map_map] at hat

end Cases

/-- A migration that fails, with a division command that changes no other files than those it is given.
All is as before if a component was not found or not staged. All components are as before if a
stylesheet could not be migrated, which is as before with all later ones, or if the division command
failed. If a component could not be put back, it is as before with all later ones. -/
theorem aftermath_migrate (settings : Settings) (root : String) (runner : Runner σ)
    (state : State σ) (failure : Failure) (hsound : state.world.tree.IsSound)
    (hunmarked : IsUnmarked state.world.tree)
    (hextension : settings.componentExtension ∉ settings.stylesheetExtensions)
    (hrunner : ChangesGiven runner settings.command)
    (hfailed : (migrate settings root runner state).1 = .error failure) :
    Aftermath settings root runner state.world failure
      (migrate settings root runner state).2.world := by
  rw [migrate_eq] at hfailed ⊢
  rcases hperform : perform (steps settings root runner) { state with staged := [] } with
    ⟨cause | report, last⟩
  · simp only [hperform] at hfailed ⊢
    cases hfailed
    rcases fails_bind.mp hperform with hnone | ⟨components, _, hsome, hrest₁⟩
    · obtain ⟨hsearch, rfl⟩ := fails_findFiles.mp hnone
      exact .search hsearch
    obtain ⟨hfound, rfl⟩ := yields_findFiles.mp hsome
    rcases fails_bind.mp hrest₁ with hstaging | ⟨counts, staged, hstaging, hrest₂⟩
    · rw [world_cleanUp_staging hsound hunmarked hfound hstaging]
      exact .staging hfound hstaging
    rcases fails_bind.mp hrest₂ with hnone | ⟨sheets, _, hsome, hrest₃⟩
    · exact absurd hnone (not_fails_listing hsound hunmarked hfound hstaging)
    obtain ⟨hlisted, rfl⟩ := yields_findFiles.mp hsome
    have hstaged : HaveStaged settings root state.world components sheets _ :=
      ⟨hfound, ⟨counts, hstaging⟩, hlisted⟩
    rcases fails_bind.mp hrest₃ with hmigrating | ⟨flags, migrated, hmigrating, hrest₄⟩
    · exact aftermath_migrating hsound hunmarked hextension hstaged hmigrating
    have hmigrated : HaveMigrated settings root state.world components sheets migrated :=
      ⟨_, hstaged, flags, hmigrating⟩
    rcases fails_bind.mp hrest₄ with hdividing | ⟨sizes, divided, hdividing, hrest₅⟩
    · exact aftermath_dividing hsound hunmarked hextension hrunner hmigrated hdividing
    have hdivided : HaveDivided settings root runner state.world components sheets divided :=
      ⟨migrated, hmigrated, sizes, hdividing⟩
    rcases fails_bind.mp hrest₅ with hget | ⟨_, _, hget, hrest₆⟩
    · cases hget
    cases hget
    rcases fails_bind.mp hrest₆ with hrestoring | ⟨_, _, -, hpure⟩
    · exact aftermath_restoring hsound hunmarked hextension hrunner hdivided hrestoring
    · exact absurd hpure not_fails_pure
  · simp only [hperform] at hfailed ⊢
    split at hfailed
    · cases hfailed
    cases hfailed
    obtain ⟨components, counts, staged, sheets, flags, migrated, sizes, divided, changed, hfound,
      hstaging, hlisted, hmigrating, hdividing, hrestoring, -⟩ := yields_steps hperform
    exact aftermath_removal hsound hunmarked hextension hrunner
      ⟨migrated, ⟨staged, ⟨hfound, ⟨counts, hstaging⟩, hlisted⟩, flags, hmigrating⟩, sizes, hdividing⟩
      hrestoring

/-- A project with a component and a note, and a link to it. -/
def linkedProject : FileTree where
  entries := [(["src"], .link "app"), (["app"], .directory),
    (["app", "notes"], .file "todo".toUTF8),
    (["app", "box.vue"], .file "<p/><style lang=\"scss\">.a >>> .b{}</style>".toUTF8)]

theorem isSound_linkedProject : linkedProject.IsSound := by
  decide +kernel

/-- A command of two words that leaves the last file it is given without a text. -/
def spoiler : Runner Unit := fun arguments world =>
  (.exited 0, { world with
    tree := match (arguments.drop 3).getLast? with
      | none => world.tree
      | some path =>
        match world.tree.writeBytes path ⟨#[0xff]⟩ with
        | .error _ => world.tree
        | .ok after => after })

theorem changesGiven_spoiler : ChangesGiven spoiler Settings.default.command := by
  intro batch world key hdiffers
  change (match batch.getLast? with
    | none => world.tree
    | some path =>
      match world.tree.writeBytes path ⟨#[0xff]⟩ with
      | .error _ => world.tree
      | .ok after => after).get? key ≠ _ at hdiffers
  split at hdiffers
  · exact absurd rfl hdiffers
  rename_i path hlast
  split at hdiffers
  · exact absurd rfl hdiffers
  rename_i after hwrite
  obtain ⟨found, hleads⟩ := writeBytes_eq_ok hwrite
  rw [hleads.writeBytes_eq, Except.ok.injEq] at hwrite
  subst hwrite
  obtain rfl : key = found := by
    false_or_by_contra
    rename_i hne
    exact hdiffers (by rw [get?_set, if_neg fun h => hne h.1])
  exact ⟨path, List.mem_of_getLast? hlast, hleads⟩

theorem aftermath_migrate_linkedProject :
    let start : State Unit := ⟨⟨linkedProject, ()⟩, []⟩
    let failure := Failure.io "src/box.vue.vue_sass_migrating.0.scss" .notText
    (migrate .default "src" spoiler start).1 = .error failure ∧
      Aftermath .default "src" spoiler ⟨linkedProject, ()⟩ failure
        (migrate .default "src" spoiler start).2.world := by
  intro start failure
  have hfailed : (migrate .default "src" spoiler start).1 = .error failure := by decide +kernel
  have hunmarked : IsUnmarked linkedProject := by
    unfold IsUnmarked
    decide +kernel
  exact ⟨hfailed, aftermath_migrate .default "src" spoiler start failure isSound_linkedProject
    hunmarked (by decide) changesGiven_spoiler hfailed⟩

end StyleMigration.Migration
