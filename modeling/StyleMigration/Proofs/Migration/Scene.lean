import StyleMigration.Proofs.Migration.Phases
import StyleMigration.Proofs.Migration.StagingArea

/-!
The phases of a migration that need not come to its end. Once all components are staged, each is on
record with all its sections (`exists_records`), and each phase goes through files at sites of their
own: the stylesheets that are found then (`migrateSites_eq`, `kept_runEach`) and the recorded components
(`restoreRecords_eq`). So what is done after staging is a list of sites with changed files
(`Scene.Changes`), and what no phase has changed is in the end as it was at first, whenever the staging
files are removed (`Scene.get?_final`).
-/

set_option autoImplicit false

namespace StyleMigration.Migration

open Command Component FileTree

variable {σ : Type} {base : FileTree} {sites : List (String × Key)} {flags : List Bool}

/-- What the paths lead to has the same bytes in both trees. -/
def SameBytes (paths : List String) (before after : FileTree) : Prop :=
  ∀ path ∈ paths, after.readBytes path = before.readBytes path

/-- Components that were all staged are on record in the order of their sites. -/
theorem exists_records (hsound : base.IsSound) (hunmarked : IsUnmarked base)
    (hsites : ∀ site ∈ sites, base.IsSite site) {state next : State σ}
    (hstaged : StagedOver base state.world.tree) {counts : List Nat}
    (hyields : Yields ((sites.map (·.1)).mapM stageComponent) state counts next) :
    ∃ records : List (Staged × Key), records.map (fun record => (record.1.path, record.2)) = sites ∧
      next.staged = state.staged ++ records.map (·.1) ∧
      ∀ record ∈ records, ∃ source parts, IsRecord base record.1 source parts := by
  induction sites generalizing state counts with
  | nil =>
    obtain ⟨-, rfl⟩ := yields_pure.mp hyields
    exact ⟨[], rfl, (List.append_nil _).symm, nofun⟩
  | cons site sites ih =>
    rw [List.forall_mem_cons] at hsites
    obtain ⟨count, between, rest, hfirst, hrest, rfl⟩ := yields_mapM_cons.mp hyields
    rw [Yields, perform_stageComponent, Prod.mk.injEq] at hfirst
    obtain ⟨hcount, rfl⟩ := hfirst
    split at hcount
    · cases hcount
    rename_i hstopped
    obtain ⟨source, parts, hrecord⟩ := isRecord_stage hstopped
    have hpath := path_stage state.world.tree site.1
    have hkept := hsites.1.readText_eq (keepsWays_of_way?_eq hstaged.ways)
      (hstaged.same.get?_eq (isMarked_site hunmarked hsites.1))
    obtain ⟨records, rfl, hnext, hrecords⟩ := ih hsites.2
      (hstaged.stage hunmarked (exists_isPlace hsound hsites.1)) hrest
    refine ⟨((stage state.world.tree site.1).recorded, site.2) :: records, ?_, ?_,
      List.forall_mem_cons.mpr ⟨⟨source, parts, ?_⟩, hrecords⟩⟩
    · rw [List.map_cons, hpath]
    · rw [hnext, List.map_cons]
      exact (List.append_cons ..).symm
    · refine ⟨?_, hrecord.sections, hrecord.languages, hrecord.chunks⟩
      rw [hpath, ← hkept, ← hpath]
      exact hrecord.text

/-- All components at the sites were staged, with their record. -/
structure Scene (base : FileTree) (sites : List (String × Key)) (staged : State σ)
    (records : List (Staged × Key)) : Prop where
  sound : base.IsSound
  unmarked : IsUnmarked base
  stagedOver : StagedOver base staged.world.tree
  recorded : staged.staged = records.map (·.1)
  found : records.map (fun record => (record.1.path, record.2)) = sites
  isSite : ∀ site ∈ sites, base.IsSite site
  isRecord : ∀ record ∈ records, ∃ source parts, IsRecord base record.1 source parts
  covered : CoveredBy (stagingPaths staged.staged) base staged.world.tree
  places : ∀ path ∈ stagingPaths staged.staged, ∃ key, IsPlace base path key

/-- Staging components at sites, however it ends. -/
theorem stageSites {base : FileTree} (hsound : base.IsSound) (hunmarked : IsUnmarked base)
    {sites : List (String × Key)} (hsites : ∀ site ∈ sites, base.IsSite site) {state next : State σ}
    (hbase : state.world.tree = base) (hstaged : state.staged = [])
    (hnext : (perform ((sites.map (·.1)).mapM stageComponent) state).2 = next) :
    StagedOver base next.world.tree ∧ next.world.outside = state.world.outside ∧
      CoveredBy (stagingPaths next.staged) base next.world.tree ∧
      ∀ path ∈ stagingPaths next.staged, ∃ key, IsPlace base path key := by
  subst hbase hnext
  obtain ⟨hover, houtside, more, hmore, hproper⟩ :=
    keeps_stagesSites hsound hunmarked hsites state (StagedOver.refl hsound)
  obtain ⟨-, more', hmore', hcovered⟩ := keeps_recordsChanges (sites.map (·.1)) state
  rw [hstaged, List.nil_append] at hmore hmore'
  refine ⟨hover, houtside, hmore' ▸ hcovered, fun path hpath => ?_⟩
  obtain ⟨component, hcomponent, hpath⟩ := List.mem_flatMap.mp hpath
  obtain ⟨chunk, hchunk, rfl⟩ := List.mem_map.mp hpath
  obtain ⟨hsite, hpaths⟩ := hproper component (hmore ▸ hcomponent)
  obtain ⟨site, hsite, hsitePath⟩ := List.mem_map.mp hsite
  obtain ⟨index, language, hstaging⟩ := hpaths chunk hchunk
  rw [hstaging, ← hsitePath]
  exact exists_isPlace hsound (hsites site hsite) index language

theorem exists_scene {base : FileTree} (hsound : base.IsSound) (hunmarked : IsUnmarked base)
    {sites : List (String × Key)} (hsites : ∀ site ∈ sites, base.IsSite site) {state staged : State σ}
    (hbase : state.world.tree = base) (hstaged : state.staged = []) {counts : List Nat}
    (hyields : Yields ((sites.map (·.1)).mapM stageComponent) state counts staged) :
    ∃ records, Scene base sites staged records := by
  obtain ⟨hover, -, hcovered, hplaces⟩ := stageSites hsound hunmarked hsites hbase hstaged
    (congrArg Prod.snd hyields)
  obtain ⟨records, hfound, hrecorded, hrecords⟩ := exists_records hsound hunmarked hsites
    (hbase ▸ StagedOver.refl (hbase ▸ hsound)) hyields
  rw [hstaged, List.nil_append] at hrecorded
  exact ⟨records, hsound, hunmarked, hover, hrecorded, hfound, hsites, hrecords, hcovered, hplaces⟩

namespace Scene

variable {base tree final : FileTree} {sites : List (String × Key)} {staged : State σ}
  {records : List (Staged × Key)} {refused : List String}

theorem keepsWays (hscene : Scene base sites staged records) :
    base.KeepsWays staged.world.tree :=
  keepsWays_of_way?_eq hscene.stagedOver.ways

/-- What has not changed since the components were staged is in the end as it was at first. -/
theorem get?_final (hscene : Scene base sites staged records) (hkeeps : base.KeepsWays tree)
    (hremoval : Removal tree (stagingPaths staged.staged) refused final) {key : Key}
    (hget : tree.get? key = staged.world.tree.get? key) : final.get? key = base.get? key := by
  obtain ⟨-, hsame, hless⟩ := hremoval.sameUnmarked hscene.unmarked hscene.places hkeeps
  cases hkey : isMarked key with
  | false => rw [hsame.get?_eq hkey, hget, hscene.stagedOver.same.get?_eq hkey]
  | true =>
    rw [hscene.unmarked.get?_eq_none hkey]
    cases hfinal : final.get? key with
    | none => rfl
    | some entry =>
      have hadded : staged.world.tree.get? key ≠ none := by
        simp [← hget, hless key entry hfinal]
      have hway : tree.way? key = none := by
        rw [way?, hget, ← way?, ← hscene.stagedOver.ways]
        exact hscene.unmarked.way?_eq_none hkey
      rw [← hfinal, hremoval.get?_of_coveredBy hscene.unmarked hscene.places hkeeps hscene.stagedOver
        hscene.covered hkey hadded hway]

/-- The component of a record is at a site. -/
theorem isSite_record (hscene : Scene base sites staged records) {record : Staged × Key}
    (hrecord : record ∈ records) : base.IsSite (record.1.path, record.2) := by
  apply hscene.isSite
  rw [← hscene.found]
  exact List.mem_map.mpr ⟨record, hrecord, rfl⟩

/-- The path of a recorded component leads to it. -/
theorem leadsTo_record (hscene : Scene base sites staged records) {record : Staged × Key}
    (hrecord : record ∈ records) : base.LeadsTo true record.1.path record.2 := by
  obtain ⟨source, parts, hread⟩ := hscene.isRecord record hrecord
  obtain ⟨place, hresolve⟩ := resolve_of_readText hread.text
  exact (hscene.isSite_record hrecord).leadsTo (keepsWays_of_way?_eq rfl)
    (hscene.isSite_record hrecord).noWay hresolve

end Scene

/-- What the migration of a stylesheet makes of it. -/
structure SiteMigrated (start : FileTree) (site : String × Key) (text : List Char) : Prop where
  led : start.LeadsTo true site.1 site.2
  migrated : ∃ language old, Language.ofPath site.1 = .ok language ∧
    start.HasText site.2 old ∧ Sheet.migrate language old = .ok text

/-- Migrating stylesheets at sites one after the other. -/
theorem migrateSites_eq {state next : State σ}
    (hsites : ∀ site ∈ sites, state.world.tree.IsSite site) (hnodup : (sites.map (·.2)).Nodup)
    (hyields : Yields ((sites.map (·.1)).mapM fun path =>
      onTree fun tree => Sheet.migrateFile tree path) state flags next) :
    next.staged = state.staged ∧
      FilesChanged (·.2) (SiteMigrated state.world.tree) sites state.world.tree next.world.tree
        flags := by
  refine migrateFiles_eq ?_ hnodup hyields
  intro site hmem tree place hways hresolve
  have hsite := hsites site hmem
  have hleads := hsite.leadsTo (keepsWays_of_way?_eq hways) (hways ▸ hsite.noWay) hresolve
  refine ⟨hleads, fun language old new hlanguage hold hnew => ?_⟩
  exact ⟨hleads.of_way?_eq hways.symm, language, old, hlanguage, hold, hnew⟩

section Division

variable {base : FileTree} {runner : Runner σ} {command : List String} {sites : List (String × Key)}
  {world : World σ}

/-- Running the division command on a batch of files at sites. It reaches these files and no others. -/
theorem kept_runner (hrunner : ChangesGiven runner command)
    (hsites : ∀ site ∈ sites, base.IsSite site) (hkeeps : base.KeepsWays world.tree)
    (hways : ∀ site ∈ sites, world.tree.way? site.2 = none) {after : World σ}
    (hafter : (runner (command ++ division :: sites.map (·.1)) world).2 = after) :
    base.KeepsWays after.tree ∧
      ∀ key ∉ sites.map (·.2), after.tree.get? key = world.tree.get? key := by
  subst hafter
  have hreached : ∀ key, (runner (command ++ division :: sites.map (·.1)) world).2.tree.get? key ≠
      world.tree.get? key → key ∈ sites.map (·.2) := by
    intro key hdiffers
    obtain ⟨path, hpath, hleads⟩ := hrunner _ world key hdiffers
    obtain ⟨site, hsite, rfl⟩ := List.mem_map.mp hpath
    have hsiteLeads := (hsites site hsite).leadsTo hkeeps (hways site hsite) hleads.resolves
    exact hleads.key_eq hsiteLeads ▸ List.mem_map_of_mem hsite
  constructor
  · refine hkeeps.of_kept fun key hdiffers => ?_
    obtain ⟨site, hsite, rfl⟩ := List.mem_map.mp (hreached key hdiffers)
    exact (hsites site hsite).noWay
  · intro key hkey
    false_or_by_contra
    rename_i hdiffers
    exact hkey (hreached key hdiffers)

/-- Running the division command on files at sites, however it ends. -/
theorem kept_runEach (hrunner : ChangesGiven runner command) {groups : List (List String)}
    (hgroups : groups.flatten = sites.map (·.1)) (hsites : ∀ site ∈ sites, base.IsSite site)
    (hnodup : (sites.map (·.2)).Nodup) (hkeeps : base.KeepsWays world.tree)
    (hways : ∀ site ∈ sites, world.tree.way? site.2 = none) :
    base.KeepsWays (runEach runner command world groups).2.tree ∧
      ∀ key ∉ sites.map (·.2),
        (runEach runner command world groups).2.tree.get? key = world.tree.get? key := by
  induction groups generalizing sites world with
  | nil => exact ⟨hkeeps, fun _ _ => rfl⟩
  | cons batch groups ih =>
    rw [List.flatten_cons, eq_comm, List.map_eq_append_iff] at hgroups
    obtain ⟨first, rest, rfl, rfl, hrest⟩ := hgroups
    rw [List.forall_mem_append] at hsites hways
    rw [List.map_append, List.nodup_append] at hnodup
    obtain ⟨-, hnodup, hdisjoint⟩ := hnodup
    simp only [List.map_append, List.mem_append, not_or]
    rw [runEach]
    rcases hlaunch : runner (command ++ division :: first.map (·.1)) world with ⟨launch, after⟩
    obtain ⟨hkeeps', hkept⟩ :=
      kept_runner hrunner hsites.1 hkeeps hways.1 (congrArg Prod.snd hlaunch)
    have hended : base.KeepsWays after.tree ∧ ∀ key,
        key ∉ first.map (·.2) ∧ key ∉ rest.map (·.2) → after.tree.get? key = world.tree.get? key :=
      ⟨hkeeps', fun key hkey => hkept key hkey.1⟩
    cases launch with
    | failed cause => exact hended
    | signalled => exact hended
    | exited code =>
      simp only
      split
      · have hways' : ∀ site ∈ rest, after.tree.way? site.2 = none := by
          intro site hsite
          have hnot : site.2 ∉ first.map (·.2) := fun hmem =>
            hdisjoint _ hmem _ (List.mem_map_of_mem hsite) rfl
          rw [way?, hkept _ hnot, ← way?]
          exact hways.2 site hsite
        obtain ⟨hlast, hlastKept⟩ := ih hrest.symm hsites.2 hnodup hkeeps' hways'
        refine ⟨hlast, fun key hkey => ?_⟩
        rw [hlastKept key hkey.2, hkept key hkey.1]
      · exact hended

end Division

/-- What putting a component back makes of it. The texts come from a tree that has what the first one
has, but for some keys. -/
def RecordRestored (base start : FileTree) (keys : List Key) (record : Staged × Key)
    (text : List Char) : Prop :=
  ∃ held : FileTree, (∀ key ∉ keys, held.get? key = start.get? key) ∧
    ∃ source parts, IsRecord base record.1 source parts ∧
      ∃ exchanges, IsExchange held record.1.path parts exchanges ∧
        ∃ ordered, ordered.Perm exchanges ∧ Substituted 0 source ordered text

/-- Putting recorded components back one after the other. -/
theorem Scene.restoreRecords_eq {staged : State σ}
    {records : List (Staged × Key)} (hscene : Scene base sites staged records)
    {items : List (Staged × Key)} (hitems : ∀ record ∈ items, record ∈ records)
    (hnodup : (items.map (·.2)).Nodup) {state next : State σ}
    (hkeeps : base.KeepsWays state.world.tree)
    (hkept : ∀ record ∈ items, state.world.tree.get? record.2 = base.get? record.2)
    (hyields : Yields ((items.map (·.1)).mapM fun staged => onTree fun tree => staged.writeBack tree)
      state flags next) :
    next.staged = state.staged ∧
      FilesChanged (·.2) (RecordRestored base state.world.tree (items.map (·.2))) items
        state.world.tree next.world.tree flags := by
  rw [List.mapM_map] at hyields
  replace hyields : Yields (items.mapM fun record => onTree fun tree => record.1.writeBack tree)
    state flags next := hyields
  refine yields_mapM_onTree ?_ (fun _ hmem => hmem) hnodup rfl (fun _ _ => rfl) hyields
  intro record hmem tree flag after hways hsame hback
  have hrecord := hitems record hmem
  have hsite := hscene.isSite_record hrecord
  have hkeeps' := hkeeps.of_way?_eq hways
  have hget : tree.get? record.2 = base.get? record.2 := by
    rw [hsame _ (.inr rfl), hkept record hmem]
  have hway : tree.way? record.2 = none := by rw [way?, hget, ← way?, hsite.noWay]
  obtain ⟨source, parts, hread⟩ := hscene.isRecord record hrecord
  obtain ⟨output, ⟨exchanges, hexchange, hordered⟩, hafter⟩ := hread.writeBack_eq_ok
    (hsite.readText_eq hkeeps' hget) ((hscene.leadsTo_record hrecord).of_keepsWays hkeeps' hway) hback
  exact ⟨output, ⟨tree, fun key hkey => hsame key (.inl hkey), source, parts, hread, exchanges,
    hexchange, hordered⟩, hafter⟩

section Phases

variable {settings : Settings} {root : String} {runner : Runner σ}
  {records : List (Staged × Key)} {staged : State σ} {refused : List String}

namespace Scene

/-- Since staging nothing was done but to change files at sites, to which their paths lead. -/
structure Changes (base : FileTree) (staged next : State σ) (done : List (String × Key)) :
    Prop where
  record : next.staged = staged.staged
  keeps : base.KeepsWays next.world.tree
  kept : ∀ key ∉ done.map (·.2), next.world.tree.get? key = staged.world.tree.get? key
  led : ∀ site ∈ done, base.LeadsTo true site.1 site.2

section Changes

variable {base final : FileTree} {sites done : List (String × Key)} {next : State σ}
  (hscene : Scene base sites staged records) (hchanges : Changes base staged next done)
  (hremoval : Removal next.world.tree (stagingPaths staged.staged) refused final)

include hscene hchanges hremoval

/-- Components that were not changed are as before in the end. -/
theorem sameBytes_record {items : List (Staged × Key)} (hitems : ∀ record ∈ items, record ∈ records)
    (hnot : ∀ record ∈ items, record.2 ∉ done.map (·.2)) :
    SameBytes (items.map (·.1.path)) base final := by
  intro path hpath
  obtain ⟨record, hrecord, rfl⟩ := List.mem_map.mp hpath
  have hsite := hscene.isSite_record (hitems record hrecord)
  obtain ⟨hfinal, -, -⟩ := hremoval.sameUnmarked hscene.unmarked hscene.places hchanges.keeps
  exact hsite.readBytes_eq hfinal (keepsWays_of_way?_eq rfl)
    (hscene.get?_final hchanges.keeps hremoval (hchanges.kept _ (hnot record hrecord))) hsite.noWay

/-- Stylesheets that were not changed are as before in the end. -/
theorem sameBytes_sheet {sheets : List (String × Key)}
    (hsheets : ∀ site ∈ sheets, staged.world.tree.IsSite site)
    (hnot : ∀ site ∈ sheets, site.2 ∉ done.map (·.2)) : SameBytes (sheets.map (·.1)) base final := by
  intro path hpath
  obtain ⟨site, hsite, rfl⟩ := List.mem_map.mp hpath
  obtain ⟨hfinal, -, -⟩ := hremoval.sameUnmarked hscene.unmarked hscene.places hchanges.keeps
  have hways := hscene.stagedOver.ways
  refine (hsheets site hsite).readBytes_eq ((keepsWays_congr hways).mp hfinal)
    (keepsWays_of_way?_eq hways.symm)
    (hscene.get?_final hchanges.keeps hremoval (hchanges.kept _ (hnot site hsite))) ?_
  rw [hways]
  exact (hsheets site hsite).noWay

/-- What differs in the end is where the paths of the changed files led. -/
theorem changedAt : ChangedAt (done.map (·.1)) base final := by
  intro key hdiffers
  have hmem : key ∈ done.map (·.2) := by
    false_or_by_contra
    rename_i hnot
    exact hdiffers (hscene.get?_final hchanges.keeps hremoval (hchanges.kept key hnot))
  obtain ⟨site, hsite, rfl⟩ := List.mem_map.mp hmem
  exact ⟨site.1, List.mem_map_of_mem hsite, hchanges.led site hsite⟩

end Changes

/-- Components are no stylesheets, also after staging. -/
theorem record_notMem_sheets {searched : String} {extensions : List String}
    (hscene : Scene base (base.sites root [searched]) staged records)
    (hextension : searched ∉ extensions) :
    ∀ record ∈ records, record.2 ∉ (staged.world.tree.sites root extensions).map (·.2) := by
  intro record hrecord hmem
  obtain ⟨site, hsite, hkey⟩ := List.mem_map.mp hmem
  have hfound : (record.1.path, record.2) ∈ base.sites root [searched] := by
    rw [← hscene.found]
    exact List.mem_map.mpr ⟨record, hrecord, rfl⟩
  have hkept := hscene.stagedOver.same.get?_eq
    (isMarked_site hscene.unmarked (hscene.isSite_record hrecord))
  have hfound' := mem_sites_of_way?_eq hscene.stagedOver.ways hscene.sound.distinct
    hscene.stagedOver.sound.distinct hfound hkept
  exact sites_disjoint hscene.stagedOver.sound.distinct hextension hfound' hsite hkey.symm

theorem nodup_records {extensions : List String}
    (hscene : Scene base (base.sites root extensions) staged records) :
    (records.map (·.2)).Nodup := by
  have hnodup : ((base.sites root extensions).map (·.2)).Nodup := nodup_sites hscene.sound.distinct
  rwa [← hscene.found, List.map_map] at hnodup

/-- Since staging nothing was done but to migrate stylesheets. -/
structure Migrates (base : FileTree) (staged migrated : State σ) (done : List (String × Key)) : Prop
    extends Changes base staged migrated done where
  texts : ∀ site ∈ done, ∃ text, SiteMigrated staged.world.tree site text ∧
    migrated.world.tree.HasText site.2 text

theorem migrates {done : List (String × Key)} {migrated : State σ}
    (hscene : Scene base sites staged records)
    (hdone : ∀ site ∈ done, staged.world.tree.IsSite site) (hnodup : (done.map (·.2)).Nodup)
    (hyields : Yields ((done.map (·.1)).mapM fun path =>
      onTree fun tree => Sheet.migrateFile tree path) staged flags migrated) :
    Migrates base staged migrated done := by
  obtain ⟨hrecord, hchanged⟩ := migrateSites_eq hdone hnodup hyields
  refine ⟨⟨hrecord, hscene.keepsWays.of_way?_eq hchanged.same.ways, hchanged.same.kept, ?_⟩,
    hchanged.changed⟩
  intro site hsite
  obtain ⟨text, hmigrated, -⟩ := hchanged.changed site hsite
  exact hmigrated.led.of_way?_eq hscene.stagedOver.ways.symm

/-- The division command changes no more than the stylesheets, however it ends. -/
theorem changes_divide {sheets : List (String × Key)} {migrated : State σ}
    (hscene : Scene base sites staged records) (hrunner : ChangesGiven runner settings.command)
    (hsheets : ∀ site ∈ sheets, staged.world.tree.IsSite site) (hnodup : (sheets.map (·.2)).Nodup)
    (hmigrates : Migrates base staged migrated sheets) {divided : State σ}
    (hdivided : (perform (if settings.runDivision then
      divide settings runner (sheets.map (·.1)) else pure []) migrated).2 = divided) :
    Changes base staged divided sheets := by
  subst hdivided
  split
  · rw [perform_divide]
    have hways : ∀ site ∈ sheets, migrated.world.tree.way? site.2 = none := by
      intro site hsite
      obtain ⟨text, -, htext⟩ := hmigrates.texts site hsite
      exact way?_eq_none.mpr (.inr ⟨_, htext⟩)
    obtain ⟨hkeeps, hkept⟩ := kept_runEach hrunner (flatten_batches settings.batchSize _)
      hsheets hnodup ((keepsWays_congr hscene.stagedOver.ways).mp hmigrates.keeps) hways
    refine ⟨hmigrates.record, (keepsWays_congr hscene.stagedOver.ways).mpr hkeeps, fun key hkey => ?_,
      hmigrates.led⟩
    exact (hkept key hkey).trans (hmigrates.kept key hkey)
  · exact hmigrates.toChanges

/-- Putting components back changes them and nothing else. -/
theorem restores {sheets : List (String × Key)} {divided restored : State σ}
    (hscene : Scene base sites staged records) (hdivided : Changes base staged divided sheets)
    {items : List (Staged × Key)} (hitems : ∀ record ∈ items, record ∈ records)
    (hnodup : (items.map (·.2)).Nodup) (hnot : ∀ record ∈ items, record.2 ∉ sheets.map (·.2))
    (hyields : Yields ((items.map (·.1)).mapM fun staged => onTree fun tree => staged.writeBack tree)
      divided flags restored) :
    Changes base staged restored (items.map (fun record => (record.1.path, record.2)) ++ sheets) ∧
      FilesChanged (·.2) (RecordRestored base divided.world.tree (items.map (·.2))) items
        divided.world.tree restored.world.tree flags := by
  have hkept : ∀ record ∈ items, divided.world.tree.get? record.2 = base.get? record.2 := by
    intro record hrecord
    rw [hdivided.kept _ (hnot record hrecord)]
    exact hscene.stagedOver.same.get?_eq
      (isMarked_site hscene.unmarked (hscene.isSite_record (hitems record hrecord)))
  obtain ⟨hrecord, hchanged⟩ := hscene.restoreRecords_eq hitems hnodup hdivided.keeps hkept hyields
  refine ⟨⟨hrecord.trans hdivided.record, hdivided.keeps.of_way?_eq hchanged.same.ways, ?_, ?_⟩,
    hchanged⟩
  · intro key hkey
    rw [List.map_append, List.map_map, List.mem_append, not_or] at hkey
    rw [hchanged.same.kept key hkey.1, hdivided.kept key hkey.2]
  · rw [List.forall_mem_append]
    refine ⟨fun site hsite => ?_, hdivided.led⟩
    obtain ⟨record, hrecord, rfl⟩ := List.mem_map.mp hsite
    exact hscene.leadsTo_record (hitems record hrecord)

end Scene

end Phases

end StyleMigration.Migration
