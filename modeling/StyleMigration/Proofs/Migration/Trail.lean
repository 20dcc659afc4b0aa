import StyleMigration.Proofs.Migration.Phases

/-!
The trail of a migration. A second search goes through the project once its components are staged. It
finds the stylesheets that were there and the staged sections in the languages asked for, each once
(`found_perm`), and no component if components have another extension. So each phase meets its files as
the one before it left them, and a migration that does not fail has gone through all phases
(`exists_trail`).
-/

set_option autoImplicit false

namespace StyleMigration.Migration

open Command Component FileTree

section Discovery

variable {base staged : FileTree} {root : String} {top names : Key} {extracts : List Extract}
  {searched extensions : List String}

/-- The names of the staging files of a component that have one of the extensions. -/
def stagedNames (extensions : List String) (extract : Extract) : List Key :=
  (extract.parts.filter fun part => extensions.contains part.2.name).map fun part =>
    stagingKey extract.names part.1.index part.2

theorem append_stagingKey (hnames : names ≠ []) (part : Section × Language) :
    top ++ stagingKey names part.1.index part.2 = partKey top names part :=
  (stagingKey_append top hnames part.1.index part.2).symm

theorem hasExtension_stagingPath (name : String) (extensions : List String) (index : Nat)
    (language : Language) :
    hasExtension extensions (stagingPath name index language) = extensions.contains language.name := by
  rw [hasExtension, extension?_stagingPath, Option.any_some]

/-- What a search finds in a component's directory it finds, of the staging files, by their
language. -/
theorem searchable_stagingKey (hspot : base.Spot top names)
    (hhidden : ∀ name ∈ names, isHidden name = false) (extensions : List String)
    (part : Section × Language) :
    (∀ name ∈ stagingKey names part.1.index part.2, isHidden name = false) ∧
      ((∃ name, (stagingKey names part.1.index part.2).getLast? = some name ∧
        hasExtension extensions name = true) ↔ extensions.contains part.2.name = true) := by
  obtain ⟨front, name, rfl⟩ : ∃ front name, names = front ++ [name] :=
    ⟨_, _, (List.dropLast_concat_getLast hspot.ne_nil).symm⟩
  have hname := hspot.named name (by simp)
  rw [stagingKey_concat]
  constructor
  · intro other hother
    rcases List.mem_append.mp hother with hfront | hlast
    · exact hhidden other (List.mem_append_left _ hfront)
    · rw [List.mem_singleton.mp hlast, isHidden_stagingPath hname.nonempty]
      exact hhidden name (by simp)
  · simp [hasExtension_stagingPath]

/-- Staging files have names of their own. -/
theorem nodup_stagedNames (hnodup : (extracts.map (·.names)).Nodup)
    (hne : ∀ extract ∈ extracts, extract.names ≠ [])
    (hfrom : ∀ extract ∈ extracts, extract.IsFrom base root top) (extensions : List String) :
    (extracts.flatMap (stagedNames extensions)).Nodup := by
  refine List.pairwise_flatMap.mpr ⟨fun extract hextract => ?_, ?_⟩
  · have hindices := (sections_eq_ok (hfrom extract hextract).sections).1
    rw [List.map_map] at hindices
    refine List.pairwise_map.mpr (((List.pairwise_map.mp hindices).filter _).imp ?_)
    intro part part' hindex hkey
    exact hindex (stagingKey_inj (hne extract hextract) (hne extract hextract) hkey).2.1
  · refine List.Pairwise.imp_of_mem ?_ (List.pairwise_map.mp hnodup)
    intro extract extract' hextract hextract' hnames key hkey key' hkey' heq
    obtain ⟨part, -, rfl⟩ := List.mem_map.mp hkey
    obtain ⟨part', -, rfl⟩ := List.mem_map.mp hkey'
    exact hnames (stagingKey_inj (hne extract hextract) (hne extract' hextract') heq).1

variable (hproject : IsProject base root top)
include hproject

theorem get?_of_mem_stagedNames (hne : ∀ extract ∈ extracts, extract.names ≠ [])
    (hmem : names ∈ extracts.flatMap (stagedNames extensions)) :
    base.get? (top ++ names) = none := by
  obtain ⟨extract, hextract, hmem⟩ := List.mem_flatMap.mp hmem
  obtain ⟨part, -, rfl⟩ := List.mem_map.mp hmem
  rw [append_stagingKey (hne extract hextract), hproject.get?_partKey (hne extract hextract)]

/-- A file that a search found is not found by a search for other extensions. -/
theorem notMem_found {searched : String} (hsearched : searched ∉ extensions)
    (hnames : names ∈ base.found root top [searched]) : names ∉ base.found root top extensions := by
  intro hother
  obtain ⟨-, -, -, -, name, hlast, hextension⟩ :=
    (mem_found_iff hproject.sound.distinct).mp hnames
  obtain ⟨-, -, -, -, name', hlast', hextension'⟩ :=
    (mem_found_iff hproject.sound.distinct).mp hother
  obtain rfl : name = name' := Option.some.inj (hlast.symm.trans hlast')
  rw [hasExtension, Option.any_eq_true] at hextension hextension'
  obtain ⟨extension, heq, hmem⟩ := hextension
  obtain ⟨extension', heq', hmem'⟩ := hextension'
  obtain rfl : extension = extension' := Option.some.inj (heq.symm.trans heq')
  rw [List.contains_eq_mem, decide_eq_true_iff] at hmem hmem'
  exact hsearched (List.mem_singleton.mp hmem ▸ hmem')

variable (hfound : extracts.map (·.names) = base.found root top searched)
include hfound

/-- Components that a search found are files. -/
theorem files_of_found :
    ∀ extract ∈ extracts, extract.names ≠ [] ∧
      ∃ bytes, base.get? (top ++ extract.names) = some (.file bytes) := by
  intro extract hextract
  have hmem : extract.names ∈ base.found root top searched := hfound ▸ List.mem_map_of_mem hextract
  obtain ⟨-, hne, hfile, -⟩ := (mem_found_iff hproject.sound.distinct).mp hmem
  exact ⟨hne, hfile⟩

variable (hstaging : ComponentsStaged base root top extracts base staged)
include hstaging

/-- After staging, a search finds what it found before, and the staged sections in the languages it
asks for. -/
theorem found_perm (extensions : List String) :
    (staged.found root top extensions).Perm
      (base.found root top extensions ++ extracts.flatMap (stagedNames extensions)) := by
  have hdistinct := hproject.sound.distinct
  have hcomponents : ∀ extract ∈ extracts, extract.names ∈ base.found root top searched :=
    fun extract hextract => hfound ▸ List.mem_map_of_mem hextract
  simp only [mem_found_iff hdistinct] at hcomponents
  have hne : ∀ extract ∈ extracts, extract.names ≠ [] := fun extract hextract =>
    (hcomponents extract hextract).2.1
  have hnodup : (extracts.map (·.names)).Nodup := hfound ▸ nodup_found hdistinct root top searched
  have hkept : ∀ {key entry}, base.get? key = some entry → staged.get? key = base.get? key := by
    intro key entry hget
    apply hstaging.same.kept
    intro hmem
    obtain ⟨extract, hextract, hmem⟩ := List.mem_flatMap.mp hmem
    exact hproject.notMem_stagingKeys hget (hne extract hextract) hmem
  rw [List.perm_ext_iff_of_nodup (nodup_found (hstaging.distinct hdistinct) _ _ _)]
  · intro names
    rw [List.mem_append, mem_found_iff hdistinct, mem_found_iff (hstaging.distinct hdistinct)]
    constructor
    · rintro ⟨hinput, hnames, ⟨bytes, hget⟩, hhidden, hlast⟩
      by_cases hmem : top ++ names ∈ extracts.flatMap (stagingKeys top)
      · right
        obtain ⟨extract, hextract, hmem⟩ := List.mem_flatMap.mp hmem
        obtain ⟨part, hpart, hkey⟩ := List.mem_map.mp hmem
        rw [← append_stagingKey (hne extract hextract)] at hkey
        obtain rfl := List.append_cancel_left hkey
        obtain ⟨-, -, ⟨_, hfile⟩, hshown, -⟩ := hcomponents extract hextract
        have hspot := hproject.sound.spot (hne extract hextract) hfile
        rw [(searchable_stagingKey hspot hshown extensions part).2] at hlast
        exact List.mem_flatMap.mpr ⟨extract, hextract,
          List.mem_map.mpr ⟨part, List.mem_filter.mpr ⟨hpart, hlast⟩, rfl⟩⟩
      · left
        rw [hstaging.same.kept _ hmem] at hget
        exact ⟨hinput, hnames, ⟨bytes, hget⟩, hhidden, hlast⟩
    · rintro (⟨hinput, hnames, ⟨bytes, hget⟩, hhidden, hlast⟩ | hmem)
      · exact ⟨hinput, hnames, ⟨bytes, by rw [hkept hget, hget]⟩, hhidden, hlast⟩
      · obtain ⟨extract, hextract, hmem⟩ := List.mem_flatMap.mp hmem
        obtain ⟨part, hpart, rfl⟩ := List.mem_map.mp hmem
        obtain ⟨hpart, hlanguage⟩ := List.mem_filter.mp hpart
        obtain ⟨hinput, -, ⟨_, hfile⟩, hshown, -⟩ := hcomponents extract hextract
        have hspot := hproject.sound.spot (hne extract hextract) hfile
        obtain ⟨hhidden, hlast⟩ := searchable_stagingKey hspot hshown extensions part
        have hwritten := hstaging.written extract hextract part hpart
        rw [← append_stagingKey (hne extract hextract)] at hwritten
        exact ⟨hinput, (hproject.spot_stagingKey hspot _ _).ne_nil, ⟨_, hwritten⟩, hhidden,
          hlast.mpr hlanguage⟩
  · refine List.nodup_append.mpr ⟨nodup_found hdistinct _ _ _,
      nodup_stagedNames hnodup hne hstaging.taken extensions, ?_⟩
    rintro names hold _ hnew rfl
    obtain ⟨-, -, ⟨bytes, hget⟩, -⟩ := (mem_found_iff hdistinct).mp hold
    rw [get?_of_mem_stagedNames hproject hne hnew] at hget
    cases hget

/-- All stylesheets after staging are in places for files. -/
theorem spot_of_mem_sheets
    (hmem : names ∈ staged.found root top extensions) : base.Spot top names := by
  rw [(found_perm hproject hfound hstaging _).mem_iff, List.mem_append] at hmem
  rcases hmem with hmem | hmem
  · obtain ⟨-, hne, ⟨bytes, hget⟩, -⟩ := (mem_found_iff hproject.sound.distinct).mp hmem
    exact hproject.sound.spot hne hget
  · obtain ⟨extract, hextract, hmem⟩ := List.mem_flatMap.mp hmem
    obtain ⟨part, -, rfl⟩ := List.mem_map.mp hmem
    obtain ⟨hne, bytes, hget⟩ := files_of_found hproject hfound extract hextract
    exact hproject.spot_stagingKey (hproject.sound.spot hne hget) _ _

end Discovery

/-- A migration that did not fail, by the trees between its phases. -/
structure Trail (settings : Settings) (edit : List Char → List Char) (root : String) (top : Key)
    (base final : FileTree) (report : Report) where
  extracts : List Extract
  staged : FileTree
  migrated : FileTree
  divided : FileTree
  restored : FileTree
  changedSheets : List Bool
  changedComponents : List Bool
  found : extracts.map (·.names) = base.found root top [settings.componentExtension]
  staging : ComponentsStaged base root top extracts base staged
  migration : FilesChanged (top ++ ·) (SheetMigrated base staged root top)
    (staged.found root top settings.stylesheetExtensions) staged migrated changedSheets
  division : SameOff ((staged.found root top settings.stylesheetExtensions).map (top ++ ·)) migrated
    divided
  edited : ∀ names ∈ staged.found root top settings.stylesheetExtensions, ∀ text,
    migrated.HasText (top ++ names) text →
      divided.HasText (top ++ names) (divisionOf settings edit text)
  restoration : FilesChanged (fun extract : Extract => top ++ extract.names)
    (fun extract output => ∃ ordered, ordered.Perm (extract.exchanges divided top) ∧
      Substituted 0 extract.source ordered output) extracts divided restored changedComponents
  removal : SameOff (extracts.flatMap (stagingKeys top)) restored final
  removed : ∀ extract ∈ extracts, ∀ part ∈ extract.parts,
    final.get? (partKey top extract.names part) = none
  told : report.components = extracts.length ∧
    report.chunks = (extracts.map (·.parts.length)).sum ∧
    report.stylesheets = (staged.found root top settings.stylesheetExtensions).length ∧
    report.changedStylesheets = changedSheets.count true ∧
    report.changedComponents = changedComponents.count true ∧
    if settings.runDivision then report.batches.sum = report.stylesheets else report.batches = []

section Trail

variable {σ : Type} {base staged : FileTree} {root : String} {top : Key} {settings : Settings}
  {extracts : List Extract} {searched extensions : List String}

/-- Staging all components that a search finds. -/
theorem stageFound_eq (hproject : IsProject base root top)
    {state next : State σ} (hbase : state.world.tree = base) (hnone : state.staged = [])
    {counts : List Nat}
    (hyields : Yields (((base.found root top searched).map (pathFrom root)).mapM stageComponent)
      state counts next) :
    ∃ extracts : List Extract, extracts.map (·.names) = base.found root top searched ∧
      next.staged = extracts.map (·.staged root) ∧ counts = extracts.map (·.parts.length) ∧
      ComponentsStaged base root top extracts base next.world.tree := by
  subst hbase
  have hdistinct := hproject.sound.distinct
  have hfiles : ∀ names ∈ state.world.tree.found root top searched,
      names ≠ [] ∧ ∃ bytes, state.world.tree.get? (top ++ names) = some (.file bytes) := by
    intro names hmem
    obtain ⟨-, hne, hfile, -⟩ := (mem_found_iff hdistinct).mp hmem
    exact ⟨hne, hfile⟩
  obtain ⟨extracts, hfound, hrecord, hcounts, hstaging⟩ :=
    stageAll_eq hproject hfiles (nodup_found hdistinct _ _ _) rfl hyields
  rw [hnone, List.nil_append] at hrecord
  exact ⟨extracts, hfound, hrecord, hcounts, hstaging⟩

/-- Migrating all stylesheets that a search finds after staging. -/
theorem migrateFound_eq (hproject : IsProject base root top)
    (hfound : extracts.map (·.names) = base.found root top searched) {state next : State σ}
    (hstaging : ComponentsStaged base root top extracts base state.world.tree) {flags : List Bool}
    (hyields : Yields (((state.world.tree.found root top extensions).map (pathFrom root)).mapM
      fun path => onTree fun tree => Sheet.migrateFile tree path) state flags next) :
    next.staged = state.staged ∧
      FilesChanged (top ++ ·) (SheetMigrated base state.world.tree root top)
        (state.world.tree.found root top extensions) state.world.tree next.world.tree flags :=
  migrateSheets_eq hproject (fun _ hmem => spot_of_mem_sheets hproject hfound hstaging hmem)
    (nodup_found (hstaging.distinct hproject.sound.distinct) _ _ _) hstaging.same.ways hyields

/-- Running the division command on all stylesheets that were found after staging and migrated. -/
theorem divideFound_eq {runner : Runner σ} {edit : List Char → List Char}
    (hrunner : EditsFiles runner settings.command edit) (hdistinct : staged.IsDistinct)
    {state next : State σ} {flags : List Bool}
    (hmigration : FilesChanged (top ++ ·) (SheetMigrated base staged root top)
      (staged.found root top extensions) staged state.world.tree flags)
    (hways : base.way? = state.world.tree.way?) {sizes : List Nat}
    (hyields : Yields (if settings.runDivision then
      divide settings runner ((staged.found root top extensions).map (pathFrom root)) else pure [])
      state sizes next) :
    next.staged = state.staged ∧
      (if settings.runDivision then sizes.sum = (staged.found root top extensions).length
        else sizes = []) ∧
      SameOff ((staged.found root top extensions).map (top ++ ·)) state.world.tree next.world.tree ∧
      ∀ names ∈ staged.found root top extensions, ∀ text,
        state.world.tree.HasText (top ++ names) text →
          next.world.tree.HasText (top ++ names) (divisionOf settings edit text) := by
  refine divideSheets_eq hrunner (fun names hmem => ?_) (nodup_found hdistinct _ _ _)
    (fun names hmem => (hmigration.changed names hmem).imp fun _ => And.right) hyields
  obtain ⟨text, hmigrated, -⟩ := hmigration.changed names hmem
  exact (hmigrated.led true).of_way?_eq hways

section Components

variable (hproject : IsProject base root top)
  (hextension : settings.componentExtension ∉ settings.stylesheetExtensions)
  (hfound : extracts.map (·.names) = base.found root top [settings.componentExtension])
  (hstaging : ComponentsStaged base root top extracts base staged)
include hproject hextension hfound hstaging

/-- Components are no stylesheets, also after staging. -/
theorem component_notMem_sheets {extract : Extract} (hextract : extract ∈ extracts) :
    top ++ extract.names ∉
      (staged.found root top settings.stylesheetExtensions).map (top ++ ·) := by
  intro hmem
  obtain ⟨names, hmem, hkey⟩ := List.mem_map.mp hmem
  obtain rfl := List.append_cancel_left hkey
  have hfiles := files_of_found hproject hfound
  rw [(found_perm hproject hfound hstaging _).mem_iff, List.mem_append] at hmem
  rcases hmem with hmem | hmem
  · exact notMem_found hproject hextension (hfound ▸ List.mem_map_of_mem hextract) hmem
  · obtain ⟨-, bytes, hget⟩ := hfiles extract hextract
    rw [get?_of_mem_stagedNames hproject (fun other hother => (hfiles other hother).1) hmem] at hget
    cases hget

/-- Components that are no stylesheets are unchanged when the stylesheets are done. -/
theorem isFrom_of_kept {tree : FileTree}
    (hkept : ∀ key ∉ (staged.found root top settings.stylesheetExtensions).map (top ++ ·),
      tree.get? key = staged.get? key) {extract : Extract} (hextract : extract ∈ extracts) :
    extract.IsFrom tree root top := by
  obtain ⟨htext, hsections, hlanguages⟩ := hstaging.taken extract hextract
  have hfiles := files_of_found hproject hfound
  obtain ⟨-, bytes, hget⟩ := hfiles extract hextract
  have hnot : top ++ extract.names ∉ extracts.flatMap (stagingKeys top) := by
    intro hmem
    obtain ⟨other, hother, hmem⟩ := List.mem_flatMap.mp hmem
    exact hproject.notMem_stagingKeys hget (hfiles other hother).1 hmem
  refine ⟨?_, hsections, hlanguages⟩
  rw [HasText, hkept _ (component_notMem_sheets hproject hextension hfound hstaging hextract),
    hstaging.same.kept _ hnot]
  exact htext

/-- Putting all staged components back when the stylesheets are done. -/
theorem restoreFound_eq {state next : State σ} (hways : base.way? = state.world.tree.way?)
    (hkept : ∀ key ∉ (staged.found root top settings.stylesheetExtensions).map (top ++ ·),
      state.world.tree.get? key = staged.get? key) {flags : List Bool}
    (hyields : Yields ((extracts.map (·.staged root)).mapM fun component =>
      onTree fun tree => component.writeBack tree) state flags next) :
    next.staged = state.staged ∧
      FilesChanged (fun extract : Extract => top ++ extract.names)
        (fun extract output => ∃ ordered, ordered.Perm (extract.exchanges state.world.tree top) ∧
          Substituted 0 extract.source ordered output)
        extracts state.world.tree next.world.tree flags :=
  writeBackAll_eq hproject (files_of_found hproject hfound)
    (hfound ▸ nodup_found hproject.sound.distinct _ _ _) hways
    (fun _ hextract => isFrom_of_kept hproject hextension hfound hstaging hkept hextract)
    hstaging.reached hstaging.led hyields

end Components

/-- Cleaning up after staged components removes all their staging files and nothing else. -/
theorem removeStaging_staged {tree : FileTree} (hways : base.way? = tree.way?)
    (hled : ∀ extract ∈ extracts, ∀ part ∈ extract.parts, ∀ follow,
      base.LeadsTo follow (partChunk root extract.names part).stagingPath
        (partKey top extract.names part)) :
    let cleaned := removeStaging tree (stagingPaths (extracts.map (·.staged root)))
    cleaned.1 = [] ∧ SameOff (extracts.flatMap (stagingKeys top)) tree cleaned.2 ∧
      ∀ extract ∈ extracts, ∀ part ∈ extract.parts,
        cleaned.2.get? (partKey top extract.names part) = none := by
  let items := extracts.flatMap fun extract => extract.parts.map fun part => (extract, part)
  let path := fun item : Extract × (Section × Language) =>
    (partChunk root item.1.names item.2).stagingPath
  let key := fun item : Extract × (Section × Language) => partKey top item.1.names item.2
  have hpaths : stagingPaths (extracts.map (·.staged root)) = items.map path := by
    simp only [stagingPaths, Extract.staged, List.flatMap_map, List.map_flatMap, List.map_map, items]
    rfl
  have hkeys : extracts.flatMap (stagingKeys top) = items.map key := by
    simp only [List.map_flatMap, List.map_map, items]
    rfl
  have hitems : ∀ extract ∈ extracts, ∀ part ∈ extract.parts, (extract, part) ∈ items :=
    fun extract hextract part hpart =>
      List.mem_flatMap.mpr ⟨extract, hextract, List.mem_map_of_mem hpart⟩
  have hleads : ∀ item ∈ items, base.LeadsTo false (path item) (key item) := by
    intro item hitem
    obtain ⟨extract, hextract, hmem⟩ := List.mem_flatMap.mp hitem
    obtain ⟨part, hpart, rfl⟩ := List.mem_map.mp hmem
    exact hled extract hextract part hpart false
  rw [hpaths, hkeys]
  obtain ⟨hleft, hsame, hgone⟩ := removeStaging_eq hleads hways
  exact ⟨hleft, hsame, fun extract hextract part hpart =>
    hgone (extract, part) (hitems extract hextract part hpart)⟩

/-- A migration that does not fail leaves a trail. -/
theorem exists_trail {runner : Runner σ} {edit : List Char → List Char} {world : World σ}
    {report : Report} (hproject : IsProject world.tree root top)
    (hextension : settings.componentExtension ∉ settings.stylesheetExtensions)
    (hrunner : EditsFiles runner settings.command edit)
    (hrun : (run settings root runner world).1 = .ok report) :
    Nonempty (Trail settings edit root top world.tree (run settings root runner world).2.tree
      report) := by
  rw [run, migrate_eq] at hrun ⊢
  rcases hperform : perform (steps settings root runner) ⟨world, []⟩ with ⟨failure | told, state⟩
  · simp [hperform] at hrun
  simp only [hperform] at hrun ⊢
  obtain ⟨components, chunks, afterStaging, stylesheets, changedSheets, afterMigration, sizes,
    afterDivision, changedComponents, hcomponents, hstage, hsheets, hmigrate, hdivide, hback,
    hreport⟩ := yields_steps hperform
  -- Each phase takes from the ones before it that the ways are the same and what is on record.
  rw [findFiles_eq hproject.rooted, Except.ok.injEq] at hcomponents
  subst hcomponents
  obtain ⟨extracts, hfound, hrecord, hchunks, hstaging⟩ := stageFound_eq hproject rfl rfl hstage
  have hways₁ := hstaging.same.ways
  rw [findFiles_eq (resolve_of_way?_eq hways₁ hproject.rooted), Except.ok.injEq] at hsheets
  subst hsheets
  obtain ⟨hkept₂, hmigration⟩ := migrateFound_eq hproject hfound hstaging hmigrate
  have hways₂ := hways₁.trans hmigration.same.ways
  obtain ⟨hkept₃, hsizes, hdivision, hedited⟩ :=
    divideFound_eq hrunner (hstaging.distinct hproject.sound.distinct) hmigration hways₂ hdivide
  have hways₃ := hways₂.trans hdivision.ways
  rw [hkept₃, hkept₂, hrecord] at hback
  obtain ⟨hkept₄, hrestoration⟩ := restoreFound_eq hproject hextension hfound hstaging hways₃
    (fun key hkey => by rw [hdivision.kept key hkey, hmigration.same.kept key hkey]) hback
  obtain ⟨hleft, hremoval, hremoved⟩ :=
    removeStaging_staged (hways₃.trans hrestoration.same.ways) hstaging.led
  have hrecord' : state.staged = extracts.map (·.staged root) := by
    rw [hkept₄, hkept₃, hkept₂, hrecord]
  rw [← hrecord'] at hleft hremoval hremoved
  have htold : told = report := by
    simpa [cleanUp, hleft] using hrun
  subst htold hreport
  have hlength := congrArg List.length hfound
  rw [List.length_map] at hlength
  exact ⟨{
    extracts
    staged := afterStaging.world.tree
    migrated := afterMigration.world.tree
    divided := afterDivision.world.tree
    restored := state.world.tree
    changedSheets
    changedComponents
    found := hfound
    staging := hstaging
    migration := hmigration
    division := hdivision
    edited := hedited
    restoration := hrestoration
    removal := hremoval
    removed := hremoved
    told := by simpa [hlength, hchunks] using hsizes }⟩

end Trail

end StyleMigration.Migration
