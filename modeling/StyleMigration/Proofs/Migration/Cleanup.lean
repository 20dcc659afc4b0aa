import StyleMigration.Proofs.Files.Change
import StyleMigration.Proofs.Migration.Steps

/-!
What a migration leaves behind. However the steps of a migration end, and whatever the division
command did to the files meanwhile, the staging files recorded up to then are removed one after the
other (`Removal`). A path that is gone already is passed over, and a removal that is refused for
another reason does not keep the later ones from being tried. So afterwards each recorded path is
missing, except for those that were refused. These are told as a failure, unless the steps failed:
then that failure stands (`migrate_cleans_up`).
-/

set_option autoImplicit false

namespace StyleMigration.Migration

open Command Component

/-- The files at some paths are removed in turn, from the first tree to the second. The list in
between has the paths whose removal was refused for another reason than that nothing was found. -/
inductive Removal : FileTree → List String → List String → FileTree → Prop where
  | done (tree : FileTree) : Removal tree [] [] tree
  | removed {tree next final : FileTree} {path : String} {paths refused : List String} :
      tree.removeFile path = .ok next → Removal next paths refused final →
        Removal tree (path :: paths) refused final
  | missing {tree final : FileTree} {path : String} {paths refused : List String} :
      tree.removeFile path = .error .notFound → Removal tree paths refused final →
        Removal tree (path :: paths) refused final
  | refused {tree final : FileTree} {path : String} {paths refused : List String}
      {cause : IoCause} :
      tree.removeFile path = .error cause → cause ≠ .notFound → Removal tree paths refused final →
        Removal tree (path :: paths) (path :: refused) final

theorem removal_removeStaging (tree : FileTree) (paths : List String) :
    Removal tree paths (removeStaging tree paths).1 (removeStaging tree paths).2 := by
  fun_induction removeStaging tree paths with
  | case1 tree => exact .done tree
  | case2 tree path paths next hremove ih => exact .removed hremove ih
  | case3 tree path paths hremove ih => exact .missing hremove ih
  | case4 tree path paths cause hcause hremove leftover final hrest ih =>
    rw [hrest] at ih
    exact .refused hremove hcause ih

namespace Removal

variable {tree final : FileTree} {paths refused : List String}

theorem isMissing_of_isMissing (hremoval : Removal tree paths refused final) {path : String}
    (hmissing : tree.IsMissing path) : final.IsMissing path := by
  induction hremoval with
  | done => exact hmissing
  | removed hremove _ ih =>
    obtain ⟨key, entry, -, -, rfl⟩ := FileTree.removeFile_eq_ok hremove
    exact ih (hmissing.erase key)
  | missing _ _ ih => exact ih hmissing
  | refused _ _ _ ih => exact ih hmissing

/-- A path that was not refused is missing in the end. -/
theorem isMissing (hremoval : Removal tree paths refused final) {path : String}
    (hmem : path ∈ paths) (hnot : path ∉ refused) : final.IsMissing path := by
  induction hremoval with
  | done => cases hmem
  | removed hremove hrest ih =>
    rcases List.mem_cons.mp hmem with rfl | hmem
    · exact hrest.isMissing_of_isMissing (FileTree.isMissing_of_removeFile hremove)
    · exact ih hmem hnot
  | missing hremove hrest ih =>
    rcases List.mem_cons.mp hmem with rfl | hmem
    · exact hrest.isMissing_of_isMissing (FileTree.isMissing_of_removeFile_notFound hremove)
    · exact ih hmem hnot
  | refused _ _ _ ih =>
    rw [List.mem_cons, not_or] at hnot
    rcases List.mem_cons.mp hmem with rfl | hmem
    · exact absurd rfl hnot.1
    · exact ih hmem hnot.2

/-- The refused paths come in the order of the recorded ones. -/
theorem refused_sublist (hremoval : Removal tree paths refused final) :
    refused.Sublist paths := by
  induction hremoval with
  | done => exact .slnil
  | removed _ _ ih => exact ih.cons _
  | missing _ _ ih => exact ih.cons _
  | refused _ _ _ ih => exact ih.cons_cons _

end Removal

/-- Each entry that differs between two trees is where one of the paths leads. -/
def CoveredBy (paths : List String) (before after : FileTree) : Prop :=
  ∀ key, after.get? key ≠ before.get? key → ∃ path ∈ paths, after.LeadsTo true path key

theorem coveredBy_refl (paths : List String) (tree : FileTree) : CoveredBy paths tree tree :=
  fun _ hdiffers => absurd rfl hdiffers

theorem CoveredBy.append {paths more : List String} {before between after : FileTree}
    (hfirst : CoveredBy paths before between) (hsecond : CoveredBy more between after)
    (hways : between.way? = after.way?) : CoveredBy (paths ++ more) before after := by
  intro key hdiffers
  by_cases hlater : after.get? key = between.get? key
  · obtain ⟨path, hmem, hleads⟩ := hfirst key (hlater ▸ hdiffers)
    exact ⟨path, List.mem_append_left _ hmem, hleads.of_way?_eq hways⟩
  · obtain ⟨path, hmem, hleads⟩ := hsecond key hlater
    exact ⟨path, List.mem_append_right _ hmem, hleads⟩

theorem coveredBy_writeText {tree after : FileTree} {path : String} {text : List Char}
    (hwrite : tree.writeText path text = .ok after) :
    tree.way? = after.way? ∧ CoveredBy [path] tree after := by
  obtain ⟨key, hleads⟩ := FileTree.writeText_eq_ok hwrite
  rw [hleads.writeText_eq] at hwrite
  cases hwrite
  have hsame := FileTree.SameOff.set hleads.noWay (String.ofList text).toUTF8
  refine ⟨hsame.ways, fun other hdiffers => ⟨path, List.mem_singleton_self path, ?_⟩⟩
  obtain rfl : other = key := by
    false_or_by_contra
    rename_i hother
    exact hdiffers (hsame.kept other (by simpa using hother))
  exact hleads.of_way?_eq hsame.ways

/-- Staging sections records each path before it writes there, so what it changed is recorded however
it ends. -/
theorem coveredBy_stageSections (path : String) (tree : FileTree) (sections : List Section) :
    tree.way? = (stageSections path tree sections).tree.way? ∧
      CoveredBy ((stageSections path tree sections).recorded.map (·.stagingPath)) tree
        (stageSections path tree sections).tree := by
  fun_induction stageSections path tree sections with
  | case1 tree => exact ⟨rfl, coveredBy_refl _ tree⟩
  | case2 tree => exact ⟨rfl, coveredBy_refl _ tree⟩
  | case3 tree => exact ⟨rfl, coveredBy_refl _ tree⟩
  | case4 tree sec sections language hlanguage chunk after hwrite rest ih =>
    obtain ⟨hways, hcovered⟩ := coveredBy_writeText hwrite
    exact ⟨hways.trans ih.1, hcovered.append ih.2 ih.1⟩

theorem coveredBy_stage (tree : FileTree) (path : String) :
    tree.way? = (stage tree path).tree.way? ∧
      CoveredBy ((stage tree path).recorded.chunks.map (·.stagingPath)) tree
        (stage tree path).tree := by
  simp only [stage]
  split
  · exact ⟨rfl, coveredBy_refl _ tree⟩
  · exact coveredBy_stageSections path tree _

variable {σ : Type}

/-- The second state has more components recorded than the first, and all that changed in the files
is where their staging paths lead. -/
def RecordsChanges (before after : State σ) : Prop :=
  before.world.tree.way? = after.world.tree.way? ∧
    ∃ more, after.staged = before.staged ++ more ∧
      CoveredBy (stagingPaths more) before.world.tree after.world.tree

theorem RecordsChanges.trans (first second third : State σ) (hfirst : RecordsChanges first second)
    (hsecond : RecordsChanges second third) : RecordsChanges first third := by
  obtain ⟨hways, more, hmore, hcovered⟩ := hfirst
  obtain ⟨hways', more', hmore', hcovered'⟩ := hsecond
  refine ⟨hways.trans hways', more ++ more', by rw [hmore', hmore, List.append_assoc], ?_⟩
  rw [stagingPaths, List.flatMap_append]
  exact hcovered.append hcovered' hways'

theorem keeps_recordsChanges (paths : List String) :
    Keeps (σ := σ) RecordsChanges (paths.mapM stageComponent) := by
  refine keeps_mapM (fun state => ?_) RecordsChanges.trans (fun path _ state => ?_)
  · exact ⟨rfl, [], (List.append_nil _).symm, coveredBy_refl _ _⟩
  · rw [perform_stageComponent]
    obtain ⟨hways, hcovered⟩ := coveredBy_stage state.world.tree path
    refine ⟨hways, [(stage state.world.tree path).recorded], rfl, ?_⟩
    rw [stagingPaths, List.flatMap_singleton]
    exact hcovered

/-- The same components are recorded in two states. -/
def SameStaged (before after : State σ) : Prop :=
  after.staged = before.staged

theorem SameStaged.refl (state : State σ) : SameStaged state state :=
  rfl

theorem SameStaged.trans (first second third : State σ) (hfirst : SameStaged first second)
    (hsecond : SameStaged second third) : SameStaged first third :=
  Eq.trans hsecond hfirst

theorem keeps_sameStaged_mapM_onTree {α ι : Type}
    (act : ι → FileTree → Except Failure (α × FileTree)) (items : List ι) :
    Keeps (σ := σ) SameStaged (items.mapM fun item => onTree (act item)) := by
  refine keeps_mapM SameStaged.refl SameStaged.trans (fun item _ state => ?_)
  rw [perform_onTree]
  rcases act item state.world.tree with _ | ⟨_, _⟩ <;> rfl

/-- After staging no more components are recorded. -/
theorem staged_steps (settings : Settings) (root : String) (runner : Runner σ) {start : State σ}
    {components : List String}
    (hfound : start.world.tree.findFiles root [settings.componentExtension] = .ok components) :
    (perform (steps settings root runner) start).2.staged =
      (perform (components.mapM stageComponent) start).2.staged := by
  unfold steps
  rw [perform_bind, perform_findFiles, hfound]
  apply perform_bind_of_keeps SameStaged.refl
  intro chunks
  apply Keeps.bind SameStaged.trans
  · intro state
    rw [perform_findFiles]
    rfl
  intro stylesheets
  apply Keeps.bind SameStaged.trans (keeps_sameStaged_mapM_onTree _ stylesheets)
  intro changed
  apply Keeps.bind SameStaged.trans
  · split
    · intro state
      rw [perform_divide]
      rfl
    · exact keeps_pure SameStaged.refl _
  intro batches
  apply Keeps.bind SameStaged.trans
  · exact SameStaged.refl
  intro state
  apply Keeps.bind SameStaged.trans (keeps_sameStaged_mapM_onTree _ state.staged)
  intro changedComponents
  exact keeps_pure SameStaged.refl _

/-- A migration cleans up however its steps end. The recorded staging files are removed in the order
of the record, all but the refused ones are missing then, and these are told unless the steps failed.
Whatever staging wrote is on the record, and afterwards the record is empty. -/
theorem migrate_cleans_up (settings : Settings) (root : String) (runner : Runner σ)
    (state : State σ) :
    let start : State σ := { state with staged := [] }
    let pipeline := perform (steps settings root runner) start
    let recorded := stagingPaths pipeline.2.staged
    let finished := migrate settings root runner state
    ∃ refused,
      Removal pipeline.2.world.tree recorded refused finished.2.world.tree ∧
      (∀ path ∈ recorded, path ∉ refused → finished.2.world.tree.IsMissing path) ∧
      refused.Sublist recorded ∧
      (∀ components, state.world.tree.findFiles root [settings.componentExtension] = .ok components →
        CoveredBy recorded state.world.tree
          (perform (components.mapM stageComponent) start).2.world.tree) ∧
      finished.1 = (match pipeline.1 with
        | .error failure => .error failure
        | .ok report => if refused = [] then .ok report else .error (.leftover refused)) ∧
      finished.2.staged = [] := by
  intro start pipeline recorded finished
  have hfinished : finished = _ := migrate_eq settings root runner state
  have hremoval := removal_removeStaging pipeline.2.world.tree recorded
  rw [hfinished]
  refine ⟨_, hremoval, fun path hmem => hremoval.isMissing hmem, hremoval.refused_sublist, ?_, rfl,
    rfl⟩
  intro components hfound
  obtain ⟨-, more, hmore, hcovered⟩ := keeps_recordsChanges components start
  have hstaged : pipeline.2.staged = more := by
    rw [show pipeline.2.staged = _ from staged_steps settings root runner hfound, hmore]
    exact List.nil_append more
  rw [show recorded = stagingPaths more from congrArg stagingPaths hstaged]
  exact hcovered

end StyleMigration.Migration
