import StyleMigration.Proofs.Component.Staging
import StyleMigration.Proofs.Migration.Division
import StyleMigration.Proofs.Migration.Steps

/-!
What the phases of a migration do to the files of a project. In a project no name has the mark of
staging files, so these never meet an entry that was there before. Each phase is described by the keys
it changes: staging by the staging files (`stageAll_eq`), the migration of stylesheets and the writing
back by the files they go through (`yields_mapM_onTree`), the division command by the files it is
given (`divideSheets_eq`), and the removal by the staging files again (`removeStaging_eq`).
-/

set_option autoImplicit false

namespace StyleMigration.Migration

open Command Component FileTree

/-- The files of a project: a sound tree where no name has the mark of staging files, and a root that
leads to a directory. -/
structure IsProject (tree : FileTree) (root : String) (top : Key) : Prop where
  sound : tree.IsSound
  rooted : tree.resolve true root = .ok (.taken top .directory)
  unmarked : ∀ key ∈ tree.entries.map (·.1), ∀ name ∈ key, ¬ stagingMark.toList <:+: name.toList

namespace IsProject

variable {base : FileTree} {root : String} {top : Key}

theorem get?_stagingKey (hproject : IsProject base root top) {key : Key} (hkey : key ≠ [])
    (index : Nat) (language : Language) : base.get? (stagingKey key index language) = none := by
  obtain ⟨front, name, rfl⟩ : ∃ front name, key = front ++ [name] :=
    ⟨_, _, (List.dropLast_concat_getLast hkey).symm⟩
  rw [stagingKey_concat]
  cases hget : base.get? (front ++ [stagingPath name index language]) with
  | none => rfl
  | some entry =>
    have hmem := mem_keys_of_get? (by simp) hget
    exact absurd (stagingMark_isInfix name index language)
      (hproject.unmarked _ (List.mem_map_of_mem hmem) _ (by simp))

/-- Beside every file there is a place for staging files. -/
theorem spot_stagingKey (hproject : IsProject base root top) {names : Key}
    (hspot : base.Spot top names) (index : Nat) (language : Language) :
    base.Spot top (stagingKey names index language) := by
  have hkey : top ++ names ≠ [] := by simp [hspot.ne_nil]
  have hget := hproject.get?_stagingKey hkey index language
  obtain ⟨front, name, rfl⟩ : ∃ front name, names = front ++ [name] :=
    ⟨_, _, (List.dropLast_concat_getLast hspot.ne_nil).symm⟩
  rw [stagingKey_append top hspot.ne_nil] at hget
  rw [stagingKey_concat] at hget ⊢
  have hname := hspot.named name (by simp)
  have hhoused := hspot.housed
  rw [← List.append_assoc, List.dropLast_concat] at hhoused
  refine ⟨by simp, ?_, by rwa [← List.append_assoc, List.dropLast_concat],
    way?_eq_none.mpr (.inl hget)⟩
  intro other hother
  rcases List.mem_append.mp hother with hfront | hlast
  · exact hspot.named other (List.mem_append_left _ hfront)
  · rw [List.mem_singleton.mp hlast]
    exact isName_stagingPath hname index language

end IsProject

/-- The keys of all staging files of a component. -/
def stagingKeys (top : Key) (extract : Extract) : List Key :=
  extract.parts.map (partKey top extract.names)

/-- Components were staged, between two trees. Where paths lead is said of a tree with the same
ways. -/
structure ComponentsStaged (base : FileTree) (root : String) (top : Key) (extracts : List Extract)
    (before after : FileTree) : Prop where
  same : SameOff (extracts.flatMap (stagingKeys top)) before after
  distinct : before.IsDistinct → after.IsDistinct
  taken : ∀ extract ∈ extracts, extract.IsFrom before root top
  reached : ∀ extract ∈ extracts, ∀ follow,
    base.LeadsTo follow (pathFrom root extract.names) (top ++ extract.names)
  written : ∀ extract ∈ extracts, ∀ part ∈ extract.parts,
    after.HasText (partKey top extract.names part) part.1.content
  led : ∀ extract ∈ extracts, ∀ part ∈ extract.parts, ∀ follow,
    base.LeadsTo follow (partChunk root extract.names part).stagingPath
      (partKey top extract.names part)

section Phases

variable {σ : Type} {base : FileTree} {root : String} {top : Key} {tree : FileTree}
  {flags : List Bool} {sheets : List Key}

/-- Staging files of different components have different keys. -/
theorem partKey_notMem_stagingKeys {names : Key} (hnames : names ≠ []) {extracts : List Extract}
    (hne : ∀ extract ∈ extracts, extract.names ≠ []) (hother : names ∉ extracts.map (·.names))
    (part : Section × Language) :
    partKey top names part ∉ extracts.flatMap (stagingKeys top) := by
  intro hmem
  obtain ⟨extract, hextract, hkey⟩ := List.mem_flatMap.mp hmem
  obtain ⟨part', -, hkey⟩ := List.mem_map.mp hkey
  have hkeys := stagingKey_inj (by simp [hne extract hextract]) (by simp [hnames]) hkey
  exact hother (List.mem_map.mpr ⟨extract, hextract, List.append_cancel_left hkeys.1⟩)

theorem IsProject.get?_partKey (hproject : IsProject base root top) {names : Key}
    (hnames : names ≠ []) (part : Section × Language) :
    base.get? (partKey top names part) = none :=
  hproject.get?_stagingKey (by simp [hnames]) part.1.index part.2

/-- No entry of the project has the key of a staging file. -/
theorem IsProject.notMem_stagingKeys (hproject : IsProject base root top) {key : Key}
    {entry : FileEntry} (hget : base.get? key = some entry) {extract : Extract}
    (hne : extract.names ≠ []) : key ∉ stagingKeys top extract := by
  intro hmem
  obtain ⟨part, -, rfl⟩ := List.mem_map.mp hmem
  rw [hproject.get?_partKey hne] at hget
  cases hget

/-- Staging components one after the other. -/
theorem stageAll_eq (hproject : IsProject base root top) {found : List Key}
    (hfiles : ∀ names ∈ found, names ≠ [] ∧ ∃ bytes, base.get? (top ++ names) = some (.file bytes))
    (hnodup : found.Nodup) {state next : State σ} (hways : base.way? = state.world.tree.way?)
    {counts : List Nat}
    (hyields : Yields ((found.map (pathFrom root)).mapM stageComponent) state counts next) :
    ∃ extracts : List Extract, extracts.map (·.names) = found ∧
      next.staged = state.staged ++ extracts.map (·.staged root) ∧
      counts = extracts.map (·.parts.length) ∧
      ComponentsStaged base root top extracts state.world.tree next.world.tree := by
  induction found generalizing state counts with
  | nil =>
    obtain ⟨rfl, rfl⟩ := yields_pure.mp hyields
    exact ⟨[], rfl, (List.append_nil _).symm, rfl, SameOff.refl _ _, id, nofun, nofun, nofun,
      nofun⟩
  | cons names found ih =>
    rw [List.forall_mem_cons] at hfiles
    obtain ⟨⟨hnames, bytes, hget⟩, hfiles⟩ := hfiles
    rw [List.nodup_cons] at hnodup
    obtain ⟨count, between, rest, hfirst, hrest, rfl⟩ := yields_mapM_cons.mp hyields
    rw [Yields, perform_stageComponent, Prod.mk.injEq] at hfirst
    obtain ⟨hcount, rfl⟩ := hfirst
    have hspot := hproject.sound.spot hnames hget
    split at hcount
    · cases hcount
    rename_i hstopped
    cases hcount
    obtain ⟨extract, rfl, hfrom, hrecorded, hstaged, hleads⟩ :=
      stage_eq hproject.sound hproject.rooted hspot (hproject.spot_stagingKey hspot) hways hstopped
    -- The ways come last, for `hrest` says which state is meant.
    have hnext := fun hwaysNext => ih hfiles hnodup.2 hwaysNext hrest
    obtain ⟨extracts, rfl, hall, rfl, hcomponents⟩ := hnext (hways.trans hstaged.same.ways)
    rw [hrecorded] at hall ⊢
    refine ⟨extract :: extracts, rfl, by simpa using hall, by simp [Extract.staged], ?_⟩
    constructor
    · exact hstaged.same.trans hcomponents.same
    · exact hcomponents.distinct ∘ hstaged.distinct
    · refine List.forall_mem_cons.mpr ⟨hfrom, fun other hother => ?_⟩
      obtain ⟨htext, hsections, hlanguages⟩ := hcomponents.taken other hother
      obtain ⟨-, bytes, hget⟩ := hfiles other.names (List.mem_map_of_mem hother)
      exact ⟨(hstaged.same.hasText (hproject.notMem_stagingKeys hget hnames)).mp htext, hsections,
        hlanguages⟩
    · exact List.forall_mem_cons.mpr ⟨hleads, hcomponents.reached⟩
    · refine List.forall_mem_cons.mpr ⟨fun part hpart => ?_, hcomponents.written⟩
      have hne : ∀ other ∈ extracts, other.names ≠ [] := fun other hother =>
        (hfiles other.names (List.mem_map_of_mem hother)).1
      rw [hcomponents.same.hasText (partKey_notMem_stagingKeys hnames hne hnodup.1 part)]
      exact hstaged.written part hpart
    · exact List.forall_mem_cons.mpr ⟨hstaged.led, hcomponents.led⟩

theorem nodup_append_left (top : Key) {keys : List Key} (hnodup : keys.Nodup) :
    (keys.map (top ++ ·)).Nodup :=
  List.Pairwise.map _ (fun _ _ hne hkey => hne (List.append_cancel_left hkey)) hnodup

/-- Files at distinct keys were gone through, each changed by itself: what became of them, whether it
differs from what was there, and that all else is as before. -/
structure FilesChanged {ι : Type} (key : ι → Key) (becomes : ι → List Char → Prop)
    (items : List ι) (before after : FileTree) (flags : List Bool) : Prop where
  same : SameOff (items.map key) before after
  changed : ∀ item ∈ items, ∃ text, becomes item text ∧ after.HasText (key item) text
  told : flags = items.map fun item => decide (after.get? (key item) ≠ before.get? (key item))

/-- If an action on each item changes the file at its key alone, and does so in any tree that differs
from the first only where earlier items changed it, then so does the row of these actions. -/
theorem yields_mapM_onTree {ι : Type} {key : ι → Key} {becomes : ι → List Char → Prop}
    {act : ι → FileTree → Except Failure (Bool × FileTree)} {start : FileTree} {whole : List ι}
    (hact : ∀ item ∈ whole, ∀ tree flag after, start.way? = tree.way? →
      (∀ other, (other ∉ whole.map key ∨ other = key item) → tree.get? other = start.get? other) →
      act item tree = .ok (flag, after) →
      ∃ text, becomes item text ∧ after.HasText (key item) text ∧ SameOff [key item] tree after ∧
        flag = decide (after.get? (key item) ≠ tree.get? (key item)))
    {items : List ι} (hitems : ∀ item ∈ items, item ∈ whole) (hnodup : (items.map key).Nodup)
    {state next : State σ} (hways : start.way? = state.world.tree.way?)
    (hsame : ∀ other, (other ∉ whole.map key ∨ other ∈ items.map key) →
      state.world.tree.get? other = start.get? other)
    (hyields : Yields (items.mapM fun item => onTree (act item)) state flags next) :
    next.staged = state.staged ∧
      FilesChanged key becomes items state.world.tree next.world.tree flags := by
  induction items generalizing state flags with
  | nil =>
    obtain ⟨rfl, rfl⟩ := yields_pure.mp hyields
    exact ⟨rfl, SameOff.refl _ _, nofun, rfl⟩
  | cons item items ih =>
    obtain ⟨flag, between, rest, hfirst, hrest, rfl⟩ := yields_mapM_cons.mp hyields
    rw [List.forall_mem_cons] at hitems
    rw [List.map_cons, List.nodup_cons] at hnodup
    rw [Yields, perform_onTree] at hfirst
    split at hfirst
    · rename_i result tree hok
      cases hfirst
      have hsame' : ∀ other, (other ∉ whole.map key ∨ other = key item) →
          state.world.tree.get? other = start.get? other := by
        intro other hother
        refine hsame other (hother.imp_right ?_)
        rintro rfl
        exact List.mem_cons_self
      obtain ⟨text, hbecomes, htext, hoff, hflag⟩ := hact item hitems.1 _ _ _ hways hsame' hok
      have hkept : ∀ other, (other ∉ whole.map key ∨ other ∈ items.map key) →
          tree.get? other = start.get? other := by
        intro other hother
        have hne : other ∉ [key item] := by
          rw [List.mem_singleton]
          rintro rfl
          exact hother.elim (fun h => h (List.mem_map_of_mem hitems.1)) hnodup.1
        rw [hoff.kept other hne]
        exact hsame other (hother.imp_right (List.mem_cons_of_mem _))
      obtain ⟨hstaged, hrestSame, hchanged, htold⟩ :=
        ih hitems.2 hnodup.2 (hways.trans hoff.ways) hkept hrest
      refine ⟨hstaged, hoff.trans hrestSame, List.forall_mem_cons.mpr ⟨?_, hchanged⟩, ?_⟩
      · exact ⟨text, hbecomes, (hrestSame.hasText hnodup.1).mpr htext⟩
      · rw [hflag, htold, List.map_cons, hrestSame.kept _ hnodup.1]
        congr 1
        apply List.map_congr_left
        intro other hother
        have hne : key other ∉ [key item] := by
          rw [List.mem_singleton]
          exact fun h => hnodup.1 (h ▸ List.mem_map_of_mem hother)
        rw [show (state.setTree tree).world.tree = tree from rfl, hoff.kept _ hne]
    · cases hfirst

/-- Migrating a stylesheet file changes it alone. -/
theorem migrateFile_eq_ok {after : FileTree} {path : String} {key : Key} {flag : Bool}
    (hleads : tree.LeadsTo true path key)
    (hmigrate : Sheet.migrateFile tree path = .ok (flag, after)) :
    ∃ language old new, Language.ofPath path = .ok language ∧ tree.HasText key old ∧
      Sheet.migrate language old = .ok new ∧ after.HasText key new ∧ SameOff [key] tree after ∧
      flag = decide (after.get? key ≠ tree.get? key) := by
  obtain ⟨language, hlanguage, hrest⟩ := bind_eq_ok_iff.mp hmigrate
  obtain ⟨old, hread, hrest⟩ := bind_eq_ok_iff.mp hrest
  obtain ⟨new, hnew, hwrite⟩ := bind_eq_ok_iff.mp hrest
  rw [mapError_eq_ok_iff, hleads.readText_eq_ok_iff] at hread
  exact ⟨language, old, new, hlanguage, hread, mapError_eq_ok_iff.mp hnew,
    hleads.replaceText hread hwrite⟩

/-- What the migration of a stylesheet makes of it. -/
structure SheetMigrated (base start : FileTree) (root : String) (top names : Key)
    (text : List Char) : Prop where
  led : ∀ follow, base.LeadsTo follow (pathFrom root names) (top ++ names)
  migrated : ∃ language old, Language.ofPath (pathFrom root names) = .ok language ∧
    start.HasText (top ++ names) old ∧ Sheet.migrate language old = .ok text

theorem resolve_of_migrateFile {path : String} {result : Bool × FileTree}
    (hmigrate : Sheet.migrateFile tree path = .ok result) :
    ∃ place, tree.resolve true path = .ok place := by
  obtain ⟨language, -, hrest⟩ := bind_eq_ok_iff.mp hmigrate
  obtain ⟨old, hread, -⟩ := bind_eq_ok_iff.mp hrest
  exact resolve_of_readText (mapError_eq_ok_iff.mp hread)

/-- Migrating stylesheets one after the other, whose paths lead to keys of their own. -/
theorem migrateFiles_eq {ι : Type} {path : ι → String} {key : ι → Key}
    {becomes : ι → List Char → Prop} {items : List ι} {state next : State σ}
    (hitems : ∀ item ∈ items, ∀ (tree : FileTree) place, state.world.tree.way? = tree.way? →
      tree.resolve true (path item) = .ok place → tree.LeadsTo true (path item) (key item) ∧
        ∀ language old new, Language.ofPath (path item) = .ok language →
          state.world.tree.HasText (key item) old → Sheet.migrate language old = .ok new →
          becomes item new) (hnodup : (items.map key).Nodup)
    (hyields : Yields ((items.map path).mapM fun path =>
      onTree fun tree => Sheet.migrateFile tree path) state flags next) :
    next.staged = state.staged ∧
      FilesChanged key becomes items state.world.tree next.world.tree flags := by
  rw [List.mapM_map] at hyields
  replace hyields : Yields (items.mapM fun item => onTree fun tree =>
    Sheet.migrateFile tree (path item)) state flags next := hyields
  refine yields_mapM_onTree ?_ (fun _ hmem => hmem) hnodup rfl (fun _ _ => rfl) hyields
  intro item hmem tree flag after hways hsame hmigrate
  obtain ⟨place, hresolve⟩ := resolve_of_migrateFile hmigrate
  obtain ⟨hleads, hmigrated⟩ := hitems item hmem tree place hways hresolve
  obtain ⟨language, old, new, hlanguage, hold, hnew, hafter⟩ := migrateFile_eq_ok hleads hmigrate
  rw [HasText, hsame _ (.inr rfl)] at hold
  exact ⟨new, hmigrated language old new hlanguage hold hnew, hafter⟩

theorem migrateSheets_eq (hproject : IsProject base root top)
    (hspots : ∀ names ∈ sheets, base.Spot top names) (hnodup : sheets.Nodup)
    {state next : State σ} (hways : base.way? = state.world.tree.way?)
    (hyields : Yields ((sheets.map (pathFrom root)).mapM fun path =>
      onTree fun tree => Sheet.migrateFile tree path) state flags next) :
    next.staged = state.staged ∧
      FilesChanged (top ++ ·) (SheetMigrated base state.world.tree root top) sheets
        state.world.tree next.world.tree flags := by
  refine migrateFiles_eq ?_ (nodup_append_left top hnodup) hyields
  intro names hmem tree place hsameWays hresolve
  have hways' := hways.trans hsameWays
  have hleads := (hspots names hmem).leadsTo_of_way?_eq hproject.sound hproject.rooted hways'
    hresolve
  refine ⟨(hleads true).of_way?_eq hways', fun language old new hlanguage hold hnew => ?_⟩
  exact ⟨hleads, language, old, hlanguage, hold, hnew⟩

/-- Putting staged components back one after the other. -/
theorem writeBackAll_eq (hproject : IsProject base root top) {extracts : List Extract}
    (hfiles : ∀ extract ∈ extracts, extract.names ≠ [] ∧
      ∃ bytes, base.get? (top ++ extract.names) = some (.file bytes))
    (hnodup : (extracts.map (·.names)).Nodup) {state next : State σ}
    (hways : base.way? = state.world.tree.way?)
    (hfrom : ∀ extract ∈ extracts, extract.IsFrom state.world.tree root top)
    (hreached : ∀ extract ∈ extracts, ∀ follow,
      base.LeadsTo follow (pathFrom root extract.names) (top ++ extract.names))
    (hled : ∀ extract ∈ extracts, ∀ part ∈ extract.parts, ∀ follow,
      base.LeadsTo follow (partChunk root extract.names part).stagingPath
        (partKey top extract.names part))
    (hyields : Yields ((extracts.map (·.staged root)).mapM fun staged =>
      onTree fun tree => staged.writeBack tree) state flags next) :
    next.staged = state.staged ∧
      FilesChanged (fun extract : Extract => top ++ extract.names) (fun extract output =>
          ∃ ordered, ordered.Perm (extract.exchanges state.world.tree top) ∧
            Substituted 0 extract.source ordered output)
        extracts state.world.tree next.world.tree flags := by
  rw [List.mapM_map] at hyields
  replace hyields : Yields (extracts.mapM fun extract => onTree fun tree =>
    (extract.staged root).writeBack tree) state flags next := hyields
  have hkeys : (extracts.map fun extract => top ++ extract.names).Nodup := by
    have hmapped := nodup_append_left top hnodup
    rwa [List.map_map] at hmapped
  refine yields_mapM_onTree ?_ (fun _ hmem => hmem) hkeys rfl (fun _ _ => rfl) hyields
  intro extract hmem tree flag after hsameWays hsame hback
  have hways' := hways.trans hsameWays
  obtain ⟨htext, hsections, hlanguages⟩ := hfrom extract hmem
  have hfrom' : extract.IsFrom tree root top :=
    ⟨by rwa [HasText, hsame _ (.inr rfl)], hsections, hlanguages⟩
  obtain ⟨output, houtput, hafter⟩ := writeBack_eq_ok hfrom'
    ((hreached extract hmem true).of_way?_eq hways')
    (fun part hpart => (hled extract hmem part hpart true).of_way?_eq hways') hback
  -- The staging files are no components, so they are as they were at the start.
  have hexchanges : extract.exchanges tree top = extract.exchanges state.world.tree top := by
    apply List.map_congr_left
    intro part hpart
    have hnot : partKey top extract.names part ∉ extracts.map fun extract => top ++ extract.names := by
      intro hkey
      obtain ⟨other, hother, hkey⟩ := List.mem_map.mp hkey
      obtain ⟨-, bytes, hget⟩ := hfiles other hother
      rw [hkey, hproject.get?_partKey (hfiles extract hmem).1] at hget
      cases hget
    rw [textAt, textAt, hsame _ (.inl hnot)]
  exact ⟨output, hexchanges ▸ houtput, hafter⟩

/-- What the division command makes of a text, if it is run at all. -/
def divisionOf (settings : Settings) (edit : List Char → List Char) (text : List Char) : List Char :=
  if settings.runDivision then edit text else text

/-- Stylesheets with texts, whose paths lead to keys of their own, can be handed to a command. -/
theorem leadToTexts_sheets
    (hled : ∀ names ∈ sheets, tree.LeadsTo true (pathFrom root names) (top ++ names))
    (hnodup : sheets.Nodup) (htexts : ∀ names ∈ sheets, ∃ text, tree.HasText (top ++ names) text) :
    LeadToTexts tree (sheets.map (pathFrom root)) := by
  constructor
  · intro path hpath
    obtain ⟨names, hnames, rfl⟩ := List.mem_map.mp hpath
    obtain ⟨text, htext⟩ := htexts names hnames
    exact ⟨top ++ names, text, hled names hnames, htext⟩
  · refine List.pairwise_map.mpr (hnodup.imp_of_mem ?_)
    intro names other hnames hother hne key hleads hmeets
    have hkey := hleads.key_eq (hled names hnames)
    have hkey' := hmeets.key_eq (hled other hother)
    exact hne (List.append_cancel_left (hkey.symm.trans hkey'))

/-- Editing stylesheets changes nothing but the files at their keys. -/
theorem TextsEdited.sameOff {edit : List Char → List Char} {after : FileTree}
    (hedited : TextsEdited edit (sheets.map (pathFrom root)) tree after)
    (htexts : LeadToTexts tree (sheets.map (pathFrom root)))
    (hled : ∀ names ∈ sheets, tree.LeadsTo true (pathFrom root names) (top ++ names)) :
    SameOff (sheets.map (top ++ ·)) tree after := by
  refine ⟨hedited.ways htexts, fun key hkey => hedited.get?_eq fun path hpath hleads => ?_⟩
  obtain ⟨names, hnames, rfl⟩ := List.mem_map.mp hpath
  exact hkey (hleads.key_eq (hled names hnames) ▸ List.mem_map_of_mem hnames)

/-- Running the division command on stylesheets. -/
theorem divideSheets_eq {settings : Settings} {runner : Runner σ} {edit : List Char → List Char}
    (hrunner : EditsFiles runner settings.command edit) {state next : State σ}
    (hled : ∀ names ∈ sheets, state.world.tree.LeadsTo true (pathFrom root names) (top ++ names))
    (hnodup : sheets.Nodup)
    (htexts : ∀ names ∈ sheets, ∃ text, state.world.tree.HasText (top ++ names) text)
    {sizes : List Nat} (hyields : Yields (if settings.runDivision then
      divide settings runner (sheets.map (pathFrom root)) else pure []) state sizes next) :
    next.staged = state.staged ∧
      (if settings.runDivision then sizes.sum = sheets.length else sizes = []) ∧
      SameOff (sheets.map (top ++ ·)) state.world.tree next.world.tree ∧
      ∀ names ∈ sheets, ∀ text, state.world.tree.HasText (top ++ names) text →
        next.world.tree.HasText (top ++ names) (divisionOf settings edit text) := by
  unfold divisionOf
  split at hyields
  · rename_i hdivision
    rw [Yields, perform_divide, Prod.mk.injEq] at hyields
    obtain ⟨hsizes, rfl⟩ := hyields
    have hpaths := leadToTexts_sheets hled hnodup htexts
    have hgroups : ∀ batch ∈ batches settings.batchSize (sheets.map (pathFrom root)), batch ≠ [] := by
      intro batch hbatch
      obtain ⟨k, hk⟩ := List.getElem?_of_mem hbatch
      exact (eq_sliceAt_of_getElem? hk).2
    obtain ⟨hlengths, hedited⟩ := runEach_eq hrunner hgroups (by rwa [flatten_batches])
    rw [flatten_batches] at hedited
    simp only [runBatches] at hsizes ⊢
    rw [hlengths] at hsizes
    cases hsizes
    simp only [hdivision, if_true]
    refine ⟨trivial, ?_, hedited.sameOff hpaths hled, fun names hnames text htext => ?_⟩
    · rw [← List.length_flatten, flatten_batches, List.length_map]
    · exact hedited.edited _ (List.mem_map_of_mem hnames) _ text (hled names hnames) htext
  · rename_i hdivision
    obtain ⟨rfl, rfl⟩ := yields_pure.mp hyields
    simp only [if_neg hdivision]
    exact ⟨trivial, trivial, SameOff.refl _ _, fun _ _ _ htext => htext⟩

/-- Removing staging files to which their paths lead. -/
theorem removeStaging_eq {ι : Type} {path : ι → String} {key : ι → Key} {items : List ι}
    (hled : ∀ item ∈ items, base.LeadsTo false (path item) (key item))
    (hways : base.way? = tree.way?) :
    (removeStaging tree (items.map path)).1 = [] ∧
      SameOff (items.map key) tree (removeStaging tree (items.map path)).2 ∧
      ∀ item ∈ items, (removeStaging tree (items.map path)).2.get? (key item) = none := by
  induction items generalizing tree with
  | nil => exact ⟨rfl, SameOff.refl _ tree, nofun⟩
  | cons item items ih =>
    rw [List.forall_mem_cons] at hled
    have hleads := hled.1.of_way?_eq hways
    -- Whether or not there is a file, there is none afterwards and nothing else has changed.
    obtain ⟨after, hafter, hsame, hgone⟩ : ∃ after,
        removeStaging tree ((item :: items).map path) = removeStaging after (items.map path) ∧
        SameOff [key item] tree after ∧ after.get? (key item) = none := by
      rcases hleads.removeFile_eq with ⟨hget, hremove⟩ | hremove
      · refine ⟨tree, ?_, SameOff.refl _ tree, hget⟩
        rw [List.map_cons, removeStaging, hremove]
      · refine ⟨tree.erase (key item), ?_, SameOff.erase hleads.noWay, ?_⟩
        · rw [List.map_cons, removeStaging, hremove]
        · simp [get?_erase, ne_nil_of_way? hleads.noWay]
    obtain ⟨hleft, hrest, hmissing⟩ := ih hled.2 (hways.trans hsame.ways)
    rw [hafter]
    refine ⟨hleft, hsame.trans hrest, List.forall_mem_cons.mpr ⟨?_, hmissing⟩⟩
    by_cases hmem : key item ∈ items.map key
    · obtain ⟨other, hother, hkey⟩ := List.mem_map.mp hmem
      rw [← hkey]
      exact hmissing other hother
    · rw [hrest.kept _ hmem, hgone]

end Phases

end StyleMigration.Migration
