import StyleMigration.Proofs.Files.Sites
import StyleMigration.Proofs.Migration.Cleanup
import StyleMigration.Proofs.Component.StagingName

/-!
Staging files stand apart. Where no name of a tree has the mark of staging files, staging adds marked
files to it and changes nothing else, however it ends (`StagedOver`), and the clean-up removes marked
entries only, whatever has become of the staging files meanwhile (`Removal.sameUnmarked`). If none of
them has become a way, all that staging added is gone then (`Removal.get?_eq_none`), so a tree that
was only staged over is back as it was (`StagedOver.eq_of_removal`).
-/

set_option autoImplicit false

namespace StyleMigration.Migration

open Command Component FileTree

variable {key : Key} {path : String}

/-- Whether a name on the way to an entry has the mark of staging files. -/
def isMarked (key : Key) : Bool :=
  key.any fun name => decide (stagingMark.toList <:+: name.toList)

/-- No name in the tree has the mark of staging files. -/
def IsUnmarked (tree : FileTree) : Prop :=
  ∀ key ∈ tree.entries.map (·.1), isMarked key = false

/-- Two trees with the same entries but for marked ones. -/
def SameUnmarked (before after : FileTree) : Prop :=
  after.entries.filter (fun entry => !isMarked entry.1) =
    before.entries.filter fun entry => !isMarked entry.1

section Marked

variable {base before between after tree : FileTree} {key : Key}

theorem IsUnmarked.get?_eq_none (hunmarked : IsUnmarked base) (hkey : isMarked key = true) :
    base.get? key = none := by
  have hne : key ≠ [] := by
    rintro rfl
    cases hkey
  cases hget : base.get? key with
  | none => rfl
  | some entry =>
    have hmem := mem_keys_of_get? hne hget
    rw [hunmarked key (List.mem_map_of_mem hmem)] at hkey
    cases hkey

theorem IsUnmarked.way?_eq_none (hunmarked : IsUnmarked base) (hkey : isMarked key = true) :
    base.way? key = none :=
  FileTree.way?_eq_none.mpr (.inl (hunmarked.get?_eq_none hkey))

theorem IsUnmarked.filter_eq (hunmarked : IsUnmarked base) :
    base.entries.filter (fun entry => !isMarked entry.1) = base.entries := by
  rw [List.filter_eq_self]
  intro entry hentry
  rw [hunmarked entry.1 (List.mem_map_of_mem hentry)]
  rfl

theorem SameUnmarked.trans (hfirst : SameUnmarked before between)
    (hsecond : SameUnmarked between after) : SameUnmarked before after :=
  Eq.trans hsecond hfirst

theorem SameUnmarked.get?_eq (hsame : SameUnmarked before after) (hkey : isMarked key = false) :
    after.get? key = before.get? key := by
  by_cases hne : key = []
  · rw [hne, get?_nil, get?_nil]
  · have hlookup (tree : FileTree) : tree.get? key =
        (tree.entries.filter fun entry => !isMarked entry.1).lookup key := by
      rw [get?_of_ne_nil tree hne, lookup_filter tree.entries (!isMarked ·), hkey]
      rfl
    rw [hlookup, hlookup, hsame]

theorem sameUnmarked_erase (hkey : isMarked key = true) : SameUnmarked tree (tree.erase key) := by
  rw [SameUnmarked, erase, List.filter_filter]
  apply List.filter_congr
  intro entry _
  by_cases hentry : entry.1 = key <;> simp [hentry, hkey]

theorem sameUnmarked_set (hkey : isMarked key = true) (entry : FileEntry) :
    SameUnmarked tree (tree.set key entry) := by
  have herase : SameUnmarked tree (tree.erase key) := sameUnmarked_erase hkey
  rw [SameUnmarked, FileTree.set, List.filter_cons, if_neg (by simp [hkey])]
  exact herase

end Marked

/-- The entry of a site has no mark. -/
theorem isMarked_site {base : FileTree} (hunmarked : IsUnmarked base) {site : String × Key}
    (hsite : base.IsSite site) : isMarked site.2 = false := by
  obtain ⟨bytes, hget⟩ := hsite.file
  rw [← Bool.not_eq_true]
  intro hmarked
  rw [hunmarked.get?_eq_none hmarked] at hget
  cases hget

/-- A place for a staging file: a marked name in a directory, at which the path is lodged. -/
structure IsPlace (base : FileTree) (path : String) (key : Key) : Prop where
  marked : isMarked key = true
  named : ∀ name ∈ key, IsName name
  housed : base.get? key.dropLast = some .directory
  lodged : base.IsLodged path key

/-- Beside a component there is a place for each of its staging files. -/
theorem exists_isPlace {base : FileTree} (hsound : base.IsSound) {site : String × Key}
    (hsite : base.IsSite site) (index : Nat) (language : Language) :
    ∃ key, IsPlace base (stagingPath site.1 index language) key := by
  obtain ⟨directory, name, hget, hname, hbeside⟩ := hsite.beside
  have hstaging := isName_stagingPath hname index language
  have hslash : '/' ∉ (stagingSuffix index language).toList := by
    have hnot := hstaging.noSlash
    rw [stagingPath_eq, String.toList_append, List.mem_append, not_or] at hnot
    exact hnot.2
  refine ⟨directory ++ [stagingPath name index language], ?_, ?_, ?_, ?_⟩
  · simp [isMarked, stagingMark_isInfix]
  · intro other hmem
    rcases List.mem_append.mp hmem with hmem | hmem
    · have hentry := mem_keys_of_get? (List.ne_nil_of_mem hmem) hget
      exact hsound.named _ (List.mem_map_of_mem hentry) other hmem
    · rw [List.mem_singleton.mp hmem]
      exact hstaging
  · rwa [List.dropLast_concat]
  · rw [stagingPath_eq] at hstaging
    rw [stagingPath_eq, stagingPath_eq]
    exact hbeside _ hslash hstaging

/-- A tree that has the ways and the unmarked entries of another one. -/
structure StagedOver (base tree : FileTree) : Prop where
  ways : base.way? = tree.way?
  same : SameUnmarked base tree
  sound : tree.IsSound

section StagedOver

variable {base tree after : FileTree}

theorem StagedOver.refl (hsound : base.IsSound) : StagedOver base base :=
  ⟨rfl, rfl, hsound⟩

theorem StagedOver.writeText (hstaged : StagedOver base tree) (hunmarked : IsUnmarked base)
    (hplace : IsPlace base path key) {text : List Char}
    (hwrite : tree.writeText path text = .ok after) : StagedOver base after := by
  have hkeeps := keepsWays_of_way?_eq hstaged.ways
  have hway : tree.way? key = none := by
    rw [← hstaged.ways, way?, hunmarked.get?_eq_none hplace.marked]
    rfl
  obtain ⟨other, hother⟩ := writeText_eq_ok hwrite
  have hleads := hplace.lodged.leadsTo hkeeps hway hother.resolves true
  rw [hleads.writeText_eq] at hwrite
  cases hwrite
  exact ⟨hstaged.ways.trans (SameOff.set hway _).ways,
    hstaged.same.trans (sameUnmarked_set hplace.marked _),
    hstaged.sound.set_file hway hplace.named (hkeeps.get?_eq hplace.housed rfl) _⟩

theorem StagedOver.stageSections (hstaged : StagedOver base tree) (hunmarked : IsUnmarked base)
    (hplaces : ∀ index language, ∃ key, IsPlace base (stagingPath path index language) key)
    (sections : List Section) :
    StagedOver base (Component.stageSections path tree sections).tree := by
  fun_induction Component.stageSections path tree sections with
  | case1 tree => exact hstaged
  | case2 tree => exact hstaged
  | case3 tree => exact hstaged
  | case4 tree sec sections language hlanguage chunk after hwrite rest ih =>
    obtain ⟨key, hplace⟩ := hplaces sec.index language
    exact ih (hstaged.writeText hunmarked hplace hwrite)

theorem StagedOver.stage (hstaged : StagedOver base tree) (hunmarked : IsUnmarked base)
    (hplaces : ∀ index language, ∃ key, IsPlace base (stagingPath path index language) key) :
    StagedOver base (Component.stage tree path).tree := by
  simp only [Component.stage]
  split
  · exact hstaged
  · exact hstaged.stageSections hunmarked hplaces _

end StagedOver

/-- Each staging path of a component is made from its own path. -/
def IsProper (staged : Staged) : Prop :=
  ∀ chunk ∈ staged.chunks, ∃ index language,
    chunk.stagingPath = stagingPath staged.path index language

theorem path_stage (tree : FileTree) (path : String) : (stage tree path).recorded.path = path := by
  simp only [stage]
  split <;> rfl

theorem isProper_stage (tree : FileTree) (path : String) :
    IsProper (stage tree path).recorded := by
  have hsections (sections : List Section) :
      ∀ chunk ∈ (stageSections path tree sections).recorded, ∃ index language,
        chunk.stagingPath = stagingPath path index language := by
    fun_induction stageSections path tree sections with
    | case1 tree => exact List.forall_mem_nil _
    | case2 tree => exact List.forall_mem_nil _
    | case3 tree sec sections language hlanguage chunk =>
      exact List.forall_mem_singleton.mpr ⟨_, _, rfl⟩
    | case4 tree sec sections language hlanguage chunk after hwrite rest ih =>
      exact List.forall_mem_cons.mpr ⟨⟨_, _, rfl⟩, ih⟩
  simp only [stage]
  split
  · exact List.forall_mem_nil _
  · exact hsections _

section Removal

variable {base tree final : FileTree} {paths refused : List String}

theorem exists_get?_of_mem (hmem : key ∈ tree.entries.map (·.1)) :
    ∃ entry, tree.get? key = some entry := by
  by_cases hne : key = []
  · exact ⟨.directory, by rw [hne, get?_nil]⟩
  · rw [get?_of_ne_nil tree hne]
    cases hlookup : tree.entries.lookup key with
    | some entry => exact ⟨entry, rfl⟩
    | none =>
      obtain ⟨entry, hentry, rfl⟩ := List.mem_map.mp hmem
      have hnot := List.lookup_eq_none_iff.mp hlookup entry hentry
      simp at hnot

theorem keepsWays_erase (hunmarked : IsUnmarked base) (hkey : isMarked key = true)
    (hkeeps : base.KeepsWays tree) : base.KeepsWays (tree.erase key) := by
  apply hkeeps.of_kept
  intro other hother
  obtain rfl : other = key := by
    false_or_by_contra
    rename_i hne
    exact hother (by rw [get?_erase, if_neg fun h => hne h.1])
  exact hunmarked.way?_eq_none hkey

theorem IsPlace.removeFile_eq_ok (hplace : IsPlace base path key)
    (hkeeps : base.KeepsWays tree) {next : FileTree} (hremove : tree.removeFile path = .ok next) :
    next = tree.erase key := by
  obtain ⟨found, entry, hresolve, -, rfl⟩ := FileTree.removeFile_eq_ok hremove
  rw [hplace.lodged.key_eq hkeeps hresolve]

section Places

variable (hunmarked : IsUnmarked base) (hremoval : Removal tree paths refused final)
  (hplaces : ∀ path ∈ paths, ∃ key, IsPlace base path key) (hkeeps : base.KeepsWays tree)
include hunmarked hremoval hplaces hkeeps

/-- Only marked entries are removed, whatever has become of the staging files. -/
theorem Removal.sameUnmarked :
    base.KeepsWays final ∧ SameUnmarked tree final ∧
      ∀ key entry, final.get? key = some entry → tree.get? key = some entry := by
  induction hremoval with
  | done => exact ⟨hkeeps, rfl, fun _ _ hget => hget⟩
  | removed hremove _ ih =>
    rw [List.forall_mem_cons] at hplaces
    obtain ⟨⟨key, hplace⟩, hplaces⟩ := hplaces
    obtain rfl := hplace.removeFile_eq_ok hkeeps hremove
    obtain ⟨hfinal, hsame, hless⟩ := ih hplaces (keepsWays_erase hunmarked hplace.marked hkeeps)
    refine ⟨hfinal, (sameUnmarked_erase hplace.marked).trans hsame, fun other entry hget => ?_⟩
    have hbefore := hless other entry hget
    rw [get?_erase] at hbefore
    split at hbefore
    · cases hbefore
    · exact hbefore
  | missing _ _ ih | refused _ _ _ ih =>
    rw [List.forall_mem_cons] at hplaces
    exact ih hplaces.2 hkeeps

/-- What is not there at some time is not there in the end. -/
theorem Removal.get?_of_get?_eq_none (hget : tree.get? key = none) : final.get? key = none := by
  obtain ⟨-, -, hless⟩ := hremoval.sameUnmarked hunmarked hplaces hkeeps
  cases hfinal : final.get? key with
  | none => rfl
  | some entry =>
    rw [hless key entry hfinal] at hget
    cases hget

/-- Where a staging path leads there is nothing in the end, unless a way went on from there. -/
theorem Removal.get?_eq_none (hmem : path ∈ paths) (hplace : IsPlace base path key)
    {other : FileTree} (hother : base.KeepsWays other) {follow : Bool} {place : Place}
    (hresolve : other.resolve follow path = .ok place) (hway : tree.way? key = none) :
    final.get? key = none := by
  have hleads : ∀ tree, base.KeepsWays tree → tree.way? key = none → tree.LeadsTo false path key :=
    fun tree hkeeps hway => ⟨hway, hplace.lodged.resolve_eq hother hresolve tree hkeeps false nofun⟩
  induction hremoval with
  | done => cases hmem
  | @removed tree next final path' paths refused hremove hrest ih =>
    rw [List.forall_mem_cons] at hplaces
    obtain ⟨⟨found, hfound⟩, hplaces⟩ := hplaces
    have hnext := hfound.removeFile_eq_ok hkeeps hremove
    have hkeeps' : base.KeepsWays next := hnext ▸ keepsWays_erase hunmarked hfound.marked hkeeps
    by_cases hpath : path' = path
    · subst hpath
      have herase := (hleads tree hkeeps hway).removeFile_eq.resolve_left (by simp [hremove])
      rw [hremove, Except.ok.injEq] at herase
      refine hrest.get?_of_get?_eq_none hunmarked hplaces hkeeps' ?_
      rw [herase, get?_erase, if_pos ⟨rfl, ne_nil_of_way? hway⟩]
    · refine ih hplaces hkeeps' ((List.mem_cons.mp hmem).resolve_left (Ne.symm hpath)) ?_
      rw [hnext, way?, get?_erase]
      split
      · rfl
      · exact hway
  | @missing tree final path' paths refused hremove hrest ih =>
    rw [List.forall_mem_cons] at hplaces
    by_cases hpath : path' = path
    · subst hpath
      obtain ⟨hget, -⟩ := (hleads tree hkeeps hway).removeFile_eq.resolve_right (by simp [hremove])
      exact hrest.get?_of_get?_eq_none hunmarked hplaces.2 hkeeps hget
    · exact ih hplaces.2 hkeeps ((List.mem_cons.mp hmem).resolve_left (Ne.symm hpath)) hway
  | @refused tree final path' paths refused cause hremove hcause hrest ih =>
    rw [List.forall_mem_cons] at hplaces
    by_cases hpath : path' = path
    · subst hpath
      rcases (hleads tree hkeeps hway).removeFile_eq with ⟨-, hremove'⟩ | hremove' <;>
        rw [hremove] at hremove' <;> cases hremove'
      exact absurd rfl hcause
    · exact ih hplaces.2 hkeeps ((List.mem_cons.mp hmem).resolve_left (Ne.symm hpath)) hway

/-- What staging added is gone in the end, unless it has become a way. -/
theorem Removal.get?_of_coveredBy
    {staged : FileTree} (hstaged : StagedOver base staged) (hcovered : CoveredBy paths base staged)
    (hkey : isMarked key = true) (hadded : staged.get? key ≠ none)
    (hway : tree.way? key = none) : final.get? key = none := by
  have hbase {other : Key} (hother : isMarked other = true) : staged.way? other = none := by
    rw [← hstaged.ways]
    exact hunmarked.way?_eq_none hother
  have hkeeps' := keepsWays_of_way?_eq hstaged.ways
  obtain ⟨path, hmem, hleads⟩ := hcovered key (by rwa [hunmarked.get?_eq_none hkey])
  obtain ⟨place, hplace⟩ := hplaces path hmem
  obtain rfl := hleads.key_eq
    (hplace.lodged.leadsTo hkeeps' (hbase hplace.marked) hleads.resolves true)
  exact hremoval.get?_eq_none hunmarked hplaces hkeeps hmem hplace hkeeps' hleads.resolves hway

end Places

/-- A tree that was only staged over is as before once the staging files are removed. -/
theorem StagedOver.eq_of_removal (hunmarked : IsUnmarked base) (hstaged : StagedOver base tree)
    (hcovered : CoveredBy paths base tree)
    (hplaces : ∀ path ∈ paths, ∃ key, IsPlace base path key)
    (hremoval : Removal tree paths refused final) : final = base := by
  have hkeeps := keepsWays_of_way?_eq hstaged.ways
  obtain ⟨-, hsame, hless⟩ := hremoval.sameUnmarked hunmarked hplaces hkeeps
  have hentries := hstaged.same.trans hsame
  rw [SameUnmarked, hunmarked.filter_eq] at hentries
  have hfinal : IsUnmarked final := by
    intro key hmem
    rw [← Bool.not_eq_true]
    intro hkey
    have hway : tree.way? key = none := by
      rw [← hstaged.ways]
      exact hunmarked.way?_eq_none hkey
    obtain ⟨entry, hget⟩ := exists_get?_of_mem hmem
    have hadded : tree.get? key ≠ none := by simp [hless key entry hget]
    rw [hremoval.get?_of_coveredBy hunmarked hplaces hkeeps hstaged hcovered hkey hadded hway] at hget
    cases hget
  rw [hfinal.filter_eq] at hentries
  exact congrArg FileTree.mk hentries

end Removal

section Phase

variable {σ : Type} {base : FileTree}

/-- The first state's tree being staged over, the second one's is too, and it has more components on
record, each of which is at one of the sites. -/
def StagesSites (base : FileTree) (sites : List (String × Key)) (before after : State σ) : Prop :=
  StagedOver base before.world.tree →
    StagedOver base after.world.tree ∧ after.world.outside = before.world.outside ∧
      ∃ more, after.staged = before.staged ++ more ∧
        ∀ staged ∈ more, staged.path ∈ sites.map (·.1) ∧ IsProper staged

theorem StagesSites.trans {sites : List (String × Key)} (first second third : State σ)
    (hfirst : StagesSites base sites first second)
    (hsecond : StagesSites base sites second third) : StagesSites base sites first third := by
  intro hstaged
  obtain ⟨hbetween, houtside, more, hmore, hproper⟩ := hfirst hstaged
  obtain ⟨hafter, houtside', more', hmore', hproper'⟩ := hsecond hbetween
  refine ⟨hafter, houtside'.trans houtside, more ++ more',
    by rw [hmore', hmore, List.append_assoc], ?_⟩
  intro staged hmem
  exact (List.mem_append.mp hmem).elim (hproper staged) (hproper' staged)

/-- Staging components adds marked files to the tree, however it ends. -/
theorem keeps_stagesSites (hsound : base.IsSound) (hunmarked : IsUnmarked base)
    {sites : List (String × Key)} (hsites : ∀ site ∈ sites, base.IsSite site) :
    Keeps (σ := σ) (StagesSites base sites) ((sites.map (·.1)).mapM stageComponent) := by
  refine keeps_mapM ?_ StagesSites.trans ?_
  · exact fun state hstaged => ⟨hstaged, rfl, [], (List.append_nil _).symm, nofun⟩
  · intro path hpath state hstaged
    obtain ⟨site, hsite, rfl⟩ := List.mem_map.mp hpath
    rw [perform_stageComponent]
    refine ⟨hstaged.stage hunmarked (exists_isPlace hsound (hsites site hsite)), rfl,
      [(stage state.world.tree site.1).recorded], rfl, ?_⟩
    rw [List.forall_mem_singleton]
    refine ⟨?_, isProper_stage state.world.tree site.1⟩
    rw [path_stage]
    exact hpath

end Phase

end StyleMigration.Migration
