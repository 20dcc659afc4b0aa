import StyleMigration.Proofs.Component.Staging

/-!
What staging has written when it ends, whether it comes to its end or not. A section is recorded and then
written, so each write changes the tree where a recorded staging path leads and nowhere else
(`Writes.changed`). If no staging path names a link, they lead to different keys beside the component
(`exists_directory`), and each section that was written can be read from its own file
(`Writes.readText_eq`). A link at a staging path can lead anywhere, also to the component itself.
-/

set_option autoImplicit false

namespace StyleMigration

variable {path : String} {tree : FileTree} {key : Key}

namespace FileTree

/-! ### Links and neighbours -/

/-- A path names no link. There may be links on the way to it. -/
def IsNoLink (tree : FileTree) (path : String) : Prop :=
  ∀ key target, tree.resolve false path ≠ .ok (.taken key (.link target))

theorem LeadsTo.of_isNoLink (hleads : tree.LeadsTo true path key) (hlink : tree.IsNoLink path) :
    tree.LeadsTo false path key := by
  refine ⟨hleads.noWay, (resolve_unfollowed hleads.resolves).resolve_right ?_⟩
  rintro ⟨found, target, htaken⟩
  exact hlink found target htaken

theorem isNoLink_of_entries {tree : FileTree}
    (hentries : ∀ item ∈ tree.entries, ∀ target, item.2 ≠ .link target) (path : String) :
    tree.IsNoLink path := by
  intro key target htaken
  have hget := get?_of_resolve_eq_taken htaken (by simp)
  have hkey : key ≠ [] := by
    rintro rfl
    simp at hget
  exact hentries _ (mem_keys_of_get? hkey hget) target rfl

/-- Whatever name comes last, those before it lead to one directory, or nowhere. -/
theorem walk_concat (tree : FileTree) (follow : Bool) (links : Nat) (key front : Key) :
    (∃ cause, ∀ name, tree.walk follow links key (front ++ [name]) = .error cause) ∨
      ∃ left directory, ∀ name,
        tree.walk follow links key (front ++ [name]) = tree.walk follow left directory [name] := by
  -- A link takes one from the links and adds names, all else takes a name.
  induction links using Nat.strongRecOn generalizing key front with
  | ind links ihLinks =>
    induction front generalizing key with
    | nil => exact .inr ⟨links, key, fun _ => rfl⟩
    | cons first front ih =>
      have hmore (name : String) : (front ++ [name]).isEmpty = false := by simp
      simp only [List.cons_append, walk_cons tree follow links key first, hmore, Bool.false_and,
        Bool.false_eq_true, if_false]
      split
      · exact ih key.dropLast
      · split
        · exact .inl ⟨_, fun _ => rfl⟩
        · cases tree.get? (key ++ [first]) with
          | none => exact .inl ⟨_, fun _ => rfl⟩
          | some entry =>
            cases entry with
            | file bytes => exact .inl ⟨_, fun _ => rfl⟩
            | directory => exact ih (key ++ [first])
            | link target =>
              cases links with
              | zero => exact .inl ⟨_, fun _ => rfl⟩
              | succ links =>
                simp only [← List.append_assoc]
                split
                · exact .inl ⟨_, fun _ => rfl⟩
                · exact ihLinks links (Nat.lt_succ_self links) key (pathNames target ++ front)

theorem LeadsTo.wantsDirectory_eq {follow : Bool}
    (hleads : tree.LeadsTo follow path key) : wantsDirectory path = false := by
  obtain ⟨-, -, hdirectory⟩ := resolve_eq_ok_iff.mp hleads.resolves
  rw [← Bool.not_eq_true]
  intro hwants
  obtain ⟨found, hfound⟩ := hdirectory hwants
  exact placeAt_ne_directory hleads.noWay hfound

theorem LeadsTo.walk_eq {follow : Bool} (hleads : tree.LeadsTo follow path key) :
    tree.walk follow maxLinks [] (pathNames path) = .ok (tree.placeAt key) := by
  have hplace := hleads.resolves
  rcases resolve_eq_walk hleads.wantsDirectory_eq with ⟨cause, hcause⟩ | hresolve
  · rw [hcause tree follow] at hplace
    cases hplace
  · rwa [hresolve tree follow] at hplace

/-- Paths that differ in their last names alone lead into one directory. -/
theorem exists_directory (tree : FileTree) (front : Key) :
    ∃ directory, ∀ path key name, pathNames path = front ++ [name] → tree.LeadsTo false path key →
      key = directory ++ [name] := by
  rcases walk_concat tree false maxLinks [] front with ⟨cause, hcause⟩ | ⟨left, directory, hwalk⟩
  · refine ⟨[], fun path key name hnames hleads => ?_⟩
    have hplace := hleads.walk_eq
    rw [hnames, hcause] at hplace
    cases hplace
  · refine ⟨directory, fun path key name hnames hleads => ?_⟩
    have hplace := hleads.walk_eq
    rw [hnames, hwalk] at hplace
    by_cases hup : name = ".."
    · rw [walk_cons, if_pos hup, walk_nil, Except.ok.injEq] at hplace
      exact absurd hplace.symm (placeAt_ne_directory hleads.noWay)
    · by_cases hlong : maxNameLength < name.utf8ByteSize
      · rw [walk_cons, if_neg hup, if_pos hlong] at hplace
        cases hplace
      · rw [walk_name ⟨hup, Nat.not_lt.mp hlong⟩ (by simp), Except.ok.injEq] at hplace
        exact (placeAt_inj hplace).symm

/-! ### One file -/

/-- What one write does. -/
theorem exists_set_of_writeText {next : FileTree} {text : List Char}
    (hwrite : tree.writeText path text = .ok next) :
    ∃ key, tree.LeadsTo true path key ∧ SameOff [key] tree next ∧ next.HasText key text := by
  obtain ⟨key, hleads⟩ := writeText_eq_ok hwrite
  rw [hleads.writeText_eq, Except.ok.injEq] at hwrite
  subst hwrite
  exact ⟨key, hleads, SameOff.set hleads.noWay _, hasText_set tree (ne_nil_of_way? hleads.noWay) _⟩

theorem exists_leadsTo_of_readText {text : List Char}
    (hread : tree.readText path = .ok text) : ∃ key, tree.LeadsTo true path key := by
  obtain ⟨place, hresolve⟩ := resolve_of_readText hread
  rcases resolve_ends hresolve with ⟨found, rfl⟩ | ⟨found, hleads, -⟩
  · rw [readText, readBytes, hresolve] at hread
    cases hread
  · exact ⟨found, hleads⟩

end FileTree

namespace Component

open FileTree

variable {found : List Section} {parts : List (Section × Language)}

/-! ### A row of writes -/

namespace Writes

variable {path : String} {before after : FileTree} {parts : List (Section × Language)}

theorem ways (hwrites : Writes path before parts after) : before.way? = after.way? := by
  induction hwrites with
  | nil => rfl
  | cons hwrite _ ih =>
    obtain ⟨key, -, hsame, -⟩ := exists_set_of_writeText hwrite
    exact hsame.ways.trans ih

/-- Only where a staging path of the sections leads can anything change. -/
theorem changed (hwrites : Writes path before parts after)
    (hchanged : after.get? key ≠ before.get? key) :
    ∃ part ∈ parts, before.LeadsTo true (chunkOf path part).stagingPath key := by
  induction hwrites with
  | nil => exact absurd rfl hchanged
  | @cons tree next after part parts hwrite hrest ih =>
    obtain ⟨found, hleads, hsame, -⟩ := exists_set_of_writeText hwrite
    by_cases hkey : key = found
    · exact ⟨part, List.mem_cons_self, hkey ▸ hleads⟩
    · have hkept := hsame.kept key (by simpa using hkey)
      obtain ⟨other, hother, hleads⟩ := ih (by rwa [hkept])
      exact ⟨other, List.mem_cons_of_mem _ hother, hleads.of_way?_eq hsame.ways.symm⟩

/-- Sections with staging files of their own can be read from them. -/
theorem readText_eq (hwrites : Writes path before parts after)
    (hapart : parts.Pairwise fun part other => ∀ key,
      before.LeadsTo true (chunkOf path part).stagingPath key →
        ¬ before.LeadsTo true (chunkOf path other).stagingPath key) :
    ∀ part ∈ parts, after.readText (chunkOf path part).stagingPath = .ok part.1.content := by
  induction hwrites with
  | nil => exact List.forall_mem_nil _
  | @cons tree next after part parts hwrite hrest ih =>
    obtain ⟨key, hleads, hsame, htext⟩ := exists_set_of_writeText hwrite
    rw [List.pairwise_cons] at hapart
    refine List.forall_mem_cons.mpr ⟨?_, ih (hapart.2.imp ?_)⟩
    · -- no later write comes to the file of this one
      have hkept : after.get? key = next.get? key := Decidable.byContradiction fun hchanged => by
        obtain ⟨other, hother, hmeets⟩ := hrest.changed hchanged
        exact hapart.1 other hother key hleads (hmeets.of_way?_eq hsame.ways.symm)
      have hled := (hleads.of_way?_eq hsame.ways).of_way?_eq hrest.ways
      rw [hled.readText_eq_ok_iff, HasText, hkept]
      exact htext
    · intro part other hmeet key hpart hother
      exact hmeet key (hpart.of_way?_eq hsame.ways.symm) (hother.of_way?_eq hsame.ways.symm)

end Writes

/-! ### Staging files beside a component -/

/-- The component and its staging files stand beside each other, each under a name of its own. -/
theorem exists_neighbours (tree : FileTree) (hwants : wantsDirectory path = false) :
    ∃ directory name,
      (∀ key, tree.LeadsTo false path key → key = directory ++ [name]) ∧
      ∀ index language key, tree.LeadsTo false (stagingPath path index language) key →
        key = directory ++ [stagingPath name index language] := by
  obtain ⟨front, name, hnames, -⟩ :=
    pathNames_append hwants (slash_notMem_stagingSuffix 0 .css)
  obtain ⟨directory, hdirectory⟩ := exists_directory tree front
  refine ⟨directory, name, fun key => hdirectory path key name hnames, ?_⟩
  intro index language key hleads
  obtain ⟨front', name', hnames', hadded, -⟩ :=
    pathNames_append hwants (slash_notMem_stagingSuffix index language)
  obtain ⟨rfl, hname⟩ := List.append_inj' (hnames.symm.trans hnames') rfl
  cases hname
  rw [← stagingPath_eq, ← stagingPath_eq] at hadded
  exact hdirectory _ key _ hadded hleads

theorem stagingPath_ne_self (name : String) (index : Nat) (language : Language) :
    stagingPath name index language ≠ name := by
  intro hname
  have hlength := congrArg (·.toList.length) hname
  simp [toList_stagingPath] at hlength

/-- The sections of the component that a path leads to. -/
def sectionsAt (tree : FileTree) (path : String) : Except Failure (List Section) := do
  let source ← (tree.readText path).mapError (Failure.io path)
  sections path source

theorem stage_of_sectionsAt_eq_error {failure : Failure}
    (hfound : sectionsAt tree path = .error failure) :
    stage tree path = ⟨tree, ⟨path, []⟩, some failure⟩ := by
  rw [sectionsAt] at hfound
  simp only [stage, hfound]

theorem stage_of_sectionsAt_eq_ok (hfound : sectionsAt tree path = .ok found) :
    stage tree path = ⟨(stageSections path tree found).tree,
      ⟨path, (stageSections path tree found).recorded⟩, (stageSections path tree found).stopped⟩ := by
  rw [sectionsAt] at hfound
  simp only [stage, hfound]

theorem sectionsAt_eq_ok (hfound : sectionsAt tree path = .ok found) :
    (∃ key, tree.LeadsTo true path key) ∧ (found.map (·.index)).Nodup := by
  obtain ⟨source, hread, hsections⟩ := bind_eq_ok_iff.mp hfound
  exact ⟨exists_leadsTo_of_readText (mapError_eq_ok_iff.mp hread), (sections_eq_ok hsections).1⟩

/-- Sections with different numbers have staging files of their own if no staging path names a link. -/
theorem pairwise_apart (hwants : wantsDirectory path = false)
    (hindices : (parts.map (·.1.index)).Nodup)
    (hlinks : ∀ part ∈ parts, tree.IsNoLink (chunkOf path part).stagingPath) :
    parts.Pairwise fun part other => ∀ key,
      tree.LeadsTo true (chunkOf path part).stagingPath key →
        ¬ tree.LeadsTo true (chunkOf path other).stagingPath key := by
  obtain ⟨directory, name, -, hstaging⟩ := exists_neighbours tree hwants
  refine (List.pairwise_map.mp hindices).imp_of_mem ?_
  intro part other hpart hother hne key hleads hmeets
  have hkey := hstaging _ _ key (hleads.of_isNoLink (hlinks part hpart))
  have hkey' := hstaging _ _ key (hmeets.of_isNoLink (hlinks other hother))
  have hpath := List.append_cancel_left (hkey.symm.trans hkey')
  exact hne (stagingPath_inj (List.singleton_inj.mp hpath)).2.1

/-- No staging path leads to the component if neither names a link. -/
theorem apart_of_isNoLink (hpath : tree.IsNoLink path)
    {part : Section × Language} (hlink : tree.IsNoLink (chunkOf path part).stagingPath)
    (hleads : tree.LeadsTo true path key) :
    ¬ tree.LeadsTo true (chunkOf path part).stagingPath key := by
  intro hmeets
  obtain ⟨directory, name, hcomponent, hstaging⟩ :=
    exists_neighbours tree (hleads.wantsDirectory_eq)
  have hkey := hcomponent key (hleads.of_isNoLink hpath)
  have hkey' := hstaging _ _ key (hmeets.of_isNoLink hlink)
  have hname := List.append_cancel_left (hkey'.symm.trans hkey)
  exact stagingPath_ne_self _ _ _ (List.singleton_inj.mp hname)

/-! ### The record -/

/-- What is recorded of a component when staging ends: its first sections in their languages, and all of
them unless staging stopped. Nothing was changed that no recorded staging path leads to. -/
structure Recording (tree : FileTree) (path : String) (result : StagingResult Staged)
    (parts : List (Section × Language)) : Prop where
  recorded : result.recorded = ⟨path, parts.map (chunkOf path)⟩
  languages : ∀ part ∈ parts, Language.ofAttribute path part.1.language? = .ok part.2
  inOrder : ∀ found, sectionsAt tree path = .ok found →
    parts.map (·.1) <+: found ∧ (result.stopped = none → parts.map (·.1) = found)
  stops : ∀ found, sectionsAt tree path = .ok found →
    ∃ written, Stops path found result.tree written parts result.stopped
  unread : ∀ failure, sectionsAt tree path = .error failure →
    parts = [] ∧ result.stopped = some failure
  covered : ∀ key, result.tree.get? key ≠ tree.get? key →
    ∃ part ∈ parts, tree.LeadsTo true (chunkOf path part).stagingPath key

/-- Every recorded section can be read from its staging file, except for a last one that could not be
written. -/
def IsHeld (path : String) (result : StagingResult Staged) (parts : List (Section × Language)) :
    Prop :=
  ∀ part ∈ parts, result.tree.readText (chunkOf path part).stagingPath = .ok part.1.content ∨
    parts.getLast? = some part ∧
      ∃ cause, result.stopped = some (.io (chunkOf path part).stagingPath cause)

theorem recording_of_sectionsAt_eq_error {failure : Failure}
    (hfound : sectionsAt tree path = .error failure) : Recording tree path (stage tree path) [] := by
  have hnone {found : List Section} : sectionsAt tree path ≠ .ok found := by
    rw [hfound]
    simp
  rw [stage_of_sectionsAt_eq_error hfound]
  refine ⟨rfl, List.forall_mem_nil _, fun _ hok => absurd hok hnone, fun _ hok => absurd hok hnone, ?_,
    fun key hchanged => absurd rfl hchanged⟩
  intro other herror
  rw [hfound, Except.error.injEq] at herror
  exact ⟨rfl, by rw [herror]⟩

theorem recording_of_sectionsAt_eq_ok
    (hfound : sectionsAt tree path = .ok found) {written : List (Section × Language)}
    (hwrites : Writes path tree written (stageSections path tree found).tree)
    (hstops : Stops path found (stageSections path tree found).tree written parts
      (stageSections path tree found).stopped)
    (hlanguages : ∀ part ∈ parts, Language.ofAttribute path part.1.language? = .ok part.2)
    (hrecorded : (stageSections path tree found).recorded = parts.map (chunkOf path)) :
    Recording tree path (stage tree path) parts := by
  have hsame {other : List Section} (hok : sectionsAt tree path = .ok other) : found = other := by
    rw [hfound, Except.ok.injEq] at hok
    exact hok
  rw [stage_of_sectionsAt_eq_ok hfound]
  refine ⟨by rw [hrecorded], hlanguages, fun _ hok => hsame hok ▸ hstops.isPrefix,
    fun _ hok => ⟨written, hsame hok ▸ hstops⟩, ?_, ?_⟩
  · intro failure herror
    rw [hfound] at herror
    cases herror
  · intro key hchanged
    obtain ⟨part, hpart, hkey⟩ := hwrites.changed hchanged
    exact ⟨part, hstops.written_isPrefix.subset hpart, hkey⟩

/-- The sections that were written are held, and of the recorded ones only a last one was not. -/
theorem Stops.isHeld {result : StagingResult Staged} {written : List (Section × Language)}
    (hstops : Stops path found result.tree written parts result.stopped) (hheld : ∀ part ∈ written,
      result.tree.readText (chunkOf path part).stagingPath = .ok part.1.content) :
    IsHeld path result parts := by
  intro part hpart
  rcases hstops.recorded_cases with rfl | ⟨last, cause, rfl, hstopped⟩
  · exact .inl (hheld part hpart)
  · rcases List.mem_append.mp hpart with hpart | hlast
    · exact .inl (hheld part hpart)
    · rw [List.mem_singleton] at hlast
      subst hlast
      exact .inr ⟨List.getLast?_concat, cause, hstopped⟩

theorem exists_recording (tree : FileTree) (path : String) :
    ∃ parts, Recording tree path (stage tree path) parts ∧
      ((∀ part ∈ parts, tree.IsNoLink (chunkOf path part).stagingPath) →
        IsHeld path (stage tree path) parts) := by
  cases hfound : sectionsAt tree path with
  | error failure =>
    exact ⟨[], recording_of_sectionsAt_eq_error hfound, fun _ => List.forall_mem_nil _⟩
  | ok found =>
    obtain ⟨⟨key, hleads⟩, hindices⟩ := sectionsAt_eq_ok hfound
    obtain ⟨written, parts, hwrites, hstops, hlanguages, hrecorded⟩ :=
      exists_writes_stageSections path tree found
    refine ⟨parts, recording_of_sectionsAt_eq_ok hfound hwrites hstops hlanguages hrecorded, ?_⟩
    intro hlinks
    have hwritten := hstops.written_isPrefix
    have hnumbers : (written.map (·.1.index)).Nodup := by
      have hfirst := ((hwritten.map (·.1)).trans hstops.isPrefix.1).map (·.index)
      rw [List.map_map] at hfirst
      exact hindices.sublist hfirst.sublist
    have hapart := pairwise_apart hleads.wantsDirectory_eq hnumbers
      fun part hpart => hlinks part (hwritten.subset hpart)
    rw [stage_of_sectionsAt_eq_ok hfound]
    exact Stops.isHeld hstops (hwrites.readText_eq hapart)

theorem ways_stage (tree : FileTree) (path : String) :
    tree.way? = (stage tree path).tree.way? := by
  cases hfound : sectionsAt tree path with
  | error failure => rw [stage_of_sectionsAt_eq_error hfound]
  | ok found =>
    obtain ⟨written, parts, hwrites, -⟩ := exists_writes_stageSections path tree found
    rw [stage_of_sectionsAt_eq_ok hfound]
    exact hwrites.ways

/-- The component is as it was if no recorded staging path leads to it. -/
theorem Recording.readBytes_eq (hrecording : Recording tree path (stage tree path) parts)
    (hapart : ∀ part ∈ parts, ∀ key, tree.LeadsTo true path key →
      ¬ tree.LeadsTo true (chunkOf path part).stagingPath key) :
    (stage tree path).tree.readBytes path = tree.readBytes path := by
  cases hfound : sectionsAt tree path with
  | error failure => rw [stage_of_sectionsAt_eq_error hfound]
  | ok found =>
    obtain ⟨⟨key, hleads⟩, -⟩ := sectionsAt_eq_ok hfound
    have hkept : (stage tree path).tree.get? key = tree.get? key :=
      Decidable.byContradiction fun hchanged => by
        obtain ⟨part, hpart, hmeets⟩ := hrecording.covered key hchanged
        exact hapart part hpart key hleads hmeets
    have hled := hleads.of_way?_eq (ways_stage tree path)
    rw [readBytes, readBytes, hleads.resolves, hled.resolves, placeAt, placeAt, hkept]

/-- Whether or not it comes to its end, staging records what it writes. It leaves the component as it was,
unless a recorded staging path leads there. Where no recorded staging path names a link, it changes nothing
but the files under these paths and they hold the sections, and the component is as it was if its own path
names no link either. -/
theorem stage_records_before_writing (tree : FileTree) (path : String) :
    ∃ parts, Recording tree path (stage tree path) parts ∧
      ((∀ part ∈ parts, tree.IsNoLink (chunkOf path part).stagingPath) →
        (∀ key, (stage tree path).tree.get? key ≠ tree.get? key →
          ∃ part ∈ parts, tree.LeadsTo false (chunkOf path part).stagingPath key) ∧
        IsHeld path (stage tree path) parts ∧
        (tree.IsNoLink path → (stage tree path).tree.readBytes path = tree.readBytes path)) ∧
      ((∀ part ∈ parts, ∀ key, tree.LeadsTo true path key →
          ¬ tree.LeadsTo true (chunkOf path part).stagingPath key) →
        (stage tree path).tree.readBytes path = tree.readBytes path) := by
  obtain ⟨parts, hrecording, hheld⟩ := exists_recording tree path
  refine ⟨parts, hrecording, fun hlinks => ⟨?_, hheld hlinks, fun hlink => ?_⟩,
    hrecording.readBytes_eq⟩
  · intro key hchanged
    obtain ⟨part, hpart, hleads⟩ := hrecording.covered key hchanged
    exact ⟨part, hpart, hleads.of_isNoLink (hlinks part hpart)⟩
  · exact hrecording.readBytes_eq fun part hpart key => apart_of_isNoLink hlink (hlinks part hpart)

/-- A component with a section in a language that is not known after one without a language. -/
def strangeComponent : FileTree where
  entries := [(["App.vue"], .file "<style>.a{}</style><style lang=\"x\">.b{}</style>".toUTF8)]

theorem stage_records_before_writing_strangeComponent :
    (stage strangeComponent "App.vue").stopped = some (.unknownLanguage "App.vue" "x") ∧
      ∃ parts, parts ≠ [] ∧
        Recording strangeComponent "App.vue" (stage strangeComponent "App.vue") parts ∧
        IsHeld "App.vue" (stage strangeComponent "App.vue") parts ∧
        (stage strangeComponent "App.vue").tree.readBytes "App.vue" =
          strangeComponent.readBytes "App.vue" := by
  have hlinks := @isNoLink_of_entries strangeComponent (by simp [strangeComponent])
  obtain ⟨parts, hrecording, hwritten, -⟩ := stage_records_before_writing strangeComponent "App.vue"
  obtain ⟨-, hheld, hsame⟩ := hwritten fun _ _ => hlinks _
  refine ⟨by decide +kernel, parts, ?_, hrecording, hheld, hsame (hlinks _)⟩
  rintro rfl
  exact absurd hrecording.recorded (by decide +kernel)

/-- A component with a link to it in the place of its section's staging file. -/
def linkedComponent : FileTree where
  entries := [(["App.vue"], .file "<style>.a{}</style>".toUTF8),
    (["App.vue.vue_sass_migrating.0.css"], .link "App.vue")]

/-- The section is written in the place of the component. -/
theorem stage_linkedComponent :
    (stage linkedComponent "App.vue").stopped = none ∧
      linkedComponent.readText "App.vue" = .ok "<style>.a{}</style>".toList ∧
      (stage linkedComponent "App.vue").tree.readText "App.vue" = .ok ".a{}".toList := by
  decide +kernel

end Component

end StyleMigration
