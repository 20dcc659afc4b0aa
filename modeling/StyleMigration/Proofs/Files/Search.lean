import StyleMigration.Instances
import StyleMigration.Proofs.Files.Lodging
import StyleMigration.Proofs.Files.Paths

/-!
What a search finds and where its paths lead. In a sound tree every entry stands in a directory and
has a name, so the path that a search gives for an entry is lodged at that entry
(`IsSound.isLodged_pathFrom`) and leads there, if it can be looked up at all (`Spot.leadsTo`), and a
search finds each file once (`mem_filesBelow_iff`, `nodup_filesBelow`).
-/

set_option autoImplicit false

namespace StyleMigration.FileTree

variable {tree : FileTree} {key top names : Key} {root : String}

/-- A tree as a file system has it: one entry for a key, under a name, in a directory. -/
structure IsSound (tree : FileTree) : Prop where
  distinct : tree.IsDistinct
  named : ∀ key ∈ tree.entries.map (·.1), ∀ name ∈ key, IsName name
  housed : ∀ key ∈ tree.entries.map (·.1), tree.get? key.dropLast = some .directory

/-- Whether a tree is sound shows in its list of entries. -/
instance instDecidableIsSound (tree : FileTree) : Decidable tree.IsSound :=
  decidable_of_iff (tree.IsDistinct ∧ (∀ key ∈ tree.entries.map (·.1), ∀ name ∈ key, IsName name) ∧
      ∀ key ∈ tree.entries.map (·.1), tree.get? key.dropLast = some .directory)
    ⟨fun h => ⟨h.1, h.2.1, h.2.2⟩, fun h => ⟨h.distinct, h.named, h.housed⟩⟩

theorem mem_keys_of_get? {entry : FileEntry} (hkey : key ≠ [])
    (hget : tree.get? key = some entry) : (key, entry) ∈ tree.entries := by
  rw [get?_of_ne_nil tree hkey, List.lookup_eq_some_iff] at hget
  obtain ⟨before, after, hentries, -⟩ := hget
  simp [hentries]

theorem IsSound.get?_dropLast (hsound : tree.IsSound)
    {entry : FileEntry} (hget : tree.get? key = some entry) :
    tree.get? key.dropLast = some .directory := by
  by_cases hkey : key = []
  · simp [hkey]
  · exact hsound.housed key (List.mem_map_of_mem (mem_keys_of_get? hkey hget))

/-- What stands above a directory is a directory. -/
theorem IsSound.get?_of_append (hsound : tree.IsSound) {rest : Key}
    (hget : tree.get? (key ++ rest) = some .directory) : tree.get? key = some .directory := by
  induction hlength : rest.length generalizing rest with
  | zero =>
    rw [List.length_eq_zero_iff.mp hlength, List.append_nil] at hget
    exact hget
  | succ length ih =>
    have hrest : rest ≠ [] := by
      rintro rfl
      cases hlength
    have hhoused := hsound.get?_dropLast hget
    rw [List.dropLast_append_of_ne_nil hrest] at hhoused
    exact ih hhoused (by simp [hlength])

/-- A file that is put into a directory under a name leaves a tree sound. -/
theorem IsSound.set_file (hsound : tree.IsSound) (hway : tree.way? key = none)
    (hnamed : ∀ name ∈ key, IsName name) (hhoused : tree.get? key.dropLast = some .directory)
    (bytes : ByteArray) : (tree.set key (.file bytes)).IsSound := by
  have hdirectory {other : Key} (hget : tree.get? other = some .directory) :
      (tree.set key (.file bytes)).get? other = some .directory :=
    (keepsWays_of_way?_eq (SameOff.set hway bytes).ways).get?_eq hget rfl
  have hkeys : ∀ other ∈ (tree.set key (.file bytes)).entries.map (·.1),
      other = key ∨ other ∈ tree.entries.map (·.1) := by
    intro other hmem
    rcases List.mem_cons.mp hmem with hkey | hmem
    · exact .inl hkey
    · exact .inr ((List.filter_sublist.map _).subset hmem)
  refine ⟨hsound.distinct.set key _, ?_, ?_⟩
  · intro other hmem
    rcases hkeys other hmem with rfl | hmem
    · exact hnamed
    · exact hsound.named other hmem
  · intro other hmem
    rcases hkeys other hmem with rfl | hmem
    · exact hdirectory hhoused
    · exact hdirectory (hsound.housed other hmem)

/-- In a sound tree names lead down through the directories they make, unless one of them is too
long. -/
theorem IsSound.walk_below {base : FileTree} (hsound : base.IsSound) {front : Key}
    (hfront : ∀ other ∈ front, IsName other)
    (hhoused : base.get? (key ++ front) = some .directory) :
    (∀ tree, base.KeepsWays tree → ∀ follow links name,
        tree.walk follow links key (front ++ [name]) = .error .nameTooLong) ∨
      ∀ tree, base.KeepsWays tree → ∀ follow links name,
        tree.walk follow links key (front ++ [name]) = tree.walk follow links (key ++ front) [name] := by
  induction front generalizing key with
  | nil => exact .inr fun tree _ follow links name => by rw [List.nil_append, List.append_nil]
  | cons first front ih =>
    rw [List.forall_mem_cons] at hfront
    rw [List.append_cons] at hhoused
    have hget := hsound.get?_of_append hhoused
    by_cases hlong : maxNameLength < first.utf8ByteSize
    · refine .inl fun tree hkeeps follow links name => ?_
      rw [List.cons_append, walk_cons, if_neg hfront.1.notUp, if_pos hlong]
    · have hdown : ∀ tree, base.KeepsWays tree → ∀ follow links name,
          tree.walk follow links key (first :: front ++ [name]) =
            tree.walk follow links (key ++ [first]) (front ++ [name]) := by
        intro tree hkeeps follow links name
        rw [List.cons_append, walk_cons, if_neg hfront.1.notUp, if_neg hlong,
          hkeeps.get?_eq hget rfl]
      refine (ih hfront.2 hhoused).imp ?_ ?_
      · intro hrest tree hkeeps follow links name
        rw [hdown tree hkeeps, hrest tree hkeeps]
      · intro hrest tree hkeeps follow links name
        rw [hdown tree hkeeps, hrest tree hkeeps, ← List.append_cons]

/-- Names below a directory where a file is or could be put. -/
structure Spot (tree : FileTree) (top names : Key) : Prop where
  ne_nil : names ≠ []
  named : ∀ name ∈ names, IsName name
  housed : tree.get? (top ++ names).dropLast = some .directory
  noWay : tree.way? (top ++ names) = none

theorem IsSound.spot (hsound : tree.IsSound) (hne : names ≠ []) {bytes : ByteArray}
    (hget : tree.get? (top ++ names) = some (.file bytes)) : tree.Spot top names where
  ne_nil := hne
  named := by
    have hmem := mem_keys_of_get? (by simp [hne]) hget
    exact fun name hname =>
      hsound.named _ (List.mem_map_of_mem hmem) name (List.mem_append_right _ hname)
  housed := hsound.get?_dropLast hget
  noWay := way?_eq_none.mpr (.inr ⟨bytes, hget⟩)

/-- Whatever goes on from a root goes on from the directory it leads to. -/
theorem walk_root {base : FileTree} (hroot : base.resolve true root = .ok (.taken top .directory)) :
    ∃ links, ∀ tree, base.KeepsWays tree → ∀ follow back, back ≠ [] →
      tree.walk follow maxLinks [] (pathNames root ++ back) = tree.walk follow links top back := by
  obtain ⟨-, hwalks, -⟩ := resolve_eq_ok_iff.mp hroot
  rw [Bool.true_or] at hwalks
  exact hwalks.append rfl

/-- The path of some names from a root that leads to a directory is lodged below it. -/
theorem IsSound.isLodged_pathFrom {base : FileTree} (hsound : base.IsSound)
    {front : Key} {name : String} (hroot : base.resolve true root = .ok (.taken top .directory))
    (hfront : ∀ other ∈ front, IsName other) (hname : IsName name)
    (hhoused : base.get? (top ++ front) = some .directory) :
    base.IsLodged (pathFrom root (front ++ [name])) (top ++ (front ++ [name])) := by
  have hall : ∀ other ∈ front ++ [name], IsName other := by
    simpa [or_imp, forall_and, hname] using hfront
  have hnames := pathNames_pathFrom root hall
  have hwants := wantsDirectory_pathFrom root front hname
  obtain ⟨links, hlinks⟩ := walk_root hroot
  have hwalk : ∀ tree, base.KeepsWays tree → ∀ follow,
      tree.walk follow maxLinks [] (pathNames (pathFrom root (front ++ [name]))) =
        tree.walk follow links top (front ++ [name]) := by
    intro tree hkeeps follow
    rw [hnames, hlinks tree hkeeps follow _ (by simp)]
  rw [← List.append_assoc]
  refine isLodged_of_walk hwants hname.notUp ((hsound.walk_below hfront hhoused).imp ?_ ?_)
  · intro hlong
    exact ⟨_, fun tree hkeeps follow => by rw [hwalk tree hkeeps, hlong tree hkeeps]⟩
  · intro hbelow
    exact ⟨links, fun tree hkeeps follow => by rw [hwalk tree hkeeps, hbelow tree hkeeps]⟩

/-- The path of an entry from a root leads to it, if it can be looked up at all. -/
theorem Spot.leadsTo (hspot : tree.Spot top names) (hsound : tree.IsSound)
    (hroot : tree.resolve true root = .ok (.taken top .directory)) {follow : Bool} {place : Place}
    (hresolve : tree.resolve follow (pathFrom root names) = .ok place) (follow' : Bool) :
    tree.LeadsTo follow' (pathFrom root names) (top ++ names) := by
  obtain ⟨hne, hnames, hhoused, hway⟩ := hspot
  obtain ⟨front, name, rfl⟩ : ∃ front name, names = front ++ [name] :=
    ⟨_, _, (List.dropLast_concat_getLast hne).symm⟩
  rw [← List.append_assoc, List.dropLast_concat] at hhoused
  have hlodged := hsound.isLodged_pathFrom hroot
    (fun other hmem => hnames other (List.mem_append_left _ hmem)) (hnames name (by simp)) hhoused
  exact hlodged.leadsTo (keepsWays_of_way?_eq rfl) hway hresolve follow'

/-- The same for a look-up in a tree with the same ways. -/
theorem Spot.leadsTo_of_way?_eq {other : FileTree}
    (hspot : tree.Spot top names) (hsound : tree.IsSound)
    (hroot : tree.resolve true root = .ok (.taken top .directory))
    (hways : tree.way? = other.way?) {follow : Bool} {place : Place}
    (hresolve : other.resolve follow (pathFrom root names) = .ok place) (follow' : Bool) :
    tree.LeadsTo follow' (pathFrom root names) (top ++ names) :=
  hspot.leadsTo hsound hroot (resolve_of_way?_eq hways.symm hresolve) follow'

theorem below?_eq_some_iff {directory : Key} :
    below? directory key = some names ↔ key = directory ++ names ∧ names ≠ [] := by
  rw [below?]
  constructor
  · intro hbelow
    split at hbelow
    · rename_i hcondition
      simp only [Bool.and_eq_true, List.isPrefixOf_iff_prefix, decide_eq_true_eq] at hcondition
      obtain ⟨⟨rest, rfl⟩, hlength⟩ := hcondition
      rw [List.drop_left, Option.some.injEq] at hbelow
      subst hbelow
      exact ⟨rfl, by rintro rfl; simp at hlength⟩
    · cases hbelow
  · rintro ⟨rfl, hne⟩
    have hlength : 0 < names.length := List.length_pos_iff.mpr hne
    rw [if_pos (by simp [hlength]), List.drop_left]

theorem lookup_of_mem {entries : List (Key × FileEntry)} (hdistinct : (entries.map (·.1)).Nodup)
    {entry : FileEntry} (hmem : (key, entry) ∈ entries) :
    entries.lookup key = some entry := by
  induction entries with
  | nil => cases hmem
  | cons first entries ih =>
    rw [List.map_cons, List.nodup_cons] at hdistinct
    rcases List.mem_cons.mp hmem with rfl | hmem
    · simp
    · have hne : (key == first.1) = false := by
        rw [beq_eq_false_iff_ne]
        rintro rfl
        exact hdistinct.1 (List.mem_map.mpr ⟨_, hmem, rfl⟩)
      rw [List.lookup_cons, hne]
      exact ih hdistinct.2 hmem

/-- A search finds the files below a directory that are not hidden and have one of the
extensions. -/
theorem mem_filesBelow_iff (hdistinct : tree.IsDistinct)
    {directory : Key} {extensions : List String} :
    names ∈ tree.filesBelow directory extensions ↔
      names ≠ [] ∧ (∃ bytes, tree.get? (directory ++ names) = some (.file bytes)) ∧
        (∀ name ∈ names, isHidden name = false) ∧
        ∃ name, names.getLast? = some name ∧ hasExtension extensions name = true := by
  have hkey : ∀ {names : Key}, names ≠ [] → directory ++ names ≠ [] := by
    intro names hne
    simp [hne]
  simp only [filesBelow, List.mem_mergeSort, List.mem_filterMap, Prod.exists,
    Option.filter_eq_some_iff, below?_eq_some_iff, Bool.and_eq_true, Bool.not_eq_true',
    List.any_eq_false, Bool.not_eq_true, Option.any_eq_true]
  constructor
  · rintro ⟨key, entry, hmem, ⟨rfl, hne⟩, ⟨hfile, hhidden⟩, hlast⟩
    cases entry with
    | file bytes =>
      have hget := lookup_of_mem hdistinct hmem
      rw [← get?_of_ne_nil tree (hkey hne)] at hget
      exact ⟨hne, ⟨bytes, hget⟩, hhidden, hlast⟩
    | directory => cases hfile
    | link target => cases hfile
  · rintro ⟨hne, ⟨bytes, hget⟩, hhidden, hlast⟩
    exact ⟨directory ++ names, .file bytes, mem_keys_of_get? (hkey hne) hget, ⟨rfl, hne⟩,
      ⟨rfl, hhidden⟩, hlast⟩

theorem nodup_filesBelow (hdistinct : tree.IsDistinct)
    (directory : Key) (extensions : List String) :
    (tree.filesBelow directory extensions).Nodup := by
  rw [filesBelow, (List.mergeSort_perm _ _).nodup_iff]
  apply (List.pairwise_map.mp hdistinct).filterMap
  rintro ⟨key, entry⟩ ⟨key', entry'⟩ hne names hnames names' hnames' rfl
  rw [Option.filter_eq_some_iff, below?_eq_some_iff] at hnames hnames'
  exact hne (hnames.1.1.trans hnames'.1.1.symm)

/-- What a search from a root finds, by the names that lead there from the directory that the root
leads to. -/
def found (tree : FileTree) (root : String) (top : Key) (extensions : List String) : List Key :=
  if isStandardInput root then [] else tree.filesBelow top extensions

theorem findFiles_eq
    (hroot : tree.resolve true root = .ok (.taken top .directory)) (extensions : List String) :
    tree.findFiles root extensions =
      .ok ((tree.found root top extensions).map (pathFrom root)) := by
  rw [findFiles, found]
  split
  · rfl
  · rw [hroot]

theorem mem_found_iff (hdistinct : tree.IsDistinct) {extensions : List String} :
    names ∈ tree.found root top extensions ↔
      isStandardInput root = false ∧ names ≠ [] ∧
        (∃ bytes, tree.get? (top ++ names) = some (.file bytes)) ∧
        (∀ name ∈ names, isHidden name = false) ∧
        ∃ name, names.getLast? = some name ∧ hasExtension extensions name = true := by
  rw [found]
  split
  · rename_i hinput
    simp [hinput]
  · rename_i hinput
    simp only [mem_filesBelow_iff hdistinct, Bool.not_eq_true] at hinput ⊢
    rw [and_iff_right hinput]

theorem nodup_found (hdistinct : tree.IsDistinct) (root : String) (top : Key)
    (extensions : List String) : (tree.found root top extensions).Nodup := by
  rw [found]
  split
  · exact List.nodup_nil
  · exact nodup_filesBelow hdistinct top extensions

end StyleMigration.FileTree
