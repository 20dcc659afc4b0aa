import StyleMigration.Proofs.Files.Search

/-!
The files that a search finds, each with the path it is found by and the key it has. The root may lead
to a directory or be a single file, which a link may stand for, and both cases are one from here on
(`IsSite`): the path leads to the key in every tree that keeps the ways, or cannot be looked up in
any of them, and a longer path beside it is lodged beside it. So a file is read the same wherever its
entry is the same (`IsSite.readBytes_eq`).
-/

set_option autoImplicit false

namespace StyleMigration.FileTree

variable {tree : FileTree} {root : String} {extensions : List String} {site : String × Key}

/-- The paths that a search finds, with the keys of the files. -/
def sites (tree : FileTree) (root : String) (extensions : List String) : List (String × Key) :=
  if isStandardInput root then []
  else
    match tree.resolve true root with
    | .ok (.taken top .directory) =>
      (tree.filesBelow top extensions).map fun names => (pathFrom root names, top ++ names)
    | .ok (.taken key _) => if hasExtension extensions root then [(root, key)] else []
    | _ => []

theorem findFiles_eq_ok {paths : List String}
    (hfound : tree.findFiles root extensions = .ok paths) :
    paths = (tree.sites root extensions).map (·.1) := by
  unfold findFiles at hfound
  unfold sites
  by_cases hinput : isStandardInput root = true
  · rw [if_pos hinput] at hfound ⊢
    cases hfound
    rfl
  · rw [if_neg hinput] at hfound ⊢
    rcases hresolve : tree.resolve true root with cause | ⟨key, _ | _ | _⟩ | key <;>
      rw [hresolve] at hfound <;> cases hfound
    · simp only
      split <;> rfl
    · simp only [List.map_map]
      rfl
    · simp only
      split <;> rfl

section Sites

variable {tree : FileTree} {root : String} {extensions : List String}

theorem sites_of_directory {top : Key} (hinput : isStandardInput root = false)
    (hroot : tree.resolve true root = .ok (.taken top .directory)) :
    tree.sites root extensions =
      (tree.filesBelow top extensions).map fun names => (pathFrom root names, top ++ names) := by
  simp only [sites, hinput, Bool.false_eq_true, if_false, hroot]

theorem sites_of_leadsTo {key : Key} (hinput : isStandardInput root = false)
    (hroot : tree.LeadsTo true root key) :
    tree.sites root extensions =
      if hasExtension extensions root ∧ (tree.get? key).isSome then [(root, key)] else [] := by
  simp only [sites, hinput, Bool.false_eq_true, if_false, hroot.resolves, placeAt]
  rcases way?_eq_none.mp hroot.noWay with hget | ⟨bytes, hget⟩ <;> simp [hget]

/-- What a search finds is below the directory that its root leads to, or is the file that its root
leads to. -/
theorem mem_sites_iff :
    site ∈ tree.sites root extensions ↔ isStandardInput root = false ∧
      ((∃ top names, tree.resolve true root = .ok (.taken top .directory) ∧
          names ∈ tree.filesBelow top extensions ∧ site = (pathFrom root names, top ++ names)) ∨
        ∃ key bytes, tree.LeadsTo true root key ∧ tree.get? key = some (.file bytes) ∧
          hasExtension extensions root = true ∧ site = (root, key)) := by
  by_cases hinput : isStandardInput root = true
  · simp [sites, hinput]
  rw [Bool.not_eq_true] at hinput
  constructor
  · intro hmem
    refine ⟨hinput, ?_⟩
    cases hresolve : tree.resolve true root with
    | error cause => simp [sites, hinput, hresolve] at hmem
    | ok place =>
      rcases resolve_ends hresolve with ⟨top, rfl⟩ | ⟨key, hleads, rfl⟩
      · rw [sites_of_directory hinput hresolve] at hmem
        obtain ⟨names, hnames, rfl⟩ := List.mem_map.mp hmem
        exact .inl ⟨top, names, rfl, hnames, rfl⟩
      · rw [sites_of_leadsTo hinput hleads] at hmem
        split at hmem
        · rename_i hcondition
          rcases way?_eq_none.mp hleads.noWay with hget | ⟨bytes, hget⟩
          · rw [hget] at hcondition
            cases hcondition.2
          · exact .inr ⟨key, bytes, hleads, hget, hcondition.1, List.mem_singleton.mp hmem⟩
        · cases hmem
  · rintro ⟨-, ⟨top, names, hroot, hnames, rfl⟩ | ⟨key, bytes, hroot, hget, hextension, rfl⟩⟩
    · rw [sites_of_directory hinput hroot]
      exact List.mem_map_of_mem hnames
    · rw [sites_of_leadsTo hinput hroot, if_pos ⟨hextension, by rw [hget]; rfl⟩]
      exact List.mem_singleton_self _

/-- A search finds each file once. -/
theorem nodup_sites (hdistinct : tree.IsDistinct) :
    ((tree.sites root extensions).map (·.2)).Nodup := by
  by_cases hinput : isStandardInput root = true
  · simp [sites, hinput]
  rw [Bool.not_eq_true] at hinput
  cases hresolve : tree.resolve true root with
  | error cause => simp [sites, hinput, hresolve]
  | ok place =>
    rcases resolve_ends hresolve with ⟨top, rfl⟩ | ⟨key, hleads, rfl⟩
    · rw [sites_of_directory hinput hresolve, List.map_map]
      exact List.Pairwise.map _ (fun _ _ hne hkey => hne (List.append_cancel_left hkey))
        (nodup_filesBelow hdistinct top extensions)
    · rw [sites_of_leadsTo hinput hleads]
      split <;> simp

/-- A search for one extension and a search for others have no file in common. -/
theorem sites_disjoint (hdistinct : tree.IsDistinct) {searched : String}
    (hsearched : searched ∉ extensions) {other : String × Key}
    (hsite : site ∈ tree.sites root [searched]) (hother : other ∈ tree.sites root extensions) :
    site.2 ≠ other.2 := by
  have hclash {name : String} (hfirst : hasExtension [searched] name = true)
      (hsecond : hasExtension extensions name = true) : False := by
    rw [hasExtension, Option.any_eq_true] at hfirst hsecond
    obtain ⟨extension, heq, hmem⟩ := hfirst
    obtain ⟨extension', heq', hmem'⟩ := hsecond
    obtain rfl : extension = extension' := Option.some.inj (heq.symm.trans heq')
    rw [List.contains_eq_mem, decide_eq_true_iff] at hmem hmem'
    exact hsearched (List.mem_singleton.mp hmem ▸ hmem')
  intro hkey
  obtain ⟨-, ⟨top, names, hroot, hnames, rfl⟩ | ⟨key, bytes, hroot, -, hextension, rfl⟩⟩ :=
    mem_sites_iff.mp hsite <;>
  obtain ⟨-, ⟨top', names', hroot', hnames', rfl⟩ | ⟨key', bytes', hroot', -, hextension', rfl⟩⟩ :=
    mem_sites_iff.mp hother
  · rw [hroot] at hroot'
    cases hroot'
    obtain rfl := List.append_cancel_left hkey
    obtain ⟨-, -, -, name, hlast, hextension⟩ := (mem_filesBelow_iff hdistinct).mp hnames
    obtain ⟨-, -, -, name', hlast', hextension'⟩ := (mem_filesBelow_iff hdistinct).mp hnames'
    obtain rfl : name = name' := Option.some.inj (hlast.symm.trans hlast')
    exact hclash hextension hextension'
  · rw [hroot'.resolves, Except.ok.injEq] at hroot
    exact placeAt_ne_directory hroot'.noWay hroot
  · rw [hroot.resolves, Except.ok.injEq] at hroot'
    exact placeAt_ne_directory hroot.noWay hroot'
  · exact hclash hextension hextension'

end Sites

/-- Where the ways are the same, a file that is kept is found again. -/
theorem mem_sites_of_way?_eq {base : FileTree} (hways : base.way? = tree.way?)
    (hbase : base.IsDistinct) (htree : tree.IsDistinct) (hsite : site ∈ base.sites root extensions)
    (hget : tree.get? site.2 = base.get? site.2) : site ∈ tree.sites root extensions := by
  rw [mem_sites_iff] at hsite ⊢
  refine ⟨hsite.1, ?_⟩
  obtain ⟨-, ⟨top, names, hroot, hnames, rfl⟩ | ⟨key, bytes, hroot, hfile, hextension, rfl⟩⟩ := hsite
  · refine .inl ⟨top, names, resolve_of_way?_eq hways hroot, ?_, rfl⟩
    rw [mem_filesBelow_iff hbase] at hnames
    rw [mem_filesBelow_iff htree]
    obtain ⟨hne, ⟨bytes, hfile⟩, hnames⟩ := hnames
    exact ⟨hne, ⟨bytes, hget.trans hfile⟩, hnames⟩
  · exact .inr ⟨key, bytes, hroot.of_way?_eq hways, hget.trans hfile, hextension, rfl⟩

/-- Where the ways are the same and a file at the root is kept, a search does not begin to fail. -/
theorem exists_findFiles {base : FileTree} (hways : base.way? = tree.way?)
    {paths : List String} (hfound : base.findFiles root extensions = .ok paths)
    (hkept : ∀ key, base.LeadsTo true root key → base.get? key ≠ none →
      tree.get? key = base.get? key) (others : List String) :
    ∃ paths, tree.findFiles root others = .ok paths := by
  unfold findFiles at hfound ⊢
  split at hfound
  · rename_i hinput
    exact ⟨[], if_pos hinput⟩
  · rename_i hinput
    rw [if_neg hinput]
    cases hresolve : base.resolve true root with
    | error cause =>
      rw [hresolve] at hfound
      cases hfound
    | ok place =>
      rcases resolve_ends hresolve with ⟨top, rfl⟩ | ⟨key, hleads, rfl⟩
      · rw [resolve_of_way?_eq hways hresolve]
        exact ⟨_, rfl⟩
      · have hleads' := hleads.of_way?_eq hways
        rw [hresolve] at hfound
        rw [hleads'.resolves, placeAt]
        rcases way?_eq_none.mp hleads.noWay with hget | ⟨bytes, hget⟩
        · rw [placeAt, hget] at hfound
          cases hfound
        · rw [hkept key hleads (by simp [hget]), hget]
          exact ⟨_, rfl⟩

/-- A walk that ends elsewhere than in a directory goes through a directory to its last name, and if it
finds an entry, there is one under that name. -/
theorem Walks.front {tree : FileTree} {links : Nat} {start found : Key} {names : List String}
    {place : Place} {entry : FileEntry} (hwalks : tree.Walks true links start names place)
    (hplace : place = .taken found entry) (hentry : entry ≠ .directory) :
    ∃ front name directory, names = front ++ [name] ∧ name ≠ ".." ∧
      tree.Walks true links start front (.taken directory .directory) ∧
      ∃ other, tree.get? (directory ++ [name]) = some other := by
  induction hwalks with
  | here =>
    cases hplace
    exact absurd rfl hentry
  | up _ ih =>
    obtain ⟨front, name, directory, rfl, hname, hfront, hget⟩ := ih hplace
    exact ⟨".." :: front, name, directory, rfl, hname, .up hfront, hget⟩
  | down hstep hget _ ih =>
    obtain ⟨front, name, directory, rfl, hname, hfront, hother⟩ := ih hplace
    exact ⟨_ :: front, name, directory, rfl, hname, .down hstep hget hfront, hother⟩
  | last hstep hway =>
    obtain ⟨rfl, hget⟩ := placeAt_eq_taken.mp hplace
    exact ⟨[], _, _, rfl, hstep.notUp, .here, _, hget⟩
  | link hstep hget hfollow => cases hfollow
  | @enter links start step target names place hstep hget hfollow hrelative _ ih =>
    obtain ⟨front, name, directory, hnames, hname, hfront, hother⟩ := ih hplace
    by_cases hempty : names = []
    · subst hempty
      exact ⟨[], step, start, rfl, hstep.notUp, .here, _, hget⟩
    · obtain ⟨back, last, rfl⟩ : ∃ back last, names = back ++ [last] :=
        ⟨_, _, (List.dropLast_concat_getLast hempty).symm⟩
      rw [← List.append_assoc] at hnames
      obtain ⟨rfl, hlast⟩ := List.append_inj' hnames rfl
      cases hlast
      exact ⟨step :: back, name, directory, rfl, hname,
        .enter hstep hget (fun _ => rfl) hrelative hfront, hother⟩

/-- What is added to a path that leads to a file names a place in the directory of the last name. -/
theorem IsSound.beside_file (hsound : tree.IsSound) {path : String} {key : Key}
    {bytes : ByteArray} (hleads : tree.LeadsTo true path key)
    (hget : tree.get? key = some (.file bytes)) :
    ∃ directory name, tree.get? directory = some .directory ∧ IsName name ∧
      ∀ more : String, '/' ∉ more.toList → IsName (name ++ more) →
        tree.IsLodged (path ++ more) (directory ++ [name ++ more]) := by
  have hplace := hleads.resolves
  rw [placeAt, hget, resolve_eq_ok_iff] at hplace
  obtain ⟨-, hwalks, hwants⟩ := hplace
  have hnot : wantsDirectory path = false := by
    rw [← Bool.not_eq_true]
    intro hwanted
    obtain ⟨found, hfound⟩ := hwants hwanted
    cases hfound
  rw [Bool.true_or] at hwalks
  obtain ⟨front, name, directory, hnames, hup, hfront, entry, hentry⟩ := hwalks.front rfl (by simp)
  have hmem := mem_keys_of_get? (by simp) hentry
  have hname : IsName name := hsound.named _ (List.mem_map_of_mem hmem) name (by simp)
  have hhoused := hsound.get?_dropLast hentry
  rw [List.dropLast_concat] at hhoused
  refine ⟨directory, name, hhoused, hname, fun more hslash hmore => ?_⟩
  obtain ⟨front', name', hnames', hadded, hwants'⟩ := pathNames_append hnot hslash
  rw [hnames] at hnames'
  obtain ⟨rfl, hlast⟩ := List.append_inj' hnames' rfl
  cases hlast
  obtain ⟨links, hlinks⟩ := hfront.append rfl
  refine isLodged_of_walk hwants' hmore.notUp (.inr ⟨links, ?_⟩)
  intro other hkeeps follow
  rw [hadded, hlinks other hkeeps follow _ (List.cons_ne_nil _ _)]

/-- A file with the path it is found by. Its path leads to it or cannot be looked up, and what is added
to the path names a place in a directory. -/
structure IsSite (tree : FileTree) (site : String × Key) : Prop where
  file : ∃ bytes, tree.get? site.2 = some (.file bytes)
  reached : (∃ cause, ∀ other, tree.KeepsWays other → other.resolve true site.1 = .error cause) ∨
    tree.LeadsTo true site.1 site.2
  beside : ∃ directory name, tree.get? directory = some .directory ∧ IsName name ∧
    ∀ more : String, '/' ∉ more.toList → IsName (name ++ more) →
      tree.IsLodged (site.1 ++ more) (directory ++ [name ++ more])

theorem IsSound.isSite (hsound : tree.IsSound) (hsite : site ∈ tree.sites root extensions) :
    tree.IsSite site := by
  obtain ⟨-, ⟨top, names, hroot, hnames, rfl⟩ | ⟨key, bytes, hroot, hget, -, rfl⟩⟩ :=
    mem_sites_iff.mp hsite
  · obtain ⟨hne, ⟨bytes, hget⟩, -, -⟩ := (mem_filesBelow_iff hsound.distinct).mp hnames
    obtain ⟨-, hnamed, hhoused, hway⟩ := hsound.spot hne hget
    obtain ⟨front, name, rfl⟩ : ∃ front name, names = front ++ [name] :=
      ⟨_, _, (List.dropLast_concat_getLast hne).symm⟩
    rw [← List.append_assoc, List.dropLast_concat] at hhoused
    have hfront : ∀ other ∈ front, IsName other :=
      fun other hmem => hnamed other (List.mem_append_left _ hmem)
    have hname : IsName name := hnamed name (by simp)
    refine ⟨⟨bytes, hget⟩, ?_, top ++ front, name, hhoused, hname, fun more _ hmore => ?_⟩
    · refine (hsound.isLodged_pathFrom hroot hfront hname hhoused).imp ?_ ?_
      · rintro ⟨cause, hcause⟩
        exact ⟨cause, fun other hkeeps => hcause other hkeeps true⟩
      · intro hleads
        exact ⟨hway, hleads tree (keepsWays_of_way?_eq rfl) true fun _ => hway⟩
    · rw [pathFrom_append, List.append_assoc]
      exact hsound.isLodged_pathFrom hroot hfront hmore hhoused
  · exact ⟨⟨bytes, hget⟩, .inr hroot, hsound.beside_file hroot hget⟩

namespace IsSite

variable {base tree : FileTree} {site : String × Key}

theorem noWay (hsite : base.IsSite site) : base.way? site.2 = none :=
  way?_eq_none.mpr (.inr hsite.file)

/-- The path of a site that can be looked up leads to its key as long as no way goes on there. -/
theorem leadsTo (hsite : base.IsSite site) (hkeeps : base.KeepsWays tree)
    (hway : tree.way? site.2 = none) {place : Place}
    (hresolve : tree.resolve true site.1 = .ok place) : tree.LeadsTo true site.1 site.2 := by
  rcases hsite.reached with ⟨cause, hcause⟩ | hleads
  · rw [hcause tree hkeeps] at hresolve
    cases hresolve
  · exact hleads.of_keepsWays hkeeps hway

/-- A file is read the same in two trees where its entry is the same. -/
theorem readBytes_eq (hsite : base.IsSite site) {other : FileTree} (hkeeps : base.KeepsWays tree)
    (hother : base.KeepsWays other) (hget : tree.get? site.2 = other.get? site.2)
    (hway : other.way? site.2 = none) : tree.readBytes site.1 = other.readBytes site.1 := by
  have hresolve : tree.resolve true site.1 = other.resolve true site.1 := by
    rcases hsite.reached with ⟨cause, hcause⟩ | hleads
    · rw [hcause tree hkeeps, hcause other hother]
    · have hway' : tree.way? site.2 = none := by rw [way?, hget, ← way?, hway]
      rw [(hleads.of_keepsWays hkeeps hway').resolves, (hleads.of_keepsWays hother hway).resolves,
        placeAt, placeAt, hget]
  rw [readBytes, readBytes, hresolve]

/-- A file whose entry is kept is read as before. -/
theorem readText_eq (hsite : base.IsSite site) (hkeeps : base.KeepsWays tree)
    (hget : tree.get? site.2 = base.get? site.2) : tree.readText site.1 = base.readText site.1 := by
  rw [readText, readText,
    hsite.readBytes_eq hkeeps (keepsWays_of_way?_eq rfl) hget hsite.noWay]

end IsSite

end StyleMigration.FileTree
