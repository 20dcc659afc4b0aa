import StyleMigration.Proofs.Files.Change

/-!
Where a path leads whatever becomes of the files. Only directories and links show the way, so a path
leads to the same key in every tree that still has those of a first one (`KeepsWays`), even if files
have given way to directories and links there. Such a path is said to be lodged at the key
(`IsLodged`): it leads there in all these trees, or cannot be looked up in any of them, for one and
the same cause.
-/

set_option autoImplicit false

namespace StyleMigration.FileTree

variable {key : Key} {follow : Bool} {path : String}

/-- The directories and links of the first tree are in the second one too. -/
def KeepsWays (base tree : FileTree) : Prop :=
  ∀ key entry, base.way? key = some entry → tree.get? key = some entry

section KeepsWays

variable {base tree : FileTree}

theorem keepsWays_of_way?_eq (hways : base.way? = tree.way?) : base.KeepsWays tree := by
  intro key entry hway
  rw [hways] at hway
  exact (way?_eq_some.mp hway).1

theorem keepsWays_congr {other : FileTree} (hways : base.way? = other.way?) :
    base.KeepsWays tree ↔ other.KeepsWays tree := by
  rw [KeepsWays, KeepsWays, hways]

theorem KeepsWays.get?_eq (hkeeps : base.KeepsWays tree) {entry : FileEntry}
    (hget : base.get? key = some entry) (hentry : isFile entry = false) :
    tree.get? key = some entry :=
  hkeeps key entry (way?_eq_some.mpr ⟨hget, hentry⟩)

theorem KeepsWays.of_way?_eq {other : FileTree} (hkeeps : base.KeepsWays tree)
    (hways : tree.way? = other.way?) : base.KeepsWays other := by
  intro key entry hway
  exact get?_of_way?_eq hways (hkeeps key entry hway) (way?_eq_some.mp hway).2

/-- Changes where no way was keep the ways. -/
theorem KeepsWays.of_kept {next : FileTree} (hkeeps : base.KeepsWays tree)
    (hkept : ∀ key, next.get? key ≠ tree.get? key → base.way? key = none) :
    base.KeepsWays next := by
  intro key entry hway
  by_cases hsame : next.get? key = tree.get? key
  · rw [hsame]
    exact hkeeps key entry hway
  · rw [hkept key hsame] at hway
    cases hway

theorem placeAt_inj {other : Key} (hplace : tree.placeAt key = tree.placeAt other) :
    key = other := by
  unfold placeAt at hplace
  grind

theorem placeAt_ne_directory {found : Key} (hway : tree.way? key = none) :
    tree.placeAt key ≠ .taken found .directory := by
  intro hplace
  obtain ⟨-, hget⟩ := placeAt_eq_taken.mp hplace
  rw [way?, hget] at hway
  cases hway

/-- A walk that ends where no way goes on takes the same way in a tree that keeps the ways. -/
theorem Walks.of_keepsWays (hkeeps : base.KeepsWays tree) {links : Nat}
    {start : Key} {names : List String} {place : Place}
    (hwalks : base.Walks follow links start names place) (hplace : place = base.placeAt key)
    (hbase : base.way? key = none) (htree : tree.way? key = none) :
    tree.Walks follow links start names (tree.placeAt key) := by
  induction hwalks with
  | here => exact absurd hplace.symm (placeAt_ne_directory hbase)
  | up _ ih => exact .up (ih hplace)
  | down hname hget _ ih => exact .down hname (hkeeps.get?_eq hget rfl) (ih hplace)
  | last hname hway =>
    obtain rfl := placeAt_inj hplace
    exact .last hname htree
  | link hname hget hfollow =>
    obtain ⟨rfl, hlink⟩ := placeAt_eq_taken.mp hplace.symm
    rw [way?, hlink] at hbase
    cases hbase
  | enter hname hget hfollow hrelative _ ih =>
    exact .enter hname (hkeeps.get?_eq hget rfl) hfollow hrelative (ih hplace)

theorem LeadsTo.of_keepsWays (hkeeps : base.KeepsWays tree)
    (hleads : base.LeadsTo follow path key) (htree : tree.way? key = none) :
    tree.LeadsTo follow path key := by
  refine ⟨htree, ?_⟩
  have hresolve := hleads.resolves
  rw [resolve_eq_ok_iff] at hresolve ⊢
  obtain ⟨hpath, hwalks, hdirectory⟩ := hresolve
  refine ⟨hpath, hwalks.of_keepsWays hkeeps rfl hleads.noWay htree, fun hwants => ?_⟩
  obtain ⟨found, hfound⟩ := hdirectory hwants
  exact absurd hfound (placeAt_ne_directory hleads.noWay)

theorem LeadsTo.key_eq {other : Key}
    (hleads : tree.LeadsTo follow path key) (hother : tree.LeadsTo follow path other) :
    key = other := by
  have hplace := hleads.resolves
  rw [hother.resolves, Except.ok.injEq] at hplace
  exact (placeAt_inj hplace).symm

/-- A walk to a directory takes the same way in all trees that keep the ways, and goes on from
there. -/
theorem Walks.append {links : Nat} {start found : Key} {front : List String} {place : Place}
    (hwalks : base.Walks true links start front place) (hplace : place = .taken found .directory) :
    ∃ left, ∀ tree, base.KeepsWays tree → ∀ follow back, back ≠ [] →
      tree.walk follow links start (front ++ back) = tree.walk follow left found back := by
  induction hwalks with
  | here =>
    cases hplace
    exact ⟨_, fun _ _ _ _ _ => rfl⟩
  | up _ ih =>
    obtain ⟨left, hleft⟩ := ih hplace
    refine ⟨left, fun tree hkeeps follow back hback => ?_⟩
    rw [List.cons_append, walk_cons, if_pos rfl, hleft tree hkeeps follow back hback]
  | down hname hget _ ih =>
    obtain ⟨left, hleft⟩ := ih hplace
    refine ⟨left, fun tree hkeeps follow back hback => ?_⟩
    rw [List.cons_append, walk_cons, if_neg hname.notUp, if_neg (Nat.not_lt.mpr hname.short),
      hkeeps.get?_eq hget rfl]
    exact hleft tree hkeeps follow back hback
  | last hname hway => exact absurd hplace (placeAt_ne_directory hway)
  | link hname hget hfollow => cases hfollow
  | enter hname hget hfollow hrelative _ ih =>
    obtain ⟨left, hleft⟩ := ih hplace
    refine ⟨left, fun tree hkeeps follow back hback => ?_⟩
    rw [← hleft tree hkeeps follow back hback, List.cons_append, walk_cons, if_neg hname.notUp,
      if_neg (Nat.not_lt.mpr hname.short)]
    simp [hkeeps.get?_eq hget rfl, hback, hrelative]

end KeepsWays

/-- A name leads to its key, if a link there is not to be followed. -/
theorem walk_name {name : String} (hname : IsStep name) {tree : FileTree}
    (hway : follow = true → tree.way? (key ++ [name]) = none) (links : Nat) :
    tree.walk follow links key [name] = .ok (tree.placeAt (key ++ [name])) := by
  rw [walk_cons, if_neg hname.notUp, if_neg (Nat.not_lt.mpr hname.short), placeAt]
  rcases hget : tree.get? (key ++ [name]) with _ | _ | _ | target
  · rfl
  · rfl
  · exact walk_nil ..
  · cases follow with
    | false => rfl
    | true =>
      rw [way?, hget] at hway
      cases hway rfl

/-- A path that does not end like a directory is looked up by a walk alone, or not at all. -/
theorem resolve_eq_walk (hwants : wantsDirectory path = false) :
    (∃ cause, ∀ (tree : FileTree) follow, tree.resolve follow path = .error cause) ∨
      ∀ (tree : FileTree) follow, tree.resolve follow path =
        tree.walk follow maxLinks [] (pathNames path) := by
  by_cases hnul : path.toList.contains '\x00' = true
  · exact .inl ⟨_, fun _ _ => by rw [resolve, if_pos hnul]⟩
  by_cases hempty : path = ""
  · exact .inl ⟨_, fun _ _ => by rw [resolve, if_neg hnul, if_pos hempty]⟩
  by_cases hlong : maxPathLength < path.utf8ByteSize
  · exact .inl ⟨_, fun _ _ => by rw [resolve, if_neg hnul, if_neg hempty, if_pos hlong]⟩
  by_cases habsolute : isAbsolute path = true
  · refine .inl ⟨.notFound, fun _ _ => ?_⟩
    rw [resolve, if_neg hnul, if_neg hempty, if_neg hlong, if_pos habsolute]
  · refine .inr fun tree follow => ?_
    rw [resolve, if_neg hnul, if_neg hempty, if_neg hlong, if_neg habsolute, hwants, Bool.or_false]
    cases tree.walk follow maxLinks [] (pathNames path) with
    | error cause => rfl
    | ok place => rcases place with ⟨key, _ | _ | _⟩ | key <;> rfl

/-- In the trees that keep the ways a path leads to one key, whatever is there, or it cannot be looked
up in any of them. -/
def IsLodged (base : FileTree) (path : String) (key : Key) : Prop :=
  (∃ cause, ∀ tree, base.KeepsWays tree → ∀ follow, tree.resolve follow path = .error cause) ∨
    ∀ tree, base.KeepsWays tree → ∀ follow, (follow = true → tree.way? key = none) →
      tree.resolve follow path = .ok (tree.placeAt key)

theorem isLodged_of_walk {base : FileTree} {directory : Key} {name : String}
    (hwants : wantsDirectory path = false) (hname : name ≠ "..")
    (hwalk : (∃ cause, ∀ tree, base.KeepsWays tree → ∀ follow,
        tree.walk follow maxLinks [] (pathNames path) = .error cause) ∨
      ∃ links, ∀ tree, base.KeepsWays tree → ∀ follow,
        tree.walk follow maxLinks [] (pathNames path) = tree.walk follow links directory [name]) :
    base.IsLodged path (directory ++ [name]) := by
  rcases resolve_eq_walk hwants with ⟨cause, hcause⟩ | hresolve
  · exact .inl ⟨cause, fun tree _ follow => hcause tree follow⟩
  rcases hwalk with ⟨cause, hcause⟩ | ⟨links, hlinks⟩
  · exact .inl ⟨cause, fun tree hkeeps follow => by rw [hresolve, hcause tree hkeeps follow]⟩
  by_cases hlong : maxNameLength < name.utf8ByteSize
  · refine .inl ⟨.nameTooLong, fun tree hkeeps follow => ?_⟩
    rw [hresolve, hlinks tree hkeeps follow, walk_cons, if_neg hname, if_pos hlong]
  · refine .inr fun tree hkeeps follow hway => ?_
    rw [hresolve, hlinks tree hkeeps follow, walk_name ⟨hname, Nat.not_lt.mp hlong⟩ hway]

section IsLodged

variable {base tree : FileTree} {path : String} {key : Key}

/-- A lodged path that can be looked up in one tree can be in all. -/
theorem IsLodged.resolve_eq (hlodged : base.IsLodged path key) (hkeeps : base.KeepsWays tree)
    {place : Place} (hresolve : tree.resolve follow path = .ok place)
    (other : FileTree) (hother : base.KeepsWays other) (follow' : Bool)
    (hway : follow' = true → other.way? key = none) :
    other.resolve follow' path = .ok (other.placeAt key) := by
  rcases hlodged with ⟨cause, hcause⟩ | hleads
  · rw [hcause tree hkeeps follow] at hresolve
    cases hresolve
  · exact hleads other hother follow' hway

/-- A lodged path that can be looked up leads to its key. -/
theorem IsLodged.leadsTo (hlodged : base.IsLodged path key) (hkeeps : base.KeepsWays tree)
    (hway : tree.way? key = none) {place : Place}
    (hresolve : tree.resolve follow path = .ok place) (follow' : Bool) :
    tree.LeadsTo follow' path key :=
  ⟨hway, hlodged.resolve_eq hkeeps hresolve tree hkeeps follow' fun _ => hway⟩

/-- What a lodged path is found to be without following a last link stands at its key. -/
theorem IsLodged.key_eq (hlodged : base.IsLodged path key) (hkeeps : base.KeepsWays tree)
    {found : Key} {entry : FileEntry} (hresolve : tree.resolve false path = .ok (.taken found entry)) :
    found = key := by
  have hplace := hlodged.resolve_eq hkeeps hresolve tree hkeeps false nofun
  rw [hresolve, Except.ok.injEq] at hplace
  exact (placeAt_eq_taken.mp hplace.symm).1

end IsLodged

end StyleMigration.FileTree
