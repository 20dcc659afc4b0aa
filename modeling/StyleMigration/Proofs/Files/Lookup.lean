import StyleMigration.Files.Discovery

/-!
Looking up paths in a tree of files. `Walks` says which way a look-up takes from name to name, and
`walk_eq_ok_iff` that `walk` takes this way. A look-up reads entries by their keys alone, so what it
finds is a matter of `get?`: in a tree with fewer entries it finds no more than before
(`resolve_taken_of_erase`), and where directories and links are the same it comes to the same place
(`resolve_of_way?_eq`). Without following a last link it comes at least as far as with following it
(`resolve_taken_of_follow`).
-/

set_option autoImplicit false

namespace StyleMigration.FileTree

variable {tree other : FileTree} {key found : Key} {follow : Bool} {path : String} {place : Place}
  {entry : FileEntry} {links : Nat} {names : List String}

@[simp] theorem get?_nil (tree : FileTree) : tree.get? [] = some .directory :=
  if_pos rfl

theorem get?_of_ne_nil (tree : FileTree) (hkey : key ≠ []) :
    tree.get? key = tree.entries.lookup key :=
  if_neg hkey

/-- Where entries are left out by their keys, the others are found as before. -/
theorem lookup_filter (entries : List (Key × FileEntry)) (keeps : Key → Bool) (key : Key) :
    (entries.filter fun entry => keeps entry.1).lookup key =
      if keeps key then entries.lookup key else none := by
  induction entries with
  | nil => simp
  | cons first entries ih =>
    obtain ⟨firstKey, entry⟩ := first
    by_cases hkey : key = firstKey
    · subst hkey
      by_cases hkeeps : keeps key = true
      · simp [hkeeps]
      · simpa [hkeeps] using ih
    · by_cases hkeeps : keeps firstKey = true
      · simp [List.lookup_cons, hkeeps, beq_eq_false_iff_ne.mpr hkey, ih]
      · simp [List.lookup_cons, hkeeps, beq_eq_false_iff_ne.mpr hkey, ih]

theorem get?_erase (tree : FileTree) (key other : Key) :
    (tree.erase key).get? other = if other = key ∧ other ≠ [] then none else tree.get? other := by
  by_cases hother : other = []
  · simp [hother]
  · rw [get?_of_ne_nil _ hother, erase, lookup_filter tree.entries (· != key),
      get?_of_ne_nil _ hother]
    by_cases hkey : other = key
    · subst hkey
      simp [hother]
    · simp [hkey]

theorem get?_set (tree : FileTree) (key other : Key) (entry : FileEntry) :
    (tree.set key entry).get? other =
      if other = key ∧ other ≠ [] then some entry else tree.get? other := by
  by_cases hother : other = []
  · simp [hother]
  · by_cases hkey : other = key
    · subst hkey
      simp [get?_of_ne_nil _ hother, set, hother]
    · simp [get?_of_ne_nil _ hother, set, erase, List.lookup_cons, beq_eq_false_iff_ne.mpr hkey,
        lookup_filter tree.entries (· != key), hkey]

/-- What a key means for walks that go on from it: a directory or a link, but no file. -/
def way? (tree : FileTree) (key : Key) : Option FileEntry :=
  (tree.get? key).filter fun entry => !isFile entry

/-- The place a key stands for. -/
def placeAt (tree : FileTree) (key : Key) : Place :=
  match tree.get? key with
  | some entry => .taken key entry
  | none => .free key

theorem way?_eq_some :
    tree.way? key = some entry ↔ tree.get? key = some entry ∧ isFile entry = false := by
  rw [way?, Option.filter_eq_some_iff, Bool.not_eq_true']

theorem way?_eq_none :
    tree.way? key = none ↔ tree.get? key = none ∨ ∃ bytes, tree.get? key = some (.file bytes) := by
  rw [way?, Option.filter_eq_none_iff]
  rcases tree.get? key with _ | _ | _ | _ <;> simp [isFile]

/-- A name that is looked up as such. -/
structure IsStep (name : String) : Prop where
  notUp : name ≠ ".."
  short : name.utf8ByteSize ≤ maxNameLength

/-- Names lead from a directory to a place. The last of them leads to its key, whether there is a file
or nothing yet, and a link leads on from the directory it is in. -/
inductive Walks (tree : FileTree) (follow : Bool) : Nat → Key → List String → Place → Prop
  | here {links : Nat} {key : Key} : Walks tree follow links key [] (.taken key .directory)
  | up {links : Nat} {key : Key} {names : List String} {place : Place}
      (hrest : Walks tree follow links key.dropLast names place) :
      Walks tree follow links key (".." :: names) place
  | down {links : Nat} {key : Key} {name : String} {names : List String} {place : Place}
      (hname : IsStep name) (hget : tree.get? (key ++ [name]) = some .directory)
      (hrest : Walks tree follow links (key ++ [name]) names place) :
      Walks tree follow links key (name :: names) place
  | last {links : Nat} {key : Key} {name : String}
      (hname : IsStep name) (hway : tree.way? (key ++ [name]) = none) :
      Walks tree follow links key [name] (tree.placeAt (key ++ [name]))
  | link {links : Nat} {key : Key} {name target : String}
      (hname : IsStep name) (hget : tree.get? (key ++ [name]) = some (.link target))
      (hfollow : follow = false) :
      Walks tree follow links key [name] (.taken (key ++ [name]) (.link target))
  | enter {links : Nat} {key : Key} {name target : String} {names : List String} {place : Place}
      (hname : IsStep name) (hget : tree.get? (key ++ [name]) = some (.link target))
      (hfollow : names = [] → follow = true) (hrelative : isAbsolute target = false)
      (hrest : Walks tree follow links key (pathNames target ++ names) place) :
      Walks tree follow (links + 1) key (name :: names) place

theorem walks_of_walk
        (hwalk : tree.walk follow links key names = .ok place) :
    tree.Walks follow links key names place := by
  -- A link takes one from the links and adds names, all else takes a name.
  induction links using Nat.strongRecOn generalizing key names with
  | ind links ihLinks =>
    induction names generalizing key with
    | nil =>
      rw [walk_nil] at hwalk
      cases hwalk
      exact .here
    | cons name names ih =>
      rw [walk_cons] at hwalk
      split at hwalk
      · rename_i hup
        exact hup ▸ .up (ih hwalk)
      · rename_i hup
        split at hwalk
        · cases hwalk
        · rename_i hlong
          have hname : IsStep name := ⟨hup, Nat.not_lt.mp hlong⟩
          cases hget : tree.get? (key ++ [name]) with
          | none =>
            simp only [hget] at hwalk
            split at hwalk <;> cases hwalk
            rename_i hlast
            have hplace : tree.placeAt (key ++ [name]) = .free (key ++ [name]) := by
              rw [placeAt, hget]
            rw [List.isEmpty_iff.mp hlast, ← hplace]
            exact .last hname (way?_eq_none.mpr (.inl hget))
          | some entry =>
            cases entry with
            | directory => exact .down hname hget (ih (by simpa only [hget] using hwalk))
            | file bytes =>
              simp only [hget] at hwalk
              split at hwalk <;> cases hwalk
              rename_i hlast
              have hplace : tree.placeAt (key ++ [name]) = .taken (key ++ [name]) (.file bytes) := by
                rw [placeAt, hget]
              rw [List.isEmpty_iff.mp hlast, ← hplace]
              exact .last hname (way?_eq_none.mpr (.inr ⟨bytes, hget⟩))
            | link target =>
              simp only [hget] at hwalk
              split at hwalk
              · rename_i hlast
                cases hwalk
                simp only [Bool.and_eq_true, List.isEmpty_iff, Bool.not_eq_true'] at hlast
                rw [hlast.1]
                exact .link hname hget hlast.2
              · rename_i hlast
                cases links with
                | zero => cases hwalk
                | succ links =>
                  simp only at hwalk
                  split at hwalk
                  · cases hwalk
                  · rename_i hrelative
                    exact .enter hname hget (by simpa using hlast)
                      (Bool.eq_false_iff.mpr hrelative)
                      (ihLinks links (Nat.lt_succ_self links) hwalk)

theorem Walks.walk_eq (hwalks : tree.Walks follow links key names place) :
    tree.walk follow links key names = .ok place := by
  induction hwalks with
  | here => exact walk_nil ..
  | up hrest ih => rw [walk_cons, if_pos rfl, ih]
  | down hname hget hrest ih =>
    rw [walk_cons, if_neg hname.notUp, if_neg (Nat.not_lt.mpr hname.short), hget]
    exact ih
  | last hname hway =>
    rw [walk_cons, if_neg hname.notUp, if_neg (Nat.not_lt.mpr hname.short)]
    rcases way?_eq_none.mp hway with hget | ⟨bytes, hget⟩ <;> simp [placeAt, hget]
  | link hname hget hfollow =>
    rw [walk_cons, if_neg hname.notUp, if_neg (Nat.not_lt.mpr hname.short)]
    simp [hget, hfollow]
  | @enter links key name target names place hname hget hfollow hrelative hrest ih =>
    rw [walk_cons, if_neg hname.notUp, if_neg (Nat.not_lt.mpr hname.short)]
    have hnot : ¬ (names.isEmpty && !follow) = true := by simpa using hfollow
    simpa only [hget, if_neg hnot, hrelative, Bool.false_eq_true, if_false] using ih

theorem walk_eq_ok_iff :
    tree.walk follow links key names = .ok place ↔ tree.Walks follow links key names place :=
  ⟨walks_of_walk, Walks.walk_eq⟩

theorem placeAt_eq_taken :
    tree.placeAt key = .taken found entry ↔ found = key ∧ tree.get? key = some entry := by
  unfold placeAt
  cases tree.get? key <;> grind

/-- A walk that ends at a file or a link ends at what the tree has there. -/
theorem Walks.get?_eq
        (hwalks : tree.Walks follow links key names place) (hplace : place = .taken found entry)
    (hentry : entry ≠ .directory) : tree.get? found = some entry := by
  induction hwalks with
  | here =>
    cases hplace
    contradiction
  | up _ ih | down _ _ _ ih | enter _ _ _ _ _ ih => exact ih hplace
  | last hname hway =>
    obtain ⟨rfl, hget⟩ := placeAt_eq_taken.mp hplace
    exact hget
  | link hname hget hfollow =>
    cases hplace
    exact hget

/-- What a walk finds after an entry was removed it found before. -/
theorem Walks.of_erase {removed : Key}
        (hwalks : (tree.erase removed).Walks follow links key names place)
    (hplace : place = .taken found entry) : tree.Walks follow links key names place := by
  have hkept {key : Key} {entry : FileEntry} (hget : (tree.erase removed).get? key = some entry) :
      tree.get? key = some entry := by
    grind [get?_erase]
  induction hwalks with
  | here => exact .here
  | up _ ih => exact .up (ih hplace)
  | down hname hget _ ih => exact .down hname (hkept hget) (ih hplace)
  | last hname hway =>
    obtain ⟨rfl, hget⟩ := placeAt_eq_taken.mp hplace
    obtain ⟨bytes, hfile⟩ := (way?_eq_none.mp hway).resolve_left (by simp [hget])
    rw [hplace, ← placeAt_eq_taken.mpr ⟨rfl, hkept hget⟩]
    exact .last hname (way?_eq_none.mpr (.inr ⟨bytes, hkept hfile⟩))
  | link hname hget hfollow => exact .link hname (hkept hget) hfollow
  | enter hname hget hfollow hrelative _ ih =>
    exact .enter hname (hkept hget) hfollow hrelative (ih hplace)

/-- Without following a last link a walk comes to the same place, or to that link. -/
theorem Walks.unfollowed {tree : FileTree} {links : Nat} {key : Key} {names : List String}
    {place : Place} (hwalks : tree.Walks true links key names place) :
    tree.Walks false links key names place ∨
      ∃ found target, tree.Walks false links key names (.taken found (.link target)) := by
  induction hwalks with
  | here => exact .inl .here
  | up _ ih =>
    rcases ih with hrest | ⟨found, target, hrest⟩
    · exact .inl (.up hrest)
    · exact .inr ⟨found, target, .up hrest⟩
  | down hname hget _ ih =>
    rcases ih with hrest | ⟨found, target, hrest⟩
    · exact .inl (.down hname hget hrest)
    · exact .inr ⟨found, target, .down hname hget hrest⟩
  | last hname hway => exact .inl (.last hname hway)
  | link hname hget hfollow => cases hfollow
  | @enter links key name target names place hname hget hfollow hrelative _ ih =>
    by_cases hnames : names = []
    · subst hnames
      exact .inr ⟨_, _, .link hname hget rfl⟩
    · have henter {place : Place} (hrest : tree.Walks false links key (pathNames target ++ names) place) :
          tree.Walks false (links + 1) key (name :: names) place :=
        .enter hname hget (fun hnil => absurd hnil hnames) hrelative hrest
      rcases ih with hrest | ⟨found, target, hrest⟩
      · exact .inl (henter hrest)
      · exact .inr ⟨found, target, henter hrest⟩

/-- A text that can be looked up at all. -/
structure IsPathText (path : String) : Prop where
  noNul : path.toList.contains '\x00' = false
  nonempty : path ≠ ""
  short : path.utf8ByteSize ≤ maxPathLength
  relative : isAbsolute path = false

/-- A path is looked up by a walk from the top, and must lead to a directory if it ends like one. -/
theorem resolve_eq_ok_iff :
    tree.resolve follow path = .ok place ↔
      IsPathText path ∧
        tree.Walks (follow || wantsDirectory path) maxLinks [] (pathNames path) place ∧
          (wantsDirectory path = true → ∃ key, place = .taken key .directory) := by
  by_cases hpath : IsPathText path
  · rw [resolve, if_neg (by simp only [hpath.noNul, Bool.false_eq_true, not_false_eq_true]),
      if_neg hpath.nonempty, if_neg (Nat.not_lt.mpr hpath.short),
      if_neg (by simp only [hpath.relative, Bool.false_eq_true, not_false_eq_true])]
    simp only [hpath, true_and, ← walk_eq_ok_iff]
    cases hwalk : tree.walk (follow || wantsDirectory path) maxLinks [] (pathNames path) with
    | error cause => simp [bind, Except.bind]
    | ok found =>
      rcases found with ⟨key, _ | _ | _⟩ | key <;> cases hwants : wantsDirectory path <;>
        simp [bind, Except.bind, pure, Except.pure, throw, throwThe, MonadExceptOf.throw] <;>
        rintro rfl <;> simp
  · simp only [hpath, false_and, iff_false]
    intro hresolve
    apply hpath
    unfold resolve at hresolve
    split at hresolve
    · cases hresolve
    · split at hresolve
      · cases hresolve
      · split at hresolve
        · cases hresolve
        · split at hresolve
          · cases hresolve
          · constructor <;> grind

theorem get?_of_resolve_eq_taken (hresolve : tree.resolve follow path = .ok (.taken found entry))
    (hentry : entry ≠ .directory) : tree.get? found = some entry := by
  obtain ⟨-, hwalks, -⟩ := resolve_eq_ok_iff.mp hresolve
  exact hwalks.get?_eq rfl hentry

theorem resolve_taken_of_erase {removed : Key}
    (hresolve : (tree.erase removed).resolve follow path = .ok (.taken found entry)) :
    tree.resolve follow path = .ok (.taken found entry) := by
  rw [resolve_eq_ok_iff] at hresolve ⊢
  obtain ⟨hpath, hwalks, hdirectory⟩ := hresolve
  exact ⟨hpath, hwalks.of_erase rfl, hdirectory⟩

theorem resolve_unfollowed (hresolve : tree.resolve true path = .ok place) :
    tree.resolve false path = .ok place ∨
      ∃ found target, tree.resolve false path = .ok (.taken found (.link target)) := by
  simp only [resolve_eq_ok_iff, Bool.true_or, Bool.false_or] at hresolve ⊢
  obtain ⟨hpath, hwalks, hdirectory⟩ := hresolve
  simp only [hpath, true_and]
  cases hwants : wantsDirectory path with
  | true => exact .inl ⟨hwalks, fun _ => hdirectory hwants⟩
  | false => simpa using hwalks.unfollowed

theorem resolve_taken_of_follow (hresolve : tree.resolve follow path = .ok (.taken found entry)) :
    ∃ found entry, tree.resolve false path = .ok (.taken found entry) := by
  cases follow with
  | false => exact ⟨found, entry, hresolve⟩
  | true =>
    rcases resolve_unfollowed hresolve with hsame | ⟨found, target, hlink⟩
    · exact ⟨found, entry, hsame⟩
    · exact ⟨found, _, hlink⟩

/-- A path that leads to no entry, whether or not a last link is followed. -/
def IsMissing (tree : FileTree) (path : String) : Prop :=
  ∀ follow found entry, tree.resolve follow path ≠ .ok (.taken found entry)

theorem isMissing_of_resolve_ne
    (hresolve : ∀ found entry, tree.resolve false path ≠ .ok (.taken found entry)) :
    tree.IsMissing path := by
  intro follow found entry htaken
  obtain ⟨found, entry, htaken⟩ := resolve_taken_of_follow htaken
  exact hresolve found entry htaken

theorem IsMissing.erase (hmissing : tree.IsMissing path)
    (key : Key) : (tree.erase key).IsMissing path :=
  fun follow found entry htaken => hmissing follow found entry (resolve_taken_of_erase htaken)

theorem removeFile_eq_ok {after : FileTree} (hremove : tree.removeFile path = .ok after) :
    ∃ key entry, tree.resolve false path = .ok (.taken key entry) ∧ entry ≠ .directory ∧
      after = tree.erase key := by
  unfold removeFile at hremove
  cases hresolve : tree.resolve false path with
  | error cause =>
    rw [hresolve] at hremove
    cases hremove
  | ok place =>
    rw [hresolve] at hremove
    rcases place with ⟨key, _ | _ | _⟩ | key <;> cases hremove <;>
      exact ⟨key, _, rfl, by simp, rfl⟩

/-- A file that was removed is missing. -/
theorem isMissing_of_removeFile {after : FileTree}
    (hremove : tree.removeFile path = .ok after) : after.IsMissing path := by
  obtain ⟨key, entry, hresolve, hentry, rfl⟩ := removeFile_eq_ok hremove
  apply isMissing_of_resolve_ne
  intro found other htaken
  have hbefore := resolve_taken_of_erase htaken
  rw [hresolve] at hbefore
  cases hbefore
  have hget := get?_of_resolve_eq_taken htaken hentry
  have hkey : key ≠ [] := by
    rintro rfl
    simp [hentry.symm] at hget
  simp [get?_erase, hkey] at hget

/-- A file that could not be removed because it was not found is missing. -/
theorem isMissing_of_removeFile_notFound
    (hremove : tree.removeFile path = .error .notFound) : tree.IsMissing path := by
  apply isMissing_of_resolve_ne
  intro found entry htaken
  rw [removeFile, htaken] at hremove
  cases entry <;> cases hremove

/-- A path leads to the place of a key where a file is or could be put. -/
structure LeadsTo (tree : FileTree) (follow : Bool) (path : String) (key : Key) : Prop where
  noWay : tree.way? key = none
  resolves : tree.resolve follow path = .ok (tree.placeAt key)

/-- The same place in another tree. -/
def moved (other : FileTree) : Place → Place
  | .taken key (.file _) | .free key => other.placeAt key
  | .taken key .directory => .taken key .directory
  | .taken key (.link target) => .taken key (.link target)

theorem get?_of_way?_eq (hways : tree.way? = other.way?)
    (hget : tree.get? key = some entry) (hentry : isFile entry = false) :
    other.get? key = some entry := by
  have hway : other.way? key = some entry := hways ▸ way?_eq_some.mpr ⟨hget, hentry⟩
  exact (way?_eq_some.mp hway).1

theorem moved_placeAt (hway : tree.way? key = none)
    (other : FileTree) : other.moved (tree.placeAt key) = other.placeAt key := by
  rcases way?_eq_none.mp hway with hget | ⟨bytes, hget⟩ <;> simp [placeAt, hget, moved]

/-- A walk takes the same way where directories and links are the same. -/
theorem Walks.of_way?_eq (hways : tree.way? = other.way?)
        (hwalks : tree.Walks follow links key names place) :
    other.Walks follow links key names (other.moved place) := by
  induction hwalks with
  | here => exact .here
  | up _ ih => exact .up ih
  | down hname hget _ ih => exact .down hname (get?_of_way?_eq hways hget rfl) ih
  | last hname hway =>
    rw [moved_placeAt hway]
    exact .last hname (hways ▸ hway)
  | link hname hget hfollow => exact .link hname (get?_of_way?_eq hways hget rfl) hfollow
  | enter hname hget hfollow hrelative _ ih =>
    exact .enter hname (get?_of_way?_eq hways hget rfl) hfollow hrelative ih

theorem resolve_of_way?_eq (hways : tree.way? = other.way?)
    (hresolve : tree.resolve follow path = .ok place) :
    other.resolve follow path = .ok (other.moved place) := by
  rw [resolve_eq_ok_iff] at hresolve ⊢
  obtain ⟨hpath, hwalks, hdirectory⟩ := hresolve
  refine ⟨hpath, hwalks.of_way?_eq hways, fun hwants => ?_⟩
  obtain ⟨key, rfl⟩ := hdirectory hwants
  exact ⟨key, rfl⟩

theorem LeadsTo.of_way?_eq (hways : tree.way? = other.way?)
    (hleads : tree.LeadsTo follow path key) :
    other.LeadsTo follow path key := by
  have hplace := resolve_of_way?_eq hways hleads.resolves
  rw [moved_placeAt hleads.noWay] at hplace
  exact ⟨hways ▸ hleads.noWay, hplace⟩

end StyleMigration.FileTree
