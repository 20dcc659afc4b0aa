import StyleMigration.Files.Discovery

/-!
The paths a search gives. Names of entries are texts that a path can lead through (`IsName`). The path
of some names from a root leads through the names of the root and then through these
(`pathNames_pathFrom`), and its extension is that of the last name (`extension?_pathFrom`).
-/

set_option autoImplicit false

namespace StyleMigration

namespace Path

theorem splitSlashes_ne_nil (path : List Char) : splitSlashes path ≠ [] := by
  fun_cases splitSlashes path <;> simp_all

theorem splitSlashes_append (front back : List Char) :
    splitSlashes (front ++ '/' :: back) = splitSlashes front ++ splitSlashes back := by
  induction front with
  | nil => simp [splitSlashes]
  | cons c front ih =>
    rw [List.cons_append, splitSlashes, splitSlashes, ih]
    split
    · rfl
    · cases hfront : splitSlashes front with
      | nil => exact absurd hfront (splitSlashes_ne_nil front)
      | cons name names => rfl

theorem splitSlashes_of_notMem {name : List Char} (hname : '/' ∉ name) :
    splitSlashes name = [name] := by
  induction name with
  | nil => rfl
  | cons c name ih =>
    rw [List.mem_cons, not_or] at hname
    rw [splitSlashes, if_neg (Ne.symm hname.1), ih hname.2]

/-- What is added to a path without a slash is added to its last part. -/
theorem splitSlashes_append_of_notMem (path : List Char) {more : List Char} (hmore : '/' ∉ more) :
    ∃ front last, splitSlashes path = front ++ [last] ∧
      splitSlashes (path ++ more) = front ++ [last ++ more] := by
  induction path with
  | nil => exact ⟨[], [], rfl, splitSlashes_of_notMem hmore⟩
  | cons c path ih =>
    obtain ⟨front, last, hpath, hmore⟩ := ih
    rw [List.cons_append, splitSlashes, splitSlashes, hpath, hmore]
    split
    · exact ⟨[] :: front, last, rfl, rfl⟩
    · cases front with
      | nil => exact ⟨[], c :: last, rfl, rfl⟩
      | cons name front => exact ⟨(c :: name) :: front, last, rfl, rfl⟩

theorem names_append (front back : List Char) :
    names (front ++ '/' :: back) = names front ++ names back := by
  rw [names, splitSlashes_append, List.filter_append, names, names]

/-- What is added to a path without a slash is added to its last name, if it is too long for that name to
be one that stands for nothing or leads upwards. -/
theorem fileName?_append (path : List Char) {more : List Char} (hslash : '/' ∉ more)
    (hlong : 2 < more.length) : ∃ last, fileName? (path ++ more) = some (last ++ more) := by
  obtain ⟨front, last, -, hadded⟩ := splitSlashes_append_of_notMem path hslash
  have hkept {short : List Char} (hshort : short.length ≤ 2) : last ++ more ≠ short := by
    rintro rfl
    rw [List.length_append] at hshort
    omega
  have hname : (!(last ++ more).isEmpty && (last ++ more) != ['.']) = true := by
    rw [Bool.and_eq_true, Bool.not_eq_true', List.isEmpty_eq_false_iff, bne_iff_ne]
    exact ⟨hkept (by decide), hkept (by decide)⟩
  have hup : ((last ++ more) != ['.', '.']) = true := bne_iff_ne.mpr (hkept (by decide))
  refine ⟨last, ?_⟩
  rw [fileName?, names, hadded, List.filter_append, List.filter_cons, if_pos hname, List.filter_nil,
    List.getLast?_concat, Option.filter_some, if_pos hup]

/-- The extension of a name is what follows its last dot. -/
theorem nameExtension?_append {front extension : List Char} (hfront : front ≠ [])
    (hextension : '.' ∉ extension) :
    nameExtension? (front ++ '.' :: extension) = some extension := by
  have hkeeps : ∀ c ∈ extension.reverse, (c != '.') = true := by
    intro c hmem
    have hne : c ≠ '.' := fun h => hextension (h ▸ List.mem_reverse.mp hmem)
    simpa using hne
  have hdrop : (front ++ '.' :: extension).reverse.dropWhile (· != '.') = '.' :: front.reverse := by
    simp [List.dropWhile_append_of_pos hkeeps]
  have htake : (front ++ '.' :: extension).reverse.takeWhile (· != '.') = extension.reverse := by
    simp [List.takeWhile_append_of_pos hkeeps]
  rw [nameExtension?, hdrop, htake]
  cases hreverse : front.reverse with
  | nil => exact absurd (List.reverse_eq_nil_iff.mp hreverse) hfront
  | cons c rest => simp

end Path

namespace FileTree

/-- A text that can name an entry of a directory. -/
structure IsName (name : String) : Prop where
  nonempty : name ≠ ""
  notHere : name ≠ "."
  notUp : name ≠ ".."
  noSlash : '/' ∉ name.toList

instance instDecidableIsName (name : String) : Decidable (IsName name) :=
  decidable_of_iff (name ≠ "" ∧ name ≠ "." ∧ name ≠ ".." ∧ '/' ∉ name.toList)
    ⟨fun h => ⟨h.1, h.2.1, h.2.2.1, h.2.2.2⟩, fun h => ⟨h.nonempty, h.notHere, h.notUp, h.noSlash⟩⟩

theorem IsName.names_eq {name : String} (hname : IsName name) :
    Path.names name.toList = [name.toList] := by
  have hnonempty : name.toList ≠ [] := fun h => hname.nonempty (String.toList_eq_nil_iff.mp h)
  have hhere : name.toList ≠ ['.'] := fun h => hname.notHere (String.toList_inj.mp h)
  rw [Path.names, Path.splitSlashes_of_notMem hname.noSlash]
  simp [hnonempty, hhere]

theorem names_intercalate (names : Key) (hnames : ∀ name ∈ names, IsName name) :
    Path.names ("/".intercalate names).toList = names.map String.toList := by
  induction names with
  | nil => rfl
  | cons name names ih =>
    have hname := (hnames name List.mem_cons_self).names_eq
    cases names with
    | nil => simpa using hname
    | cons next names =>
      have hrest := ih fun other hmem => hnames other (List.mem_cons_of_mem _ hmem)
      have htext : ("/".intercalate (name :: next :: names)).toList =
          name.toList ++ '/' :: ("/".intercalate (next :: names)).toList := by simp
      rw [htext, Path.names_append, hname, hrest]
      rfl

/-- The text of a path from a root, whether or not the root ends on a slash. -/
theorem toList_pathFrom (root : String) (names : Key) :
    ∃ front, (pathFrom root names).toList = front ++ '/' :: ("/".intercalate names).toList ∧
      Path.names front = Path.names root.toList := by
  rw [pathFrom, Path.join]
  split
  · rename_i hslash
    obtain ⟨front, hfront⟩ := List.getLast?_eq_some_iff.mp hslash
    refine ⟨front, by simp [hfront], ?_⟩
    rw [hfront, Path.names_append]
    simp [Path.names, Path.splitSlashes]
  · exact ⟨root.toList, by simp, rfl⟩

theorem pathNames_pathFrom (root : String) {names : Key} (hnames : ∀ name ∈ names, IsName name) :
    pathNames (pathFrom root names) = pathNames root ++ names := by
  obtain ⟨front, htext, hfront⟩ := toList_pathFrom root names
  rw [pathNames, htext, Path.names_append, hfront, names_intercalate names hnames, pathNames,
    List.map_append, List.map_map]
  simp

theorem getLast?_splitSlashes_intercalate (front : Key) {name : String} (hname : IsName name) :
    (Path.splitSlashes ("/".intercalate (front ++ [name])).toList).getLast? =
      some name.toList := by
  by_cases hfront : front = []
  · rw [hfront, List.nil_append, String.intercalate_singleton,
      Path.splitSlashes_of_notMem hname.noSlash]
    rfl
  · have htext : ("/".intercalate (front ++ [name])).toList =
        ("/".intercalate front).toList ++ '/' :: name.toList := by
      rw [String.intercalate_append_of_ne_nil hfront (List.cons_ne_nil _ _)]
      simp
    rw [htext, Path.splitSlashes_append, Path.splitSlashes_of_notMem hname.noSlash]
    simp

theorem wantsDirectory_pathFrom (root : String) (front : Key) {name : String}
    (hname : IsName name) : wantsDirectory (pathFrom root (front ++ [name])) = false := by
  obtain ⟨before, htext, -⟩ := toList_pathFrom root (front ++ [name])
  have hlast : (Path.splitSlashes (pathFrom root (front ++ [name])).toList).getLast? =
      some name.toList := by
    rw [htext, Path.splitSlashes_append, List.getLast?_append,
      getLast?_splitSlashes_intercalate front hname, Option.some_or]
  have hnonempty : name.toList ≠ [] := fun h => hname.nonempty (String.toList_eq_nil_iff.mp h)
  have hhere : name.toList ≠ ['.'] := fun h => hname.notHere (String.toList_inj.mp h)
  rw [wantsDirectory, hlast]
  split <;> simp_all

/-- What is added to a path that does not end like a directory is added to the last name. -/
theorem pathNames_append {path more : String} (hwants : wantsDirectory path = false)
    (hmore : '/' ∉ more.toList) :
    ∃ front name, pathNames path = front ++ [name] ∧
      pathNames (path ++ more) = front ++ [name ++ more] ∧ wantsDirectory (path ++ more) = false := by
  obtain ⟨front, last, hpath, hadded⟩ := Path.splitSlashes_append_of_notMem path.toList hmore
  have hlast : last ≠ [] ∧ last ≠ ['.'] := by
    rw [wantsDirectory, hpath, List.getLast?_concat] at hwants
    constructor <;> rintro rfl <;> cases hwants
  have hlong : last ++ more.toList ≠ [] ∧ last ++ more.toList ≠ ['.'] := by
    refine ⟨fun h => hlast.1 (List.append_eq_nil_iff.mp h).1, fun h => ?_⟩
    rcases List.append_eq_singleton_iff.mp h with ⟨hempty, -⟩ | ⟨hhere, -⟩
    · exact hlast.1 hempty
    · exact hlast.2 hhere
  refine ⟨((front.filter fun name => !name.isEmpty && name != ['.'])).map String.ofList,
    String.ofList last, ?_, ?_, ?_⟩
  · simp [pathNames, Path.names, hpath, hlast]
  · simp [pathNames, Path.names, hadded, hlong]
  · rw [wantsDirectory, String.toList_append, hadded, List.getLast?_concat]
    split <;> simp_all

/-- The extension of a path is that of the last name it leads through. -/
theorem IsName.extension?_of_getLast? {name path : String} (hname : IsName name)
    (hlast : (Path.names path.toList).getLast? = some name.toList) :
    Path.extension? path = (Path.nameExtension? name.toList).map String.ofList := by
  have hup : (name.toList != ['.', '.']) = true :=
    bne_iff_ne.mpr fun h => hname.notUp (String.toList_inj.mp h)
  rw [Path.extension?, Path.fileName?, hlast, Option.filter_some, if_pos hup, Option.bind_some]

theorem IsName.extension?_eq {name : String} (hname : IsName name) :
    Path.extension? name = (Path.nameExtension? name.toList).map String.ofList := by
  apply hname.extension?_of_getLast?
  rw [hname.names_eq, List.getLast?_singleton]

theorem extension?_pathFrom (root : String) {front : Key} {name : String}
    (hfront : ∀ other ∈ front, IsName other) (hname : IsName name) :
    Path.extension? (pathFrom root (front ++ [name])) = Path.extension? name := by
  rw [hname.extension?_eq]
  apply hname.extension?_of_getLast?
  obtain ⟨before, htext, -⟩ := toList_pathFrom root (front ++ [name])
  have hnames : ∀ other ∈ front ++ [name], IsName other := by
    simpa [or_imp, forall_and, hname] using hfront
  rw [htext, Path.names_append, names_intercalate _ hnames]
  simp

/-- What is added to the path of some names is added to the last of them. -/
theorem pathFrom_append (root : String) (front : Key) (name more : String) :
    pathFrom root (front ++ [name]) ++ more = pathFrom root (front ++ [name ++ more]) := by
  have hintercalate : "/".intercalate (front ++ [name ++ more]) =
      "/".intercalate (front ++ [name]) ++ more := by
    by_cases hfront : front = []
    · simp [hfront]
    · simp only [String.intercalate_append_of_ne_nil hfront (List.cons_ne_nil _ _),
        String.intercalate_singleton, String.append_assoc]
  rw [pathFrom, pathFrom, hintercalate, Path.join, Path.join]
  split <;> simp only [String.append_assoc]

end FileTree

end StyleMigration
