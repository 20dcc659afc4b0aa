import StyleMigration.Proofs.Files.Search

/-!
What a search lists and in which order. `Descends` goes down from a directory through directories and
never through a link, a name at a time. In a sound tree it comes to every entry below the directory
(`IsSound.descends_iff`), so a search lists the files it comes to, less those that are hidden on the way
or have another extension. `Precedes` compares paths name by name, and a search lists its paths strictly
in this order (`pairwise_filesBelow`).
-/

set_option autoImplicit false

namespace StyleMigration.FileTree

variable {names others : Key} {tree : FileTree}

/-! ### The order of paths -/

/-- The first name in which two paths differ comes first, or one path goes on from the other. -/
def Precedes (names others : Key) : Prop :=
  List.Lex (· < ·) names others

theorem comesBefore_iff :
    comesBefore names others = true ↔ names = others ∨ Precedes names others := by
  unfold Precedes
  fun_induction comesBefore names others with
  | case1 others => cases others <;> simp
  | case2 name names => simp
  | case3 names name others ih =>
    rw [ih, List.cons.injEq, List.cons_lex_cons_iff]
    simp only [String.lt_irrefl, true_and, false_or]
  | case4 name names other others hne =>
    rw [decide_eq_true_eq, List.cons.injEq, List.cons_lex_cons_iff]
    simp [hne]

theorem Precedes.trans {last : Key} (hfirst : Precedes names others)
    (hsecond : Precedes others last) : Precedes names last :=
  List.lex_trans String.lt_trans hfirst hsecond

theorem Precedes.ne (hprecedes : Precedes names others) : names ≠ others := by
  rintro rfl
  exact List.lex_irrefl String.lt_irrefl names hprecedes

/-- Paths that go on from the same names are compared by the rest. -/
theorem Precedes.append_left (front : Key) (hprecedes : Precedes names others) :
    Precedes (front ++ names) (front ++ others) := by
  induction front with
  | nil => exact hprecedes
  | cons name front ih => exact .cons ih

theorem comesBefore_trans (names others last : Key) (hfirst : comesBefore names others = true)
    (hsecond : comesBefore others last = true) : comesBefore names last = true := by
  rw [comesBefore_iff] at *
  rcases hfirst with rfl | hfirst
  · exact hsecond
  · rcases hsecond with rfl | hsecond
    · exact .inr hfirst
    · exact .inr (hfirst.trans hsecond)

theorem comesBefore_total (names others : Key) :
    (comesBefore names others || comesBefore others names) = true := by
  fun_induction comesBefore names others with
  | case1 others => rfl
  | case2 name names => rfl
  | case3 names name others ih => simpa [comesBefore] using ih
  | case4 name names other others hne =>
    have hlt : name < other ∨ other < name := by
      rcases String.le_total name other with hle | hle
      · exact .inl (String.not_le.mp fun hge => hne (String.le_antisymm hle hge))
      · exact .inr (String.not_le.mp fun hge => hne (String.le_antisymm hge hle))
    simpa [comesBefore, Ne.symm hne] using hlt

/-- A search lists each file after those whose paths come first. -/
theorem pairwise_filesBelow (hdistinct : tree.IsDistinct) (directory : Key)
    (extensions : List String) : (tree.filesBelow directory extensions).Pairwise Precedes := by
  have hsorted : (tree.filesBelow directory extensions).Pairwise
      fun names others => comesBefore names others = true :=
    List.pairwise_mergeSort comesBefore_trans comesBefore_total _
  -- Sorting lets equal keys stand beside each other, but no file is found twice.
  refine (hsorted.and (nodup_filesBelow hdistinct directory extensions)).imp ?_
  rintro names others ⟨hbefore, hne⟩
  exact (comesBefore_iff.mp hbefore).resolve_left hne

/-! ### The entries below a directory -/

/-- Names lead down from a directory to an entry, and all but the last of them to directories. -/
inductive Descends (tree : FileTree) : (directory names : Key) → FileEntry → Prop where
  | entry {directory : Key} {name : String} {entry : FileEntry} :
      tree.get? (directory ++ [name]) = some entry → Descends tree directory [name] entry
  | down {directory names : Key} {name : String} {entry : FileEntry} :
      tree.get? (directory ++ [name]) = some .directory →
        Descends tree (directory ++ [name]) names entry → Descends tree directory (name :: names) entry

theorem IsSound.descends_iff (hsound : tree.IsSound) {directory : Key} {entry : FileEntry} :
    tree.Descends directory names entry ↔
      names ≠ [] ∧ tree.get? (directory ++ names) = some entry := by
  constructor
  · intro hdescends
    induction hdescends with
    | entry hget => exact ⟨List.cons_ne_nil _ _, hget⟩
    | down _ _ ih => exact ⟨List.cons_ne_nil _ _, by rw [List.append_cons, ih.2]⟩
  · rintro ⟨hne, hget⟩
    induction names generalizing directory with
    | nil => exact absurd rfl hne
    | cons name names ih =>
      by_cases hlast : names = []
      · subst hlast
        exact .entry hget
      · rw [List.append_cons] at hget
        -- what houses the entry stands below this name, or is what it leads to
        have hhoused := hsound.get?_dropLast hget
        rw [List.dropLast_append_of_ne_nil hlast] at hhoused
        exact .down (hsound.get?_of_append hhoused) (ih hlast hget)

/-- The path of a file from a root has the extension of the file's name. -/
theorem Spot.extension?_pathFrom {directory : Key}
    (hspot : tree.Spot directory names) {name : String} (hlast : names.getLast? = some name)
    (root : String) : Path.extension? (pathFrom root names) = Path.extension? name := by
  obtain ⟨front, rfl⟩ := List.getLast?_eq_some_iff.mp hlast
  exact FileTree.extension?_pathFrom root
    (fun other hother => hspot.named other (List.mem_append_left _ hother))
    (hspot.named name (by simp))

theorem hasExtension_iff {extensions : List String} {path : String} :
    hasExtension extensions path = true ↔
      ∃ extension ∈ extensions, Path.extension? path = some extension := by
  rw [hasExtension, Option.any_eq_true]
  simp [and_comm]

/-- A search lists the files it comes to on a way without hidden names that have one of the
extensions. -/
theorem IsSound.mem_filesBelow_iff_descends (hsound : tree.IsSound) (root : String)
    {directory : Key} {extensions : List String} :
    names ∈ tree.filesBelow directory extensions ↔
      (∃ bytes, tree.Descends directory names (.file bytes)) ∧
        (∀ name ∈ names, name.toList.head? ≠ some '.') ∧
        ∃ extension ∈ extensions, Path.extension? (pathFrom root names) = some extension := by
  have hhidden : (∀ name ∈ names, isHidden name = false) ↔
      ∀ name ∈ names, name.toList.head? ≠ some '.' := by
    simp [isHidden]
  simp only [mem_filesBelow_iff hsound.distinct, hsound.descends_iff, hhidden,
    ← hasExtension_iff, exists_and_left, and_assoc]
  refine and_congr_right fun hne => and_congr_right fun hfile => and_congr_right fun _ => ?_
  obtain ⟨bytes, hget⟩ := hfile
  obtain ⟨front, name, rfl⟩ : ∃ front name, names = front ++ [name] :=
    ⟨_, _, (List.dropLast_concat_getLast hne).symm⟩
  have hextension := (hsound.spot hne hget).extension?_pathFrom List.getLast?_concat root
  simp [hasExtension, hextension]

/-- The paths of what a search lists are in the order of what they lead to. -/
theorem IsSound.pairwise_pathFrom (hsound : tree.IsSound) (root : String)
    (directory : Key) (extensions : List String) :
    ((tree.filesBelow directory extensions).map (pathFrom root)).Pairwise
      fun path other => Precedes (pathNames path) (pathNames other) := by
  have hnames : ∀ names ∈ tree.filesBelow directory extensions,
      pathNames (pathFrom root names) = pathNames root ++ names := by
    intro names hmem
    obtain ⟨hne, ⟨bytes, hget⟩, -⟩ := (mem_filesBelow_iff hsound.distinct).mp hmem
    exact pathNames_pathFrom root (hsound.spot hne hget).named
  rw [List.pairwise_map]
  refine (pairwise_filesBelow hsound.distinct directory extensions).imp_of_mem ?_
  intro names others hmem hother hprecedes
  rw [hnames names hmem, hnames others hother]
  exact hprecedes.append_left (pathNames root)

/-- A search from a directory lists the files below it that are not hidden and have one of the
extensions, each once and in the order of their paths. A root called `-` stands for the standard input and
is not gone through. -/
theorem findFiles_exact_and_ordered {tree : FileTree} (hsound : tree.IsSound) {root : String}
    {top : Key} (hroot : tree.resolve true root = .ok (.taken top .directory))
    (hwalked : isStandardInput root = false) (extensions : List String) :
    ∃ paths, tree.findFiles root extensions = .ok paths ∧
      paths.Pairwise (fun path other => Precedes (pathNames path) (pathNames other)) ∧
      paths.Nodup ∧
      ∀ path, path ∈ paths ↔
        ∃ names bytes, path = pathFrom root names ∧ tree.Descends top names (.file bytes) ∧
          (∀ name ∈ names, name.toList.head? ≠ some '.') ∧
          ∃ extension ∈ extensions, Path.extension? path = some extension := by
  have hordered := hsound.pairwise_pathFrom root top extensions
  refine ⟨(tree.filesBelow top extensions).map (pathFrom root), ?_, hordered, ?_, ?_⟩
  · rw [findFiles_eq hroot, found, if_neg (by simp [hwalked])]
  · exact hordered.imp fun hprecedes heq => hprecedes.ne (by rw [heq])
  · intro path
    rw [List.mem_map]
    constructor
    · rintro ⟨names, hmem, rfl⟩
      obtain ⟨⟨bytes, hdescends⟩, hkept⟩ := (hsound.mem_filesBelow_iff_descends root).mp hmem
      exact ⟨names, bytes, rfl, hdescends, hkept⟩
    · rintro ⟨names, bytes, rfl, hdescends, hkept⟩
      exact ⟨names, (hsound.mem_filesBelow_iff_descends root).mpr ⟨⟨bytes, hdescends⟩, hkept⟩, rfl⟩

/-- A directory with a file, a hidden one, a link and a directory in it. -/
def searchedTree : FileTree where
  entries := [(["src"], .directory), (["src", "b.vue"], .directory),
    (["src", "b.vue", "Two.vue"], .file "".toUTF8), (["src", "One.vue"], .file "".toUTF8),
    (["src", ".vue"], .file "".toUTF8), (["src", "Link.vue"], .link "One.vue")]

theorem isSound_searchedTree : searchedTree.IsSound := by
  decide +kernel

theorem findFiles_exact_and_ordered_searchedTree :
    ∃ paths, searchedTree.findFiles "src" ["vue", "scss"] = .ok paths ∧
      paths.Pairwise (fun path other => Precedes (pathNames path) (pathNames other)) ∧
      "src/b.vue/Two.vue" ∈ paths ∧ "src/One.vue" ∈ paths := by
  have hroot : searchedTree.resolve true "src" = .ok (.taken ["src"] .directory) := rfl
  obtain ⟨paths, hfind, hordered, -, hmem⟩ :=
    findFiles_exact_and_ordered isSound_searchedTree hroot (by decide) ["vue", "scss"]
  refine ⟨paths, hfind, hordered, (hmem _).mpr ?_, (hmem _).mpr ?_⟩
  · exact ⟨["b.vue", "Two.vue"], _, by decide, .down rfl (.entry rfl), by decide, "vue", by decide,
      by decide⟩
  · exact ⟨["One.vue"], _, by decide, .entry rfl, by decide, "vue", by decide, by decide⟩

end StyleMigration.FileTree
