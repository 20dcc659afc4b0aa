import StyleMigration.Proofs.Files.Lookup

/-!
Files that are read, written and removed where a path leads. A path that leads to a key still leads
there after any file was written or removed (`LeadsTo.of_way?_eq`), since only directories and links
show the way. So a row of such changes is described key by key: `SameOff` says that two trees have
the same ways and the same entries but for some keys, and `HasText` what stands there.
-/

set_option autoImplicit false

namespace StyleMigration.FileTree

variable {tree : FileTree} {key : Key} {path : String} {text : List Char}

/-- The file with a key holds a text. -/
def HasText (tree : FileTree) (key : Key) (text : List Char) : Prop :=
  tree.get? key = some (.file (String.ofList text).toUTF8)

theorem toUTF8_ofList_inj {other : List Char} :
    (String.ofList text).toUTF8 = (String.ofList other).toUTF8 ↔ text = other := by
  rw [String.toUTF8, String.toUTF8, String.toByteArray_inj, String.ofList_inj]

theorem fromUTF8?_eq_some_iff {bytes : ByteArray} {text : String} :
    String.fromUTF8? bytes = some text ↔ bytes = text.toUTF8 := by
  unfold String.fromUTF8?
  constructor
  · intro h
    split at h
    · cases h
      rfl
    · cases h
  · rintro rfl
    exact dif_pos text.isValidUTF8

theorem HasText.inj {other : List Char}
    (htext : tree.HasText key text) (hother : tree.HasText key other) : text = other := by
  rw [HasText, hother, Option.some.injEq, FileEntry.file.injEq, toUTF8_ofList_inj] at htext
  exact htext.symm

theorem HasText.get?_ne_iff {other : FileTree} {text' : List Char}
    (htext : tree.HasText key text) (htext' : other.HasText key text') :
    tree.get? key ≠ other.get? key ↔ text ≠ text' := by
  rw [htext, htext', ne_eq, Option.some.injEq, FileEntry.file.injEq, toUTF8_ofList_inj]

@[simp] theorem way?_nil (tree : FileTree) : tree.way? [] = some .directory :=
  way?_eq_some.mpr ⟨get?_nil tree, rfl⟩

theorem ne_nil_of_way? (hway : tree.way? key = none) : key ≠ [] := by
  rintro rfl
  simp at hway

/-- Where a path leads a text is read just if it stands there. -/
theorem LeadsTo.readText_eq_ok_iff (hleads : tree.LeadsTo true path key) :
    tree.readText path = .ok text ↔ tree.HasText key text := by
  rcases way?_eq_none.mp hleads.noWay with hget | ⟨bytes, hget⟩
  · have hread : tree.readText path = .error .notFound := by
      rw [readText, readBytes, hleads.resolves, placeAt, hget]
      rfl
    rw [hread, HasText, hget]
    constructor <;> intro h <;> cases h
  · have hbytes : tree.readBytes path = .ok bytes := by
      rw [readBytes, hleads.resolves, placeAt, hget]
      rfl
    rw [HasText, hget, Option.some.injEq, FileEntry.file.injEq, ← fromUTF8?_eq_some_iff, readText,
      hbytes]
    simp only [bind, Except.bind]
    cases String.fromUTF8? bytes with
    | none => constructor <;> intro h <;> cases h
    | some other =>
      simp only [pure, Except.pure]
      rw [Except.ok.injEq, Option.some.injEq, ← String.toList_inj, String.toList_ofList]

theorem resolve_of_readText
    (hread : tree.readText path = .ok text) : ∃ place, tree.resolve true path = .ok place := by
  cases hresolve : tree.resolve true path with
  | error cause =>
    rw [readText, readBytes, hresolve] at hread
    cases hread
  | ok place => exact ⟨place, rfl⟩

/-- Bytes are written where their path leads. -/
theorem LeadsTo.writeBytes_eq (hleads : tree.LeadsTo true path key) (bytes : ByteArray) :
    tree.writeBytes path bytes = .ok (tree.set key (.file bytes)) := by
  unfold writeBytes
  rw [hleads.resolves, placeAt]
  rcases way?_eq_none.mp hleads.noWay with hget | ⟨bytes, hget⟩ <;> simp only [hget] <;> rfl

theorem LeadsTo.writeText_eq (hleads : tree.LeadsTo true path key) (text : List Char) :
    tree.writeText path text = .ok (tree.set key (.file (String.ofList text).toUTF8)) :=
  hleads.writeBytes_eq _

/-- Where a path leads there is nothing to remove, or the file there is removed. -/
theorem LeadsTo.removeFile_eq (hleads : tree.LeadsTo false path key) :
    (tree.get? key = none ∧ tree.removeFile path = .error .notFound) ∨
      tree.removeFile path = .ok (tree.erase key) := by
  unfold removeFile
  rw [hleads.resolves, placeAt]
  rcases way?_eq_none.mp hleads.noWay with hget | ⟨bytes, hget⟩ <;> rw [hget]
  · exact .inl ⟨rfl, rfl⟩
  · exact .inr rfl

/-- A walk that follows all links ends in a directory, or where no way goes on. -/
theorem Walks.ends {links : Nat} {names : List String}
    {place : Place} (hwalks : tree.Walks true links key names place) :
    (∃ found, place = .taken found .directory) ∨
      ∃ found, tree.way? found = none ∧ place = tree.placeAt found := by
  induction hwalks with
  | here => exact .inl ⟨_, rfl⟩
  | up _ ih | down _ _ _ ih | enter _ _ _ _ _ ih => exact ih
  | last hname hway => exact .inr ⟨_, hway, rfl⟩
  | link hname hget hfollow => cases hfollow

/-- A look-up that follows all links finds a directory, or leads to where no way goes on. -/
theorem resolve_ends {place : Place} (hresolve : tree.resolve true path = .ok place) :
    (∃ found, place = .taken found .directory) ∨
      ∃ found, tree.LeadsTo true path found ∧ place = tree.placeAt found := by
  obtain ⟨-, hwalks, -⟩ := resolve_eq_ok_iff.mp hresolve
  rw [Bool.true_or] at hwalks
  refine hwalks.ends.imp_right ?_
  rintro ⟨found, hway, rfl⟩
  exact ⟨found, ⟨hway, hresolve⟩, rfl⟩

/-- What was written stands where the path leads. -/
theorem writeBytes_eq_ok {after : FileTree} {bytes : ByteArray}
    (hwrite : tree.writeBytes path bytes = .ok after) : ∃ key, tree.LeadsTo true path key := by
  cases hresolve : tree.resolve true path with
  | error cause =>
    rw [writeBytes, hresolve] at hwrite
    cases hwrite
  | ok place =>
    rcases resolve_ends hresolve with ⟨found, rfl⟩ | ⟨found, hleads, rfl⟩
    · rw [writeBytes, hresolve] at hwrite
      cases hwrite
    · exact ⟨found, hleads⟩

theorem writeText_eq_ok {after : FileTree}
    (hwrite : tree.writeText path text = .ok after) : ∃ key, tree.LeadsTo true path key :=
  writeBytes_eq_ok hwrite

/-- The keys of a tree are distinct. -/
def IsDistinct (tree : FileTree) : Prop :=
  (tree.entries.map (·.1)).Nodup

instance instDecidableIsDistinct (tree : FileTree) : Decidable tree.IsDistinct :=
  inferInstanceAs (Decidable (tree.entries.map (·.1)).Nodup)

theorem IsDistinct.erase (hdistinct : tree.IsDistinct) (key : Key) :
    (tree.erase key).IsDistinct :=
  List.Nodup.sublist (List.filter_sublist.map _) hdistinct

theorem IsDistinct.set (hdistinct : tree.IsDistinct) (key : Key)
    (entry : FileEntry) : (tree.set key entry).IsDistinct := by
  refine List.nodup_cons.mpr ⟨?_, hdistinct.erase key⟩
  simp [FileTree.erase]

/-- Two trees with the same ways, and the same entries but for some keys. -/
structure SameOff (keys : List Key) (before after : FileTree) : Prop where
  ways : before.way? = after.way?
  kept : ∀ key ∉ keys, after.get? key = before.get? key

namespace SameOff

variable {keys more : List Key} {before between after : FileTree}

theorem refl (keys : List Key) (tree : FileTree) : SameOff keys tree tree :=
  ⟨rfl, fun _ _ => rfl⟩

theorem trans (hfirst : SameOff keys before between) (hsecond : SameOff more between after) :
    SameOff (keys ++ more) before after := by
  refine ⟨hfirst.ways.trans hsecond.ways, fun key hkey => ?_⟩
  rw [List.mem_append, not_or] at hkey
  rw [hsecond.kept key hkey.2, hfirst.kept key hkey.1]

theorem hasText (hsame : SameOff keys before after) (hkey : key ∉ keys)
    : after.HasText key text ↔ before.HasText key text := by
  rw [HasText, HasText, hsame.kept key hkey]

/-- Two trees that differ at one key, where neither has a way. -/
theorem ways_of_noWay (hbefore : before.way? key = none) (hafter : after.way? key = none)
    (hkept : ∀ other, other ≠ key → after.get? other = before.get? other) :
    before.way? = after.way? := by
  funext other
  by_cases hother : other = key
  · rw [hother, hbefore, hafter]
  · rw [way?, way?, hkept other hother]

theorem set (hway : tree.way? key = none) (bytes : ByteArray) :
    SameOff [key] tree (tree.set key (.file bytes)) := by
  have hkept : ∀ other, other ≠ key → (tree.set key (.file bytes)).get? other = tree.get? other := by
    intro other hother
    rw [get?_set, if_neg fun h => hother h.1]
  refine ⟨ways_of_noWay hway ?_ hkept, fun other hother => hkept other (by simpa using hother)⟩
  simp [way?_eq_none, get?_set, ne_nil_of_way? hway]

theorem erase (hway : tree.way? key = none) :
    SameOff [key] tree (tree.erase key) := by
  have hkept : ∀ other, other ≠ key → (tree.erase key).get? other = tree.get? other := by
    intro other hother
    rw [get?_erase, if_neg fun h => hother h.1]
  refine ⟨ways_of_noWay hway ?_ hkept, fun other hother => hkept other (by simpa using hother)⟩
  simp [way?_eq_none, get?_erase, ne_nil_of_way? hway]

end SameOff

theorem hasText_set (tree : FileTree) (hkey : key ≠ []) (text : List Char) :
    (tree.set key (.file (String.ofList text).toUTF8)).HasText key text := by
  simp only [HasText, get?_set, hkey, ne_eq, not_false_eq_true, and_self, if_true]

/-- A file is written only if its text changes, and it is told whether it was. -/
theorem LeadsTo.replaceText {after : FileTree}
    (hleads : tree.LeadsTo true path key) {source output : List Char}
    (hsource : tree.HasText key source) {flag : Bool} {failure : IoCause → Failure}
    (hreplace : (if output = source then pure (false, tree) else do
      let after ← (tree.writeText path output).mapError failure
      return (true, after)) = Except.ok (flag, after)) :
    after.HasText key output ∧ SameOff [key] tree after ∧
      flag = decide (after.get? key ≠ tree.get? key) := by
  split at hreplace
  · rename_i houtput
    cases hreplace
    exact ⟨houtput ▸ hsource, SameOff.refl _ _, by simp⟩
  · rename_i houtput
    rw [hleads.writeText_eq] at hreplace
    cases hreplace
    have hwritten := hasText_set tree (ne_nil_of_way? hleads.noWay) output
    refine ⟨hwritten, SameOff.set hleads.noWay _, ?_⟩
    rw [eq_comm, decide_eq_true_iff, hwritten, hsource]
    simpa only [ne_eq, Option.some.injEq, FileEntry.file.injEq, toUTF8_ofList_inj] using houtput

/-- The text of the file with a key, empty if there is none. -/
def textAt (tree : FileTree) (key : Key) : List Char :=
  match tree.get? key with
  | some (.file bytes) => ((String.fromUTF8? bytes).map String.toList).getD []
  | _ => []

theorem HasText.textAt_eq (htext : tree.HasText key text) : tree.textAt key = text := by
  have hdecoded : String.fromUTF8? (String.ofList text).toUTF8 = some (String.ofList text) :=
    fromUTF8?_eq_some_iff.mpr rfl
  rw [textAt, htext]
  simp only [hdecoded, Option.map_some, Option.getD_some, String.toList_ofList]

end StyleMigration.FileTree
