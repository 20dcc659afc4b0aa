import StyleMigration.Proofs.Command.Batch
import StyleMigration.Proofs.Files.Lodging

/-!
What is asked of the division command. To say what a migration that fails leaves behind, it is enough that
a run changes no other files than those it is given (`ChangesGiven`). For a migration that does not fail
the command is one that edits the files it is given (`EditsFiles`): where its paths lead to texts, each in
a file of its own, it ends well, the texts are edited, and nothing else has changed. Runs on one batch
after the other then do the same to all files together (`runEach_eq`), since the files of a batch are as
they were when the runs before it have ended (`LeadToTexts.of_textsEdited`).
-/

set_option autoImplicit false

namespace StyleMigration.Migration

open Command FileTree

variable {σ : Type}

/-- Each entry that differs between two trees is where one of the paths led. -/
def ChangedAt (paths : List String) (before after : FileTree) : Prop :=
  ∀ key, after.get? key ≠ before.get? key → ∃ path ∈ paths, before.LeadsTo true path key

/-- A runner for which the division command changes no other files than those it is given. -/
def ChangesGiven (runner : Runner σ) (command : List String) : Prop :=
  ∀ batch world, ChangedAt batch world.tree (runner (command ++ division :: batch) world).2.tree

/-- The paths lead to texts, each in a file of its own. -/
structure LeadToTexts (tree : FileTree) (paths : List String) : Prop where
  texts : ∀ path ∈ paths, ∃ key text, tree.LeadsTo true path key ∧ tree.HasText key text
  apart : paths.Pairwise fun path other =>
    ∀ key, tree.LeadsTo true path key → ¬ tree.LeadsTo true other key

/-- The texts to which the paths led were edited, and nothing else was changed. -/
structure TextsEdited (edit : List Char → List Char) (paths : List String)
    (before after : FileTree) : Prop where
  changed : ChangedAt paths before after
  edited : ∀ path ∈ paths, ∀ key text, before.LeadsTo true path key → before.HasText key text →
    after.HasText key (edit text)

/-- A runner for which the division command edits the files it is given. Nothing is asked of a run
without files, or on paths that lead to no text or to one file twice. -/
def EditsFiles (runner : Runner σ) (command : List String) (edit : List Char → List Char) : Prop :=
  ∀ batch world, batch ≠ [] → LeadToTexts world.tree batch →
    (runner (command ++ division :: batch) world).1 = .exited 0 ∧
      TextsEdited edit batch world.tree (runner (command ++ division :: batch) world).2.tree

variable {edit : List Char → List Char} {paths first rest : List String}
  {before between after : FileTree}

theorem textsEdited_nil (edit : List Char → List Char) (tree : FileTree) :
    TextsEdited edit [] tree tree :=
  ⟨fun _ hdiffers => absurd rfl hdiffers, nofun⟩

theorem TextsEdited.get?_eq (hedited : TextsEdited edit paths before after) {key : Key}
    (hkey : ∀ path ∈ paths, ¬ before.LeadsTo true path key) : after.get? key = before.get? key := by
  false_or_by_contra
  rename_i hdiffers
  obtain ⟨path, hpath, hleads⟩ := hedited.changed key hdiffers
  exact hkey path hpath hleads

/-- Edited texts are still texts, so paths lead where they led. -/
theorem TextsEdited.ways (hedited : TextsEdited edit paths before after)
    (htexts : LeadToTexts before paths) : before.way? = after.way? := by
  funext key
  by_cases hkey : after.get? key = before.get? key
  · rw [way?, way?, hkey]
  · obtain ⟨path, hpath, hleads⟩ := hedited.changed key hkey
    obtain ⟨found, text, hfound, htext⟩ := htexts.texts path hpath
    obtain rfl := hleads.key_eq hfound
    rw [hleads.noWay, eq_comm, way?_eq_none]
    exact .inr ⟨_, hedited.edited path hpath key text hleads htext⟩

section Append

variable (htexts : LeadToTexts before (first ++ rest))
  (hfirst : TextsEdited edit first before between)
include htexts

theorem LeadToTexts.of_append : LeadToTexts before first :=
  ⟨fun path hpath => htexts.texts path (List.mem_append_left _ hpath),
    (List.pairwise_append.mp htexts.apart).1⟩

include hfirst

/-- The first edits leave the other files alone. -/
theorem TextsEdited.hasText_rest {path : String} (hpath : path ∈ rest) {key : Key}
    (hleads : before.LeadsTo true path key) {text : List Char} :
    between.HasText key text ↔ before.HasText key text := by
  obtain ⟨-, -, hapart⟩ := List.pairwise_append.mp htexts.apart
  rw [HasText, HasText, hfirst.get?_eq fun other hother hmeets =>
    hapart other hother path hpath key hmeets hleads]

theorem LeadToTexts.of_textsEdited : LeadToTexts between rest := by
  have hways := hfirst.ways htexts.of_append
  obtain ⟨-, hrest, -⟩ := List.pairwise_append.mp htexts.apart
  constructor
  · intro path hpath
    obtain ⟨key, text, hleads, htext⟩ := htexts.texts path (List.mem_append_right _ hpath)
    exact ⟨key, text, hleads.of_way?_eq hways, (hfirst.hasText_rest htexts hpath hleads).mpr htext⟩
  · refine hrest.imp fun hmeet key hleads hmeets => ?_
    exact hmeet key (hleads.of_way?_eq hways.symm) (hmeets.of_way?_eq hways.symm)

/-- Texts that are edited in two goes. -/
theorem TextsEdited.append (hrest : TextsEdited edit rest between after) :
    TextsEdited edit (first ++ rest) before after := by
  have hways := hfirst.ways htexts.of_append
  obtain ⟨-, -, hapart⟩ := List.pairwise_append.mp htexts.apart
  constructor
  · intro key hdiffers
    by_cases hkey : after.get? key = between.get? key
    · rw [hkey] at hdiffers
      obtain ⟨path, hpath, hleads⟩ := hfirst.changed key hdiffers
      exact ⟨path, List.mem_append_left _ hpath, hleads⟩
    · obtain ⟨path, hpath, hleads⟩ := hrest.changed key hkey
      exact ⟨path, List.mem_append_right _ hpath, hleads.of_way?_eq hways.symm⟩
  · intro path hpath key text hleads htext
    rcases List.mem_append.mp hpath with hpath | hpath
    · rw [HasText, hrest.get?_eq fun other hother hmeets =>
        hapart path hpath other hother key hleads (hmeets.of_way?_eq hways.symm)]
      exact hfirst.edited path hpath key text hleads htext
    · exact hrest.edited path hpath key text (hleads.of_way?_eq hways)
        ((hfirst.hasText_rest htexts hpath hleads).mpr htext)

end Append

/-- Running a command that edits its files on one batch after the other. -/
theorem runEach_eq {runner : Runner σ} {command : List String}
    (hrunner : EditsFiles runner command edit) {groups : List (List String)}
    (hgroups : ∀ batch ∈ groups, batch ≠ []) {world : World σ}
    (htexts : LeadToTexts world.tree groups.flatten) :
    (runEach runner command world groups).1 = .ok (groups.map List.length) ∧
      TextsEdited edit groups.flatten world.tree (runEach runner command world groups).2.tree := by
  induction groups generalizing world with
  | nil => exact ⟨rfl, textsEdited_nil edit world.tree⟩
  | cons batch groups ih =>
    rw [List.forall_mem_cons] at hgroups
    rw [List.flatten_cons] at htexts ⊢
    obtain ⟨hexit, hedited⟩ := hrunner batch world hgroups.1 htexts.of_append
    rw [runEach]
    rcases hlaunch : runner (command ++ division :: batch) world with ⟨launch, next⟩
    rw [hlaunch] at hexit hedited
    cases hexit
    obtain ⟨hsizes, hrest⟩ := ih hgroups.2 (htexts.of_textsEdited hedited)
    simp only [if_true, hsizes]
    exact ⟨rfl, hedited.append htexts hrest⟩

end StyleMigration.Migration
