import StyleMigration.Settings
import StyleMigration.Files.Discovery
import StyleMigration.Sheet.File
import StyleMigration.Component.Staging
import StyleMigration.Command.Batch

/-!
The migration of a project. The style sections of all components are staged, the selectors of all
stylesheets are migrated, staged sections among them, the division command is run on the
stylesheets, and the sections are put back. The first failure ends this. In every case the staging
files are removed at the end.
-/

set_option autoImplicit false

namespace StyleMigration

open Command Component

/-- What a migration did. -/
structure Report where
  components : Nat
  chunks : Nat
  stylesheets : Nat
  changedStylesheets : Nat
  batches : List Nat
  changedComponents : Nat
  deriving DecidableEq, Repr

namespace Migration

variable {σ : Type}

/-- What the steps of a migration act on: the world, and the components that have been staged. -/
structure State (σ : Type) where
  world : World σ
  staged : List Staged

def State.setTree (state : State σ) (tree : FileTree) : State σ :=
  { state with world := { state.world with tree } }

/-- A step of a migration. What it did before it failed stays done. -/
abbrev Step (σ : Type) := ExceptT Failure (StateM (State σ))

/-- Stages a component and records it, even if only a part of it could be staged. -/
def stageComponent (path : String) : Step σ Nat := do
  let state ← get
  let result := stage state.world.tree path
  set { state.setTree result.tree with staged := state.staged ++ [result.recorded] }
  match result.stopped with
  | some failure => throw failure
  | none => return result.recorded.chunks.length

/-- A step that changes the files or fails without a change. -/
def onTree {α : Type} (act : FileTree → Except Failure (α × FileTree)) : Step σ α := do
  let state ← get
  match act state.world.tree with
  | .error failure => throw failure
  | .ok (result, tree) =>
    set (state.setTree tree)
    return result

def findFiles (root : String) (extensions : List String) : Step σ (List String) := do
  match (← get).world.tree.findFiles root extensions with
  | .error failure => throw failure
  | .ok paths => return paths

/-- Runs the division command on stylesheets. -/
def divide (settings : Settings) (runner : Runner σ) (paths : List String) : Step σ (List Nat) := do
  let state ← get
  let (outcome, world) := runBatches runner settings.command paths settings.batchSize state.world
  set { state with world }
  match outcome with
  | .error failure => throw failure
  | .ok sizes => return sizes

/-- All steps up to the removal of the staging files. -/
def steps (settings : Settings) (root : String) (runner : Runner σ) : Step σ Report := do
  let components ← findFiles root [settings.componentExtension]
  let chunks ← components.mapM stageComponent
  let stylesheets ← findFiles root settings.stylesheetExtensions
  let changedStylesheets ← stylesheets.mapM fun path => onTree fun tree =>
    Sheet.migrateFile tree path
  let batches ← (if settings.runDivision then divide settings runner stylesheets else pure [])
  let changedComponents ← (← get).staged.mapM fun staged => onTree staged.writeBack
  return {
    components := components.length
    chunks := chunks.sum
    stylesheets := stylesheets.length
    changedStylesheets := changedStylesheets.count true
    batches
    changedComponents := changedComponents.count true
  }

/-- Removes staging files, and gives the paths of those that are still there. -/
def removeStaging (tree : FileTree) : List String → List String × FileTree
  | [] => ([], tree)
  | path :: paths =>
    match tree.removeFile path with
    | .ok tree => removeStaging tree paths
    | .error .notFound => removeStaging tree paths
    | .error _ =>
      let (leftover, tree) := removeStaging tree paths
      (path :: leftover, tree)

/-- The paths of the staging files of components. -/
def stagingPaths (staged : List Staged) : List String :=
  staged.flatMap fun component => component.chunks.map (·.stagingPath)

/-- Removes the staging files of the recorded components, which are then forgotten, and gives the
paths of those that are still there. -/
def cleanUp (state : State σ) : List String × State σ :=
  let (leftover, tree) := removeStaging state.world.tree (stagingPaths state.staged)
  (leftover, { state.setTree tree with staged := [] })

/-- Migrates all components and stylesheets at or below a root. Components recorded before do not
count. -/
def migrate (settings : Settings) (root : String) (runner : Runner σ) (state : State σ) :
    Except Failure Report × State σ :=
  let (outcome, state) := (steps settings root runner).run.run { state with staged := [] }
  let (leftover, state) := cleanUp state
  match outcome with
  | .error failure => (.error failure, state)
  | .ok report => (if leftover.isEmpty then .ok report else .error (.leftover leftover), state)

/-- Migrates all components and stylesheets at or below a root in a world. -/
def run (settings : Settings) (root : String) (runner : Runner σ) (world : World σ) :
    Except Failure Report × World σ :=
  let (outcome, state) := migrate settings root runner ⟨world, []⟩
  (outcome, state.world)

end Migration

end StyleMigration
