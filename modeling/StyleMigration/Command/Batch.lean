import StyleMigration.Files.Tree

/-!
Running an outside command on many files. The files are handed over in batches of limited size, one
run of the command after the other; the first run that fails is the last.
-/

set_option autoImplicit false

namespace StyleMigration.Command

/-- How a run of a program ended. -/
inductive Launch where
  | exited (code : Int)
  | signalled
  /-- The program could not be started. -/
  | failed (cause : IoCause)
  deriving DecidableEq, Repr

/-- The files, and what else runs of programs act on. -/
structure World (σ : Type) where
  tree : FileTree
  outside : σ

/-- Runs a program with its arguments. A run can change the files in any way. -/
abbrev Runner (σ : Type) := List String → World σ → Launch × World σ

variable {σ : Type}

/-- The consecutive slices of a list that have `size` items each but for the last one, where a size
of zero counts as one. -/
def batches {α : Type} (size : Nat) (items : List α) : List (List α) :=
  if _h : items.isEmpty then []
  else items.take (max size 1) :: batches size (items.drop (max size 1))
termination_by items.length
decreasing_by
  simp only [List.isEmpty_iff, ← List.length_eq_zero_iff] at _h
  simp only [List.length_drop]
  omega

/-- The subcommand that replaces divisions by slash. -/
def division : String := "division"

/-- Runs a command on each batch in turn, and gives the sizes of the batches. -/
def runEach (runner : Runner σ) (command : List String) (world : World σ) :
    List (List String) → Except Failure (List Nat) × World σ
  | [] => (.ok [], world)
  | batch :: rest =>
    match runner (command ++ division :: batch) world with
    | (.failed cause, world) => (.error (.io (command.headD "") cause), world)
    | (.signalled, world) => (.error (.processFailed none), world)
    | (.exited code, world) =>
      if code = 0 then
        let (sizes, world) := runEach runner command world rest
        (sizes.map (batch.length :: ·), world)
      else
        (.error (.processFailed (some code)), world)

/-- Runs a command on files in batches of at most `size`. -/
def runBatches (runner : Runner σ) (command files : List String) (size : Nat) (world : World σ) :
    Except Failure (List Nat) × World σ :=
  runEach runner command world (batches size files)

end StyleMigration.Command
