import StyleMigration.Command.Batch

/-!
The runs of a command on batches of files. A runner can be made to write down its runs without any other
effect (`recording`), which tells the runs apart that were made from those that were not. They are the
runs on the batches from the first one on, each of which ended with code zero unless it is the last and
gives the failure (`Served`, `runEach_recording`). The batches are the consecutive slices of the files
(`eq_sliceAt_of_getElem?`, `flatten_batches`).
-/

set_option autoImplicit false

namespace StyleMigration.Command

variable {σ : Type}

/-! ### Batches -/

/-- The slice with the number `k`, counted from zero, of the consecutive slices of a list that have
`size` items each but for the last one. -/
def sliceAt {α : Type} (size k : Nat) (items : List α) : List α :=
  (items.drop (k * max size 1)).take (max size 1)

theorem flatten_batches {α : Type} (size : Nat) (items : List α) :
    (batches size items).flatten = items := by
  fun_induction batches size items with
  | case1 items hempty => rw [List.isEmpty_iff.mp hempty, List.flatten_nil]
  | case2 items hempty ih => rw [List.flatten_cons, ih, List.take_append_drop]

theorem eq_sliceAt_of_getElem? {α : Type} {size k : Nat} {items batch : List α}
    (hbatch : (batches size items)[k]? = some batch) :
    batch = sliceAt size k items ∧ batch ≠ [] := by
  fun_induction batches size items generalizing k with
  | case1 items hempty => simp at hbatch
  | case2 items hempty ih =>
    cases k with
    | zero =>
      rw [List.getElem?_cons_zero, Option.some.injEq] at hbatch
      subst hbatch
      refine ⟨by rw [sliceAt, Nat.zero_mul, List.drop_zero], fun hnil => ?_⟩
      rw [List.take_eq_nil_iff, ← List.isEmpty_iff] at hnil
      exact hnil.elim (by omega) hempty
    | succ k =>
      rw [List.getElem?_cons_succ] at hbatch
      obtain ⟨hslice, hne⟩ := ih hbatch
      rw [sliceAt, List.drop_drop, Nat.add_comm, ← Nat.succ_mul] at hslice
      exact ⟨hslice, hne⟩

/-! ### Writing down the runs -/

/-- A run of a program: the words it was started with, and how it ended. -/
structure Call where
  words : List String
  launch : Launch
  deriving DecidableEq, Repr

/-- A world with the runs of programs that were made so far, the latest one last. -/
def World.recorded (world : World σ) (calls : List Call) : World (σ × List Call) :=
  ⟨world.tree, (world.outside, calls)⟩

/-- The runner that runs programs alike and writes down their runs. -/
def recording (runner : Runner σ) : Runner (σ × List Call) := fun words world =>
  let (launch, next) := runner words ⟨world.tree, world.outside.1⟩
  (launch, next.recorded (world.outside.2 ++ [⟨words, launch⟩]))

/-- The failure that a run of a command gives, unless it ended with code zero. -/
def Launch.failure? (command : List String) : Launch → Option Failure
  | exited code => if code = 0 then none else some (.processFailed (some code))
  | signalled => some (.processFailed none)
  | failed cause => some (.io (command.headD "") cause)

theorem Launch.failure?_eq_none_iff {command : List String} {launch : Launch} :
    launch.failure? command = none ↔ launch = .exited 0 := by
  cases launch <;> simp [failure?]

/-- A run that ended with code zero is followed by the runs on the other batches; any other one is the
last. -/
theorem runEach_cons (runner : Runner σ) (command : List String) (world : World σ)
    (batch : List String) (groups : List (List String)) :
    runEach runner command world (batch :: groups) =
      let (launch, next) := runner (command ++ division :: batch) world
      match launch.failure? command with
      | some failure => (.error failure, next)
      | none =>
        let (sizes, last) := runEach runner command next groups
        (sizes.map (batch.length :: ·), last) := by
  rw [runEach]
  rcases runner (command ++ division :: batch) world with ⟨launch, next⟩
  cases launch with
  | exited code => by_cases hcode : code = 0 <;> simp [Launch.failure?, hcode]
  | signalled => rfl
  | failed cause => rfl

/-- `Served command groups calls outcome` says that the runs of a command on some batches, one after the
other, were `calls`, and that they gave `outcome`. -/
inductive Served (command : List String) :
    List (List String) → List Call → Except Failure (List Nat) → Prop where
  | done : Served command [] [] (.ok [])
  | went {batch : List String} {groups : List (List String)} {calls : List Call}
      {outcome : Except Failure (List Nat)} : Served command groups calls outcome →
      Served command (batch :: groups) (⟨command ++ division :: batch, .exited 0⟩ :: calls)
        (outcome.map (batch.length :: ·))
  | stopped {batch : List String} {groups : List (List String)} {launch : Launch}
      {failure : Failure} : launch.failure? command = some failure →
      Served command (batch :: groups) [⟨command ++ division :: batch, launch⟩] (.error failure)

/-- Writing down the runs has no effect on them, and those that are written down serve the batches. -/
theorem runEach_recording (runner : Runner σ) (command : List String) (groups : List (List String))
    (world : World σ) (before : List Call) :
    ∃ calls, runEach (recording runner) command (world.recorded before) groups =
        ((runEach runner command world groups).1,
          (runEach runner command world groups).2.recorded (before ++ calls)) ∧
      Served command groups calls (runEach runner command world groups).1 := by
  induction groups generalizing world before with
  | nil => exact ⟨[], by rw [List.append_nil]; rfl, .done⟩
  | cons batch groups ih =>
    rw [runEach_cons, runEach_cons]
    rcases hlaunch : runner (command ++ division :: batch) world with ⟨launch, next⟩
    have hrecorded : recording runner (command ++ division :: batch) (world.recorded before) =
        (launch, next.recorded (before ++ [⟨command ++ division :: batch, launch⟩])) := by
      simp only [recording, World.recorded, hlaunch]
    rw [hrecorded]
    cases hfailure : launch.failure? command with
    | some failure =>
      refine ⟨[⟨command ++ division :: batch, launch⟩], ?_, ?_⟩
      · simp only [hfailure]
      · simpa only [hfailure] using .stopped hfailure
    | none =>
      obtain rfl := Launch.failure?_eq_none_iff.mp hfailure
      obtain ⟨calls, hrest, hserved⟩ :=
        ih next (before ++ [⟨command ++ division :: batch, .exited 0⟩])
      refine ⟨⟨command ++ division :: batch, .exited 0⟩ :: calls, ?_, ?_⟩
      · simp only [hfailure, hrest, List.append_assoc, List.singleton_append]
      · simpa only [hfailure] using .went hserved

namespace Served

variable {command : List String} {groups : List (List String)} {calls : List Call}
  {outcome : Except Failure (List Nat)}

/-- The runs are on the first batches. -/
theorem words_prefix (hserved : Served command groups calls outcome) :
    calls.map (·.words) <+: groups.map (command ++ division :: ·) := by
  induction hserved with
  | done => exact List.prefix_rfl
  | went _ ih => exact List.cons_prefix_cons.mpr ⟨rfl, ih⟩
  | stopped _ => exact List.cons_prefix_cons.mpr ⟨rfl, List.nil_prefix⟩

/-- Without a failure, all runs ended with code zero and there was one on each batch. -/
theorem of_ok {sizes : List Nat} (hserved : Served command groups calls (.ok sizes)) :
    (∀ call ∈ calls, call.launch = .exited 0) ∧ sizes = groups.map List.length ∧
      calls.map (·.words) = groups.map (command ++ division :: ·) := by
  generalize houtcome : Except.ok sizes = outcome at hserved
  induction hserved generalizing sizes with
  | done =>
    cases houtcome
    exact ⟨by simp, rfl, rfl⟩
  | @went batch groups calls outcome hrest ih =>
    cases outcome with
    | error failure => cases houtcome
    | ok rest =>
      cases houtcome
      obtain ⟨hexited, rfl, hwords⟩ := ih rfl
      exact ⟨List.forall_mem_cons.mpr ⟨rfl, hexited⟩, rfl, congrArg _ hwords⟩
  | stopped _ => cases houtcome

/-- A failure comes from the last run, and the runs before that one ended with code zero. -/
theorem of_error {failure : Failure} (hserved : Served command groups calls (.error failure)) :
    ∃ earlier last, calls = earlier ++ [last] ∧ (∀ call ∈ earlier, call.launch = .exited 0) ∧
      last.launch.failure? command = some failure := by
  generalize houtcome : Except.error failure = outcome at hserved
  induction hserved with
  | done => cases houtcome
  | @went batch groups calls outcome hrest ih =>
    cases outcome with
    | ok rest => cases houtcome
    | error cause =>
      cases houtcome
      obtain ⟨earlier, last, rfl, hexited, hlast⟩ := ih rfl
      exact ⟨_ :: earlier, last, rfl, List.forall_mem_cons.mpr ⟨rfl, hexited⟩, hlast⟩
  | stopped hlaunch =>
    cases houtcome
    exact ⟨[], _, rfl, by simp, hlaunch⟩

end Served

/-! ### All files -/

/-- The files that a run of a command was given. -/
def Call.files (command : List String) (call : Call) : List String :=
  call.words.drop (command.length + 1)

theorem Call.files_of_words {command batch : List String} {call : Call}
    (hwords : call.words = command ++ division :: batch) : call.files command = batch := by
  rw [files, hwords, ← List.drop_drop, List.drop_left]
  rfl

/-- The runs of a command on files in batches of at most `size`, and what they gave. Each run is on the
slice of the files with its number. If all runs ended with code zero, they were given all files in
order, and the sizes are those of the slices; otherwise the last one gives the failure and the others
ended with code zero. -/
structure IsBatchRun (command files : List String) (size : Nat) (calls : List Call)
    (outcome : Except Failure (List Nat)) : Prop where
  words : ∀ k call, calls[k]? = some call →
    call.words = command ++ ["division"] ++ sliceAt size k files ∧ sliceAt size k files ≠ []
  ok : ∀ sizes, outcome = .ok sizes → (∀ call ∈ calls, call.launch = .exited 0) ∧
    (calls.map (·.files command)).flatten = files ∧
    sizes = calls.map fun call => (call.files command).length
  error : ∀ failure, outcome = .error failure → ∃ earlier last, calls = earlier ++ [last] ∧
    (∀ call ∈ earlier, call.launch = .exited 0) ∧ last.launch.failure? command = some failure

theorem Served.isBatchRun {command files : List String} {size : Nat} {calls : List Call}
    {outcome : Except Failure (List Nat)}
    (hserved : Served command (batches size files) calls outcome) :
    IsBatchRun command files size calls outcome where
  words k call hcall := by
    obtain ⟨hlt, rfl⟩ := List.getElem?_eq_some_iff.mp hcall
    have hgroup := List.prefix_iff_getElem?.mp hserved.words_prefix k (by simpa using hlt)
    rw [List.getElem?_map, List.getElem_map, Option.map_eq_some_iff] at hgroup
    obtain ⟨batch, hbatch, hwords⟩ := hgroup
    obtain ⟨rfl, hne⟩ := eq_sliceAt_of_getElem? hbatch
    refine ⟨?_, hne⟩
    rw [← hwords, List.append_assoc]
    rfl
  ok := by
    rintro sizes rfl
    obtain ⟨hexited, rfl, hwords⟩ := hserved.of_ok
    have hfiles : calls.map (·.files command) = batches size files := by
      have hdropped := congrArg (List.map (List.drop (command.length + 1))) hwords
      rw [List.map_map, List.map_map] at hdropped
      refine hdropped.trans ((List.map_congr_left fun batch _ => ?_).trans (List.map_id _))
      exact @Call.files_of_words command batch ⟨_, .exited 0⟩ rfl
    refine ⟨hexited, by rw [hfiles, flatten_batches], ?_⟩
    rw [← hfiles, List.map_map]
    rfl
  error := by
    rintro failure rfl
    exact hserved.of_error

/-- Running a command on files in batches makes the runs on their consecutive slices, in order and up to
the first one that does not end with code zero. -/
theorem runBatches_recording (runner : Runner σ) (command files : List String) (size : Nat)
    (world : World σ) :
    ∃ calls, runBatches (recording runner) command files size (world.recorded []) =
        ((runBatches runner command files size world).1,
          (runBatches runner command files size world).2.recorded calls) ∧
      IsBatchRun command files size calls (runBatches runner command files size world).1 := by
  obtain ⟨calls, hrun, hserved⟩ := runEach_recording runner command (batches size files) world []
  exact ⟨calls, hrun, hserved.isBatchRun⟩

end StyleMigration.Command
