import StyleMigration.Migration

/-!
Reasoning about the steps of a migration. A step is performed in a state and gives an outcome and
the next state; what it did before a failure stays done. Two kinds of statements are made: what holds
between the states around a step however it ends (`Keeps`), and what a step did that did not fail
(`Yields`) or that failed (`Fails`). They go through a row of steps one by one: a row fails with its
first item that does (`fails_mapM`).
-/

set_option autoImplicit false

namespace StyleMigration.Migration

open Command Component

variable {σ α β ι : Type} {failure : Failure}

/-- The outcome of a step in a state, and the state it ends in. -/
def perform (step : Step σ α) (state : State σ) : Except Failure α × State σ :=
  step.run.run state

theorem perform_pure (result : α) (state : State σ) :
    perform (pure result) state = (.ok result, state) :=
  rfl

theorem perform_bind (step : Step σ α) (next : α → Step σ β) (state : State σ) :
    perform (step >>= next) state =
      match perform step state with
      | (.ok result, state) => perform (next result) state
      | (.error failure, state) => (.error failure, state) := by
  unfold perform ExceptT.run StateT.run
  simp only [bind, ExceptT.bind, ExceptT.mk, StateT.bind, ExceptT.bindCont]
  rcases step state with ⟨_ | _, _⟩ <;> rfl

theorem perform_onTree (act : FileTree → Except Failure (α × FileTree)) (state : State σ) :
    perform (onTree act) state =
      match act state.world.tree with
      | .ok (result, tree) => (.ok result, state.setTree tree)
      | .error failure => (.error failure, state) := by
  change perform (get >>= _) state = _
  rw [perform_bind]
  change perform _ state = _
  cases act state.world.tree <;> rfl

theorem perform_findFiles (root : String) (extensions : List String) (state : State σ) :
    perform (findFiles root extensions) state =
      (state.world.tree.findFiles root extensions, state) := by
  change perform (get >>= _) state = _
  rw [perform_bind]
  change perform _ state = _
  cases state.world.tree.findFiles root extensions <;> rfl

theorem perform_stageComponent (path : String) (state : State σ) :
    perform (stageComponent path) state =
      let result := stage state.world.tree path
      (match result.stopped with
        | some failure => .error failure
        | none => .ok result.recorded.chunks.length,
      { state.setTree result.tree with staged := state.staged ++ [result.recorded] }) := by
  change perform (get >>= _) state = _
  rw [perform_bind]
  change perform (set _ >>= _) state = _
  rw [perform_bind]
  change perform _ _ = _
  rcases stage state.world.tree path with ⟨tree, recorded, _ | failure⟩ <;> rfl

theorem perform_divide (settings : Settings) (runner : Runner σ) (paths : List String)
    (state : State σ) :
    perform (divide settings runner paths) state =
      let result := runBatches runner settings.command paths settings.batchSize state.world
      (result.1, { state with world := result.2 }) := by
  change perform (get >>= _) state = _
  rw [perform_bind]
  change perform (set _ >>= _) state = _
  rw [perform_bind]
  change perform _ _ = _
  unfold runBatches
  rcases runEach runner settings.command state.world (batches settings.batchSize paths) with
    ⟨_ | _, world⟩ <;> rfl

/-- However a step ends, the states around it are related. -/
def Keeps (relation : State σ → State σ → Prop) (step : Step σ α) : Prop :=
  ∀ state, relation state (perform step state).2

section Keeps

variable {relation : State σ → State σ → Prop}

theorem keeps_pure (hrefl : ∀ state, relation state state) (result : α) :
    Keeps relation (pure result : Step σ α) :=
  fun state => hrefl state

/-- What all continuations of a step keep holds between its own end and theirs. -/
theorem perform_bind_of_keeps (hrefl : ∀ state, relation state state) {next : α → Step σ β}
    (hnext : ∀ result, Keeps relation (next result)) (step : Step σ α) (state : State σ) :
    relation (perform step state).2 (perform (step >>= next) state).2 := by
  rw [perform_bind]
  rcases perform step state with ⟨failure | result, between⟩
  · exact hrefl between
  · exact hnext result between

theorem Keeps.bind (htrans : ∀ first second third, relation first second →
      relation second third → relation first third) {step : Step σ α} {next : α → Step σ β}
    (hstep : Keeps relation step) (hnext : ∀ result, Keeps relation (next result)) :
    Keeps relation (step >>= next) := by
  intro state
  rw [perform_bind]
  have hfirst := hstep state
  rcases hperform : perform step state with ⟨failure | result, between⟩
  · rw [hperform] at hfirst
    exact hfirst
  · rw [hperform] at hfirst
    exact htrans _ _ _ hfirst (hnext result between)

theorem keeps_mapM (hrefl : ∀ state, relation state state)
    (htrans : ∀ first second third, relation first second → relation second third →
      relation first third) {act : ι → Step σ α} {items : List ι}
    (hact : ∀ item ∈ items, Keeps relation (act item)) : Keeps relation (items.mapM act) := by
  induction items with
  | nil => exact keeps_pure hrefl _
  | cons item items ih =>
    rw [List.forall_mem_cons] at hact
    rw [List.mapM_cons]
    exact .bind htrans hact.1 fun _ => .bind htrans (ih hact.2) fun _ => keeps_pure hrefl _

end Keeps

/-- A step does not fail, gives a result and leads to a state. -/
def Yields (step : Step σ α) (state : State σ) (result : α) (next : State σ) : Prop :=
  perform step state = (.ok result, next)

theorem yields_pure {result other : α} {state next : State σ} :
    Yields (pure result) state other next ↔ other = result ∧ next = state := by
  rw [Yields, perform_pure, Prod.mk.injEq, Except.ok.injEq, eq_comm, @eq_comm _ state]

theorem yields_bind {step : Step σ α} {then_ : α → Step σ β} {state next : State σ} {result : β} :
    Yields (step >>= then_) state result next ↔
      ∃ first between, Yields step state first between ∧ Yields (then_ first) between result next := by
  unfold Yields
  rw [perform_bind]
  constructor
  · intro hyields
    rcases hperform : perform step state with ⟨failure | first, between⟩
    · rw [hperform] at hyields
      cases hyields
    · rw [hperform] at hyields
      exact ⟨first, between, rfl, hyields⟩
  · rintro ⟨first, between, hfirst, hsecond⟩
    rw [hfirst]
    exact hsecond

theorem yields_mapM_cons {act : ι → Step σ α} {item : ι} {items : List ι} {state next : State σ}
    {results : List α} :
    Yields ((item :: items).mapM act) state results next ↔
      ∃ result between rest, Yields (act item) state result between ∧
        Yields (items.mapM act) between rest next ∧ results = result :: rest := by
  rw [List.mapM_cons, yields_bind]
  constructor
  · rintro ⟨result, between, hfirst, hrest⟩
    rw [yields_bind] at hrest
    obtain ⟨rest, last, hrest, hpure⟩ := hrest
    obtain ⟨rfl, rfl⟩ := yields_pure.mp hpure
    exact ⟨result, between, rest, hfirst, hrest, rfl⟩
  · rintro ⟨result, between, rest, hfirst, hrest, rfl⟩
    exact ⟨result, between, hfirst, yields_bind.mpr ⟨rest, next, hrest, yields_pure.mpr ⟨rfl, rfl⟩⟩⟩

theorem yields_findFiles {root : String} {extensions paths : List String} {state next : State σ} :
    Yields (findFiles root extensions) state paths next ↔
      state.world.tree.findFiles root extensions = .ok paths ∧ next = state := by
  rw [Yields, perform_findFiles, Prod.mk.injEq, @eq_comm _ state]

/-- The steps of a migration that does not fail, one by one. -/
theorem yields_steps {settings : Settings} {root : String} {runner : Runner σ}
    {state next : State σ} {report : Report}
    (hyields : Yields (steps settings root runner) state report next) :
    ∃ components chunks staged stylesheets changedStylesheets migrated batches divided
      changedComponents,
      state.world.tree.findFiles root [settings.componentExtension] = .ok components ∧
      Yields (components.mapM stageComponent) state chunks staged ∧
      staged.world.tree.findFiles root settings.stylesheetExtensions = .ok stylesheets ∧
      Yields (stylesheets.mapM fun path => onTree fun tree => Sheet.migrateFile tree path) staged
        changedStylesheets migrated ∧
      Yields (if settings.runDivision then divide settings runner stylesheets else pure []) migrated
        batches divided ∧
      Yields (divided.staged.mapM fun staged => onTree staged.writeBack) divided changedComponents
        next ∧
      report = {
        components := components.length
        chunks := chunks.sum
        stylesheets := stylesheets.length
        changedStylesheets := changedStylesheets.count true
        batches
        changedComponents := changedComponents.count true } := by
  obtain ⟨components, _, hsearch, hrest₁⟩ := yields_bind.mp hyields
  obtain ⟨hcomponents, rfl⟩ := yields_findFiles.mp hsearch
  obtain ⟨chunks, staged, hstaged, hrest₂⟩ := yields_bind.mp hrest₁
  obtain ⟨stylesheets, _, hsearch', hrest₃⟩ := yields_bind.mp hrest₂
  obtain ⟨hstylesheets, rfl⟩ := yields_findFiles.mp hsearch'
  obtain ⟨changedStylesheets, migrated, hmigrated, hrest₄⟩ := yields_bind.mp hrest₃
  obtain ⟨batches, divided, hdivided, hrest₅⟩ := yields_bind.mp hrest₄
  obtain ⟨_, _, hget, hrest₆⟩ := yields_bind.mp hrest₅
  cases hget
  obtain ⟨changedComponents, _, hback, hpure⟩ := yields_bind.mp hrest₆
  obtain ⟨hreport, rfl⟩ := yields_pure.mp hpure
  exact ⟨components, chunks, _, stylesheets, changedStylesheets, migrated, batches, _,
    changedComponents, hcomponents, hstaged, hstylesheets, hmigrated, hdivided, hback, hreport⟩

/-- A step fails and leads to a state. -/
def Fails (step : Step σ α) (state : State σ) (failure : Failure) (next : State σ) : Prop :=
  perform step state = (.error failure, next)

theorem fails_bind {step : Step σ α} {then_ : α → Step σ β} {state next : State σ} :
    Fails (step >>= then_) state failure next ↔
      Fails step state failure next ∨
        ∃ first between, Yields step state first between ∧
          Fails (then_ first) between failure next := by
  unfold Fails Yields
  rw [perform_bind]
  rcases perform step state with ⟨_ | result, after⟩
  · simp
  · constructor
    · exact fun hfails => .inr ⟨result, after, rfl, hfails⟩
    · rintro (hfails | ⟨_, _, hyields, hfails⟩)
      · cases hfails
      · cases hyields
        exact hfails

theorem not_fails_pure {result : α} {state next : State σ} :
    ¬ Fails (pure result) state failure next := by
  rw [Fails, perform_pure]
  exact nofun

theorem fails_findFiles {root : String} {extensions : List String} {state next : State σ} :
    Fails (findFiles root extensions) state failure next ↔
      state.world.tree.findFiles root extensions = .error failure ∧ next = state := by
  rw [Fails, perform_findFiles, Prod.mk.injEq, @eq_comm _ state]

/-- A step on the files that fails does nothing. -/
theorem fails_onTree {act : FileTree → Except Failure (α × FileTree)} {state next : State σ} :
    Fails (onTree act) state failure next ↔
      act state.world.tree = .error failure ∧ next = state := by
  rw [Fails, perform_onTree]
  rcases act state.world.tree with _ | ⟨result, tree⟩ <;> simp [eq_comm]

/-- A row of steps fails with its first item that does, and does not go on. -/
theorem fails_mapM {act : ι → Step σ α} {items : List ι} {state next : State σ}
    (hfails : Fails (items.mapM act) state failure next) :
    ∃ done item rest results between, items = done ++ item :: rest ∧
      Yields (done.mapM act) state results between ∧ Fails (act item) between failure next := by
  induction items generalizing state with
  | nil => exact absurd hfails not_fails_pure
  | cons item items ih =>
    rw [List.mapM_cons] at hfails
    rcases fails_bind.mp hfails with hfirst | ⟨result, between, hresult, hrest⟩
    · exact ⟨[], item, items, [], state, rfl, yields_pure.mpr ⟨rfl, rfl⟩, hfirst⟩
    rcases fails_bind.mp hrest with hlater | ⟨results, last, -, hpure⟩
    · obtain ⟨done, other, rest, results, between', rfl, hdone, hother⟩ := ih hlater
      exact ⟨item :: done, other, rest, result :: results, between', rfl,
        yields_mapM_cons.mpr ⟨result, between, results, hresult, hdone, rfl⟩, hother⟩
    · exact absurd hpure not_fails_pure

/-- A migration performs its steps and cleans up after them. -/
theorem migrate_eq (settings : Settings) (root : String) (runner : Runner σ) (state : State σ) :
    migrate settings root runner state =
      let pipeline := perform (steps settings root runner) { state with staged := [] }
      let cleaned := cleanUp pipeline.2
      (match pipeline.1 with
        | .error failure => .error failure
        | .ok report => if cleaned.1 = [] then .ok report else .error (.leftover cleaned.1),
      cleaned.2) := by
  unfold migrate perform
  rcases (steps settings root runner).run.run { state with staged := [] } with ⟨_ | report, after⟩
  · rfl
  · simp only [List.isEmpty_iff]

end StyleMigration.Migration
