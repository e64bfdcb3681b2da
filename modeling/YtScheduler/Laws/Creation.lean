import YtScheduler.Laws.Progress

/-! The TaskRuns a DagRun still needs. `_init_task_runs_for_run` looks for TaskRuns whose
own `run_id` is that of the DagRun, so it creates what is missing only where these are
the TaskRuns of the DagRun, for the engine that reads its query. -/

namespace YtScheduler

open Threads

/-- The DagRun has a TaskRun for the task. -/
abbrev Materialized (db : Db) (run : DagRunRow) (taskId : String) : Prop :=
  ∃ r ∈ db.taskRuns, r.dagrunId = run.runId ∧ r.taskId = taskId

/-- A TaskRun for the task that the query of `_init_task_runs_for_run` selects. -/
abbrev Looked (engine : Engine) (db : Db) (run : DagRunRow) (dag : Dag) (taskId : String) : Prop :=
  ∃ r ∈ (DagRun.existingFilter run dag).select engine db, r.taskId = taskId

/-- With plain task ids it carries the run id of the DagRun as its own. -/
theorem looked_iff_of_plain {engine : Engine} {db : Db} {run : DagRunRow} {dag : Dag} {taskId : String}
    (hplain : dag.Plain) (hid : taskId ∈ dag.taskIds) : Looked engine db run dag taskId ↔
      ∃ r ∈ db.taskRuns, r.runId = run.runId ∧ r.dagId = run.dagId ∧ r.taskId = taskId := by
  simp only [Looked, DagRun.mem_existing_of_plain hplain]
  constructor
  · rintro ⟨r, ⟨hr, hrun, hdag, _⟩, rfl⟩
    exact ⟨r, hr, hrun, hdag, rfl⟩
  · rintro ⟨r, hr, hrun, hdag, rfl⟩
    exact ⟨r, ⟨hr, hrun, hdag, hid⟩, rfl⟩

/-- The state a TaskRun is created in. -/
def Task.initialState (t : Task) : TaskRunState :=
  if t.upstreamTaskIds = [] then .queued else .scheduled

/-- One new TaskRun, in its initial state and under an unused run id, for each task without one, and
no others. -/
structure Completes (s : Shared) (db : Db) (run : DagRunRow) (dag : Dag) (rows : List TaskRunRow) :
    Prop where
  once : ∀ t ∈ dag.tasks, (rows.map TaskRunRow.taskId).count t.taskId =
    if Materialized db run t.taskId then 0 else 1
  made : ∀ r ∈ rows, ∃ t ∈ dag.tasks, r = DagRun.newTaskRun run.runId t t.initialState r.runId
  unused : (rows.map TaskRunRow.runId).Nodup ∧ ∀ r ∈ rows, s.uuids ≤ r.runId

namespace DagRun

section Created

variable {dagrunId : Uuid} {state : TaskRunState} {n : ℕ} {tasks : List Task} {r : TaskRunRow}

theorem map_taskId_created :
    (created dagrunId state n tasks).map TaskRunRow.taskId = tasks.map Task.taskId := by
  induction tasks generalizing n with
  | nil => rfl
  | cons t ts ih =>
    rw [created, List.map_cons, ih, List.map_cons]
    rfl

theorem map_runId_created :
    (created dagrunId state n tasks).map TaskRunRow.runId = List.range' n tasks.length := by
  induction tasks generalizing n with
  | nil => rfl
  | cons t ts ih =>
    rw [created, List.map_cons, ih, List.length_cons, List.range'_succ]
    rfl

theorem exists_of_mem_created (h : r ∈ created dagrunId state n tasks) :
    ∃ t ∈ tasks, r = newTaskRun dagrunId t state r.runId := by
  induction tasks generalizing n with
  | nil => cases h
  | cons t ts ih =>
    rcases List.mem_cons.mp h with rfl | h
    · exact ⟨t, List.mem_cons_self, rfl⟩
    · obtain ⟨t', ht', hr⟩ := ih h
      exact ⟨t', List.mem_cons_of_mem t ht', hr⟩

end Created

variable {dag : Dag} {existing : List TaskRunObj} {t : Task}

theorem mem_roots : t ∈ dag.roots ↔ t ∈ dag.tasks ∧ t.upstreamTaskIds = [] := by
  rw [Dag.roots, List.mem_filter, decide_eq_true_eq]

/-- The tasks to create are those of no existing TaskRun, the roots first. -/
theorem tasksToCreate_perm (dag : Dag) (existing : List TaskRunObj) :
    ((tasksToCreate dag existing).1 ++ (tasksToCreate dag existing).2).Perm
      (dag.tasks.filter fun t => t.taskId ∉ existing.map (·.row.taskId)) := by
  have hperm := List.filter_append_perm (fun t => decide (t ∈ dag.roots))
    (dag.tasks.filter fun t => t.taskId ∉ existing.map (·.row.taskId))
  simpa [tasksToCreate] using hperm

theorem mem_tasksToCreate_roots (h : t ∈ (tasksToCreate dag existing).1) :
    t ∈ dag.tasks ∧ t.initialState = .queued := by
  simp only [tasksToCreate, List.mem_filter, decide_eq_true_eq] at h
  obtain ⟨ht, hup⟩ := mem_roots.mp h.2
  exact ⟨ht, if_pos hup⟩

theorem mem_tasksToCreate_others (h : t ∈ (tasksToCreate dag existing).2) :
    t ∈ dag.tasks ∧ t.initialState = .scheduled := by
  simp only [tasksToCreate, List.mem_filter, decide_eq_true_eq] at h
  exact ⟨h.1.1, if_neg fun hup => h.2 (mem_roots.mpr ⟨h.1.1, hup⟩)⟩

/-- What is created for the tasks of no existing TaskRun. -/
def missing (dag : Dag) (existing : List TaskRunObj) (dagrunId : Uuid) (n : ℕ) : List TaskRunRow :=
  created dagrunId .queued n (tasksToCreate dag existing).1 ++
    created dagrunId .scheduled (n + (tasksToCreate dag existing).1.length)
      (tasksToCreate dag existing).2

variable {dagrunId : Uuid} {n : ℕ}

/-- A task gets one TaskRun if it has no existing one. -/
theorem count_missing (ht : t ∈ dag.tasks) :
    ((missing dag existing dagrunId n).map TaskRunRow.taskId).count t.taskId =
      if ∃ tr ∈ existing, tr.row.taskId = t.taskId then 0 else 1 := by
  have hperm := (tasksToCreate_perm dag existing).map Task.taskId
  have hnodup := (List.filter_sublist
    (p := fun t : Task => t.taskId ∉ existing.map (·.row.taskId)).map Task.taskId).nodup dag.nodup
  rw [missing, List.map_append, map_taskId_created, map_taskId_created, ← List.map_append,
    hperm.count_eq, hnodup.count]
  have hmem : t.taskId ∈ (dag.tasks.filter fun t => t.taskId ∉ existing.map (·.row.taskId)).map
      Task.taskId ↔ ¬∃ tr ∈ existing, tr.row.taskId = t.taskId := by
    simp only [List.mem_map, List.mem_filter, decide_eq_true_eq]
    constructor
    · rintro ⟨t', ⟨_, hnew⟩, hid⟩
      rwa [hid] at hnew
    · intro hnew
      exact ⟨t, ⟨ht, hnew⟩, rfl⟩
  rw [if_congr hmem rfl rfl, ite_not]

theorem exists_of_mem_missing {r : TaskRunRow} (h : r ∈ missing dag existing dagrunId n) :
    ∃ t ∈ dag.tasks, r = newTaskRun dagrunId t t.initialState r.runId := by
  rcases List.mem_append.mp h with h | h
  · obtain ⟨t, ht, hr⟩ := exists_of_mem_created h
    obtain ⟨hdag, hstate⟩ := mem_tasksToCreate_roots ht
    exact ⟨t, hdag, by rwa [hstate]⟩
  · obtain ⟨t, ht, hr⟩ := exists_of_mem_created h
    obtain ⟨hdag, hstate⟩ := mem_tasksToCreate_others ht
    exact ⟨t, hdag, by rwa [hstate]⟩

/-- The run ids are consecutive. -/
theorem map_runId_missing : (missing dag existing dagrunId n).map TaskRunRow.runId =
    List.range' n ((tasksToCreate dag existing).1.length + (tasksToCreate dag existing).2.length) := by
  rw [missing, List.map_append, map_runId_created, map_runId_created, List.range'_append_1]

variable {s : Shared} {i : ℕ} {run : DagRunRow}

/-- What is missing is created exactly where the query selects the TaskRuns of the DagRun. -/
theorem completes_iff : Completes s (s.reads i) run dag (missing dag (found s i run dag) run.runId s.uuids) ↔
    ∀ t ∈ dag.tasks, Materialized (s.reads i) run t.taskId ↔
      Looked s.engine (s.reads i) run dag t.taskId := by
  have hfound : ∀ id, (∃ tr ∈ found s i run dag, tr.row.taskId = id) ↔
      Looked s.engine (s.reads i) run dag id := by
    intro id
    have hrows : (found s i run dag).map (·.row) = (existingFilter run dag).select s.engine (s.reads i) :=
      TaskRun.map_row_objects s _
    rw [Looked, ← hrows]
    simp
  have hcount : ∀ t ∈ dag.tasks, ((missing dag (found s i run dag) run.runId s.uuids).map
      TaskRunRow.taskId).count t.taskId =
        if Looked s.engine (s.reads i) run dag t.taskId then 0 else 1 := by
    intro t ht
    rw [count_missing ht]
    exact if_congr (hfound t.taskId) rfl rfl
  constructor
  · intro h t ht
    have honce := h.once t ht
    rw [hcount t ht] at honce
    split_ifs at honce with hlooked hhas
    · exact iff_of_true hhas hlooked
    · exact iff_of_false ‹_› hlooked
  · intro h
    refine ⟨fun t ht => ?_, fun r hr => exists_of_mem_missing hr, ?_, fun r hr => ?_⟩
    · rw [hcount t ht]
      exact if_congr (h t ht).symm rfl rfl
    · rw [map_runId_missing]
      exact List.nodup_range'
    · have hid := List.mem_map_of_mem (f := TaskRunRow.runId) hr
      rw [map_runId_missing] at hid
      exact (List.mem_range'_1.mp hid).1

end DagRun

/-- `_init_task_runs_for_run` completes the TaskRuns of a DagRun exactly if the engine can read its
query and, task by task, the DagRun has a TaskRun where the query selects one. -/
theorem init_completes_iff {s : Shared} {i : ℕ} {self : Ref} {run : DagRunRow} {dag : Dag}
    (hself : s.mem.dagRuns[self]? = some run) :
    (∃ rows s', Yields i (DagRun.initTaskRunsForRun self dag) s rows s' ∧
      Completes s (s.reads i) run dag rows) ↔
    ((DagRun.existingFilter run dag).read s.engine).isSome = true ∧
      ∀ t ∈ dag.tasks, Materialized (s.reads i) run t.taskId ↔
        Looked s.engine (s.reads i) run dag t.taskId := by
  cases hread : (DagRun.existingFilter run dag).read s.engine with
  | none =>
    have hraises := DagRun.initTaskRunsForRun_raises (i := i) hself hread
    refine iff_of_false ?_ (by simp)
    rintro ⟨rows, s', hinit, _⟩
    exact hraises.not_yields hinit
  | some test =>
    obtain ⟨s', hmissing, _⟩ := DagRun.yields_initTaskRunsForRun (i := i) hself
      (by rw [hread]; rfl : ((DagRun.existingFilter run dag).read s.engine).isSome = true)
    rw [Option.isSome_some, eq_self, true_and, ← DagRun.completes_iff]
    constructor
    · rintro ⟨rows, s'', hinit, hcompletes⟩
      rwa [(hinit.unique hmissing).1] at hcompletes
    · exact fun hcompletes => ⟨_, s', hmissing, hcompletes⟩

/-- The DagRun of `halfway`. -/
def firstRun : DagRunRow := { runId := 1, dagId := 0, state := .running }

theorem halfway_completes_iff :
    (∃ rows s', Yields 0 (DagRun.initTaskRunsForRun 0 chain) halfway rows s' ∧
      Completes halfway (halfway.reads 0) firstRun chain rows) ↔
    ((DagRun.existingFilter firstRun chain).read halfway.engine).isSome = true ∧
      ∀ t ∈ chain.tasks, Materialized (halfway.reads 0) firstRun t.taskId ↔
        Looked halfway.engine (halfway.reads 0) firstRun chain t.taskId :=
  init_completes_iff rfl

/-- A DagRun that has both its TaskRuns gets two more. -/
theorem halfway_not_completed :
    ¬∃ rows s', Yields 0 (DagRun.initTaskRunsForRun 0 chain) halfway rows s' ∧
      Completes halfway (halfway.reads 0) firstRun chain rows := by
  rintro ⟨rows, s', hinit, hcompletes⟩
  obtain ⟨s'', hmissing, _⟩ := DagRun.yields_initTaskRunsForRun (i := 0)
    (show halfway.mem.dagRuns[0]? = some firstRun from rfl)
    (DagRun.readable_existingFilter plain_chain (by decide))
  rw [(hinit.unique hmissing).1] at hcompletes
  have hlooked := DagRun.completes_iff.mp hcompletes _ (List.mem_cons_self)
  rw [looked_iff_of_plain plain_chain (by decide)] at hlooked
  revert hlooked
  decide

end YtScheduler
