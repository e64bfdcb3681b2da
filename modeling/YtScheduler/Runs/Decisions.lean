import YtScheduler.Runs.Update
import YtScheduler.Store.Plain

/-! What a pass over one DagRun decides from its TaskRuns: which of them are ready,
which state the DagRun takes, and which TaskRuns it skips. -/

namespace YtScheduler

/-- A TaskRun object and the row it was built from. -/
structure TaskRunObj where
  ref : Ref
  row : TaskRunRow

/-- A DagRun object and the row it was built from. -/
structure DagRunObj where
  ref : Ref
  row : DagRunRow

namespace DagRun

/-! ### TaskRuns by the tasks of a DAG -/

/-- The filters of `trs_scheduling_decisions`. -/
def trsFilter (run : DagRunRow) (dag : Dag) : TaskRunFilter :=
  { dagrunId := some (.eq run.runId), dagId := some (.eq run.dagId), taskId := some (.mem dag.taskIds) }

/-- The filters by which `_init_task_runs_for_run` looks for existing TaskRuns. They ask for
TaskRuns that carry the run id of the DagRun. -/
def existingFilter (run : DagRunRow) (dag : Dag) : TaskRunFilter :=
  { runId := some (.eq run.runId), dagId := some (.eq run.dagId), taskId := some (.mem dag.taskIds) }

theorem trsFilter_congr {run run' : DagRunRow} (h : run.ident = run'.ident) (dag : Dag) :
    trsFilter run dag = trsFilter run' dag := by
  simp only [DagRunRow.ident, DagRunIdent.mk.injEq] at h
  rw [trsFilter, trsFilter, h.1, h.2]

/-- The rows that `update_state` decides from. -/
def readTrs (engine : Engine) (db : Db) (run : DagRunRow) (dag : Dag) : List TaskRunRow :=
  (trsFilter run dag).select engine db

/-- The TaskRuns of a DagRun for the tasks of a DAG. -/
def taskRuns (db : Db) (run : DagRunRow) (dag : Dag) : List TaskRunRow :=
  db.taskRuns.filter fun r =>
    r.dagrunId = run.runId ∧ r.dagId = run.dagId ∧ r.taskId ∈ dag.taskIds

theorem mem_taskRuns {db : Db} {run : DagRunRow} {dag : Dag} {r : TaskRunRow} :
    r ∈ taskRuns db run dag ↔
      db.taskRun r.runId = some r ∧ r.dagrunId = run.runId ∧ r.dagId = run.dagId ∧ r.taskId ∈ dag.taskIds := by
  rw [taskRuns, List.mem_filter, decide_eq_true_eq, Db.mem_taskRuns]

section Plain

variable {engine : Engine} {run : DagRunRow} {dag : Dag}

theorem plain_elems (h : dag.Plain) : ∀ f ∈ some (FilterValue.mem dag.taskIds), ∀ taskId ∈ f.elems,
    Filters.IsPlain taskId.toList := by
  rintro f ⟨⟩
  exact h

theorem filled_trsFilter (run : DagRunRow) (dag : Dag) : (trsFilter run dag).Filled where
  runId _ hf := by cases hf
  dagId := by simp [trsFilter, FilterValue.Filled, FilterValue.elems]
  dagrunId := by simp [trsFilter, FilterValue.Filled, FilterValue.elems]
  state _ hf := by cases hf
  operationId := rfl

theorem filled_existingFilter (run : DagRunRow) (dag : Dag) : (existingFilter run dag).Filled where
  runId := by simp [existingFilter, FilterValue.Filled, FilterValue.elems]
  dagId := by simp [existingFilter, FilterValue.Filled, FilterValue.elems]
  dagrunId _ hf := by cases hf
  state _ hf := by cases hf
  operationId := rfl

theorem filled_taskIds (hne : dag.tasks ≠ []) : ∀ f ∈ some (FilterValue.mem dag.taskIds), f.Filled := by
  rintro f ⟨⟩
  exact fun hnil => hne (List.map_eq_nil_iff.mp hnil)

theorem read_trsFilter (h : dag.Plain) (hne : dag.tasks ≠ []) :
    (trsFilter run dag).read engine = some (trsFilter run dag).agrees :=
  (filled_trsFilter run dag).read_of_plain (filled_taskIds hne) (plain_elems h)

theorem read_existingFilter (h : dag.Plain) (hne : dag.tasks ≠ []) :
    (existingFilter run dag).read engine = some (existingFilter run dag).agrees :=
  (filled_existingFilter run dag).read_of_plain (filled_taskIds hne) (plain_elems h)

theorem taskIds_eq_nil (hnil : dag.tasks = []) :
    some (FilterValue.mem dag.taskIds) = some (.mem []) := by
  rw [Dag.taskIds, hnil]
  rfl

theorem read_trsFilter_of_nil (hnil : dag.tasks = []) : (trsFilter run dag).read engine = none :=
  (filled_trsFilter run dag).read_of_empty (taskIds_eq_nil hnil)

theorem read_existingFilter_of_nil (hnil : dag.tasks = []) :
    (existingFilter run dag).read engine = none :=
  (filled_existingFilter run dag).read_of_empty (taskIds_eq_nil hnil)

theorem readable_trsFilter (h : dag.Plain) (hne : dag.tasks ≠ []) :
    ((trsFilter run dag).read engine).isSome = true := by
  rw [read_trsFilter h hne]
  rfl

theorem readable_existingFilter (h : dag.Plain) (hne : dag.tasks ≠ []) :
    ((existingFilter run dag).read engine).isSome = true := by
  rw [read_existingFilter h hne]
  rfl

/-- With plain task ids `trs_scheduling_decisions` reads the TaskRuns of the run. -/
theorem readTrs_of_plain (h : dag.Plain) (db : Db) : readTrs engine db run dag = taskRuns db run dag := by
  show db.taskRuns.filter ((trsFilter run dag).accepts engine) = _
  refine List.filter_congr fun r _ => ?_
  by_cases hnil : dag.tasks = []
  · rw [TaskRunFilter.accepts, read_trsFilter_of_nil hnil]
    simp [Dag.taskIds, hnil]
  · rw [TaskRunFilter.accepts, read_trsFilter h hnil]
    rw [Bool.eq_iff_iff]
    simp only [Option.any_some, TaskRunFilter.agrees, trsFilter, Bool.and_eq_true,
      FilterValue.acceptsOpt_eq, FilterValue.acceptsOpt_mem, FilterValue.acceptsOpt_none,
      Option.all_none, decide_eq_true_eq, and_true, true_and]
    tauto

/-- With plain task ids the TaskRuns that carry the run id of the DagRun are taken for existing
ones. -/
theorem mem_existing_of_plain (h : dag.Plain) {db : Db} {r : TaskRunRow} :
    r ∈ (existingFilter run dag).select engine db ↔
      r ∈ db.taskRuns ∧ r.runId = run.runId ∧ r.dagId = run.dagId ∧ r.taskId ∈ dag.taskIds := by
  show r ∈ db.taskRuns.filter ((existingFilter run dag).accepts engine) ↔ _
  rw [List.mem_filter]
  by_cases hnil : dag.tasks = []
  · rw [TaskRunFilter.accepts, read_existingFilter_of_nil hnil]
    simp [Dag.taskIds, hnil]
  · rw [TaskRunFilter.accepts, read_existingFilter h hnil]
    simp only [Option.any_some, TaskRunFilter.agrees, existingFilter, Bool.and_eq_true,
      FilterValue.acceptsOpt_eq, FilterValue.acceptsOpt_mem, FilterValue.acceptsOpt_none,
      Option.all_none, and_true]
    tauto

end Plain

/-! ### Decisions -/

/-- The task ids of `finished_trs`, and the upstream ids of a TaskRun's task; a task
the DAG does not know has none. -/
def upstream (dag : Dag) (taskId : String) : List String :=
  ((dag.task? taskId).map Task.upstreamTaskIds).getD []

def unfinishedTrs (trs : List TaskRunObj) : List TaskRunObj :=
  trs.filter fun tr => tr.row.state ∈ TaskRunState.unfinishedStates

def finishedTrs (trs : List TaskRunObj) : List TaskRunObj :=
  trs.filter fun tr => tr.row.state ∈ TaskRunState.finishedStates

/-- `_get_ready_trs`. -/
def getReadyTrs (dag : Dag) (schedulable finished : List TaskRunObj) : List TaskRunObj :=
  schedulable.filter fun tr =>
    (upstream dag tr.row.taskId).all fun u => u ∈ finished.map (·.row.taskId)

/-- The `schedulable_trs` of `trs_scheduling_decisions`. -/
def schedulableTrs (dag : Dag) (trs : List TaskRunObj) : List TaskRunObj :=
  getReadyTrs dag (trs.filter fun tr => tr.row.state = .scheduled) (finishedTrs trs)

def anyFailed (trs : List TaskRunObj) : Bool := trs.any fun tr => tr.row.state = .failed

theorem anyFailed_iff {trs : List TaskRunObj} :
    anyFailed trs = true ↔ ∃ r ∈ trs.map (·.row), r.state = .failed := by
  simp [anyFailed]

/-- The `run_state` of `update_state`. -/
def runState (trs : List TaskRunObj) : DagRunState :=
  if anyFailed trs then .failed
  else if (unfinishedTrs trs).isEmpty && trs.all (fun tr => tr.row.state = .success) then .success
  else .running

/-- The `skippable_trs` of `update_state`. -/
def skippableTrs (trs : List TaskRunObj) : List TaskRunObj :=
  if anyFailed trs then
    (unfinishedTrs trs).filter fun tr => tr.row.state ∈ [TaskRunState.scheduled, .queued]
  else []

/-- The `schedulable_trs` that `update_state` returns. -/
def releasedTrs (dag : Dag) (trs : List TaskRunObj) : List TaskRunObj :=
  if anyFailed trs then [] else schedulableTrs dag trs

theorem mem_skippableTrs {trs : List TaskRunObj} {tr : TaskRunObj} :
    tr ∈ skippableTrs trs ↔ anyFailed trs = true ∧ tr ∈ trs ∧
      (tr.row.state = .scheduled ∨ tr.row.state = .queued) := by
  unfold skippableTrs unfinishedTrs
  split_ifs with h
  · simp only [h, List.mem_filter, decide_eq_true_eq, List.mem_cons, List.not_mem_nil, or_false,
      true_and]
    constructor
    · rintro ⟨⟨hm, _⟩, hs⟩
      exact ⟨hm, hs⟩
    · rintro ⟨hm, hs⟩
      refine ⟨⟨hm, ?_⟩, hs⟩
      rcases hs with hs | hs <;> rw [hs] <;> decide
  · simp [h]

theorem mem_releasedTrs {dag : Dag} {trs : List TaskRunObj} {tr : TaskRunObj} :
    tr ∈ releasedTrs dag trs ↔ anyFailed trs = false ∧ tr ∈ trs ∧ tr.row.state = .scheduled ∧
      ∀ u ∈ upstream dag tr.row.taskId, ∃ up ∈ trs, up.row.taskId = u ∧
        up.row.state ∈ TaskRunState.finishedStates := by
  have hup : ∀ u, u ∈ (finishedTrs trs).map (·.row.taskId) ↔
      ∃ up ∈ trs, up.row.taskId = u ∧ up.row.state ∈ TaskRunState.finishedStates := by
    intro u
    simp only [finishedTrs, List.mem_map, List.mem_filter, decide_eq_true_eq]
    constructor
    · rintro ⟨up, ⟨hm, hs⟩, hu⟩
      exact ⟨up, hm, hu, hs⟩
    · rintro ⟨up, hm, hu, hs⟩
      exact ⟨up, ⟨hm, hs⟩, hu⟩
  unfold releasedTrs
  split_ifs with h
  · simp [h]
  · simp only [schedulableTrs, getReadyTrs, List.mem_filter, List.all_eq_true, decide_eq_true_eq,
      hup, h, true_and, and_assoc]

theorem releasedTrs_sublist (dag : Dag) (trs : List TaskRunObj) : (releasedTrs dag trs).Sublist trs := by
  unfold releasedTrs
  split_ifs
  · exact List.nil_sublist trs
  · exact List.filter_sublist.trans List.filter_sublist

theorem runState_eq_failed {trs : List TaskRunObj} :
    runState trs = .failed ↔ anyFailed trs = true := by
  unfold runState
  split_ifs <;> simp_all

theorem runState_eq_running {trs : List TaskRunObj} :
    runState trs = .running ↔ (∀ tr ∈ trs, tr.row.state ≠ .failed) ∧
      ∃ tr ∈ trs, tr.row.state ≠ .success := by
  have hu : (trs.all fun tr => tr.row.state = .success) = true →
      (unfinishedTrs trs).isEmpty = true := by
    intro h
    simp only [List.all_eq_true, decide_eq_true_eq] at h
    simp only [unfinishedTrs, List.isEmpty_iff, List.filter_eq_nil_iff, decide_eq_true_eq]
    intro tr htr
    rw [h tr htr]
    decide
  unfold runState
  split_ifs with h1 h2
  · simp only [anyFailed, List.any_eq_true, decide_eq_true_eq] at h1
    obtain ⟨tr, htr, hs⟩ := h1
    simp only [false_iff, not_and]
    exact fun h => absurd hs (h tr htr)
  · simp only [Bool.and_eq_true, List.all_eq_true, decide_eq_true_eq] at h2
    simp only [false_iff, not_and, not_exists, not_not]
    exact fun _ tr htr => h2.2 tr htr
  · simp only [anyFailed, List.any_eq_true, decide_eq_true_eq, not_exists, not_and] at h1
    simp only [true_iff]
    refine ⟨h1, ?_⟩
    by_contra hc
    push Not at hc
    have hall : (trs.all fun tr => tr.row.state = .success) = true := by simpa using hc
    exact h2 (by simp [hu hall, hall])

theorem runState_cases (trs : List TaskRunObj) :
    runState trs = .failed ∨ runState trs = .success ∨ runState trs = .running := by
  unfold runState
  split_ifs
  · exact Or.inl rfl
  · exact Or.inr (Or.inl rfl)
  · exact Or.inr (Or.inr rfl)

/-- `_init_task_runs_for_run`: the TaskRuns to create for the given tasks, roots QUEUED and
before the others, under the given run ids. -/
def tasksToCreate (dag : Dag) (existing : List TaskRunObj) : List Task × List Task :=
  let tasks := dag.tasks.filter fun t => t.taskId ∉ existing.map (·.row.taskId)
  (tasks.filter (· ∈ dag.roots), tasks.filter (· ∉ dag.roots))

/-- `TaskRun(dagrun_id=..., task=..., state=...)` with a generated run id. -/
def newTaskRun (dagrunId : Uuid) (task : Task) (state : TaskRunState) (runId : Uuid) : TaskRunRow :=
  { runId, taskId := task.taskId, dagId := task.dagId, dagrunId, state }

end DagRun

end YtScheduler
