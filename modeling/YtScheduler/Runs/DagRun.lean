import YtScheduler.Runs.TaskRun

/-! The statements of DagRuns: creating the TaskRuns of a run, deciding its state from
them, and releasing the ones that became ready. -/

namespace YtScheduler.DagRun

open P Threads

/-- `fetch_rows`: a new object for every row. -/
def fetchRows (w : DagRunFilter) : P (List DagRunObj) := do
  let rows ← call (.select none (.dagRuns w))
  let refs ← mem (.newDagRuns rows)
  pure (List.zipWith DagRunObj.mk refs rows)

/-- `YtRow.get`: the row if there is exactly one. -/
def get (runId : Uuid) : P (Option DagRunObj) := do
  match ← fetchRows { runId := some (.eq runId), limit := some 1 } with
  | [run] => pure (some run)
  | _ => pure none

/-- The selects of the scheduler, one for each state. -/
def getDagRuns (state : DagRunState) (shard : ShardingOptions) : P (List DagRunObj) :=
  fetchRows { state := some (.eq state), shard := some shard }

def setState (self : Ref) (state : DagRunState) : P Unit := do
  let base ← mem (.readDagRun self)
  let now ← utcnow
  let row := base.buildRowByState state now
  upsertRows [.dagRun row] none
  mem (.writeDagRun self row)

/-- The TaskRun objects built for tasks, with generated run ids. -/
def newTaskRuns (dagrunId : Uuid) (state : TaskRunState) : List Task → P (List TaskRunRow)
  | [] => pure []
  | t :: ts => do
    let runId ← call .generateUuid
    let rest ← newTaskRuns dagrunId state ts
    pure (newTaskRun dagrunId t state runId :: rest)

def initTaskRunsForRun (self : Ref) (dag : Dag) : P (List TaskRunRow) := do
  let run ← mem (.readDagRun self)
  let existing ← TaskRun.fetchRows (existingFilter run dag)
  let roots ← newTaskRuns run.runId .queued (tasksToCreate dag existing).1
  let others ← newTaskRuns run.runId .scheduled (tasksToCreate dag existing).2
  pure (roots ++ others)

def queueRunAtomic (self : Ref) (dag : Dag) : P Unit :=
  transaction none do
    let row ← mem (.readDagRun self)
    match ← get row.runId with
    | none => pure ()
    | some run =>
      if run.row.state ≠ .scheduled then pure ()
      else do
        let trs ← initTaskRunsForRun self dag
        unlessEmpty trs (upsertRows (trs.map .taskRun) none)
        setState self .queued

def fetchTrs (self : Ref) (dag : Dag) : P (List TaskRunObj) := do
  let run ← mem (.readDagRun self)
  TaskRun.fetchRows (trsFilter run dag)

def skipTrs (trs : List TaskRunObj) : P Unit := do
  let _ ← TaskRun.setState (trs.map fun tr => { row := .obj tr.ref, state := some .skipped })
  pure ()

def updateState (self : Ref) (dag : Dag) : P (List Uuid) :=
  transaction none do
    let trs ← fetchTrs self dag
    unlessEmpty (skippableTrs trs) (skipTrs (skippableTrs trs))
    setState self (runState trs)
    pure ((releasedTrs dag trs).map (·.row.runId))

def scheduleTrs (runId : Uuid) (tids : List Uuid) : P ℕ :=
  if tids.isEmpty then pure 0
  else transaction none do
    let rows ← TaskRun.fetchRows
      { runId := some (.mem tids), dagrunId := some (.eq runId), state := some (.eq .scheduled) }
    if rows.isEmpty then pure 0
    else do
      let trs ← TaskRun.setState
        (rows.map fun tr => { row := .obj tr.ref, state := some .queued })
      pure trs.length

end YtScheduler.DagRun

namespace YtScheduler.DagRunClient

open P Threads

def get (runId : Uuid) : P (Option DagRunObj) :=
  handleExceptions false (fun _ => pure none) (DagRun.get runId)

def getDagRuns (state : DagRunState) (shard : ShardingOptions) : P (List DagRunObj) :=
  handleExceptions false (fun _ => pure []) (DagRun.getDagRuns state shard)

def setState (self : Ref) (state : DagRunState) : P Unit :=
  handleExceptions false Prog.raise (DagRun.setState self state)

/-- The only call whose first positional argument has a logger. -/
def queueRunAtomic (self : Ref) (dag : Dag) : P Unit :=
  handleExceptions true Prog.raise (DagRun.queueRunAtomic self dag)

def updateState (self : Ref) (dag : Dag) : P (List Uuid) :=
  handleExceptions false (fun _ => pure []) (DagRun.updateState self dag)

def scheduleTrs (runId : Uuid) (tids : List Uuid) : P ℕ :=
  handleExceptions false (fun _ => pure 0) (DagRun.scheduleTrs runId tids)

end YtScheduler.DagRunClient
