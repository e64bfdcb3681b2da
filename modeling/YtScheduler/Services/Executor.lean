import YtScheduler.Services.Pool

/-! The executor: it starts QUEUED TaskRuns, polls the operations it has started, and
cleans up after FAILED DagRuns. -/

namespace YtScheduler.Executor

open P Threads

/-- `except Exception: pass`. -/
def ignoring {α : Type} (p : P α) : P Unit :=
  Prog.catching (do let _ ← p; pure ()) fun _ => pure ()

def failDagRun : Option DagRunObj → P Unit
  | some run => ignoring (DagRunClient.setState run.ref .failed)
  | none => pure ()

/-- `_get_task_run_manifest`. -/
def getTaskRunManifest (tr : TaskRunRow) : P (Option Task × Option DagRunObj) := do
  let dagrun ← DagRunClient.get tr.dagrunId
  match ← (call (.loadTask tr.dagId tr.taskId)).attempt with
  | .ok task => pure (task, dagrun)
  | .error .dagInitialization => do
    failDagRun dagrun
    pure (none, dagrun)
  | .error e => Prog.raise e

/-- `dagrun and dagrun.state == FAILED`. -/
def isFailed : Option DagRunObj → P Bool
  | none => pure false
  | some run => do
    let row ← mem (.readDagRun run.ref)
    pure (row.state = .failed)

/-- The operation started for a TaskRun, whose DagRun is then marked RUNNING. -/
def runOperation (runId : Uuid) (dagrun : Ref) : P OperationId := do
  let operation ← call (.runOperation runId)
  DagRun.setState dagrun .running
  pure operation

def startTaskrun (svc : ℕ) (tr : Ref) : P Unit := do
  let row ← mem (.readTaskRun tr)
  let (task, dagrun) ← getTaskRunManifest row
  if ← isFailed dagrun then
    ignoring (TaskRunClient.setState
      [{ row := .obj tr, state := some .skipped, requires := { state := some (.eq .queued) } }])
  else match task, dagrun with
    | some _, some run => do
      match ← (runOperation row.runId run.ref).attempt with
      | .error _ => ignoring (TaskRunClient.setState [{ row := .obj tr, state := some .failed }])
      | .ok operation => do
        mem (.addPending svc row.runId (some operation) tr)
        ignoring (TaskRunClient.setState
          [{ row := .obj tr, state := some .running, operationId := some operation,
             requires := { state := some (.eq .queued) } }])
    | _, _ => pure ()

def startTaskruns (svc : ℕ) : P Unit := do
  let shard ← call .shardOptions
  let q ← Pool.submit (.getExecutableTaskRunsToQueue shard)
  Pool.onComplete q svc (.startTaskruns q)

/-- The `_on_complete` of `_start_taskruns`. -/
def onStartTaskruns (svc q : ℕ) : P Unit := do
  match ← mem (.result q) with
  | .taskRuns trs => Prog.forEach trs fun tr => do
    if ← call .attemptTooRecent then pure ()
    else do
      let _ ← Pool.submit (.startTaskrun svc tr)
      pure ()
  | _ => Prog.raise .attributeError

/-- The update submitted for a finished operation. -/
def finalUpdate (runId : Uuid) (tr : Option Ref) (status : OperationState) : UpdateRow where
  row := tr.elim (.id runId) .obj
  state := some (if status.isUnsuccessfullyFinished then .failed else .success)

/-- The update submitted for an operation that still runs. -/
def runningUpdate (item : Item (Option OperationId)) : UpdateRow where
  row := .id item.runId
  state := some .running
  operationId := item.value
  requires := { state := some (.eq .queued) }

/-- One round of the loop of `_poll_pending_operations`. -/
def pollItem (svc frame : ℕ) : P Unit := do
  match ← mem (.nextItem frame) with
  | none => pure ()
  | some item =>
    match ← (call (.getOperationState item.value)).attempt with
    | .error _ => pure ()
    | .ok status =>
      if status.isFinished then do
        let tr ← mem (.pendingTaskRun svc item.runId)
        let q ← Pool.submit (.setState [finalUpdate item.runId tr status])
        Pool.onComplete q svc (.finalize frame)
      else do
        let _ ← Pool.submit (.setState [runningUpdate item])
        pure ()

def pollPendingOperations (svc : ℕ) : P Unit := do
  let (frame, n) ← mem (.openFrame svc)
  Pool.loop (pollItem svc frame) n

/-- `_try_abort_run`; the closure reads the loop variable `tr` when it runs. -/
def tryAbortRun (cell : ℕ) : P Unit := do
  retrier (fun _ => true) (fun _ => pure ())
    (do
      let tr ← mem (.getCell cell)
      let row ← mem (.readTaskRun tr)
      call (.abortOperation row.operationId)) 2
  let tr ← mem (.getCell cell)
  let _ ← TaskRunClient.setState
    [{ row := .obj tr, state := some .failed, requires := { state := some (.mem [.running]) } }]
  pure ()

/-- The run itself if it is to be skipped; an operation is aborted by a job of its own. -/
def sortOrphan (cell : ℕ) (tr : TaskRunObj) : P (List TaskRunObj) := do
  let row ← mem (.readTaskRun tr.ref)
  if row.state = .queued then pure [tr]
  else if row.state = .running then
    if row.operationId.isSome then do
      let _ ← Pool.submit (.tryAbortRun cell)
      pure []
    else pure [tr]
  else pure []

/-- The loop of `_orphan_cleanup`, which returns `skippable_trs`. -/
def sortOrphans (cell : ℕ) : List TaskRunObj → P (List TaskRunObj)
  | [] => pure []
  | tr :: trs => do
    mem (.setCell cell tr.ref)
    let skippable ← sortOrphan cell tr
    let rest ← sortOrphans cell trs
    pure (skippable ++ rest)

def orphanCleanup : P Unit := do
  let shard ← call .shardOptions
  let trs ← TaskRunClient.getOrphanedTaskRuns shard
  if trs.isEmpty then pure ()
  else do
    let cell ← mem .newCell
    let skippable ← sortOrphans cell trs
    unlessEmpty skippable (ignoring (TaskRunClient.setState (skippable.map fun tr =>
      { row := .obj tr.ref, state := some .skipped,
        requires := { state := some (.mem [.running, .queued]) } })))

def runCallback (svc : ℕ) : Callback → P Unit
  | .startTaskruns q => onStartTaskruns svc q
  | .finalize frame => mem (.finalize frame)
  | _ => Prog.raise .attributeError

def updatePendingTasks (svc : ℕ) : P Unit := do
  let trs ← TaskRunClient.getRunningTaskRunsToPoll
  Prog.forEach trs fun tr => mem (.addPending svc tr.row.runId tr.row.operationId tr.ref)

def loopIter (svc : ℕ) : P Unit := do
  startTaskruns svc
  pollPendingOperations svc
  let _ ← Pool.submit .orphanCleanup
  Pool.drainCallbacks svc (runCallback svc) 50

/-- `_execute`: a new executor, which rebuilds its maps from the tables. -/
def execute (n : ℕ) : P Unit := do
  let svc ← mem .newService
  updatePendingTasks svc
  Pool.loop (loopIter svc) n

end YtScheduler.Executor
