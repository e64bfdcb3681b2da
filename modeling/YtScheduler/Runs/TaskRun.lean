import YtScheduler.System.Op

/-! The statements of TaskRuns. `set_state` reads the rows it has requirements for, builds
the new rows and upserts them in one batch. -/

namespace YtScheduler.TaskRun

open P Threads

/-- `fetch_rows`: a new object for every row. -/
def fetchRows (w : TaskRunFilter) : P (List TaskRunObj) := do
  let rows ← call (.select none (.taskRuns w))
  let refs ← mem (.newTaskRuns rows)
  pure (List.zipWith TaskRunObj.mk refs rows)

def getExecutableTaskRunsToQueue (shard : ShardingOptions) : P (List TaskRunObj) :=
  fetchRows { state := some (.eq .queued), shard := some shard }

def getRunningTaskRunsToPoll : P (List TaskRunObj) :=
  fetchRows { state := some (.eq .running) }

def getOrphanedTaskRuns (shard : ShardingOptions) : P (List TaskRunObj) := do
  let rows ← call (.select none (.orphanedTaskRuns shard))
  let refs ← mem (.newTaskRuns rows)
  pure (List.zipWith TaskRunObj.mk refs rows)

/-- The run id that `set_state` has to fetch for an update, if any. -/
def fetchableRid (u : UpdateRow) : P (List Uuid) :=
  match u.row with
  | .id runId => pure [runId]
  | .obj tr =>
    if u.requires.nonempty then do
      let row ← mem (.readTaskRun tr)
      pure [row.runId]
    else pure []

def fetchableRids : List UpdateRow → P (List Uuid)
  | [] => pure []
  | u :: us => do
    let rids ← fetchableRid u
    let rest ← fetchableRids us
    pure (rids ++ rest)

/-- The TaskRun an update refers to: the fetched row, copied into the object that was
passed, or the object itself. -/
def target (fetched : List TaskRunObj) (u : UpdateRow) : P (Option TaskRunObj) :=
  match u.row with
  | .id runId => pure (fetched.find? (·.row.runId = runId))
  | .obj tr => do
    let row ← mem (.readTaskRun tr)
    if u.requires.nonempty then
      match fetched.find? (·.row.runId = row.runId) with
      | none => pure none
      | some found => do
        mem (.writeTaskRun tr found.row)
        pure (some ⟨tr, found.row⟩)
    else pure (some ⟨tr, row⟩)

/-- One round of the loop in `_set_state`: the object and the row that replaces it. -/
def prepare (fetched : List TaskRunObj) (u : UpdateRow) : P (Option TaskRunObj) := do
  match ← target fetched u with
  | none => pure none
  | some tr =>
    if u.requires.nonempty && !u.requires.isMatched tr.row then pure none
    else do
      let now ← nowUtc
      pure (some ⟨tr.ref, tr.row.buildRow u.state u.operationId now⟩)

def prepareAll (fetched : List TaskRunObj) : List UpdateRow → P (List TaskRunObj)
  | [] => pure []
  | u :: us => do
    let update ← prepare fetched u
    let rest ← prepareAll fetched us
    pure (update.toList ++ rest)

/-- `_set_state`. -/
def applyUpdates (fetched : List TaskRunObj) (rows : List UpdateRow) : P (List TaskRunObj) := do
  let updates ← prepareAll fetched rows
  unlessEmpty updates (upsertRows (updates.map fun u => .taskRun u.row) none)
  pure updates

/-- The transaction is opened on the package's global client, the statements inside go
through the client of the thread. -/
def fetchAndApply (rids : List Uuid) (rows : List UpdateRow) : P (List TaskRunObj) :=
  if rids.isEmpty then applyUpdates [] rows
  else transaction (some .global) do
    let fetched ← fetchRows { runId := some (.mem rids) }
    applyUpdates fetched rows

/-- `TaskRun.set_state`. -/
def setState (rows : List UpdateRow) : P (List Ref) := do
  let rids ← fetchableRids rows
  let updates ← fetchAndApply rids rows
  Prog.forEach updates fun u => mem (.writeTaskRun u.ref u.row)
  pure (updates.map TaskRunObj.ref)

end YtScheduler.TaskRun

namespace YtScheduler.TaskRunClient

open P Threads

def getExecutableTaskRunsToQueue (shard : ShardingOptions) : P (List TaskRunObj) :=
  handleExceptions false (fun _ => pure []) (TaskRun.getExecutableTaskRunsToQueue shard)

def getRunningTaskRunsToPoll : P (List TaskRunObj) :=
  handleExceptions false (fun _ => pure []) TaskRun.getRunningTaskRunsToPoll

def getOrphanedTaskRuns (shard : ShardingOptions) : P (List TaskRunObj) :=
  handleExceptions false (fun _ => pure []) (TaskRun.getOrphanedTaskRuns shard)

def setState (rows : List UpdateRow) : P (List Ref) :=
  handleExceptions false Prog.raise (TaskRun.setState rows)

end YtScheduler.TaskRunClient
