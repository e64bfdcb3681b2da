import YtScheduler.Services.Pool

/-! The scheduler: it claims metas that need a DagRun, queues SCHEDULED DagRuns, and
examines the QUEUED and RUNNING ones. -/

namespace YtScheduler.Scheduler

open P Threads

/-! ### Claiming -/

/-- `dags_needing_dagruns_of_metas`. -/
def dagsNeedingDagrunsOfMetas (metas : List (Option Uuid)) (ytClient : Option Client) :
    P (List (DagRefRow × DagMetaRow)) :=
  if metas.isEmpty then pure [] else call (.select ytClient (.dagsNeedingDagrunsOfMetas metas))

/-- The metas marked as not parsed. -/
def markMetas : List (DagRefRow × DagMetaRow) → P (List DagMetaRow)
  | [] => pure []
  | (_, row) :: rows => do
    let now ← nowUtc
    let rest ← markMetas rows
    pure ({ row with runId := some (.parsingFailed now) } :: rest)

/-- `_set_invalid_meta`. The transaction is opened on `yt_client`, the two statements inside
resolve their client from the context. -/
def setInvalidMeta (invalidMetas : List (Option Uuid)) (ytClient : Option Client) : P Unit :=
  transaction ytClient do
    let rows ← dagsNeedingDagrunsOfMetas invalidMetas none
    let batchedMetas ← markMetas rows
    unlessEmpty batchedMetas (upsertRows (batchedMetas.map .dagMeta) none)

/-- The DagRuns built for metas, with generated run ids, and the metas that name them. -/
def claimMetas : List (DagRefRow × DagMetaRow) → P (List (DagRunRow × DagMetaRow))
  | [] => pure []
  | (_, row) :: rows => do
    let runId ← call .generateUuid
    let now ← nowUtc
    let rest ← claimMetas rows
    pure (({ runId, dagId := row.dagId, state := .scheduled, scheduledAt := some now },
      { row with runId := some (.run runId) }) :: rest)

/-- `_create_dag_runs_atomic`. -/
def createDagRunsAtomic (metas : List (Option Uuid)) (ytClient : Option Client) : P ℕ :=
  transaction ytClient do
    let rows ← dagsNeedingDagrunsOfMetas metas ytClient
    let batched ← claimMetas rows
    unlessEmpty batched do
      upsertRows (batched.map fun b => .dagRun b.1) none
      upsertRows (batched.map fun b => .dagMeta b.2) none
    pure batched.length

/-- `_get_dag`. -/
def getDag (ref : Option DagRefRow) : P (Option Dag) :=
  match ref with
  | none => pure none
  | some ref => Prog.catching
      (do
        let dag ← call (.deserializeDag ref.dagId)
        pure (some dag))
      fun e => if e = .dagInitialization then pure none else .raise e

/-- `DagRefClient.get`. -/
def getDagRef (dagId : Uuid) : P (Option DagRefRow) :=
  handleExceptions false (fun _ => pure none) do
    let rows ← call (.select none (.dagRefs dagId))
    pure rows.head?

/-- The rows whose DAG cannot be loaded, and the ids of the other metas. -/
def sortMetas : List (DagRefRow × Option DagMetaRow) →
    P (List (DagRefRow × Option DagMetaRow) × List (Option Uuid))
  | [] => pure ([], [])
  | (ref, row) :: rows => do
    let dag ← getDag (some ref)
    let (invalid, target) ← sortMetas rows
    pure (if dag.isSome then (invalid, row.map DagMetaRow.id :: target)
      else ((ref, row) :: invalid, target))

def tryClaimDagruns (svc : ℕ) : P ℕ := do
  let ytClient ← call .contextClient
  let shard ← call .shardOptions
  let rows ← handleExceptions false (fun _ => pure [])
    (call (.select none (.dagsNeedingDagruns shard)))
  let (invalidRows, targetMetas) ← sortMetas rows
  let q ← Pool.submit (.trySetMetasInvalid invalidRows)
  Pool.onComplete q svc (.setInvalid q ytClient)
  if targetMetas.isEmpty then pure 0
  else handleExceptions false (fun _ => pure 0) (createDagRunsAtomic targetMetas (some ytClient))

/-- `_try_set_metas_invalid`: one more try for every DAG. -/
def trySetMetasInvalid : List (DagRefRow × Option DagMetaRow) → P (List (Option Uuid))
  | [] => pure []
  | (ref, row) :: rows => do
    let loaded ← retrier (· = .dagInitialization) (fun _ => pure false)
      (do
        let _ ← call (.deserializeDag ref.dagId)
        pure true) 1
    let rest ← trySetMetasInvalid rows
    pure (if loaded then rest else row.map DagMetaRow.id :: rest)

def createDagrunsForDags (svc : ℕ) : P Unit := do
  let q ← Pool.submit (.tryClaimDagruns svc)
  Pool.onComplete q svc (.claimed q)

/-- `_on_complete_inc`. -/
def onClaimed (svc q : ℕ) : P Unit := do
  match ← (mem (.result q)).attempt with
  | .ok (.count n) => mem (.addCreated svc n)
  | _ => mem (.addCreated svc 0)

/-- `_on_complete_set_invalid`. -/
def onSetInvalid (q : ℕ) (ytClient : Client) : P Unit := do
  match ← mem (.result q) with
  | .metas invalidMetas =>
    handleExceptions false Prog.raise (setInvalidMeta invalidMetas (some ytClient))
  | _ => Prog.raise .attributeError

/-! ### Scheduling -/

def queueScheduledDagruns (svc : ℕ) : P Unit := do
  let shard ← call .shardOptions
  let q ← Pool.submit (.getDagRuns .scheduled shard)
  Pool.onComplete q svc (.queueDagruns q)

/-- The `_on_complete` of `_queue_scheduled_dagruns`; the warning about a missing DAG reads
an attribute of `None`. -/
def onQueueDagruns (q : ℕ) : P Unit := do
  match ← mem (.result q) with
  | .dagRuns _ dagRuns => Prog.forEach dagRuns fun run => do
    let row ← mem (.readDagRun run)
    let ref ← getDagRef row.dagId
    match ← getDag ref with
    | none => Prog.raise .attributeError
    | some dag => do
      let _ ← Pool.submit (.queueRunAtomic run dag)
      pure ()
  | _ => Prog.raise .attributeError

def startQueuedDagruns (svc : ℕ) : P Unit := do
  let shard ← call .shardOptions
  let q ← Pool.submit (.getDagRuns .queued shard)
  Pool.onComplete q svc (.scheduleDagRuns q)

def scheduleRunningDagruns (svc : ℕ) : P Unit := do
  let shard ← call .shardOptions
  let q ← Pool.submit (.getDagRuns .running shard)
  Pool.onComplete q svc (.scheduleDagRuns q)

/-- One round of `_schedule_dag_runs`. -/
def scheduleDagRun (run : Ref) : P Unit := do
  let row ← mem (.readDagRun run)
  let ref ← getDagRef row.dagId
  match ← getDag ref with
  | none => Prog.raise .attributeError
  | some dag => do
    let tids ← DagRunClient.updateState run dag
    if tids.isEmpty then pure ()
    else do
      let _ ← DagRunClient.scheduleTrs row.runId tids
      pure ()

def onScheduleDagRuns (q : ℕ) : P Unit := do
  match ← mem (.result q) with
  | .dagRuns _ dagRuns => Prog.forEach dagRuns scheduleDagRun
  | _ => Prog.raise .attributeError

def runCallback (svc : ℕ) : Callback → P Unit
  | .claimed q => onClaimed svc q
  | .setInvalid q ytClient => onSetInvalid q ytClient
  | .queueDagruns q => onQueueDagruns q
  | .scheduleDagRuns q => onScheduleDagRuns q
  | _ => Prog.raise .attributeError

/-- The four steps of `_do_scheduling`. -/
inductive Pass
  | createDagrunsForDags
  | queueScheduledDagruns
  | startQueuedDagruns
  | scheduleRunningDagruns
  deriving DecidableEq

def Pass.run (svc : ℕ) : Pass → P Unit
  | .createDagrunsForDags => Scheduler.createDagrunsForDags svc
  | .queueScheduledDagruns => Scheduler.queueScheduledDagruns svc
  | .startQueuedDagruns => Scheduler.startQueuedDagruns svc
  | .scheduleRunningDagruns => Scheduler.scheduleRunningDagruns svc

/-- `_do_scheduling`. -/
def Pass.all : List Pass :=
  [.createDagrunsForDags, .queueScheduledDagruns, .startQueuedDagruns, .scheduleRunningDagruns]

def loopIter (passes : List Pass) (svc : ℕ) : P Unit := do
  Prog.forEach passes (Pass.run svc)
  Pool.drainCallbacks svc (runCallback svc) 50
  let _ ← mem (.takeCreated svc)
  pure ()

/-- `_execute` of a scheduler that makes the given passes. -/
def execute (passes : List Pass) (n : ℕ) : P Unit := do
  let svc ← mem .newService
  Pool.loop (loopIter passes svc) n

end YtScheduler.Scheduler
