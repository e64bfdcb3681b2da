import YtScheduler.Runs.Decisions

/-! What the threads of a process share besides the tables: the objects they hand to
each other, the maps of the executor, the callback queue of a service, and the
queue of the pool. A job or a callback is data: the function it calls and the
variables its closure captured. A variable the closure reads later than it is
created stands in a cell or a frame, so that late binding is visible. -/

namespace YtScheduler

/-- A YT client: the package's global one, or the one of a thread. -/
inductive Client
  | global
  | thread (tid : ℕ)
  deriving DecidableEq

inductive Exn
  | lockConflict
  | dagInitialization
  | attributeError
  | runtime
  deriving DecidableEq

/-- Membership in `TRANSIENT_LOCK_ERRORS`. -/
def Exn.transient : Exn → Bool
  | .lockConflict => true
  | _ => false

/-- A callable submitted to the pool, with its arguments. -/
inductive Job
  | getExecutableTaskRunsToQueue (shard : ShardingOptions)
  | startTaskrun (svc : ℕ) (tr : Ref)
  | setState (rows : List UpdateRow)
  | orphanCleanup
  | tryAbortRun (cell : ℕ)
  | getDagRuns (state : DagRunState) (shard : ShardingOptions)
  | queueRunAtomic (run : Ref) (dag : Dag)
  | tryClaimDagruns (svc : ℕ)
  | trySetMetasInvalid (rows : List (DagRefRow × Option DagMetaRow))

/-- What a job returns; the objects of a select come with the state selected. -/
inductive JobResult
  | none
  | taskRuns (trs : List Ref)
  | dagRuns (state : DagRunState) (runs : List Ref)
  | count (n : ℕ)
  | metas (ids : List (Option Uuid))

/-- A callback queued for its owner; `q` names the pool entry whose promise it reads. -/
inductive Callback
  | startTaskruns (q : ℕ)
  | finalize (frame : ℕ)
  | claimed (q : ℕ)
  | setInvalid (q : ℕ) (ytClient : Client)
  | queueDagruns (q : ℕ)
  | scheduleDagRuns (q : ℕ)
  deriving DecidableEq

/-- An entry of a dictionary keyed by run id. -/
structure Item (α : Type) where
  runId : Uuid
  value : α
  deriving DecidableEq

instance {α : Type} : Tablet.Keyed (Item α) Uuid := ⟨Item.runId⟩

/-- A scheduler or an executor object. -/
structure Service where
  callbacks : List Callback := []
  pendingOperations : List (Item (Option OperationId)) := []
  pendingTaskRuns : List (Item Ref) := []
  createdDagruns : ℕ := 0

/-- The local variables of one `_poll_pending_operations` call: its thread and service, `run_id`
as last assigned, and the items its loop has still to take. -/
structure PollFrame where
  thread : ℕ
  svc : ℕ
  runId : Uuid
  remaining : List (Item (Option OperationId))

/-- A `_PoolQueueable` with its promise, which the thread that submitted it holds. -/
structure Queueable where
  owner : ℕ
  fn : Job
  result : Option (Except Exn JobResult) := none
  callback : Option (ℕ × Callback) := none

structure Mem where
  taskRuns : List TaskRunRow := []
  dagRuns : List DagRunRow := []
  services : List Service := []
  frames : List PollFrame := []
  cells : List (Option Ref) := []
  queueables : List Queueable := []
  queue : List ℕ := []

/-- The atomic accesses to the shared memory. -/
inductive MemOp
  | newTaskRuns (rows : List TaskRunRow)
  | readTaskRun (tr : Ref)
  | writeTaskRun (tr : Ref) (row : TaskRunRow)
  | newDagRuns (rows : List DagRunRow)
  | readDagRun (run : Ref)
  | writeDagRun (run : Ref) (row : DagRunRow)
  | newService
  | takeCallback (svc : ℕ)
  | addPending (svc : ℕ) (runId : Uuid) (operation : Option OperationId) (tr : Ref)
  | pendingTaskRun (svc : ℕ) (runId : Uuid)
  | addCreated (svc n : ℕ)
  | takeCreated (svc : ℕ)
  | openFrame (svc : ℕ)
  | nextItem (frame : ℕ)
  | finalize (frame : ℕ)
  | newCell
  | setCell (cell : ℕ) (tr : Ref)
  | getCell (cell : ℕ)
  | submit (fn : Job)
  | takeJob
  | setCallback (q svc : ℕ) (cb : Callback)
  | forwardIfDone (q : ℕ)
  | setResult (q : ℕ) (result : Except Exn JobResult)
  | forwardCallback (q : ℕ)
  | result (q : ℕ)

namespace MemOp

@[reducible] def Ret : MemOp → Type
  | newTaskRuns _ => List Ref
  | readTaskRun _ => TaskRunRow
  | newDagRuns _ => List Ref
  | readDagRun _ => DagRunRow
  | newService => ℕ
  | takeCallback _ => Option Callback
  | pendingTaskRun _ _ => Option Ref
  | takeCreated _ => ℕ
  | openFrame _ => ℕ × ℕ
  | nextItem _ => Option (Item (Option OperationId))
  | newCell => ℕ
  | getCell _ => Ref
  | submit _ => ℕ
  | takeJob => Option (ℕ × Job)
  | result _ => JobResult
  | _ => Unit

end MemOp

namespace Service

/-- `_pending_operations[run_id] = operation; _pending_task_runs[run_id] = tr`. -/
def addPending (svc : Service) (runId : Uuid) (operation : Option OperationId) (tr : Ref) :
    Service :=
  { svc with
    pendingOperations := Tablet.Table.put ⟨runId, operation⟩ svc.pendingOperations
    pendingTaskRuns := Tablet.Table.put ⟨runId, tr⟩ svc.pendingTaskRuns }

/-- `_pending_operations.pop(run_id, None); _pending_task_runs.pop(run_id, None)`. -/
def popPending (svc : Service) (runId : Uuid) : Service :=
  { svc with
    pendingOperations := svc.pendingOperations.filter (·.runId ≠ runId)
    pendingTaskRuns := svc.pendingTaskRuns.filter (·.runId ≠ runId) }

def pendingTaskRun (svc : Service) (runId : Uuid) : Option Ref :=
  (svc.pendingTaskRuns.find? (·.runId = runId)).map Item.value

end Service

namespace Mem

variable (m : Mem)

def onService (svc : ℕ) (f : Service → Service) : Mem :=
  { m with services := m.services.modify svc f }

/-- `_forward_callback`: put the callback of entry `q` into its owner's queue. -/
def forward (q : ℕ) : Mem :=
  match (m.queueables[q]?).bind Queueable.callback with
  | some (svc, cb) => m.onService svc fun s => { s with callbacks := s.callbacks ++ [cb] }
  | none => m

/-- One access of thread `i`. `pick` is the pool whose queue `takeJob` looks at: an index into
the jobs of all pools together. -/
def exec (i pick : ℕ) : (o : MemOp) → Except Exn o.Ret × Mem
  | .newTaskRuns rows =>
    (.ok (List.range' m.taskRuns.length rows.length), { m with taskRuns := m.taskRuns ++ rows })
  | .readTaskRun tr => ((m.taskRuns[tr]?).elim (.error .attributeError) .ok, m)
  | .writeTaskRun tr row => (.ok (), { m with taskRuns := m.taskRuns.set tr row })
  | .newDagRuns rows =>
    (.ok (List.range' m.dagRuns.length rows.length), { m with dagRuns := m.dagRuns ++ rows })
  | .readDagRun run => ((m.dagRuns[run]?).elim (.error .attributeError) .ok, m)
  | .writeDagRun run row => (.ok (), { m with dagRuns := m.dagRuns.set run row })
  | .newService => (.ok m.services.length, { m with services := m.services ++ [{}] })
  | .takeCallback svc =>
    (.ok ((m.services[svc]?).bind fun s => s.callbacks.head?),
      m.onService svc fun s => { s with callbacks := s.callbacks.tail })
  | .addPending svc runId operation tr =>
    (.ok (), m.onService svc fun s => s.addPending runId operation tr)
  | .pendingTaskRun svc runId => (.ok ((m.services[svc]?).bind (·.pendingTaskRun runId)), m)
  | .addCreated svc n =>
    (.ok (), m.onService svc fun s => { s with createdDagruns := s.createdDagruns + n })
  | .takeCreated svc =>
    (.ok (((m.services[svc]?).map Service.createdDagruns).getD 0),
      m.onService svc fun s => { s with createdDagruns := 0 })
  | .openFrame svc =>
    let items := ((m.services[svc]?).map Service.pendingOperations).getD []
    (.ok (m.frames.length, items.length), { m with frames := m.frames ++ [⟨i, svc, 0, items⟩] })
  | .nextItem frame =>
    match m.frames[frame]? with
    | some ⟨thread, svc, _, item :: items⟩ =>
      (.ok (some item),
        { m with frames := m.frames.set frame ⟨thread, svc, item.runId, items⟩ })
    | _ => (.ok none, m)
  | .finalize frame =>
    match m.frames[frame]? with
    | some f => (.ok (), m.onService f.svc fun s => s.popPending f.runId)
    | none => (.error .runtime, m)
  | .newCell => (.ok m.cells.length, { m with cells := m.cells ++ [none] })
  | .setCell cell tr => (.ok (), { m with cells := m.cells.set cell (some tr) })
  | .getCell cell => ((m.cells[cell]?.join).elim (.error .runtime) .ok, m)
  | .submit fn =>
    (.ok m.queueables.length,
      { m with
        queueables := m.queueables ++ [{ owner := i, fn }]
        queue := m.queue ++ [m.queueables.length] })
  | .takeJob =>
    match m.queue[pick]? with
    | some q =>
      match m.queueables[q]? with
      | some entry => (.ok (some (q, entry.fn)), { m with queue := m.queue.eraseIdx pick })
      | none => (.ok none, m)
    | none => (.ok none, m)
  | .setCallback q svc cb =>
    (.ok (), { m with
      queueables := m.queueables.modify q fun e => { e with callback := some (svc, cb) } })
  | .forwardIfDone q =>
    (.ok (), if ((m.queueables[q]?).bind Queueable.result).isSome then m.forward q else m)
  | .setResult q result =>
    (.ok (), { m with
      queueables := m.queueables.modify q fun e => { e with result := some result } })
  | .forwardCallback q => (.ok (), m.forward q)
  | .result q => (((m.queueables[q]?).bind Queueable.result).getD (.error .runtime), m)

end Mem

end YtScheduler
