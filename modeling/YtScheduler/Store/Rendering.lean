import YtScheduler.Store.Rows
import YtScheduler.Store.Lookups

/-! The stored tables as the query language reads them: every row by the texts of its
columns. What text stands for a generated id or for a time is left open. -/

namespace YtScheduler.Lookups

open Filters Quoting

structure Rendering where
  uuid : Uuid → Text
  uuid_injective : Function.Injective uuid
  plain_uuid : ∀ id, ∀ c ∈ uuid id, c ≠ quote ∧ c ≠ backslash
  operationId : OperationId → Text
  iso : Iso → Text

instance : Inhabited Rendering where
  default :=
    { uuid := fun id => List.replicate id 'a'
      uuid_injective := fun i j h => by simpa using congrArg List.length h
      plain_uuid := fun id c hc => by
        rw [List.eq_of_mem_replicate hc]
        decide
      operationId := fun _ => []
      iso := fun _ => [] }

namespace Columns

def createdAt : Column := column "created_at".toList (by decide)

def serializedRepr : Column := column "serialized_repr".toList (by decide)

def scheduledAt : Column := column "scheduled_at".toList (by decide)

def queuedAt : Column := column "queued_at".toList (by decide)

def startDate : Column := column "start_date".toList (by decide)

def endDate : Column := column "end_date".toList (by decide)

end Columns

def dagRunState : DagRunState → Text
  | .scheduled => "scheduled".toList
  | .queued => "queued".toList
  | .running => "running".toList
  | .success => "success".toList
  | .failed => "failed".toList

def taskRunState : TaskRunState → Text
  | .scheduled => "scheduled".toList
  | .queued => "queued".toList
  | .running => "running".toList
  | .success => "success".toList
  | .failed => "failed".toList
  | .skipped => "skipped".toList

/-- A row by its columns. -/
def cells (cs : List (Column × Option Text)) : Quoting.Row := fun name =>
  ((cs.map fun cell => (cell.1.name, cell.2)).lookup name).join

namespace Rendering

variable (R : Rendering)

def metaRunId : MetaRunId → Text
  | .run runId => R.uuid runId
  | .parsingFailed time => "ERR:PARSING_FAILED:".toList ++ R.iso time

def dagMeta (row : DagMetaRow) : Quoting.Row :=
  cells [(Columns.id, some (R.uuid row.id)), (Columns.dagId, some (R.uuid row.dagId)),
    (Columns.createdAt, some (R.iso row.createdAt)), (Columns.runId, row.runId.map R.metaRunId)]

def taskRef (row : TaskRefRow) : Quoting.Row :=
  cells [(Columns.dagId, some (R.uuid row.dagId)), (Columns.taskId, some row.taskId.toList),
    (Columns.serializedRepr, some row.serializedRepr.toList),
    (Columns.payloadHash, some row.payloadHash.toList),
    (Columns.createdAt, some (R.iso row.createdAt))]

def dagRef (row : DagRefRow) : Quoting.Row :=
  cells [(Columns.dagId, some (R.uuid row.dagId)),
    (Columns.serializedRepr, some row.serializedRepr.toList),
    (Columns.payloadHash, some row.payloadHash.toList),
    (Columns.createdAt, some (R.iso row.createdAt))]

def dagRun (row : DagRunRow) : Quoting.Row :=
  cells [(Columns.runId, some (R.uuid row.runId)), (Columns.dagId, some (R.uuid row.dagId)),
    (Columns.state, some (dagRunState row.state)), (Columns.scheduledAt, row.scheduledAt.map R.iso),
    (Columns.queuedAt, row.queuedAt.map R.iso), (Columns.startDate, row.startDate.map R.iso),
    (Columns.endDate, row.endDate.map R.iso)]

def taskRun (row : TaskRunRow) : Quoting.Row :=
  cells [(Columns.runId, some (R.uuid row.runId)), (Columns.taskId, some row.taskId.toList),
    (Columns.dagId, some (R.uuid row.dagId)), (Columns.dagrunId, some (R.uuid row.dagrunId)),
    (Columns.state, some (taskRunState row.state)),
    (Columns.operationId, row.operationId.map R.operationId),
    (Columns.scheduledAt, row.scheduledAt.map R.iso), (Columns.queuedAt, row.queuedAt.map R.iso),
    (Columns.startDate, row.startDate.map R.iso), (Columns.endDate, row.endDate.map R.iso)]

end Rendering

def taskRef? : Row → Option TaskRefRow
  | .taskRef row => some row
  | _ => none

/-- The tables of the store. -/
def Rendering.tables (R : Rendering) (db : Db) : Tables
  | .dagMeta => db.dagMetas.map R.dagMeta
  | .taskRef => (db.rows.filterMap taskRef?).map R.taskRef
  | .dagRef => db.dagRefs.map R.dagRef
  | .dagRun => db.dagRuns.map R.dagRun
  | .taskRun => db.taskRuns.map R.taskRun

end YtScheduler.Lookups
