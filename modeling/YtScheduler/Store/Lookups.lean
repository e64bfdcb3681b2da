import YtScheduler.Store.Filters
import YtScheduler.Sequences.Limits

/-! `YtRow.get` and the classes that look up their rows with it. A row is read with all
columns of its table. The client that answers the statements is a parameter. -/

namespace YtScheduler.Lookups

open Filters Quoting

/-- `row_type`, which names a table. -/
inductive RowType
  | dagMeta
  | taskRef
  | dagRef
  | dagRun
  | taskRun
  deriving DecidableEq

/-- The stored rows. -/
abbrev Tables := RowType → List Row

/-! ### Columns -/

def column (name : Text) (h : name ≠ [] ∧ name.all isWord = true ∧ isKeyword name = false) : Column :=
  ⟨name, h.1, List.all_eq_true.mp h.2.1, h.2.2⟩

namespace Columns

def id : Column := column "id".toList (by decide)

def dagId : Column := column "dag_id".toList (by decide)

def taskId : Column := column "task_id".toList (by decide)

def runId : Column := column "run_id".toList (by decide)

def dagrunId : Column := column "dagrun_id".toList (by decide)

def state : Column := column "state".toList (by decide)

def operationId : Column := column "operation_id".toList (by decide)

def payloadHash : Column := column "payload_hash".toList (by decide)

end Columns

/-- `key_columns`. -/
def RowType.keyColumns : RowType → List Column
  | .dagMeta => [Columns.id]
  | .taskRef => [Columns.dagId, Columns.taskId]
  | .dagRef => [Columns.dagId]
  | .dagRun => [Columns.runId]
  | .taskRun => [Columns.runId]

/-! ### Statements -/

/-- The text that `make_formatted_select` sends: what it reads from, the where clause and
the limit. -/
structure Statement where
  rowType : RowType
  whereClause : Text
  limit : Option ℕ

/-- What the client raises for a statement that it cannot read. -/
structure SelectError where
  statement : Statement

/-- `yt_client.select_rows`. -/
abbrev SelectRows := Statement → Except SelectError (List Row)

/-- The client reads the where clause in the query language, and the limit keeps some of the
rows that it selects. -/
structure Reads (x : Escaping) (tables : Tables) (selectRows : SelectRows) : Prop where
  error : ∀ s, readWhere x.escapes s.whereClause = none → selectRows s = .error ⟨s⟩
  rows : ∀ s o, readWhere x.escapes s.whereClause = some o →
    ∃ rows, selectRows s = .ok rows ∧
      Limited s.limit ((tables s.rowType).filter fun row => selects row o) rows

/-- A limit of zero is not sent. -/
def makeFormattedSelect (selectRows : SelectRows) (cls : RowType) (limit : Option ℕ)
    (kwargs : Kwargs) : Except SelectError (List Row) :=
  selectRows ⟨cls, whereClause kwargs, limit.filter (· ≠ 0)⟩

/-! ### `get` -/

inductive Warning
  /-- `Cannot find %s with %s` -/
  | cannotFind
  /-- `Cannot find unambiguously %s with %s: found %d` -/
  | cannotFindUnambiguously (found : ℕ)
  deriving DecidableEq

/-- What `get` returns, and the warning that it logged. -/
structure Found where
  row : Option Row
  warning : Option Warning

def YtRow.get (fetchRows : Option ℕ → Except SelectError (List Row)) : Except SelectError Found :=
  (fetchRows (some 1)).map fun rows =>
    match rows with
    | [] => ⟨none, some .cannotFind⟩
    | row :: rest =>
      if (row :: rest).length ≠ 1 then ⟨none, some (.cannotFindUnambiguously (row :: rest).length)⟩
      else ⟨some row, none⟩

section Classes

variable (selectRows : SelectRows)

/-! Each class has the keyword arguments that its `fetch_rows` hands on; a shard is left out. -/

def DagMeta.kwargs (id dagId runId : Option FilterValue) : Kwargs :=
  ⟨[(Columns.id, id), (Columns.dagId, dagId), (Columns.runId, runId)],
    (by decide : [Columns.id.name, Columns.dagId.name, Columns.runId.name].Nodup)⟩

def DagMeta.fetchRows (id dagId runId : Option FilterValue) (limit : Option ℕ) :
    Except SelectError (List Row) :=
  makeFormattedSelect selectRows .dagMeta limit (DagMeta.kwargs id dagId runId)

def DagMeta.get (dagId runId id : Option FilterValue) : Except SelectError Found :=
  YtRow.get (DagMeta.fetchRows selectRows id dagId runId)

def TaskRef.kwargs (dagId taskId payloadHash : Option FilterValue) : Kwargs :=
  ⟨[(Columns.taskId, taskId), (Columns.dagId, dagId), (Columns.payloadHash, payloadHash)],
    (by decide : [Columns.taskId.name, Columns.dagId.name, Columns.payloadHash.name].Nodup)⟩

def TaskRef.fetchRows (dagId taskId payloadHash : Option FilterValue) (limit : Option ℕ) :
    Except SelectError (List Row) :=
  makeFormattedSelect selectRows .taskRef limit (TaskRef.kwargs dagId taskId payloadHash)

def TaskRef.get (dagId taskId : Option FilterValue) : Except SelectError Found :=
  YtRow.get (TaskRef.fetchRows selectRows dagId taskId none)

def DagRef.kwargs (dagId payloadHash : Option FilterValue) : Kwargs :=
  ⟨[(Columns.dagId, dagId), (Columns.payloadHash, payloadHash)],
    (by decide : [Columns.dagId.name, Columns.payloadHash.name].Nodup)⟩

def DagRef.fetchRows (dagId payloadHash : Option FilterValue) (limit : Option ℕ) :
    Except SelectError (List Row) :=
  makeFormattedSelect selectRows .dagRef limit (DagRef.kwargs dagId payloadHash)

def DagRef.get (dagId payloadHash : Option FilterValue) : Except SelectError Found :=
  YtRow.get (DagRef.fetchRows selectRows dagId payloadHash)

def DagRun.kwargs (runId dagId state : Option FilterValue) : Kwargs :=
  ⟨[(Columns.runId, runId), (Columns.dagId, dagId), (Columns.state, state)],
    (by decide : [Columns.runId.name, Columns.dagId.name, Columns.state.name].Nodup)⟩

def DagRun.fetchRows (runId dagId state : Option FilterValue) (limit : Option ℕ) :
    Except SelectError (List Row) :=
  makeFormattedSelect selectRows .dagRun limit (DagRun.kwargs runId dagId state)

def DagRun.get (runId dagId : Option FilterValue) : Except SelectError Found :=
  YtRow.get (DagRun.fetchRows selectRows runId dagId none)

def TaskRun.kwargs (runId taskId dagId dagrunId state operationId : Option FilterValue) : Kwargs :=
  ⟨[(Columns.runId, runId), (Columns.taskId, taskId), (Columns.dagId, dagId),
      (Columns.dagrunId, dagrunId), (Columns.state, state), (Columns.operationId, operationId)],
    (by decide : [Columns.runId.name, Columns.taskId.name, Columns.dagId.name,
      Columns.dagrunId.name, Columns.state.name, Columns.operationId.name].Nodup)⟩

def TaskRun.fetchRows (runId taskId dagId dagrunId state operationId : Option FilterValue)
    (limit : Option ℕ) : Except SelectError (List Row) :=
  makeFormattedSelect selectRows .taskRun limit
    (TaskRun.kwargs runId taskId dagId dagrunId state operationId)

def TaskRun.get (runId taskId dagId dagrunId operationId : Option FilterValue) :
    Except SelectError Found :=
  YtRow.get (TaskRun.fetchRows selectRows runId taskId dagId dagrunId none operationId)

end Classes

/-! ### Lookups -/

/-- A call of one of the `get`s. -/
inductive Lookup
  | dagMeta (dagId runId id : Option FilterValue)
  | taskRef (dagId taskId : Option FilterValue)
  | dagRef (dagId payloadHash : Option FilterValue)
  | dagRun (runId dagId : Option FilterValue)
  | taskRun (runId taskId dagId dagrunId operationId : Option FilterValue)

namespace Lookup

def get (selectRows : SelectRows) : Lookup → Except SelectError Found
  | .dagMeta dagId runId id => DagMeta.get selectRows dagId runId id
  | .taskRef dagId taskId => TaskRef.get selectRows dagId taskId
  | .dagRef dagId payloadHash => DagRef.get selectRows dagId payloadHash
  | .dagRun runId dagId => DagRun.get selectRows runId dagId
  | .taskRun runId taskId dagId dagrunId operationId =>
    TaskRun.get selectRows runId taskId dagId dagrunId operationId

def rowType : Lookup → RowType
  | .dagMeta .. => .dagMeta
  | .taskRef .. => .taskRef
  | .dagRef .. => .dagRef
  | .dagRun .. => .dagRun
  | .taskRun .. => .taskRun

/-- What `make_formatted_select` is handed: `None` for what `get` has no argument for. -/
def kwargs : Lookup → Kwargs
  | .dagMeta dagId runId id => DagMeta.kwargs id dagId runId
  | .taskRef dagId taskId => TaskRef.kwargs dagId taskId none
  | .dagRef dagId payloadHash => DagRef.kwargs dagId payloadHash
  | .dagRun runId dagId => DagRun.kwargs runId dagId none
  | .taskRun runId taskId dagId dagrunId operationId =>
    TaskRun.kwargs runId taskId dagId dagrunId none operationId

/-- The arguments by the columns that they are about. -/
def filter : Lookup → List (Column × Option FilterValue)
  | .dagMeta dagId runId id => [(Columns.dagId, dagId), (Columns.runId, runId), (Columns.id, id)]
  | .taskRef dagId taskId => [(Columns.dagId, dagId), (Columns.taskId, taskId)]
  | .dagRef dagId payloadHash => [(Columns.dagId, dagId), (Columns.payloadHash, payloadHash)]
  | .dagRun runId dagId => [(Columns.runId, runId), (Columns.dagId, dagId)]
  | .taskRun runId taskId dagId dagrunId operationId =>
    [(Columns.runId, runId), (Columns.taskId, taskId), (Columns.dagId, dagId),
      (Columns.dagrunId, dagrunId), (Columns.operationId, operationId)]

/-- The row has one of the given strings in every column that the filter is about. -/
def accepts (l : Lookup) (row : Row) : Bool :=
  l.filter.all fun arg => arg.2.all fun value => value.values.any fun v => row arg.1.name = some v

/-- The stored rows that match the filter. -/
def matching (l : Lookup) (tables : Tables) : List Row := (tables l.rowType).filter l.accepts

end Lookup

/-- `get` returned a row exactly if this row alone matches, and `None` otherwise. -/
def NeverGuesses (tables : Tables) (l : Lookup) (result : Except SelectError Found) : Prop :=
  ∃ found, result = .ok found ∧
    (∀ row, found.row = some row ↔ l.matching tables = [row]) ∧
    (found.row = none ↔ (l.matching tables).length ≠ 1)

end YtScheduler.Lookups
