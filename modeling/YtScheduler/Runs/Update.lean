import YtScheduler.Store.Query
import YtScheduler.Runs.Dag

/-! The pure part of the writes to TaskRun and DagRun rows: what `update_row` asks
for, which rows match a requirement, and the row that replaces the old one. No
update touches the columns that identify a row, which `ident` collects. -/

namespace YtScheduler

/-- A TaskRun or DagRun object of the process, as opposed to its persisted row. -/
abbrev Ref := ℕ

/-- The first argument of `update_row`: a run id or an object. -/
inductive Target
  | id (runId : Uuid)
  | obj (ref : Ref)
  deriving DecidableEq

/-- The `required_*` arguments of `update_row` that are not `None`. -/
structure Requires where
  taskId : Option (FilterValue String) := none
  dagId : Option (FilterValue Uuid) := none
  dagrunId : Option (FilterValue Uuid) := none
  state : Option (FilterValue TaskRunState) := none
  operationId : Option (FilterValue (Option OperationId)) := none

namespace Requires

/-- The truth value of the dictionary. -/
def nonempty (requires : Requires) : Bool :=
  requires.taskId.isSome || requires.dagId.isSome || requires.dagrunId.isSome ||
    requires.state.isSome || requires.operationId.isSome

/-- `_is_matched`. -/
def isMatched (requires : Requires) (row : TaskRunRow) : Bool :=
  FilterValue.acceptsOpt requires.taskId row.taskId &&
    FilterValue.acceptsOpt requires.dagId row.dagId &&
    FilterValue.acceptsOpt requires.dagrunId row.dagrunId &&
    FilterValue.acceptsOpt requires.state row.state &&
    FilterValue.acceptsOpt requires.operationId row.operationId

end Requires

/-- The result of `update_row`. -/
structure UpdateRow where
  row : Target
  state : Option TaskRunState := none
  operationId : Option OperationId := none
  requires : Requires := {}

/-- The columns of a TaskRun that never change. -/
structure TaskRunIdent where
  runId : Uuid
  taskId : String
  dagId : Uuid
  dagrunId : Uuid
  deriving DecidableEq

namespace TaskRunRow

def ident (row : TaskRunRow) : TaskRunIdent := ⟨row.runId, row.taskId, row.dagId, row.dagrunId⟩

/-- The change of state in `_build_row`. -/
def enter (row : TaskRunRow) (state : TaskRunState) (now : Iso) : TaskRunRow :=
  if state ∈ TaskRunState.unfinishedStates then
    { row with
      state := state
      scheduledAt := row.scheduledAt.or (some now)
      queuedAt := if state = .scheduled then none else row.queuedAt.or (some now)
      startDate := if state = .running then some now else none
      endDate := none }
  else if row.state ∈ TaskRunState.unfinishedStates then
    { row with state := state, endDate := some now }
  else { row with state := state }

/-- `_build_row`. -/
def buildRow (row : TaskRunRow) (state : Option TaskRunState) (operationId : Option OperationId)
    (now : Iso) : TaskRunRow :=
  let base := match state with
    | none => row
    | some state => if row.state = state then row else row.enter state now
  match operationId with
  | none => base
  | some operation => { base with operationId := some operation }

@[simp] theorem ident_enter (row : TaskRunRow) (state : TaskRunState) (now : Iso) :
    (row.enter state now).ident = row.ident := by
  unfold enter
  split_ifs <;> rfl

@[simp] theorem state_enter (row : TaskRunRow) (state : TaskRunState) (now : Iso) :
    (row.enter state now).state = state := by
  unfold enter
  split_ifs <;> rfl

@[simp] theorem ident_buildRow (row : TaskRunRow) (state : Option TaskRunState)
    (operationId : Option OperationId) (now : Iso) :
    (row.buildRow state operationId now).ident = row.ident := by
  have hbase : ∀ state : TaskRunState,
      (if row.state = state then row else row.enter state now).ident = row.ident := by
    intro state
    split_ifs <;> simp
  cases state with
  | none => cases operationId <;> rfl
  | some state => cases operationId <;> exact hbase state

@[simp] theorem state_buildRow (row : TaskRunRow) (state : TaskRunState)
    (operationId : Option OperationId) (now : Iso) :
    (row.buildRow (some state) operationId now).state = state := by
  have hbase : (if row.state = state then row else row.enter state now).state = state := by
    split_ifs with h
    · exact h
    · exact state_enter row state now
  cases operationId <;> exact hbase

@[simp] theorem operationId_buildRow (row : TaskRunRow) (state : Option TaskRunState)
    (operation : OperationId) (now : Iso) :
    (row.buildRow state (some operation) now).operationId = some operation := rfl

theorem operationId_buildRow_none (row : TaskRunRow) (state : Option TaskRunState) (now : Iso) :
    (row.buildRow state none now).operationId = row.operationId := by
  cases state with
  | none => rfl
  | some state =>
    show (if row.state = state then row else row.enter state now).operationId = row.operationId
    unfold enter
    split_ifs <;> rfl

theorem state_buildRow_none (row : TaskRunRow) (operationId : Option OperationId) (now : Iso) :
    (row.buildRow none operationId now).state = row.state := by
  cases operationId <;> rfl

theorem runId_of_ident {row row' : TaskRunRow} (h : row.ident = row'.ident) :
    row.runId = row'.runId := congrArg TaskRunIdent.runId h

end TaskRunRow

/-- The columns of a DagRun that never change. -/
structure DagRunIdent where
  runId : Uuid
  dagId : Uuid
  deriving DecidableEq

namespace DagRunRow

def ident (row : DagRunRow) : DagRunIdent := ⟨row.runId, row.dagId⟩

/-- `_build_row_by_state`. -/
def buildRowByState (row : DagRunRow) (state : DagRunState) (now : Iso) : DagRunRow :=
  if row.state = state then row
  else if state ∈ [DagRunState.scheduled, .queued, .running] then
    { row with
      state := state
      scheduledAt := row.scheduledAt.or (some now)
      queuedAt := if state = .scheduled then none else row.queuedAt.or (some now)
      startDate := if state = .running then some now else none
      endDate := none }
  else if row.state ∈ [DagRunState.scheduled, .queued, .running] then
    let queuedAt := row.queuedAt.or row.scheduledAt
    { row with
      state := state
      queuedAt := queuedAt
      startDate := row.startDate.or queuedAt
      endDate := some now }
  else { row with state := state }

@[simp] theorem ident_buildRowByState (row : DagRunRow) (state : DagRunState) (now : Iso) :
    (row.buildRowByState state now).ident = row.ident := by
  unfold buildRowByState
  split_ifs <;> rfl

@[simp] theorem state_buildRowByState (row : DagRunRow) (state : DagRunState) (now : Iso) :
    (row.buildRowByState state now).state = state := by
  unfold buildRowByState
  split_ifs with h
  · exact h
  all_goals rfl

end DagRunRow

end YtScheduler
