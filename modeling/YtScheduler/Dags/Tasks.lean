import Mathlib.Data.Finset.Insert
import YtScheduler.Serialization.Encoding
import YtScheduler.Store.Rows

/-! DAGs as they are built from a spec: a task for each step, with a spec builder, and
between the tasks the relations that their table paths give. -/

namespace YtScheduler.Dags

open Serialization

/-- What the package of spec builders provides: the operation types it has a builder for, the
preparation of the tables of a user spec, and the table paths. -/
structure Builders where
  known : String → Bool
  prepareTables (workDir operationType : String) (spec : Entries) : Except PyError Entries
  getInputTablePaths (operationType : String) (spec : Entries) : List String
  getOutputTablePaths (operationType : String) (spec : Entries) : List String

/-- A task with its spec builder, which is its operation type and its `_user_spec`. -/
structure Task where
  taskId : String
  dagId : Option Uuid
  operationType : String
  userSpec : Entries
  precedingTaskIds : Finset String
  succeedingTaskIds : Finset String

/-- `task_dict` as the list of its values. -/
structure Dag where
  dagId : Option Uuid
  workDir : String
  tasks : List Task

/-- The exceptions that leave the construction of a DAG. -/
inductive DagError
  /-- "Task not created %s for %s" -/
  | notCreated (taskId : String) (cfg : Entries)
  | raised (e : PyError)
  /-- "Failed to deserialize DAG {dag_id}: {e}" -/
  | deserialize (dagId : Uuid) (e : PyError)
  /-- "Failed to initialize DAG {dag_id}: {e}" -/
  | initialization (dagId : Uuid) (e : PyError)

def Dag.taskIds (dag : Dag) : List String := dag.tasks.map Task.taskId

def Dag.roots (dag : Dag) : List Task := dag.tasks.filter fun t => t.precedingTaskIds = ∅

/-! ### Relations -/

/-- `_set_relatives` of one task: task `p` is upstream of task `i`. -/
def setRelative (i : ℕ) (tasks : List Task) (p : ℕ) : List Task :=
  match tasks[i]?, tasks[p]? with
  | some self, some task =>
    if task.dagId ≠ self.dagId then tasks
    else
      (tasks.modify p fun t =>
        { t with succeedingTaskIds := insert self.taskId t.succeedingTaskIds }).modify i fun t =>
        { t with precedingTaskIds := insert task.taskId t.precedingTaskIds }
  | _, _ => tasks

def setUpstream (i : ℕ) (producers : List ℕ) (tasks : List Task) : List Task :=
  producers.foldl (setRelative i) tasks

section Resolve

variable (B : Builders)

def Task.getInputTablePaths (t : Task) : List String := B.getInputTablePaths t.operationType t.userSpec

def Task.getOutputTablePaths (t : Task) : List String :=
  B.getOutputTablePaths t.operationType t.userSpec

/-- The tasks `producers_map` holds for a path, once for every output that names it. -/
def producers (tasks : List Task) (path : String) : List ℕ :=
  tasks.zipIdx.flatMap fun (t, i) => ((t.getOutputTablePaths B).filter (· = path)).map fun _ => i

/-- One dependency rule: the outputs of a task are read by others. -/
def applyRule (tasks : List Task) : List Task :=
  tasks.zipIdx.foldl (fun ts (t, i) =>
    (t.getInputTablePaths B).foldl (fun ts path =>
      if (producers B tasks path).isEmpty then ts else setUpstream i (producers B tasks path) ts) ts)
    tasks

/-- `resolve_tasks_dependencies`: every task brings the rule of its class. -/
def resolveTasksDependencies (tasks : List Task) : List Task :=
  tasks.foldl (fun ts _ => applyRule B ts) tasks

end Resolve

/-! ### Construction -/

section Construction

variable (B : Builders)

/-- `Task.from_spec_conf`. -/
def Task.fromSpecConf (spec : Entries) (taskId : String) : Except PyError (Option Task) :=
  match spec.lookup "operation_type" with
  | none => .ok none
  | some (.prim (.str operationType)) =>
    if B.known operationType then
      .ok (some
        { taskId, dagId := none, operationType
          userSpec := spec.filter fun e => e.1 ≠ "operation_type"
          precedingTaskIds := ∅, succeedingTaskIds := ∅ })
    else .ok none
  | some v => if v.hashable then .ok none else .error .typeError

def Task.prepareUserSpec (workDir : String) (t : Task) : Except PyError Task :=
  (B.prepareTables workDir t.operationType t.userSpec).map fun spec => { t with userSpec := spec }

/-- The loop of `from_spec_conf`. -/
def tasksFromSpec (workDir : String) : List (String × Entries) → Except DagError (List Task)
  | [] => .ok []
  | (taskId, params) :: steps =>
    match Task.fromSpecConf B params taskId with
    | .error e => .error (.raised e)
    | .ok none => .error (.notCreated taskId params)
    | .ok (some task) =>
      match task.prepareUserSpec B workDir with
      | .error e => .error (.raised e)
      | .ok task => (tasksFromSpec workDir steps).map (task :: ·)

/-- `DAG.from_spec_conf`. -/
def Dag.fromSpecConf (steps : List (String × Entries)) (workDir : String) : Except DagError Dag :=
  (tasksFromSpec B workDir steps).map fun tasks =>
    ⟨none, workDir, resolveTasksDependencies B tasks⟩

end Construction

end YtScheduler.Dags
