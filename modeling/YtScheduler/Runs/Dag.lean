import YtScheduler.Store.State
import YtScheduler.Store.Filters
import Mathlib.Data.List.Nodup

/-! DAGs as the scheduler sees them: tasks with their upstream ids. -/

namespace YtScheduler

structure Task where
  taskId : String
  dagId : Uuid
  precedingTaskIds : List String
  deriving DecidableEq

def Task.upstreamTaskIds (t : Task) : List String := t.precedingTaskIds

/-- A loaded DAG. `task_dict` is keyed by task id, every task carries the id of the DAG,
and relations are only set between its tasks. -/
structure Dag where
  dagId : Uuid
  tasks : List Task
  nodup : (tasks.map Task.taskId).Nodup
  dagId_eq : ∀ t ∈ tasks, t.dagId = dagId
  upstream_mem : ∀ t ∈ tasks, ∀ u ∈ t.precedingTaskIds, u ∈ tasks.map Task.taskId

namespace Dag

def taskIds (dag : Dag) : List String := dag.tasks.map Task.taskId

/-- No task id holds a quote or a backslash. -/
def Plain (dag : Dag) : Prop := ∀ taskId ∈ dag.taskIds, Filters.IsPlain taskId.toList

instance (dag : Dag) : Decidable dag.Plain :=
  inferInstanceAs (Decidable (∀ taskId ∈ dag.taskIds, _))

/-- `task_dict.get(task_id)`. -/
def task? (dag : Dag) (taskId : String) : Option Task := dag.tasks.find? (fun t => t.taskId = taskId)

def roots (dag : Dag) : List Task := dag.tasks.filter (fun t => t.upstreamTaskIds = [])

theorem task?_eq_some {dag : Dag} {taskId : String} {t : Task} :
    dag.task? taskId = some t ↔ t ∈ dag.tasks ∧ t.taskId = taskId := by
  constructor
  · intro h
    exact ⟨List.mem_of_find?_eq_some h, by simpa using List.find?_some h⟩
  · rintro ⟨ht, rfl⟩
    obtain ⟨t', ht'⟩ : ∃ t', dag.task? t.taskId = some t' := by
      rw [← Option.isSome_iff_exists, task?, List.find?_isSome]
      exact ⟨t, ht, by simp⟩
    have hid : t'.taskId = t.taskId := by simpa using List.find?_some ht'
    rwa [List.inj_on_of_nodup_map dag.nodup (List.mem_of_find?_eq_some ht') ht hid] at ht'

end Dag

end YtScheduler
