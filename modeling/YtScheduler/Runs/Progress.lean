import YtScheduler.Graphs.Acyclic
import YtScheduler.Runs.Decisions

/-! A run of an acyclic DAG has a TaskRun to release whenever nothing else can happen. -/

namespace YtScheduler

namespace Dag

/-- Task `u` is upstream of task `t`. -/
def Upstream (dag : Dag) (u t : String) : Prop := u ∈ DagRun.upstream dag t

theorem mem_upstream {dag : Dag} {u t : String} :
    u ∈ DagRun.upstream dag t ↔ ∃ task ∈ dag.tasks, task.taskId = t ∧ u ∈ task.precedingTaskIds := by
  rw [DagRun.upstream]
  cases htask : dag.task? t with
  | none =>
    simp only [Option.map_none, Option.getD_none, List.not_mem_nil, false_iff, not_exists, not_and]
    intro task hmem hid _
    rw [task?_eq_some.mpr ⟨hmem, hid⟩] at htask
    cases htask
  | some task =>
    obtain ⟨hmem, hid⟩ := task?_eq_some.mp htask
    simp only [Option.map_some, Option.getD_some, Task.upstreamTaskIds]
    constructor
    · exact fun hu => ⟨task, hmem, hid, hu⟩
    · rintro ⟨task', hmem', hid', hu⟩
      rw [task?_eq_some.mpr ⟨hmem', hid'⟩] at htask
      cases htask
      exact hu

theorem upstream_mem_taskIds {dag : Dag} {u t : String} (h : dag.Upstream u t) :
    u ∈ dag.taskIds := by
  obtain ⟨task, hmem, _, hu⟩ := mem_upstream.mp h
  exact dag.upstream_mem task hmem u hu

end Dag

namespace DagRun

/-- A run with one TaskRun for each task, of which none has failed and none is queued or running,
but some are scheduled. -/
structure Idle (dag : Dag) (rows : List TaskRunRow) : Prop where
  tasks : (rows.map TaskRunRow.taskId).Perm dag.taskIds
  healthy : ∀ r ∈ rows, r.state ≠ .failed
  quiet : ∀ r ∈ rows, r.state ≠ .queued ∧ r.state ≠ .running
  waiting : ∃ r ∈ rows, r.state = .scheduled

variable {dag : Dag} {trs : List TaskRunObj}

theorem Idle.tasks_ne_nil {rows : List TaskRunRow} (h : Idle dag rows) : dag.tasks ≠ [] := by
  obtain ⟨r, hr, _⟩ := h.waiting
  have hid := h.tasks.mem_iff.mp (List.mem_map_of_mem hr)
  intro hnil
  simp [Dag.taskIds, hnil] at hid

theorem Idle.anyFailed (h : Idle dag (trs.map (·.row))) : anyFailed trs = false := by
  rw [DagRun.anyFailed, List.any_eq_false]
  intro tr htr
  simpa using h.healthy tr.row (List.mem_map_of_mem htr)

/-- What such a run releases: scheduled TaskRuns whose upstream tasks are finished, and at least
one. -/
theorem Idle.released_ne_nil (h : Idle dag (trs.map (·.row)))
    (hacyclic : Graphs.Acyclic dag.Upstream) : releasedTrs dag trs ≠ [] := by
  -- a minimal task among those with a scheduled TaskRun
  let scheduled := (trs.map (·.row)).filter fun r => r.state = .scheduled
  have hmem : ∀ {r}, r ∈ scheduled ↔ r ∈ trs.map (·.row) ∧ r.state = .scheduled := by
    intro r
    rw [List.mem_filter, decide_eq_true_eq]
  obtain ⟨r₀, hr₀, hs₀⟩ := h.waiting
  obtain ⟨m, hm, hmin⟩ := hacyclic.exists_minimal (s := scheduled.map TaskRunRow.taskId)
    (List.ne_nil_of_mem (List.mem_map_of_mem (hmem.mpr ⟨hr₀, hs₀⟩)))
  obtain ⟨r, hr, rfl⟩ := List.mem_map.mp hm
  obtain ⟨hrow, hs⟩ := hmem.mp hr
  obtain ⟨tr, htr, rfl⟩ := List.mem_map.mp hrow
  apply List.ne_nil_of_mem (a := tr)
  rw [mem_releasedTrs]
  refine ⟨h.anyFailed, htr, hs, fun u hu => ?_⟩
  obtain ⟨up, hup, rfl⟩ := List.mem_map.mp (h.tasks.mem_iff.mpr (Dag.upstream_mem_taskIds hu))
  have hnot : up.state ≠ .scheduled := fun hs =>
    hmin up.taskId (List.mem_map_of_mem (hmem.mpr ⟨hup, hs⟩)) hu
  have hquiet := h.quiet up hup
  have hfinished : up.state ∈ TaskRunState.finishedStates := by
    cases hs : up.state with
    | scheduled => exact absurd hs hnot
    | queued => exact absurd hs hquiet.1
    | running => exact absurd hs hquiet.2
    | _ => decide
  obtain ⟨uptr, huptr, rfl⟩ := List.mem_map.mp hup
  exact ⟨uptr, huptr, rfl, hfinished⟩

end DagRun

end YtScheduler
