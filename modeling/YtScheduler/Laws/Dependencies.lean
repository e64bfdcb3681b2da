import YtScheduler.Dags.Specs

/-! The dependencies of a DAG are its shared tables. Each task brings the same rule,
so the rule is applied once for every task, and each time it finds what it left. -/

namespace YtScheduler

namespace Dags

/-- What `resolve_tasks_dependencies` makes of the tasks of a DAG. -/
structure SharesTables (B : Builders) (tasks : List Task) : Prop where
  tasks_stay : (resolveTasksDependencies B tasks).map Task.bare = tasks.map Task.bare
  preceding_iff : ∀ p ∈ resolveTasksDependencies B tasks, ∀ c ∈ resolveTasksDependencies B tasks,
    (p.taskId ∈ c.precedingTaskIds ↔ p.Feeds B c)
  succeeding_iff : ∀ p ∈ resolveTasksDependencies B tasks, ∀ c ∈ resolveTasksDependencies B tasks,
    (p.taskId ∈ c.precedingTaskIds ↔ c.taskId ∈ p.succeedingTaskIds)
  of_tasks : ∀ t ∈ resolveTasksDependencies B tasks,
    ∀ u ∈ t.precedingTaskIds ∪ t.succeedingTaskIds, ∃ t' ∈ tasks, t'.taskId = u
  again : resolveTasksDependencies B (resolveTasksDependencies B tasks) =
    resolveTasksDependencies B tasks
  any_order : ∀ tasks', tasks'.Perm tasks →
    (resolveTasksDependencies B tasks').Perm (resolveTasksDependencies B tasks)

variable {B : Builders} {tasks : List Task}

theorem Fresh.perm {tasks' : List Task} (h : Fresh tasks) (hp : tasks'.Perm tasks) : Fresh tasks' where
  preceding t ht := h.preceding t (hp.mem_iff.mp ht)
  succeeding t ht := h.succeeding t (hp.mem_iff.mp ht)
  dagId t ht u hu := h.dagId t (hp.mem_iff.mp ht) u (hp.mem_iff.mp hu)

theorem resolve_perm {tasks' : List Task} (h : Fresh tasks) (hp : tasks'.Perm tasks) :
    (resolveTasksDependencies B tasks').Perm (resolveTasksDependencies B tasks) := by
  have htied : Task.tied B tasks' = Task.tied B tasks := by
    funext t
    exact tied_congr (fun u => hp.mem_iff) t
  rw [resolve_eq (h.perm hp), resolve_eq h, htied]
  exact hp.map _

/-- Tasks with different ids are found by them. -/
theorem feeds_of_taskId (hids : (tasks.map Task.taskId).Nodup) {p q : Task} (hp : p ∈ tasks)
    (hq : q ∈ tasks) (hid : q.taskId = p.taskId) : q = p :=
  List.inj_on_of_nodup_map hids hq hp hid

theorem preceding_tied_iff (hids : (tasks.map Task.taskId).Nodup) {p c : Task} (hp : p ∈ tasks) :
    p.taskId ∈ (c.tied B tasks).precedingTaskIds ↔ p.Feeds B c := by
  rw [mem_preceding_tied]
  constructor
  · rintro ⟨q, hq, hfeeds, hid⟩
    rwa [← feeds_of_taskId hids hp hq hid]
  · intro hfeeds
    exact ⟨p, hp, hfeeds, rfl⟩

theorem succeeding_tied_iff (hids : (tasks.map Task.taskId).Nodup) {p c : Task} (hc : c ∈ tasks) :
    c.taskId ∈ (p.tied B tasks).succeedingTaskIds ↔ p.Feeds B c := by
  rw [mem_succeeding_tied]
  constructor
  · rintro ⟨q, hq, hfeeds, hid⟩
    rwa [← feeds_of_taskId hids hc hq hid]
  · intro hfeeds
    exact ⟨c, hc, hfeeds, rfl⟩

end Dags

open Dags

/-- After `resolve_tasks_dependencies` a task precedes another one exactly if it writes a table
the other one reads. -/
theorem dependencies_are_shared_tables (B : Builders) (tasks : List Dags.Task) (hfresh : Fresh tasks)
    (hids : (tasks.map Dags.Task.taskId).Nodup) : SharesTables B tasks where
  tasks_stay := map_bare_resolve
  preceding_iff := by
    intro p hp c hc
    rw [resolve_eq hfresh] at hp hc
    obtain ⟨q, hq, rfl⟩ := List.mem_map.mp hp
    obtain ⟨d, _, rfl⟩ := List.mem_map.mp hc
    exact preceding_tied_iff (p := q) (c := d) hids hq
  succeeding_iff := by
    intro p hp c hc
    rw [resolve_eq hfresh] at hp hc
    obtain ⟨q, hq, rfl⟩ := List.mem_map.mp hp
    obtain ⟨d, hd, rfl⟩ := List.mem_map.mp hc
    exact (preceding_tied_iff (p := q) (c := d) hids hq).trans
      (succeeding_tied_iff (p := q) (c := d) hids hd).symm
  of_tasks := by
    intro t ht u hu
    rw [resolve_eq hfresh] at ht
    obtain ⟨_, _, rfl⟩ := List.mem_map.mp ht
    rcases Finset.mem_union.mp hu with hu | hu
    · obtain ⟨p, hp, _, rfl⟩ := mem_preceding_tied.mp hu
      exact ⟨p, hp, rfl⟩
    · obtain ⟨c, hc, _, rfl⟩ := mem_succeeding_tied.mp hu
      exact ⟨c, hc, rfl⟩
  again := resolve_again
  any_order _ hp := resolve_perm hfresh hp

theorem cat_dependencies : SharesTables mapBuilder (catDag.tasks.map Dags.Task.bare) :=
  dependencies_are_shared_tables _ _ ⟨by decide, by decide, by decide⟩ (by decide)

end YtScheduler
