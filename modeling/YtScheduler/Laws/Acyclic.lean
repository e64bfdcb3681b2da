import YtScheduler.Dags.Specs
import YtScheduler.Runs.Progress

/-! Which accepted DAGs are acyclic. Nothing looks for cycles: a spec is accepted
whatever tables its steps name, and its upstream relation is acyclic exactly when no
chain of tables leads from a step back to it. -/

namespace YtScheduler

open Serialization

namespace Dags

/-- The upstream relation that is left by `resolve_tasks_dependencies`. -/
def Dag.Upstream (d : Dag) (u t : String) : Prop :=
  ∃ task ∈ d.tasks, task.taskId = t ∧ u ∈ task.precedingTaskIds

/-- Step `u` writes a table that step `t` reads. -/
def Dag.FeedsStep (B : Builders) (d : Dag) (u t : String) : Prop :=
  ∃ p ∈ d.tasks, ∃ c ∈ d.tasks, p.taskId = u ∧ c.taskId = t ∧ p.Feeds B c

/-- The DAG as its runs see it. -/
structure Loads (d : Dag) (dag : YtScheduler.Dag) : Prop where
  taskIds : dag.taskIds = d.taskIds
  upstream : ∀ u t, dag.Upstream u t ↔ d.Upstream u t

variable {B : Builders} {steps : List (String × Entries)} {workDir : String} {d : Dag}

/-- The task at a place of an accepted DAG, and its upstream ids. -/
theorem accepted_task (hd : Dag.fromSpecConf B steps workDir = .ok d) {t : Task}
    (ht : t ∈ d.tasks) (u : String) :
    u ∈ t.precedingTaskIds ↔ ∃ p ∈ d.tasks, p.taskId = u ∧ p.Feeds B t := by
  obtain ⟨base, hbase, rfl⟩ := fromSpecConf_spec hd
  rw [resolve_eq hbase.fresh] at ht ⊢
  obtain ⟨b, _, rfl⟩ := List.mem_map.mp ht
  rw [mem_preceding_tied]
  constructor
  · rintro ⟨p, hp, hfeeds, rfl⟩
    exact ⟨p.tied B base, List.mem_map_of_mem hp, rfl, hfeeds⟩
  · rintro ⟨_, hmem, rfl, hfeeds⟩
    obtain ⟨p, hp, rfl⟩ := List.mem_map.mp hmem
    exact ⟨p, hp, hfeeds, rfl⟩

theorem upstream_iff_feedsStep (hd : Dag.fromSpecConf B steps workDir = .ok d) (u t : String) :
    d.Upstream u t ↔ d.FeedsStep B u t := by
  constructor
  · rintro ⟨task, htask, hid, hu⟩
    obtain ⟨p, hp, hpid, hfeeds⟩ := (accepted_task hd htask u).mp hu
    exact ⟨p, hp, task, htask, hpid, hid, hfeeds⟩
  · rintro ⟨p, hp, c, hc, hpid, hcid, hfeeds⟩
    exact ⟨c, hc, hcid, (accepted_task hd hc u).mpr ⟨p, hp, hpid, hfeeds⟩⟩

theorem acyclic_iff (hd : Dag.fromSpecConf B steps workDir = .ok d) :
    Graphs.Acyclic d.Upstream ↔ Graphs.Acyclic (d.FeedsStep B) := by
  constructor
  · exact fun h => h.mono fun u t => (upstream_iff_feedsStep hd u t).mpr
  · exact fun h => h.mono fun u t => (upstream_iff_feedsStep hd u t).mp

/-- An accepted DAG can be loaded. -/
theorem exists_loads (hsteps : (steps.map Prod.fst).Nodup)
    (hd : Dag.fromSpecConf B steps workDir = .ok d) (dagId : Uuid) :
    ∃ dag, dag.dagId = dagId ∧ Loads d dag := by
  have hids : (d.tasks.map Task.taskId).Nodup := by
    obtain ⟨base, hbase, rfl⟩ := fromSpecConf_spec hd
    have hid : ∀ ts : List Task, ts.map Task.taskId = (ts.map Task.bare).map Task.taskId :=
      fun ts => by rw [List.map_map]; rfl
    rw [hid, map_bare_resolve, ← hid, hbase.taskIds]
    exact hsteps
  let load : Task → YtScheduler.Task := fun t => ⟨t.taskId, dagId, t.precedingTaskIds.toList⟩
  have hmap : (d.tasks.map load).map YtScheduler.Task.taskId = d.tasks.map Task.taskId := by
    rw [List.map_map]
    rfl
  refine ⟨⟨dagId, d.tasks.map load, ?_, ?_, ?_⟩, rfl, hmap, ?_⟩
  · rwa [hmap]
  · intro t ht
    obtain ⟨task, _, rfl⟩ := List.mem_map.mp ht
    rfl
  · intro t ht u hu
    obtain ⟨task, htask, rfl⟩ := List.mem_map.mp ht
    rw [hmap]
    obtain ⟨p, hp, rfl, _⟩ := (accepted_task hd htask u).mp (Finset.mem_toList.mp hu)
    exact List.mem_map_of_mem hp
  · intro u t
    rw [YtScheduler.Dag.Upstream, YtScheduler.Dag.mem_upstream]
    constructor
    · rintro ⟨t', ht', rfl, hu⟩
      obtain ⟨task, htask, rfl⟩ := List.mem_map.mp ht'
      exact ⟨task, htask, rfl, Finset.mem_toList.mp hu⟩
    · rintro ⟨task, htask, rfl, hu⟩
      exact ⟨load task, List.mem_map_of_mem htask, rfl, Finset.mem_toList.mpr hu⟩

/-- A DAG with a task has a root. -/
theorem roots_ne_nil (hd : Dag.fromSpecConf B steps workDir = .ok d)
    (hacyclic : Graphs.Acyclic d.Upstream) (hne : d.tasks ≠ []) : d.roots ≠ [] := by
  obtain ⟨m, hm, hmin⟩ := hacyclic.exists_minimal (s := d.taskIds) (by simpa [Dag.taskIds] using hne)
  obtain ⟨task, htask, rfl⟩ := List.mem_map.mp hm
  apply List.ne_nil_of_mem (a := task)
  rw [Dag.roots, List.mem_filter, decide_eq_true_eq, Finset.eq_empty_iff_forall_notMem]
  refine ⟨htask, fun u hu => ?_⟩
  obtain ⟨p, hp, rfl, _⟩ := (accepted_task hd htask u).mp hu
  exact hmin p.taskId (List.mem_map_of_mem hp) ⟨task, htask, rfl, hu⟩

end Dags

/-! ### The law -/

open Dags

/-- A step that reads the table it writes. -/
def loopSpec : List (String × Entries) :=
  [("sort_in_place",
      [("operation_type", .prim (.str "map")),
        ("input_table_paths", .list [.prim (.str "//table")]),
        ("output_table_paths", .list [.prim (.str "//table")])])]

def loopDag : Dags.Dag where
  dagId := none
  workDir := "//home"
  tasks :=
    [⟨"sort_in_place", none, "map",
        [("input_table_paths", .list [.prim (.str "//table")]),
          ("output_table_paths", .list [.prim (.str "//table")])],
        {"sort_in_place"}, {"sort_in_place"}⟩]

end YtScheduler
