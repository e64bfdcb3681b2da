import YtScheduler.Laws.Steps
import YtScheduler.Runs.Progress
import YtScheduler.Sequences.Indices
import YtScheduler.Services.Passes

/-! A healthy run never stalls. When nothing of a run is queued or running and nothing
has failed, a pass over it releases the scheduled TaskRuns whose upstream tasks are
finished, of which an acyclic DAG always has one, and queues exactly those, unless a
task id holds a quote or a backslash: the query may then miss the TaskRun. -/

namespace YtScheduler

open Tablet Threads

/-- The run has a SCHEDULED TaskRun of this id all of whose upstream tasks are finished. -/
def Releasable (db : Db) (run : DagRunRow) (dag : Dag) (id : Uuid) : Prop :=
  ∃ r ∈ DagRun.taskRuns db run dag, r.runId = id ∧ r.state = .scheduled ∧
    ∀ u, dag.Upstream u r.taskId → ∃ up ∈ DagRun.taskRuns db run dag,
      up.taskId = u ∧ up.state ∈ TaskRunState.finishedStates

/-- The TaskRuns of these ids went from SCHEDULED to QUEUED, and no other TaskRun changed. -/
def QueuesExactly (db db' : Db) (ids : List Uuid) : Prop :=
  (∀ id ∈ ids, ∃ r r', db.taskRun id = some r ∧ db'.taskRun id = some r' ∧ r'.ident = r.ident ∧
    r.state = .scheduled ∧ r'.state = .queued) ∧
  ∀ id ∉ ids, db'.taskRun id = db.taskRun id

/-- Queueing the selected rows queues exactly the TaskRuns they stand for. -/
theorem queuesExactly_upsertAll {db : Db} {runId : Uuid} {tids : List Uuid} {rows : List TaskRunRow}
    (hrows : List.Forall₂ (TaskRun.Updated .queued) (DagRun.queueable db runId tids) rows)
    (hall : ∀ id ∈ tids, ∃ r ∈ DagRun.queueable db runId tids, r.runId = id) :
    QueuesExactly db (db.upsertAll (rows.map .taskRun)) tids := by
  have hold : ∀ r ∈ DagRun.queueable db runId tids,
      db.taskRun r.runId = some r ∧ r.runId ∈ tids ∧ r.state = .scheduled := by
    intro r hr
    simp only [DagRun.queueable, List.mem_filter, decide_eq_true_eq, Db.mem_taskRuns] at hr
    exact ⟨hr.1, hr.2.1, hr.2.2.2⟩
  refine ⟨fun id hid => ?_, fun id hid => ?_⟩
  · obtain ⟨r, hr, rfl⟩ := hall id hid
    obtain ⟨r', hr', hupd⟩ := Sequences.exists_right hrows hr
    obtain ⟨new, hnew, hid', hget⟩ := Db.get_upsertAll_of_written db
      (show ∃ b : TaskRunRow, RowKind.toRow b ∈ rows.map Row.taskRun ∧ RowKind.id b = r.runId from
        ⟨r', List.mem_map_of_mem hr', TaskRunRow.runId_of_ident hupd.ident⟩)
    obtain ⟨new', hmem, hrow⟩ := List.mem_map.mp hnew
    obtain rfl : new' = new := by simpa using hrow
    -- the row found is the update of a row with the same id, which is that row
    obtain ⟨r₁, hr₁, hupd₁⟩ := Sequences.exists_left hrows hmem
    have hsame : r₁.runId = r.runId := (TaskRunRow.runId_of_ident hupd₁.ident).symm.trans hid'
    have hr₁ := hold r₁ hr₁
    rw [hsame] at hr₁
    exact ⟨r₁, new', hr₁.1, hget, hupd₁.ident, hr₁.2.2, hupd₁.state⟩
  · refine Db.get_upsertAll_of_not_written fun b hb hbid => hid ?_
    obtain ⟨new, hmem, hrow⟩ := List.mem_map.mp hb
    obtain rfl : new = b := by simpa using hrow
    obtain ⟨r, hr, hupd⟩ := Sequences.exists_left hrows hmem
    rw [← hbid, id_taskRun, TaskRunRow.runId_of_ident hupd.ident]
    exact (hold r hr).2.1

/-- Ids that are all selected are selected once each. -/
theorem length_queueable {db : Db} {runId : Uuid} {tids : List Uuid} (hnodup : tids.Nodup)
    (hall : ∀ id ∈ tids, ∃ r ∈ DagRun.queueable db runId tids, r.runId = id) :
    (DagRun.queueable db runId tids).length = tids.length := by
  have hids : ((DagRun.queueable db runId tids).map TaskRunRow.runId).Nodup :=
    (List.filter_sublist.map _).nodup (Db.nodup_all db)
  have hperm : ((DagRun.queueable db runId tids).map TaskRunRow.runId).Perm tids := by
    rw [List.perm_ext_iff_of_nodup hids hnodup]
    intro id
    constructor
    · intro hid
      obtain ⟨r, hr, rfl⟩ := List.mem_map.mp hid
      simp only [DagRun.queueable, List.mem_filter, decide_eq_true_eq] at hr
      exact hr.2.1
    · intro hid
      obtain ⟨r, hr, rfl⟩ := hall id hid
      exact List.mem_map_of_mem hr
  rw [← hperm.length_eq, List.length_map]

/-- What a pass releases is releasable. -/
theorem releasable_of_released {db : Db} {run : DagRunRow} {dag : Dag} {trs : List TaskRunObj}
    (hrows : trs.map (·.row) = DagRun.taskRuns db run dag) {id : Uuid}
    (hid : id ∈ (DagRun.releasedTrs dag trs).map (·.row.runId)) : Releasable db run dag id := by
  obtain ⟨tr, htr, rfl⟩ := List.mem_map.mp hid
  obtain ⟨_, hmem, hs, hup⟩ := DagRun.mem_releasedTrs.mp htr
  refine ⟨tr.row, hrows ▸ List.mem_map_of_mem hmem, rfl, hs, fun u hu => ?_⟩
  obtain ⟨up, hmem', hu', hfin⟩ := hup u hu
  exact ⟨up.row, hrows ▸ List.mem_map_of_mem hmem', hu', hfin⟩

/-- They are different TaskRuns. -/
theorem nodup_released {db : Db} {run : DagRunRow} {dag : Dag} {trs : List TaskRunObj}
    (hrows : trs.map (·.row) = DagRun.taskRuns db run dag) :
    ((DagRun.releasedTrs dag trs).map (·.row.runId)).Nodup := by
  have hids : (trs.map (·.row.runId)).Nodup := by
    have hnodup : ((DagRun.taskRuns db run dag).map TaskRunRow.runId).Nodup :=
      (List.filter_sublist.map _).nodup (Db.nodup_all db)
    rwa [← hrows, List.map_map] at hnodup
  exact ((DagRun.releasedTrs_sublist dag trs).map _).nodup hids

/-- What is releasable can be queued. -/
theorem Releasable.exists_queueable {db db' : Db} {run : DagRunRow} {dag : Dag} {tids : List Uuid}
    {id : Uuid} (h : Releasable db run dag id) (hid : id ∈ tids) (hsame : db'.taskRuns = db.taskRuns) :
    ∃ r ∈ DagRun.queueable db' run.runId tids, r.runId = id := by
  obtain ⟨r, hr, rfl, hs, _⟩ := h
  simp only [DagRun.taskRuns, List.mem_filter, decide_eq_true_eq] at hr
  refine ⟨r, ?_, rfl⟩
  rw [DagRun.queueable, hsame, List.mem_filter, decide_eq_true_eq]
  exact ⟨hr.1, hid, hr.2.1, hs⟩

/-- A pass over an idle run of an acyclic DAG with plain task ids releases some TaskRun, all it
releases is releasable, and `schedule_trs` queues exactly what was released. -/
theorem idle_run_goes_on {s : Shared} {i : ℕ} {self : Ref} {run : DagRunRow} {dag : Dag}
    (hopen : s.opened (.thread i) = []) (hself : s.mem.dagRuns[self]? = some run)
    (hplain : dag.Plain) (hacyclic : Graphs.Acyclic dag.Upstream)
    (hidle : DagRun.Idle dag (DagRun.taskRuns s.db run dag)) :
    ∃ tids s₁ s₂, Yields i (DagRun.updateState self dag) s tids s₁ ∧ tids ≠ [] ∧
      (∀ id ∈ tids, Releasable s.db run dag id) ∧
      (∀ id, s₁.db.taskRun id = s.db.taskRun id) ∧
      Yields i (DagRun.scheduleTrs run.runId tids) s₁ tids.length s₂ ∧
      QueuesExactly s₁.db s₂.db tids := by
  obtain ⟨trs, skipped, row, hrows, hskipped, _, _, s₁, hupdate, happlied, _⟩ :=
    DagRun.yields_updateState hopen hself (DagRun.readable_trsFilter hplain hidle.tasks_ne_nil)
  rw [DagRun.readTrs_of_plain hplain] at hrows
  have hdb₁ := happlied.db
  rw [← hrows] at hidle
  have hnone : DagRun.skippableTrs trs = [] := by
    rw [DagRun.skippableTrs, hidle.anyFailed, if_neg Bool.false_ne_true]
  obtain rfl : skipped = [] := by
    rwa [hnone, List.map_nil, List.forall₂_nil_left_iff] at hskipped
  have htaskRuns : s₁.db.taskRuns = s.db.taskRuns := by
    rw [hdb₁]
    exact Db.all_upsertAll_of_other (by simp [RowKind.proj])
  have htaskRun : ∀ id, s₁.db.taskRun id = s.db.taskRun id := by
    intro id
    rw [hdb₁]
    exact Db.get_upsertAll_of_not_written (by simp)
  let tids := (DagRun.releasedTrs dag trs).map (·.row.runId)
  have hreleased : ∀ id ∈ tids, Releasable s.db run dag id := fun id => releasable_of_released hrows
  have hqueueable : ∀ id ∈ tids, ∃ r ∈ DagRun.queueable s₁.db run.runId tids, r.runId = id :=
    fun id hid => (hreleased id hid).exists_queueable hid htaskRuns
  obtain ⟨rows, hqueued, s₂, hschedule, hscheduled, _⟩ :=
    DagRun.yields_scheduleTrs happlied.opened run.runId tids
  have hlength : rows.length = tids.length := by
    rw [← hqueued.length_eq]
    exact length_queueable (nodup_released hrows) hqueueable
  rw [hlength] at hschedule
  refine ⟨tids, s₁, s₂, hupdate, ?_, hreleased, htaskRun, hschedule, ?_⟩
  · rw [Ne, List.map_eq_nil_iff]
    exact hidle.released_ne_nil hacyclic
  · rw [hscheduled.db]
    exact queuesExactly_upsertAll hqueued hqueueable

/-- The first task of `chain` has succeeded, and thread 0 has the DagRun at hand. -/
def halfway : Shared where
  store :=
    ⟨⟨[.dagRun { runId := 1, dagId := 0, state := .running },
      .taskRun { runId := 2, taskId := "extract", dagId := 0, dagrunId := 1, state := .success },
      .taskRun { runId := 3, taskId := "load", dagId := 0, dagrunId := 1, state := .scheduled }],
      by decide⟩, []⟩
  mem := { dagRuns := [{ runId := 1, dagId := 0, state := .running }] }

theorem acyclic_chain : Graphs.Acyclic chain.Upstream := by
  refine Graphs.acyclic_of_lt (fun t => if t = "load" then 1 else 0) fun u t h => ?_
  have hall : ∀ task ∈ chain.tasks, ∀ u ∈ task.precedingTaskIds,
      (if u = "load" then 1 else 0) < if task.taskId = "load" then 1 else 0 := by decide
  obtain ⟨task, htask, rfl, hu⟩ := Dag.mem_upstream.mp h
  exact hall task htask u hu

theorem halfway_goes_on :
    ∃ tids s₁ s₂, Yields 0 (DagRun.updateState 0 chain) halfway tids s₁ ∧ tids ≠ [] ∧
      (∀ id ∈ tids, Releasable halfway.db { runId := 1, dagId := 0, state := .running } chain id) ∧
      (∀ id, s₁.db.taskRun id = halfway.db.taskRun id) ∧
      Yields 0 (DagRun.scheduleTrs 1 tids) s₁ tids.length s₂ ∧ QueuesExactly s₁.db s₂.db tids :=
  idle_run_goes_on rfl rfl plain_chain acyclic_chain ⟨by decide, by decide, by decide, by decide⟩

/-- A DAG whose only task id holds a backslash. -/
def slashed : Dag where
  dagId := 0
  tasks := [⟨"x\\y", 0, []⟩]
  nodup := by decide
  dagId_eq := by decide
  upstream_mem := by decide

def slashedRun : DagRunRow := { runId := 1, dagId := 0, state := .running }

/-- Its task waits, and thread 0 has the DagRun at hand. -/
def waiting : Shared where
  store :=
    ⟨⟨[.dagRun slashedRun,
      .taskRun { runId := 2, taskId := "x\\y", dagId := 0, dagrunId := 1, state := .scheduled }],
      by decide⟩, []⟩
  mem := { dagRuns := [slashedRun] }

theorem acyclic_slashed : Graphs.Acyclic slashed.Upstream := by
  refine Graphs.acyclic_of_lt (fun _ => 0) fun u t h => ?_
  obtain ⟨task, htask, _, hu⟩ := Dag.mem_upstream.mp h
  obtain rfl := List.mem_singleton.mp htask
  cases hu

/-- The query for its TaskRuns asks for a task `xy`, and a pass over the run releases nothing. -/
theorem waiting_stalls : ¬∀ (s : Shared) (i : ℕ) (self : Ref) (run : DagRunRow) (dag : Dag),
    s.opened (.thread i) = [] → s.mem.dagRuns[self]? = some run → Graphs.Acyclic dag.Upstream →
    DagRun.Idle dag (DagRun.taskRuns s.db run dag) →
    ∃ tids s₁ s₂, Yields i (DagRun.updateState self dag) s tids s₁ ∧ tids ≠ [] ∧
      (∀ id ∈ tids, Releasable s.db run dag id) ∧
      (∀ id, s₁.db.taskRun id = s.db.taskRun id) ∧
      Yields i (DagRun.scheduleTrs run.runId tids) s₁ tids.length s₂ ∧
      QueuesExactly s₁.db s₂.db tids := by
  intro h
  have hself : waiting.mem.dagRuns[0]? = some slashedRun := rfl
  have hread : ((DagRun.trsFilter slashedRun slashed).read waiting.engine).isSome = true := by
    decide +kernel
  have hnil : DagRun.readTrs waiting.engine waiting.db slashedRun slashed = [] := by decide +kernel
  obtain ⟨tids, s₁, s₂, hupdate, hne, _⟩ := h waiting 0 0 slashedRun slashed rfl hself acyclic_slashed
    ⟨by decide, by decide, by decide, by decide⟩
  obtain ⟨trs, _, _, hrows, _, _, _, s', hupdate', _⟩ :=
    DagRun.yields_updateState (i := 0) rfl hself hread
  rw [hnil, List.map_eq_nil_iff] at hrows
  subst hrows
  exact hne (hupdate.unique hupdate').1

end YtScheduler
