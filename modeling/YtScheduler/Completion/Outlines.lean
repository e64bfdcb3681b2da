import YtScheduler.Completion.Starting
import YtScheduler.Graphs.Executions

/-! A DagRun that has been queued, with one TaskRun for each task of its DAG, as the execution of a
graph: the phases are the states of the TaskRuns, the verdict is the state of the DagRun. -/

namespace YtScheduler

open Tablet Threads Graphs

def TaskRunState.nodePhase : TaskRunState → Phase
  | .scheduled => .waiting
  | .queued => .ready
  | .running => .active
  | .success => .done
  | .failed => .failed
  | .skipped => .dropped

def DagRunState.verdict : DagRunState → Option Bool
  | .success => some true
  | .failed => some false
  | _ => none

theorem TaskRunState.isOver_nodePhase {state : TaskRunState} :
    state.nodePhase.IsOver ↔ state ∈ TaskRunState.finishedStates := by
  cases state <;> simp [TaskRunState.nodePhase, Phase.IsOver, TaskRunState.finishedStates]

theorem TaskRunState.nodePhase_injective : Function.Injective TaskRunState.nodePhase := by
  intro a b h
  cases a <;> cases b <;> first | rfl | cases h

/-- A DagRun, and the ids of its TaskRuns with their tasks. -/
structure Outline where
  runId : Uuid
  dag : Dag
  ids : List Uuid
  task : Uuid → String
  perm : (ids.map task).Perm dag.taskIds
  nonempty : dag.tasks ≠ []
  acyclic : Acyclic dag.Upstream

namespace Outline

variable (o : Outline)

/-- The task of one TaskRun is upstream of the task of the other. -/
def DependsOn (m n : Uuid) : Prop := o.dag.Upstream (o.task m) (o.task n)

theorem acyclic_dependsOn : Acyclic o.DependsOn := o.acyclic.comap o.task

theorem task_inj {m n : Uuid} (hm : m ∈ o.ids) (hn : n ∈ o.ids) (h : o.task m = o.task n) : m = n :=
  List.inj_on_of_nodup_map (o.perm.nodup_iff.mpr o.dag.nodup) hm hn h

def ident (id : Uuid) : TaskRunIdent := ⟨id, o.task id, o.dag.dagId, o.runId⟩

/-- The execution that the tables show. -/
def execution (db : Db) : Execution Uuid where
  phase id := if id ∈ o.ids then ((db.taskRun id).map fun r => r.state.nodePhase).getD .waiting else .waiting
  verdict := (db.dagRun o.runId).bind fun run => run.state.verdict

/-- The DagRun was queued, its DAG can be loaded, the TaskRuns are its own and no others, and all
task ids are plain. -/
structure Stands (s : Shared) : Prop where
  closed : s.Closed
  plain : s.PlainDags
  dag : s.dag? o.dag.dagId = some o.dag
  dagRef : dagRefsOf o.dag.dagId s.db ≠ []
  dagRun : ∃ run, s.db.dagRun o.runId = some run ∧ run.ident = ⟨o.runId, o.dag.dagId⟩ ∧
    run.state ≠ .scheduled
  taskRuns : ∀ id ∈ o.ids, ∃ r, s.db.taskRun id = some r ∧ r.ident = o.ident id
  only : ∀ r, s.db.taskRun r.runId = some r → r.dagrunId = o.runId → r.runId ∈ o.ids

/-- What holds between two calls. -/
structure Holds (s : Shared) : Prop extends o.Stands s where
  sound : (o.execution s.db).Sound o.ids

variable {o} {s s' : Shared} {run : DagRunRow} {r : TaskRunRow} {id : Uuid}

/-! ### The execution -/

theorem phase_eq {db : Db} (hid : id ∈ o.ids) (hr : db.taskRun id = some r) :
    (o.execution db).phase id = r.state.nodePhase := by
  simp [execution, hid, hr]

theorem phase_iff {db : Db} (state : TaskRunState) (hid : id ∈ o.ids) (hr : db.taskRun id = some r) :
    (o.execution db).phase id = state.nodePhase ↔ r.state = state := by
  rw [phase_eq hid hr, TaskRunState.nodePhase_injective.eq_iff]

theorem verdict_eq {db : Db} (hrun : db.dagRun o.runId = some run) :
    (o.execution db).verdict = run.state.verdict := by
  simp [execution, hrun]

theorem execution_ext {db db' : Db}
    (hphase : ∀ id ∈ o.ids, (o.execution db').phase id = (o.execution db).phase id)
    (hverdict : (o.execution db').verdict = (o.execution db).verdict) : o.execution db' = o.execution db := by
  refine Execution.ext ?_ hverdict
  funext id
  by_cases hid : id ∈ o.ids
  · exact hphase id hid
  · simp [execution, hid]

namespace Stands

variable (h : o.Stands s)
include h

/-- What identifies a TaskRun of the DagRun. -/
theorem ident_taskRun (hid : id ∈ o.ids) (hr : s.db.taskRun id = some r) : r.ident = o.ident id := by
  obtain ⟨r', hr', hident⟩ := h.taskRuns id hid
  rw [hr] at hr'
  rwa [Option.some.inj hr']

theorem own (hid : id ∈ o.ids) (hr : s.db.taskRun id = some r) : r.dagrunId = o.runId :=
  congrArg TaskRunIdent.dagrunId (h.ident_taskRun hid hr)

theorem taskId_eq (hid : id ∈ o.ids) (hr : s.db.taskRun id = some r) : r.taskId = o.task id :=
  congrArg TaskRunIdent.taskId (h.ident_taskRun hid hr)

/-- The TaskRuns that a pass over the DagRun examines. -/
theorem mem_taskRuns (hident : run.ident = ⟨o.runId, o.dag.dagId⟩) :
    r ∈ DagRun.taskRuns s.db run o.dag ↔ s.db.taskRun r.runId = some r ∧ r.runId ∈ o.ids := by
  have hrunId : run.runId = o.runId := congrArg DagRunIdent.runId hident
  have hdagId : run.dagId = o.dag.dagId := congrArg DagRunIdent.dagId hident
  rw [DagRun.mem_taskRuns, hrunId, hdagId]
  constructor
  · rintro ⟨hr, hown, _⟩
    exact ⟨hr, h.only r hr hown⟩
  · rintro ⟨hr, hid⟩
    refine ⟨hr, h.own hid hr, congrArg TaskRunIdent.dagId (h.ident_taskRun hid hr), ?_⟩
    rw [h.taskId_eq hid hr]
    exact o.perm.mem_iff.mp (List.mem_map_of_mem hid)

/-- A TaskRun is free where all upstream tasks have finished TaskRuns. -/
theorem free_iff (hident : run.ident = ⟨o.runId, o.dag.dagId⟩) (hid : id ∈ o.ids)
    (hr : s.db.taskRun id = some r) :
    (o.execution s.db).Free o.DependsOn o.ids id ↔ r.state = .scheduled ∧
      ∀ u ∈ DagRun.upstream o.dag r.taskId, ∃ up ∈ DagRun.taskRuns s.db run o.dag, up.taskId = u ∧
        up.state ∈ TaskRunState.finishedStates := by
  rw [Execution.Free, phase_eq hid hr, h.taskId_eq hid hr]
  refine and_congr (TaskRunState.nodePhase_injective.eq_iff' rfl) ?_
  constructor
  · intro hover u hu
    obtain ⟨m, hm, rfl⟩ := List.mem_map.mp (o.perm.mem_iff.mpr (Dag.upstream_mem_taskIds hu))
    obtain ⟨up, hup, hrow⟩ := h.taskRuns m hm
    have hmid := Db.runId_of_taskRun hup
    refine ⟨up, (h.mem_taskRuns hident).mpr ⟨by rwa [hmid], by rwa [hmid]⟩, h.taskId_eq hm hup, ?_⟩
    rw [← TaskRunState.isOver_nodePhase, ← phase_eq hm hup]
    exact hover m hm hu
  · intro hup m hm hdep
    obtain ⟨up, hmem, htask, hfinished⟩ := hup _ hdep
    obtain ⟨hget, hupId⟩ := (h.mem_taskRuns hident).mp hmem
    rw [h.taskId_eq hupId hget] at htask
    have hsame := o.task_inj hupId hm htask
    rw [hsame] at hget
    rw [phase_eq hm hget, TaskRunState.isOver_nodePhase]
    exact hfinished

/-- The DAG of a DagRun that was just loaded. -/
theorem dagOf_eq {i : ℕ} {self : Ref} (hself : s.mem.dagRuns[self]? = some run)
    (hident : run.ident = ⟨o.runId, o.dag.dagId⟩) : dagOf s i self = some o.dag := by
  have hdagId : run.dagId = o.dag.dagId := congrArg DagRunIdent.dagId hident
  obtain ⟨ref, refs, hrefs⟩ := List.exists_cons_of_ne_nil h.dagRef
  have href : ref.dagId = o.dag.dagId := by
    have hmem : ref ∈ dagRefsOf o.dag.dagId s.db := by rw [hrefs]; exact List.mem_cons_self
    simpa using (List.mem_filter.mp (List.mem_of_mem_take hmem)).2
  rw [dagOf, hself, Option.bind_some, reads_of_closed (h.closed i), hdagId, hrefs, List.head?_cons,
    Option.bind_some, href, h.dag]

end Stands

/-! ### What a call makes of it -/

section Turns

variable {g : DagRunRow → DagRunState} {f : TaskRunRow → TaskRunState}

theorem Stands.turned (h : o.Stands s) (ht : Turned s s' g f)
    (hg : ∀ run, s.db.dagRun o.runId = some run → g run ≠ .scheduled) : o.Stands s' where
  closed := ht.closed
  plain := by rw [Shared.PlainDags, ht.dags]; exact h.plain
  dag := by rw [Shared.dag?, ht.dags]; exact h.dag
  dagRef := by rw [dagRefsOf, ht.relabels.dagRefs]; exact h.dagRef
  dagRun := by
    obtain ⟨run, hrun, hident, _⟩ := h.dagRun
    obtain ⟨run', hrun', hident', hstate⟩ := ht.relabels.dagRun hrun
    exact ⟨run', hrun', hident'.trans hident, hstate ▸ hg run hrun⟩
  taskRuns id hid := by
    obtain ⟨r, hr, hident⟩ := h.taskRuns id hid
    obtain ⟨r', hr', hident', _⟩ := ht.relabels.taskRun hr
    exact ⟨r', hr', hident'.trans hident⟩
  only r' hr' hown := by
    obtain ⟨r, hr, hident, _⟩ := ht.relabels.taskRun_old hr'
    have hid := TaskRunRow.runId_of_ident hident
    rw [hid] at hr ⊢
    exact h.only r hr ((congrArg TaskRunIdent.dagrunId hident).symm.trans hown)

variable (ht : Turned s s' g f)
include ht

theorem phase_turned (hid : id ∈ o.ids) (hr : s.db.taskRun id = some r) :
    (o.execution s'.db).phase id = (f r).nodePhase := by
  obtain ⟨r', hr', _, hstate⟩ := ht.relabels.taskRun hr
  rw [phase_eq hid hr', hstate]

theorem verdict_turned (hrun : s.db.dagRun o.runId = some run) :
    (o.execution s'.db).verdict = (g run).verdict := by
  obtain ⟨run', hrun', _, hstate⟩ := ht.relabels.dagRun hrun
  rw [verdict_eq hrun', hstate]

/-- A call that gives none of the TaskRuns another state, and the DagRun no other verdict. -/
theorem Stands.execution_eq (h : o.Stands s)
    (hf : ∀ id ∈ o.ids, ∀ r, s.db.taskRun id = some r → f r = r.state)
    (hg : ∀ run, s.db.dagRun o.runId = some run → (g run).verdict = run.state.verdict) :
    o.execution s'.db = o.execution s.db := by
  refine execution_ext (fun id hid => ?_) ?_
  · obtain ⟨r, hr, _⟩ := h.taskRuns id hid
    rw [phase_turned ht hid hr, phase_eq hid hr, hf id hid r hr]
  · obtain ⟨run, hrun, _⟩ := h.dagRun
    rw [verdict_turned ht hrun, verdict_eq hrun, hg run hrun]

/-- A call that gives one TaskRun another state, and the DagRun no other verdict. -/
theorem Stands.moves (h : o.Stands s) {row : TaskRunRow} {state : TaskRunState}
    (hf : f = TaskRun.become row state) (hrow : s.db.taskRun row.runId = some row) (hid : row.runId ∈ o.ids)
    (hg : ∀ run, s.db.dagRun o.runId = some run → (g run).verdict = run.state.verdict) :
    (o.execution s.db).Moves o.ids row.runId state.nodePhase (o.execution s'.db) := by
  subst hf
  refine ⟨?_, fun m hm hne => ?_, ?_⟩
  · rw [phase_turned ht hid hrow, TaskRun.become, if_pos rfl]
  · obtain ⟨r, hr, _⟩ := h.taskRuns m hm
    rw [phase_turned ht hm hr, phase_eq hm hr, TaskRun.become, if_neg]
    rwa [Db.runId_of_taskRun hr]
  · obtain ⟨run, hrun, _⟩ := h.dagRun
    rw [verdict_turned ht hrun, verdict_eq hrun, hg run hrun]

end Turns

end Outline

end YtScheduler
