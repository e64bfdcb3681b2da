import YtScheduler.Completion.Outlines

/-! The calls that move a DagRun on, made one after the other by any threads. Each of them is a step of
the execution that the tables show, or leaves it as it is. -/

namespace YtScheduler

open Tablet Threads Graphs

/-! ### What a pass decides -/

namespace DagRun

variable {rows : List TaskRunRow}

theorem map_row_mk (rows : List TaskRunRow) :
    (rows.map (TaskRunObj.mk 0)).map (·.row) = rows := by
  rw [List.map_map]
  exact List.map_id rows

theorem stateFor_eq_failed : stateFor rows = .failed ↔ ∃ r ∈ rows, r.state = .failed := by
  rw [stateFor, runState_eq_failed, anyFailed_iff, map_row_mk]

theorem stateFor_eq_running : stateFor rows = .running ↔
    (∀ r ∈ rows, r.state ≠ .failed) ∧ ∃ r ∈ rows, r.state ≠ .success := by
  rw [stateFor, runState_eq_running]
  simp

theorem stateFor_eq_success (hdone : ∀ r ∈ rows, r.state = .success) : stateFor rows = .success := by
  rcases runState_cases (rows.map (TaskRunObj.mk 0)) with hs | hs | hs
  · obtain ⟨r, hr, hfailed⟩ := stateFor_eq_failed.mp hs
    rw [hdone r hr] at hfailed
    cases hfailed
  · exact hs
  · obtain ⟨_, r, hr, hnot⟩ := stateFor_eq_running.mp hs
    exact absurd (hdone r hr) hnot

theorem stateFor_ne_scheduled (rows : List TaskRunRow) : stateFor rows ≠ .scheduled := by
  rcases runState_cases (rows.map (TaskRunObj.mk 0)) with hs | hs | hs <;> rw [stateFor, hs] <;> decide

end DagRun

namespace Outline

variable {o : Outline} {s s' : Shared} {run : DagRunRow} {row : TaskRunRow}

theorem Stands.ident_eq (h : o.Stands s) (hrun : s.db.dagRun o.runId = some run) :
    run.ident = ⟨o.runId, o.dag.dagId⟩ := by
  obtain ⟨run', hrun', hident, _⟩ := h.dagRun
  rw [hrun] at hrun'
  rw [Option.some.inj hrun']
  exact hident

/-- A TaskRun of the DagRun is one of the execution. -/
theorem Stands.exists_row (h : o.Stands s) (hrun : s.db.dagRun o.runId = some run) {id : Uuid}
    (hid : id ∈ o.ids) : ∃ r, s.db.taskRun id = some r ∧ r ∈ DagRun.taskRuns s.db run o.dag := by
  obtain ⟨r, hr, _⟩ := h.taskRuns id hid
  have hrid := Db.runId_of_taskRun hr
  exact ⟨r, hr, (h.mem_taskRuns (h.ident_eq hrun)).mpr ⟨by rwa [hrid], by rwa [hrid]⟩⟩

/-- What a pass over the DagRun examines, and what it makes of it. -/
structure Examined (o : Outline) (rows : List TaskRunRow) (e e' : Execution Uuid) : Prop where
  node : ∀ r ∈ rows, r.runId ∈ o.ids ∧ e.phase r.runId = r.state.nodePhase
  row : ∀ id ∈ o.ids, ∃ r ∈ rows, e.phase id = r.state.nodePhase ∧
    e'.phase id = (DagRun.passState o.dag rows r).nodePhase ∧
    (e.Free o.DependsOn o.ids id ↔ r.state = .scheduled ∧
      ∀ u ∈ DagRun.upstream o.dag r.taskId, ∃ up ∈ rows, up.taskId = u ∧
        up.state ∈ TaskRunState.finishedStates)
  before : e.verdict = none
  after : e'.verdict = (DagRun.stateFor rows).verdict

namespace Examined

variable {rows : List TaskRunRow} {e e' : Execution Uuid} (h : Examined o rows e e')
include h

/-- After a failure the DagRun fails, and what was not started is skipped. -/
theorem stop (hfailed : ∃ r ∈ rows, r.state = .failed) : e.Step o.DependsOn o.ids e' := by
  have hgiven := h.after
  rw [DagRun.stateFor_eq_failed.mpr hfailed] at hgiven
  refine .stop h.before hgiven ?_ ?_ ?_
  · obtain ⟨r, hr, hs⟩ := hfailed
    exact ⟨r.runId, (h.node r hr).1, by rw [(h.node r hr).2, hs]; rfl⟩
  · intro id hid hw
    obtain ⟨r, hr, hp, hp', _⟩ := h.row id hid
    have hs : r.state = .scheduled ∨ r.state = .queued := by
      rw [hp] at hw
      exact hw.imp (fun hw => TaskRunState.nodePhase_injective hw) fun hw => TaskRunState.nodePhase_injective hw
    rw [hp', DagRun.passState, if_pos hfailed, if_pos ⟨hr, hs⟩]
    rfl
  · intro id hid hw hready
    obtain ⟨r, hr, hp, hp', _⟩ := h.row id hid
    rw [hp', hp, DagRun.passState, if_pos hfailed, if_neg]
    rintro ⟨_, hs | hs⟩
    · exact hw (by rw [hp, hs]; rfl)
    · exact hready (by rw [hp, hs]; rfl)

/-- When every TaskRun has succeeded the DagRun succeeds. -/
theorem conclude (hdone : ∀ r ∈ rows, r.state = .success) : e.Step o.DependsOn o.ids e' := by
  have hhealthy : ¬∃ r ∈ rows, r.state = .failed := by
    rintro ⟨r, hr, hs⟩
    rw [hdone r hr] at hs
    cases hs
  have hgiven := h.after
  rw [DagRun.stateFor_eq_success hdone] at hgiven
  refine .conclude h.before hgiven ?_ ?_
  · intro id hid
    obtain ⟨r, hr, hp, _⟩ := h.row id hid
    rw [hp, hdone r hr]
    rfl
  · intro id hid
    obtain ⟨r, hr, _, hp', _⟩ := h.row id hid
    rw [hp', DagRun.passState, if_neg hhealthy, if_neg, hdone r hr]
    · rfl
    · rintro ⟨_, hs, _⟩
      rw [hdone r hr] at hs
      cases hs

variable (hhealthy : ∀ r ∈ rows, r.state ≠ .failed)
include hhealthy

theorem phase_eq_of_not_free {id : Uuid} (hid : id ∈ o.ids) (hfree : ¬e.Free o.DependsOn o.ids id) :
    e'.phase id = e.phase id := by
  obtain ⟨r, hr, hp, hp', hiff⟩ := h.row id hid
  rw [hp', hp, DagRun.passState, if_neg fun hf => ?_, if_neg fun hready => hfree (hiff.mpr hready.2)]
  obtain ⟨r', hr', hs⟩ := hf
  exact hhealthy r' hr' hs

variable (hleft : ∃ r ∈ rows, r.state ≠ .success)
include hleft

theorem undecided : e'.verdict = none := by
  rw [h.after, DagRun.stateFor_eq_running.mpr ⟨hhealthy, hleft⟩]
  rfl

/-- Otherwise what is free is queued. -/
theorem release (hsome : ∃ id ∈ o.ids, e.Free o.DependsOn o.ids id) : e.Step o.DependsOn o.ids e' := by
  refine .release h.before (h.undecided hhealthy hleft) ?_ ?_
    (fun id hid hfree => h.phase_eq_of_not_free hhealthy hid hfree) hsome
  · intro id hid hp
    obtain ⟨r, hr, hphase, _⟩ := h.row id hid
    rw [hphase] at hp
    exact hhealthy r hr (TaskRunState.nodePhase_injective hp)
  · intro id hid hfree
    obtain ⟨r, hr, _, hp', hiff⟩ := h.row id hid
    rw [hp', DagRun.passState, if_neg fun hf => ?_, if_pos ⟨hr, hiff.mp hfree⟩]
    · rfl
    · obtain ⟨r', hr', hs⟩ := hf
      exact hhealthy r' hr' hs

end Examined

/-- A pass over a DagRun that is not finished. -/
theorem Stands.examined (h : o.Stands s) (hrun : s.db.dagRun o.runId = some run)
    (hactive : run.state = .queued ∨ run.state = .running)
    (ht : Turned s s' (DagRun.passRunState s.db run o.dag)
      (DagRun.passState o.dag (DagRun.taskRuns s.db run o.dag))) :
    Examined o (DagRun.taskRuns s.db run o.dag) (o.execution s.db) (o.execution s'.db) where
  node r hr := by
    obtain ⟨hget, hid⟩ := (h.mem_taskRuns (h.ident_eq hrun)).mp hr
    exact ⟨hid, phase_eq hid hget⟩
  row id hid := by
    obtain ⟨r, hr, hin⟩ := h.exists_row hrun hid
    exact ⟨r, hin, phase_eq hid hr, phase_turned ht hid hr, h.free_iff (h.ident_eq hrun) hid hr⟩
  before := by
    rw [verdict_eq hrun]
    rcases hactive with hs | hs <;> rw [hs] <;> rfl
  after := by
    rw [verdict_turned ht hrun, DagRun.passRunState, if_pos rfl]

/-- A pass over the DagRun stops it, concludes it, releases TaskRuns, or leaves it as it is. -/
theorem Stands.passed (h : o.Stands s) (hrun : s.db.dagRun o.runId = some run)
    (hactive : run.state = .queued ∨ run.state = .running)
    (ht : Turned s s' (DagRun.passRunState s.db run o.dag)
      (DagRun.passState o.dag (DagRun.taskRuns s.db run o.dag))) :
    o.execution s'.db = o.execution s.db ∨ (o.execution s.db).Step o.DependsOn o.ids (o.execution s'.db) := by
  have hexamined := h.examined hrun hactive ht
  by_cases hfailed : ∃ r ∈ DagRun.taskRuns s.db run o.dag, r.state = .failed
  · exact Or.inr (hexamined.stop hfailed)
  by_cases hdone : ∀ r ∈ DagRun.taskRuns s.db run o.dag, r.state = .success
  · exact Or.inr (hexamined.conclude hdone)
  push Not at hfailed hdone
  by_cases hsome : ∃ id ∈ o.ids, (o.execution s.db).Free o.DependsOn o.ids id
  · exact Or.inr (hexamined.release hfailed hdone hsome)
  · refine Or.inl (execution_ext (fun id hid => ?_) ?_)
    · exact hexamined.phase_eq_of_not_free hfailed hid fun hfree => hsome ⟨id, hid, hfree⟩
    · rw [hexamined.undecided hfailed hdone, hexamined.before]

/-! ### The other calls -/

/-- A TaskRun of another DagRun. -/
theorem Stands.become_of_other (h : o.Stands s) (hrow : s.db.taskRun row.runId = some row)
    (hother : row.dagrunId ≠ o.runId) {state : TaskRunState} {id : Uuid} (hid : id ∈ o.ids) {r : TaskRunRow}
    (hr : s.db.taskRun id = some r) : TaskRun.become row state r = r.state := by
  obtain rfl := Db.runId_of_taskRun hr
  refine if_neg fun hsame => hother ?_
  rw [← Db.eq_of_id hr hrow hsame]
  exact h.own hid hr

/-- While a TaskRun waits for its start, the DagRun has no verdict. -/
theorem Holds.undecided (h : o.Holds s) {id : Uuid} (hid : id ∈ o.ids)
    (hready : (o.execution s.db).phase id = .ready) : (o.execution s.db).verdict = none := by
  by_contra hsome
  obtain ⟨b, hb⟩ := Option.ne_none_iff_exists'.mp hsome
  cases b with
  | true => simp [h.sound.success hb id hid] at hready
  | false => exact (h.sound.stopped hb id hid).2 hready

/-- The task of a TaskRun of the DagRun can be loaded. -/
theorem Stands.loads (h : o.Stands s) (hrow : s.db.taskRun row.runId = some row) (hid : row.runId ∈ o.ids) :
    Executor.loads s row = true := by
  have hdag : row.dagId = o.dag.dagId := congrArg TaskRunIdent.dagId (h.ident_taskRun hid hrow)
  obtain ⟨task, hmem, hname⟩ := List.mem_map.mp (o.perm.mem_iff.mp (List.mem_map_of_mem hid))
  rw [Executor.loads, hdag, h.dag, Option.bind_some, h.taskId_eq hid hrow,
    Dag.task?_eq_some.mpr ⟨hmem, hname⟩]
  rfl

/-- The start of a TaskRun of the DagRun. -/
theorem Holds.started (h : o.Holds s) (hrow : s.db.taskRun row.runId = some row)
    (hqueued : row.state = .queued) (hown : row.dagrunId = o.runId)
    (ht : Turned s s' (Executor.startedRunState s row) (TaskRun.become row (Executor.startedState s row))) :
    (o.execution s.db).Step o.DependsOn o.ids (o.execution s'.db) := by
  have hid := h.only row hrow hown
  have hready : (o.execution s.db).phase row.runId = .ready := (phase_iff .queued hid hrow).mpr hqueued
  have hverdict := h.undecided hid hready
  have hloads := h.loads hrow hid
  obtain ⟨run, hrun, _⟩ := h.dagRun
  have hnot : run.state ≠ .failed := by
    rintro hs
    rw [verdict_eq hrun, hs] at hverdict
    cases hverdict
  have hstate : Executor.startedState s row = .running := by
    simp [Executor.startedState, hown, hrun, hnot, hloads]
  rw [hstate] at ht
  refine .start row.runId hid hready (h.moves ht rfl hrow hid fun run' hrun' => ?_)
  rw [hrun] at hrun'
  obtain rfl := Option.some.inj hrun'
  rw [← verdict_eq hrun, hverdict, Executor.startedRunState,
    if_pos ⟨(Db.runId_of_dagRun hrun).trans hown.symm, hnot, hloads⟩]
  rfl

/-- The start of another TaskRun. -/
theorem Stands.started_other (h : o.Stands s) (hrow : s.db.taskRun row.runId = some row)
    (hother : row.dagrunId ≠ o.runId)
    (ht : Turned s s' (Executor.startedRunState s row) (TaskRun.become row (Executor.startedState s row))) :
    o.execution s'.db = o.execution s.db := by
  refine h.execution_eq ht (fun id hid r hr => h.become_of_other hrow hother hid hr) fun run hrun => ?_
  rw [Executor.startedRunState, if_neg]
  rintro ⟨hsame, _⟩
  exact hother (hsame.symm.trans (Db.runId_of_dagRun hrun))

/-- The update for the finished operation of a TaskRun of the DagRun. -/
theorem Stands.finished (h : o.Stands s) (hrow : s.db.taskRun row.runId = some row)
    (hrunning : row.state = .running) (hown : row.dagrunId = o.runId) {status : OperationState}
    (ht : Turned s s' DagRunRow.state (TaskRun.become row (Executor.finalState status))) :
    (o.execution s.db).Step o.DependsOn o.ids (o.execution s'.db) := by
  have hid := h.only row hrow hown
  have hactive : (o.execution s.db).phase row.runId = .active := (phase_iff .running hid hrow).mpr hrunning
  have hmoves := h.moves ht rfl hrow hid fun _ _ => rfl
  rw [Executor.finalState] at hmoves
  split_ifs at hmoves
  · exact .fail row.runId hid hactive hmoves
  · exact .succeed row.runId hid hactive hmoves

/-- An update for an operation of a TaskRun of the DagRun that still runs. -/
theorem Stands.polled (h : o.Stands s) (hrow : s.db.taskRun row.runId = some row)
    (hqueued : row.state = .queued) (hown : row.dagrunId = o.runId)
    (ht : Turned s s' DagRunRow.state (TaskRun.become row .running)) :
    (o.execution s.db).Step o.DependsOn o.ids (o.execution s'.db) := by
  have hid := h.only row hrow hown
  have hready : (o.execution s.db).phase row.runId = .ready := (phase_iff .queued hid hrow).mpr hqueued
  exact .start row.runId hid hready (h.moves ht rfl hrow hid fun _ _ => rfl)

/-- An update of another TaskRun. -/
theorem Stands.updated_other (h : o.Stands s) (hrow : s.db.taskRun row.runId = some row)
    (hother : row.dagrunId ≠ o.runId) {state : TaskRunState}
    (ht : Turned s s' DagRunRow.state (TaskRun.become row state)) :
    o.execution s'.db = o.execution s.db :=
  h.execution_eq ht (fun _ hid _ hr => h.become_of_other hrow hother hid hr) fun _ _ => rfl

end Outline

/-! ### Calls that only read -/

/-- The call selects rows or accesses the memory. -/
def Op.Reads : Op → Prop
  | .select _ _ | .mem _ => True
  | _ => False

theorem Op.Reads.own {o : Op} (h : o.Reads) : o.Own := by
  cases o with
  | select c q | mem a => trivial
  | _ => exact h.elim

theorem Op.Reads.exec {o : Op} (h : o.Reads) (i : ℕ) (ch : Choice) (l : Loc) (s : Shared) :
    (o.exec i ch l s).2.2.store = s.store ∧ (o.exec i ch l s).2.2.opened = s.opened := by
  cases o with
  | select c q =>
    simp only [Op.exec]
    split
    · exact ⟨rfl, rfl⟩
    · split <;> exact ⟨rfl, rfl⟩
  | mem a => exact ⟨rfl, rfl⟩
  | _ => exact h.elim

/-- The tables stay as they are. -/
theorem Performs.turned_of_reads {α : Type} {operation : OperationId} {i : ℕ} {p : P α} {a : α} {s s' : Shared}
    (hp : Performs operation i p s a s') (huses : p.Uses Op.Reads) (hs : s.Closed) :
    Turned s s' DagRunRow.state TaskRunRow.state := by
  obtain ⟨hstore, hopened⟩ := hp.keeps (K := fun s₁ => s₁.store = s.store ∧ s₁.opened = s.opened) huses
    (fun o ch l s₁ ho h => ⟨(ho.exec i ch l s₁).1.trans h.1, (ho.exec i ch l s₁).2.trans h.2⟩) ⟨rfl, rfl⟩
  refine hp.turned (huses.mono fun _ ho => ho.own) hs (by rw [hopened, hs i]) ?_
  rw [show s'.db = s.db from congrArg Store.current hstore]
  exact Relabels.refl s.db

theorem reads_getDagRuns (state : DagRunState) (shard : ShardingOptions) :
    (DagRunClient.getDagRuns state shard).Uses Op.Reads :=
  P.uses_handleExceptions (Prog.Uses.bind (.op trivial) fun _ => Prog.Uses.bind (.op trivial) fun _ => trivial)

theorem reads_getExecutableTaskRunsToQueue (shard : ShardingOptions) :
    (TaskRunClient.getExecutableTaskRunsToQueue shard).Uses Op.Reads :=
  P.uses_handleExceptions (Prog.Uses.bind (.op trivial) fun _ => Prog.Uses.bind (.op trivial) fun _ => trivial)

/-! ### Turns -/

/-- Some thread loads DagRuns or TaskRuns, or it makes a pass over a DagRun that is not finished,
starts a QUEUED TaskRun, or records what it was told of an operation, where the object at hand is what
stands in the table. -/
inductive Turn (s s' : Shared) : Prop
  | loadDagRuns {operation : OperationId} {i : ℕ} (state : DagRunState) (shard : ShardingOptions)
      (runs : List DagRunObj) (h : Performs operation i (DagRunClient.getDagRuns state shard) s runs s')
  | loadTaskRuns {operation : OperationId} {i : ℕ} (shard : ShardingOptions) (trs : List TaskRunObj)
      (h : Performs operation i (TaskRunClient.getExecutableTaskRunsToQueue shard) s trs s')
  | schedule {operation : OperationId} {i : ℕ} (self : Ref) (run : DagRunRow)
      (hself : s.mem.dagRuns[self]? = some run) (hcurrent : s.db.dagRun run.runId = some run)
      (hactive : run.state = .queued ∨ run.state = .running)
      (h : Performs operation i (Scheduler.scheduleDagRun self) s () s')
  | start {operation : OperationId} {i : ℕ} (svc : ℕ) (self : Ref) (row : TaskRunRow)
      (hself : s.mem.taskRuns[self]? = some row) (hcurrent : s.db.taskRun row.runId = some row)
      (hqueued : row.state = .queued) (h : Performs operation i (Executor.startTaskrun svc self) s () s')
  | poll {operation : OperationId} {i : ℕ} (item : Item (Option OperationId)) (trs : List Ref)
      (h : Performs operation i (TaskRunClient.setState [Executor.runningUpdate item]) s trs s')
  | finish {operation : OperationId} {i : ℕ} (tr : Option Ref) (row : TaskRunRow) (status : OperationState)
      (trs : List Ref) (htr : ∀ ref, tr = some ref → s.mem.taskRuns[ref]? = some row)
      (hcurrent : s.db.taskRun row.runId = some row) (hrunning : row.state = .running)
      (h : Performs operation i (TaskRunClient.setState [Executor.finalUpdate row.runId tr status]) s trs s')

namespace Outline

variable {o : Outline} {s s' : Shared}

/-- What a call leaves of another DagRun. -/
theorem Stands.scheduled_other (h : o.Stands s) {run : DagRunRow} {dag : Dag} (hother : run.runId ≠ o.runId)
    (ht : Turned s s' (DagRun.passRunState s.db run dag)
      (DagRun.passState dag (DagRun.taskRuns s.db run dag))) :
    o.execution s'.db = o.execution s.db := by
  refine h.execution_eq ht (fun id hid r hr => ?_) fun run' hrun' => ?_
  · have hnot : r ∉ DagRun.taskRuns s.db run dag := by
      intro hmem
      exact hother ((DagRun.mem_taskRuns.mp hmem).2.1.symm.trans (h.own hid hr))
    simp [DagRun.passState, hnot]
  · rw [DagRun.passRunState, if_neg]
    rw [Db.runId_of_dagRun hrun']
    exact fun hid => hother hid.symm

/-- Every call moves the execution on or leaves it as it is. -/
theorem Holds.turn (h : o.Holds s) (ht : Turn s s') :
    o.Holds s' ∧ (o.execution s'.db = o.execution s.db ∨
      (o.execution s.db).Step o.DependsOn o.ids (o.execution s'.db)) := by
  have hqueued : ∀ run, s.db.dagRun o.runId = some run → run.state ≠ .scheduled := by
    intro run hrun
    obtain ⟨run', hrun', _, hstate⟩ := h.dagRun
    rw [hrun] at hrun'
    rwa [Option.some.inj hrun']
  suffices o.Stands s' ∧ (o.execution s'.db = o.execution s.db ∨
      (o.execution s.db).Step o.DependsOn o.ids (o.execution s'.db)) by
    obtain ⟨hstands, hmoved⟩ := this
    refine ⟨⟨hstands, ?_⟩, hmoved⟩
    rcases hmoved with hsame | hstep
    · rw [hsame]
      exact h.sound
    · exact hstep.sound h.sound
  have hread : Turned s s' DagRunRow.state TaskRunRow.state → o.Stands s' ∧
      (o.execution s'.db = o.execution s.db ∨
        (o.execution s.db).Step o.DependsOn o.ids (o.execution s'.db)) := fun hturned =>
    ⟨h.turned hturned hqueued, Or.inl (h.execution_eq hturned (fun _ _ _ _ => rfl) fun _ _ => rfl)⟩
  cases ht with
  | loadDagRuns state shard runs hp => exact hread (hp.turned_of_reads (reads_getDagRuns state shard) h.closed)
  | loadTaskRuns shard trs hp =>
    exact hread (hp.turned_of_reads (reads_getExecutableTaskRunsToQueue shard) h.closed)
  | schedule self run hself hcurrent hactive hp =>
    obtain ⟨dag, hdag, hturned⟩ := Scheduler.turned_scheduleDagRun h.closed h.plain hself hcurrent hp
    refine ⟨h.turned hturned fun run' hrun' => ?_, ?_⟩
    · rw [DagRun.passRunState]
      split_ifs
      · exact DagRun.stateFor_ne_scheduled _
      · exact hqueued run' hrun'
    · by_cases hown : run.runId = o.runId
      · rw [hown] at hcurrent
        rw [h.dagOf_eq hself (h.ident_eq hcurrent)] at hdag
        obtain rfl := Option.some.inj hdag
        exact h.passed hcurrent hactive hturned
      · exact Or.inl (h.scheduled_other hown hturned)
  | start svc self row hself hcurrent hready hp =>
    obtain ⟨s₁, hstart, hopen, hrelabels⟩ :=
      Executor.performs_startTaskrun _ _ (h.closed _) hself hcurrent hready
    obtain ⟨_, rfl⟩ := hp.unique hstart
    have hturned := hp.turned (Executor.own_startTaskrun svc self) h.closed hopen hrelabels
    refine ⟨h.turned hturned fun run hrun => ?_, ?_⟩
    · rw [Executor.startedRunState]
      split_ifs
      · exact DagRunState.noConfusion
      · exact hqueued run hrun
    · by_cases hown : row.dagrunId = o.runId
      · exact Or.inr (h.started hcurrent hready hown hturned)
      · exact Or.inl (h.started_other hcurrent hown hturned)
  | poll item trs hp =>
    obtain ⟨trs', s₁, hcall, hopen, hcases⟩ := Executor.yields_runningUpdate (h.closed _) item
    obtain ⟨_, rfl⟩ := hp.comes hcall
    rcases hcases with ⟨row, hcurrent, hready, hrelabels⟩ | hdb
    · have hturned := hp.turned (Executor.own_clientSetState _) h.closed hopen hrelabels
      refine ⟨h.turned hturned hqueued, ?_⟩
      by_cases hown : row.dagrunId = o.runId
      · exact Or.inr (h.polled hcurrent hready hown hturned)
      · exact Or.inl (h.updated_other hcurrent hown hturned)
    · exact hread (hp.turned (Executor.own_clientSetState _) h.closed hopen (hdb ▸ Relabels.refl s.db))
  | finish tr row status trs htr hcurrent hrunning hp =>
    obtain ⟨trs', s₁, hcall, hopen, hrelabels⟩ :=
      Executor.yields_finalUpdate tr status (h.closed _) htr hcurrent
    obtain ⟨_, rfl⟩ := hp.comes hcall
    have hturned := hp.turned (Executor.own_clientSetState _) h.closed hopen hrelabels
    refine ⟨h.turned hturned hqueued, ?_⟩
    by_cases hown : row.dagrunId = o.runId
    · exact Or.inr (h.finished hcurrent hrunning hown hturned)
    · exact Or.inl (h.updated_other hcurrent hown hturned)

end Outline

end YtScheduler
