import YtScheduler.Completion.Turns

/-! Whatever the execution that the tables show can do next, some call does, once the object it needs is
loaded. -/

namespace YtScheduler

open Tablet Threads Graphs

variable {i : ℕ} {s s' : Shared}

/-! ### Loading -/

/-- The shard of a scheduler that is alone. -/
def wholeShard : ShardingOptions := ⟨0, 1, 1⟩

theorem selects_wholeShard (farmHash : Uuid → ℕ) (key : Uuid) : wholeShard.selects farmHash key = true := by
  simp [ShardingOptions.selects, wholeShard, Nat.mod_one]

/-- What the scheduler selects of the DagRuns in a state. -/
def dagRunsIn (state : DagRunState) : DagRunFilter := { state := some (.eq state), shard := some wholeShard }

/-- What the executor selects of the TaskRuns. -/
def queuedTaskRuns : TaskRunFilter := { state := some (.eq .queued), shard := some wholeShard }

/-- The select of the scheduler finds a DagRun in the state it looks for. -/
theorem exists_loadDagRuns (operation : OperationId) (hopen : s.opened (.thread i) = []) {run : DagRunRow}
    (hrun : s.db.dagRun run.runId = some run) :
    ∃ (runs : List DagRunObj) (s' : Shared) (self : Ref),
      Performs operation i (DagRunClient.getDagRuns run.state wholeShard) s runs s' ∧ s'.db = s.db ∧
      s'.mem.dagRuns[self]? = some run := by
  let rows := (dagRunsIn run.state).select s.engine s.db
  have hmem : run ∈ rows := by
    refine List.mem_filter.mpr ⟨Db.mem_dagRuns.mpr hrun, ?_⟩
    simp [DagRunFilter.accepts, dagRunsIn, selects_wholeShard]
  have hselect : Yields i (P.call (.select none (.dagRuns (dagRunsIn run.state)))) s rows s := by
    have hreads := Yields.select (i := i) (q := .dagRuns (dagRunsIn run.state)) (s := s) rfl
    rwa [reads_of_closed hopen] at hreads
  let s' : Shared := { s with mem := { s.mem with dagRuns := s.mem.dagRuns ++ rows } }
  have hnew : Yields i (P.mem (.newDagRuns rows)) s (List.range' s.mem.dagRuns.length rows.length) s' :=
    Yields.mem fun _ => rfl
  have hfetch : Yields i (DagRun.getDagRuns run.state wholeShard) s
      (List.zipWith DagRunObj.mk (List.range' s.mem.dagRuns.length rows.length) rows) s' :=
    hselect.bind (hnew.bind (Yields.ret _ s'))
  obtain ⟨n, hn, hget⟩ := List.mem_iff_getElem.mp hmem
  refine ⟨_, s', s.mem.dagRuns.length + n, Performs.of_yields (Yields.catching hfetch), rfl, ?_⟩
  simp [s', hn, hget]

/-- The select of the executor finds a QUEUED TaskRun. -/
theorem exists_loadTaskRuns (operation : OperationId) (hopen : s.opened (.thread i) = []) {row : TaskRunRow}
    (hrow : s.db.taskRun row.runId = some row) (hqueued : row.state = .queued) :
    ∃ (trs : List TaskRunObj) (s' : Shared) (self : Ref),
      Performs operation i (TaskRunClient.getExecutableTaskRunsToQueue wholeShard) s trs s' ∧
      s'.db = s.db ∧ s'.mem.taskRuns[self]? = some row := by
  let rows := queuedTaskRuns.select s.engine s.db
  have hmem : row ∈ rows := by
    refine List.mem_filter.mpr ⟨Db.mem_taskRuns.mpr hrow, ?_⟩
    simp [TaskRunFilter.accepts_of_taskId_none, TaskRunFilter.agrees, queuedTaskRuns,
      selects_wholeShard, hqueued]
  have hselect : Yields i (P.call (.select none (.taskRuns queuedTaskRuns))) s rows s := by
    have hreads := Yields.select (i := i) (q := .taskRuns queuedTaskRuns) (s := s) rfl
    rwa [reads_of_closed hopen] at hreads
  have hnew : Yields i (P.mem (.newTaskRuns rows)) s (List.range' s.mem.taskRuns.length rows.length)
      (TaskRun.withObjects s rows) := Yields.mem fun _ => rfl
  have hfetch : Yields i (TaskRun.getExecutableTaskRunsToQueue wholeShard) s (TaskRun.objects s rows)
      (TaskRun.withObjects s rows) := hselect.bind (hnew.bind (Yields.ret _ _))
  obtain ⟨n, hn, hget⟩ := List.mem_iff_getElem.mp hmem
  refine ⟨_, _, s.mem.taskRuns.length + n, Performs.of_yields (Yields.catching hfetch), rfl, ?_⟩
  simp [TaskRun.withObjects, hn, hget]

namespace Outline

variable {o : Outline}

/-! ### The next step -/

/-- A pass over the DagRun can be made, once it is loaded. -/
theorem Holds.exists_pass (h : o.Holds s) {run : DagRunRow} (hrun : s.db.dagRun o.runId = some run)
    (hactive : run.state = .queued ∨ run.state = .running) :
    ∃ s₁ s₂, Turn s s₁ ∧ Turn s₁ s₂ ∧ s₁.db = s.db ∧
      Examined o (DagRun.taskRuns s.db run o.dag) (o.execution s.db) (o.execution s₂.db) := by
  have hcurrent : s.db.dagRun run.runId = some run := by rwa [Db.runId_of_dagRun hrun]
  obtain ⟨runs, s₁, self, hload, hdb, hself⟩ :=
    exists_loadDagRuns 0 (h.closed 0) hcurrent
  have hturn := Turn.loadDagRuns _ _ runs hload
  obtain ⟨h₁, _⟩ := h.turn hturn
  rw [← hdb] at hrun hcurrent
  obtain ⟨s₂, hround, hopen, hrelabels⟩ := Scheduler.yields_scheduleDagRun (h₁.closed 0) hself hcurrent
    (h₁.dagOf_eq hself (h₁.ident_eq hrun)) (h₁.plain _ (Shared.mem_of_dag? h₁.dag)) o.nonempty
  have hperforms : Performs 0 _ _ _ _ _ := .of_yields hround
  have hexamined := h₁.examined hrun hactive
    (hperforms.turned (Scheduler.own_scheduleDagRun self) h₁.closed hopen hrelabels)
  rw [hdb] at hexamined
  exact ⟨s₁, s₂, hturn, .schedule self run hself hcurrent hactive hperforms, hdb, hexamined⟩

/-- Without a verdict the DagRun is QUEUED or RUNNING. -/
theorem Stands.exists_active (h : o.Stands s) (hverdict : (o.execution s.db).verdict = none) :
    ∃ run, s.db.dagRun o.runId = some run ∧ (run.state = .queued ∨ run.state = .running) := by
  obtain ⟨run, hrun, _, hqueued⟩ := h.dagRun
  rw [verdict_eq hrun] at hverdict
  refine ⟨run, hrun, ?_⟩
  cases hs : run.state with
  | scheduled => exact absurd hs hqueued
  | queued => exact Or.inl rfl
  | running => exact Or.inr rfl
  | success | failed =>
    rw [hs] at hverdict
    cases hverdict

/-- A QUEUED TaskRun of the DagRun can be started, once it is loaded. -/
theorem Holds.exists_start (h : o.Holds s) {id : Uuid} (hid : id ∈ o.ids)
    (hready : (o.execution s.db).phase id = .ready) :
    ∃ s₁ s₂, Turn s s₁ ∧ Turn s₁ s₂ ∧ s₁.db = s.db ∧
      (o.execution s.db).Step o.DependsOn o.ids (o.execution s₂.db) := by
  obtain ⟨row, hrow, _⟩ := h.taskRuns id hid
  obtain rfl := Db.runId_of_taskRun hrow
  have hqueued : row.state = .queued := (phase_iff .queued hid hrow).mp hready
  obtain ⟨trs, s₁, self, hload, hdb, hself⟩ :=
    exists_loadTaskRuns 0 (h.closed 0) hrow hqueued
  have hturn := Turn.loadTaskRuns _ trs hload
  obtain ⟨h₁, _⟩ := h.turn hturn
  rw [← hdb] at hrow ⊢
  obtain ⟨s₂, hstart, hopen, hrelabels⟩ :=
    Executor.performs_startTaskrun 0 0 (h₁.closed 0) hself hrow hqueued
  refine ⟨s₁, s₂, hturn, .start 0 self row hself hrow hqueued hstart, rfl, ?_⟩
  exact h₁.started hrow hqueued (h₁.own hid hrow)
    (hstart.turned (Executor.own_startTaskrun 0 self) h₁.closed hopen hrelabels)

/-- The operation of a RUNNING TaskRun of the DagRun can finish. -/
theorem Holds.exists_finish (h : o.Holds s) {id : Uuid} (hid : id ∈ o.ids)
    (hactive : (o.execution s.db).phase id = .active) :
    ∃ s₁ s₂, Turn s s₁ ∧ Turn s₁ s₂ ∧ s₁.db = s.db ∧
      (o.execution s.db).Step o.DependsOn o.ids (o.execution s₂.db) := by
  obtain ⟨row, hrow, _⟩ := h.taskRuns id hid
  obtain rfl := Db.runId_of_taskRun hrow
  have hrunning : row.state = .running := (phase_iff .running hid hrow).mp hactive
  obtain ⟨run, hrun, _⟩ := h.dagRun
  obtain ⟨runs, s₁, _, hload, hdb, _⟩ := exists_loadDagRuns 0 (h.closed 0)
    (show s.db.dagRun run.runId = some run by rwa [Db.runId_of_dagRun hrun])
  have hturn := Turn.loadDagRuns _ _ runs hload
  obtain ⟨h₁, _⟩ := h.turn hturn
  rw [← hdb] at hrow ⊢
  obtain ⟨trs, s₂, hcall, hopen, hrelabels⟩ :=
    Executor.yields_finalUpdate none .completed (h₁.closed 0) (by simp) hrow
  have hperforms : Performs 0 _ _ _ _ _ := .of_yields hcall
  refine ⟨s₁, s₂, hturn, .finish none row .completed trs (by simp) hrow hrunning hperforms, rfl, ?_⟩
  exact h₁.finished hrow hrunning (h₁.own hid hrow)
    (hperforms.turned (Executor.own_clientSetState _) h₁.closed hopen hrelabels)

/-- An execution that is not over goes on. -/
theorem Holds.goes_on (h : o.Holds s) (hover : ¬(o.execution s.db).Over o.ids) :
    ∃ s₁ s₂, Turn s s₁ ∧ Turn s₁ s₂ ∧ s₁.db = s.db ∧
      (o.execution s.db).Step o.DependsOn o.ids (o.execution s₂.db) := by
  have hpass : (o.execution s.db).verdict = none → ∃ (rows : List TaskRunRow) (s₁ s₂ : Shared), Turn s s₁ ∧
      Turn s₁ s₂ ∧ s₁.db = s.db ∧ Examined o rows (o.execution s.db) (o.execution s₂.db) := by
    intro hverdict
    obtain ⟨run, hrun, hactive⟩ := h.exists_active hverdict
    exact ⟨_, h.exists_pass hrun hactive⟩
  cases h.sound.enabled o.acyclic_dependsOn hover with
  | release hverdict hhealthy hsome =>
    obtain ⟨rows, s₁, s₂, ht₁, ht₂, hdb, hexamined⟩ := hpass hverdict
    refine ⟨s₁, s₂, ht₁, ht₂, hdb, hexamined.release (fun r hr hs => ?_) ?_ hsome⟩
    · obtain ⟨hid, hphase⟩ := hexamined.node r hr
      exact hhealthy _ hid (by rw [hphase, hs]; rfl)
    · obtain ⟨id, hid, hfree⟩ := hsome
      obtain ⟨r, hr, _, _, hiff⟩ := hexamined.row id hid
      exact ⟨r, hr, by rw [(hiff.mp hfree).1]; decide⟩
  | stop hverdict hfailed =>
    obtain ⟨rows, s₁, s₂, ht₁, ht₂, hdb, hexamined⟩ := hpass hverdict
    obtain ⟨id, hid, hphase⟩ := hfailed
    obtain ⟨r, hr, hp, _⟩ := hexamined.row id hid
    rw [hp] at hphase
    exact ⟨s₁, s₂, ht₁, ht₂, hdb, hexamined.stop ⟨r, hr, TaskRunState.nodePhase_injective hphase⟩⟩
  | conclude hverdict hdone =>
    obtain ⟨rows, s₁, s₂, ht₁, ht₂, hdb, hexamined⟩ := hpass hverdict
    refine ⟨s₁, s₂, ht₁, ht₂, hdb, hexamined.conclude fun r hr => ?_⟩
    obtain ⟨hid, hphase⟩ := hexamined.node r hr
    exact TaskRunState.nodePhase_injective (hphase.symm.trans (hdone _ hid))
  | start id hid hready => exact h.exists_start hid hready
  | finish id hid hactive => exact h.exists_finish hid hactive

end Outline

end YtScheduler
