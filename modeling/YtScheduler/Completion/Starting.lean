import YtScheduler.Completion.Scheduling
import YtScheduler.Laws.Starts
import YtScheduler.Laws.Updates

/-! The start of a TaskRun and the update at the end of its operation, undisturbed: what they make of
the states of the TaskRun and of its DagRun. -/

namespace YtScheduler

open Tablet Threads

variable {i : ℕ} {s s' : Shared}

/-! ### One update of one TaskRun -/

namespace TaskRun

variable {u : UpdateRow} {row : TaskRunRow} {state : TaskRunState}

/-- The state of the TaskRun of `row` becomes `state`. -/
def become (row : TaskRunRow) (state : TaskRunState) (r : TaskRunRow) : TaskRunState :=
  if r.runId = row.runId then state else r.state

theorem distinct_single (hknown : ∀ ref, u.row = .obj ref → ∃ row, s.mem.taskRuns[ref]? = some row) :
    Distinct s.mem.taskRuns [u] where
  known v hv ref hrow := by
    rw [List.mem_singleton.mp hv] at hrow
    exact hknown ref hrow
  nodup := List.nodup_singleton _

/-- `set_state` with a single update. -/
theorem yields_single (hopen : s.opened (.thread i) = [])
    (hknown : ∀ ref, u.row = .obj ref → ∃ row, s.mem.taskRuns[ref]? = some row) :
    ∃ trs s' news, Yields i (setState [u]) s trs s' ∧ s'.opened (.thread i) = [] ∧
      List.Forall₂ Requested (chosenUpdates s [u]) news ∧ s'.db = s.db.upsertAll (news.map .taskRun) := by
  have hdistinct := distinct_single hknown
  obtain ⟨s', hcall, hdb, hopen', hheap⟩ := yields_updates (i := i) hopen hdistinct
  obtain ⟨news, hnews, hwritten⟩ :=
    (told_of_call hdistinct hdb hheap (made_of_call hdistinct hopen' hdb hheap)).written
  exact ⟨_, s', news, hcall, hopen', hnews, hwritten⟩

/-- An update whose requirements are met. -/
theorem yields_update (hopen : s.opened (.thread i) = [])
    (hknown : ∀ ref, u.row = .obj ref → ∃ row, s.mem.taskRuns[ref]? = some row)
    (hchosen : u.chosen s = some row) (hstate : u.state = some state) :
    ∃ trs s' new, Yields i (setState [u]) s trs s' ∧ s'.opened (.thread i) = [] ∧
      s'.db = s.db.upsertAll [.taskRun new] ∧ new.ident = row.ident ∧ new.state = state := by
  obtain ⟨trs, s', news, hcall, hopen', hnews, hdb⟩ := yields_single hopen hknown
  rw [chosenUpdates, List.filterMap_cons, hchosen, Option.map_some, List.filterMap_nil,
    List.forall₂_cons_left_iff] at hnews
  obtain ⟨new, rest, hrequested, hrest, rfl⟩ := hnews
  rw [List.forall₂_nil_left_iff] at hrest
  subst hrest
  refine ⟨trs, s', new, hcall, hopen', hdb, hrequested.ident, ?_⟩
  rw [hrequested.state, hstate]
  rfl

/-- An update whose requirements are not met changes nothing. -/
theorem yields_no_update (hopen : s.opened (.thread i) = [])
    (hknown : ∀ ref, u.row = .obj ref → ∃ row, s.mem.taskRuns[ref]? = some row) (hchosen : u.chosen s = none) :
    ∃ trs s', Yields i (setState [u]) s trs s' ∧ s'.opened (.thread i) = [] ∧ s'.db = s.db := by
  obtain ⟨trs, s', news, hcall, hopen', hnews, hdb⟩ := yields_single hopen hknown
  rw [chosenUpdates, List.filterMap_cons, hchosen, Option.map_none, List.filterMap_nil,
    List.forall₂_nil_left_iff] at hnews
  subst hnews
  exact ⟨trs, s', hcall, hopen', hdb⟩

/-- Any other TaskRun keeps its state. -/
theorem become_of_not_mem {db : Db} (hcurrent : db.taskRun row.runId = some row) {r : TaskRunRow}
    (hr : db.taskRun r.runId = some r) (hnot : r ∉ [row]) : become row state r = r.state :=
  if_neg fun hid => hnot (List.mem_singleton.mpr (Db.eq_of_id hr hcurrent hid))

theorem relabels_update {db : Db} {new : TaskRunRow} (hcurrent : db.taskRun row.runId = some row)
    (hident : new.ident = row.ident) (hstate : new.state = state) :
    Relabels db (db.upsertAll [.taskRun new]) DagRunRow.state (become row state) := by
  refine .of_upsertAll [] [row] (by simp) .nil (fun _ _ _ => rfl) ?_ ?_
    (fun r => become_of_not_mem hcurrent) (by simp [RowKind.proj])
  · rintro r hr
    rwa [List.mem_singleton.mp hr]
  · refine .cons ⟨hident, ?_⟩ .nil
    rw [hstate, become, if_pos rfl]

end TaskRun

namespace Executor

variable {row : TaskRunRow} {tr : Option Ref} {status : OperationState}

/-- The state for a finished operation. -/
def finalState (status : OperationState) : TaskRunState :=
  if status.isUnsuccessfullyFinished then .failed else .success

/-- The update for a finished operation, of the persisted TaskRun or of an object that equals it. -/
theorem yields_finalUpdate (tr : Option Ref) (status : OperationState) (hopen : s.opened (.thread i) = [])
    (htr : ∀ ref, tr = some ref → s.mem.taskRuns[ref]? = some row)
    (hcurrent : s.db.taskRun row.runId = some row) :
    ∃ trs s', Yields i (TaskRunClient.setState [finalUpdate row.runId tr status]) s trs s' ∧
      s'.opened (.thread i) = [] ∧
      Relabels s.db s'.db DagRunRow.state (TaskRun.become row (finalState status)) := by
  have hchosen : (finalUpdate row.runId tr status).chosen s = some row := by
    cases tr with
    | none => simp [UpdateRow.chosen, UpdateRow.base, finalUpdate, hcurrent, Requires.nonempty]
    | some ref => simp [UpdateRow.chosen, UpdateRow.base, finalUpdate, htr ref rfl, Requires.nonempty]
  have hknown : ∀ ref, (finalUpdate row.runId tr status).row = .obj ref →
      ∃ row, s.mem.taskRuns[ref]? = some row := by
    intro ref hobj
    cases tr with
    | none => cases hobj
    | some given =>
      cases hobj
      exact ⟨row, htr ref rfl⟩
  obtain ⟨trs, s', new, hcall, hopen', hdb, hident, hstate⟩ :=
    TaskRun.yields_update hopen hknown hchosen rfl
  refine ⟨trs, s', Yields.catching hcall, hopen', ?_⟩
  rw [hdb]
  exact TaskRun.relabels_update hcurrent hident hstate

/-- The update for an operation that still runs marks a TaskRun that is QUEUED. -/
theorem yields_runningUpdate (hopen : s.opened (.thread i) = []) (item : Item (Option OperationId)) :
    ∃ trs s', Yields i (TaskRunClient.setState [runningUpdate item]) s trs s' ∧ s'.opened (.thread i) = [] ∧
      ((∃ row, s.db.taskRun row.runId = some row ∧ row.state = .queued ∧
        Relabels s.db s'.db DagRunRow.state (TaskRun.become row .running)) ∨ s'.db = s.db) := by
  have hknown : ∀ ref, (runningUpdate item).row = .obj ref → ∃ row, s.mem.taskRuns[ref]? = some row := by
    rintro ref ⟨⟩
  cases hchosen : (runningUpdate item).chosen s with
  | none =>
    obtain ⟨trs, s', hcall, hopen', hdb⟩ := TaskRun.yields_no_update (i := i) hopen hknown hchosen
    exact ⟨trs, s', Yields.catching hcall, hopen', Or.inr hdb⟩
  | some row =>
    obtain ⟨hbase, hmatched⟩ := Option.filter_eq_some_iff.mp hchosen
    have hbase : s.db.taskRun item.runId = some row := hbase
    have hqueued : row.state = .queued := by
      simpa [runningUpdate, Requires.nonempty, Requires.isMatched] using hmatched
    have hcurrent : s.db.taskRun row.runId = some row := by rwa [Db.runId_of_taskRun hbase]
    obtain ⟨trs, s', new, hcall, hopen', hdb, hident, hstate⟩ :=
      TaskRun.yields_update (i := i) hopen hknown hchosen rfl
    refine ⟨trs, s', Yields.catching hcall, hopen', Or.inl ⟨row, hcurrent, hqueued, ?_⟩⟩
    rw [hdb]
    exact TaskRun.relabels_update hcurrent hident hstate

/-! ### The DagRun of a TaskRun -/

/-- The DagRun object made of a persisted row, if there is one. -/
def foundRun (s : Shared) (runId : Uuid) : Option DagRunObj :=
  (s.db.dagRun runId).map (DagRunObj.mk s.mem.dagRuns.length)

/-- The memory with that object. -/
def withRun (s : Shared) (runId : Uuid) : Shared :=
  { s with mem := { s.mem with dagRuns := s.mem.dagRuns ++ (s.db.dagRun runId).toList } }

theorem select_dagRun_toList (db : Db) (runId : Uuid) (engine : Engine) :
    DagRunFilter.select { runId := some (.eq runId), limit := some 1 } engine db =
      (db.dagRun runId).toList := by
  cases hrun : db.dagRun runId with
  | some run => exact DagRun.select_dagRun hrun engine
  | none =>
    rw [Option.toList_none, List.eq_nil_iff_forall_not_mem]
    intro r hr
    obtain ⟨hget, haccepts⟩ := mem_select_dagRuns hr
    have hid : r.runId = runId := by simpa [DagRunFilter.accepts] using haccepts
    rw [hid, hrun] at hget
    cases hget

theorem yields_getDagRun (hopen : s.opened (.thread i) = []) (runId : Uuid) :
    Yields i (DagRunClient.get runId) s (foundRun s runId) (withRun s runId) := by
  have hselect : Yields i (P.call (.select none (.dagRuns { runId := some (.eq runId), limit := some 1 })))
      s (s.db.dagRun runId).toList s := by
    rw [← select_dagRun_toList s.db runId s.engine, ← reads_of_closed hopen]
    exact Yields.select rfl
  have hnew : Yields i (P.mem (.newDagRuns (s.db.dagRun runId).toList)) s
      (List.range' s.mem.dagRuns.length (s.db.dagRun runId).toList.length) (withRun s runId) :=
    Yields.mem fun _ => rfl
  have hfetch : Yields i (DagRun.fetchRows { runId := some (.eq runId), limit := some 1 }) s
      (List.zipWith DagRunObj.mk (List.range' s.mem.dagRuns.length (s.db.dagRun runId).toList.length)
        (s.db.dagRun runId).toList) (withRun s runId) := hselect.bind (hnew.bind (Yields.ret _ _))
  refine Yields.catching (hfetch.bind ?_)
  rw [foundRun]
  cases s.db.dagRun runId with
  | none => exact Yields.ret none _
  | some run => exact Yields.ret _ _

/-- Outside a transaction `set_state` of a DagRun writes it at once. -/
theorem yields_setDagRunState (hopen : s.opened (.thread i) = []) {self : Ref} {run : DagRunRow}
    (hself : s.mem.dagRuns[self]? = some run) (state : DagRunState) :
    ∃ new s', Yields i (DagRun.setState self state) s () s' ∧ s'.db = s.db.upsertAll [.dagRun new] ∧
      new.ident = run.ident ∧ new.state = state ∧ s'.opened = s.opened ∧
      s'.mem.taskRuns = s.mem.taskRuns := by
  have hread : Yields i (P.mem (.readDagRun self)) s run s :=
    Yields.mem fun _ => by simp [Mem.exec, hself]
  let new := run.buildRowByState state ⟨s.clock, false⟩
  let s₁ : Shared := { s with clock := s.clock + 1 }
  let s₂ := s₁.commit ⟨i, false, s₁.store.now, [.dagRun new]⟩
  have hwrite : Yields i (P.mem (.writeDagRun self new)) s₂ ()
      { s₂ with mem := { s₂.mem with dagRuns := s₂.mem.dagRuns.set self new } } := Yields.mem fun _ => rfl
  have hupsert : Yields i (P.upsertRows [.dagRun new] none) s₁ () s₂ :=
    Yields.upsertRows (s := s₁) hopen _
  refine ⟨new, _, hread.bind ((Yields.utcnow s).bind (hupsert.bind hwrite)), ?_,
    DagRunRow.ident_buildRowByState _ _ _, DagRunRow.state_buildRowByState _ _ _, rfl, rfl⟩
  exact Store.current_append _ _

/-! ### The start -/

/-- The task of a TaskRun can be loaded. -/
def loads (s : Shared) (row : TaskRunRow) : Bool := ((s.dag? row.dagId).bind (·.task? row.taskId)).isSome

/-- The state that `_start_taskrun` gives the DagRun. -/
def startedRunState (s : Shared) (row : TaskRunRow) (r : DagRunRow) : DagRunState :=
  if r.runId = row.dagrunId ∧ r.state ≠ .failed ∧ loads s row = true then .running else r.state

/-- The state that `_start_taskrun` gives the TaskRun. -/
def startedState (s : Shared) (row : TaskRunRow) : TaskRunState :=
  match s.db.dagRun row.dagrunId with
  | none => row.state
  | some run => if run.state = .failed then .skipped else if loads s row then .running else row.state

variable {operation : OperationId} {svc : ℕ} {self : Ref}

theorem performs_getTaskRunManifest (hopen : s.opened (.thread i) = []) (row : TaskRunRow) :
    Performs operation i (getTaskRunManifest row) s
      ((s.dag? row.dagId).bind (·.task? row.taskId), foundRun s row.dagrunId) (withRun s row.dagrunId) := by
  refine (Performs.of_yields (yields_getDagRun hopen row.dagrunId)).bind ?_
  exact (Performs.loadTask row.dagId row.taskId _).attempt.bind (Performs.of_yields (Yields.ret _ _))

theorem yields_isFailed (runId : Uuid) :
    Yields i (isFailed (foundRun s runId)) (withRun s runId)
      (decide (∃ run, s.db.dagRun runId = some run ∧ run.state = .failed)) (withRun s runId) := by
  rw [foundRun]
  cases hrun : s.db.dagRun runId with
  | none => exact Yields.ret _ _
  | some run =>
    have hread : Yields i (P.mem (.readDagRun s.mem.dagRuns.length)) (withRun s runId) run
        (withRun s runId) := Yields.mem fun _ => by simp [Mem.exec, withRun, hrun]
    rw [show decide (∃ found, some run = some found ∧ found.state = .failed) = decide (run.state = .failed) by
      simp]
    exact hread.bind (Yields.ret (decide (run.state = .failed)) _)

/-- A TaskRun that is at hand as it stands in the table is marked, if it is QUEUED. -/
theorem yields_mark (state : TaskRunState) (operationId : Option OperationId)
    (hopen : s.opened (.thread i) = []) (hself : s.mem.taskRuns[self]? = some row)
    (hcurrent : s.db.taskRun row.runId = some row) (hqueued : row.state = .queued) :
    ∃ s' new, Yields i (ignoring (TaskRunClient.setState
        [{ row := .obj self, state := some state, operationId,
           requires := { state := some (.eq .queued) } }])) s () s' ∧ s'.opened (.thread i) = [] ∧
      s'.db = s.db.upsertAll [.taskRun new] ∧ new.ident = row.ident ∧ new.state = state := by
  let u : UpdateRow :=
    { row := .obj self, state := some state, operationId, requires := { state := some (.eq .queued) } }
  have hknown : ∀ ref, u.row = .obj ref → ∃ row, s.mem.taskRuns[ref]? = some row := by
    rintro ref ⟨⟩
    exact ⟨row, hself⟩
  have hchosen : u.chosen s = some row := by
    simp [u, UpdateRow.chosen, UpdateRow.base, hself, hcurrent, Requires.nonempty, Requires.isMatched,
      hqueued]
  obtain ⟨trs, s', new, hcall, hopen', hdb, hident, hstate⟩ :=
    TaskRun.yields_update (i := i) hopen hknown hchosen rfl
  exact ⟨s', new, Yields.catching ((Yields.catching hcall).bind (Yields.ret () s')), hopen', hdb, hident, hstate⟩

/-- The operation is started, the DagRun marked, and the operation recorded. -/
theorem performs_begin (operation : OperationId) (svc : ℕ) (task : Task)
    (hopen : s.opened (.thread i) = []) {run : DagRunRow} {ref : Ref}
    (href : s.mem.dagRuns[ref]? = some run) (hself : s.mem.taskRuns[self]? = some row)
    (hcurrent : s.db.taskRun row.runId = some row) (hqueued : row.state = .queued) :
    ∃ s' new started, Performs operation i (withManifest svc self row.runId (some task, some ⟨ref, run⟩) false)
        s () s' ∧ s'.opened (.thread i) = [] ∧
      s'.db = s.db.upsertAll ([.dagRun new] ++ [.taskRun started]) ∧ new.ident = run.ident ∧
      new.state = .running ∧ started.ident = row.ident ∧ started.state = .running := by
  let s₁ : Shared := { s with operations := (operation, row.runId) :: s.operations }
  obtain ⟨new, s₂, hset, hdb₂, hident, hstate, hopen₂, htaskRuns⟩ :=
    yields_setDagRunState (s := s₁) hopen href .running
  let s₃ : Shared :=
    { s₂ with mem := s₂.mem.onService svc fun service => service.addPending row.runId (some operation) self }
  have hadd : Yields i (P.mem (.addPending svc row.runId (some operation) self)) s₂ () s₃ :=
    Yields.mem fun _ => rfl
  have hcurrent₃ : s₃.db.taskRun row.runId = some row := by
    rw [← hcurrent]
    show s₂.db.taskRun row.runId = _
    rw [hdb₂]
    exact Db.get_upsertAll_of_not_written (by simp)
  have hself₃ : s₃.mem.taskRuns[self]? = some row := (congrArg (·[self]?) htaskRuns).trans hself
  obtain ⟨s₄, started, hmark, hopen₄, hdb₄, hident₄, hstate₄⟩ :=
    yields_mark (s := s₃) .running (some operation)
      ((congrFun hopen₂ _).trans hopen) hself₃ hcurrent₃ hqueued
  refine ⟨s₄, new, started, ?_, hopen₄, ?_, hident, hstate, hident₄, hstate₄⟩
  · have hrun : Performs operation i (runOperation row.runId ref) s operation s₂ :=
      (Performs.runOperation row.runId s).bind
        ((Performs.of_yields hset).bind (Performs.of_yields (Yields.ret operation s₂)))
    exact hrun.attempt.bind ((Performs.of_yields hadd).bind (Performs.of_yields hmark))
  · rw [hdb₄, Table.upsertAll_append, ← hdb₂]

theorem become_self {db : Db} (hcurrent : db.taskRun row.runId = some row) {r : TaskRunRow}
    (hr : db.taskRun r.runId = some r) : TaskRun.become row row.state r = r.state := by
  rw [TaskRun.become]
  split_ifs with hid
  · rw [Db.eq_of_id hr hcurrent hid]
  · rfl

/-- Nothing is written. -/
theorem relabels_idle (hcurrent : s.db.taskRun row.runId = some row)
    (hrun : ∀ r, s.db.dagRun r.runId = some r → startedRunState s row r = r.state)
    (hsame : startedState s row = row.state) :
    Relabels s.db s.db (startedRunState s row) (TaskRun.become row (startedState s row)) :=
  (Relabels.refl s.db).congr hrun fun _ hr => hsame ▸ become_self hcurrent hr

/-- The DagRun and the TaskRun are set RUNNING. -/
theorem relabels_begin {run : DagRunRow} (hrun : s.db.dagRun row.dagrunId = some run)
    (hcurrent : s.db.taskRun row.runId = some row) (hfailed : run.state ≠ .failed)
    (hloads : loads s row = true) {new : DagRunRow} {started : TaskRunRow} (hident : new.ident = run.ident)
    (hstate : new.state = .running) (hident' : started.ident = row.ident)
    (hstate' : started.state = .running) :
    Relabels s.db (s.db.upsertAll ([.dagRun new] ++ [.taskRun started])) (startedRunState s row)
      (TaskRun.become row (startedState s row)) := by
  have hrunId := Db.runId_of_dagRun hrun
  rw [← hrunId] at hrun
  refine .of_upsertAll [run] [row] ?_ (.cons ⟨hident, ?_⟩ .nil) ?_ ?_ (.cons ⟨hident', ?_⟩ .nil)
    (fun r => TaskRun.become_of_not_mem hcurrent) (by simp [RowKind.proj])
  · rintro r hr
    rwa [List.mem_singleton.mp hr]
  · rw [hstate, startedRunState, if_pos ⟨hrunId, hfailed, hloads⟩]
  · intro r hr hnot
    refine if_neg fun h => hnot (List.mem_singleton.mpr ?_)
    exact Db.eq_of_id hr hrun (h.1.trans hrunId.symm)
  · rintro r hr
    rwa [List.mem_singleton.mp hr]
  · rw [hstate', TaskRun.become, if_pos rfl]
    rw [hrunId] at hrun
    simp [startedState, hrun, hfailed, hloads]

/-- `_start_taskrun` for a QUEUED TaskRun that was just loaded. -/
theorem performs_startTaskrun (operation : OperationId) (svc : ℕ)
    (hopen : s.opened (.thread i) = []) (hself : s.mem.taskRuns[self]? = some row)
    (hcurrent : s.db.taskRun row.runId = some row) (hqueued : row.state = .queued) :
    ∃ s', Performs operation i (startTaskrun svc self) s () s' ∧ s'.opened (.thread i) = [] ∧
      Relabels s.db s'.db (startedRunState s row) (TaskRun.become row (startedState s row)) := by
  have hread : Yields i (P.mem (.readTaskRun self)) s row s :=
    Yields.mem fun _ => by simp [Mem.exec, hself]
  have hrest : ∀ {s'}, Performs operation i (withManifest svc self row.runId
      ((s.dag? row.dagId).bind (·.task? row.taskId), foundRun s row.dagrunId)
      (decide (∃ run, s.db.dagRun row.dagrunId = some run ∧ run.state = .failed)))
      (withRun s row.dagrunId) () s' → Performs operation i (startTaskrun svc self) s () s' := by
    intro s' h
    rw [startTaskrun_eq]
    exact (Performs.of_yields hread).bind ((performs_getTaskRunManifest hopen row).bind
      ((Performs.of_yields (yields_isFailed row.dagrunId)).bind h))
  cases hrun : s.db.dagRun row.dagrunId with
  | none =>
    refine ⟨withRun s row.dagrunId, hrest (Performs.of_yields ?_), hopen, ?_⟩
    · rw [foundRun, hrun]
      have hnothing : ∀ task : Option Task, withManifest svc self row.runId (task, none) false = pure () := by
        intro task
        cases task <;> rfl
      simpa [hnothing] using Yields.ret () _
    · refine relabels_idle hcurrent (fun r hr => if_neg fun h => ?_) (by rw [startedState, hrun])
      rw [h.1, hrun] at hr
      cases hr
  | some run =>
    by_cases hfailed : run.state = .failed
    · obtain ⟨s', new, hmark, hopen', hdb, hident, hstate⟩ :=
        yields_mark (s := withRun s row.dagrunId) .skipped none hopen hself hcurrent hqueued
      refine ⟨s', hrest (Performs.of_yields ?_), hopen', ?_⟩
      · simpa [withManifest, hrun, hfailed] using hmark
      · rw [hdb]
        refine (TaskRun.relabels_update hcurrent hident hstate).congr (fun r hr => if_neg fun h => ?_) fun r hr => ?_
        · rw [h.1, hrun] at hr
          exact h.2.1 (Option.some.inj hr ▸ hfailed)
        · simp [startedState, hrun, hfailed]
    · cases hload : (s.dag? row.dagId).bind (·.task? row.taskId) with
      | none =>
        have hnot : loads s row = false := by rw [loads, hload]; rfl
        refine ⟨withRun s row.dagrunId, hrest (Performs.of_yields ?_), hopen, ?_⟩
        · simpa [withManifest, hrun, hfailed, hload] using Yields.ret () _
        · refine relabels_idle hcurrent (fun r hr => if_neg fun h => ?_) ?_
          · rw [hnot] at h
            exact Bool.false_ne_true h.2.2
          · simp [startedState, hrun, hfailed, hnot]
      | some task =>
        have hloads : loads s row = true := by rw [loads, hload]; rfl
        have href : (withRun s row.dagrunId).mem.dagRuns[s.mem.dagRuns.length]? = some run := by
          simp [withRun, hrun]
        obtain ⟨s', new, started, hbegin, hopen', hdb, hident, hstate, hident', hstate'⟩ :=
          performs_begin (s := withRun s row.dagrunId) operation svc task hopen href hself hcurrent hqueued
        refine ⟨s', hrest ?_, hopen', ?_⟩
        · simpa [foundRun, hrun, hfailed, hload] using hbegin
        · rw [hdb]
          exact relabels_begin hrun hcurrent hfailed hloads hident hstate hident' hstate'

theorem own_clientSetState (us : List UpdateRow) : (TaskRunClient.setState us).Uses Op.Own :=
  P.uses_handleExceptions (own_setState us)

theorem own_ignoring {α : Type} {p : P α} (hp : p.Uses Op.Own) : (ignoring p).Uses Op.Own := by
  refine Prog.Uses.catching (Prog.Uses.bind ?_ fun _ => trivial) fun _ => trivial
  exact hp

theorem own_getDagRun (runId : Uuid) : (DagRunClient.get runId).Uses Op.Own := by
  refine P.uses_handleExceptions (Prog.Uses.bind (Prog.Uses.bind (.op trivial) fun _ =>
    Prog.Uses.bind (.op trivial) fun _ => trivial) fun runs => ?_)
  split <;> trivial

theorem own_startTaskrun (svc : ℕ) (self : Ref) : (startTaskrun svc self).Uses Op.Own := by
  rw [startTaskrun_eq]
  refine Prog.Uses.bind (.op trivial) fun row => Prog.Uses.bind ?_ fun m => Prog.Uses.bind ?_ fun failed => ?_
  · refine (own_getDagRun row.dagrunId).bind fun dagrun => Prog.Uses.bind (.attempt (.op trivial)) fun r => ?_
    split
    · trivial
    · refine Prog.Uses.bind ?_ fun _ => trivial
      cases dagrun with
      | none => trivial
      | some run => exact own_ignoring (P.uses_handleExceptions (own_setDagRunState run.ref .failed))
    · trivial
  · cases m.2 with
    | none => trivial
    | some run => exact Prog.Uses.bind (.op trivial) fun _ => trivial
  · unfold withManifest
    split_ifs
    · exact own_ignoring (own_clientSetState _)
    · cases m.1 with
      | none => trivial
      | some task =>
        cases m.2 with
        | none => trivial
        | some run =>
          have hrun : (runOperation row.runId run.ref).Uses Op.Own :=
            Prog.Uses.bind (.op trivial) fun _ => (own_setDagRunState run.ref .running).bind fun _ => trivial
          refine hrun.attempt.bind fun r => ?_
          cases r with
          | error e => exact own_ignoring (own_clientSetState _)
          | ok operation => exact Prog.Uses.bind (.op trivial) fun _ => own_ignoring (own_clientSetState _)

end Executor

end YtScheduler
