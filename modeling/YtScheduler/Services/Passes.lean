import YtScheduler.Services.Alone

/-! The two transactions of a pass over a DagRun, run alone: `update_state` returns the
released TaskRuns and writes the DagRun, `schedule_trs` queues the TaskRuns it is given
that are still scheduled. -/

namespace YtScheduler

open Tablet Threads

variable {i : ℕ} {s s₁ : Shared} {w : List Row}

namespace TaskRun

/-- The update that only sets a state. -/
def stateUpdate (state : TaskRunState) (tr : TaskRunObj) : UpdateRow :=
  { row := .obj tr.ref, state := some state }

/-- A row and what `set_state` makes of it. -/
def Updated (state : TaskRunState) (row new : TaskRunRow) : Prop :=
  ∃ now, new = row.buildRow (some state) none now

theorem Updated.ident {state : TaskRunState} {row new : TaskRunRow} (h : Updated state row new) :
    new.ident = row.ident := by
  obtain ⟨now, rfl⟩ := h
  exact TaskRunRow.ident_buildRow _ _ _ _

theorem Updated.state {state : TaskRunState} {row new : TaskRunRow} (h : Updated state row new) :
    new.state = state := by
  obtain ⟨now, rfl⟩ := h
  exact TaskRunRow.state_buildRow _ _ _ _

/-- The objects a process makes of fetched rows. -/
def objects (s : Shared) (rows : List TaskRunRow) : List TaskRunObj :=
  List.zipWith TaskRunObj.mk (List.range' s.mem.taskRuns.length rows.length) rows

/-- The memory with these objects. -/
def withObjects (s : Shared) (rows : List TaskRunRow) : Shared :=
  { s with mem := { s.mem with taskRuns := s.mem.taskRuns ++ rows } }

theorem map_row_objects (s : Shared) (rows : List TaskRunRow) :
    (objects s rows).map (·.row) = rows := by
  apply List.ext_getElem
  · simp [objects]
  · intro n _ _
    simp [objects]

/-- New objects hold the rows, under references that were not in use. -/
theorem mem_objects {s : Shared} {rows : List TaskRunRow} {tr : TaskRunObj} (h : tr ∈ objects s rows) :
    s.mem.taskRuns.length ≤ tr.ref ∧ (withObjects s rows).mem.taskRuns[tr.ref]? = some tr.row := by
  obtain ⟨n, hn, rfl⟩ := List.mem_iff_getElem.mp h
  have hlt : n < rows.length := by simpa [objects] using hn
  simp [objects, withObjects, hlt]

theorem yields_fetch (filter : TaskRunFilter) {s : Shared} (hshard : filter.shard = none)
    (hread : (filter.read s.engine).isSome = true) :
    Yields i (fetchRows filter) s (objects s (filter.select s.engine (s.reads i)))
      (withObjects s (filter.select s.engine (s.reads i))) := by
  have hselect : Yields i (P.call (.select none (.taskRuns filter))) s
      (filter.select s.engine (s.reads i)) s :=
    Yields.select (Query.fails_taskRuns hshard hread)
  exact hselect.bind (Yields.bind (Yields.mem fun _ => rfl) (Yields.ret _ _))

/-- New objects hold the selected rows. -/
theorem yields_fetchRows (h : Inside i s s₁ w) (filter : TaskRunFilter) (hshard : filter.shard = none)
    (hread : (filter.read s.engine).isSome = true) :
    ∃ trs s₂, Yields i (fetchRows filter) s₁ trs s₂ ∧ Inside i s s₂ w ∧
      trs.map (·.row) = filter.select s.engine s.db ∧
      (∀ tr ∈ trs, s₂.mem.taskRuns[tr.ref]? = some tr.row) ∧ s₂.mem.dagRuns = s₁.mem.dagRuns := by
  refine ⟨_, _, yields_fetch filter hshard (h.engine.symm ▸ hread), h.congr _ rfl rfl rfl, ?_,
    fun tr htr => (mem_objects htr).2, rfl⟩
  rw [map_row_objects, h.reads, h.engine]

theorem yields_fetchableRids (state : TaskRunState) (trs : List TaskRunObj) (s : Shared) :
    Yields i (fetchableRids (trs.map (stateUpdate state))) s [] s := by
  induction trs with
  | nil => exact Yields.ret _ _
  | cons tr trs ih =>
    have hrid : Yields i (fetchableRid (stateUpdate state tr)) s [] s := Yields.ret _ _
    rw [List.map_cons, fetchableRids]
    refine hrid.bind ?_
    exact ih.bind (Yields.ret _ _)

/-- Without requirements every TaskRun is updated as its object stands. -/
theorem yields_prepareAll (state : TaskRunState) {trs : List TaskRunObj}
    (hrows : ∀ tr ∈ trs, s.mem.taskRuns[tr.ref]? = some tr.row) :
    ∃ news clock, Yields i (prepareAll [] (trs.map (stateUpdate state))) s news { s with clock } ∧
      List.Forall₂ (Updated state) (trs.map (·.row)) (news.map (·.row)) := by
  induction trs generalizing s with
  | nil => exact ⟨[], s.clock, Yields.ret _ _, .nil⟩
  | cons tr trs ih =>
    rw [List.forall_mem_cons] at hrows
    have hread : Yields i (P.mem (.readTaskRun tr.ref)) s tr.row s :=
      Yields.mem fun _ => by simp [Mem.exec, hrows.1]
    let new : TaskRunObj := ⟨tr.ref, tr.row.buildRow (some state) none ⟨s.clock, true⟩⟩
    have hprepare : Yields i (prepare [] (stateUpdate state tr)) s (some new)
        { s with clock := s.clock + 1 } := by
      have htarget : Yields i (target [] (stateUpdate state tr)) s (some tr) s := by
        refine hread.bind ?_
        exact Yields.ret (some tr) s
      refine htarget.bind ?_
      exact (Yields.nowUtc s).bind (Yields.ret _ _)
    obtain ⟨news, clock, hrest, hnews⟩ := ih (s := { s with clock := s.clock + 1 }) hrows.2
    exact ⟨new :: news, clock, hprepare.bind (hrest.bind (Yields.ret _ _)),
      .cons ⟨_, rfl⟩ hnews⟩

/-- The last loop of `set_state` only copies rows into objects. -/
theorem yields_copyRows (news : List TaskRunObj) (h : Inside i s s₁ w) :
    ∃ s₂, Yields i (Prog.forEach news fun u => P.mem (.writeTaskRun u.ref u.row)) s₁ () s₂ ∧
      Inside i s s₂ w ∧ s₂.mem.dagRuns = s₁.mem.dagRuns := by
  refine Yields.forEach (I := fun _ s₂ => Inside i s s₂ w ∧ s₂.mem.dagRuns = s₁.mem.dagRuns)
    (fun u _ s₂ h₂ => ?_) ⟨h, rfl⟩
  exact ⟨{ s₂ with mem := { s₂.mem with taskRuns := s₂.mem.taskRuns.set u.ref u.row } },
    Yields.mem fun _ => rfl, h₂.1.congr _ rfl rfl rfl, h₂.2⟩

/-- `set_state` without requirements inside a transaction. -/
theorem yields_setState (h : Inside i s s₁ w) (state : TaskRunState) {trs : List TaskRunObj}
    (hne : trs ≠ []) (hrows : ∀ tr ∈ trs, s₁.mem.taskRuns[tr.ref]? = some tr.row) :
    ∃ (news : List TaskRunObj) (s₂ : Shared),
      Yields i (setState (trs.map (stateUpdate state))) s₁ (news.map TaskRunObj.ref) s₂ ∧
      Inside i s s₂ (w ++ news.map fun u => .taskRun u.row) ∧
      List.Forall₂ (Updated state) (trs.map (·.row)) (news.map (·.row)) ∧ s₂.mem.dagRuns = s₁.mem.dagRuns := by
  obtain ⟨news, clock, hprepare, hnews⟩ := yields_prepareAll (i := i) state hrows
  obtain ⟨s₂, hupsert, h₂, hmem, _⟩ := (h.congr { s₁ with clock } rfl rfl rfl).upsertRows
    (news.map fun u => .taskRun u.row)
  obtain ⟨s₃, hcopy, h₃, hruns⟩ := yields_copyRows news h₂
  have hnonempty : news.isEmpty = false := by
    rw [List.isEmpty_eq_false_iff, ← List.length_pos_iff]
    have hlength := hnews.length_eq
    rw [List.length_map, List.length_map] at hlength
    rw [← hlength]
    exact List.length_pos_iff.mpr hne
  have happly : Yields i (applyUpdates [] (trs.map (stateUpdate state))) s₁ news s₂ := by
    refine hprepare.bind (Yields.bind (a := ()) ?_ (Yields.ret _ _))
    rw [P.unlessEmpty, hnonempty]
    exact hupsert
  exact ⟨news, s₃, (yields_fetchableRids state trs s₁).bind (happly.bind (hcopy.bind (Yields.ret _ _))),
    h₃, hnews, hruns.trans (congrArg Mem.dagRuns hmem)⟩

end TaskRun

namespace DagRun

theorem yields_fetchTrs (h : Inside i s s₁ w) {self : Ref} {run : DagRunRow}
    (hself : s₁.mem.dagRuns[self]? = some run) {dag : Dag}
    (htrs : ((trsFilter run dag).read s.engine).isSome = true) :
    ∃ trs s₂, Yields i (fetchTrs self dag) s₁ trs s₂ ∧ Inside i s s₂ w ∧
      trs.map (·.row) = readTrs s.engine s.db run dag ∧
      (∀ tr ∈ trs, s₂.mem.taskRuns[tr.ref]? = some tr.row) ∧ s₂.mem.dagRuns = s₁.mem.dagRuns := by
  have hread : Yields i (P.mem (.readDagRun self)) s₁ run s₁ :=
    Yields.mem fun _ => by simp [Mem.exec, hself]
  obtain ⟨trs, s₂, hfetch, h₂, hrows⟩ := TaskRun.yields_fetchRows h (trsFilter run dag) rfl htrs
  exact ⟨trs, s₂, hread.bind hfetch, h₂, hrows⟩

/-- Where the engine cannot read the query, the statement raises. -/
theorem fetchTrs_raises {self : Ref} {run : DagRunRow} (hself : s.mem.dagRuns[self]? = some run)
    {dag : Dag} (hread : (trsFilter run dag).read s.engine = none) :
    Comes i (fetchTrs self dag) s (.error .runtime) s := by
  have hrow : Yields i (P.mem (.readDagRun self)) s run s :=
    Yields.mem fun _ => by simp [Mem.exec, hself]
  exact hrow.bind_comes (Comes.select_fails (Query.fails_of_unreadable hread)).bind_error

theorem yields_setState (h : Inside i s s₁ w) {self : Ref} {run : DagRunRow}
    (hself : s₁.mem.dagRuns[self]? = some run) (state : DagRunState) :
    ∃ row s₂, Yields i (setState self state) s₁ () s₂ ∧ Inside i s s₂ (w ++ [.dagRun row]) ∧
      row.ident = run.ident ∧ row.state = state ∧
      s₂.mem = { s₁.mem with dagRuns := s₁.mem.dagRuns.set self row } := by
  have hread : Yields i (P.mem (.readDagRun self)) s₁ run s₁ :=
    Yields.mem fun _ => by simp [Mem.exec, hself]
  let row := run.buildRowByState state ⟨s₁.clock, false⟩
  obtain ⟨s₂, hupsert, h₂, hmem, _⟩ :=
    (h.congr { s₁ with clock := s₁.clock + 1 } rfl rfl rfl).upsertRows [.dagRun row]
  refine ⟨row, { s₂ with mem := { s₂.mem with dagRuns := s₂.mem.dagRuns.set self row } },
    hread.bind ((Yields.utcnow s₁).bind (hupsert.bind (Yields.mem fun _ => rfl))),
    h₂.congr _ rfl rfl rfl, DagRunRow.ident_buildRowByState _ _ _, DagRunRow.state_buildRowByState _ _ _, ?_⟩
  rw [hmem]

/-- The statements of `update_state` inside its transaction. -/
def updateBody (self : Ref) (dag : Dag) : P (List Uuid) := do
  let trs ← fetchTrs self dag
  P.unlessEmpty (skippableTrs trs) (skipTrs (skippableTrs trs))
  setState self (runState trs)
  pure ((releasedTrs dag trs).map (·.row.runId))

theorem updateState_eq (self : Ref) (dag : Dag) :
    updateState self dag = P.transaction none (updateBody self dag) := rfl

/-- Inside its transaction `update_state` skips what a failure leaves behind, writes the state of the
run, and returns what it releases. -/
theorem yields_updateBody (h : Inside i s s₁ []) {self : Ref} {run : DagRunRow}
    (hself : s₁.mem.dagRuns[self]? = some run) {dag : Dag}
    (hread : ((trsFilter run dag).read s.engine).isSome = true) :
    ∃ (trs : List TaskRunObj) (rows : List TaskRunRow) (row : DagRunRow),
      trs.map (·.row) = readTrs s.engine s.db run dag ∧
      List.Forall₂ (TaskRun.Updated .skipped) ((skippableTrs trs).map (·.row)) rows ∧
      row.ident = run.ident ∧ row.state = runState trs ∧
      ∃ s₂, Yields i (updateBody self dag) s₁ ((releasedTrs dag trs).map (·.row.runId)) s₂ ∧
        Inside i s s₂ (rows.map .taskRun ++ [.dagRun row]) ∧
        s₂.mem.dagRuns = s₁.mem.dagRuns.set self row := by
  obtain ⟨trs, s₂, hfetch, h₂, hrows, htrs, hruns₂⟩ := yields_fetchTrs h hself hread
  have hskip : ∃ (rows : List TaskRunRow) (s₃ : Shared),
      Yields i (P.unlessEmpty (skippableTrs trs) (skipTrs (skippableTrs trs))) s₂ () s₃ ∧
      Inside i s s₃ (rows.map .taskRun) ∧
      List.Forall₂ (TaskRun.Updated .skipped) ((skippableTrs trs).map (·.row)) rows ∧
      s₃.mem.dagRuns = s₁.mem.dagRuns := by
    by_cases hnone : skippableTrs trs = []
    · rw [hnone]
      exact ⟨[], s₂, Yields.ret () s₂, h₂, .nil, hruns₂⟩
    · obtain ⟨news, s₃, hset, h₃, hnews, hruns⟩ := TaskRun.yields_setState h₂ .skipped hnone
        fun tr htr => htrs tr (mem_skippableTrs.mp htr).2.1
      refine ⟨news.map (·.row), s₃, ?_, by rwa [List.map_map], hnews, hruns.trans hruns₂⟩
      rw [P.unlessEmpty, if_neg (by simpa using hnone)]
      exact hset.bind (Yields.ret () s₃)
  obtain ⟨rows, s₃, hskip, h₃, hskipped, hruns₃⟩ := hskip
  obtain ⟨row, s₄, hset, h₄, hident, hstate, hmem₄⟩ :=
    yields_setState h₃ (hruns₃ ▸ hself) (runState trs)
  refine ⟨trs, rows, row, hrows, hskipped, hident, hstate, s₄, ?_, h₄, by rw [hmem₄, hruns₃]⟩
  exact hfetch.bind (hskip.bind (hset.bind (Yields.ret _ s₄)))

/-- `update_state` alone. -/
theorem yields_updateState (hopen : s.opened (.thread i) = []) {self : Ref} {run : DagRunRow}
    (hself : s.mem.dagRuns[self]? = some run) {dag : Dag}
    (hread : ((trsFilter run dag).read s.engine).isSome = true) :
    ∃ (trs : List TaskRunObj) (rows : List TaskRunRow) (row : DagRunRow),
      trs.map (·.row) = readTrs s.engine s.db run dag ∧
      List.Forall₂ (TaskRun.Updated .skipped) ((skippableTrs trs).map (·.row)) rows ∧
      row.ident = run.ident ∧ row.state = runState trs ∧
      ∃ s', Yields i (updateState self dag) s ((releasedTrs dag trs).map (·.row.runId)) s' ∧
        Applied i s (rows.map .taskRun ++ [.dagRun row]) s' ∧
        s'.mem.dagRuns = s.mem.dagRuns.set self row := by
  obtain ⟨trs, rows, row, hrows, hskipped, hident, hstate, s₁, hbody, h₁, hruns⟩ :=
    yields_updateBody (Inside.begin hopen) (show (s.beginTx i _).mem.dagRuns[self]? = _ from hself) hread
  obtain ⟨s', htx, happlied, hmem⟩ := Yields.transaction hbody h₁
  exact ⟨trs, rows, row, hrows, hskipped, hident, hstate, s', htx, happlied, by rw [hmem, hruns]; rfl⟩

theorem updateState_raises {self : Ref} {run : DagRunRow} (hself : s.mem.dagRuns[self]? = some run)
    {dag : Dag} (hread : (trsFilter run dag).read s.engine = none) :
    ∃ s', Comes i (updateState self dag) s (.error .runtime) s' := by
  have hfetch := fetchTrs_raises (i := i) (s := s.beginTx i (.thread i)) hself hread
  exact ⟨_, Comes.transaction hfetch.bind_error⟩

/-- What `schedule_trs` selects. -/
def queueable (db : Db) (runId : Uuid) (tids : List Uuid) : List TaskRunRow :=
  db.taskRuns.filter fun r => r.runId ∈ tids ∧ r.dagrunId = runId ∧ r.state = .scheduled

/-- `schedule_trs` alone: it queues the TaskRuns it is given that are scheduled TaskRuns of the
run. -/
theorem yields_scheduleTrs (hopen : s.opened (.thread i) = []) (runId : Uuid) (tids : List Uuid) :
    ∃ rows, List.Forall₂ (TaskRun.Updated .queued) (queueable s.db runId tids) rows ∧
      ∃ s', Yields i (scheduleTrs runId tids) s rows.length s' ∧
        Applied i s (rows.map .taskRun) s' ∧ s'.mem.dagRuns = s.mem.dagRuns := by
  by_cases htids : tids = []
  · refine ⟨[], ?_, s, ?_, ⟨rfl, hopen⟩, rfl⟩
    · simp [queueable, htids]
    · rw [htids]
      exact Yields.ret 0 s
  · obtain ⟨trs, s₁, hfetch, h₁, hselect, htrs, hruns₁⟩ := TaskRun.yields_fetchRows (Inside.begin hopen)
      { runId := some (.mem tids), dagrunId := some (.eq runId), state := some (.eq .scheduled) } rfl rfl
    have hrows : trs.map (·.row) = queueable s.db runId tids := by
      rw [hselect, TaskRunFilter.select, limited]
      refine List.filter_congr fun r _ => ?_
      simp only [TaskRunFilter.accepts_of_taskId_none, TaskRunFilter.agrees,
        FilterValue.acceptsOpt, FilterValue.accepts, Option.all_none, Option.all_some, Bool.and_true,
        Bool.decide_and]
      ac_rfl
    rw [← hrows]
    have hqueue : ∃ (rows : List TaskRunRow) (s₂ : Shared),
        List.Forall₂ (TaskRun.Updated .queued) (trs.map (·.row)) rows ∧
        Inside i s s₂ (rows.map .taskRun) ∧ s₂.mem.dagRuns = s.mem.dagRuns ∧
        Yields i (if trs.isEmpty then pure 0 else do
          let trs ← TaskRun.setState (trs.map fun tr => { row := .obj tr.ref, state := some .queued })
          pure trs.length) s₁ rows.length s₂ := by
      cases trs with
      | nil => exact ⟨[], s₁, .nil, h₁, hruns₁, Yields.ret 0 s₁⟩
      | cons tr rest =>
        obtain ⟨news, s₂, hset, h₂, hnews, hruns₂⟩ := TaskRun.yields_setState h₁ .queued
          (List.cons_ne_nil tr rest) htrs
        refine ⟨news.map (·.row), s₂, hnews, by rwa [List.map_map], hruns₂.trans hruns₁, ?_⟩
        rw [show (news.map (·.row)).length = (news.map TaskRunObj.ref).length by simp]
        exact hset.bind (Yields.ret _ s₂)
    obtain ⟨rows, s₂, hnews, h₂, hruns₂, hset⟩ := hqueue
    have htx : ∃ s', Yields i (scheduleTrs runId tids) s rows.length s' ∧
        Applied i s (rows.map .taskRun) s' ∧ s'.mem = s₂.mem := by
      rw [scheduleTrs, if_neg (by simpa using htids)]
      refine Yields.transaction ?_ h₂
      exact hfetch.bind hset
    obtain ⟨s', htx, happlied, hmem⟩ := htx
    exact ⟨rows, hnews, s', htx, happlied, (congrArg Mem.dagRuns hmem).trans hruns₂⟩

/-! ### The TaskRuns of a new run -/

/-- The TaskRuns built for tasks, under run ids from `n` on. -/
def created (dagrunId : Uuid) (state : TaskRunState) : ℕ → List Task → List TaskRunRow
  | _, [] => []
  | n, t :: ts => newTaskRun dagrunId t state n :: created dagrunId state (n + 1) ts

theorem yields_newTaskRuns (dagrunId : Uuid) (state : TaskRunState) (tasks : List Task) (s : Shared) :
    Yields i (newTaskRuns dagrunId state tasks) s (created dagrunId state s.uuids tasks)
      { s with uuids := s.uuids + tasks.length } := by
  induction tasks generalizing s with
  | nil => exact Yields.ret _ _
  | cons t ts ih =>
    have hid : Yields i (P.call .generateUuid) s s.uuids { s with uuids := s.uuids + 1 } :=
      Yields.op fun _ l _ => ⟨l, rfl⟩
    have hrest := ih { s with uuids := s.uuids + 1 }
    rw [show s.uuids + (t :: ts).length = s.uuids + 1 + ts.length by simp; omega]
    exact hid.bind (hrest.bind (Yields.ret _ _))

/-- The existing TaskRuns that `_init_task_runs_for_run` finds. -/
def found (s : Shared) (i : ℕ) (run : DagRunRow) (dag : Dag) : List TaskRunObj :=
  TaskRun.objects s ((existingFilter run dag).select s.engine (s.reads i))

theorem yields_initTaskRunsForRun {self : Ref} {run : DagRunRow}
    (hself : s.mem.dagRuns[self]? = some run) {dag : Dag}
    (hexisting : ((existingFilter run dag).read s.engine).isSome = true) :
    ∃ s', Yields i (initTaskRunsForRun self dag) s
      (created run.runId .queued s.uuids (tasksToCreate dag (found s i run dag)).1 ++
        created run.runId .scheduled (s.uuids + (tasksToCreate dag (found s i run dag)).1.length)
          (tasksToCreate dag (found s i run dag)).2) s' ∧
      (∀ {s₀ w}, Inside i s₀ s w → Inside i s₀ s' w) ∧
      s'.mem = (TaskRun.withObjects s ((existingFilter run dag).select s.engine (s.reads i))).mem := by
  have hread : Yields i (P.mem (.readDagRun self)) s run s :=
    Yields.mem fun _ => by simp [Mem.exec, hself]
  obtain ⟨s₁, hfetch, huuids, hinside, hmem⟩ : ∃ s₁, Yields i (TaskRun.fetchRows (existingFilter run dag))
      s (found s i run dag) s₁ ∧ s₁.uuids = s.uuids ∧ (∀ {s₀ w}, Inside i s₀ s w → Inside i s₀ s₁ w) ∧
      s₁.mem = (TaskRun.withObjects s ((existingFilter run dag).select s.engine (s.reads i))).mem :=
    ⟨_, TaskRun.yields_fetch _ rfl hexisting, rfl, fun h => h.congr _ rfl rfl rfl, rfl⟩
  have hroots := yields_newTaskRuns (i := i) run.runId .queued (tasksToCreate dag (found s i run dag)).1 s₁
  rw [← huuids]
  have hothers := yields_newTaskRuns (i := i) run.runId .scheduled (tasksToCreate dag (found s i run dag)).2
    { s₁ with uuids := s₁.uuids + (tasksToCreate dag (found s i run dag)).1.length }
  exact ⟨_, hread.bind (hfetch.bind (hroots.bind (hothers.bind (Yields.ret _ _)))),
    fun h => (hinside h).congr _ rfl rfl rfl, hmem⟩

theorem initTaskRunsForRun_raises {self : Ref} {run : DagRunRow}
    (hself : s.mem.dagRuns[self]? = some run) {dag : Dag}
    (hexisting : (existingFilter run dag).read s.engine = none) :
    Comes i (initTaskRunsForRun self dag) s (.error .runtime) s := by
  have hrow : Yields i (P.mem (.readDagRun self)) s run s :=
    Yields.mem fun _ => by simp [Mem.exec, hself]
  have hselect : Comes i (P.call (.select none (.taskRuns (existingFilter run dag)))) s
      (.error .runtime) s := Comes.select_fails (Query.fails_of_unreadable hexisting)
  have hfetch : Comes i (TaskRun.fetchRows (existingFilter run dag)) s (.error .runtime) s :=
    hselect.bind_error
  exact hrow.bind_comes hfetch.bind_error

end DagRun

end YtScheduler
