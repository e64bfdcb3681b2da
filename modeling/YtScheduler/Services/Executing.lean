import YtScheduler.Sequences.Indices
import YtScheduler.Services.Machine
import YtScheduler.Services.Seen

/-! What the threads of executors do to TaskRuns. They open transactions on the global client
only and write through their own; a TaskRun that they finish is written alone, built from
the copy that the call holds. -/

namespace YtScheduler

open P Threads

/-! ### Rows -/

namespace TaskRunRow

/-- All columns but `state` and `end_date`. -/
def recorded (row : TaskRunRow) : TaskRunRow := { row with state := .running, endDate := none }

theorem recorded_enter (row : TaskRunRow) {state : TaskRunState} (now : Iso)
    (h : state ∉ TaskRunState.unfinishedStates) : (row.enter state now).recorded = row.recorded := by
  unfold enter
  rw [if_neg h]
  split_ifs <;> rfl

theorem recorded_buildRow (row : TaskRunRow) {state : Option TaskRunState} (now : Iso)
    (h : ∀ st, state = some st → st ∉ TaskRunState.unfinishedStates) :
    (row.buildRow state none now).recorded = row.recorded := by
  cases state with
  | none => rfl
  | some st =>
    show (if row.state = st then row else row.enter st now).recorded = row.recorded
    split_ifs
    · rfl
    · exact recorded_enter row now (h st rfl)

end TaskRunRow

/-- The states an operation can end in. -/
def finalStates : List TaskRunState := [.success, .failed]

/-! ### Jobs and calls -/

/-- The update of a single TaskRun, which sets an operation id only with the state RUNNING. -/
def UpdateRow.Recording (u : UpdateRow) : Prop := u.operationId = none ∨ u.state = some .running

/-- The jobs that executors submit. -/
def Job.OfExecutor : Job → Prop
  | .getExecutableTaskRunsToQueue _ | .startTaskrun _ _ | .orphanCleanup | .tryAbortRun _ => True
  | .setState rows => ∃ u, rows = [u] ∧ u.Recording
  | _ => False

/-- A TaskRun that is written in a final state is written alone, as a copy that is held with
another state and end date. -/
def Seen.Finishes (γ : Seen) (rows : List Row) : Prop :=
  ∀ t, .taskRun t ∈ rows → t.state ∈ finalStates → rows = [.taskRun t] ∧
    ∃ copy, γ.held.find? (·.runId = t.runId) = some copy ∧ copy.recorded = t.recorded

/-- The calls of executors. -/
def Records (γ : Seen) : Op → Prop
  | .beginTx c | .commitTx c | .abortTx c => c = some .global
  | .insert c rows => c = none ∧ γ.Finishes rows
  | .mem (.submit job) => job.OfExecutor
  | _ => True

/-- The jobs that are taken are the executors' own. -/
def TakesOwn : (o : Op) → Except Exn o.Ret → Prop
  | .mem .takeJob, .ok (some (_, job)) => job.OfExecutor
  | _, _ => True

def recording : Watch Op Op.Ret Exn Seen where
  see := Seen.see
  outcomes := TakesOwn
  calls := Records

/-! ### Composition -/

section

variable {α : Type} {p : P α}

theorem allowed_unlessEmpty {β : Type} {xs : List β} {body : P Unit} (h : body.Allowed recording) :
    (unlessEmpty xs body).Allowed recording := by
  unfold unlessEmpty
  split_ifs
  · exact .ret ()
  · exact h

theorem allowed_retrier {exceptions : Exn → Bool} {onExhaust : Exn → P α} {n : ℕ}
    (hp : p.Allowed recording) (hx : ∀ e, (onExhaust e).Allowed recording) :
    (retrier exceptions onExhaust p n).Allowed recording := by
  induction n with
  | zero =>
    refine hp.catching fun e => ?_
    split_ifs
    · exact hx e
    · exact .raise e
  | succ n ih =>
    refine hp.catching fun e => ?_
    split_ifs
    · exact ih
    · exact .raise e

theorem allowed_handleExceptions {onExhaust : Exn → P α} (hp : p.Allowed recording) :
    (handleExceptions false onExhaust p).Allowed recording := by
  refine hp.catching fun e => ?_
  split
  · exact .raise _
  · exact .raise _

theorem allowed_loop {iter : P Unit} (h : iter.Allowed recording) (n : ℕ) :
    (Pool.loop iter n).Allowed recording := by
  induction n with
  | zero => exact .ret ()
  | succ n ih => exact h.bind fun _ => ih

theorem allowed_mem {o : MemOp} (h : ∀ job, o ≠ .submit job) : (P.mem o).Allowed recording := by
  refine .op fun γ => ?_
  cases o with
  | submit job => exact absurd rfl (h job)
  | _ => trivial

theorem allowed_submit {job : Job} (h : job.OfExecutor) : (Pool.submit job).Allowed recording :=
  .op fun _ => h

end

/-! ### `set_state` -/

/-- The updates of a batch that finishes no TaskRun, or a single one. -/
def Batch (us : List UpdateRow) : Prop :=
  (∃ u, us = [u] ∧ u.Recording) ∨ ∀ u ∈ us, u.state = some .skipped

/-- The row that a single update finishes keeps what its copy recorded. -/
theorem recorded_of_builtFrom {γ : Seen} {u : UpdateRow} {copy t : TaskRunRow}
    (hu : u.Recording) (h : γ.BuiltFrom u copy t) (hfinal : t.state ∈ finalStates) :
    copy.recorded = t.recorded := by
  obtain ⟨now, rfl⟩ := h.built
  have hstate : ∀ st, u.state = some st → st ∈ finalStates := by
    intro st hst
    rwa [hst, TaskRunRow.state_buildRow] at hfinal
  have hnone : u.operationId = none := by
    refine hu.resolve_right fun hrun => ?_
    exact absurd (hstate _ hrun) (by decide)
  rw [hnone, TaskRunRow.recorded_buildRow]
  intro st hst hunfinished
  have := hstate st hst
  cases st <;> simp [finalStates, TaskRunState.unfinishedStates] at this hunfinished

theorem finishes_of_wrote {us : List UpdateRow} {γ : Seen} {rows : List TaskRunRow} (h : Batch us)
    (hrows : γ.Wrote us rows) : γ.Finishes (rows.map .taskRun) := by
  intro t ht hfinal
  have ht : t ∈ rows := by simpa using ht
  rcases h with ⟨u, rfl, hu⟩ | hskipped
  · obtain ⟨hone, copy, hheld, hbuilt⟩ := hrows.single u rfl t ht
    rw [hone]
    exact ⟨rfl, copy, hbuilt.runId ▸ hheld, recorded_of_builtFrom hu hbuilt hfinal⟩
  · obtain ⟨news, hsub, hnews⟩ := hrows.built
    obtain ⟨u, hu, copy, hbuilt⟩ := Sequences.exists_left hnews ht
    obtain ⟨now, rfl⟩ := hbuilt.built
    rw [hskipped u (hsub.subset hu), TaskRunRow.state_buildRow] at hfinal
    exact absurd hfinal (by decide)

theorem allowed_setState {us : List UpdateRow} (h : Batch us) :
    (TaskRun.setState us).Allowed recording := by
  refine fun γ => (TaskRun.allowed_setState us γ).weaken (I := fun _ => True) trivial
    (fun _ _ _ _ => trivial) rfl (fun _ _ _ => trivial) fun γ o _ ho => ?_
  cases o with
  | beginTx c | commitTx c | abortTx c => exact ho
  | insert c rows =>
    obtain ⟨hc, ts, rfl, hwrote⟩ := ho
    exact ⟨hc, finishes_of_wrote h hwrote⟩
  | mem a => cases a <;> trivial
  | _ => trivial

theorem allowed_clientSetState {us : List UpdateRow} (h : Batch us) :
    (TaskRunClient.setState us).Allowed recording := allowed_handleExceptions (allowed_setState h)

/-! ### The programs of an executor -/

/-- Calls that executors make whatever was seen. -/
theorem allowed_call {o : Op} (h : ∀ γ, Records γ o) : (call o).Allowed recording := .op h

theorem allowed_getDagRun (runId : Uuid) : (DagRunClient.get runId).Allowed recording := by
  refine allowed_handleExceptions (Prog.Allowed.bind ?_ fun runs => ?_)
  · exact .bind (allowed_call fun _ => trivial) fun _ =>
      .bind (allowed_mem fun _ => nofun) fun _ => .ret _
  · split
    · exact .ret _
    · exact .ret _

theorem allowed_setDagRunState (run : Ref) (state : DagRunState) :
    (DagRun.setState run state).Allowed recording := by
  refine .bind (allowed_mem fun _ => nofun) fun base => ?_
  have hnow : utcnow.Allowed recording := .bind (allowed_call fun _ => trivial) fun _ => .ret _
  refine hnow.bind fun now => ?_
  have hupsert : (upsertRows [.dagRun (base.buildRowByState state now)] none).Allowed recording :=
    allowed_call fun γ => ⟨rfl, fun t ht => by simp at ht⟩
  exact hupsert.bind fun _ => allowed_mem fun _ => nofun

theorem allowed_fetchRows (w : TaskRunFilter) : (TaskRun.fetchRows w).Allowed recording :=
  .bind (allowed_call fun _ => trivial) fun _ => .bind (allowed_mem fun _ => nofun) fun _ => .ret _

namespace Executor

theorem allowed_ignoring {α : Type} {p : P α} (hp : p.Allowed recording) :
    (ignoring p).Allowed recording :=
  (hp.bind fun _ => .ret ()).catching fun _ => .ret ()

theorem allowed_getTaskRunManifest (tr : TaskRunRow) : (getTaskRunManifest tr).Allowed recording := by
  refine (allowed_getDagRun tr.dagrunId).bind fun dagrun => ?_
  refine .bind (.attempt (allowed_call fun _ => trivial)) fun r => ?_
  have hfail : (failDagRun dagrun).Allowed recording := by
    cases dagrun with
    | none => exact .ret ()
    | some run =>
      exact allowed_ignoring (allowed_handleExceptions (allowed_setDagRunState run.ref .failed))
  cases r with
  | ok task => exact .ret _
  | error e =>
    cases e with
    | dagInitialization => exact hfail.bind fun _ => .ret _
    | _ => exact .raise _

theorem allowed_isFailed (dagrun : Option DagRunObj) : (isFailed dagrun).Allowed recording := by
  cases dagrun with
  | none => exact .ret _
  | some run => exact .bind (allowed_mem fun _ => nofun) fun _ => .ret _

theorem allowed_startTaskrun (svc : ℕ) (tr : Ref) : (startTaskrun svc tr).Allowed recording := by
  have hset : ∀ {u : UpdateRow}, u.Recording →
      (ignoring (TaskRunClient.setState [u])).Allowed recording := fun hu =>
    allowed_ignoring (allowed_clientSetState (Or.inl ⟨_, rfl, hu⟩))
  refine .bind (allowed_mem fun _ => nofun) fun row => ?_
  refine (allowed_getTaskRunManifest row).bind fun manifest => ?_
  obtain ⟨task, dagrun⟩ := manifest
  refine (allowed_isFailed dagrun).bind fun failed => ?_
  split_ifs
  · exact hset (Or.inl rfl)
  · cases task with
    | none => exact .ret ()
    | some task =>
      cases dagrun with
      | none => exact .ret ()
      | some run =>
        have hrun : (runOperation row.runId run.ref).Allowed recording :=
          .bind (allowed_call fun _ => trivial) fun _ =>
            (allowed_setDagRunState run.ref .running).bind fun _ => .ret _
        refine hrun.attempt.bind fun r => ?_
        cases r with
        | error e => exact hset (Or.inl rfl)
        | ok operation =>
          exact .bind (allowed_mem fun _ => nofun) fun _ => hset (Or.inr rfl)

theorem allowed_startTaskruns (svc : ℕ) : (startTaskruns svc).Allowed recording := by
  refine .bind (allowed_call fun _ => trivial) fun shard => ?_
  refine Prog.Allowed.bind (allowed_submit trivial) fun q => ?_
  exact .bind (allowed_mem fun _ => nofun) fun _ => allowed_mem fun _ => nofun

theorem allowed_onStartTaskruns (svc q : ℕ) : (onStartTaskruns svc q).Allowed recording := by
  refine .bind (allowed_mem fun _ => nofun) fun r => ?_
  cases r with
  | taskRuns trs =>
    refine .forEach fun tr _ => .bind (allowed_call fun _ => trivial) fun recent => ?_
    split_ifs
    · exact .ret ()
    · exact Prog.Allowed.bind (allowed_submit trivial) fun _ => .ret ()
  | _ => exact .raise _

theorem allowed_pollItem (svc frame : ℕ) : (pollItem svc frame).Allowed recording := by
  refine .bind (allowed_mem fun _ => nofun) fun item => ?_
  cases item with
  | none => exact .ret ()
  | some item =>
    refine .bind (.attempt (allowed_call fun _ => trivial)) fun r => ?_
    cases r with
    | error e => exact .ret ()
    | ok status =>
      dsimp only
      split_ifs
      · refine .bind (allowed_mem fun _ => nofun) fun tr => ?_
        have hjob : (Job.setState [finalUpdate item.runId tr status]).OfExecutor :=
          ⟨_, rfl, Or.inl rfl⟩
        refine Prog.Allowed.bind (allowed_submit hjob) fun q => ?_
        exact .bind (allowed_mem fun _ => nofun) fun _ => allowed_mem fun _ => nofun
      · have hjob : (Job.setState [runningUpdate item]).OfExecutor := ⟨_, rfl, Or.inr rfl⟩
        exact Prog.Allowed.bind (allowed_submit hjob) fun _ => .ret ()

theorem allowed_pollPendingOperations (svc : ℕ) :
    (pollPendingOperations svc).Allowed recording :=
  .bind (allowed_mem fun _ => nofun) fun ⟨frame, n⟩ => allowed_loop (allowed_pollItem svc frame) n

theorem allowed_tryAbortRun (cell : ℕ) : (tryAbortRun cell).Allowed recording := by
  refine Prog.Allowed.bind (allowed_retrier ?_ fun _ => .ret ()) fun _ => ?_
  · refine .bind (allowed_mem fun _ => nofun) fun tr => ?_
    exact .bind (allowed_mem fun _ => nofun) fun row => allowed_call fun _ => trivial
  · refine .bind (allowed_mem fun _ => nofun) fun tr => ?_
    exact (allowed_clientSetState (Or.inl ⟨_, rfl, Or.inl rfl⟩)).bind fun _ => .ret ()

theorem allowed_sortOrphan (cell : ℕ) (tr : TaskRunObj) : (sortOrphan cell tr).Allowed recording := by
  refine .bind (allowed_mem fun _ => nofun) fun row => ?_
  split_ifs
  · exact .ret _
  · exact Prog.Allowed.bind (allowed_submit trivial) fun _ => .ret _
  · exact .ret _
  · exact .ret _

theorem allowed_sortOrphans (cell : ℕ) (trs : List TaskRunObj) :
    (sortOrphans cell trs).Allowed recording := by
  induction trs with
  | nil => exact .ret _
  | cons tr trs ih =>
    refine .bind (allowed_mem fun _ => nofun) fun _ => ?_
    exact (allowed_sortOrphan cell tr).bind fun _ => ih.bind fun _ => .ret _

theorem allowed_orphanCleanup : orphanCleanup.Allowed recording := by
  have hfetch : ∀ shard, (TaskRunClient.getOrphanedTaskRuns shard).Allowed recording := fun shard =>
    allowed_handleExceptions (.bind (allowed_call fun _ => trivial) fun _ =>
      .bind (allowed_mem fun _ => nofun) fun _ => .ret _)
  refine .bind (allowed_call fun _ => trivial) fun shard => (hfetch shard).bind fun trs => ?_
  split_ifs
  · exact .ret ()
  · refine .bind (allowed_mem fun _ => nofun) fun cell => ?_
    refine (allowed_sortOrphans cell trs).bind fun skippable => ?_
    refine allowed_unlessEmpty (allowed_ignoring (allowed_clientSetState (Or.inr ?_)))
    rw [List.forall_mem_map]
    exact fun _ _ => rfl

theorem allowed_runCallback (svc : ℕ) (cb : Callback) : (runCallback svc cb).Allowed recording := by
  cases cb with
  | startTaskruns q => exact allowed_onStartTaskruns svc q
  | finalize frame => exact allowed_mem fun _ => nofun
  | _ => exact .raise _

end Executor

theorem allowed_drainCallbacks {run : Callback → P Unit} (h : ∀ cb, (run cb).Allowed recording)
    (svc n : ℕ) : (Pool.drainCallbacks svc run n).Allowed recording := by
  induction n with
  | zero => exact .ret ()
  | succ n ih =>
    refine .bind (allowed_mem fun _ => nofun) fun cb => ?_
    cases cb with
    | none => exact .ret ()
    | some cb => exact ((h cb).catching fun _ => .ret ()).bind fun _ => ih

namespace Executor

theorem allowed_loopIter (svc : ℕ) : (loopIter svc).Allowed recording := by
  refine (allowed_startTaskruns svc).bind fun _ => ?_
  refine (allowed_pollPendingOperations svc).bind fun _ => ?_
  refine Prog.Allowed.bind (allowed_submit trivial) fun _ => ?_
  exact allowed_drainCallbacks (allowed_runCallback svc) svc 50

theorem allowed_execute (n : ℕ) : (execute n).Allowed recording := by
  refine .bind (allowed_mem fun _ => nofun) fun svc => ?_
  refine Prog.Allowed.bind ?_ fun _ => allowed_loop (allowed_loopIter svc) n
  refine (allowed_handleExceptions (allowed_fetchRows _)).bind fun trs => ?_
  exact .forEach fun _ _ => allowed_mem fun _ => nofun

end Executor

/-! ### The programs of a worker -/

theorem Job.OfExecutor.allowed {job : Job} (h : job.OfExecutor) : job.run.Allowed recording := by
  cases job with
  | getExecutableTaskRunsToQueue shard =>
    exact (allowed_handleExceptions (allowed_fetchRows _)).bind fun _ => .ret _
  | startTaskrun svc tr => exact (Executor.allowed_startTaskrun svc tr).bind fun _ => .ret _
  | setState rows => exact (allowed_clientSetState (Or.inl h)).bind fun _ => .ret _
  | orphanCleanup => exact Executor.allowed_orphanCleanup.bind fun _ => .ret _
  | tryAbortRun cell => exact (Executor.allowed_tryAbortRun cell).bind fun _ => .ret _
  | _ => exact h.elim

/-- A worker runs what the executors submitted. -/
theorem allowed_workerIter : (Pool.workerIter Job.run).Allowed recording := by
  refine .bind_brings (A := fun r _ => ∀ q job, r = some (q, job) → job.OfExecutor)
    (fun γ => .op trivial fun r hr q job he => by subst he; exact hr) fun r γ hr => ?_
  cases r with
  | none => exact trivial
  | some r =>
    obtain ⟨q, job⟩ := r
    refine (hr q job rfl).allowed.attempt.bind (fun result => ?_) γ
    exact .bind (allowed_mem fun _ => nofun) fun _ => allowed_mem fun _ => nofun

/-- The threads of an executor: its own, and the workers of the pool. -/
def Entry.OfExecutor : Entry → Prop
  | .executor _ | .worker _ => True
  | _ => False

instance : DecidablePred Entry.OfExecutor
  | .executor _ | .worker _ => .isTrue trivial
  | .scheduler _ _ | .queueRun _ _ | .createDagRuns _ | .setState _ | .upsert _ => .isFalse id

theorem Entry.OfExecutor.allowed {e : Entry} (h : e.OfExecutor) : e.prog.Allowed recording := by
  cases e with
  | executor n => exact (Executor.allowed_execute n).bind fun _ => .ret _
  | worker n => exact (allowed_loop allowed_workerIter n).bind fun _ => .ret _
  | _ => exact h.elim

end YtScheduler
