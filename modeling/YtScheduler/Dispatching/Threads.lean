import YtScheduler.Consistency.Services
import YtScheduler.Dispatching.Learnt

/-! The threads that dispatch TaskRuns do what the watch allows: the executor submits what the
fetching jobs handed it, and a worker starts what it was handed. -/

namespace YtScheduler.Dispatching

open P Threads

variable {dags : List Dag} {γ : Learnt} {α : Type} {p : P α}

/-! ### What stays learnt -/

theorem queued_see {runId : Uuid} (γ : Learnt) (o : Op) (r : Except Exn o.Ret) (h : runId ∈ γ.queued) :
    runId ∈ (γ.see o r).queued := (γ.since_see o r).queued h

theorem handed_see {trs : List Ref} (γ : Learnt) (o : Op) (r : Except Exn o.Ret) (h : trs ⊆ γ.handed) :
    trs ⊆ (γ.see o r).handed := List.Subset.trans h (γ.since_see o r).handed

theorem taken_see {x : ℕ × Job} (γ : Learnt) (o : Op) (r : Except Exn o.Ret) (h : x ∈ γ.taken) :
    x ∈ (γ.see o r).taken := (γ.since_see o r).taken h

/-! ### The executor -/

/-- An operation is started for the object that was handed over. -/
theorem watched_startTaskrun (svc : ℕ) {tr : Ref} (htr : tr ∈ γ.handed) :
    (Executor.startTaskrun svc tr).Watched (dispatching dags) (fun _ _ => True) γ := by
  have hread : (mem (.readTaskRun tr)).Brings (dispatching dags)
      (fun row γ' => row.runId ∈ γ'.queued) γ := by
    refine .op trivial fun row _ => ?_
    show row.runId ∈ (if tr ∈ γ.handed then row.runId :: γ.queued else γ.queued)
    rw [if_pos htr]
    exact List.mem_cons_self
  have hset : ∀ u, (Executor.ignoring (TaskRunClient.setState [u])).Allowed (dispatching dags) :=
    fun u => Lenient.ignoring ((lenient dags).clientSetState [u])
  refine Prog.Watched.bind (Prog.Watched.mono hread fun r γ₁ hr => ?_)
  cases r with
  | error e => trivial
  | ok row =>
    refine Prog.Allowed.bind_keeps ((lenient dags).getTaskRunManifest row γ₁) (hr row rfl) queued_see
      fun manifest γ₂ h₂ => ?_
    obtain ⟨task, dagrun⟩ := manifest
    refine Prog.Allowed.bind_keeps ((lenient dags).isFailed dagrun γ₂) h₂ queued_see
      fun failed γ₃ h₃ => ?_
    split_ifs
    · exact hset _ γ₃
    · cases task with
      | none => exact trivial
      | some task =>
        cases dagrun with
        | none => exact trivial
        | some run =>
          have hrun : (Executor.runOperation row.runId run.ref).Watched (dispatching dags)
              (fun _ _ => True) γ₃ := by
            refine Prog.Allowed.bind_watched (Prog.Watched.op h₃ fun _ _ => trivial) fun operation => ?_
            exact ((lenient dags).setDagRunState run.ref .running).bind fun _ => .ret operation
          refine Prog.Allowed.bind_watched (Prog.Watched.attempt hrun) fun r => ?_
          cases r with
          | error e => exact hset _
          | ok operation => exact (allowed_call (o := .mem (.addPending svc row.runId _ tr)) trivial).bind fun _ => hset _

/-- The callback is set for the entry that was submitted to fetch TaskRuns. -/
theorem allowed_startTaskruns (svc : ℕ) : (Executor.startTaskruns svc).Allowed (dispatching dags) := by
  refine (allowed_call (o := .shardOptions) trivial).bind fun shard => ?_
  have hsubmit : ∀ γ, (Pool.submit (.getExecutableTaskRunsToQueue shard)).Brings (dispatching dags)
      (fun q γ' => q ∈ γ'.entries) γ := fun γ => .op trivial fun q _ => List.mem_cons_self
  refine .bind_brings hsubmit fun q γ hq => ?_
  exact Prog.Allowed.bind_watched (Prog.Watched.op hq fun _ _ => trivial) fun _ => allowed_call trivial

/-- What a fetching job returned is submitted to be started. -/
theorem watched_onStartTaskruns (svc : ℕ) {q : ℕ} (hq : q ∈ γ.entries) :
    (Executor.onStartTaskruns svc q).Watched (dispatching dags) (fun _ _ => True) γ := by
  have hresult : (mem (.result q)).Brings (dispatching dags)
      (fun r γ' => ∀ trs, r = .taskRuns trs → trs ⊆ γ'.handed) γ := by
    refine .op trivial ?_
    rintro r _ trs rfl
    show trs ⊆ (if q ∈ γ.entries then trs ++ γ.handed else γ.handed)
    rw [if_pos hq]
    exact List.subset_append_left ..
  refine Prog.Watched.bind (Prog.Watched.mono hresult fun r γ₁ hr => ?_)
  cases r with
  | error e => trivial
  | ok r =>
    cases r with
    | taskRuns trs =>
      refine Prog.Allowed.forEach_keeps (I := fun γ => trs ⊆ γ.handed) (hr _ rfl trs rfl) handed_see
        fun tr htr γ₂ h₂ => ?_
      refine Prog.Allowed.bind_keeps (allowed_call (o := .attemptTooRecent) trivial γ₂) h₂ handed_see
        fun recent γ₃ h₃ => ?_
      split_ifs
      · trivial
      · exact Prog.Allowed.bind_watched (Prog.Watched.op (h₃ htr) fun _ _ => trivial) fun _ => .ret ()
    | _ => trivial

theorem watched_runCallback (svc : ℕ) {cb : Callback} (hcb : ∀ q, cb = .startTaskruns q → q ∈ γ.entries) :
    (Executor.runCallback svc cb).Watched (dispatching dags) (fun _ _ => True) γ := by
  cases cb with
  | startTaskruns q => exact watched_onStartTaskruns svc (hcb q rfl)
  | finalize frame => exact allowed_call (o := .mem (.finalize frame)) trivial γ
  | _ => trivial

/-- A callback that was queued to start TaskRuns reads a fetching entry. -/
theorem allowed_drainCallbacks (svc n : ℕ) :
    (Pool.drainCallbacks svc (Executor.runCallback svc) n).Allowed (dispatching dags) := by
  induction n with
  | zero => exact .ret ()
  | succ n ih =>
    refine .bind_brings (A := fun r γ' => ∀ q, r = some (.startTaskruns q) → q ∈ γ'.entries)
      (fun γ => .op trivial ?_) fun r γ hr => ?_
    · rintro r _ q rfl
      exact List.mem_cons_self
    · cases r with
      | none => trivial
      | some cb =>
        have hcb : (Executor.runCallback svc cb).Watched (dispatching dags) (fun _ _ => True) γ :=
          watched_runCallback svc fun q hq => hr q (congrArg some hq)
        refine Prog.Allowed.bind_watched ?_ fun _ => ih
        refine Prog.Allowed.bind_watched (Prog.Watched.attempt hcb) fun r => ?_
        cases r with
        | ok a => exact .ret ()
        | error e => exact .ret ()

theorem allowed_execute (n : ℕ) : (Executor.execute n).Allowed (dispatching dags) := by
  refine (allowed_call (o := .mem .newService) trivial).bind fun svc => ?_
  refine ((lenient dags).updatePendingTasks svc).bind fun _ => Lenient.loop ?_ n
  refine (allowed_startTaskruns svc).bind fun _ => ?_
  refine ((lenient dags).pollPendingOperations svc).bind fun _ => ?_
  exact ((lenient dags).submit (by simp)).bind fun _ => allowed_drainCallbacks svc 50

/-! ### The worker -/

theorem row_mem_of_zipWith {refs : List Ref} {rows : List TaskRunRow} {tr : TaskRunObj}
    (h : tr ∈ List.zipWith TaskRunObj.mk refs rows) : tr.row ∈ rows := by
  obtain ⟨k, hk, rfl⟩ := List.getElem_of_mem h
  rw [List.getElem_zipWith]
  exact List.getElem_mem _

/-- The objects of TaskRuns fetched QUEUED stand for such. -/
theorem brings_fetchRows {w : TaskRunFilter} (hnone : w.taskId = none) (hw : w.state = some (.eq .queued)) :
    (TaskRun.fetchRows w).Brings (dispatching dags)
      (fun trs γ' => trs.map TaskRunObj.ref ⊆ γ'.handed) γ := by
  refine .bind (A := fun rows γ' => ∀ row ∈ rows, row.runId ∈ γ'.queued) (.op trivial fun rows hrows => ?_)
    fun rows γ₁ h₁ => ?_
  · intro row hrow
    have hst := hrows.2 hnone row hrow
    rw [hw, FilterValue.acceptsOpt_eq] at hst
    refine List.mem_append_left _ (List.mem_map_of_mem (List.mem_filter.mpr ⟨hrow, ?_⟩))
    simpa using hst
  · refine .bind (A := fun refs γ' =>
      (List.zipWith TaskRunObj.mk refs rows).map TaskRunObj.ref ⊆ γ'.handed)
      (.op trivial fun refs _ => ?_) fun refs γ₂ h₂ => .ret h₂
    show (List.zipWith TaskRunObj.mk refs rows).map TaskRunObj.ref ⊆
      (((List.zipWith TaskRunObj.mk refs rows).filter (·.row.runId ∈ γ₁.queued)).map TaskRunObj.ref) ++
        γ₁.handed
    rw [List.filter_eq_self.mpr fun tr htr => by simpa using h₁ tr.row (row_mem_of_zipWith htr)]
    exact List.subset_append_left ..

/-- A call that is not retried. -/
theorem brings_handleExceptions {A : α → Learnt → Prop} {onExhaust : Exn → P α}
    (hp : p.Brings (dispatching dags) A γ) :
    (handleExceptions false onExhaust p).Brings (dispatching dags) A γ := by
  refine Prog.Watched.bind (Prog.Watched.attempt (Prog.Watched.mono hp fun r γ' hr => ?_))
  cases r with
  | ok a => exact Prog.Brings.ret (hr a rfl)
  | error e =>
    simp only [Bool.false_eq_true, if_false]
    split_ifs
    · exact fun _ he => by cases he
    · exact fun _ he => by cases he

/-- What is asked of the result of a job. -/
abbrev Returns (fn : Job) (r : Except Exn JobResult) (γ : Learnt) : Prop :=
  fn.FetchesQueued → ∀ trs, r = .ok (.taskRuns trs) → trs ⊆ γ.handed

/-- The result of the job is set, after calls that keep what was learnt of the job. -/
theorem watched_execute {q : ℕ} {fn : Job} (hfn : (q, fn) ∈ γ.taken) {p : P JobResult}
    (hp : p.Watched (dispatching dags) (Returns fn) γ) :
    (Pool.execute q p).Watched (dispatching dags) (fun _ _ => True) γ := by
  refine Prog.Watched.bind (Prog.Watched.attempt (Prog.Watched.mono (hp.keeps hfn taken_see) ?_))
  intro r γ' hr
  exact Prog.Allowed.bind_watched (Prog.Watched.op ⟨fn, hr.2, hr.1⟩ fun _ _ => trivial)
    fun _ => allowed_call trivial

theorem watched_run {q : ℕ} {fn : Job} (hstarts : fn.starts ⊆ γ.handed)
    (hexpects : (Op.mem .takeJob).Expects (.ok (some (q, fn))))
    (hlearn : (Op.mem .takeJob).Learnable dags (.ok (some (q, fn)))) :
    fn.run.Watched (dispatching dags) (Returns fn) γ := by
  have hl := lenient dags
  -- a job that fetches nothing to start may return anything
  have hother : ¬fn.FetchesQueued → fn.run.Watched (dispatching dags) (fun _ _ => True) γ →
      fn.run.Watched (dispatching dags) (Returns fn) γ :=
    fun hno hp => Prog.Watched.mono hp fun _ _ _ hyes => absurd hyes hno
  cases fn with
  | getExecutableTaskRunsToQueue shard =>
    have hfetch : (TaskRunClient.getExecutableTaskRunsToQueue shard).Brings (dispatching dags)
        (fun trs γ' => trs.map TaskRunObj.ref ⊆ γ'.handed) γ :=
      brings_handleExceptions (brings_fetchRows rfl rfl)
    refine Prog.Watched.bind (Prog.Watched.mono hfetch fun r γ' hr => ?_)
    cases r with
    | error e => exact fun _ _ he => by cases he
    | ok trs =>
      rintro _ _ ⟨⟩
      exact hr trs rfl
  | startTaskrun svc tr =>
    refine hother id ?_
    exact Prog.Allowed.bind_watched (watched_startTaskrun svc (hstarts List.mem_cons_self)) fun _ => .ret _
  | setState rows => exact hother id ((hl.clientSetState rows).bind (fun _ => .ret _) γ)
  | orphanCleanup => exact hother id (hl.orphanCleanup.bind (fun _ => .ret _) γ)
  | tryAbortRun cell => exact hother id ((hl.tryAbortRun cell).bind (fun _ => .ret _) γ)
  | getDagRuns state shard => exact hother id ((hl.getDagRuns state shard).bind (fun _ => .ret _) γ)
  | queueRunAtomic run dag => exact hother id ((hl.clientQueueRunAtomic run hlearn).bind (fun _ => .ret _) γ)
  | tryClaimDagruns svc => exact hexpects.elim
  | trySetMetasInvalid rows => exact hexpects.elim

theorem allowed_workerIter : (Pool.workerIter Job.run).Allowed (dispatching dags) := by
  refine .bind_brings (A := fun r γ' => ∀ q fn, r = some (q, fn) → (q, fn) ∈ γ'.taken ∧
    fn.starts ⊆ γ'.handed ∧ (Op.mem .takeJob).Expects (.ok r) ∧ (Op.mem .takeJob).Learnable dags (.ok r))
    (fun γ => .op trivial ?_) fun r γ hr => ?_
  · rintro r hout q fn rfl
    exact ⟨List.mem_cons_self, List.subset_append_left .., hout⟩
  · cases r with
    | none => trivial
    | some x =>
      obtain ⟨q, fn⟩ := x
      obtain ⟨htaken, hstarts, hexpects, hlearn⟩ := hr q fn rfl
      exact watched_execute htaken (watched_run hstarts hexpects hlearn)

/-- The threads of scheduling runs. -/
theorem allowed_prog {e : Entry} (he : e.Schedules) : e.prog.Allowed (dispatching dags) := by
  cases e with
  | scheduler passes n => exact ((lenient dags).scheduler passes n).bind fun _ => .ret _
  | executor n => exact (allowed_execute n).bind fun _ => .ret _
  | worker n => exact (Lenient.loop allowed_workerIter n).bind fun _ => .ret _
  | queueRun runId n => exact ((lenient dags).queueRun runId n).bind fun _ => .ret _
  | _ => exact he.elim

end YtScheduler.Dispatching
