import YtScheduler.Services.Seen

/-! What any watch allows of the threads that queue, examine and execute DagRuns, if it allows
plain calls. Three kinds of calls are not plain: those that write TaskRuns, those that start
operations, and those that hand TaskRuns to be started from one thread to another. -/

namespace YtScheduler

open P Threads

variable {Γ : Type}

/-- The calls that write no TaskRun, start nothing, and hand over nothing to be started. -/
def Op.Plain : Op → Prop
  | .insert _ rows => ∀ t, Row.taskRun t ∉ rows
  | .runOperation _ => False
  | .mem (.submit (.startTaskrun _ _)) => False
  | .mem (.setResult _ _) => False
  | .mem (.setCallback _ _ (.startTaskruns _)) => False
  | _ => True

/-- No job and no callback of claiming is in the memory. -/
def Op.Expects : (o : Op) → Except Exn o.Ret → Prop
  | .mem .takeJob, .ok (some (_, .tryClaimDagruns _)) => False
  | .mem .takeJob, .ok (some (_, .trySetMetasInvalid _)) => False
  | .mem (.takeCallback _), .ok (some (.setInvalid _ _)) => False
  | _, _ => True

/-- A watch that allows plain calls, the writes of `set_state`, and those of `queue_run_atomic` for
a DAG that was loaded. -/
structure Lenient (W : Watch Op Op.Ret Exn Γ) (Loaded : Dag → Prop) : Prop where
  plain : ∀ γ o, o.Plain → W.calls γ o
  expects : ∀ o r, W.outcomes o r → o.Expects r
  loaded : ∀ dagId dag, W.outcomes (.deserializeDag dagId) (.ok dag) → Loaded dag
  setState : ∀ us, (TaskRun.setState us).Allowed W
  queueRunAtomic : ∀ self dag, Loaded dag → (DagRun.queueRunAtomic self dag).Allowed W

namespace Lenient

variable {W : Watch Op Op.Ret Exn Γ} {Loaded : Dag → Prop} (h : Lenient W Loaded)
  {α : Type} {p : P α}
include h

theorem call {o : Op} (ho : o.Plain) : (P.call o).Allowed W := .op fun γ => h.plain γ o ho

theorem mem {o : MemOp} (ho : (Op.mem o).Plain) : (P.mem o).Allowed W := h.call ho

theorem nowUtc : P.nowUtc.Allowed W := (h.call (o := .now) trivial).bind fun _ => .ret _

theorem utcnow : P.utcnow.Allowed W := (h.call (o := .now) trivial).bind fun _ => .ret _

theorem submit {fn : Job} (hfn : ∀ svc tr, fn ≠ .startTaskrun svc tr) :
    (Pool.submit fn).Allowed W := by
  refine h.mem ?_
  cases fn with
  | startTaskrun svc tr => exact absurd rfl (hfn svc tr)
  | _ => trivial

theorem onComplete (q svc : ℕ) {cb : Callback} (hcb : ∀ q', cb ≠ .startTaskruns q') :
    (Pool.onComplete q svc cb).Allowed W := by
  refine (h.mem ?_).bind fun _ => h.mem trivial
  cases cb with
  | startTaskruns q' => exact absurd rfl (hcb q')
  | _ => trivial

theorem transaction (c : Option Client) (hp : p.Allowed W) : (P.transaction c p).Allowed W :=
  TaskRun.allowed_transaction (fun γ => h.plain γ _ trivial) (fun γ => h.plain γ _ trivial)
    (fun γ => h.plain γ _ trivial) hp

omit h in
theorem retrier {exceptions : Exn → Bool} {onExhaust : Exn → P α} {n : ℕ} (hp : p.Allowed W)
    (hx : ∀ e, (onExhaust e).Allowed W) : (P.retrier exceptions onExhaust p n).Allowed W := by
  induction n with
  | zero =>
    refine hp.catching fun e => ?_
    split_ifs
    · exact hx e
    · exact .raise e
  | succ n ih =>
    refine hp.catching fun e => ?_
    split_ifs
    · exact ih
    · exact .raise e

omit h in
theorem handleExceptions {hasLog : Bool} {onExhaust : Exn → P α} (hp : p.Allowed W)
    (hx : ∀ e, (onExhaust e).Allowed W) : (P.handleExceptions hasLog onExhaust p).Allowed W := by
  refine hp.catching fun e => ?_
  split_ifs
  · exact retrier hp hx
  · exact .raise _
  · exact .raise _

omit h in
theorem unlessEmpty {β : Type} {xs : List β} {body : P Unit} (hb : body.Allowed W) :
    (P.unlessEmpty xs body).Allowed W := by
  unfold P.unlessEmpty
  split_ifs
  · exact .ret ()
  · exact hb

omit h in
theorem loop {iter : P Unit} (hp : iter.Allowed W) (n : ℕ) : (Pool.loop iter n).Allowed W := by
  induction n with
  | zero => exact .ret ()
  | succ n ih => exact hp.bind fun _ => ih

omit h in
theorem ignoring (hp : p.Allowed W) : (Executor.ignoring p).Allowed W :=
  (hp.bind fun _ => .ret ()).catching fun _ => .ret ()

/-- The callbacks of claiming are not taken. -/
theorem drainCallbacks {run : Callback → P Unit} (svc : ℕ)
    (hrun : ∀ cb, (∀ q c, cb ≠ .setInvalid q c) → (run cb).Allowed W) (n : ℕ) :
    (Pool.drainCallbacks svc run n).Allowed W := by
  induction n with
  | zero => exact .ret ()
  | succ n ih =>
    refine .bind_brings (A := fun r _ => ∀ q c, r ≠ some (.setInvalid q c)) (fun γ => .op ?_ ?_) ?_
    · exact h.plain γ _ trivial
    · rintro r hr q c rfl
      exact h.expects _ _ hr
    · intro r γ hr
      cases r with
      | none => trivial
      | some cb =>
        have hcb : ∀ q c, cb ≠ .setInvalid q c := fun q c he => hr q c (congrArg some he)
        exact (((hrun cb hcb).catching fun _ => .ret ()).bind fun _ => ih) γ

/-! ### TaskRuns and DagRuns -/

theorem fetchTaskRuns (w : TaskRunFilter) : (TaskRun.fetchRows w).Allowed W :=
  (h.call (o := .select none (.taskRuns w)) trivial).bind fun rows =>
    (h.mem (o := .newTaskRuns rows) trivial).bind fun _ => .ret _

theorem clientSetState (us : List UpdateRow) : (TaskRunClient.setState us).Allowed W :=
  handleExceptions (h.setState us) fun _ => .raise _

theorem fetchDagRuns (w : DagRunFilter) : (DagRun.fetchRows w).Allowed W :=
  (h.call (o := .select none (.dagRuns w)) trivial).bind fun rows =>
    (h.mem (o := .newDagRuns rows) trivial).bind fun _ => .ret _

theorem getDagRun (runId : Uuid) : (DagRunClient.get runId).Allowed W := by
  refine handleExceptions ((h.fetchDagRuns _).bind fun runs => ?_) fun _ => .ret _
  split
  · exact .ret _
  · exact .ret _

theorem getDagRuns (state : DagRunState) (shard : ShardingOptions) :
    (DagRunClient.getDagRuns state shard).Allowed W :=
  handleExceptions (h.fetchDagRuns _) fun _ => .ret _

theorem setDagRunState (self : Ref) (state : DagRunState) : (DagRun.setState self state).Allowed W := by
  refine (h.mem (o := .readDagRun self) trivial).bind fun base => h.utcnow.bind fun now => ?_
  refine Prog.Allowed.bind (h.call ?_) fun _ => h.mem trivial
  intro t ht
  simp at ht

theorem updateState (self : Ref) (dag : Dag) : (DagRun.updateState self dag).Allowed W := by
  refine h.transaction none (Prog.Allowed.bind ?_ fun trs => ?_)
  · exact (h.mem (o := .readDagRun self) trivial).bind fun _ => h.fetchTaskRuns _
  · refine (unlessEmpty ((h.setState _).bind fun _ => .ret ())).bind fun _ => ?_
    exact (h.setDagRunState self _).bind fun _ => .ret _

theorem scheduleTrs (runId : Uuid) (tids : List Uuid) : (DagRun.scheduleTrs runId tids).Allowed W := by
  unfold DagRun.scheduleTrs
  split_ifs
  · exact .ret 0
  · refine h.transaction none ((h.fetchTaskRuns _).bind fun rows => ?_)
    split_ifs
    · exact .ret 0
    · exact (h.setState _).bind fun _ => .ret _

theorem clientQueueRunAtomic (self : Ref) {dag : Dag} (hdag : Loaded dag) :
    (DagRunClient.queueRunAtomic self dag).Allowed W :=
  handleExceptions (h.queueRunAtomic self dag hdag) fun _ => .raise _

/-! ### The scheduler -/

theorem getDagRef (dagId : Uuid) : (Scheduler.getDagRef dagId).Allowed W :=
  handleExceptions ((h.call (o := .select none (.dagRefs dagId)) trivial).bind fun _ => .ret _)
    fun _ => .ret _

/-- The DAG that was loaded, if any. -/
theorem getDag (ref : Option DagRefRow) (γ : Γ) :
    (Scheduler.getDag ref).Brings W (fun dag _ => ∀ d, dag = some d → Loaded d) γ := by
  cases ref with
  | none => exact .ret fun _ he => by cases he
  | some ref =>
    have hload : (do
        let dag ← P.call (.deserializeDag ref.dagId)
        pure (some dag) : P (Option Dag)).Brings W (fun dag _ => ∀ d, dag = some d → Loaded d) γ := by
      refine .bind (.op (A := fun dag _ => Loaded dag) (h.plain γ _ trivial) fun dag hdag => ?_)
        fun dag _ hdag => .ret ?_
      · exact h.loaded _ dag hdag
      · rintro _ ⟨⟩
        exact hdag
    refine Prog.Watched.bind (Prog.Watched.attempt (Prog.Watched.mono hload fun r γ' hr => ?_))
    cases r with
    | ok dag => exact Prog.Brings.ret (hr dag rfl)
    | error e =>
      dsimp only
      split_ifs
      · exact Prog.Brings.ret fun _ he => by cases he
      · exact fun _ he => by cases he

/-- What is done with a DAG that was loaded. -/
theorem withDag {f : Option Dag → P α} (ref : Option DagRefRow)
    (hf : ∀ dag, (∀ d, dag = some d → Loaded d) → (f dag).Allowed W) :
    ((Scheduler.getDag ref).bind f).Allowed W :=
  .bind_brings (h.getDag ref) fun dag γ hdag => hf dag hdag γ

theorem onQueueDagruns (q : ℕ) : (Scheduler.onQueueDagruns q).Allowed W := by
  refine (h.mem (o := .result q) trivial).bind fun r => ?_
  split
  · refine .forEach fun run _ => (h.mem (o := .readDagRun run) trivial).bind fun row =>
      (h.getDagRef row.dagId).bind fun ref => h.withDag ref fun dag _ => ?_
    cases dag with
    | none => exact .raise _
    | some dag => exact (h.submit (by simp)).bind fun _ => .ret ()
  · exact .raise _

theorem scheduleDagRun (run : Ref) : (Scheduler.scheduleDagRun run).Allowed W := by
  refine (h.mem (o := .readDagRun run) trivial).bind fun row =>
    (h.getDagRef row.dagId).bind fun ref => h.withDag ref fun dag _ => ?_
  cases dag with
  | none => exact .raise _
  | some dag =>
    refine (handleExceptions (h.updateState run dag) fun _ => .ret []).bind fun tids => ?_
    split_ifs
    · exact .ret ()
    · exact (handleExceptions (h.scheduleTrs row.runId tids) fun _ => .ret 0).bind fun _ => .ret ()

theorem onScheduleDagRuns (q : ℕ) : (Scheduler.onScheduleDagRuns q).Allowed W := by
  refine (h.mem (o := .result q) trivial).bind fun r => ?_
  split
  · exact .forEach fun run _ => h.scheduleDagRun run
  · exact .raise _

theorem schedulerCallback (svc : ℕ) {cb : Callback} (hcb : ∀ q c, cb ≠ .setInvalid q c) :
    (Scheduler.runCallback svc cb).Allowed W := by
  cases cb with
  | claimed q =>
    refine (h.mem (o := .result q) trivial).attempt.bind fun r => ?_
    split
    · exact h.mem trivial
    · exact h.mem trivial
  | setInvalid q c => exact absurd rfl (hcb q c)
  | queueDagruns q => exact h.onQueueDagruns q
  | scheduleDagRuns q => exact h.onScheduleDagRuns q
  | _ => exact .raise _

theorem pass (svc : ℕ) (pass : Scheduler.Pass) : (pass.run svc).Allowed W := by
  have hfetch : ∀ {job : Job} {cb : ℕ → Callback}, (∀ svc tr, job ≠ .startTaskrun svc tr) →
      (∀ q q', cb q ≠ .startTaskruns q') →
      ((Pool.submit job).bind fun q => Pool.onComplete q svc (cb q)).Allowed W :=
    fun hjob hcb => (h.submit hjob).bind fun q => h.onComplete q svc (hcb q)
  cases pass with
  | createDagrunsForDags => exact hfetch (by simp) (by simp)
  | _ => exact (h.call (o := .shardOptions) trivial).bind fun shard => hfetch (by simp) (by simp)

theorem scheduler (passes : List Scheduler.Pass) (n : ℕ) : (Scheduler.execute passes n).Allowed W := by
  refine (h.mem (o := .newService) trivial).bind fun svc => loop ?_ n
  refine (Prog.Allowed.forEach fun pass _ => h.pass svc pass).bind fun _ => ?_
  refine (h.drainCallbacks svc (fun cb hcb => h.schedulerCallback svc hcb) 50).bind fun _ => ?_
  exact (h.mem (o := .takeCreated svc) trivial).bind fun _ => .ret ()

theorem queueRun (runId : Uuid) (n : ℕ) : (YtScheduler.queueRun runId n).Allowed W := by
  refine (h.getDagRun runId).bind fun run => ?_
  cases run with
  | none => exact .ret ()
  | some run =>
    refine (h.getDagRef run.row.dagId).bind fun ref => h.withDag ref fun dag hdag => ?_
    cases dag with
    | none => exact .ret ()
    | some dag => exact loop (ignoring (h.clientQueueRunAtomic run.ref (hdag dag rfl))) n

/-! ### The executor -/

theorem getTaskRunManifest (row : TaskRunRow) : (Executor.getTaskRunManifest row).Allowed W := by
  refine (h.getDagRun row.dagrunId).bind fun dagrun => ?_
  refine (h.call (o := .loadTask row.dagId row.taskId) trivial).attempt.bind fun r => ?_
  have hfail : (Executor.failDagRun dagrun).Allowed W := by
    cases dagrun with
    | none => exact .ret ()
    | some run => exact ignoring (handleExceptions (h.setDagRunState run.ref .failed) fun _ => .raise _)
  cases r with
  | ok task => exact .ret _
  | error e =>
    cases e with
    | dagInitialization => exact hfail.bind fun _ => .ret _
    | _ => exact .raise _

theorem isFailed (dagrun : Option DagRunObj) : (Executor.isFailed dagrun).Allowed W := by
  cases dagrun with
  | none => exact .ret false
  | some run => exact (h.mem (o := .readDagRun run.ref) trivial).bind fun _ => .ret _

theorem pollPendingOperations (svc : ℕ) : (Executor.pollPendingOperations svc).Allowed W := by
  refine (h.mem (o := .openFrame svc) trivial).bind fun frame => loop ?_ frame.2
  refine (h.mem (o := .nextItem frame.1) trivial).bind fun item => ?_
  cases item with
  | none => exact .ret ()
  | some item =>
    refine (h.call (o := .getOperationState item.value) trivial).attempt.bind fun r => ?_
    cases r with
    | error e => exact .ret ()
    | ok status =>
      dsimp only
      split_ifs
      · refine (h.mem (o := .pendingTaskRun svc item.runId) trivial).bind fun tr => ?_
        exact (h.submit (by simp)).bind fun q => h.onComplete q svc (by simp)
      · exact (h.submit (by simp)).bind fun _ => .ret ()

theorem tryAbortRun (cell : ℕ) : (Executor.tryAbortRun cell).Allowed W := by
  refine Prog.Allowed.bind (retrier ?_ fun _ => .ret ()) fun _ => ?_
  · exact (h.mem (o := .getCell cell) trivial).bind fun tr =>
      (h.mem (o := .readTaskRun tr) trivial).bind fun row => h.call trivial
  · exact (h.mem (o := .getCell cell) trivial).bind fun tr => (h.clientSetState _).bind fun _ => .ret ()

theorem sortOrphans (cell : ℕ) (trs : List TaskRunObj) : (Executor.sortOrphans cell trs).Allowed W := by
  have hsort : ∀ tr : TaskRunObj, (Executor.sortOrphan cell tr).Allowed W := by
    intro tr
    refine (h.mem (o := .readTaskRun tr.ref) trivial).bind fun row => ?_
    split_ifs
    · exact .ret _
    · exact (h.submit (by simp)).bind fun _ => .ret _
    · exact .ret _
    · exact .ret _
  induction trs with
  | nil => exact .ret _
  | cons tr trs ih =>
    exact (h.mem (o := .setCell cell tr.ref) trivial).bind fun _ => (hsort tr).bind fun _ =>
      ih.bind fun _ => .ret _

theorem orphanCleanup : Executor.orphanCleanup.Allowed W := by
  refine (h.call (o := .shardOptions) trivial).bind fun shard => Prog.Allowed.bind ?_ fun trs => ?_
  · refine handleExceptions ?_ fun _ => .ret []
    exact (h.call (o := .select none (.orphanedTaskRuns shard)) trivial).bind fun rows =>
      (h.mem (o := .newTaskRuns rows) trivial).bind fun _ => .ret _
  · split_ifs
    · exact .ret ()
    · refine (h.mem (o := .newCell) trivial).bind fun cell => (h.sortOrphans cell trs).bind fun skippable => ?_
      exact unlessEmpty (ignoring (h.clientSetState _))

theorem updatePendingTasks (svc : ℕ) : (Executor.updatePendingTasks svc).Allowed W :=
  (handleExceptions (h.fetchTaskRuns _) fun _ => .ret []).bind fun _ =>
    .forEach fun _ _ => h.mem trivial

end Lenient

end YtScheduler
