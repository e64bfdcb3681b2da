import YtScheduler.Consistency.DagRuns

/-! Every thread of the scheduling system meets the contract: executors, pool workers,
schedulers that do not claim, and direct calls of `queue_run_atomic`. -/

namespace YtScheduler

open Tablet Threads

variable {α : Type} {i : ℕ} {m : Option ℕ} {w : List Row} {l : Loc} {s s' : Shared}

/-- Nothing is said of a result. -/
abbrev Ended (i : ℕ) (m : Option ℕ) : Post Exn α Loc Shared := Ends i m fun _ _ _ => True

/-- An update that finishes a TaskRun owes nothing else. -/
theorem UpdateOk.of_finished {st : TaskRunState} {u : UpdateRow} (hu : u.state = some st)
    (hst : st ∈ TaskRunState.finishedStates) : st ≠ .queued ∧ UpdateOk s st u := by
  have hne : ∀ st', st' ∉ TaskRunState.finishedStates → st ≠ st' := fun st' h he => h (he ▸ hst)
  exact ⟨hne _ (by decide), hu, hne _ (by decide), fun h => absurd h (hne _ (by decide))⟩

/-- The DagRun of a persisted TaskRun is active. -/
theorem Active.of_taskRun (hc : Consistent s) {t : TaskRunIdent} {j : DagRunIdent}
    (ht : HasTaskRun s t) (hj : HasDagRun s j) (hid : j.runId = t.dagrunId) : Active s j := by
  obtain ⟨row, hrow, rfl⟩ := ht
  obtain ⟨run, hrun, rfl⟩ := hj
  obtain ⟨run', _, hrun', hst, _⟩ := hc.db.owner _ row hrow
  have heq : run.ident.runId = row.dagrunId := hid
  rw [heq, hrun'] at hrun
  cases hrun
  exact ⟨run, heq ▸ hrun', rfl, hst⟩

namespace Spec

theorem ended {p : P α} {Q : α → List Row → Shared → Prop} (h : Spec i p (Ends i m Q) l s) :
    Spec i p (Ended i m) l s := h.mono fun _ _ _ _ _ => trivial

/-! ### Pool -/

/-- An access that nothing is said of. -/
theorem access {o : MemOp} (hs : Stmt i m w s)
    (ho : ∀ s₁, Relies i s s₁ → Consistent s₁ → o.Ok i s₁) :
    Spec i (P.mem o) (Ended i m) l s := (mem hs ho).ended

/-- What holds before a call and is kept by the others and by the call itself. -/
theorem frame {o : Op} {Q : o.Ret → List Row → Shared → Prop} {F : Shared → Prop}
    (h : Spec i (P.call o) (Ends i m Q) l s) (hr : ∀ s', Relies i s s' → F s')
    (hx : ∀ ch l s', F s' → F (o.exec i ch l s').2.2) :
    Spec i (P.call o) (Ends i m fun a w s' => Q a w s' ∧ F s') l s := by
  refine call fun s₁ hs₁ hc ch => ?_
  obtain ⟨howed, hq⟩ := Safe.of_op h s₁ hs₁ hc ch
  refine ⟨howed, ?_⟩
  have hF' : F (o.exec i ch l s₁).2.2 := hx ch l s₁ (hr s₁ hs₁)
  revert hq
  show Ends i m _ (o.exec i ch l s₁).1 _ _ → Ends i m _ (o.exec i ch l s₁).1 _ _
  cases (o.exec i ch l s₁).1 with
  | ok a => exact fun ⟨w', hw, ha⟩ => ⟨w', hw, ha, hF'⟩
  | error e => exact id

/-- The thread has submitted job `j` as entry `q` and set no callback yet. -/
def Submitted (i : ℕ) (j : Job) (q : ℕ) (s : Shared) : Prop :=
  ∃ e : Queueable, s.mem.queueables[q]? = some e ∧ e.owner = i ∧ e.fn = j ∧ e.callback = none

theorem Submitted.of_relies {j : Job} {q : ℕ} (h : Submitted i j q s) (hr : Relies i s s') :
    Submitted i j q s' := by
  obtain ⟨e, he, ho, hj, hcb⟩ := h
  obtain ⟨e', he', ho', hj', _⟩ := hr.grows.mem.entries q e he
  obtain ⟨e'', he'', hcb'⟩ := hr.leaves.own q e he ho
  obtain rfl := Option.some.inj (he'.symm.trans he'')
  exact ⟨e', he', ho'.trans ho, hj'.trans hj, hcb'.trans hcb⟩

theorem Submitted.fn? {j : Job} {q : ℕ} (h : Submitted i j q s) : s.fn? q = some j := by
  obtain ⟨e, he, _, rfl, _⟩ := h
  rw [Shared.fn?, he, Option.map_some]

theorem submit {j : Job} (hs : Stmt i m w s) (hj : JobOk s j) :
    Spec i (Pool.submit j) (Ends i m fun q _ s' => Submitted i j q s') l s := by
  refine (mem (o := .submit j) hs fun s₁ hr _ => JobOk.mono hr.grows hj).mono fun q w' s' _ h => ?_
  obtain ⟨_, s₁, pick, _, _, rfl, hres⟩ := h
  simp only [Mem.exec, Except.ok.injEq] at hres
  subst hres
  exact ⟨{ owner := i, fn := j }, List.getElem?_concat_length, rfl, rfl, rfl⟩

theorem onComplete {q svc : ℕ} {cb : Callback} {j : Job} (hs : Stmt i m w s)
    (hq : Submitted i j q s) (hcb : CallbackOk s cb)
    (hreg : ∀ f, cb = .finalize f → ∀ s', Relies i s s' → Registers s' svc f j) :
    Spec i (Pool.onComplete q svc cb) (Ended i m) l s := by
  refine bind (access (o := .setCallback q svc cb) hs fun s₁ hr _ => ?_)
    fun _ _ _ _ hs₁ _ _ => access (o := .forwardIfDone q) hs₁ fun _ _ _ => trivial
  have hq₁ := hq.of_relies hr
  refine ⟨fun e he => ?_, hcb.mono hr.grows, fun f hf fn hfn => ?_⟩
  · obtain ⟨e', he', ho, _, hno⟩ := hq₁
    obtain rfl := Option.some.inj (he.symm.trans he')
    exact ⟨ho, hno⟩
  · obtain rfl := Option.some.inj (hfn.symm.trans hq₁.fn?)
    exact hreg f hf s₁ hr

/-- A callback from the queue is one that may be there. -/
theorem takeCallback {svc : ℕ} (hs : Stmt i m w s) :
    Spec i (P.mem (.takeCallback svc)) (Ends i m fun res _ s' => ∀ cb, res = some cb →
      CallbackOk s' cb ∧ Forwarded s'.mem cb) l s := by
  refine (mem (o := .takeCallback svc) hs fun _ _ _ => trivial).conseq fun res w' s' _ _ h => ?_
  obtain ⟨_, s₁, pick, _, hc, rfl, hres⟩ := h
  simp only [Mem.exec, Except.ok.injEq] at hres
  rintro cb rfl
  obtain ⟨service, hsvc, hcb⟩ := Option.bind_eq_some_iff.mp hres
  have hg := MemOp.Ok.grows (s := s₁) (i := i) (o := .takeCallback svc) trivial pick
  have hsvc := List.mem_of_getElem? hsvc
  have hcb := List.mem_of_head? hcb
  exact ⟨((hc.mem.services _ hsvc).callbacks cb hcb).mono hg,
    (hc.forwarded _ hsvc cb hcb).mono hg.mem⟩

theorem drainCallbacks {svc : ℕ} {run : Callback → P Unit} (n : ℕ) (hs : Stmt i m w s)
    (hrun : ∀ cb w l' s', Stmt i m w s' → CallbackOk s' cb → Forwarded s'.mem cb →
      Spec i (run cb) (Ended i m) l' s') :
    Spec i (Pool.drainCallbacks svc run n) (Ended i m) l s := by
  induction n generalizing w l s with
  | zero => exact ret hs trivial
  | succ n ih =>
    refine bind (takeCallback hs) fun res w₁ l₁ s₁ hs₁ h₁ _ => ?_
    cases res with
    | none => exact ret hs₁ trivial
    | some cb =>
      obtain ⟨hcb, hfwd⟩ := h₁ cb rfl
      refine bind (catching (hrun cb w₁ l₁ s₁ hs₁ hcb hfwd) fun _ _ _ _ hs₂ _ =>
        ret hs₂ trivial) fun _ _ _ _ hs₂ _ _ => ih hs₂

theorem takeJob (hs : Stmt i m w s) :
    Spec i (P.mem .takeJob) (Ends i m fun res _ s' => ∀ q fn, res = some (q, fn) →
      s'.fn? q = some fn ∧ JobOk s' fn) l s := by
  refine (mem (o := .takeJob) hs fun _ _ _ => trivial).mono fun res w' s' _ h => ?_
  obtain ⟨_, s₁, pick, _, hc, rfl, hres⟩ := h
  rintro q fn rfl
  have hg := MemOp.Ok.grows (s := s₁) (i := i) (o := .takeJob) trivial pick
  have hentry : ∃ e, s₁.mem.queueables[q]? = some e ∧ e.fn = fn := by
    simp only [Mem.exec] at hres
    split at hres
    · split at hres
      · rename_i e he
        cases hres
        exact ⟨e, he, rfl⟩
      · cases hres
    · cases hres
  obtain ⟨e, he, rfl⟩ := hentry
  exact ⟨hg.jobs q _ (by simp [Shared.fn?, he]),
    (hc.mem.queueables e (List.mem_of_getElem? he)).fn.mono hg⟩

/-- The result of a pool entry is one its job may have. -/
theorem result {q : ℕ} (hs : Stmt i m w s) :
    Spec i (P.mem (.result q)) (Ends i m fun r _ s' => ∃ fn, s'.fn? q = some fn ∧
      ResultOk s' fn r) l s := by
  refine (mem (o := .result q) hs fun _ _ _ => trivial).mono fun r w' s' _ h => ?_
  obtain ⟨_, s₁, pick, _, hc, rfl, hres⟩ := h
  cases he : s₁.mem.queueables[q]? with
  | none => simp [Mem.exec, he] at hres
  | some e =>
    cases her : e.result with
    | none => simp [Mem.exec, he, her] at hres
    | some res =>
      simp only [Mem.exec, he, her, Option.bind_some, Option.getD_some] at hres
      exact ⟨e.fn, by simp [Shared.fn?, Mem.exec, he],
        (hc.mem.queueables e (List.mem_of_getElem? he)).result r (her.trans (congrArg some hres))⟩

/-- The entry has a result afterwards. -/
theorem setResult {q : ℕ} {r : Except Exn JobResult} (hs : Stmt i m w s)
    (hr : ∀ s₁, Relies i s s₁ → MemOp.Ok i s₁ (.setResult q r)) :
    Spec i (P.mem (.setResult q r)) (Ends i m fun _ _ s' => ∀ fn, s.fn? q = some fn →
      ∃ e : Queueable, s'.mem.queueables[q]? = some e ∧ e.result.isSome = true) l s := by
  refine (mem (o := .setResult q r) hs fun s₁ hr₁ _ => hr s₁ hr₁).mono fun _ w' s' _ h fn hfn => ?_
  obtain ⟨_, s₁, pick, hr₁, _, rfl, _⟩ := h
  obtain ⟨e, he, _⟩ := Option.map_eq_some_iff.mp (hr₁.grows.jobs q fn hfn)
  exact ⟨{ e with result := some r }, by simp [Mem.exec, he], rfl⟩

/-- A worker runs a job and stores a result that the job may have. -/
theorem workerIter {run : Job → P JobResult} (hs : Stmt i m w s)
    (hrun : ∀ fn w l' s', Stmt i m w s' → JobOk s' fn →
      Spec i (run fn) (Ends i m fun r _ s'' => ResultOk s'' fn r) l' s') :
    Spec i (Pool.workerIter run) (Ended i m) l s := by
  refine bind (takeJob hs) fun res w₁ l₁ s₁ hs₁ h₁ _ => ?_
  cases res with
  | none => exact ret hs₁ trivial
  | some job =>
    obtain ⟨q, fn⟩ := job
    obtain ⟨hq, hfn⟩ := h₁ q fn rfl
    refine bind (attempt (hrun fn w₁ l₁ s₁ hs₁ hfn)) fun r w₂ l₂ s₂ hs₂ hr hg₂ => ?_
    refine bind (setResult hs₂ fun s₃ hr₃ fn' a hfn' ha => ?_) fun _ _ _ s₃ hs₃ h₃ _ =>
      access (o := .forwardCallback q) hs₃ fun s₄ hr₄ _ e he => ?_
    · rw [(hg₂.trans hr₃.grows).jobs q fn hq] at hfn'
      cases hfn'
      exact ResultOk.mono hr₃.grows (hr a ha)
    · have hq₃ := hg₂.jobs q fn hq
      obtain ⟨e₃, he₃, hres⟩ := h₃ fn hq₃
      obtain ⟨e₄, he₄, _, _, hres₄, _⟩ := hr₄.grows.mem.entries q e₃ he₃
      obtain rfl := Option.some.inj (he.symm.trans he₄)
      exact hres₄ hres

/-! ### Executor -/

theorem ignoring {p : P α} (hp : Spec i p (Ended i m) l s) :
    Spec i (Executor.ignoring p) (Ended i m) l s :=
  catching (bind hp fun _ _ _ _ hs _ _ => ret hs trivial) fun _ _ _ _ hs _ => ret hs trivial

/-- `TaskRunClient.set_state`. -/
theorem clientSetState (st : TaskRunState) {us : List UpdateRow} (hs : Stmt i m w s)
    (hst : st ≠ .queued) (hu : ∀ u ∈ us, UpdateOk s st u) :
    Spec i (TaskRunClient.setState us) (Ends i m fun _ w' s' => ∃ w₀ trs,
      w' = w₀ ++ trs.map (fun tr => .taskRun tr.row) ∧ AllUpdated s' (Reached m s) us trs) l s :=
  handleExceptions hs (fun w₁ _ _ hs₁ hg => (setState st hs₁ (fun _ => hst)
    fun u huu => (hu u huu).mono hg).mono fun _ _ _ _ ⟨trs, hw, hall⟩ =>
      ⟨w₁, trs, hw, hall.weaken fun _ _ hr => hr.mono hg⟩) fun _ _ _ _ hs₁ _ => raise hs₁

theorem clientFetch {p : P (List TaskRunObj)} {flt : TaskRunFilter} (hs : Stmt i m w s)
    (hp : p = TaskRun.fetchRows flt) :
    Spec i (P.handleExceptions false (fun _ => pure []) p) (Ends i m fun trs _ s' =>
      ∀ tr ∈ trs, HasTaskRun s' tr.row.ident ∧ s'.trIdent tr.ref = some tr.row.ident ∧
        ∃ ts, Db.taskRun (s'.store.asOf ts) tr.row.runId = some tr.row ∧
          flt.accepts s'.engine tr.row = true) l s := by
  subst hp
  refine handleExceptions hs (fun _ _ _ hs₁ _ => (fetchRows hs₁).mono fun trs _ s' _ h => ?_)
    fun _ _ _ _ hs₁ _ => ret hs₁ (by simp)
  obtain ⟨_, ts, _, hf⟩ := h
  exact fun tr htr => ⟨hf.hasTaskRun htr, hf.refs tr htr, ts, hf.mem htr⟩

theorem clientGet {runId : Uuid} (hs : Stmt i m w s) :
    Spec i (DagRunClient.get runId) (Ends i m fun res _ s' => ∀ run, res = some run →
      run.row.runId = runId ∧ ∃ ts, FetchedRun s' ts run) l s := by
  refine handleExceptions hs (fun _ _ _ hs₁ _ => (get hs₁).mono fun res _ s' _ h run hrun => ?_)
    fun _ _ _ _ hs₁ _ => ret hs₁ (by simp)
  obtain ⟨hid, ts, _, hf⟩ := h.2 run hrun
  exact ⟨hid, ts, hf⟩

/-- A DagRun object may be written outside a transaction. -/
def ActiveRef (s : Shared) (run : Ref) : Prop := ∃ j, s.runIdent run = some j ∧ Active s j

theorem ActiveRef.mono {run : Ref} (h : ActiveRef s run) (hg : Grows s s') : ActiveRef s' run := by
  obtain ⟨j, hj, ha⟩ := h
  exact ⟨j, hg.dagRuns _ _ hj, ha.mono hg⟩

theorem writeDagRun {run : Ref} {state : DagRunState} (hs : Stmt i m w s) (ha : ActiveRef s run)
    (hst : state = .running ∨ state = .failed) :
    Spec i (DagRun.setState run state) (Ended i m) l s := by
  obtain ⟨j, hj, ha⟩ := ha
  exact ended (dagRunSetState hs hj fun _ => ⟨ha, hst⟩)

theorem getTaskRunManifest {row : TaskRunRow} (hs : Stmt i m w s) (hrow : HasTaskRun s row.ident) :
    Spec i (Executor.getTaskRunManifest row) (Ends i m fun res _ s' => ∀ run, res.2 = some run →
      ActiveRef s' run.ref) l s := by
  refine bind (clientGet hs) fun dagrun w₁ l₁ s₁ hs₁ h₁ hg₁ => ?_
  have hactive : ∀ run, dagrun = some run → ActiveRef s₁ run.ref := by
    intro run hrun
    obtain ⟨hid, ts, hf⟩ := h₁ run hrun
    exact ⟨_, hf.ref, .of_taskRun hs₁.consistent (hrow.mono hg₁) hf.hasDagRun hid⟩
  refine bind (attempt (loadTask hs₁)) fun res w₂ l₂ s₂ hs₂ _ hg₂ => ?_
  split
  · exact ret hs₂ fun run hrun => (hactive run hrun).mono hg₂
  · have hfail : Spec i (Executor.failDagRun dagrun) (Ended i m) l₂ s₂ := by
      cases dagrun with
      | none => exact ret hs₂ trivial
      | some run =>
        refine ignoring (handleExceptions hs₂ (fun _ _ _ hs₃ hg₃ => ?_)
          fun _ _ _ _ hs₃ _ => raise hs₃)
        exact writeDagRun hs₃ ((hactive run rfl).mono (hg₂.trans hg₃)) (Or.inr rfl)
    refine bind hfail fun _ w₃ l₃ s₃ hs₃ _ hg₃ => ?_
    exact ret hs₃ fun run hrun => (hactive run hrun).mono (hg₂.trans hg₃)
  · exact raise hs₂

theorem isFailed {run : Option DagRunObj} (hs : Stmt i m w s) :
    Spec i (Executor.isFailed run) (Ended i m) l s := by
  cases run with
  | none => exact ret hs trivial
  | some run => exact bind (readDagRun hs) fun _ _ _ _ hs₁ _ _ => ret hs₁ trivial

/-- The operation was started for the run, whatever happens to the DagRun afterwards. -/
theorem startOperation {runId : Uuid} {dagrun : Ref} (hs : Stmt i m w s)
    (ha : ActiveRef s dagrun) :
    Spec i (Executor.runOperation runId dagrun)
      (Ends i m fun op _ s' => s'.Started runId (some op)) l s := by
  refine bind (runOperation hs) fun op w₁ l₁ s₁ hs₁ h₁ hg₁ => ?_
  refine bind (writeDagRun hs₁ (ha.mono hg₁) (Or.inl rfl)) fun _ w₂ l₂ s₂ hs₂ _ hg₂ => ?_
  exact ret hs₂ (hg₂.knows.started h₁.2)

theorem startTaskrun {svc : ℕ} {tr : Ref} (hs : Stmt i m w s) :
    Spec i (Executor.startTaskrun svc tr) (Ended i m) l s := by
  refine bind (readTaskRun hs) fun row w₁ l₁ s₁ hs₁ h₁ _ => ?_
  obtain ⟨_, hrow, href⟩ := h₁
  refine bind (getTaskRunManifest hs₁ hrow) fun man w₂ l₂ s₂ hs₂ h₂ hg₂ => ?_
  obtain ⟨task, dagrun⟩ := man
  refine bind (isFailed hs₂) fun failed w₃ l₃ s₃ hs₃ _ hg₃ => ?_
  have hset : ∀ {st : TaskRunState} {req : Requires} {w' l'} {s' : Shared}, Stmt i m w' s' →
      st ∈ TaskRunState.finishedStates → Spec i (Executor.ignoring (TaskRunClient.setState
        [{ row := .obj tr, state := some st, requires := req }])) (Ended i m) l' s' := by
    intro st req w' l' s' hs' hfin
    have hu : ∀ u ∈ [{ row := .obj tr, state := some st, requires := req }], st ≠ .queued ∧
        UpdateOk s' st u := by
      intro u hu
      rw [List.mem_singleton.mp hu]
      exact UpdateOk.of_finished rfl hfin
    exact ignoring (ended (clientSetState st hs' (hu _ List.mem_cons_self).1
      fun u huu => (hu u huu).2))
  split
  · exact hset hs₃ (by decide)
  split
  · rename_i run
    have hactive := (h₂ run rfl).mono hg₃
    refine bind (attempt (startOperation hs₃ hactive)) fun res w₄ l₄ s₄ hs₄ h₄ hg₄ => ?_
    cases res with
    | error e => exact hset hs₄ (by decide)
    | ok op =>
      have hstarted := h₄ op rfl
      have hg := hg₂.trans (hg₃.trans hg₄)
      have hname : Names s₄ row.runId (.obj tr) := ⟨row.ident, hg.taskRuns _ _ href, rfl⟩
      have hpend : PendingOk s₄ row.runId (some op) := by
        obtain ⟨t, ht, _⟩ := hrow.mono hg
        exact ⟨hstarted, t, ht⟩
      refine bind (access (o := .addPending svc row.runId (some op) tr) hs₄ fun _ hr _ =>
        ⟨hpend.mono hr.grows, hname.mono hr.grows⟩) fun _ w₅ l₅ s₅ hs₅ _ hg₅ => ?_
      refine ignoring (ended (clientSetState .running hs₅ (by decide) fun u hu => ?_))
      rw [List.mem_singleton.mp hu]
      exact ⟨rfl, by decide, fun _ => ⟨row.runId, hname.mono hg₅, hg₅.knows.started hstarted⟩⟩
  · exact ret hs₃ trivial

theorem startTaskruns {svc : ℕ} (hs : Stmt i m w s) :
    Spec i (Executor.startTaskruns svc) (Ended i m) l s :=
  bind (shardOptions hs) fun shard _ _ _ hs₁ _ _ =>
    bind (submit (j := .getExecutableTaskRunsToQueue shard) hs₁ trivial) fun _ _ _ _ hs₂ hq _ =>
      onComplete hs₂ hq trivial (by simp)

theorem onStartTaskruns {svc q : ℕ} (hs : Stmt i m w s) :
    Spec i (Executor.onStartTaskruns svc q) (Ended i m) l s := by
  refine bind (result hs) fun res w₁ l₁ s₁ hs₁ _ _ => ?_
  split
  · refine forEach hs₁ fun tr _ w₂ l₂ s₂ hs₂ _ => ?_
    refine bind (attemptTooRecent hs₂) fun recent w₃ l₃ s₃ hs₃ _ _ => ?_
    split
    · exact ret hs₃ trivial
    · exact bind (submit (j := .startTaskrun svc tr) hs₃ trivial) fun _ _ _ _ hs₄ _ _ =>
        ret hs₄ trivial
  · exact raise hs₁

/-- Frame `f` holds the variables of a call of thread `i` for service `svc`. -/
def Polling (i svc f : ℕ) (s : Shared) : Prop :=
  ∃ fr, s.mem.frames[f]? = some fr ∧ fr.thread = i ∧ fr.svc = svc

theorem Polling.mono {svc f : ℕ} (h : Polling i svc f s) (hg : Grows s s') : Polling i svc f s' := by
  obtain ⟨fr, hfr, ht, hsvc⟩ := h
  obtain ⟨fr', hfr', ht', hsvc', _⟩ := hg.mem.frames f fr hfr
  exact ⟨fr', hfr', ht'.trans ht, hsvc'.trans hsvc⟩

/-- Such a frame whose `run_id` is `runId`. -/
def PollingRun (i svc f : ℕ) (runId : Uuid) (s : Shared) : Prop :=
  ∃ fr, s.mem.frames[f]? = some fr ∧ fr.thread = i ∧ fr.svc = svc ∧ fr.runId = runId

theorem PollingRun.of_relies {svc f : ℕ} {runId : Uuid} (h : PollingRun i svc f runId s)
    (hr : Relies i s s') : PollingRun i svc f runId s' := by
  obtain ⟨fr, hfr, ht, h⟩ := h
  exact ⟨fr, hr.leaves.ownFrames f fr hfr ht, ht, h⟩

/-- Only the next round of the loop assigns `run_id`. -/
theorem PollingRun.exec {svc f : ℕ} {runId : Uuid} {o : Op} (h : PollingRun i svc f runId s)
    (ho : o ≠ .mem (.nextItem f)) (ch : Choice) (l : Loc) :
    PollingRun i svc f runId (o.exec i ch l s).2.2 := by
  obtain ⟨fr, hfr, h⟩ := h
  refine ⟨fr, ?_, h⟩
  by_cases hmem : ∃ a, o = .mem a
  · obtain ⟨a, rfl⟩ := hmem
    obtain ⟨fr', hfr'⟩ := exists_frame_exec s.mem i ch.pick a hfr
    rcases Mem.getElem?_frames_exec hfr' with heq | ⟨rfl, _⟩ | ⟨fr₀, item, rfl, _⟩
    · obtain rfl := Option.some.inj (hfr.symm.trans heq)
      exact hfr'
    · rw [List.getElem?_eq_none (le_refl _)] at hfr
      cases hfr
    · exact absurd rfl ho
  · rw [Op.exec_mem fun a ha => hmem ⟨a, ha⟩]
    exact hfr

theorem openFrame {svc : ℕ} (hs : Stmt i m w s) :
    Spec i (P.mem (.openFrame svc)) (Ends i m fun res _ s' => Polling i svc res.1 s') l s := by
  refine (mem (o := .openFrame svc) hs fun _ _ _ => trivial).mono fun res w' s' _ h => ?_
  obtain ⟨_, s₁, pick, _, _, rfl, hres⟩ := h
  simp only [Mem.exec, Except.ok.injEq] at hres
  subst hres
  exact ⟨⟨i, svc, 0, _⟩, List.getElem?_concat_length, rfl, rfl⟩

/-- The items of a poll were started for their runs, and are assigned to `run_id`. -/
theorem nextItem {svc f : ℕ} (hs : Stmt i m w s) (hf : Polling i svc f s) :
    Spec i (P.mem (.nextItem f)) (Ends i m fun res _ s' => ∀ item, res = some item →
      PendingOk s' item.runId item.value ∧ PollingRun i svc f item.runId s') l s := by
  refine (mem (o := .nextItem f) hs fun s₁ hr _ fr hfr => ?_).mono fun res w' s' _ h => ?_
  · obtain ⟨fr', hfr', ht, _⟩ := hf.mono hr.grows
    obtain rfl := Option.some.inj (hfr.symm.trans hfr')
    exact ht
  · obtain ⟨_, s₁, pick, hr, hc, rfl, hres⟩ := h
    obtain ⟨fr, hfr, ht, hsvc⟩ := hf.mono hr.grows
    rintro item rfl
    simp only [Mem.exec, hfr] at hres ⊢
    split at hres
    · rename_i thread svc' runId item' items heq
      cases heq
      cases hres
      have hlt := (List.getElem?_eq_some_iff.mp hfr).1
      have hitem := hc.mem.frames _ (List.mem_of_getElem? hfr) item List.mem_cons_self
      exact ⟨⟨hitem.started, hitem.persisted⟩, _, List.getElem?_set_self hlt, ht, hsvc, rfl⟩
    · cases hres

/-- The object of a pending run stands for it. -/
theorem pendingTaskRun {svc : ℕ} {runId : Uuid} (hs : Stmt i m w s) :
    Spec i (P.mem (.pendingTaskRun svc runId)) (Ends i m fun res _ s' => ∀ tr, res = some tr →
      Names s' runId (.obj tr)) l s := by
  refine (mem (o := .pendingTaskRun svc runId) hs fun _ _ _ => trivial).mono fun res w' s' _ h => ?_
  obtain ⟨_, s₁, pick, _, hc, rfl, hres⟩ := h
  simp only [Mem.exec, Except.ok.injEq] at hres
  rintro tr rfl
  obtain ⟨service, hsvc, htr⟩ := Option.bind_eq_some_iff.mp hres
  obtain ⟨it, hit, rfl⟩ := Option.map_eq_some_iff.mp htr
  have hid : it.runId = runId := by simpa using List.find?_some hit
  exact hid ▸ (hc.mem.services _ (List.mem_of_getElem? hsvc)).taskRuns it (List.mem_of_find?_eq_some hit)

/-- The job submitted for a finished operation finishes the run it was submitted for. -/
theorem finishOperation {svc f : ℕ} {item : Item (Option OperationId)} {status : OperationState}
    (hs : Stmt i m w s) (hitem : PendingOk s item.runId item.value)
    (hrun : PollingRun i svc f item.runId s) :
    Spec i (do
      let tr ← P.mem (.pendingTaskRun svc item.runId)
      let q ← Pool.submit (.setState [Executor.finalUpdate item.runId tr status])
      Pool.onComplete q svc (.finalize f)) (Ended i m) l s := by
  refine bind (frame (pendingTaskRun hs) (fun _ => hrun.of_relies)
    fun ch l s' h => h.exec (by simp) ch l) fun tr w₁ l₁ s₁ hs₁ h₁ hg₁ => ?_
  obtain ⟨htr, hrun₁⟩ := h₁
  have hname : Names s₁ item.runId (Executor.finalUpdate item.runId tr status).row := by
    cases tr with
    | none => rfl
    | some tr => exact htr tr rfl
  have hjob : JobOk s₁ (.setState [Executor.finalUpdate item.runId tr status]) := by
    have hu := UpdateOk.of_finished (s := s₁) (u := Executor.finalUpdate item.runId tr status)
      rfl (by split <;> decide)
    obtain ⟨t, ht⟩ := (hitem.mono hg₁).persisted
    refine ⟨_, hu.1, fun u huu => List.mem_singleton.mp huu ▸ hu.2, fun u huu => ?_⟩
    exact List.mem_singleton.mp huu ▸ ⟨item.runId, t, hname, ht⟩
  refine bind (frame (submit hs₁ hjob) (fun _ => hrun₁.of_relies)
    fun ch l s' h => h.exec (by simp) ch l) fun q w₂ l₂ s₂ hs₂ h₂ hg₂ => ?_
  refine onComplete hs₂ h₂.1 trivial fun f' hf' s' hr => ?_
  cases hf'
  obtain ⟨fr, hfr, _, hsvc, hid⟩ := h₂.2.of_relies hr
  refine ⟨fr, _, hfr, hsvc, rfl, hid ▸ hname.mono (hg₂.trans hr.grows), ?_⟩
  cases status <;> rfl

theorem pollItem {svc frame : ℕ} (hs : Stmt i m w s) (hf : Polling i svc frame s) :
    Spec i (Executor.pollItem svc frame) (Ended i m) l s := by
  refine bind (nextItem hs hf) fun res w₁ l₁ s₁ hs₁ h₁ _ => ?_
  cases res with
  | none => exact ret hs₁ trivial
  | some item =>
    obtain ⟨hitem, hrun⟩ := h₁ item rfl
    refine bind (attempt (Spec.frame (getOperationState hs₁) (fun _ => hrun.of_relies)
      fun ch l s' h => h.exec (by simp) ch l)) fun status w₂ l₂ s₂ hs₂ h₂ hg₂ => ?_
    cases status with
    | error e => exact ret hs₂ trivial
    | ok status =>
      have hitem₂ := hitem.mono hg₂
      show Spec i (if _ then _ else _) _ _ _
      split
      · exact finishOperation hs₂ hitem₂ (h₂ status rfl).2
      · have hjob : JobOk s₂ (.setState [Executor.runningUpdate item]) := by
          obtain ⟨t, ht⟩ := hitem₂.persisted
          refine ⟨.running, by decide, fun u hu => ?_, fun u hu => ?_⟩
          · rw [List.mem_singleton.mp hu]
            exact ⟨rfl, by decide, fun _ => ⟨item.runId, rfl, hitem₂.started⟩⟩
          · rw [List.mem_singleton.mp hu]
            exact ⟨item.runId, t, rfl, ht⟩
        exact bind (submit hs₂ hjob) fun _ _ _ _ hs₃ _ _ => ret hs₃ trivial

theorem pollPendingOperations {svc : ℕ} (hs : Stmt i m w s) :
    Spec i (Executor.pollPendingOperations svc) (Ended i m) l s :=
  bind (openFrame hs) fun _ _ _ _ hs₁ hf _ => loop hs₁ fun _ _ _ hs₂ hg => pollItem hs₂ (hf.mono hg)

theorem tryAbortRun {cell : ℕ} (hs : Stmt i m w s) :
    Spec i (Executor.tryAbortRun cell) (Ended i m) l s := by
  have hcell : ∀ {w' l'} {s' : Shared}, Stmt i m w' s' →
      Spec i (P.mem (.getCell cell)) (Ended i m) l' s' :=
    fun hs' => access (o := .getCell cell) hs' fun _ _ _ => trivial
  refine bind (Q := fun _ _ _ => True)
    (retrier hs (fun _ _ _ hs₁ _ => ?_) fun _ _ _ _ hs₁ _ => ret hs₁ trivial)
    fun _ _ _ _ hs₁ _ _ => bind (hcell hs₁) fun tr _ _ _ hs₂ _ _ =>
      bind (clientSetState .failed hs₂ (by decide) fun u hu => ?_)
        fun _ _ _ _ hs₃ _ _ => ret hs₃ trivial
  · exact bind (hcell hs₁) fun tr _ _ _ hs₂ _ _ => bind (readTaskRun hs₂)
      fun row _ _ _ hs₃ _ _ => ended (abortOperation hs₃)
  · rw [List.mem_singleton.mp hu]
    exact ⟨rfl, by decide, by simp⟩

theorem sortOrphans {cell : ℕ} {trs : List TaskRunObj} (hs : Stmt i m w s) :
    Spec i (Executor.sortOrphans cell trs) (Ended i m) l s := by
  induction trs generalizing w l s with
  | nil => exact ret hs trivial
  | cons tr trs ih =>
    have hsort : ∀ {w' l'} {s' : Shared}, Stmt i m w' s' →
        Spec i (Executor.sortOrphan cell tr) (Ended i m) l' s' := by
      intro w' l' s' hs'
      refine bind (readTaskRun hs') fun row _ _ _ hs₁ _ _ => ?_
      split_ifs
      · exact ret hs₁ trivial
      · exact bind (submit (j := .tryAbortRun cell) hs₁ trivial) fun _ _ _ _ hs₂ _ _ =>
          ret hs₂ trivial
      · exact ret hs₁ trivial
      · exact ret hs₁ trivial
    exact bind (access (o := .setCell cell tr.ref) hs fun _ _ _ => trivial)
      fun _ _ _ _ hs₁ _ _ => bind (hsort hs₁) fun _ _ _ _ hs₂ _ _ =>
        bind (ih hs₂) fun _ _ _ _ hs₃ _ _ => ret hs₃ trivial

theorem getOrphanedTaskRuns {shard : ShardingOptions} (hs : Stmt i m w s) :
    Spec i (TaskRunClient.getOrphanedTaskRuns shard) (Ended i m) l s := by
  refine handleExceptions hs (fun _ _ _ hs₁ _ => ?_) fun _ _ _ _ hs₁ _ => ret hs₁ trivial
  refine bind (select hs₁) fun rows w₂ l₂ s₂ hs₂ h₂ _ => ?_
  obtain ⟨_, ts, _, _, hp, hout⟩ := h₂
  refine bind (newTaskRuns hs₂ fun row hrow => ?_) fun _ _ _ _ hs₃ _ _ => ret hs₃ trivial
  rw [hout] at hrow
  obtain ⟨t, ht, hi, _⟩ := hp.taskRun _ _ (mem_orphanedTaskRuns.mp hrow).1
  exact ⟨t, ht, hi⟩

theorem orphanCleanup (hs : Stmt i m w s) :
    Spec i Executor.orphanCleanup (Ended i m) l s := by
  refine bind (shardOptions hs) fun shard _ _ _ hs₁ _ _ =>
    bind (getOrphanedTaskRuns hs₁) fun trs _ _ _ hs₂ _ _ => ?_
  split
  · exact ret hs₂ trivial
  refine bind (access (o := .newCell) hs₂ fun _ _ _ => trivial) fun cell _ _ _ hs₃ _ _ =>
    bind (sortOrphans hs₃) fun skippable _ _ _ hs₄ _ _ => ?_
  unfold P.unlessEmpty
  split
  · exact ret hs₄ trivial
  refine ignoring (ended (clientSetState .skipped hs₄ (by decide) fun u hu => ?_))
  obtain ⟨tr, _, rfl⟩ := List.mem_map.mp hu
  exact ⟨rfl, by decide, by simp⟩

theorem executorCallback {svc : ℕ} {cb : Callback} (hs : Stmt i m w s)
    (hcb : Forwarded s.mem cb) :
    Spec i (Executor.runCallback svc cb) (Ended i m) l s := by
  cases cb with
  | startTaskruns q => exact onStartTaskruns hs
  | finalize frame => exact access (o := .finalize frame) hs fun _ hr _ => hcb.mono hr.grows.mem
  | _ => exact raise hs

/-- The maps of a new executor are rebuilt from rows that are RUNNING in a snapshot. -/
theorem updatePendingTasks {svc : ℕ} (hs : Stmt i m w s) :
    Spec i (Executor.updatePendingTasks svc) (Ended i m) l s := by
  refine bind (clientFetch hs rfl) fun trs w₁ l₁ s₁ hs₁ h₁ _ => ?_
  refine forEach hs₁ fun tr htr w₂ l₂ s₂ hs₂ hg₂ => ?_
  obtain ⟨hrow, href, ts, ht, hacc⟩ := h₁ tr htr
  have hst : tr.row.state = .running := by
    simpa [TaskRunFilter.accepts_of_taskId_none, TaskRunFilter.agrees] using hacc
  have hstarted := (hs₁.consistent.tables ts).running _ _ ht hst
  have hpend : PendingOk s₁ tr.row.runId tr.row.operationId := by
    obtain ⟨t, ht, _⟩ := hrow
    exact ⟨hstarted, t, ht⟩
  have hname : Names s₁ tr.row.runId (.obj tr.ref) := ⟨tr.row.ident, href, rfl⟩
  exact access (o := .addPending svc tr.row.runId tr.row.operationId tr.ref) hs₂ fun _ hr _ =>
    ⟨hpend.mono (hg₂.trans hr.grows), hname.mono (hg₂.trans hr.grows)⟩

theorem executor {n : ℕ} (hs : Stmt i m w s) :
    Spec i (Executor.execute n) (Ended i m) l s := by
  refine bind (access (o := .newService) hs fun _ _ _ => trivial) fun svc _ _ _ hs₁ _ _ =>
    bind (updatePendingTasks hs₁) fun _ _ _ _ hs₂ _ _ => loop hs₂ fun _ _ _ hs₃ _ => ?_
  exact bind (startTaskruns hs₃) fun _ _ _ _ hs₄ _ _ =>
    bind (pollPendingOperations hs₄) fun _ _ _ _ hs₅ _ _ =>
      bind (submit (j := .orphanCleanup) hs₅ trivial) fun _ _ _ _ hs₆ _ _ =>
        drainCallbacks 50 hs₆ fun _ _ _ _ hs₇ _ hcb => executorCallback hs₇ hcb

/-! ### Scheduler -/

theorem getDagRef {dagId : Uuid} (hs : Stmt i m w s) :
    Spec i (Scheduler.getDagRef dagId) (Ends i m fun res _ _ => ∀ ref, res = some ref →
      ref.dagId = dagId) l s := by
  refine handleExceptions hs (fun _ _ _ hs₁ _ => ?_) fun _ _ _ _ hs₁ _ => ret hs₁ (by simp)
  refine bind (select hs₁) fun rows _ _ _ hs₂ h₂ _ => ret hs₂ fun ref href => ?_
  obtain ⟨_, ts, _, _, _, hout⟩ := h₂
  rw [hout] at href
  have hmem := List.mem_of_mem_take (List.mem_of_head? href)
  simpa using (List.mem_filter.mp hmem).2

theorem getDag {ref : Option DagRefRow} (hs : Stmt i m w s) :
    Spec i (Scheduler.getDag ref) (Ends i m fun res _ s' => ∀ dag, res = some dag →
      ∃ r, ref = some r ∧ s'.dag? r.dagId = some dag) l s := by
  cases ref with
  | none => exact ret hs (by simp)
  | some r =>
    refine catching (bind (deserializeDag hs) fun dag _ _ _ hs₁ h₁ _ => ret hs₁ ?_)
      fun e _ _ _ hs₁ _ => ?_
    · intro dag' hdag
      cases hdag
      exact ⟨r, rfl, h₁.2⟩
    · split_ifs
      · exact ret hs₁ (by simp)
      · exact raise hs₁

/-- The DAG of a DagRun, found by way of its DagRef. -/
theorem getDagOf {dagId : Uuid} {γ : Type} {f : Option Dag → P γ} {R : γ → List Row → Shared → Prop}
    (hs : Stmt i m w s)
    (hf : ∀ dag w l' s', Stmt i m w s' → (∀ d, dag = some d → s'.dag? dagId = some d) →
      Grows s s' → Spec i (f dag) (Ends i m R) l' s') :
    Spec i ((Scheduler.getDagRef dagId).bind fun ref => (Scheduler.getDag ref).bind f)
      (Ends i m R) l s := by
  refine bind (getDagRef hs) fun ref _ _ _ hs₁ h₁ hg₁ => bind (getDag hs₁)
    fun dag _ _ _ hs₂ h₂ hg₂ => hf dag _ _ _ hs₂ (fun d hd => ?_) (hg₁.trans hg₂)
  obtain ⟨r, hr, hdag⟩ := h₂ d hd
  rw [← h₁ r hr]
  exact hdag

theorem clientQueueRunAtomic {self : Ref} {dag : Dag} {j : DagRunIdent} (hs : Stmt i none w s)
    (hj : s.runIdent self = some j) (hdag : s.dag? j.dagId = some dag) :
    Spec i (DagRunClient.queueRunAtomic self dag) (Ended i none) l s :=
  handleExceptions hs (fun _ _ _ hs₁ hg₁ => queueRunAtomic hs₁ (hg₁.dagRuns _ _ hj)
    ((hg₁.knows.dag? _).trans hdag)) fun _ _ _ _ hs₁ _ => raise hs₁

/-- The pass that queues SCHEDULED DagRuns, and the two that examine the others. -/
theorem passRun {svc : ℕ} {pass : Scheduler.Pass} (hs : Stmt i m w s)
    (hpass : pass ≠ .createDagrunsForDags) : Spec i (pass.run svc) (Ended i m) l s := by
  cases pass with
  | createDagrunsForDags => exact absurd rfl hpass
  | queueScheduledDagruns =>
    exact bind (shardOptions hs) fun shard _ _ _ hs₁ _ _ =>
      bind (submit (j := .getDagRuns .scheduled shard) hs₁ trivial) fun _ _ _ _ hs₂ hq _ =>
        onComplete hs₂ hq trivial (by simp)
  | startQueuedDagruns =>
    exact bind (shardOptions hs) fun shard _ _ _ hs₁ _ _ =>
      bind (submit (j := .getDagRuns .queued shard) hs₁ trivial) fun _ _ _ _ hs₂ hq _ =>
        onComplete hs₂ hq ⟨.queued, shard, hq.fn?, by decide⟩ (by simp)
  | scheduleRunningDagruns =>
    exact bind (shardOptions hs) fun shard _ _ _ hs₁ _ _ =>
      bind (submit (j := .getDagRuns .running shard) hs₁ trivial) fun _ _ _ _ hs₂ hq _ =>
        onComplete hs₂ hq ⟨.running, shard, hq.fn?, by decide⟩ (by simp)

theorem onQueueDagruns {q : ℕ} (hs : Stmt i m w s) :
    Spec i (Scheduler.onQueueDagruns q) (Ended i m) l s := by
  refine bind (result hs) fun res w₁ l₁ s₁ hs₁ _ _ => ?_
  split
  · refine forEach hs₁ fun run _ _ _ _ hs₂ _ => bind (readDagRun hs₂) fun row _ _ s₃ hs₃ h₃ _ =>
      getDagOf hs₃ fun dag _ _ s₄ hs₄ hdag hg₄ => ?_
    cases dag with
    | none => exact raise hs₄
    | some dag =>
      have hjob : JobOk s₄ (.queueRunAtomic run dag) :=
        ⟨row.ident, hg₄.dagRuns _ _ h₃.2.2, hdag dag rfl⟩
      exact bind (submit hs₄ hjob) fun _ _ _ _ hs₅ _ _ => ret hs₅ trivial
  · exact raise hs₁

/-- One DagRun is examined in one transaction, and what was found ready released in another. -/
theorem scheduleDagRun {run : Ref} (hs : Stmt i none w s) (ha : ActiveRef s run) :
    Spec i (Scheduler.scheduleDagRun run) (Ended i none) l s := by
  obtain ⟨j, hj, ha⟩ := ha
  refine bind (readDagRun hs) fun row _ _ s₁ hs₁ h₁ hg₁ => ?_
  obtain ⟨_, _, href⟩ := h₁
  obtain rfl : row.ident = j := by
    rw [hg₁.dagRuns _ _ hj] at href
    exact (Option.some.inj href).symm
  refine getDagOf hs₁ fun dag _ _ s₂ hs₂ hdag hg₂ => ?_
  cases dag with
  | none => exact raise hs₂
  | some dag =>
    have hg := hg₁.trans hg₂
    refine bind (Q := fun tids _ s' => tids ≠ [] → Decided i s' row.runId tids)
      (handleExceptions hs₂ (fun _ _ _ hs₃ hg₃ => ?_) fun _ _ _ _ hs₃ _ => ret hs₃ (absurd rfl))
      fun tids _ _ _ hs₄ hd _ => ?_
    · exact (updateState hs₃ ((hg.trans hg₃).dagRuns _ _ hj) (ha.mono (hg.trans hg₃))
        ((hg₃.knows.dag? _).trans (hdag dag rfl))).mono fun _ _ _ _ h _ => h
    · split
      · exact ret hs₄ trivial
      · rename_i hne
        have hd := hd fun hnil => hne (by rw [hnil]; rfl)
        exact bind (handleExceptions hs₄ (fun _ _ _ hs₅ hg₅ => scheduleTrs hs₅
          (hd.mono hg₅ fun _ h => h)) fun _ _ _ _ hs₅ _ => ret hs₅ trivial)
          fun _ _ _ _ hs₅ _ _ => ret hs₅ trivial

theorem onScheduleDagRuns {q : ℕ} (hs : Stmt i none w s) (hq : CallbackOk s (.scheduleDagRuns q)) :
    Spec i (Scheduler.onScheduleDagRuns q) (Ended i none) l s := by
  obtain ⟨st, shard, hfn, hst⟩ := hq
  refine bind (result hs) fun res _ _ s₁ hs₁ h₁ hg₁ => ?_
  obtain ⟨fn, hfn₁, hres⟩ := h₁
  rw [hg₁.jobs q _ hfn] at hfn₁
  cases hfn₁
  split
  · obtain ⟨⟨_, hjob⟩, hruns⟩ := hres
    cases hjob
    exact forEach hs₁ fun run hrun _ _ _ hs₂ hg₂ => scheduleDagRun hs₂
      (ActiveRef.mono (hruns hst run hrun) hg₂)
  · exact raise hs₁

theorem schedulerCallback {svc : ℕ} {cb : Callback} (hs : Stmt i none w s) (hcb : CallbackOk s cb) :
    Spec i (Scheduler.runCallback svc cb) (Ended i none) l s := by
  cases cb with
  | claimed q =>
    have hadd : ∀ {n w' l'} {s' : Shared}, Stmt i none w' s' →
        Spec i (P.mem (.addCreated svc n)) (Ended i none) l' s' :=
      fun {n} _ _ _ hs' => access (o := .addCreated svc n) hs' fun _ _ _ => trivial
    refine bind (ended (attempt (result hs))) fun res _ _ _ hs₁ _ _ => ?_
    split
    · exact hadd hs₁
    · exact hadd hs₁
  | setInvalid q c => exact hcb.elim
  | queueDagruns q => exact onQueueDagruns hs
  | scheduleDagRuns q => exact onScheduleDagRuns hs hcb
  | _ => exact raise hs

theorem scheduler {passes : List Scheduler.Pass} {n : ℕ} (hs : Stmt i none w s)
    (hp : .createDagrunsForDags ∉ passes) :
    Spec i (Scheduler.execute passes n) (Ended i none) l s := by
  refine bind (access (o := .newService) hs fun _ _ _ => trivial) fun svc _ _ _ hs₁ _ _ =>
    loop hs₁ fun _ _ _ hs₂ _ => ?_
  refine bind (forEach hs₂ fun pass hpass _ _ _ hs₃ _ => passRun hs₃ fun h => hp (h ▸ hpass))
    fun _ _ _ _ hs₃ _ _ => bind (drainCallbacks 50 hs₃ fun _ _ _ _ hs₄ hcb _ =>
      schedulerCallback hs₄ hcb) fun _ _ _ _ hs₄ _ _ => ?_
  exact bind (access (o := .takeCreated svc) hs₄ fun _ _ _ => trivial) fun _ _ _ _ hs₅ _ _ =>
    ret hs₅ trivial

/-! ### Workers and direct callers -/

/-- A worker does a job that may be in the queue, with a result that may be stored. -/
theorem jobRun {fn : Job} (hs : Stmt i none w s) (hfn : JobOk s fn) :
    Spec i fn.run (Ends i none fun r _ s' => ResultOk s' fn r) l s := by
  cases fn with
  | getExecutableTaskRunsToQueue shard =>
    exact bind (clientFetch hs rfl) fun _ _ _ _ hs₁ _ _ => ret hs₁ trivial
  | startTaskrun svc tr => exact bind (startTaskrun hs) fun _ _ _ _ hs₁ _ _ => ret hs₁ trivial
  | setState rows =>
    obtain ⟨st, hst, hu, htargets⟩ := hfn
    refine bind (clientSetState st hs hst hu) fun _ w₁ _ s₁ hs₁ h₁ _ => ret hs₁ fun u huu hreq => ?_
    obtain ⟨w₀, trs, rfl, hall⟩ := h₁
    obtain ⟨tr, htr, hup⟩ := hall.complete u huu (Or.inr ⟨rfl, htargets u huu⟩) hreq
    obtain ⟨c, hc, hrow⟩ := hs₁.written rfl (.taskRun tr.row)
      (List.mem_append_right _ (List.mem_map_of_mem htr))
    exact ⟨c, hc, tr.row, hrow, hup.names, hup.state⟩
  | orphanCleanup => exact bind (orphanCleanup hs) fun _ _ _ _ hs₁ _ _ => ret hs₁ trivial
  | tryAbortRun cell => exact bind (tryAbortRun hs) fun _ _ _ _ hs₁ _ _ => ret hs₁ trivial
  | getDagRuns st shard =>
    refine bind (Q := fun runs _ s' => ∀ run ∈ runs, st ≠ .scheduled → ActiveRef s' run.ref)
      (handleExceptions hs (fun _ _ _ hs₁ _ => (fetchRuns hs₁).mono fun runs _ s' _ h run hrun hst => ?_)
        fun _ _ _ _ hs₁ _ => ret hs₁ (by simp)) fun runs _ _ _ hs₁ h₁ _ => ret hs₁ ?_
    · obtain ⟨_, ts, _, hf⟩ := h
      obtain ⟨hf, hacc⟩ := hf run hrun
      have hst' : run.row.state = st := by
        simp only [DagRunFilter.accepts, Bool.and_eq_true, FilterValue.acceptsOpt_eq] at hacc
        exact hacc.1.2
      exact ⟨_, hf.ref, hf.active (hst'.symm ▸ hst)⟩
    · refine ⟨⟨shard, rfl⟩, fun hst run hrun => ?_⟩
      obtain ⟨obj, hobj, rfl⟩ := List.mem_map.mp hrun
      exact h₁ obj hobj hst
  | queueRunAtomic run dag =>
    obtain ⟨j, hj, hdag⟩ := hfn
    exact bind (clientQueueRunAtomic hs hj hdag) fun _ _ _ _ hs₁ _ _ => ret hs₁ trivial
  | tryClaimDagruns svc => exact hfn.elim
  | trySetMetasInvalid rows => exact hfn.elim

theorem queueRun {runId : Uuid} {n : ℕ} (hs : Stmt i none w s) :
    Spec i (YtScheduler.queueRun runId n) (Ended i none) l s := by
  refine bind (clientGet hs) fun res _ _ _ hs₁ h₁ _ => ?_
  cases res with
  | none => exact ret hs₁ trivial
  | some run =>
    obtain ⟨_, ts, hf⟩ := h₁ run rfl
    refine getDagOf hs₁ fun dag _ _ _ hs₂ hdag hg₂ => ?_
    cases dag with
    | none => exact ret hs₂ trivial
    | some dag =>
      exact loop hs₂ fun _ _ _ hs₃ hg₃ => ignoring (clientQueueRunAtomic hs₃
        ((hg₂.trans hg₃).dagRuns _ _ hf.ref) ((hg₃.knows.dag? _).trans (hdag dag rfl)))

end Spec

/-! ### The system -/

/-- The threads that queue, examine and execute DagRuns. -/
def Entry.Schedules : Entry → Prop
  | .scheduler passes _ => .createDagrunsForDags ∉ passes
  | .executor _ | .worker _ | .queueRun _ _ => True
  | _ => False

instance : DecidablePred Entry.Schedules
  | .scheduler passes _ => inferInstanceAs (Decidable (Scheduler.Pass.createDagrunsForDags ∉ passes))
  | .executor _ | .worker _ | .queueRun _ _ => .isTrue trivial
  | .createDagRuns _ | .setState _ | .upsert _ => .isFalse id

theorem schedules_startable : Startable system contract (fun i => Ended i none) Entry.Schedules where
  stable i r l s s' h hr hc := by
    cases r with
    | ok a =>
      obtain ⟨w, hs, _⟩ := h
      exact ⟨w, hs.of_relies hr hc, trivial⟩
    | error e =>
      obtain ⟨w, hs⟩ := h
      exact ⟨w, hs.of_relies hr hc⟩
  start e he i s hc hf := by
    have hs : Stmt i none [] s := .outside hc hf
    cases e with
    | scheduler passes n =>
      exact Spec.bind (Spec.scheduler hs he) fun _ _ _ _ hs₁ _ _ => Spec.ret hs₁ trivial
    | executor n =>
      exact Spec.bind (Spec.executor hs) fun _ _ _ _ hs₁ _ _ => Spec.ret hs₁ trivial
    | worker n =>
      exact Spec.bind (Spec.loop hs fun _ _ _ hs₁ _ => Spec.workerIter hs₁ fun _ _ _ _ hs₂ hfn =>
        Spec.jobRun hs₂ hfn) fun _ _ _ _ hs₁ _ _ => Spec.ret hs₁ trivial
    | queueRun runId n =>
      exact Spec.bind (Spec.queueRun hs) fun _ _ _ _ hs₁ _ _ => Spec.ret hs₁ trivial
    | createDagRuns metas => exact he.elim
    | setState rows => exact he.elim
    | upsert rows => exact he.elim

end YtScheduler
