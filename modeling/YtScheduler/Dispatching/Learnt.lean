import YtScheduler.Sequences.Indices
import YtScheduler.Services.Walks

/-! What a thread has learnt of the TaskRuns that are to be started. A TaskRun is fetched QUEUED by
one worker, handed as an object through the result of its job to an executor, submitted
by that, and read by the worker that starts its operation. A thread starts and hands over
only what it has learnt to be such a TaskRun, and writes a QUEUED row only for a TaskRun
that it has read, or as a root of its DAG. -/

namespace YtScheduler

open P Threads

/-- The run ids of TaskRuns that were QUEUED, the objects that stand for such, the pool entries that
fetch them, and the jobs that the thread has taken. -/
structure Learnt where
  seen : Seen := {}
  queued : List Uuid := []
  handed : List Ref := []
  entries : List ℕ := []
  taken : List (ℕ × Job) := []

/-- The job fetches the TaskRuns to start. -/
def Job.FetchesQueued : Job → Prop
  | .getExecutableTaskRunsToQueue _ => True
  | _ => False

/-- The object that the job starts, if it starts one. -/
def Job.starts : Job → List Ref
  | .startTaskrun _ tr => [tr]
  | _ => []

namespace Learnt

def see (γ : Learnt) (o : Op) (r : Except Exn o.Ret) : Learnt :=
  match o, r with
  | .select c (.taskRuns w), .ok rows =>
    { γ with
      seen := γ.seen.see (.select c (.taskRuns w)) (.ok rows)
      queued := (rows.filter (·.state = .queued)).map TaskRunRow.runId ++ γ.queued }
  | .mem (.newTaskRuns rows), .ok refs =>
    { γ with
      seen := γ.seen.see (.mem (.newTaskRuns rows)) (.ok refs)
      handed := (((List.zipWith TaskRunObj.mk refs rows).filter (·.row.runId ∈ γ.queued)).map
        TaskRunObj.ref) ++ γ.handed }
  | .mem (.readTaskRun tr), .ok row =>
    { γ with
      seen := γ.seen.see (.mem (.readTaskRun tr)) (.ok row)
      queued := if tr ∈ γ.handed then row.runId :: γ.queued else γ.queued }
  | .mem (.submit (.getExecutableTaskRunsToQueue shard)), .ok q =>
    { γ with
      seen := γ.seen.see (.mem (.submit (.getExecutableTaskRunsToQueue shard))) (.ok q)
      entries := q :: γ.entries }
  | .mem .takeJob, .ok (some (q, fn)) =>
    { γ with
      seen := γ.seen.see (.mem .takeJob) (.ok (some (q, fn)))
      taken := (q, fn) :: γ.taken
      handed := fn.starts ++ γ.handed }
  | .mem (.takeCallback svc), .ok (some (.startTaskruns q)) =>
    { γ with
      seen := γ.seen.see (.mem (.takeCallback svc)) (.ok (some (.startTaskruns q)))
      entries := q :: γ.entries }
  | .mem (.result q), .ok (.taskRuns trs) =>
    { γ with
      seen := γ.seen.see (.mem (.result q)) (.ok (.taskRuns trs))
      handed := if q ∈ γ.entries then trs ++ γ.handed else γ.handed }
  | o, r => { γ with seen := γ.seen.see o r }

theorem see_seen (γ : Learnt) (o : Op) (r : Except Exn o.Ret) : (γ.see o r).seen = γ.seen.see o r := by
  unfold see
  split <;> rfl

/-- More was learnt. -/
structure Since (γ γ' : Learnt) : Prop where
  queued : γ.queued ⊆ γ'.queued
  handed : γ.handed ⊆ γ'.handed
  entries : γ.entries ⊆ γ'.entries
  taken : γ.taken ⊆ γ'.taken

theorem since_see (γ : Learnt) (o : Op) (r : Except Exn o.Ret) : γ.Since (γ.see o r) := by
  unfold see
  split
  · exact ⟨List.subset_append_right .., .refl _, .refl _, .refl _⟩
  · exact ⟨.refl _, List.subset_append_right .., .refl _, .refl _⟩
  · refine ⟨?_, .refl _, .refl _, .refl _⟩
    dsimp only
    split_ifs
    · exact List.subset_cons_self ..
    · exact .refl _
  · exact ⟨.refl _, .refl _, List.subset_cons_self .., .refl _⟩
  · exact ⟨.refl _, List.subset_append_right .., .refl _, List.subset_cons_self ..⟩
  · exact ⟨.refl _, .refl _, List.subset_cons_self .., .refl _⟩
  · refine ⟨.refl _, ?_, .refl _, .refl _⟩
    dsimp only
    split_ifs
    · exact List.subset_append_right ..
    · exact .refl _
  · exact ⟨.refl _, .refl _, .refl _, .refl _⟩

/-- A row of this TaskRun was selected last, or read as an object. -/
def Knows (γ : Learnt) (runId : Uuid) : Prop :=
  (∃ t ∈ γ.seen.fetched, t.runId = runId) ∨ ∃ ref, (ref, runId) ∈ γ.seen.objects

end Learnt

/-- The serialized DAGs give this one. -/
def Loaded (dags : List Dag) (dag : Dag) : Prop := dags.find? (·.dagId = dag.dagId) = some dag

theorem loaded_of_find? {dags : List Dag} {dagId : Uuid} {dag : Dag}
    (h : dags.find? (·.dagId = dagId) = some dag) : Loaded dags dag := by
  have hid : dag.dagId = dagId := by simpa using List.find?_some h
  rw [Loaded, hid]
  exact h

/-- The TaskRun is one of a root of its DAG. -/
def TaskRunRow.IsRoot (dags : List Dag) (t : TaskRunRow) : Prop :=
  ∃ dag, Loaded dags dag ∧ t.dagId = dag.dagId ∧ ∃ task ∈ dag.roots, t.taskId = task.taskId

/-- The outcomes of calls while the serialized DAGs give `dags`. -/
def Op.Learnable (dags : List Dag) : (o : Op) → Except Exn o.Ret → Prop
  | .select _ (.taskRuns w), .ok rows =>
    w.taskId = none → ∀ t ∈ rows, FilterValue.acceptsOpt w.state t.state = true
  | .deserializeDag _, .ok dag => Loaded dags dag
  | .mem .takeJob, .ok (some (_, .queueRunAtomic _ dag)) => Loaded dags dag
  | _, _ => True

/-- The calls of a thread that has learnt `γ`. -/
def Learnt.Allows (dags : List Dag) (γ : Learnt) : Op → Prop
  | .insert _ rows => ∀ t, .taskRun t ∈ rows → t.state = .queued → γ.Knows t.runId ∨ t.IsRoot dags
  | .runOperation runId => runId ∈ γ.queued
  | .mem (.submit (.startTaskrun _ tr)) => tr ∈ γ.handed
  | .mem (.setResult q r) => ∃ fn, (q, fn) ∈ γ.taken ∧
      (fn.FetchesQueued → ∀ trs, r = .ok (.taskRuns trs) → trs ⊆ γ.handed)
  | .mem (.setCallback _ _ (.startTaskruns q)) => q ∈ γ.entries
  | _ => True

/-- The watch of the threads that dispatch TaskRuns. -/
def dispatching (dags : List Dag) : Watch Op Op.Ret Exn Learnt where
  see := Learnt.see
  outcomes o r := o.Expects r ∧ o.Learnable dags r
  calls := Learnt.Allows dags

namespace Dispatching

variable {dags : List Dag} {γ : Learnt} {α : Type} {p : P α}

theorem allows_of_plain (γ : Learnt) {o : Op} (ho : o.Plain) : γ.Allows dags o := by
  cases o with
  | insert c rows => exact fun t ht _ => absurd ht (ho t)
  | runOperation runId => exact ho.elim
  | mem a =>
    cases a with
    | submit fn =>
      cases fn with
      | startTaskrun svc tr => exact ho.elim
      | _ => trivial
    | setResult q r => exact ho.elim
    | setCallback q svc cb =>
      cases cb with
      | startTaskruns q' => exact ho.elim
      | _ => trivial
    | _ => trivial
  | _ => trivial

/-- `set_state` writes TaskRuns that it has read. -/
theorem knows_of_wrote {us : List UpdateRow} {ts : List TaskRunRow} (h : γ.seen.Wrote us ts) {t : TaskRunRow}
    (ht : t ∈ ts) : γ.Knows t.runId := by
  obtain ⟨news, _, hnews⟩ := h.built
  obtain ⟨u, _, copy, hbuilt⟩ := Sequences.exists_left hnews ht
  have hisFor := hbuilt.isFor
  unfold Learnt.Knows
  rw [hbuilt.runId]
  unfold Seen.IsFor at hisFor
  split at hisFor
  · next hrow =>
    refine Or.inl ⟨copy, hbuilt.fetched fun ref hobj => ?_, rfl⟩
    rw [hrow] at hobj
    cases hobj
  · exact Or.inr ⟨_, hisFor⟩

theorem allows_of_setsState {us : List UpdateRow} {o : Op} (ho : SetsState us γ.seen o) :
    γ.Allows dags o := by
  cases o with
  | insert c rows =>
    obtain ⟨_, ts, rfl, hwrote⟩ := ho
    exact fun t ht _ => Or.inl (knows_of_wrote hwrote (by simpa using ht))
  | mem a =>
    cases a with
    | newTaskRuns _ | readTaskRun _ | writeTaskRun _ _ => trivial
    | _ => exact ho.elim
  | runOperation _ => exact ho.elim
  | _ => trivial

theorem allowed_setState (us : List UpdateRow) : (TaskRun.setState us).Allowed (dispatching dags) :=
  fun γ => Prog.Watched.project (π := Learnt.seen) (TaskRun.allowed_setState us γ.seen) Learnt.see_seen
    (fun _ _ _ => trivial) fun _ _ => allows_of_setsState

theorem allowed_call {o : Op} (ho : o.Plain) : (call o).Allowed (dispatching dags) :=
  .op fun γ => allows_of_plain γ ho

/-! ### The TaskRuns of a DagRun -/

theorem brings_newTaskRuns (dagrunId : Uuid) (state : TaskRunState) (tasks : List Task) :
    (DagRun.newTaskRuns dagrunId state tasks).Brings (dispatching dags) (fun rows _ => ∀ t ∈ rows,
      t.state = state ∧ ∃ task ∈ tasks, t.taskId = task.taskId ∧ t.dagId = task.dagId) γ := by
  induction tasks generalizing γ with
  | nil => exact .ret (by simp)
  | cons task tasks ih =>
    refine .bind (A := fun _ _ => True) (.op trivial fun _ _ => trivial) fun runId γ₁ _ => ?_
    refine .bind ih fun rest γ₂ hrest => .ret ?_
    rw [List.forall_mem_cons]
    refine ⟨⟨rfl, task, List.mem_cons_self, rfl, rfl⟩, fun t ht => ?_⟩
    obtain ⟨hst, task', htask', hids⟩ := hrest t ht
    exact ⟨hst, task', List.mem_cons_of_mem _ htask', hids⟩

/-- A new TaskRun is QUEUED only for a root of the DAG. -/
theorem brings_initTaskRunsForRun (self : Ref) {dag : Dag} (hdag : Loaded dags dag) :
    (DagRun.initTaskRunsForRun self dag).Brings (dispatching dags) (fun rows _ => ∀ t ∈ rows,
      t.state = .queued → t.IsRoot dags) γ := by
  refine .bind (A := fun _ _ => True) (.op trivial fun _ _ => trivial) fun run γ₁ _ => ?_
  refine .bind (A := fun _ _ => True) ?_ fun existing γ₂ _ => ?_
  · refine Prog.Watched.mono (Q := fun _ _ => True) ?_ fun _ _ _ _ _ => trivial
    exact (allowed_call (o := .select none (.taskRuns _)) trivial).bind (fun rows =>
      (allowed_call (o := .mem (.newTaskRuns rows)) trivial).bind fun _ => .ret _) γ₁
  refine .bind (brings_newTaskRuns run.runId .queued _) fun roots γ₃ hroots => ?_
  refine .bind (brings_newTaskRuns run.runId .scheduled _) fun others γ₄ hothers => .ret ?_
  rw [List.forall_mem_append]
  refine ⟨fun t ht _ => ?_, fun t ht hst => ?_⟩
  · obtain ⟨_, task, htask, htid, hdid⟩ := hroots t ht
    have hroot : task ∈ dag.roots := by simpa using (List.mem_filter.mp htask).2
    refine ⟨dag, hdag, ?_, task, hroot, htid⟩
    rw [hdid]
    exact dag.dagId_eq task (List.mem_of_mem_filter hroot)
  · rw [(hothers t ht).1] at hst
    cases hst

theorem allowed_queueRunAtomic (self : Ref) {dag : Dag} (hdag : Loaded dags dag) :
    (DagRun.queueRunAtomic self dag).Allowed (dispatching dags) := by
  refine TaskRun.allowed_transaction (fun _ => trivial) (fun _ => trivial) (fun _ => trivial) ?_
  refine (allowed_call (o := .mem (.readDagRun self)) trivial).bind fun row => ?_
  have hget : (DagRun.get row.runId).Allowed (dispatching dags) := by
    refine Prog.Allowed.bind ?_ fun runs => ?_
    · exact (allowed_call (o := .select none (.dagRuns _)) trivial).bind fun rows =>
        (allowed_call (o := .mem (.newDagRuns rows)) trivial).bind fun _ => .ret _
    · split
      · exact .ret _
      · exact .ret _
  refine hget.bind fun run => ?_
  cases run with
  | none => exact .ret ()
  | some run =>
    dsimp only
    split_ifs
    · exact .ret ()
    · refine .bind_brings (fun γ => brings_initTaskRunsForRun self hdag) fun trs γ htrs => ?_
      have hset : (DagRun.setState self .queued).Allowed (dispatching dags) := by
        refine (allowed_call (o := .mem (.readDagRun self)) trivial).bind fun base => ?_
        refine Prog.Allowed.bind ((allowed_call (o := .now) trivial).bind fun _ => .ret _) fun now => ?_
        refine Prog.Allowed.bind (allowed_call ?_) fun _ => allowed_call trivial
        intro t ht
        simp at ht
      refine Prog.Allowed.bind_watched ?_ fun _ => hset
      unfold unlessEmpty
      split_ifs
      · trivial
      · exact Prog.Watched.op (fun t ht hst => Or.inr (htrs t (by simpa using ht) hst)) fun _ _ => trivial

/-- The dispatching watch allows all that a lenient one allows. -/
theorem lenient (dags : List Dag) : Lenient (dispatching dags) (Loaded dags) where
  plain γ _ := allows_of_plain γ
  expects _ _ h := h.1
  loaded _ _ h := h.2
  setState := allowed_setState
  queueRunAtomic self _ := allowed_queueRunAtomic self

end Dispatching

end YtScheduler
