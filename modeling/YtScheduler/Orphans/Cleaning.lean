import YtScheduler.Services.Machine
import YtScheduler.System.Accesses
import YtScheduler.Threads.Rely

/-! The cleanup of a list of orphans with the workers of the pool. The machine keeps which job a
worker is at, the operations whose abortion was requested, and whether a statement was refused.
A second machine hands each job its own orphan: on it every step keeps the orphans in hand. -/

namespace YtScheduler

open Tablet Threads P

/-! ### Orphans -/

/-- A RUNNING TaskRun with an operation. -/
def TaskRunRow.Abortable (row : TaskRunRow) : Prop :=
  row.state = .running ∧ row.operationId.isSome = true

instance : DecidablePred TaskRunRow.Abortable :=
  fun row => inferInstanceAs (Decidable (row.state = .running ∧ row.operationId.isSome = true))

/-- The state the cleanup leaves an orphan in. -/
def TaskRunRow.cleaned (row : TaskRunRow) : TaskRunState := if row.Abortable then .failed else .skipped

/-- The orphans that get a job of their own, in the order of the jobs. -/
def abortable (trs : List TaskRunObj) : List TaskRunObj := trs.filter fun tr => tr.row.Abortable

/-- The others. -/
def skippable (trs : List TaskRunObj) : List TaskRunObj := trs.filter fun tr => ¬tr.row.Abortable

/-- The orphan that job `q` was submitted for. -/
def ownOrphan (trs : List TaskRunObj) (q : ℕ) : Option Ref := ((abortable trs)[q]?).map TaskRunObj.ref

/-- `_orphan_cleanup` after its select. -/
def Executor.cleanUp (trs : List TaskRunObj) : P Unit :=
  if trs.isEmpty then pure ()
  else do
    let cell ← mem .newCell
    let skippable ← sortOrphans cell trs
    unlessEmpty skippable (ignoring (TaskRunClient.setState (skippable.map fun tr =>
      { row := .obj tr.ref, state := some .skipped,
        requires := { state := some (.mem [.running, .queued]) } })))

theorem Executor.orphanCleanup_eq : Executor.orphanCleanup =
    (do
      let shard ← call .shardOptions
      let trs ← TaskRunClient.getOrphanedTaskRuns shard
      Executor.cleanUp trs) := rfl

/-! ### The machine -/

/-- The cleanup of a list of orphans, or a worker of the pool. -/
inductive Cleaner
  | cleanup (trs : List TaskRunObj)
  | worker (n : ℕ)

namespace Cleaner

def prog : Cleaner → P JobResult
  | .cleanup trs => do
    Executor.cleanUp trs
    pure .none
  | .worker n => do
    Pool.loop (Pool.workerIter Job.run) n
    pure .none

def IsWorker : Cleaner → Prop
  | .cleanup _ => False
  | .worker _ => True

end Cleaner

/-- The job that a thread has taken last. -/
structure Hand where
  loc : Loc := {}
  job : Option ℕ := none

/-- The operations whose abortion was requested, and whether a statement or transaction of a
`set_state` did not succeed. -/
structure Office where
  shared : Shared
  requested : List (Option OperationId) := []
  refused : Bool := false

def Hand.after (l : Hand) (o : Op) (r : Except Exn o.Ret) (loc : Loc) : Hand :=
  match o, r with
  | .mem .takeJob, .ok (some (q, _)) => ⟨loc, some q⟩
  | _, _ => { l with loc }

def Office.after (s : Office) (o : Op) (r : Except Exn o.Ret) (shared : Shared) : Office :=
  match o, r with
  | .abortOperation operation, _ => { s with shared, requested := operation :: s.requested }
  | .beginTx _, .error _ | .select _ _, .error _ | .insert _ _, .error _ | .commitTx _, .error _ =>
    { s with shared, refused := true }
  | _, _ => { s with shared }

def cleaning : Machine Op Op.Ret Exn Hand Office Choice Cleaner JobResult where
  exec o i ch l s :=
    let out := o.exec i ch l.loc s.shared
    (out.1, l.after o out.1 out.2.1, s.after o out.1 out.2.2)
  start e _ := ({}, e.prog)

/-- The machine on which a job reads the orphan it was submitted for. -/
def boundCleaning (trs : List TaskRunObj) :
    Machine Op Op.Ret Exn Hand Office Choice Cleaner JobResult where
  exec o i ch l s :=
    match o with
    | .mem (.getCell _) => ((l.job.bind (ownOrphan trs)).elim (.error .runtime) .ok, l, s)
    | o => cleaning.exec o i ch l s
  start := cleaning.start

abbrev Cleanup := Sys Op Op.Ret Exn Hand Office JobResult

/-- A job that reads the loop variable reads the orphan it was submitted for. -/
def Timely (trs : List TaskRunObj) (σ : Cleanup) : Action Choice Cleaner → Prop
  | .spawn _ => True
  | .step i _ =>
    match σ.threads[i]? with
    | some (l, .call (.mem (.getCell cell)) _) =>
      (σ.shared.shared.mem.cells[cell]?).join = l.job.bind (ownOrphan trs)
    | _ => True

instance (trs : List TaskRunObj) (σ : Cleanup) (a : Action Choice Cleaner) : Decidable (Timely trs σ a) := by
  unfold Timely
  split
  · exact .isTrue trivial
  · split
    · infer_instance
    · exact .isTrue trivial

theorem act_of_timely {trs : List TaskRunObj} {σ : Cleanup} {a : Action Choice Cleaner}
    (h : Timely trs σ a) : cleaning.act σ a = (boundCleaning trs).act σ a := by
  cases a with
  | spawn e => rfl
  | step i ch =>
    simp only [Machine.act]
    cases hth : σ.threads[i]? with
    | none => rfl
    | some th =>
      obtain ⟨l, p⟩ := th
      cases p with
      | ret a => rfl
      | raise e => rfl
      | call o k =>
        have hexec : cleaning.exec o i ch l σ.shared = (boundCleaning trs).exec o i ch l σ.shared := by
          cases o with
          | mem a =>
            cases a with
            | getCell cell =>
              have hcell : (σ.shared.shared.mem.cells[cell]?).join = l.job.bind (ownOrphan trs) := by
                simpa [Timely, hth] using h
              simp only [cleaning, boundCleaning, Op.exec, Mem.exec, hcell]
              rfl
            | _ => rfl
          | _ => rfl
        simp only [hexec]

/-! ### What every step keeps -/

/-- Different objects of different runs, each QUEUED or RUNNING. -/
structure OrphanList (trs : List TaskRunObj) : Prop where
  refs : (trs.map TaskRunObj.ref).Nodup
  runIds : (trs.map (·.row.runId)).Nodup
  states : ∀ tr ∈ trs, tr.row.state = .queued ∨ tr.row.state = .running

theorem OrphanList.eq_of_ref {trs : List TaskRunObj} (h : OrphanList trs) {tr tr' : TaskRunObj}
    (htr : tr ∈ trs) (htr' : tr' ∈ trs) (he : tr.ref = tr'.ref) : tr = tr' :=
  List.inj_on_of_nodup_map h.refs htr htr' he

theorem OrphanList.eq_of_runId {trs : List TaskRunObj} (h : OrphanList trs) {tr tr' : TaskRunObj}
    (htr : tr ∈ trs) (htr' : tr' ∈ trs) (he : tr.row.runId = tr'.row.runId) : tr = tr' :=
  List.inj_on_of_nodup_map h.runIds htr htr' he

/-- A copy of the orphan, in whatever state. -/
structure TaskRunRow.CopyOf (row : TaskRunRow) (tr : TaskRunObj) : Prop where
  runId : row.runId = tr.row.runId
  operationId : row.operationId = tr.row.operationId

/-- How many jobs there are. -/
def Office.jobs (s : Office) : ℕ := s.shared.mem.queueables.length

/-- The job of the orphan is submitted. -/
def HasJob (trs : List TaskRunObj) (s : Office) (tr : TaskRunObj) : Prop :=
  ∃ q < s.jobs, (abortable trs)[q]? = some tr

/-- The object of the orphan is thread `i`'s to write. -/
def MayWrite (trs : List TaskRunObj) (i : ℕ) (s : Office) (tr : TaskRunObj) : Prop := i = 0 ∨ HasJob trs s tr

/-- The orphan is persisted in the state the cleanup leaves it in. -/
def Cleaned (s : Office) (tr : TaskRunObj) : Prop :=
  ∃ row, s.shared.db.taskRun tr.row.runId = some row ∧ row.state = tr.row.cleaned

/-- The job of the orphan is done. -/
def Handled (s : Office) (tr : TaskRunObj) : Prop :=
  tr.row.operationId ∈ s.requested ∧ (s.refused = true ∨ Cleaned s tr)

/-- Every orphan has its object and its row, the row as it was or cleaned, and every job is for the
orphan it was submitted for. -/
structure InHand (trs : List TaskRunObj) (s : Office) : Prop where
  apart : s.shared.Apart
  objects : ∀ tr ∈ trs, ∃ row, s.shared.mem.taskRuns[tr.ref]? = some row ∧ row.CopyOf tr
  rows : ∀ tr ∈ trs, ∃ row, s.shared.db.taskRun tr.row.runId = some row ∧ row.CopyOf tr ∧
    (row.state = tr.row.state ∨ row.state = tr.row.cleaned)
  requested : ∀ operation ∈ s.requested, ∃ tr ∈ abortable trs, operation = tr.row.operationId
  jobs : ∀ (q : ℕ) (e : Queueable), s.shared.mem.queueables[q]? = some e →
    ∃ tr, (abortable trs)[q]? = some tr ∧ (∃ cell, e.fn = .tryAbortRun cell) ∧
      (e.result.isSome = true → Handled s tr)

/-- What a step never undoes. -/
structure Cleans (trs : List TaskRunObj) (s s' : Office) : Prop where
  requested : s.requested ⊆ s'.requested
  refused : s.refused = true → s'.refused = true
  jobs : s.jobs ≤ s'.jobs
  cleaned : ∀ tr ∈ trs, Cleaned s tr → Cleaned s' tr

namespace Cleans

variable {trs : List TaskRunObj} {s s' s'' : Office}

theorem refl (trs : List TaskRunObj) (s : Office) : Cleans trs s s :=
  ⟨List.Subset.refl _, id, le_rfl, fun _ _ => id⟩

theorem trans (h : Cleans trs s s') (h' : Cleans trs s' s'') : Cleans trs s s'' :=
  ⟨List.Subset.trans h.requested h'.requested, h'.refused ∘ h.refused, h.jobs.trans h'.jobs,
    fun tr htr => h'.cleaned tr htr ∘ h.cleaned tr htr⟩

theorem handled (h : Cleans trs s s') {tr : TaskRunObj} (htr : tr ∈ trs) (hh : Handled s tr) :
    Handled s' tr := ⟨h.requested hh.1, hh.2.imp h.refused (h.cleaned tr htr)⟩

theorem mayWrite (h : Cleans trs s s') {i : ℕ} {tr : TaskRunObj} (hm : MayWrite trs i s tr) :
    MayWrite trs i s' tr := by
  refine hm.imp_right ?_
  rintro ⟨q, hq, htr⟩
  exact ⟨q, hq.trans_le h.jobs, htr⟩

end Cleans

/-- No job is submitted, and the objects of the orphans without one stay as they are. -/
structure Spares (trs : List TaskRunObj) (s s' : Office) : Prop where
  jobs : s'.jobs = s.jobs
  objects : ∀ tr ∈ trs, ¬HasJob trs s tr →
    s'.shared.mem.taskRuns[tr.ref]? = s.shared.mem.taskRuns[tr.ref]?

theorem Spares.trans {trs : List TaskRunObj} {s s' s'' : Office} (h : Spares trs s s')
    (h' : Spares trs s' s'') : Spares trs s s'' where
  jobs := h'.jobs.trans h.jobs
  objects tr htr hnot := by
    refine (h'.objects tr htr ?_).trans (h.objects tr htr hnot)
    rwa [HasJob, h.jobs]

/-- Thread 0 cleans up; the others spare the orphans without a job. -/
def cleaningContract (trs : List TaskRunObj) : Contract Op Hand Office where
  inv := InHand trs
  grows := Cleans trs
  rely i s s' := Cleans trs s s' ∧ (i = 0 → Spares trs s s')
  guar _ _ _ s _ s' := Cleans trs s s'
  fresh i _ := i ≠ 0
  refl _ s := ⟨.refl trs s, fun _ => ⟨rfl, fun _ _ _ => rfl⟩⟩
  trans _ _ _ _ h h' := ⟨h.1.trans h'.1, fun hi => (h.2 hi).trans (h'.2 hi)⟩
  fresh_rely _ _ _ _ hf := hf
  grows_refl := Cleans.refl trs
  grows_trans _ _ _ := Cleans.trans
  rely_grows _ _ _ h := h.1
  guar_grows _ _ _ _ _ _ h := h

/-- The calls of a cleanup. -/
def CleanOk (trs : List TaskRunObj) (i : ℕ) (s : Office) : Op → Prop
  | .beginTx c | .commitTx c | .abortTx c => c = some .global
  | .insert c rows => c = none ∧ ∀ r ∈ rows, ∃ tr ∈ trs, ∃ t : TaskRunRow, r = .taskRun t ∧
      t.CopyOf tr ∧ t.state = tr.row.cleaned
  | .abortOperation operation => ∃ tr ∈ abortable trs, operation = tr.row.operationId
  | .mem (.writeTaskRun ref row) => ∃ tr ∈ trs, ref = tr.ref ∧ row.CopyOf tr ∧
      MayWrite trs i s tr
  | .mem (.submit fn) => i = 0 ∧ (∃ cell, fn = .tryAbortRun cell) ∧ s.jobs < (abortable trs).length
  | .mem (.setResult q _) => ∀ tr, (abortable trs)[q]? = some tr → Handled s tr
  | _ => True

section Steps

variable {trs : List TaskRunObj} {i : ℕ} {s s' : Office} {o : Op} {ch : Choice} {l : Hand}

@[simp] theorem shared_after (r : Except Exn o.Ret) (shared : Shared) :
    (s.after o r shared).shared = shared := by
  unfold Office.after
  split <;> rfl

theorem requested_after (r : Except Exn o.Ret) (shared : Shared) :
    s.requested ⊆ (s.after o r shared).requested := by
  unfold Office.after
  split <;> simp

theorem refused_after (r : Except Exn o.Ret) (shared : Shared) (h : s.refused = true) :
    (s.after o r shared).refused = true := by
  unfold Office.after
  split <;> first | rfl | exact h

theorem CleanOk.apart (h : CleanOk trs i s o) : o.Apart := by
  cases o with
  | beginTx c | commitTx c | abortTx c => exact h
  | insert c rows => exact h.1
  | _ => trivial

/-- The rows after an insert of cleaned orphans. -/
theorem rows_insert (hlist : OrphanList trs) {db : Db} {rows : List Row}
    (hrows : ∀ r ∈ rows, ∃ tr ∈ trs, ∃ t : TaskRunRow, r = .taskRun t ∧ t.CopyOf tr ∧
      t.state = tr.row.cleaned) {tr : TaskRunObj} (htr : tr ∈ trs) :
    Db.taskRun (db.upsertAll rows) tr.row.runId = db.taskRun tr.row.runId ∨
      ∃ row, Db.taskRun (db.upsertAll rows) tr.row.runId = some row ∧ row.CopyOf tr ∧
        row.state = tr.row.cleaned := by
  by_cases hw : ∃ b : TaskRunRow, RowKind.toRow b ∈ rows ∧ RowKind.id b = tr.row.runId
  · obtain ⟨t, hm, hid, hget⟩ := Db.get_upsertAll_of_written db hw
    obtain ⟨tr', htr', t', he, hcopy, hstate⟩ := hrows _ hm
    cases he
    obtain rfl : tr' = tr := hlist.eq_of_runId htr' htr (hcopy.runId.symm.trans hid)
    exact Or.inr ⟨t, hget, hcopy, hstate⟩
  · refine Or.inl (Db.get_upsertAll_of_not_written fun b hb he => hw ⟨b, hb, he⟩)

/-- Only a submission makes a job. -/
theorem jobs_after {l : Loc} (hsubmit : ∀ fn, o ≠ .mem (.submit fn)) (r : Except Exn o.Ret) :
    (s.after o r (o.exec i ch l s.shared).2.2).jobs = s.jobs := by
  rw [Office.jobs, Office.jobs, shared_after]
  cases o with
  | mem a => exact Mem.length_queueables_exec fun fn he => hsubmit fn (congrArg Op.mem he)
  | _ => rw [Op.exec_mem (by simp)]

theorem jobs_le_after {l : Loc} (r : Except Exn o.Ret) :
    s.jobs ≤ (s.after o r (o.exec i ch l s.shared).2.2).jobs := by
  by_cases hsubmit : ∃ fn, o = .mem (.submit fn)
  · obtain ⟨fn, rfl⟩ := hsubmit
    rw [Office.jobs, Office.jobs, shared_after]
    simp [Op.exec, Mem.exec]
  · exact (jobs_after (fun fn he => hsubmit ⟨fn, he⟩) r).ge

variable (hlist : OrphanList trs) (h : InHand trs s) (ho : CleanOk trs i s o) (ch : Choice) (l : Loc)
include hlist h ho

theorem cleans_exec : Cleans trs s
    (s.after o (o.exec i ch l s.shared).1 (o.exec i ch l s.shared).2.2) where
  requested := requested_after _ _
  refused := refused_after _ _
  jobs := jobs_le_after _
  cleaned tr htr hc := by
    rw [Cleaned, shared_after]
    rcases h.apart.store ho.apart i ch l with hs | ⟨rows, rfl, _, hs⟩
    · rw [Shared.db, hs]
      exact hc
    · rw [Shared.db, hs, Store.current_append]
      rcases rows_insert hlist ho.2 htr with hsame | ⟨row, hget, _, hstate⟩
      · exact hsame.symm ▸ hc
      · exact ⟨row, hget, hstate⟩

theorem rows_exec {tr : TaskRunObj} (htr : tr ∈ trs) :
    ∃ row, (o.exec i ch l s.shared).2.2.db.taskRun tr.row.runId = some row ∧ row.CopyOf tr ∧
      (row.state = tr.row.state ∨ row.state = tr.row.cleaned) := by
  rcases h.apart.store ho.apart i ch l with hs | ⟨rows, rfl, _, hs⟩
  · rw [Shared.db, hs]
    exact h.rows tr htr
  · rw [Shared.db, hs, Store.current_append]
    rcases rows_insert hlist ho.2 htr with hsame | ⟨row, hget, hcopy, hstate⟩
    · exact hsame.symm ▸ h.rows tr htr
    · exact ⟨row, hget, hcopy, Or.inr hstate⟩

theorem objects_exec {tr : TaskRunObj} (htr : tr ∈ trs) :
    ∃ row, (o.exec i ch l s.shared).2.2.mem.taskRuns[tr.ref]? = some row ∧ row.CopyOf tr := by
  obtain ⟨row, hget, hcopy⟩ := h.objects tr htr
  cases o with
  | mem a =>
    cases a with
    | newTaskRuns rows =>
      refine ⟨row, ?_, hcopy⟩
      exact (List.getElem?_append_left (List.getElem?_eq_some_iff.mp hget).1).trans hget
    | writeTaskRun ref new =>
      obtain ⟨tr', htr', rfl, hnew, _⟩ := ho
      by_cases hr : tr'.ref = tr.ref
      · obtain rfl := hlist.eq_of_ref htr' htr hr
        exact ⟨new, List.getElem?_set_self (List.getElem?_eq_some_iff.mp hget).1, hnew⟩
      · exact ⟨row, (List.getElem?_set_ne hr).trans hget, hcopy⟩
    | _ => exact ⟨row, (congrArg (·[tr.ref]?) (Mem.taskRuns_exec (by simp) (by simp))).trans hget, hcopy⟩
  | _ =>
    rw [Op.exec_mem (by simp)]
    exact ⟨row, hget, hcopy⟩

omit hlist in
theorem requested_exec : ∀ operation ∈ (s.after o (o.exec i ch l s.shared).1
    (o.exec i ch l s.shared).2.2).requested, ∃ tr ∈ abortable trs, operation = tr.row.operationId := by
  intro operation hop
  unfold Office.after at hop
  split at hop
  · rcases List.mem_cons.mp hop with rfl | hop
    · exact ho
    · exact h.requested operation hop
  all_goals exact h.requested operation hop

omit hlist in
theorem queueables_exec (q : ℕ) (e : Queueable)
    (he : (o.exec i ch l s.shared).2.2.mem.queueables[q]? = some e) :
    ∃ tr, (abortable trs)[q]? = some tr ∧ (∃ cell, e.fn = .tryAbortRun cell) ∧
      (e.result.isSome = true → Handled s tr) := by
  cases o with
  | mem a =>
    rcases Mem.getElem?_queueables_exec he with ⟨fn, rfl, rfl, rfl⟩ | ⟨e₀, he₀, _, hfn, _, hresult⟩
    · obtain ⟨_, hfn, hlt⟩ := ho
      exact ⟨_, List.getElem?_eq_getElem hlt, hfn, fun hsome => by cases hsome⟩
    · obtain ⟨tr, htr, hjob, hdone⟩ := h.jobs q e₀ he₀
      refine ⟨tr, htr, hfn ▸ hjob, fun hsome => ?_⟩
      rcases hresult with hsame | ⟨r, rfl, _⟩
      · exact hdone (hsame ▸ hsome)
      · exact ho tr htr
  | _ =>
    rw [Op.exec_mem (by simp)] at he
    exact h.jobs q e he

theorem inHand_exec : InHand trs (s.after o (o.exec i ch l s.shared).1 (o.exec i ch l s.shared).2.2) where
  apart := by
    rw [shared_after]
    exact h.apart.exec ho.apart i ch l
  objects tr htr := by
    rw [shared_after]
    exact objects_exec hlist h ho ch l htr
  rows tr htr := by
    rw [shared_after]
    exact rows_exec hlist h ho ch l htr
  requested := requested_exec h ho ch l
  jobs q e he := by
    rw [shared_after] at he
    obtain ⟨tr, htr, hjob, hdone⟩ := queueables_exec h ho ch l q e he
    have hmem : tr ∈ trs := (List.mem_filter.mp (List.mem_of_getElem? htr)).1
    exact ⟨tr, htr, hjob, fun hsome => (cleans_exec hlist h ho ch l).handled hmem (hdone hsome)⟩

/-- A call that is no submission spares the orphans without a job, as long as thread 0 writes none. -/
theorem spares_exec (hsubmit : ∀ fn, o ≠ .mem (.submit fn))
    (hwrite : ∀ ref row, o = .mem (.writeTaskRun ref row) → i ≠ 0) (r : Except Exn o.Ret) :
    Spares trs s (s.after o r (o.exec i ch l s.shared).2.2) where
  jobs := jobs_after hsubmit r
  objects tr htr hnot := by
    rw [shared_after]
    cases o with
    | mem a =>
      cases a with
      | newTaskRuns rows =>
        obtain ⟨row, hget, _⟩ := h.objects tr htr
        exact List.getElem?_append_left (List.getElem?_eq_some_iff.mp hget).1
      | writeTaskRun ref new =>
        obtain ⟨tr', htr', rfl, _, hmay⟩ := ho
        have hother : tr'.ref ≠ tr.ref := by
          intro he
          obtain rfl := hlist.eq_of_ref htr' htr he
          exact hnot (hmay.resolve_left (hwrite _ _ rfl))
        exact List.getElem?_set_ne hother
      | _ => exact congrArg (·[tr.ref]?) (Mem.taskRuns_exec (by simp) (by simp))
    | _ => rw [Op.exec_mem (by simp)]

/-- What a call of a cleanup owes. -/
theorem owed_exec (ch : Choice) (l : Hand) : Owed (cleaningContract trs) i o l s
    (cleaning.exec o i ch l s).2.1 (cleaning.exec o i ch l s).2.2 where
  inv := inHand_exec hlist h ho ch l.loc
  rely j hj := by
    refine ⟨cleans_exec hlist h ho ch l.loc, ?_⟩
    rintro rfl
    -- only thread 0 submits
    have hsubmit : ∀ fn, o ≠ .mem (.submit fn) := by
      rintro fn rfl
      exact hj ho.1.symm
    exact spares_exec hlist h ho ch l.loc hsubmit (fun _ _ _ => hj.symm) _
  guar := cleans_exec hlist h ho ch l.loc

end Steps

end YtScheduler
