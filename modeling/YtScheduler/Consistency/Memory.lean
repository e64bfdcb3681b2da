import YtScheduler.System.Accesses
import YtScheduler.Consistency.Tables

/-! How the shared state grows, and what the shared memory of the processes satisfies
meanwhile: objects stand for persisted runs, pending operations were started for
their runs, jobs carry updates that keep the tables consistent, and a `set_state` job
with a result has written its rows. Claiming is left out: no job or callback of it may
be in the memory. -/

namespace YtScheduler

open Tablet

namespace Shared

variable (s : Shared)

/-- The run that a TaskRun object stands for. -/
def trIdent (tr : Ref) : Option TaskRunIdent := (s.mem.taskRuns[tr]?).map TaskRunRow.ident

/-- The run that a DagRun object stands for. -/
def runIdent (run : Ref) : Option DagRunIdent := (s.mem.dagRuns[run]?).map DagRunRow.ident

/-- The job of a pool entry. -/
def fn? (q : ℕ) : Option Job := (s.mem.queueables[q]?).map Queueable.fn

end Shared

/-- No step undoes what this relation keeps. -/
structure Grows (s s' : Shared) : Prop where
  knows : Knows s s'
  store : s.store.Extends s'.store
  tables : Persists s.db s'.db
  taskRuns : ∀ tr i, s.trIdent tr = some i → s'.trIdent tr = some i
  dagRuns : ∀ run i, s.runIdent run = some i → s'.runIdent run = some i
  mem : Retains s.mem s'.mem

namespace Grows

variable {s s' s'' : Shared}

theorem refl (s : Shared) : Grows s s :=
  ⟨.refl s, .refl _, .refl _, fun _ _ h => h, fun _ _ h => h, .refl _⟩

theorem trans (h : Grows s s') (h' : Grows s' s'') : Grows s s'' :=
  ⟨h.knows.trans h'.knows, h.store.trans h'.store, h.tables.trans h'.tables,
    fun tr i ht => h'.taskRuns tr i (h.taskRuns tr i ht),
    fun run i hr => h'.dagRuns run i (h.dagRuns run i hr),
    h.mem.trans h'.mem⟩

/-- A step that leaves the tables and the memory alone. -/
theorem of_knows (h : Knows s s') (hs : s'.store = s.store) (hm : s'.mem = s.mem) :
    Grows s s' where
  knows := h
  store := hs ▸ .refl _
  tables := by simpa only [Shared.db, hs] using Persists.refl _
  taskRuns tr i ht := by simpa only [Shared.trIdent, hm] using ht
  dagRuns run i hr := by simpa only [Shared.runIdent, hm] using hr
  mem := hm ▸ .refl _

theorem jobs (h : Grows s s') (q : ℕ) (fn : Job) (hq : s.fn? q = some fn) : s'.fn? q = some fn := by
  obtain ⟨e, he, rfl⟩ := Option.map_eq_some_iff.mp hq
  obtain ⟨e', he', _, hfn, _⟩ := h.mem.entries q e he
  rw [Shared.fn?, he', Option.map_some, hfn]

end Grows

/-! ### Facts that growth keeps -/

/-- The TaskRun has a row. -/
def HasTaskRun (s : Shared) (i : TaskRunIdent) : Prop :=
  ∃ t, s.db.taskRun i.runId = some t ∧ t.ident = i

/-- The DagRun has a row. -/
def HasDagRun (s : Shared) (i : DagRunIdent) : Prop :=
  ∃ run, s.db.dagRun i.runId = some run ∧ run.ident = i

/-- The DagRun has a row that is not SCHEDULED. -/
def Active (s : Shared) (i : DagRunIdent) : Prop :=
  ∃ run, s.db.dagRun i.runId = some run ∧ run.ident = i ∧ run.state ≠ .scheduled

/-- The run id of an update's target. -/
def Names (s : Shared) (runId : Uuid) : Target → Prop
  | .id rid => rid = runId
  | .obj tr => ∃ i, s.trIdent tr = some i ∧ i.runId = runId

/-- The update sets the state `st`, which is not SCHEDULED, and RUNNING only with an operation
that was started for its target. -/
def UpdateOk (s : Shared) (st : TaskRunState) (u : UpdateRow) : Prop :=
  u.state = some st ∧ st ≠ .scheduled ∧
    (st = .running → ∃ runId, Names s runId u.row ∧ s.Started runId u.operationId)

/-- The target of the update is a persisted run. -/
def Targets (s : Shared) (u : UpdateRow) : Prop :=
  ∃ runId t, Names s runId u.row ∧ s.db.taskRun runId = some t

/-- A row of the target was written in the state that the update sets. -/
def Written (s : Shared) (u : UpdateRow) : Prop :=
  ∃ c ∈ s.store.log, ∃ t, .taskRun t ∈ c.rows ∧ Names s t.runId u.row ∧ u.state = some t.state

/-- Updates of a job set one state, which is never QUEUED. -/
def JobOk (s : Shared) : Job → Prop
  | .setState rows => ∃ st, st ≠ .queued ∧ (∀ u ∈ rows, UpdateOk s st u) ∧ ∀ u ∈ rows, Targets s u
  | .queueRunAtomic run dag => ∃ i, s.runIdent run = some i ∧ s.dag? i.dagId = some dag
  | .tryClaimDagruns _ => False
  | .trySetMetasInvalid _ => False
  | _ => True

/-- What a job that returned has done. -/
def ResultOk (s : Shared) : Job → JobResult → Prop
  | .setState rows, _ => ∀ u ∈ rows, u.requires.nonempty = false → Written s u
  | fn, .dagRuns st runs => (∃ shard, fn = .getDagRuns st shard) ∧
      (st ≠ .scheduled → ∀ run ∈ runs, ∃ i, s.runIdent run = some i ∧ Active s i)
  | _, _ => True

def CallbackOk (s : Shared) : Callback → Prop
  | .scheduleDagRuns q => ∃ st shard, s.fn? q = some (.getDagRuns st shard) ∧ st ≠ .scheduled
  | .setInvalid _ _ => False
  | _ => True

/-- A pending operation was started for its run, which has a row. -/
structure PendingOk (s : Shared) (runId : Uuid) (operation : Option OperationId) : Prop where
  started : s.Started runId operation
  persisted : ∃ t, s.db.taskRun runId = some t

structure ServiceOk (s : Shared) (svc : Service) : Prop where
  pending : ∀ it ∈ svc.pendingOperations, PendingOk s it.runId it.value
  taskRuns : ∀ it ∈ svc.pendingTaskRuns, Names s it.runId (.obj it.value)
  callbacks : ∀ cb ∈ svc.callbacks, CallbackOk s cb

structure QueueableOk (s : Shared) (e : Queueable) : Prop where
  fn : JobOk s e.fn
  result : ∀ r, e.result = some (.ok r) → ResultOk s e.fn r
  callback : ∀ svc cb, e.callback = some (svc, cb) → CallbackOk s cb

/-- The memory `m` is consistent with the state `s`. -/
structure MemOk (s : Shared) (m : Mem) : Prop where
  taskRuns : ∀ row ∈ m.taskRuns, HasTaskRun s row.ident
  dagRuns : ∀ row ∈ m.dagRuns, HasDagRun s row.ident
  services : ∀ svc ∈ m.services, ServiceOk s svc
  frames : ∀ f ∈ m.frames, ∀ it ∈ f.remaining, PendingOk s it.runId it.value
  queueables : ∀ e ∈ m.queueables, QueueableOk s e

section Grown

variable {s s' : Shared} (hg : Grows s s')
include hg

theorem HasTaskRun.mono {i : TaskRunIdent} (h : HasTaskRun s i) : HasTaskRun s' i := by
  obtain ⟨t, ht, rfl⟩ := h
  obtain ⟨t', ht', hi, _⟩ := hg.tables.taskRun _ t ht
  exact ⟨t', ht', hi⟩

theorem HasDagRun.mono {i : DagRunIdent} (h : HasDagRun s i) : HasDagRun s' i := by
  obtain ⟨run, hr, rfl⟩ := h
  obtain ⟨run', hr', hi, _⟩ := hg.tables.dagRun _ run hr
  exact ⟨run', hr', hi⟩

theorem Active.mono {i : DagRunIdent} (h : Active s i) : Active s' i := by
  obtain ⟨run, hr, rfl, hs⟩ := h
  obtain ⟨run', hr', hi, hs'⟩ := hg.tables.dagRun _ run hr
  exact ⟨run', hr', hi, hs' hs⟩

theorem Names.mono {runId : Uuid} {target : Target} (h : Names s runId target) :
    Names s' runId target := by
  cases target with
  | id rid => exact h
  | obj tr =>
    obtain ⟨i, hi, hr⟩ := h
    exact ⟨i, hg.taskRuns tr i hi, hr⟩

theorem UpdateOk.mono {st : TaskRunState} {u : UpdateRow} (h : UpdateOk s st u) :
    UpdateOk s' st u := by
  obtain ⟨hst, hne, hrun⟩ := h
  refine ⟨hst, hne, fun hr => ?_⟩
  obtain ⟨runId, hn, hop⟩ := hrun hr
  exact ⟨runId, hn.mono hg, hg.knows.started hop⟩

theorem Targets.mono {u : UpdateRow} (h : Targets s u) : Targets s' u := by
  obtain ⟨runId, t, hn, ht⟩ := h
  obtain ⟨t', ht', _⟩ := hg.tables.taskRun _ t ht
  exact ⟨runId, t', hn.mono hg, ht'⟩

theorem Written.mono {u : UpdateRow} (h : Written s u) : Written s' u := by
  obtain ⟨c, hc, t, ht, hn, hst⟩ := h
  exact ⟨c, hg.store.mem_log hc, t, ht, hn.mono hg, hst⟩

theorem JobOk.mono {fn : Job} (h : JobOk s fn) : JobOk s' fn := by
  cases fn with
  | setState rows =>
    obtain ⟨st, hst, hu, ht⟩ := h
    exact ⟨st, hst, fun u huu => (hu u huu).mono hg, fun u huu => (ht u huu).mono hg⟩
  | queueRunAtomic run dag =>
    obtain ⟨i, hi, hd⟩ := h
    exact ⟨i, hg.dagRuns run i hi, (hg.knows.dag? _).trans hd⟩
  | _ => exact h

theorem ResultOk.mono {fn : Job} {r : JobResult} (h : ResultOk s fn r) : ResultOk s' fn r := by
  have hruns : ∀ {st : DagRunState} {runs : List Ref}, (st ≠ .scheduled → ∀ run ∈ runs,
      ∃ i, s.runIdent run = some i ∧ Active s i) → st ≠ .scheduled → ∀ run ∈ runs,
      ∃ i, s'.runIdent run = some i ∧ Active s' i := by
    intro st runs h hst run hrun
    obtain ⟨i, hi, ha⟩ := h hst run hrun
    exact ⟨i, hg.dagRuns run i hi, ha.mono hg⟩
  cases fn with
  | setState rows => exact fun u hu hreq => (h u hu hreq).mono hg
  | _ =>
    cases r with
    | dagRuns st runs => exact ⟨h.1, hruns h.2⟩
    | _ => trivial

theorem CallbackOk.mono {cb : Callback} (h : CallbackOk s cb) : CallbackOk s' cb := by
  cases cb with
  | scheduleDagRuns q =>
    obtain ⟨st, shard, hq, hst⟩ := h
    exact ⟨st, shard, hg.jobs q _ hq, hst⟩
  | _ => exact h

theorem PendingOk.mono {runId : Uuid} {operation : Option OperationId}
    (h : PendingOk s runId operation) : PendingOk s' runId operation := by
  obtain ⟨t, ht⟩ := h.persisted
  obtain ⟨t', ht', _⟩ := hg.tables.taskRun _ t ht
  exact ⟨hg.knows.started h.started, t', ht'⟩

theorem MemOk.mono {m : Mem} (h : MemOk s m) : MemOk s' m where
  taskRuns row hrow := (h.taskRuns row hrow).mono hg
  dagRuns row hrow := (h.dagRuns row hrow).mono hg
  services svc hsvc := ⟨fun it hit => ((h.services svc hsvc).pending it hit).mono hg,
    fun it hit => ((h.services svc hsvc).taskRuns it hit).mono hg,
    fun cb hcb => ((h.services svc hsvc).callbacks cb hcb).mono hg⟩
  frames f hf it hit := (h.frames f hf it hit).mono hg
  queueables e he := ⟨(h.queueables e he).fn.mono hg,
    fun r hr => ((h.queueables e he).result r hr).mono hg,
    fun svc cb hcb => ((h.queueables e he).callback svc cb hcb).mono hg⟩

end Grown

/-! ### Callbacks -/

/-- The callback was put into a queue by an entry that has a result. -/
def Forwarded (m : Mem) (cb : Callback) : Prop :=
  ∃ (q : ℕ) (e : Queueable) (svc : ℕ), m.queueables[q]? = some e ∧ e.callback = some (svc, cb) ∧
    e.result.isSome = true

theorem Forwarded.mono {m m' : Mem} {cb : Callback} (h : Forwarded m cb) (hr : Retains m m') :
    Forwarded m' cb := by
  obtain ⟨q, e, svc, he, hcb, hres⟩ := h
  obtain ⟨e', he', _, _, hres', hcb'⟩ := hr.entries q e he
  exact ⟨q, e', svc, he', hcb' _ hcb, hres' hres⟩

/-- The update finishes a run whatever its row holds. -/
def UpdateRow.finishes (u : UpdateRow) : Bool :=
  u.state.any (· ∈ TaskRunState.finishedStates) && !u.requires.nonempty

/-- The job finishes the run that the variables of frame `f` of service `svc` name. -/
def Registers (s : Shared) (svc f : ℕ) (fn : Job) : Prop :=
  ∃ fr u, s.mem.frames[f]? = some fr ∧ fr.svc = svc ∧ fn = .setState [u] ∧
    Names s fr.runId u.row ∧ u.finishes = true

/-! ### Accesses to the memory -/

/-- What an access of thread `i` owes. -/
def MemOp.Ok (i : ℕ) (s : Shared) : MemOp → Prop
  | .newTaskRuns rows => ∀ row ∈ rows, HasTaskRun s row.ident
  | .writeTaskRun tr row => HasTaskRun s row.ident ∧ s.trIdent tr = some row.ident
  | .newDagRuns rows => ∀ row ∈ rows, HasDagRun s row.ident
  | .writeDagRun run row => HasDagRun s row.ident ∧ s.runIdent run = some row.ident
  | .addPending _ runId operation tr => PendingOk s runId operation ∧ Names s runId (.obj tr)
  | .nextItem f => MemOp.Handles i s.mem (.nextItem f)
  | .finalize f => Forwarded s.mem (.finalize f)
  | .submit fn => JobOk s fn
  | .setCallback q svc cb => MemOp.Handles i s.mem (.setCallback q svc cb) ∧ CallbackOk s cb ∧
      ∀ f, cb = .finalize f → ∀ fn, s.fn? q = some fn → Registers s svc f fn
  | .setResult q res => ∀ fn r, s.fn? q = some fn → res = .ok r → ResultOk s fn r
  | .forwardCallback q => ∀ e : Queueable, s.mem.queueables[q]? = some e → e.result.isSome = true
  | _ => True

theorem MemOp.Ok.handles {o : MemOp} {i : ℕ} {s : Shared} (h : o.Ok i s) : o.Handles i s.mem := by
  cases o with
  | setCallback q svc cb => exact h.1
  | nextItem f => exact h
  | _ => trivial

section Access

theorem forall_mem_modify {α : Type} {P : α → Prop} {xs : List α} {n : ℕ} {f : α → α}
    (hxs : ∀ x ∈ xs, P x) (hf : ∀ x ∈ xs, P (f x)) : ∀ x ∈ xs.modify n f, P x := by
  intro x hx
  obtain ⟨k, hk, rfl⟩ := List.getElem_of_mem hx
  rw [List.getElem_modify]
  split_ifs
  · exact hf _ (List.getElem_mem _)
  · exact hxs _ (List.getElem_mem _)

theorem forall_mem_set {α : Type} {P : α → Prop} {xs : List α} {n : ℕ} {a : α}
    (hxs : ∀ x ∈ xs, P x) (ha : P a) : ∀ x ∈ xs.set n a, P x := by
  intro x hx
  rcases List.mem_or_eq_of_mem_set hx with hx | rfl
  · exact hxs x hx
  · exact ha

variable {s : Shared} {m : Mem}

theorem MemOk.onService (h : MemOk s m) {svc : ℕ} {f : Service → Service}
    (hf : ∀ svc ∈ m.services, ServiceOk s (f svc)) : MemOk s (m.onService svc f) :=
  ⟨h.taskRuns, h.dagRuns, forall_mem_modify h.services hf, h.frames, h.queueables⟩

theorem ServiceOk.addCallback {svc : Service} (h : ServiceOk s svc) {cb : Callback}
    (hcb : CallbackOk s cb) : ServiceOk s { svc with callbacks := svc.callbacks ++ [cb] } := by
  refine ⟨h.pending, h.taskRuns, fun cb' hcb' => ?_⟩
  rcases List.mem_append.mp hcb' with hcb' | hcb'
  · exact h.callbacks cb' hcb'
  · rwa [List.mem_singleton.mp hcb']

theorem MemOk.forward (h : MemOk s m) (q : ℕ) : MemOk s (m.forward q) := by
  unfold Mem.forward
  split
  · rename_i svc cb hcb
    obtain ⟨e, he, hcb⟩ := Option.bind_eq_some_iff.mp hcb
    exact h.onService fun svc' hsvc => (h.services svc' hsvc).addCallback
      ((h.queueables e (List.mem_of_getElem? he)).callback svc cb hcb)
  · exact h

/-- The step lemma of the memory: an access that is `Ok` keeps it consistent. -/
theorem MemOk.exec (h : MemOk s s.mem) {o : MemOp} {i : ℕ} (ho : o.Ok i s) (pick : ℕ) :
    MemOk s (s.mem.exec i pick o).2 := by
  cases o with
  | newTaskRuns rows =>
    exact ⟨List.forall_mem_append.mpr ⟨h.taskRuns, ho⟩, h.dagRuns, h.services, h.frames,
      h.queueables⟩
  | readTaskRun tr => exact h
  | writeTaskRun tr row =>
    exact ⟨forall_mem_set h.taskRuns ho.1, h.dagRuns, h.services, h.frames, h.queueables⟩
  | newDagRuns rows =>
    exact ⟨h.taskRuns, List.forall_mem_append.mpr ⟨h.dagRuns, ho⟩, h.services, h.frames,
      h.queueables⟩
  | readDagRun run => exact h
  | writeDagRun run row =>
    exact ⟨h.taskRuns, forall_mem_set h.dagRuns ho.1, h.services, h.frames, h.queueables⟩
  | newService =>
    refine ⟨h.taskRuns, h.dagRuns, List.forall_mem_append.mpr ⟨h.services, ?_⟩, h.frames,
      h.queueables⟩
    intro svc hsvc
    rw [List.mem_singleton.mp hsvc]
    exact ⟨by simp, by simp, by simp⟩
  | takeCallback svc =>
    exact h.onService fun svc' hsvc => ⟨(h.services svc' hsvc).pending,
      (h.services svc' hsvc).taskRuns,
      fun cb hcb => (h.services svc' hsvc).callbacks cb (List.mem_of_mem_tail hcb)⟩
  | addPending svc runId operation tr =>
    refine h.onService fun svc' hsvc => ⟨fun it hit => ?_, fun it hit => ?_,
      (h.services svc' hsvc).callbacks⟩
    · rcases Table.mem_put hit with rfl | hit
      · exact ho.1
      · exact (h.services svc' hsvc).pending it hit
    · rcases Table.mem_put hit with rfl | hit
      · exact ho.2
      · exact (h.services svc' hsvc).taskRuns it hit
  | pendingTaskRun svc runId => exact h
  | addCreated svc n =>
    exact h.onService fun svc' hsvc => ⟨(h.services svc' hsvc).pending,
      (h.services svc' hsvc).taskRuns, (h.services svc' hsvc).callbacks⟩
  | takeCreated svc =>
    exact h.onService fun svc' hsvc => ⟨(h.services svc' hsvc).pending,
      (h.services svc' hsvc).taskRuns, (h.services svc' hsvc).callbacks⟩
  | openFrame svc =>
    refine ⟨h.taskRuns, h.dagRuns, h.services, List.forall_mem_append.mpr ⟨h.frames, ?_⟩,
      h.queueables⟩
    intro f hf it hit
    rw [List.mem_singleton.mp hf] at hit
    cases hsvc : s.mem.services[svc]? with
    | none => simp [hsvc] at hit
    | some svc' =>
      simp only [hsvc, Option.map_some, Option.getD_some] at hit
      exact (h.services svc' (List.mem_of_getElem? hsvc)).pending it hit
  | nextItem frame =>
    simp only [Mem.exec]
    split
    · rename_i thread svc runId item items hf
      refine ⟨h.taskRuns, h.dagRuns, h.services, forall_mem_set h.frames fun it hit => ?_,
        h.queueables⟩
      exact h.frames _ (List.mem_of_getElem? hf) it (List.mem_cons_of_mem _ hit)
    · exact h
  | finalize frame =>
    simp only [Mem.exec]
    split
    · exact h.onService fun svc' hsvc => ⟨fun it hit =>
        (h.services svc' hsvc).pending it (List.mem_of_mem_filter hit),
        fun it hit => (h.services svc' hsvc).taskRuns it (List.mem_of_mem_filter hit),
        (h.services svc' hsvc).callbacks⟩
    · exact h
  | newCell => exact ⟨h.taskRuns, h.dagRuns, h.services, h.frames, h.queueables⟩
  | setCell cell tr => exact ⟨h.taskRuns, h.dagRuns, h.services, h.frames, h.queueables⟩
  | getCell cell => exact h
  | submit fn =>
    refine ⟨h.taskRuns, h.dagRuns, h.services, h.frames,
      List.forall_mem_append.mpr ⟨h.queueables, ?_⟩⟩
    intro e he
    rw [List.mem_singleton.mp he]
    exact ⟨ho, by simp, by simp⟩
  | takeJob =>
    simp only [Mem.exec]
    split
    · split
      · exact ⟨h.taskRuns, h.dagRuns, h.services, h.frames, h.queueables⟩
      · exact h
    · exact h
  | setCallback q svc cb =>
    refine ⟨h.taskRuns, h.dagRuns, h.services, h.frames,
      forall_mem_modify h.queueables fun e he => ⟨(h.queueables e he).fn,
        (h.queueables e he).result, fun svc' cb' hcb => ?_⟩⟩
    cases hcb
    exact ho.2.1
  | forwardIfDone q =>
    simp only [Mem.exec]
    split_ifs
    · exact h.forward q
    · exact h
  | setResult q result =>
    refine ⟨h.taskRuns, h.dagRuns, h.services, h.frames, fun e he => ?_⟩
    simp only [Mem.exec] at he
    obtain ⟨k, hk, rfl⟩ := List.getElem_of_mem he
    rw [List.getElem_modify]
    have hk' : k < s.mem.queueables.length := by simpa using hk
    have hold := h.queueables _ (List.getElem_mem hk')
    split_ifs with hq
    · have hfn : s.fn? q = some (s.mem.queueables[k]).fn := by
        simp [Shared.fn?, hq, List.getElem?_eq_getElem hk']
      exact ⟨hold.fn, fun r hr => ho _ r hfn (by simpa using hr), hold.callback⟩
    · exact hold
  | forwardCallback q => exact h.forward q
  | result q => exact h

theorem MemOp.Ok.trIdent {o : MemOp} {i : ℕ} (ho : o.Ok i s) (pick : ℕ) {tr : Ref}
    {j : TaskRunIdent} (ht : s.trIdent tr = some j) :
    (((s.mem.exec i pick o).2.taskRuns[tr]?).map TaskRunRow.ident) = some j := by
  cases o with
  | newTaskRuns rows =>
    obtain ⟨row, hrow, rfl⟩ := Option.map_eq_some_iff.mp ht
    have hlt := (List.getElem?_eq_some_iff.mp hrow).1
    simp only [Mem.exec, List.getElem?_append_left hlt, hrow, Option.map_some]
  | writeTaskRun tr' row =>
    by_cases he : tr' = tr
    · subst he
      rw [ho.2] at ht
      cases ht
      obtain ⟨row', hrow', _⟩ := Option.map_eq_some_iff.mp ho.2
      have hlt := (List.getElem?_eq_some_iff.mp hrow').1
      simp only [Mem.exec, List.getElem?_set_self hlt, Option.map_some]
    · simp only [Mem.exec, List.getElem?_set_ne he]
      exact ht
  | _ => rwa [Mem.taskRuns_exec (by simp) (by simp)]

theorem MemOp.Ok.runIdent {o : MemOp} {i : ℕ} (ho : o.Ok i s) (pick : ℕ) {run : Ref}
    {j : DagRunIdent} (hr : s.runIdent run = some j) :
    (((s.mem.exec i pick o).2.dagRuns[run]?).map DagRunRow.ident) = some j := by
  cases o with
  | newDagRuns rows =>
    obtain ⟨row, hrow, rfl⟩ := Option.map_eq_some_iff.mp hr
    have hlt := (List.getElem?_eq_some_iff.mp hrow).1
    simp only [Mem.exec, List.getElem?_append_left hlt, hrow, Option.map_some]
  | writeDagRun run' row =>
    by_cases he : run' = run
    · subst he
      rw [ho.2] at hr
      cases hr
      obtain ⟨row', hrow', _⟩ := Option.map_eq_some_iff.mp ho.2
      have hlt := (List.getElem?_eq_some_iff.mp hrow').1
      simp only [Mem.exec, List.getElem?_set_self hlt, Option.map_some]
    · simp only [Mem.exec, List.getElem?_set_ne he]
      exact hr
  | _ => rwa [Mem.dagRuns_exec (by simp) (by simp)]

/-- No access changes what an object stands for, or the job of a pool entry. -/
theorem MemOp.Ok.grows {o : MemOp} {i : ℕ} (ho : o.Ok i s) (pick : ℕ) :
    Grows s { s with mem := (s.mem.exec i pick o).2 } where
  knows := ⟨le_refl _, fun _ h => h, rfl, rfl⟩
  store := .refl _
  tables := .refl _
  taskRuns _ _ ht := ho.trIdent pick ht
  dagRuns _ _ hr := ho.runIdent pick hr
  mem := ho.handles.retains pick

/-- A callback is queued only when the entry that it was set for has a result. -/
theorem MemOp.Ok.forwarded {o : MemOp} {i : ℕ} (ho : o.Ok i s) (pick : ℕ)
    (h : ∀ svc ∈ s.mem.services, ∀ cb ∈ svc.callbacks, Forwarded s.mem cb) :
    ∀ svc ∈ (s.mem.exec i pick o).2.services, ∀ cb ∈ svc.callbacks,
      Forwarded (s.mem.exec i pick o).2 cb := by
  intro svc hsvc cb hcb
  have hret := ho.handles.retains pick
  rcases Mem.mem_callbacks_exec hsvc hcb with ⟨svc₀, h₀, hcb₀⟩ |
    ⟨q, e, k, he, hcb', rfl | ⟨_, hres⟩⟩
  · exact (h svc₀ h₀ cb hcb₀).mono hret
  · exact Forwarded.mono ⟨q, e, k, he, hcb', ho e he⟩ hret
  · exact Forwarded.mono ⟨q, e, k, he, hcb', hres⟩ hret

end Access

end YtScheduler
