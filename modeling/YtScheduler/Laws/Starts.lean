import YtScheduler.Services.Updates
import YtScheduler.Laws.Progress

/-! Starting an operation. The call that starts it and the one that marks the DagRun RUNNING share
a `try`, so when the second fails the TaskRun is written FAILED and the operation is not recorded.
That is the only way to lose it, whatever fails: the exception is an operation that an earlier call
already recorded, while the TaskRun cannot be written either. -/

namespace YtScheduler

open Tablet Threads

/-- Service `svc` knows the operation of a run. -/
def Recorded (s : Shared) (svc : ℕ) (runId : Uuid) (operation : OperationId) : Prop :=
  ∃ service, s.mem.services[svc]? = some service ∧
    ⟨runId, some operation⟩ ∈ service.pendingOperations

/-- Some commit made since `s` wrote the TaskRun of this run FAILED. -/
def WrittenFailed (s s' : Shared) (runId : Uuid) : Prop :=
  ∃ c ∈ s'.store.since s.store.now, ∃ row : TaskRunRow, .taskRun row ∈ c.rows ∧ row.runId = runId ∧
    row.state = .failed

/-- The operation that was started for the run, if any, is recorded, and the TaskRun was not written
FAILED. -/
def OperationKept (s s' : Shared) (svc : ℕ) (runId : Uuid) : Prop :=
  ∀ operation, s'.operations = (operation, runId) :: s.operations →
    Recorded s' svc runId operation ∧ ¬WrittenFailed s s' runId

/-- The call is the upsert that marks a DagRun RUNNING. -/
def MarksRunning (o : Op) : Prop := ∃ row, o = .insert none [.dagRun row] ∧ row.state = .running

/-- The call is the upsert that marks a TaskRun FAILED. -/
def MarksFailed (o : Op) : Prop :=
  ∃ rows, o = .insert none rows ∧ ∃ row : TaskRunRow, .taskRun row ∈ rows ∧ row.state = .failed

section Conditions

variable {κ : Type} (env : Environment Op Choice κ) (svc : ℕ) (runId : Uuid)

/-- The DagRun can be marked RUNNING. -/
def RunningMarked (o : Op) (t : κ × Loc × Shared) : Prop :=
  MarksRunning o → (env.choose t.1 o).fail = none

/-- Where the DagRun is marked RUNNING the operation just started is already recorded, and the
TaskRun cannot be marked FAILED. -/
def AlreadyKnown (o : Op) (t : κ × Loc × Shared) : Prop :=
  (MarksRunning o → ∃ operation, t.2.2.operations.head? = some (operation, runId) ∧
    Recorded t.2.2 svc runId operation) ∧
  (MarksFailed o → (env.choose t.1 o).fail ≠ none)

end Conditions

/-! ### What the calls keep -/

/-- The call starts no operation, leaves the maps of the executors alone, and marks no DagRun
RUNNING. -/
def Aside : Op → Prop
  | .insert _ rows => ∀ row : DagRunRow, rows = [.dagRun row] → row.state ≠ .running
  | .runOperation _ => False
  | .mem (.newTaskRuns _) | .mem (.readTaskRun _) | .mem (.writeTaskRun _ _) | .mem (.newDagRuns _)
  | .mem (.readDagRun _) | .mem (.writeDagRun _ _) => True
  | .mem _ => False
  | _ => True

/-- The calls of `_get_task_run_manifest`. -/
def Looks : Op → Prop
  | .insert c rows => c = none ∧ ∃ row : DagRunRow, rows = [.dagRun row] ∧ row.state = .failed
  | .mem (.readTaskRun _) | .mem (.newDagRuns _) | .mem (.readDagRun _) | .mem (.writeDagRun _ _) =>
    True
  | .select _ _ | .loadTask _ _ | .now => True
  | _ => False

section Calls

variable {o : Op} {us : List UpdateRow} {i : ℕ} {ch : Choice} {l : Loc} {s : Shared}

theorem Looks.aside (h : Looks o) : Aside o := by
  cases o with
  | insert c rows =>
    obtain ⟨_, row, rfl, hfailed⟩ := h
    rintro row' he hrunning
    cases he
    rw [hfailed] at hrunning
    cases hrunning
  | mem a => cases a <;> first | exact h.elim | trivial
  | _ => first | exact h.elim | trivial

theorem TaskRun.Makes.aside (h : TaskRun.Makes us o) : Aside o := by
  cases o with
  | insert c rows =>
    rintro row rfl
    obtain ⟨u, _, _, _, he⟩ := h.2 _ List.mem_cons_self
    cases he
  | mem a => cases a <;> first | exact h.elim | trivial
  | _ => first | exact h.elim | trivial

theorem Aside.not_marksRunning (h : Aside o) : ¬MarksRunning o := by
  rintro ⟨row, rfl, hstate⟩
  exact h row rfl hstate

theorem Aside.operations (h : Aside o) : (o.exec i ch l s).2.2.operations = s.operations := by
  cases o with
  | runOperation runId => exact h.elim
  | insert c rows =>
    simp only [Op.exec]
    split
    · rfl
    · unfold Shared.insert
      split <;> rfl
  | _ => first | rfl | (simp only [Op.exec]; (repeat' split) <;> rfl)

theorem Aside.services (h : Aside o) : (o.exec i ch l s).2.2.mem.services = s.mem.services := by
  cases o with
  | mem a => cases a <;> first | exact h.elim | rfl
  | _ => rw [Op.exec_mem (by simp)]

theorem Looks.taskRuns (h : Looks o) : (o.exec i ch l s).2.2.mem.taskRuns = s.mem.taskRuns := by
  cases o with
  | mem a => cases a <;> first | exact h.elim | rfl
  | _ => rw [Op.exec_mem (by simp)]

theorem Looks.not_marksFailed (h : Looks o) : ¬MarksFailed o := by
  rintro ⟨rows, rfl, row, hrow, _⟩
  obtain ⟨_, _, rfl, _⟩ := h
  cases List.mem_singleton.mp hrow

end Calls

/-- The call commits on the global client and writes outside of it, and what it writes, if it does
not fail, is no TaskRun FAILED. -/
def Harmless {κ : Type} (env : Environment Op Choice κ) (o : Op) (t : κ × Loc × Shared) : Prop :=
  match o with
  | .beginTx c | .commitTx c | .abortTx c => c = some .global
  | .insert c rows => c = none ∧ ((env.choose t.1 (.insert c rows)).fail = none →
      ∀ row : TaskRunRow, .taskRun row ∈ rows → row.state ≠ .failed)
  | _ => True

/-- Thread `i` has no transaction with writes, and wrote no TaskRun of the run FAILED since `s`. -/
structure Unfailed (i : ℕ) (s : Shared) (runId : Uuid) (s' : Shared) : Prop where
  closed : s'.opened (.thread i) = []
  unwritten : ∀ x ∈ s'.opened .global, x.1 = i → x.2.writes = []
  grown : s.store.Extends s'.store
  notWritten : ¬WrittenFailed s s' runId

namespace Unfailed

variable {κ : Type} {env : Environment Op Choice κ} {i : ℕ} {s : Shared} {runId : Uuid} {o : Op}
  {t : κ × Loc × Shared}

theorem start (hopen : s.opened (.thread i) = []) (hglobal : ∀ x ∈ s.opened .global, x.1 ≠ i) :
    Unfailed i s runId s := by
  refine ⟨hopen, fun x hx hmine => absurd hmine (hglobal x hx), .refl _, ?_⟩
  rintro ⟨c, hc, _⟩
  rw [Store.since, Nat.sub_self] at hc
  cases hc

/-- What is open on the global client is not open on the client of the thread. -/
theorem closed_exec (h : t.2.2.opened (.thread i) = []) (ho : Harmless env o t) :
    (o.exec i (env.choose t.1 o) t.2.1 t.2.2).2.2.opened (.thread i) = [] := by
  have hother : ∀ s₁ : Shared, (∃ txs, s₁.opened = Function.update t.2.2.opened .global txs) →
      s₁.opened (.thread i) = [] := by
    rintro s₁ ⟨txs, hs₁⟩
    rw [hs₁, Function.update_of_ne (show Client.thread i ≠ .global by nofun), h]
  cases o with
  | beginTx c =>
    obtain rfl : c = some .global := ho
    simp only [Op.exec]
    split
    · exact h
    · exact hother _ ⟨_, rfl⟩
  | commitTx c =>
    obtain rfl : c = some .global := ho
    simp only [Op.exec]
    repeat' split
    · exact h
    all_goals exact hother _ ⟨_, rfl⟩
  | abortTx c =>
    obtain rfl : c = some .global := ho
    exact hother _ ⟨_, rfl⟩
  | insert c rows =>
    obtain rfl : c = none := ho.1
    simp only [Op.exec]
    split
    · exact h
    · rw [Shared.insert, Op.resolve, Option.getD_none, h]
      exact h
  | _ => first | exact h | (simp only [Op.exec]; (repeat' split) <;> exact h)

/-- The step lemma. -/
theorem step (h : Unfailed i s runId t.2.2) (ho : Harmless env o t) :
    Unfailed i s runId (system.alone i env o t).2.2.2 := by
  have hwrites : ∀ c rows, o = .insert c rows → (env.choose t.1 o).fail ≠ none ∨
      t.2.2.opened (Op.resolve c i) = [] := by
    rintro c rows rfl
    obtain rfl : c = none := ho.1
    exact Or.inr h.closed
  refine ⟨?_, fun x hx hmine => ?_, ?_, ?_⟩
  · exact closed_exec h.closed ho
  · rcases Op.exec_opened hwrites hx with hx | rfl
    · exact h.unwritten x hx hmine
    · rfl
  · rcases Op.exec_store o i (env.choose t.1 o) t.2.1 t.2.2 with
      hsame | ⟨c, rows, _, _, _, hs⟩ | ⟨c, tx, _, _, _, _, _, hs⟩
    · exact hsame.symm ▸ h.grown
    · exact hs.symm ▸ h.grown.trans (.append _ _)
    · exact hs.symm ▸ h.grown.trans (.append _ _)
  · rcases Op.exec_store o i (env.choose t.1 o) t.2.1 t.2.2 with
      hsame | ⟨c, rows, rfl, hok, _, hs⟩ | ⟨c, tx, rfl, _, htx, hwritten, _, _⟩
    · rw [WrittenFailed, show (system.alone i env o t).2.2.2.store = _ from hsame]
      exact h.notWritten
    · rw [WrittenFailed, show (system.alone i env (.insert c rows) t).2.2.2.store = _ from hs,
        Store.since_append h.grown.now_le]
      rintro ⟨c', hc', row, hrow, hid, hfailed⟩
      rcases List.mem_cons.mp hc' with rfl | hc'
      · exact ho.2 hok row hrow hfailed
      · exact h.notWritten ⟨c', hc', row, hrow, hid, hfailed⟩
    · obtain rfl : c = some .global := ho
      obtain ⟨x, hx, rfl⟩ := Option.map_eq_some_iff.mp htx
      have hmine : x.1 = i := by simpa using List.find?_some hx
      exact absurd (h.unwritten x (List.mem_of_find?_eq_some hx) hmine) hwritten

/-- The run lemma. -/
theorem ends {α : Type} {p : P α} {r : Except Exn α} {t' : κ × Loc × Shared}
    (hends : p.Ends (system.alone i env) t r t') (hsure : p.Sure (system.alone i env) (Harmless env) t)
    (h : Unfailed i s runId t.2.2) : Unfailed i s runId t'.2.2 :=
  hends.keeps_of_sure (P := fun t => Unfailed i s runId t.2.2) (fun _ _ _ ho ht => ht.step ho)
    (p.uses_true) hsure h

/-- Outside a transaction an upsert is a commit at once. -/
theorem writtenFailed_insert {s' : Shared} {id : Uuid} {row : TaskRunRow} (h : Unfailed i s id s')
    (hrow : row.state = .failed) :
    WrittenFailed s (s'.insert i (.thread i) [.taskRun row]) row.runId := by
  have hstore : (s'.insert i (.thread i) [.taskRun row]).store =
      s'.store.append ⟨i, false, s'.store.now, [.taskRun row]⟩ := by
    rw [Shared.insert, h.closed]
    rfl
  refine ⟨⟨i, false, s'.store.now, [.taskRun row]⟩, ?_, row, List.mem_cons_self, rfl, hrow⟩
  rw [hstore, Store.since_append h.grown.now_le]
  exact List.mem_cons_self

end Unfailed

theorem Looks.harmless {κ : Type} (env : Environment Op Choice κ) {o : Op} (h : Looks o)
    (t : κ × Loc × Shared) : Harmless env o t := by
  cases o with
  | insert c rows =>
    obtain ⟨hc, row, rfl, _⟩ := h
    exact ⟨hc, fun _ row' hrow' => by cases List.mem_singleton.mp hrow'⟩
  | _ => first | exact h.elim | trivial

theorem Looks.runningMarked {κ : Type} (env : Environment Op Choice κ) {o : Op} (h : Looks o)
    (t : κ × Loc × Shared) : RunningMarked env o t :=
  fun hm => absurd hm h.aside.not_marksRunning

theorem TaskRun.Makes.harmless {κ : Type} (env : Environment Op Choice κ) {us : List UpdateRow}
    {o : Op} (h : TaskRun.Makes us o)
    (hstates : ∀ u ∈ us, ∃ state, u.state = some state ∧ state ≠ .failed) (t : κ × Loc × Shared) :
    Harmless env o t := by
  cases o with
  | insert c rows =>
    refine ⟨h.1, fun _ row hrow => ?_⟩
    obtain ⟨u, hu, base, now, he⟩ := h.2 _ hrow
    obtain ⟨state, hstate, hne⟩ := hstates u hu
    rw [Row.taskRun.inj he, hstate, TaskRunRow.state_buildRow]
    exact hne
  | mem a => trivial
  | _ => first | exact h | exact h.elim | trivial

/-! ### The parts of the call -/

namespace Executor

open P

theorem uses_ignoring_setState (us : List UpdateRow) :
    (ignoring (TaskRunClient.setState us)).Uses (TaskRun.Makes us) := by
  refine Prog.Uses.catching (Prog.Uses.bind ?_ fun _ => trivial) fun _ => trivial
  exact uses_handleExceptions (TaskRun.uses_setState us)

theorem uses_getTaskRunManifest (row : TaskRunRow) : (getTaskRunManifest row).Uses Looks := by
  have hget : (DagRunClient.get row.dagrunId).Uses Looks := by
    refine uses_handleExceptions (Prog.Uses.bind ?_ fun runs => ?_)
    · exact Prog.Uses.bind (Prog.Uses.op trivial) fun _ => Prog.Uses.bind (Prog.Uses.op trivial)
        fun _ => trivial
    · split <;> trivial
  have hfail : ∀ run, (failDagRun run).Uses Looks := by
    intro run
    cases run with
    | none => trivial
    | some run =>
      refine Prog.Uses.catching (Prog.Uses.bind ?_ fun _ => trivial) fun _ => trivial
      refine uses_handleExceptions (Prog.Uses.bind (Prog.Uses.op trivial) fun base => ?_)
      refine Prog.Uses.bind (Prog.Uses.bind (Prog.Uses.op trivial) fun _ => trivial) fun now => ?_
      refine Prog.Uses.bind (Prog.Uses.op ?_) fun _ => Prog.Uses.op trivial
      exact ⟨rfl, _, rfl, DagRunRow.state_buildRowByState _ _ _⟩
  refine hget.bind fun run => Prog.Uses.bind (Prog.Uses.attempt (Prog.Uses.op trivial)) fun r => ?_
  split
  · trivial
  · exact (hfail run).bind fun _ => trivial
  · trivial

theorem uses_isFailed (run : Option DagRunObj) : (isFailed run).Uses Looks := by
  cases run with
  | none => trivial
  | some run => exact Prog.Uses.bind (Prog.Uses.op trivial) fun _ => trivial

/-- What follows the operation of a TaskRun: it is recorded and the TaskRun marked RUNNING, or the
TaskRun is marked FAILED. -/
def afterOperation (svc : ℕ) (tr : Ref) (runId : Uuid) : Except Exn OperationId → P Unit
  | .error _ => ignoring (TaskRunClient.setState [{ row := .obj tr, state := some .failed }])
  | .ok operation => do
    mem (.addPending svc runId (some operation) tr)
    ignoring (TaskRunClient.setState
      [{ row := .obj tr, state := some .running, operationId := some operation,
         requires := { state := some (.eq .queued) } }])

/-- What `_start_taskrun` does with the manifest. -/
def withManifest (svc : ℕ) (tr : Ref) (runId : Uuid) (m : Option Task × Option DagRunObj)
    (failed : Bool) : P Unit :=
  if failed then
    ignoring (TaskRunClient.setState
      [{ row := .obj tr, state := some .skipped, requires := { state := some (.eq .queued) } }])
  else match m.1, m.2 with
    | some _, some run => (runOperation runId run.ref).attempt.bind (afterOperation svc tr runId)
    | _, _ => pure ()

theorem startTaskrun_eq (svc : ℕ) (tr : Ref) :
    startTaskrun svc tr = (mem (.readTaskRun tr)).bind fun row =>
      (getTaskRunManifest row).bind fun m => (isFailed m.2).bind (withManifest svc tr row.runId m) := by
  rfl

/-! ### Its outcomes -/

section Outcomes

variable {κ : Type} {env : Environment Op Choice κ} {i svc : ℕ} {tr : Ref} {runId : Uuid}
  {t t' : κ × Loc × Shared} {r : Except Exn Unit}

/-- Operations, maps and TaskRuns are the same. -/
structure SameBooks (t t' : κ × Loc × Shared) : Prop where
  operations : t'.2.2.operations = t.2.2.operations
  services : t'.2.2.mem.services = t.2.2.mem.services
  taskRuns : t'.2.2.mem.taskRuns = t.2.2.mem.taskRuns

theorem SameBooks.of_looks {α : Type} {p : P α} {r : Except Exn α} (hp : p.Uses Looks)
    (h : p.Ends (system.alone i env) t r t') : SameBooks t t' :=
  h.keeps_of_uses (P := SameBooks t) (fun _ _ ho hs => ⟨ho.aside.operations.trans hs.operations,
    ho.aside.services.trans hs.services, ho.taskRuns.trans hs.taskRuns⟩) hp ⟨rfl, rfl, rfl⟩

/-- A call of `set_state` starts no operation. -/
theorem idle_setState {us : List UpdateRow}
    (h : (ignoring (TaskRunClient.setState us)).Ends (system.alone i env) t r t') :
    t'.2.2.operations = t.2.2.operations ∧ t'.2.2.mem.services = t.2.2.mem.services ∧
      (ignoring (TaskRunClient.setState us)).Sure (system.alone i env) (RunningMarked env) t := by
  have hu := uses_ignoring_setState us
  refine ⟨?_, ?_, hu.sure fun o s ho hm => absurd hm ho.aside.not_marksRunning⟩
  · exact h.keeps_of_uses (P := fun s => s.2.2.operations = t.2.2.operations)
      (fun _ _ ho hs => ho.aside.operations.trans hs) hu rfl
  · exact h.keeps_of_uses (P := fun s => s.2.2.mem.services = t.2.2.mem.services)
      (fun _ _ ho hs => ho.aside.services.trans hs) hu rfl

/-- The answer of the `try` of `_start_taskrun`, by whether the upsert of the DagRun fails. -/
def answered (operation : OperationId) : Option Exn → Except Exn OperationId
  | none => .ok operation
  | some e => .error e

/-- An operation was started before `t₁`, where the DagRun is marked RUNNING by the upsert of `row`. -/
structure Started (env : Environment Op Choice κ) (i svc : ℕ) (tr : Ref) (runId : Uuid)
    (p : P Unit) (t : κ × Loc × Shared) (r : Except Exn Unit) (t' : κ × Loc × Shared)
    (operation : OperationId) (row : DagRunRow) (t₁ : κ × Loc × Shared) : Prop where
  state : row.state = .running
  operations : t₁.2.2.operations = (operation, runId) :: t.2.2.operations
  services : t₁.2.2.mem.services = t.2.2.mem.services
  rest : ∃ t₂, t₂.2.2.operations = (operation, runId) :: t.2.2.operations ∧
    t₂.2.2.mem.services = t.2.2.mem.services ∧ t₂.2.2.mem.taskRuns = t.2.2.mem.taskRuns ∧
    (∀ s id, Unfailed i s id t.2.2 → Unfailed i s id t₂.2.2) ∧
    (afterOperation svc tr runId (answered operation
      (env.choose t₁.1 (.insert none [.dagRun row])).fail)).Ends (system.alone i env) t₂ r t' ∧
    ∀ C : Op → κ × Loc × Shared → Prop, (∀ o t, Looks o → C o t) → (∀ id t, C (.runOperation id) t) →
      (p.Sure (system.alone i env) C t ↔ C (.insert none [.dagRun row]) t₁ ∧
        (afterOperation svc tr runId (answered operation
          (env.choose t₁.1 (.insert none [.dagRun row])).fail)).Sure (system.alone i env) C t₂)

/-- An upsert that fails changes nothing. -/
theorem ends_upsert_error {rows : List Row} {e : Exn}
    (hfail : (env.choose t.1 (.insert none rows)).fail = some e) :
    (upsertRows rows none).Ends (system.alone i env) t (.error e)
      (env.next t.1 (.insert none rows), t.2) :=
  Prog.ends_op (by simp [Machine.alone, system, Op.exec, hfail])

theorem ends_upsert {rows : List Row} (hfail : (env.choose t.1 (.insert none rows)).fail = none) :
    (upsertRows rows none).Ends (system.alone i env) t (.ok ())
      (env.next t.1 (.insert none rows), t.2.1, t.2.2.insert i (.thread i) rows) :=
  Prog.ends_op (by simp [Machine.alone, system, Op.exec, hfail, Op.resolve])

/-- Marking a DagRun RUNNING fails only if its upsert does. -/
theorem exists_markRunning {run : Ref} {base : DagRunRow}
    (hrun : t.2.2.mem.dagRuns[run]? = some base) :
    ∃ (row : DagRunRow) (t₁ t₂ : κ × Loc × Shared), row.state = .running ∧ SameBooks t t₁ ∧
      SameBooks t t₂ ∧ (DagRun.setState run .running).Ends (system.alone i env) t
        ((env.choose t₁.1 (.insert none [.dagRun row])).fail.elim (.ok ()) .error) t₂ ∧
      ∀ C : Op → κ × Loc × Shared → Prop, (∀ o t, Looks o → C o t) →
        ((DagRun.setState run .running).Sure (system.alone i env) C t ↔
          C (.insert none [.dagRun row]) t₁) := by
  obtain ⟨k, l, s⟩ := t
  let k₁ := env.next k (.mem (.readDagRun run))
  let t₁ : κ × Loc × Shared := (env.next k₁ .now, l, { s with clock := s.clock + 1 })
  let row := base.buildRowByState .running ⟨s.clock, false⟩
  have hread : (mem (.readDagRun run)).Ends (system.alone i env) (k, l, s) (.ok base) (k₁, l, s) :=
    Prog.ends_op (by simp [Machine.alone, system, Op.exec, Mem.exec, hrun, k₁])
  have hnow : utcnow.Ends (system.alone i env) (k₁, l, s) (.ok ⟨s.clock, false⟩) t₁ :=
    Prog.Ends.bind (Prog.ends_op rfl) (Prog.ends_ret _ _)
  have hsure : ∀ C : Op → κ × Loc × Shared → Prop, (∀ o t, Looks o → C o t) →
      ((mem (.readDagRun run)).Sure (system.alone i env) C (k, l, s) ∧
        utcnow.Sure (system.alone i env) C (k₁, l, s)) := by
    intro C hlook
    refine ⟨Prog.sure_op.mpr (hlook _ _ trivial), ?_⟩
    have htime : utcnow.Uses Looks := Prog.Uses.bind (Prog.Uses.op trivial) fun _ => trivial
    exact htime.sure hlook
  cases hfail : (env.choose t₁.1 (.insert none [.dagRun row])).fail with
  | some e =>
    have hupsert := ends_upsert_error (i := i) hfail
    refine ⟨row, t₁, (env.next t₁.1 (.insert none [.dagRun row]), t₁.2),
      DagRunRow.state_buildRowByState _ _ _, ⟨rfl, rfl, rfl⟩, ⟨rfl, rfl, rfl⟩, ?_, ?_⟩
    · rw [hfail]
      exact hread.bind (hnow.bind hupsert.bind_error)
    · intro C hlook
      refine (Prog.sure_bind hread).trans ((and_iff_right (hsure C hlook).1).trans ?_)
      refine (Prog.sure_bind hnow).trans ((and_iff_right (hsure C hlook).2).trans ?_)
      exact (Prog.sure_bind_error hupsert).trans Prog.sure_op
  | none =>
    let t₂ : κ × Loc × Shared :=
      (env.next t₁.1 (.insert none [.dagRun row]), l, t₁.2.2.insert i (.thread i) [.dagRun row])
    have hupsert : (upsertRows [.dagRun row] none).Ends (system.alone i env) t₁ (.ok ()) t₂ :=
      ends_upsert hfail
    have hwrite : (mem (.writeDagRun run row)).Ends (system.alone i env) t₂ (.ok ())
        (system.alone i env (.mem (.writeDagRun run row)) t₂).2 := Prog.ends_op rfl
    have hops : (t₁.2.2.insert i (.thread i) [.dagRun row]).operations = s.operations := by
      unfold Shared.insert
      split <;> rfl
    have hmem : (t₁.2.2.insert i (.thread i) [.dagRun row]).mem = s.mem := by
      unfold Shared.insert
      split <;> rfl
    refine ⟨row, t₁, (system.alone i env (.mem (.writeDagRun run row)) t₂).2,
      DagRunRow.state_buildRowByState _ _ _, ⟨rfl, rfl, rfl⟩, ⟨hops, ?_, ?_⟩, ?_, ?_⟩
    · show (t₁.2.2.insert i (.thread i) [.dagRun row]).mem.services = s.mem.services
      rw [hmem]
    · show (t₁.2.2.insert i (.thread i) [.dagRun row]).mem.taskRuns = s.mem.taskRuns
      rw [hmem]
    · rw [hfail]
      exact hread.bind (hnow.bind (hupsert.bind hwrite))
    · intro C hlook
      refine (Prog.sure_bind hread).trans ((and_iff_right (hsure C hlook).1).trans ?_)
      refine (Prog.sure_bind hnow).trans ((and_iff_right (hsure C hlook).2).trans ?_)
      refine (Prog.sure_bind hupsert).trans ?_
      have hwritten : (mem (.writeDagRun run row)).Sure (system.alone i env) C t₂ :=
        Prog.sure_op.mpr (hlook (.mem (.writeDagRun run row)) t₂ trivial)
      exact (and_iff_left hwritten).trans Prog.sure_op

/-- What is left of the `try` once its outcome is known. -/
theorem sure_afterOperation {p : P OperationId} {answer : Except Exn OperationId}
    {t₁ : κ × Loc × Shared} {C : Op → κ × Loc × Shared → Prop}
    (h : p.Ends (system.alone i env) t answer t₁) :
    (p.attempt.bind (afterOperation svc tr runId)).Sure (system.alone i env) C t ↔
      p.Sure (system.alone i env) C t ∧
        (afterOperation svc tr runId answer).Sure (system.alone i env) C t₁ := by
  rw [Prog.sure_bind h.attempt, Prog.sure_attempt]

/-- No operation was started, or one was. -/
def StartedOrNot (env : Environment Op Choice κ) (i svc : ℕ) (tr : Ref) (runId : Uuid) (p : P Unit)
    (t : κ × Loc × Shared) (r : Except Exn Unit) (t' : κ × Loc × Shared) : Prop :=
  (t'.2.2.operations = t.2.2.operations ∧ p.Sure (system.alone i env) (RunningMarked env) t) ∨
    ∃ operation row t₁, Started env i svc tr runId p t r t' operation row t₁

theorem startedOrNot_runOperation {run : Ref} {base : DagRunRow}
    (hrun : t.2.2.mem.dagRuns[run]? = some base)
    (h : ((runOperation runId run).attempt.bind (afterOperation svc tr runId)).Ends
      (system.alone i env) t r t') :
    StartedOrNot env i svc tr runId ((runOperation runId run).attempt.bind
      (afterOperation svc tr runId)) t r t' := by
  obtain ⟨k, l, s⟩ := t
  cases hfail : (env.choose k (.runOperation runId)).fail with
  | some e =>
    have hcall : (call (.runOperation runId)).Ends (system.alone i env) (k, l, s) (.error e)
        (env.next k (.runOperation runId), l, s) :=
      Prog.ends_op (by simp [Machine.alone, system, Op.exec, hfail])
    have hrunop : (runOperation runId run).Ends (system.alone i env) (k, l, s) (.error e) _ :=
      hcall.bind_error
    rw [Prog.ends_bind_iff hrunop.attempt] at h
    obtain ⟨hops, _, hsure⟩ := idle_setState h
    refine Or.inl ⟨hops, (sure_afterOperation hrunop).mpr ⟨?_, hsure⟩⟩
    refine (Prog.sure_bind_error hcall).mpr (Prog.sure_op.mpr ?_)
    rintro ⟨_, he, _⟩
    cases he
  | none =>
    let operation : OperationId := (env.choose k (.runOperation runId)).pick
    let s₁ : Shared := { s with operations := (operation, runId) :: s.operations }
    have hcall : (call (.runOperation runId)).Ends (system.alone i env) (k, l, s) (.ok operation)
        (env.next k (.runOperation runId), l, s₁) :=
      Prog.ends_op (by simp [Machine.alone, system, Op.exec, hfail, operation, s₁])
    obtain ⟨row, t₁, t₂, hstate, h₁, h₂, hset, hsure⟩ :=
      exists_markRunning (i := i) (t := (env.next k (.runOperation runId), l, s₁)) hrun
    have hrunop : (runOperation runId run).Ends (system.alone i env) (k, l, s)
        (answered operation (env.choose t₁.1 (.insert none [.dagRun row])).fail) t₂ := by
      revert hset
      cases (env.choose t₁.1 (.insert none [.dagRun row])).fail with
      | none => exact fun hset => hcall.bind (hset.bind (Prog.ends_ret operation t₂))
      | some e => exact fun hset => hcall.bind hset.bind_error
    have hrunsure : ∀ C : Op → κ × Loc × Shared → Prop, (∀ o t, Looks o → C o t) →
        (∀ id t, C (.runOperation id) t) → ((runOperation runId run).Sure (system.alone i env) C
          (k, l, s) ↔ C (.insert none [.dagRun row]) t₁) := by
      intro C hlook hrunOp
      refine (Prog.sure_bind hcall).trans ((and_iff_right (Prog.sure_op.mpr (hrunOp _ _))).trans ?_)
      rw [← hsure C hlook]
      revert hset
      cases (env.choose t₁.1 (.insert none [.dagRun row])).fail with
      | none => exact fun hset => (Prog.sure_bind hset).trans (and_iff_left trivial)
      | some e => exact fun hset => Prog.sure_bind_error hset
    have hharmless := (hrunsure (Harmless env) (fun o t ho => Looks.harmless env ho t)
      fun _ _ => trivial).mpr ⟨rfl, fun _ row' hrow' => by cases List.mem_singleton.mp hrow'⟩
    rw [Prog.ends_bind_iff hrunop.attempt] at h
    refine Or.inr ⟨operation, row, t₁, hstate, h₁.operations, h₁.services, t₂, h₂.operations,
      h₂.services, h₂.taskRuns, fun s id hs => hs.ends hrunop hharmless, h, fun C hlook hrunOp => ?_⟩
    exact (sure_afterOperation hrunop).trans (and_congr_left' (hrunsure C hlook hrunOp))

/-- What only looks at the tables first does not change the outcome. -/
theorem StartedOrNot.bind {α : Type} {p : P α} {f : α → P Unit} (hp : p.Uses Looks)
    (h : (p.bind f).Ends (system.alone i env) t r t')
    (hf : ∀ a t₀, p.Ends (system.alone i env) t (.ok a) t₀ → (f a).Ends (system.alone i env) t₀ r t' →
      StartedOrNot env i svc tr runId (f a) t₀ r t') :
    StartedOrNot env i svc tr runId (p.bind f) t r t' := by
  rcases Prog.ends_bind_cases h with ⟨a, t₀, hfirst, hrest⟩ | ⟨e, hfirst, _⟩
  · have hsame := SameBooks.of_looks hp hfirst
    rcases hf a t₀ hfirst hrest with ⟨hops, hsure⟩ | ⟨operation, row, t₁, hs⟩
    · refine Or.inl ⟨hops.trans hsame.operations, (Prog.sure_bind hfirst).mpr ⟨?_, hsure⟩⟩
      exact hp.sure fun o t ho => Looks.runningMarked env ho t
    · obtain ⟨t₂, hops₂, hservices₂, htaskRuns₂, hunfailed, hends, hsure⟩ := hs.rest
      rw [hsame.operations] at hops₂
      refine Or.inr ⟨operation, row, t₁, hs.state, hsame.operations ▸ hs.operations,
        hs.services.trans hsame.services, t₂, hops₂, hservices₂.trans hsame.services,
        htaskRuns₂.trans hsame.taskRuns, fun s id h => hunfailed s id (h.ends hfirst ?_), hends,
        fun C hlook hrunOp => ?_⟩
      · exact hp.sure fun o t ho => Looks.harmless env ho t
      refine (Prog.sure_bind hfirst).trans ((and_iff_right ?_).trans (hsure C hlook hrunOp))
      exact hp.sure hlook
  · refine Or.inl ⟨(SameBooks.of_looks hp hfirst).operations, (Prog.sure_bind_error hfirst).mpr ?_⟩
    exact hp.sure fun o t ho => Looks.runningMarked env ho t

theorem startedOrNot_withManifest {m : Option Task × Option DagRunObj} {failed : Bool}
    (hrun : ∀ run, m.2 = some run → ∃ base, t.2.2.mem.dagRuns[run.ref]? = some base)
    (h : (withManifest svc tr runId m failed).Ends (system.alone i env) t r t') :
    StartedOrNot env i svc tr runId (withManifest svc tr runId m failed) t r t' := by
  obtain ⟨task, run⟩ := m
  cases failed with
  | true =>
    obtain ⟨hops, _, hsure⟩ := idle_setState h
    exact Or.inl ⟨hops, hsure⟩
  | false =>
    cases task with
    | none =>
      cases h
      exact Or.inl ⟨rfl, trivial⟩
    | some task =>
      cases run with
      | none =>
        cases h
        exact Or.inl ⟨rfl, trivial⟩
      | some run =>
        obtain ⟨base, hbase⟩ := hrun run rfl
        exact startedOrNot_runOperation hbase h

theorem startedOrNot_startTaskrun {row : TaskRunRow} (htr : t.2.2.mem.taskRuns[tr]? = some row)
    (h : (startTaskrun svc tr).Ends (system.alone i env) t r t') :
    StartedOrNot env i svc tr row.runId (startTaskrun svc tr) t r t' := by
  rw [startTaskrun_eq] at h ⊢
  refine StartedOrNot.bind (Prog.Uses.op trivial) h fun row' t₀ hread h => ?_
  have hrow : row' = row := by
    have hexec := congrArg Prod.fst (Prog.ends_op_iff.mp hread)
    simp only [Machine.alone, system, Op.exec, Mem.exec, htr, Option.elim] at hexec
    exact (Except.ok.inj hexec).symm
  subst hrow
  refine StartedOrNot.bind (uses_getTaskRunManifest row') h fun m t₁ _ h => ?_
  refine StartedOrNot.bind (uses_isFailed m.2) h fun failed t₂ hfailed h => ?_
  refine startedOrNot_withManifest (fun run hm => ?_) h
  rw [hm] at hfailed
  rcases Prog.ends_bind_cases hfailed with ⟨base, t₃, hbase, hret⟩ | ⟨e, _, he⟩
  · cases hret
    obtain ⟨k, l, s⟩ := t₁
    have hexec := Prog.ends_op_iff.mp hbase
    simp only [Machine.alone, system, Op.exec, Mem.exec] at hexec
    cases hget : s.mem.dagRuns[run.ref]? with
    | none =>
      rw [hget] at hexec
      cases hexec
    | some base' =>
      rw [hget] at hexec
      cases hexec
      exact ⟨_, hget⟩
  · cases he

theorem setState_failed (tr : Ref) : TaskRun.setState [{ row := .obj tr, state := some .failed }] =
    (mem (.readTaskRun tr)).bind fun row => nowUtc.bind fun now =>
      (upsertRows [.taskRun (row.buildRow (some .failed) none now)] none).bind fun _ =>
        (mem (.writeTaskRun tr (row.buildRow (some .failed) none now))).bind fun _ => .ret [tr] := by
  simp [TaskRun.setState, TaskRun.fetchableRids, TaskRun.fetchableRid, TaskRun.fetchAndApply,
    TaskRun.applyUpdates, TaskRun.prepareAll, TaskRun.prepare, TaskRun.target, Requires.nonempty,
    Prog.bind_assoc, unlessEmpty, Prog.forEach]

theorem ends_ignoring {us : List UpdateRow} {r₀ : Except Exn (List Ref)}
    (h : (TaskRun.setState us).Ends (system.alone i env) t r₀ t') :
    ∃ r, (ignoring (TaskRunClient.setState us)).Ends (system.alone i env) t r t' := by
  have hclient : ∃ r, (TaskRunClient.setState us).Ends (system.alone i env) t r t' :=
    Prog.ends_catching (fun e => by cases e <;> trivial) h
  obtain ⟨r₁, h₁⟩ := hclient
  have hdone : ∃ r₂, ((TaskRunClient.setState us).bind fun _ => pure ()).Ends (system.alone i env) t
      r₂ t' := by
    cases r₁ with
    | ok a => exact ⟨_, h₁.bind (Prog.ends_ret () t')⟩
    | error e => exact ⟨_, h₁.bind_error⟩
  obtain ⟨r₂, h₂⟩ := hdone
  exact Prog.ends_catching (fun _ => trivial) h₂

theorem sure_ignoring {us : List UpdateRow} {C : Op → κ × Loc × Shared → Prop} :
    (ignoring (TaskRunClient.setState us)).Sure (system.alone i env) C t ↔
      (TaskRun.setState us).Sure (system.alone i env) C t := by
  have hdone : ((TaskRunClient.setState us).bind fun _ => pure ()).Sure (system.alone i env) C t ↔
      (TaskRunClient.setState us).Sure (system.alone i env) C t := by
    cases hr : (TaskRunClient.setState us).eval (system.alone i env) t with
    | mk r t₁ =>
      cases r with
      | ok a => exact (Prog.sure_bind hr).trans (and_iff_left trivial)
      | error e => exact Prog.sure_bind_error hr
  have hclient : (TaskRunClient.setState us).Sure (system.alone i env) C t ↔
      (TaskRun.setState us).Sure (system.alone i env) C t :=
    Prog.sure_catching fun e => by cases e <;> trivial
  have hignoring : (ignoring (TaskRunClient.setState us)).Sure (system.alone i env) C t ↔
      ((TaskRunClient.setState us).bind fun _ => pure ()).Sure (system.alone i env) C t :=
    Prog.sure_catching fun _ => trivial
  rw [hignoring, hdone, hclient]

theorem alreadyKnown_of_ne {id : Uuid} {o : Op} {t : κ × Loc × Shared}
    (ho : ∀ rows, o ≠ .insert none rows) : AlreadyKnown env svc id o t := by
  constructor
  · rintro ⟨row, he, _⟩
    exact absurd he (ho _)
  · rintro ⟨rows, he, _⟩
    exact absurd he (ho rows)

/-- The TaskRun is marked FAILED exactly if that upsert does not fail. -/
theorem known_iff_not_writtenFailed {s : Shared} {row : TaskRunRow} (id : Uuid) {e : Exn}
    (htr : t.2.2.mem.taskRuns[tr]? = some row) (hunfailed : Unfailed i s row.runId t.2.2)
    (h : (afterOperation svc tr runId (.error e)).Ends (system.alone i env) t r t') :
    (afterOperation svc tr runId (.error e)).Sure (system.alone i env) (AlreadyKnown env svc id) t ↔
      ¬WrittenFailed s t'.2.2 row.runId := by
  obtain ⟨k, l, s₀⟩ := t
  let k₁ := env.next k (.mem (.readTaskRun tr))
  let t₁ : κ × Loc × Shared := (env.next k₁ .now, l, { s₀ with clock := s₀.clock + 1 })
  let new := row.buildRow (some .failed) none ⟨s₀.clock, true⟩
  let o : Op := .insert none [.taskRun new]
  have hread : (mem (.readTaskRun tr)).Ends (system.alone i env) (k, l, s₀) (.ok row) (k₁, l, s₀) :=
    Prog.ends_op (by simp [Machine.alone, system, Op.exec, Mem.exec, htr, k₁])
  have hnow : nowUtc.Ends (system.alone i env) (k₁, l, s₀) (.ok ⟨s₀.clock, true⟩) t₁ :=
    Prog.Ends.bind (Prog.ends_op rfl) (Prog.ends_ret _ _)
  have hready : (mem (.readTaskRun tr)).Sure (system.alone i env) (AlreadyKnown env svc id)
      (k, l, s₀) ∧ nowUtc.Sure (system.alone i env) (AlreadyKnown env svc id) (k₁, l, s₀) :=
    ⟨Prog.sure_op.mpr (alreadyKnown_of_ne (by simp)), alreadyKnown_of_ne (by simp), trivial⟩
  have hkept : Unfailed i s row.runId t₁.2.2 :=
    ⟨hunfailed.closed, hunfailed.unwritten, hunfailed.grown, hunfailed.notWritten⟩
  have hmarks : MarksFailed o :=
    ⟨_, rfl, new, List.mem_cons_self, TaskRunRow.state_buildRow _ _ _ _⟩
  refine sure_ignoring.trans ?_
  rw [setState_failed, Prog.sure_bind hread, and_iff_right hready.1, Prog.sure_bind hnow,
    and_iff_right hready.2]
  cases hfail : (env.choose t₁.1 o).fail with
  | some e' =>
    have hupsert := ends_upsert_error (i := i) hfail
    have hset : (TaskRun.setState [{ row := .obj tr, state := some .failed }]).Ends
        (system.alone i env) (k, l, s₀) (.error e') (env.next t₁.1 o, t₁.2) := by
      rw [setState_failed]
      exact hread.bind (hnow.bind hupsert.bind_error)
    obtain ⟨r', h'⟩ := ends_ignoring hset
    cases h'.symm.trans h
    refine iff_of_true ((Prog.sure_bind_error hupsert).mpr (Prog.sure_op.mpr ?_)) hkept.notWritten
    constructor
    · rintro ⟨_, he, _⟩
      cases he
    · intro _
      rw [hfail]
      exact Option.some_ne_none e'
  | none =>
    let t₂ : κ × Loc × Shared := (env.next t₁.1 o, l, t₁.2.2.insert i (.thread i) [.taskRun new])
    have hupsert : (upsertRows [.taskRun new] none).Ends (system.alone i env) t₁ (.ok ()) t₂ :=
      ends_upsert hfail
    have hwrite : (mem (.writeTaskRun tr new)).Ends (system.alone i env) t₂ (.ok ())
        (system.alone i env (.mem (.writeTaskRun tr new)) t₂).2 := Prog.ends_op rfl
    have hset : (TaskRun.setState [{ row := .obj tr, state := some .failed }]).Ends
        (system.alone i env) (k, l, s₀) (.ok [tr])
        (system.alone i env (.mem (.writeTaskRun tr new)) t₂).2 := by
      rw [setState_failed]
      exact hread.bind (hnow.bind (hupsert.bind (hwrite.bind (Prog.ends_ret _ _))))
    obtain ⟨r', h'⟩ := ends_ignoring hset
    cases h'.symm.trans h
    refine iff_of_false (fun hsure => ?_) (not_not.mpr ?_)
    · rw [Prog.sure_bind hupsert] at hsure
      exact (Prog.sure_op.mp hsure.1).2 hmarks hfail
    · have hwritten : WrittenFailed s t₂.2.2 new.runId :=
        hkept.writtenFailed_insert (TaskRunRow.state_buildRow _ _ _ _)
      rwa [TaskRunRow.runId_of_ident (TaskRunRow.ident_buildRow _ _ _ _)] at hwritten

/-- Recording the operation and marking the TaskRun RUNNING. -/
theorem kept_of_recorded {s : Shared} {id : Uuid} {operation : OperationId}
    (hsvc : svc < t.2.2.mem.services.length) (hunfailed : Unfailed i s id t.2.2)
    (h : (afterOperation svc tr runId (.ok operation)).Ends (system.alone i env) t r t') :
    t'.2.2.operations = t.2.2.operations ∧ Recorded t'.2.2 svc runId operation ∧
      ¬WrittenFailed s t'.2.2 id ∧
      (afterOperation svc tr runId (.ok operation)).Sure (system.alone i env) (RunningMarked env) t := by
  obtain ⟨k, l, s₀⟩ := t
  let o : Op := .mem (.addPending svc runId (some operation) tr)
  let t₁ : κ × Loc × Shared := (env.next k o, l, { s₀ with
    mem := s₀.mem.onService svc fun service => service.addPending runId (some operation) tr })
  have hadd : (mem (.addPending svc runId (some operation) tr)).Ends (system.alone i env) (k, l, s₀)
      (.ok ()) t₁ := Prog.ends_op rfl
  have hset := (Prog.ends_bind_iff hadd).mp h
  obtain ⟨hops, hservices, hsure⟩ := idle_setState hset
  have hunfailed₁ : Unfailed i s id t₁.2.2 :=
    ⟨hunfailed.closed, hunfailed.unwritten, hunfailed.grown, hunfailed.notWritten⟩
  refine ⟨hops, ?_, ?_, (Prog.sure_bind hadd).mpr ⟨Prog.sure_op.mpr ?_, hsure⟩⟩
  · refine ⟨(s₀.mem.services[svc]).addPending runId (some operation) tr, ?_, ?_⟩
    · rw [hservices]
      show (s₀.mem.services.modify svc _)[svc]? = _
      rw [List.getElem?_modify_eq, List.getElem?_eq_getElem hsvc]
      rfl
    · exact Table.mem_put_self _ _
  · refine (hunfailed₁.ends hset ((uses_ignoring_setState _).sure fun o t ho => ?_)).notWritten
    refine TaskRun.Makes.harmless env ho (fun u hu => ?_) t
    cases List.mem_singleton.mp hu
    exact ⟨_, rfl, by decide⟩
  · rintro ⟨_, he, _⟩
    cases he

end Outcomes

end Executor

/-- Whatever fails, `_start_taskrun` keeps the operation it started, exactly if the DagRun could be
marked RUNNING, or else the operation was recorded before and the TaskRun could not be marked FAILED. -/
theorem started_operation_kept_iff {s s' : Shared} {i svc : ℕ} {tr : Ref} {row : TaskRunRow}
    (hopen : s.opened (.thread i) = []) (hglobal : ∀ x ∈ s.opened .global, x.1 ≠ i)
    (hsvc : svc < s.mem.services.length) (htr : s.mem.taskRuns[tr]? = some row) {κ : Type}
    (env : Environment Op Choice κ) {k k' : κ} {l l' : Loc} {r : Except Exn Unit}
    (hends : (Executor.startTaskrun svc tr).Ends (system.alone i env) (k, l, s) r (k', l', s')) :
    OperationKept s s' svc row.runId ↔
      (Executor.startTaskrun svc tr).Sure (system.alone i env) (RunningMarked env) (k, l, s) ∨
        (Executor.startTaskrun svc tr).Sure (system.alone i env) (AlreadyKnown env svc row.runId)
          (k, l, s) := by
  have hunfailed : Unfailed i s row.runId s := .start hopen hglobal
  rcases Executor.startedOrNot_startTaskrun htr hends with ⟨hops, hsure⟩ | ⟨operation, dagRun, t₁, h⟩
  · refine iff_of_true (fun operation he => ?_) (Or.inl hsure)
    rw [show s'.operations = s.operations from hops] at he
    exact absurd he.symm (List.cons_ne_self _ _)
  · obtain ⟨t₂, hops₂, hservices₂, htaskRuns₂, hunfailed₂, hrest, hsure⟩ := h.rest
    have hmarks : MarksRunning (.insert none [.dagRun dagRun]) := ⟨dagRun, rfl, h.state⟩
    have hunfailed₂ := hunfailed₂ s row.runId hunfailed
    have hmarked := hsure (RunningMarked env) (fun o t ho => Looks.runningMarked env ho t)
      fun _ _ ⟨_, he, _⟩ => (nomatch he)
    have hknown := hsure (AlreadyKnown env svc row.runId)
      (fun o t ho => ⟨fun hm => absurd hm (Looks.aside ho).not_marksRunning,
        fun hm => absurd hm (Looks.not_marksFailed ho)⟩)
      fun _ _ => ⟨fun ⟨_, he, _⟩ => (nomatch he), fun ⟨_, he, _⟩ => (nomatch he)⟩
    cases hfail : (env.choose t₁.1 (.insert none [.dagRun dagRun])).fail with
    | none =>
      rw [hfail] at hrest hmarked
      obtain ⟨hops, hrecorded, hwritten, hsure⟩ := Executor.kept_of_recorded
        (lt_of_lt_of_eq hsvc (congrArg List.length hservices₂).symm) hunfailed₂ hrest
      refine iff_of_true (fun operation' he => ?_) (Or.inl (hmarked.mpr ⟨fun _ => hfail, hsure⟩))
      rw [show s'.operations = _ from hops.trans hops₂] at he
      cases he
      exact ⟨hrecorded, hwritten⟩
    | some e =>
      rw [hfail] at hrest hknown
      have hfailed := Executor.known_iff_not_writtenFailed row.runId (htaskRuns₂ ▸ htr)
        hunfailed₂ hrest
      obtain ⟨hops, hservices, _⟩ := Executor.idle_setState hrest
      have hnotMarked : ¬(Executor.startTaskrun svc tr).Sure (system.alone i env) (RunningMarked env)
          (k, l, s) := by
        intro hsure
        rw [(hmarked.mp hsure).1 hmarks] at hfail
        cases hfail
      rw [or_iff_right hnotMarked, hknown.trans (and_congr_right' hfailed)]
      constructor
      · intro hkept
        obtain ⟨hrecorded, hwritten⟩ := hkept operation (hops.trans hops₂)
        refine ⟨⟨fun _ => ⟨operation, ?_, ?_⟩, fun ⟨_, he, _, hrow, _⟩ => ?_⟩, hwritten⟩
        · rw [h.operations]
          rfl
        · rwa [Recorded, h.services.trans (hservices.trans hservices₂).symm]
        · cases he
          cases List.mem_singleton.mp hrow
      · rintro ⟨⟨hbefore, _⟩, hwritten⟩ operation' he
        obtain ⟨operation₁, hhead, hrecorded⟩ := hbefore hmarks
        rw [h.operations] at hhead
        rw [show s'.operations = _ from hops.trans hops₂] at he
        cases hhead
        cases he
        refine ⟨?_, hwritten⟩
        rwa [Recorded, show s'.mem.services = _ from hservices.trans hservices₂, ← h.services]

/-- A QUEUED TaskRun of `chain`, of a DagRun that is QUEUED. -/
def queuedLoad : Shared where
  store :=
    ⟨⟨[.dagRun { runId := 1, dagId := 0, state := .queued },
      .taskRun { runId := 3, taskId := "load", dagId := 0, dagrunId := 1, state := .queued }],
      by decide⟩, []⟩
  dags := [chain]
  mem :=
    { taskRuns := [{ runId := 3, taskId := "load", dagId := 0, dagrunId := 1, state := .queued }]
      services := [{}] }

/-- Every upsert of a DagRun meets a lock conflict. -/
def busyDagRun : Environment Op Choice Unit where
  choose _ o := match o with
    | .insert _ [.dagRun _] => { fail := some .lockConflict }
    | _ => {}
  next _ _ := ()

/-- What the call comes to while the DagRun is locked. -/
def startedLocked : Except Exn Unit × (Unit × Loc × Shared) :=
  (Executor.startTaskrun 0 0).eval (system.alone 0 busyDagRun) ((), {}, queuedLoad)

theorem startedLocked_kept_iff :
    OperationKept queuedLoad startedLocked.2.2.2 0 3 ↔
      (Executor.startTaskrun 0 0).Sure (system.alone 0 busyDagRun) (RunningMarked busyDagRun)
        ((), {}, queuedLoad) ∨
      (Executor.startTaskrun 0 0).Sure (system.alone 0 busyDagRun) (AlreadyKnown busyDagRun 0 3)
        ((), {}, queuedLoad) :=
  started_operation_kept_iff (show queuedLoad.opened (.thread 0) = [] from rfl)
    (fun x (hx : x ∈ []) => nomatch hx) (show 0 < queuedLoad.mem.services.length by decide)
    (show queuedLoad.mem.taskRuns[0]? = some _ from rfl) busyDagRun
    (show (Executor.startTaskrun 0 0).Ends (system.alone 0 busyDagRun) ((), {}, queuedLoad)
      startedLocked.1 (startedLocked.2.1, startedLocked.2.2.1, startedLocked.2.2.2) from rfl)

/-- The operation was started, is not recorded, and the TaskRun is FAILED. -/
theorem startedLocked_not_kept :
    ∃ r k' l' s', (Executor.startTaskrun 0 0).Ends (system.alone 0 busyDagRun) ((), {}, queuedLoad) r
      (k', l', s') ∧ ¬OperationKept queuedLoad s' 0 3 := by
  refine ⟨startedLocked.1, startedLocked.2.1, startedLocked.2.2.1, startedLocked.2.2.2, rfl, ?_⟩
  intro hkept
  have hops : startedLocked.2.2.2.operations = [(0, 3)] := by decide +kernel
  have hpending : startedLocked.2.2.2.mem.services.map Service.pendingOperations = [[]] := by
    decide +kernel
  obtain ⟨service, hservice, hmem⟩ := (hkept 0 hops).1
  have hnone : service.pendingOperations ∈ [[]] :=
    hpending ▸ List.mem_map_of_mem (List.mem_of_getElem? hservice)
  rw [List.mem_singleton.mp hnone] at hmem
  cases hmem

end YtScheduler
