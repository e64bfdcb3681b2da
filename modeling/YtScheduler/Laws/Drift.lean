import YtScheduler.Services.Executing
import YtScheduler.Laws.Starts

/-! What the last write of a TaskRun keeps. An executor writes the end of a TaskRun from the
object it holds, and repairs a start that failed by run id only, which leaves the object as
it was. The last write keeps what was recorded exactly when the copy it was built from is
up to date. -/

namespace YtScheduler

open Tablet Threads

/-- The system, with what each thread has seen. -/
def executing : Machine Op Op.Ret Exn (Loc × Seen) Shared Choice Entry JobResult :=
  system.watch recording fun _ => {}

abbrev Execution := Sys Op Op.Ret Exn (Loc × Seen) Shared JobResult

/-- No thread, no transaction and no job. -/
structure Unstarted (σ : Execution) : Prop where
  threads : σ.threads = []
  opened : ∀ c, σ.shared.opened c = []
  queueables : σ.shared.mem.queueables = []

/-- A run of executors and of the workers of their pool. -/
structure Executes (σ₀ : Execution) (as : List Step) : Prop where
  unstarted : Unstarted σ₀
  within : ∀ a ∈ as, a.Within Entry.OfExecutor

/-- A RUNNING TaskRun that is SUCCESS or FAILED then has changed in `state` and `end_date` only. -/
def KeepsRecorded (db db' : Db) : Prop :=
  ∀ id p, db.taskRun id = some p → p.state = .running →
    ∀ t, db'.taskRun id = some t → t.state ∈ finalStates → t.recorded = p.recorded

instance (db db' : Db) : Decidable (KeepsRecorded db db') := by
  unfold KeepsRecorded
  infer_instance

/-- The rows that an action upserts, and what its thread has seen. -/
def upserting (σ : Execution) : Step → Option (Seen × List Row)
  | .spawn _ => none
  | .step i ch =>
    match ch.fail, σ.threads[i]? with
    | none, some ((_, γ), .call (.insert _ rows) _) => some (γ, rows)
    | _, _ => none

/-- The copy of a RUNNING TaskRun that its end is written from has the columns of the persisted row,
`state` and `end_date` apart. -/
def CopyUpToDate (σ : Execution) (a : Step) : Prop :=
  ∀ w, upserting σ a = some w → ∀ t, .taskRun t ∈ w.2 → t.state ∈ finalStates →
    ∀ p, σ.shared.db.taskRun t.runId = some p → p.state = .running →
      ∀ copy, w.1.held.find? (·.runId = t.runId) = some copy → copy.recorded = p.recorded

instance (σ : Execution) (a : Step) : Decidable (CopyUpToDate σ a) := by
  unfold CopyUpToDate
  infer_instance

variable {σ σ' σ₀ : Execution} {a : Step} {as : List Step}

/-! ### Runs -/

/-- What holds in every state of a run of executors. -/
structure Sober (σ : Execution) : Prop where
  watched : Machine.AllWatched recording σ
  apart : σ.shared.Apart
  jobs : ∀ e ∈ σ.shared.mem.queueables, e.fn.OfExecutor

theorem Unstarted.sober (h : Unstarted σ) : Sober σ where
  watched i th hth := by simp [h.threads] at hth
  apart := ⟨fun j => h.opened _, by simp [h.opened]⟩
  jobs := by simp [h.queueables]

theorem Records.apart {γ : Seen} {o : Op} (h : Records γ o) : o.Apart := by
  cases o with
  | beginTx c | commitTx c | abortTx c => exact h
  | insert c rows => exact h.1
  | _ => trivial

namespace Sober

/-- A job that is taken was submitted. -/
theorem takesOwn (h : Sober σ) (o : Op) (i : ℕ) (ch : Choice) (l : Loc) :
    TakesOwn o (o.exec i ch l σ.shared).1 := by
  cases o with
  | mem a =>
    cases a with
    | takeJob =>
      simp only [Op.exec, Mem.exec]
      repeat' split
      · next e he => exact h.jobs e (List.mem_of_getElem? he)
      · trivial
      · trivial
    | _ => trivial
  | _ => trivial

theorem jobs_exec (h : Sober σ) {γ : Seen} {o : Op} (ho : Records γ o) (i : ℕ) (ch : Choice) (l : Loc) :
    ∀ e ∈ (o.exec i ch l σ.shared).2.2.mem.queueables, e.fn.OfExecutor := by
  intro e he
  cases o with
  | mem a =>
    obtain ⟨q, he⟩ := List.mem_iff_getElem?.mp he
    rcases Mem.getElem?_queueables_exec he with ⟨fn, rfl, _, rfl⟩ | ⟨e₀, he₀, _, hfn, _⟩
    · exact ho
    · rw [hfn]
      exact h.jobs e₀ (List.mem_of_getElem? he₀)
  | _ =>
    rw [Op.exec_mem (by simp)] at he
    exact h.jobs e he

/-- What a thread about to make a call may do. -/
theorem records (h : Sober σ) {i : ℕ} {l : Loc × Seen} {o : Op} {k : Except Exn o.Ret → P JobResult}
    (hth : σ.threads[i]? = some (l, .call o k)) : Records l.2 o := (h.watched i _ hth).1

/-- The step lemma. -/
theorem act (h : Sober σ) (hin : a.Within Entry.OfExecutor) (ha : executing.act σ a = some σ') :
    Sober σ' := by
  have hwatched : Machine.AllWatched recording σ' :=
    Machine.AllWatched.act (M := system) h.watched (fun e he _ => Entry.OfExecutor.allowed he _) hin
      (fun i ch l o _ _ _ => h.takesOwn o i ch l.1) ha
  rcases Machine.act_cases ha with ⟨e, rfl, rfl⟩ | ⟨i, ch, l, o, k, rfl, hth, rfl⟩
  · exact ⟨hwatched, h.apart, h.jobs⟩
  · have ho := h.records hth
    exact ⟨hwatched, h.apart.exec ho.apart i ch l.1, h.jobs_exec ho i ch l.1⟩

/-- The tables change by upserts only. -/
theorem store_act (h : Sober σ) (ha : executing.act σ a = some σ') :
    σ'.shared.store = σ.shared.store ∨ ∃ i γ rows, upserting σ a = some (γ, rows) ∧ γ.Finishes rows ∧
      σ'.shared.store = σ.shared.store.append ⟨i, false, σ.shared.store.now, rows⟩ := by
  rcases Machine.act_cases ha with ⟨e, rfl, rfl⟩ | ⟨i, ch, l, o, k, rfl, hth, rfl⟩
  · exact Or.inl rfl
  · have ho := h.records hth
    rcases h.apart.store ho.apart i ch l.1 with hs | ⟨rows, rfl, hf, hs⟩
    · exact Or.inl hs
    · obtain ⟨l, γ⟩ := l
      exact Or.inr ⟨i, γ, rows, by simp only [upserting, hf, hth], ho.2, hs⟩

/-- An upsert takes place. -/
theorem act_of_upserting (h : Sober σ) {γ : Seen} {rows : List Row} (hu : upserting σ a = some (γ, rows)) :
    γ.Finishes rows ∧ ∃ i σ', executing.act σ a = some σ' ∧
      σ'.shared.store = σ.shared.store.append ⟨i, false, σ.shared.store.now, rows⟩ := by
  unfold upserting at hu
  split at hu
  · cases hu
  · split at hu
    · next i ch _ _ l γ c rows k hf hth =>
      cases hu
      obtain ⟨hc, hfinishes⟩ := h.records hth
      obtain rfl : c = none := hc
      refine ⟨hfinishes, i, ?_⟩
      have hclosed : σ.shared.opened (Op.resolve none i) = [] := h.apart.closed i
      simp only [Machine.act, hth, executing, Machine.watch, system, Op.exec, hf, Shared.insert, hclosed]
      exact ⟨_, rfl, rfl⟩
    · cases hu

end Sober

/-! ### The step lemma -/

theorem KeepsRecorded.refl (db : Db) : KeepsRecorded db db := by
  intro id p hp _ t ht _
  obtain rfl : p = t := Option.some.inj (hp.symm.trans ht)
  rfl

/-- A batch written over the tables. -/
theorem keepsRecorded_upsertAll {db : Db} {rows : List Row}
    (h : ∀ t, .taskRun t ∈ rows → t.state ∈ finalStates → rows = [.taskRun t] ∧
      ∀ p, db.taskRun t.runId = some p → p.state = .running → t.recorded = p.recorded) :
    KeepsRecorded db (db.upsertAll rows) := by
  intro id p hp hrunning t ht hfinal
  by_cases hw : ∃ b : TaskRunRow, RowKind.toRow b ∈ rows ∧ RowKind.id b = id
  · obtain ⟨t', hm, rfl, ht'⟩ := Db.get_upsertAll_of_written db hw
    obtain rfl : t' = t := Option.some.inj (ht'.symm.trans ht)
    exact (h t' hm hfinal).2 p hp hrunning
  · have hn : ∀ b : TaskRunRow, RowKind.toRow b ∈ rows → RowKind.id b ≠ id :=
      fun b hb he => hw ⟨b, hb, he⟩
    rw [Db.taskRun, Db.get_upsertAll_of_not_written hn] at ht
    exact KeepsRecorded.refl db id p hp hrunning t ht hfinal

theorem keepsRecorded_iff (h : Sober σ) :
    (∀ σ', executing.act σ a = some σ' → KeepsRecorded σ.shared.db σ'.shared.db) ↔ CopyUpToDate σ a := by
  constructor
  · rintro hkeeps ⟨γ, rows⟩ hu t ht hfinal p hp hrunning copy hcopy
    obtain ⟨hfinishes, i, σ', ha, hs⟩ := h.act_of_upserting hu
    obtain ⟨rfl, copy', hcopy', hrecorded⟩ := hfinishes t ht hfinal
    obtain rfl : copy = copy' := Option.some.inj (hcopy.symm.trans hcopy')
    have hwritten : σ'.shared.db.taskRun t.runId = some t := by
      have hw : ∃ b : TaskRunRow, RowKind.toRow b ∈ [Row.taskRun t] ∧ RowKind.id b = t.runId :=
        ⟨t, ht, rfl⟩
      obtain ⟨t', hm, _, hget⟩ := Db.get_upsertAll_of_written σ.shared.db hw
      obtain rfl : t' = t := by simpa using hm
      rw [Shared.db, hs, Store.current_append]
      exact hget
    exact hrecorded.trans (hkeeps σ' ha t.runId p hp hrunning t hwritten hfinal)
  · intro hcopies σ' ha
    rcases h.store_act ha with hs | ⟨i, γ, rows, hu, hfinishes, hs⟩
    · rw [Shared.db, Shared.db, hs]
      exact .refl _
    · rw [Shared.db, Shared.db, hs, Store.current_append]
      refine keepsRecorded_upsertAll fun t ht hfinal => ?_
      obtain ⟨hone, copy, hcopy, hrecorded⟩ := hfinishes t ht hfinal
      refine ⟨hone, fun p hp hrunning => ?_⟩
      exact hrecorded.symm.trans (hcopies (γ, rows) hu t ht hfinal p hp hrunning copy hcopy)

/-- The sober states of a run meet `D` whenever they meet `C`. -/
theorem Executes.along_imp (h : Executes σ₀ as) {C D : Execution → Step → Prop}
    (himp : ∀ σ a, Sober σ → C σ a → D σ a) (hc : executing.Along C σ₀ as) :
    executing.Along D σ₀ as :=
  Machine.along_imp h.unstarted.sober (fun _ _ _ hs hC ha => hs.act hC.1 ha)
    (fun σ a hs hC => himp σ a hs hC.2) (Machine.along_and (Machine.along_of_forall h.within) hc)

/-- The end of a TaskRun keeps what was recorded exactly when it is written from copies that are up
to date. -/
theorem end_keeps_recorded_iff (h : Executes σ₀ as) :
    executing.EachStep (fun σ σ' => KeepsRecorded σ.shared.db σ'.shared.db) σ₀ as ↔
      executing.Along CopyUpToDate σ₀ as := by
  rw [Machine.eachStep_iff]
  exact ⟨h.along_imp fun _ _ hs => (keepsRecorded_iff hs).mp,
    h.along_imp fun _ _ hs => (keepsRecorded_iff hs).mpr⟩

/-! ### A start that is repaired -/

/-- A QUEUED TaskRun, and nobody at work yet. -/
def queuedOnly : Execution := ⟨{ queuedLoad with mem := {} }, []⟩

theorem unstarted_queuedOnly : Unstarted queuedOnly := ⟨rfl, fun _ => rfl, rfl⟩

/-- An executor and a worker have started the operation, and the worker is about to mark the TaskRun
RUNNING. -/
def startedOperation : List Step :=
  .spawn (.executor 3) :: .spawn (.worker 4) :: calls 0 8 ++ calls 1 5 ++ calls 0 9 ++
    .step 1 { pick := 1 } :: calls 1 5 ++ .step 1 { pick := 5 } :: calls 1 12

/-- That fails. The poll finds the operation running and repairs the row, the next one finds it
completed, and the worker is about to mark the TaskRun SUCCESS. -/
def repaired : List Step :=
  startedOperation ++ .step 1 { fail := some .lockConflict } :: calls 1 3 ++ calls 0 7 ++
    .step 1 { pick := 2 } :: calls 1 9 ++ calls 0 6 ++ .step 0 { status := .completed } :: calls 0 2 ++
    .step 1 { pick := 4 } :: calls 1 2

/-- Without the failure. -/
def undisturbed : List Step :=
  startedOperation ++ calls 1 5 ++ calls 0 3 ++ .step 0 { status := .completed } :: calls 0 2 ++
    .step 1 { pick := 2 } :: calls 1 2

theorem executes_undisturbed : Executes queuedOnly (undisturbed ++ calls 1 1) :=
  ⟨unstarted_queuedOnly, by decide +kernel⟩

theorem executes_repaired : Executes queuedOnly (repaired ++ [.step 1 {}]) :=
  ⟨unstarted_queuedOnly, by decide +kernel⟩

/-- The last write loses the operation and the start date of the row. -/
theorem end_loses_recorded : ¬∀ σ₀ as, Executes σ₀ as →
    executing.EachStep (fun σ σ' => KeepsRecorded σ.shared.db σ'.shared.db) σ₀ as := fun h =>
  Machine.not_eachStep (by decide +kernel) (h _ _ executes_repaired)

theorem undisturbed_keeps_recorded_iff :
    executing.EachStep (fun σ σ' => KeepsRecorded σ.shared.db σ'.shared.db) queuedOnly
        (undisturbed ++ calls 1 1) ∧
      ¬executing.EachStep (fun σ σ' => KeepsRecorded σ.shared.db σ'.shared.db) queuedOnly
        (repaired ++ [.step 1 {}]) :=
  ⟨(end_keeps_recorded_iff executes_undisturbed).mpr (by decide +kernel),
    fun h => absurd ((end_keeps_recorded_iff executes_repaired).mp h) (by decide +kernel)⟩

end YtScheduler
