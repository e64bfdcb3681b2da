import YtScheduler.Consistency.Services
import YtScheduler.Services.Steps

/-! Runs of the scheduling system. They start from SCHEDULED DagRuns without TaskRuns and
interleave schedulers, executors, workers and direct callers. In a sound system every
commit is one that is accounted for. -/

namespace YtScheduler

open Tablet Threads

variable {σ σ' σ₀ : State} {a : Step} {as : List Step}

/-- Where a run starts: no thread, no object, no TaskRun, and every DagRun SCHEDULED. -/
structure Initial (σ : State) : Prop where
  threads : σ.threads = []
  log : σ.shared.store.log = []
  opened : ∀ c, σ.shared.opened c = []
  mem : σ.shared.mem = {}
  taskRuns : ∀ id, σ.shared.db.taskRun id = none
  dagRuns : ∀ id run, σ.shared.db.dagRun id = some run →
    run.state = .scheduled ∧ id < σ.shared.uuids

/-- A run of the threads that queue, examine and execute DagRuns. -/
structure Scheduling (σ₀ : State) (as : List Step) : Prop where
  initial : Initial σ₀
  within : ∀ a ∈ as, a.Within Entry.Schedules

abbrev SoundState (σ : State) : Prop := Sound system contract (fun i => Ended i none) σ

theorem Initial.asOf (h : Initial σ) (ts : ℕ) : σ.shared.store.asOf ts = σ.shared.db := by
  simp [Store.asOf, Store.current, h.log]

theorem Initial.consistent (h : Initial σ) : Consistent σ.shared where
  tables ts := by
    have hno : ∀ {id t}, σ.shared.db.taskRun id = some t → False := by
      intro id t ht
      rw [h.taskRuns id] at ht
      cases ht
    rw [h.asOf ts]
    exact
      { taskRun_lt := fun _ _ ht => (hno ht).elim
        dagRun_lt := fun id run hr => (h.dagRuns id run hr).2
        disjoint := fun _ _ ht => (hno ht).elim
        owner := fun _ _ ht => (hno ht).elim
        unique := fun _ _ _ _ ht => (hno ht).elim
        complete := fun id run hr hs => absurd (h.dagRuns id run hr).1 hs
        running := fun _ _ ht => (hno ht).elim }
  persists ts := by
    rw [h.asOf ts]
    exact .refl _
  mem := by
    rw [h.mem]
    exact ⟨by simp, by simp, by simp, by simp, by simp⟩
  forwarded := by simp [h.mem]
  global := by simp [h.opened]

theorem Initial.sound (h : Initial σ) : SoundState σ where
  inv := h.consistent
  safe := by simp [h.threads]
  fresh _ _ := h.opened _

namespace Scheduling

theorem sound (h : Scheduling σ₀ as) (hr : system.run σ₀ as = some σ) : SoundState σ :=
  h.initial.sound.run schedules_startable h.within hr

/-- The sound states of a run meet `D` whenever they meet `C`. -/
theorem along_imp (h : Scheduling σ₀ as) {C D : State → Step → Prop}
    (himp : ∀ σ a, SoundState σ → C σ a → D σ a) (hc : system.Along C σ₀ as) :
    system.Along D σ₀ as :=
  h.initial.sound.along_imp schedules_startable h.within himp hc

theorem along_iff (h : Scheduling σ₀ as) {C D : State → Step → Prop}
    (hiff : ∀ σ a, SoundState σ → (C σ a ↔ D σ a)) :
    system.Along C σ₀ as ↔ system.Along D σ₀ as :=
  ⟨h.along_imp fun σ a hs => (hiff σ a hs).mp, h.along_imp fun σ a hs => (hiff σ a hs).mpr⟩

/-- What a sound state keeps under `C` holds of every state of a run that meets `C`. -/
theorem always (h : Scheduling σ₀ as) {C : State → Step → Prop} {P : State → Prop} (h0 : P σ₀)
    (hact : ∀ σ a σ', SoundState σ → P σ → C σ a → system.act σ a = some σ' → P σ')
    (hc : system.Along C σ₀ as) : system.Always P σ₀ as := by
  rintro as₁ as₂ σ₁ rfl h1
  have hin := fun a ha => h.within a (List.mem_append_left as₂ ha)
  refine (Machine.along_induction (P := fun σ => SoundState σ ∧ P σ) ⟨h.initial.sound, h0⟩
    (fun σ a σ' hP hC ha => ⟨hP.1.act schedules_startable hC.1 ha, hact σ a σ' hP.1 hP.2 hC.2 ha⟩)
    (Machine.along_and (Machine.along_of_forall hin) (Machine.along_left hc)) h1).2

end Scheduling

/-! ### The effect of a step -/

/-- A step grows the state, and its commit refers to a snapshot that was taken. -/
theorem guarantees_of_act (h : SoundState σ) (ha : system.act σ a = some σ') :
    Grows σ.shared σ'.shared ∧
      ∀ c, σ'.shared.store = σ.shared.store.append c → c.start ≤ σ.shared.store.now := by
  cases a with
  | spawn e =>
    cases ha
    exact ⟨.refl _, fun c hs => absurd hs (Store.ne_append _ _)⟩
  | step i ch =>
    obtain ⟨l, o, k, _, _, howed, _⟩ := h.step ha
    exact ⟨howed.guar.grows, fun c hs => (howed.guar.committed c hs).2⟩

/-- What one step of a scheduling run does to the store, with what its writer knew. -/
inductive Effect (σ : State) (a : Step) (store : Store Row) : Prop
  | quiet (hs : store = σ.shared.store)
  | queues {i ts : ℕ} {run : DagRunRow} {dag : Dag} {trs : List TaskRunRow}
      (h : Queues σ.shared (σ.shared.store.asOf ts) run dag trs)
      (hc : Commits σ a ⟨ts, batch run trs⟩)
      (hs : store = σ.shared.store.append ⟨i, true, ts, batch run trs⟩)
  | verdict {i ts : ℕ} {run : DagRunRow} {dag : Dag} {skipped : List TaskRunRow}
      (hdag : σ.shared.dag? run.dagId = some dag)
      (h : Verdict (σ.shared.store.asOf ts)
        (DagRun.readTrs σ.shared.engine (σ.shared.store.asOf ts) run dag) run skipped)
      (hc : Commits σ a ⟨ts, batch run skipped⟩)
      (hs : store = σ.shared.store.append ⟨i, true, ts, batch run skipped⟩)
  | releases {i ts : ℕ} {runId : Uuid} {trs : List TaskRunRow}
      (h : Releases i σ.shared (σ.shared.store.asOf ts) runId trs)
      (hc : Commits σ a ⟨ts, trs.map .taskRun⟩)
      (hs : store = σ.shared.store.append ⟨i, true, ts, trs.map .taskRun⟩)
  | setsTaskRuns {i : ℕ} {st : TaskRunState} {trs : List TaskRunRow} (hst : st ≠ .queued)
      (h : ∀ t ∈ trs, t.state = st ∧ SetsTaskRun σ.shared t) (hu : Upserts σ a (trs.map .taskRun))
      (hs : store = σ.shared.store.append ⟨i, false, σ.shared.store.now, trs.map .taskRun⟩)
  | setsDagRun {i : ℕ} {run : DagRunRow} (h : SetsDagRun σ.shared run)
      (hst : run.state = .running ∨ run.state = .failed) (hu : Upserts σ a [.dagRun run])
      (hs : store = σ.shared.store.append ⟨i, false, σ.shared.store.now, [.dagRun run]⟩)

/-- Every step of a sound system has one of these effects. -/
theorem effect_of_act (h : SoundState σ) (ha : system.act σ a = some σ') :
    Effect σ a σ'.shared.store := by
  cases a with
  | spawn e => cases ha; exact .quiet rfl
  | step i ch =>
    obtain ⟨l, o, k, hth, hσ', howed, _⟩ := h.step ha
    have hcom : ∀ c, σ'.shared.store = σ.shared.store.append c → Committed i σ.shared o c :=
      fun c hs => (howed.guar.committed c hs).1
    have hexec : σ'.shared = (o.exec i ch l σ.shared).2.2 := by rw [hσ']; rfl
    rcases Op.exec_store o i ch l σ.shared with hs | ⟨c, rows, ho, hf, hop, hs⟩ |
      ⟨c, tx, ho, hf, htx, hw, hc, hs⟩
    · exact .quiet (by rw [hexec, hs])
    · rw [← hexec] at hs
      subst ho
      have hup : Upserts σ (.step i ch) rows := ⟨i, c, ⟨ch, l, k, rfl, hf, hth⟩, hop⟩
      generalize hcm : (⟨i, false, σ.shared.store.now, rows⟩ : Commit Row) = cm at hs
      have hcase := hcom cm hs
      cases hcase with
      | setsTaskRuns hst h => exact .setsTaskRuns hst h hup hs
      | setsDagRun h hst => exact .setsDagRun h hst hup hs
    · rw [← hexec] at hs
      subst ho
      have hcm : Commits σ (.step i ch) tx := ⟨i, c, ⟨ch, l, k, rfl, hf, hth⟩, htx, hw, hc⟩
      obtain ⟨start, writes⟩ := tx
      have hcase := hcom _ hs
      generalize hc' : (⟨i, true, start, writes⟩ : Commit Row) = cm at hcase hs
      cases hcase with
      | queues h => cases hc'; exact .queues h hcm hs
      | verdict hdag h => cases hc'; exact .verdict hdag h hcm hs
      | releases h => cases hc'; exact .releases h hcm hs

/-- A step writes at most one DagRun. -/
theorem Effect.dagRun_unique {c : Commit Row} (h : Effect σ a (σ.shared.store.append c))
    {run run' : DagRunRow} (hr : .dagRun run ∈ c.rows) (hr' : .dagRun run' ∈ c.rows) :
    run' = run := by
  cases h with
  | quiet hs => exact absurd hs.symm (Store.ne_append _ _)
  | queues _ _ hs | verdict _ _ _ hs | releases _ _ hs | setsTaskRuns _ _ _ hs | setsDagRun _ _ _ hs =>
    cases Store.append_inj hs
    simp_all

/-! ### Concrete runs -/

theorem initial_stateOf {db : Db} {uuids : ℕ} {dags : List Dag} (htr : db.taskRuns = [])
    (hdr : ∀ run ∈ db.dagRuns, run.state = .scheduled ∧ run.runId < uuids) :
    Initial (stateOf db uuids dags) where
  threads := rfl
  log := rfl
  opened _ := rfl
  mem := rfl
  taskRuns id := by
    refine Option.eq_none_iff_forall_ne_some.mpr fun t ht => ?_
    have hm : t ∈ db.taskRuns := Db.mem_taskRuns.mpr (Db.runId_of_taskRun ht ▸ ht)
    rw [htr] at hm
    cases hm
  dagRuns id run hr := by
    have hid : run.runId = id := Db.runId_of_dagRun hr
    subst hid
    exact hdr run (Db.mem_dagRuns.mpr hr)

/-- One task after another. -/
def chain : Dag where
  dagId := 0
  tasks := [⟨"extract", 0, []⟩, ⟨"load", 0, ["extract"]⟩]
  nodup := by decide
  dagId_eq := by decide
  upstream_mem := by decide

/-- A SCHEDULED DagRun of `chain` under the run id 1. -/
def chainRun : State :=
  stateOf ⟨[.dagRef ⟨0, "", "", default⟩, .dagRun { runId := 1, dagId := 0, state := .scheduled }],
    by decide⟩ 2 [chain]

theorem initial_chainRun : Initial chainRun := initial_stateOf (by decide) (by decide)

theorem plain_chain : chain.Plain := by decide +kernel

theorem plain_chainRun : chainRun.shared.PlainDags := by
  intro dag hdag
  obtain rfl : dag = chain := List.mem_singleton.mp hdag
  exact plain_chain

/-- Thread 0 queues the DagRun, the worker 2 fetches its root, and the executor 1 submits it. -/
def submitted : List Step :=
  .spawn (.queueRun 1 1) :: calls 0 19 ++ .spawn (.executor 3) :: calls 1 9 ++
    .spawn (.worker 9) :: calls 2 5 ++ calls 1 4

/-- The executor fetches and submits the root once more. -/
def resubmitted : List Step := submitted ++ calls 1 7 ++ .step 2 { pick := 2 } :: calls 2 4 ++ calls 1 4

end YtScheduler
