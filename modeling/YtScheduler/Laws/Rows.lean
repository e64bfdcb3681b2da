import YtScheduler.Laws.Steps

/-! What every reachable state says about its rows: a DagRun that is not SCHEDULED has one
TaskRun for each task of its DAG if the task ids are plain, a RUNNING TaskRun names an
operation started for it, and a FAILED DagRun leaves no TaskRun SCHEDULED, unless it was
marked FAILED outside `update_state` while some TaskRun was, or by an `update_state` that
did not read it. -/

namespace YtScheduler

open Tablet Threads

variable {σ σ' σ₀ : State} {a : Step} {as : List Step}

/-- The invariant of a sound system holds of every state of a run. -/
theorem Scheduling.always_consistent (h : Scheduling σ₀ as) :
    system.Always (fun σ => Consistent σ.shared) σ₀ as := by
  rintro as₁ as₂ σ₁ rfl h1
  have h₁ : Scheduling σ₀ as₁ := ⟨h.initial, fun a ha => h.within a (List.mem_append_left as₂ ha)⟩
  exact (h₁.sound h1).inv

/-- A run changes no DAG. -/
theorem Scheduling.always_dags (h : Scheduling σ₀ as) :
    system.Always (fun σ => σ.shared.dags = σ₀.shared.dags) σ₀ as :=
  h.always rfl (fun _ _ _ hs hd _ ha => (guarantees_of_act hs ha).1.knows.dags.trans hd)
    (Machine.along_of_forall (A := fun _ => True) fun _ _ => trivial)

/-! ### One TaskRun for each task -/

structure OneTaskRunPerTask (s : Shared) : Prop where
  scheduled : ∀ id run, s.db.dagRun id = some run → run.state = .scheduled →
    ∀ id' t, s.db.taskRun id' = some t → t.dagrunId ≠ id
  others : ∀ id run, s.db.dagRun id = some run → run.state ≠ .scheduled →
    ∃ dag, s.dag? run.dagId = some dag ∧
      (∀ taskId ∈ dag.taskIds, ∃! id', ∃ t, s.db.taskRun id' = some t ∧ t.dagrunId = id ∧
        t.taskId = taskId) ∧
      ∀ id' t, s.db.taskRun id' = some t → t.dagrunId = id → t.taskId ∈ dag.taskIds

theorem Consistent.oneTaskRunPerTask {s : Shared} (h : Consistent s) (hplain : s.PlainDags) :
    OneTaskRunPerTask s where
  scheduled id run hr hs id' t ht hd := by
    obtain ⟨run', _, hr', hs', _⟩ := h.db.owner id' t ht
    rw [hd, hr] at hr'
    cases hr'
    exact hs' hs
  others id run hr hs := by
    obtain ⟨dag, hdag, hall⟩ := h.db.complete id run hr hs
    refine ⟨dag, hdag, fun taskId hm => ?_, fun id' t ht hd => ?_⟩
    · obtain ⟨id', t, ht, hd, htask⟩ := hall (hplain dag (Shared.mem_of_dag? hdag)) taskId hm
      refine ⟨id', ⟨t, ht, hd, htask⟩, fun id'' ⟨t', ht', hd', htask'⟩ => ?_⟩
      exact h.db.unique _ _ _ _ ht' ht (hd'.trans hd.symm) (htask'.trans htask.symm)
    · obtain ⟨run', dag', hr', _, _, hdag', hm⟩ := h.db.owner id' t ht
      rw [hd, hr] at hr'
      cases hr'
      rw [hdag] at hdag'
      cases hdag'
      exact hm

/-- In every reachable state of a run over plain task ids a SCHEDULED DagRun has no TaskRun and any
other has exactly one for each task of its DAG. -/
theorem exactly_one_taskRun_per_task (h : Scheduling σ₀ as) (hplain : σ₀.shared.PlainDags) :
    system.Always (fun σ => OneTaskRunPerTask σ.shared) σ₀ as := by
  intro as₁ as₂ σ₁ has h1
  have hdags : σ₁.shared.dags = σ₀.shared.dags := h.always_dags as₁ as₂ σ₁ has h1
  refine (h.always_consistent as₁ as₂ σ₁ has h1).oneTaskRunPerTask ?_
  rw [Shared.PlainDags, hdags]
  exact hplain

theorem exactly_one_taskRun_per_task_submitted :
    system.Always (fun σ => OneTaskRunPerTask σ.shared) chainRun submitted :=
  exactly_one_taskRun_per_task ⟨initial_chainRun, by decide +kernel⟩ plain_chainRun

/-- A DAG with a task id that closes the list of ids and asks for the other task of every run. -/
def injected : Dag where
  dagId := 0
  tasks := [⟨"y", 0, []⟩, ⟨"x') or task_id in ('y", 0, []⟩]
  nodup := by decide
  dagId_eq := by decide
  upstream_mem := by decide

/-- Two SCHEDULED DagRuns of `injected` under the run ids 1 and 2. -/
def injectedRuns : State :=
  stateOf ⟨[.dagRef ⟨0, "", "", default⟩, .dagRun { runId := 1, dagId := 0, state := .scheduled },
    .dagRun { runId := 2, dagId := 0, state := .scheduled }], by decide⟩ 3 [injected]

/-- They are queued one after the other. -/
def queuesBoth : List Step := .spawn (.queueRun 1 1) :: calls 0 19 ++ .spawn (.queueRun 2 1) :: calls 1 18

theorem scheduling_queuesBoth : Scheduling injectedRuns queuesBoth :=
  ⟨initial_stateOf (by decide) (by decide), by decide +kernel⟩

/-- The TaskRun of `y` in the first DagRun is taken for one of the second, which gets none. -/
theorem injected_taskRun_missing : ¬∀ σ₀ as, Scheduling σ₀ as →
    system.Always (fun σ => OneTaskRunPerTask σ.shared) σ₀ as := by
  intro h
  have hno : ¬system.Always (fun σ => ∀ run, σ.shared.db.dagRun 2 = some run →
      run.state ≠ .scheduled → ∃ r ∈ σ.shared.db.taskRuns, r.dagrunId = 2 ∧ r.taskId = "y")
      injectedRuns queuesBoth := Machine.not_always (by decide +kernel)
  refine hno fun as₁ as₂ σ₁ has h1 run hr hs => ?_
  have hdags : σ₁.shared.dags = [injected] := scheduling_queuesBoth.always_dags as₁ as₂ σ₁ has h1
  obtain ⟨dag, hdag?, hall, _⟩ := (h _ _ scheduling_queuesBoth as₁ as₂ σ₁ has h1).others 2 run hr hs
  have hmem := Shared.mem_of_dag? hdag?
  rw [hdags] at hmem
  obtain rfl := List.mem_singleton.mp hmem
  obtain ⟨id', ⟨t, ht, hd, htask⟩, _⟩ := hall "y" (by decide)
  exact ⟨t, Db.mem_taskRuns.mpr (Db.runId_of_taskRun ht ▸ ht), hd, htask⟩

/-! ### Operations of RUNNING TaskRuns -/

/-- RUNNING rows and pending operations name an operation that was started for the run. -/
structure Recoverable (s : Shared) : Prop where
  rows : ∀ id t, s.db.taskRun id = some t → t.state = .running → s.Started t.runId t.operationId
  pending : ∀ svc ∈ s.mem.services, ∀ it ∈ svc.pendingOperations, s.Started it.runId it.value

/-- In every reachable state the RUNNING TaskRuns and the maps of all executors are recoverable. -/
theorem running_rows_recoverable (h : Scheduling σ₀ as) :
    system.Always (fun σ => Recoverable σ.shared) σ₀ as := by
  intro as₁ as₂ σ₁ has h1
  have hc := h.always_consistent as₁ as₂ σ₁ has h1
  refine ⟨fun id t ht hst => ?_, fun svc hsvc => fun it hit => ((hc.mem.services svc hsvc).pending it hit).started⟩
  rw [Db.runId_of_taskRun ht]
  exact hc.db.running id t ht hst

/-- The root of `chainRun` is submitted and its operation is started. -/
def starts : List Step := submitted ++ .step 2 { pick := 1 } :: calls 2 23

theorem running_rows_recoverable_starts :
    system.Always (fun σ => Recoverable σ.shared) chainRun starts :=
  running_rows_recoverable ⟨initial_chainRun, by decide +kernel⟩

/-! ### TaskRuns of FAILED DagRuns -/

def NoneStranded (db : Db) : Prop :=
  ∀ id run, db.dagRun id = some run → run.state = .failed →
    ∀ id' t, db.taskRun id' = some t → t.dagrunId = id → t.state ≠ .scheduled

/-- An unfinished TaskRun of a FAILED DagRun is QUEUED or RUNNING, and the cleanup of the
executor whose shard it is in selects it. -/
def CleansUp (s : Shared) : Prop :=
  ∀ id run, s.db.dagRun id = some run → run.state = .failed →
    ∀ id' t, s.db.taskRun id' = some t → t.dagrunId = id → t.state ∉ TaskRunState.finishedStates →
      (t.state = .queued ∨ t.state = .running) ∧
        ∀ shard : ShardingOptions, shard.selects s.engine.farmHash t.runId = true →
          t ∈ orphanedTaskRuns shard s.engine s.db

instance (db : Db) : Decidable (NoneStranded db) := by
  unfold NoneStranded
  infer_instance

theorem cleansUp_iff {s : Shared} : CleansUp s ↔ NoneStranded s.db := by
  constructor
  · intro h id run hr hf id' t ht hd hst
    have hu : t.state ∉ TaskRunState.finishedStates := by rw [hst]; decide
    rcases (h id run hr hf id' t ht hd hu).1 with hq | hq <;> rw [hst] at hq <;> cases hq
  · intro h id run hr hf id' t ht hd hu
    have hne := h id run hr hf id' t ht hd
    have hst : t.state = .queued ∨ t.state = .running := by
      revert hu hne
      cases t.state <;> decide
    refine ⟨hst, fun shard hshard => mem_orphanedTaskRuns.mpr ⟨?_, hst, ⟨run, ?_, hf⟩, hshard⟩⟩
    · rw [Db.runId_of_taskRun ht]
      exact ht
    · rw [hd]
      exact hr

/-- A batch that makes no TaskRun SCHEDULED, and takes the SCHEDULED ones away from the DagRuns it
marks FAILED. -/
theorem NoneStranded.of_rows {db : Db} {rows : List Row} (h : NoneStranded db)
    (htr : ∀ t, .taskRun t ∈ rows → t.state ≠ .scheduled)
    (hrun : ∀ run, .dagRun run ∈ rows → run.state = .failed → ∀ id t, db.taskRun id = some t →
      t.dagrunId = run.runId → t.state = .scheduled → ∃ t', .taskRun t' ∈ rows ∧ t'.runId = id) :
    NoneStranded (db.upsertAll rows) := by
  intro id run hr hf id' t ht hd hst
  rcases Db.get_upsertAll_cases ht with ⟨hm, _⟩ | ⟨hn, h₀⟩
  · exact htr t hm hst
  · rcases Db.get_upsertAll_cases hr with ⟨hm, hid⟩ | ⟨_, hr₀⟩
    · obtain ⟨t', hm', hid'⟩ := hrun run hm hf id' t h₀ (hd.trans hid.symm) hst
      exact hn t' hm' hid'
    · exact h id run hr₀ hf id' t h₀ hd hst

/-- Where a DagRun was active in a snapshot, its TaskRuns of today were there. -/
theorem Consistent.taskRun_asOf {s : Shared} (h : Consistent s) {ts : ℕ} {id : Uuid}
    {run : DagRunRow} (hr : Db.dagRun (s.store.asOf ts) id = some run) (hst : run.state ≠ .scheduled)
    {id' : Uuid} {t : TaskRunRow} (ht : s.db.taskRun id' = some t) (hd : t.dagrunId = id) :
    ∃ t₀, Db.taskRun (s.store.asOf ts) id' = some t₀ ∧ t.ident = t₀.ident ∧
      (t₀.state ≠ .scheduled → t.state ≠ .scheduled) := by
  obtain ⟨t₀, ht₀⟩ := (h.persists ts).taskRun_old id' t ht run (hd ▸ hr) hst
  obtain ⟨t₁, ht₁, hi, hs⟩ := (h.persists ts).taskRun id' t₀ ht₀
  obtain rfl : t = t₁ := Option.some.inj (ht.symm.trans ht₁)
  exact ⟨t₀, ht₀, hi, hs⟩

/-- An upsert outside a transaction marks a DagRun FAILED only when no TaskRun of it is SCHEDULED,
and a transaction only when it read those that are. -/
structure FailsUnstranded (σ : State) (a : Step) : Prop where
  upserts : ∀ rows, Upserts σ a rows → ∀ run, .dagRun run ∈ rows → run.state = .failed →
    ∀ id t, σ.shared.db.taskRun id = some t → t.dagrunId = run.runId → t.state ≠ .scheduled
  commits : ∀ tx, Commits σ a tx → ∀ run, .dagRun run ∈ tx.writes → run.state = .failed →
    ∀ dag, σ.shared.dag? run.dagId = some dag → ∀ id t, σ.shared.db.taskRun id = some t →
      t.dagrunId = run.runId → t.state = .scheduled →
        ∃ t₀ ∈ DagRun.readTrs σ.shared.engine (σ.shared.store.asOf tx.start) run dag, t₀.runId = id

instance (σ : State) (a : Step) : Decidable (FailsUnstranded σ a) :=
  decidable_of_iff
    ((∀ rows, Upserts σ a rows → ∀ run, .dagRun run ∈ rows → run.state = .failed →
        ∀ id t, σ.shared.db.taskRun id = some t → t.dagrunId = run.runId → t.state ≠ .scheduled) ∧
      ∀ tx, Commits σ a tx → ∀ run, .dagRun run ∈ tx.writes → run.state = .failed →
        ∀ dag, σ.shared.dag? run.dagId = some dag → ∀ id t, σ.shared.db.taskRun id = some t →
          t.dagrunId = run.runId → t.state = .scheduled →
            ∃ t₀ ∈ DagRun.readTrs σ.shared.engine (σ.shared.store.asOf tx.start) run dag, t₀.runId = id)
    ⟨fun h => ⟨h.1, h.2⟩, fun h => ⟨h.upserts, h.commits⟩⟩

/-- The step lemma. -/
theorem NoneStranded.act (h : SoundState σ) (hn : NoneStranded σ.shared.db)
    (hc : FailsUnstranded σ a) (ha : system.act σ a = some σ') : NoneStranded σ'.shared.db := by
  have hdb : ∀ {c : Commit Row}, σ'.shared.store = σ.shared.store.append c →
      σ'.shared.db = σ.shared.db.upsertAll c.rows := by
    intro c hs
    rw [Shared.db, hs, Store.current_append]
  cases effect_of_act h ha with
  | quiet hs =>
    rw [Shared.db, hs]
    exact hn
  | @queues i ts run dag trs h' hcm hs =>
    rw [hdb hs]
    have hcr := h'.creates hcm.not_conflict
    intro id run' hr hf id' t ht hd
    by_cases hid : id = run.runId
    · subst hid
      obtain rfl : run' = run := Option.some.inj (hr.symm.trans (dagRun_upsertAll_batch _ _ _))
      rw [hcr.queued] at hf
      cases hf
    · rcases hcr.taskRun_iff.mp ht with ⟨hm, _⟩ | h₀
      · exact absurd (hd.symm.trans (hcr.owner t hm).1) hid
      · exact hn id run' ((hcr.dagRun_of_ne hid).symm.trans hr) hf id' t h₀ hd
  | verdict hdag h' hcm hs =>
    rw [hdb hs]
    refine hn.of_rows (fun t ht => ?_) fun run hr hf id t ht hd hst => ?_
    · rw [(h'.skips t (taskRun_mem_batch.mp ht)).1]
      decide
    · obtain rfl := dagRun_mem_batch.mp hr
      obtain ⟨run₀, hr₀, _, hs₀⟩ := h'.persisted
      obtain ⟨t₀, ht₀, hi, hs₀'⟩ := h.inv.taskRun_asOf hr₀ hs₀ ht hd
      have hwait : t₀.state = .scheduled := by
        by_contra hne
        exact hs₀' hne hst
      obtain ⟨r, hread, hid⟩ := hc.commits _ hcm run hr hf _ hdag id t ht hd hst
      obtain rfl : r = t₀ := by
        have hr₁ := (mem_select_taskRuns hread).1
        rw [hid, ht₀] at hr₁
        exact (Option.some.inj hr₁).symm
      obtain ⟨t', hm, hid'⟩ := h'.waiting hf r hread (Or.inl hwait)
      exact ⟨t', taskRun_mem_batch.mpr hm, hid'.trans hid⟩
  | releases h' hcm hs =>
    rw [hdb hs]
    refine hn.of_rows (fun t ht => ?_) fun run hr => by simp at hr
    rw [(h'.queues t (by simpa using ht)).1]
    decide
  | setsTaskRuns _ h' _ hs =>
    rw [hdb hs]
    exact hn.of_rows (fun t ht => (h' t (by simpa using ht)).2.state) fun run hr => by simp at hr
  | setsDagRun _ _ hu hs =>
    rw [hdb hs]
    exact hn.of_rows (fun t ht => by simp at ht) fun run hr hf id t ht hd hst =>
      absurd hst (hc.upserts _ hu run hr hf id t ht hd)

/-- A step that marks a DagRun FAILED and strands no TaskRun writes the SCHEDULED ones. -/
theorem NoneStranded.exists_written {c : Commit Row} (hn : NoneStranded (σ.shared.db.upsertAll c.rows))
    (heff : Effect σ a (σ.shared.store.append c)) {run : DagRunRow} (hr : .dagRun run ∈ c.rows)
    (hf : run.state = .failed) {id : Uuid} {t : TaskRunRow} (ht : σ.shared.db.taskRun id = some t)
    (hd : t.dagrunId = run.runId) (hst : t.state = .scheduled) :
    ∃ t', .taskRun t' ∈ c.rows ∧ t'.runId = id := by
  by_contra hno
  have hnot : ∀ b : TaskRunRow, RowKind.toRow b ∈ c.rows → RowKind.id b ≠ id :=
    fun b hb he => hno ⟨b, hb, he⟩
  have hw : ∃ b : DagRunRow, RowKind.toRow b ∈ c.rows ∧ RowKind.id b = run.runId := ⟨run, hr, rfl⟩
  obtain ⟨run', hm, _, hget⟩ := Db.get_upsertAll_of_written σ.shared.db hw
  obtain rfl := heff.dagRun_unique hr hm
  exact hn _ run' hget hf id t ((Db.get_upsertAll_of_not_written hnot).trans ht) hd hst

/-- A transaction that marks a DagRun FAILED is a verdict on the TaskRuns it read. -/
theorem Commits.verdict_of_failed (h : SoundState σ) {tx : Tx Row} (hc : Commits σ a tx) {run : DagRunRow}
    (hr : .dagRun run ∈ tx.writes) (hf : run.state = .failed) :
    ∃ dag skipped, σ.shared.dag? run.dagId = some dag ∧ tx.writes = batch run skipped ∧
      Verdict (σ.shared.store.asOf tx.start)
        (DagRun.readTrs σ.shared.engine (σ.shared.store.asOf tx.start) run dag) run skipped := by
  obtain ⟨start, writes⟩ := tx
  obtain ⟨i, σ', ha, hs⟩ := hc.act
  have heff := hs ▸ effect_of_act h ha
  cases heff with
  | quiet hs' => exact absurd hs'.symm (Store.ne_append _ _)
  | queues h' _ hs' =>
    cases Store.append_inj hs'
    obtain rfl := dagRun_mem_batch.mp hr
    rw [h'.queued] at hf
    cases hf
  | @verdict _ _ _ dag skipped hdag h' _ hs' =>
    cases Store.append_inj hs'
    obtain rfl := dagRun_mem_batch.mp hr
    exact ⟨dag, skipped, hdag, rfl, h'⟩
  | releases _ _ hs' =>
    cases Store.append_inj hs'
    simp at hr
  | setsTaskRuns _ _ hu _ | setsDagRun _ _ hu _ => exact absurd hc hu.not_commits

/-- A step that strands a TaskRun of a DagRun leads to a state with a stranded TaskRun. -/
theorem FailsUnstranded.of_act (h : SoundState σ)
    (hn : ∀ σ', system.act σ a = some σ' → NoneStranded σ'.shared.db) : FailsUnstranded σ a := by
  have hdb : ∀ {σ' : State} {c : Commit Row}, system.act σ a = some σ' →
      σ'.shared.store = σ.shared.store.append c → NoneStranded (σ.shared.db.upsertAll c.rows) := by
    intro σ' c ha hs
    have hn' := hn σ' ha
    rwa [Shared.db, hs, Store.current_append] at hn'
  refine ⟨fun rows hu run hr hf id t ht hd hst => ?_, fun tx hc run hr hf dag hdag id t ht hd hst => ?_⟩
  · obtain ⟨i, σ', ha, hs⟩ := hu.act
    have heff := hs ▸ effect_of_act h ha
    obtain ⟨t', ht', _⟩ := (hdb ha hs).exists_written heff hr hf ht hd hst
    cases heff with
    | quiet hs' => exact absurd hs'.symm (Store.ne_append _ _)
    | queues _ hc hs' | verdict _ _ hc hs' | releases _ hc hs' => exact absurd hc hu.not_commits
    | setsTaskRuns _ _ _ hs' =>
      cases Store.append_inj hs'
      simp at hr
    | setsDagRun _ _ _ hs' =>
      cases Store.append_inj hs'
      simp at ht'
  · obtain ⟨i, σ', ha, hs⟩ := hc.act
    have heff := hs ▸ effect_of_act h ha
    obtain ⟨t', ht', hid⟩ := (hdb ha hs).exists_written heff hr hf ht hd hst
    obtain ⟨dag', skipped, hdag', hwrites, hv⟩ := hc.verdict_of_failed h hr hf
    obtain rfl := Option.some.inj (hdag'.symm.trans hdag)
    rw [hwrites] at ht'
    -- what it wrote for the TaskRun it had read
    obtain ⟨_, _, t₀, hread, _, hi, _⟩ := hv.skips t' (taskRun_mem_batch.mp ht')
    exact ⟨t₀, hread, (TaskRunRow.runId_of_ident hi).symm.trans hid⟩

/-- Over plain task ids every transaction reads the TaskRuns of its DagRun. -/
theorem FailsUnstranded.of_plain (h : SoundState σ) (hplain : σ.shared.PlainDags)
    (hu : ∀ rows, Upserts σ a rows → ∀ run, .dagRun run ∈ rows → run.state = .failed →
      ∀ id t, σ.shared.db.taskRun id = some t → t.dagrunId = run.runId → t.state ≠ .scheduled) :
    FailsUnstranded σ a := by
  refine ⟨hu, fun tx hc run hr hf dag hdag id t ht hd hst => ?_⟩
  obtain ⟨_, _, _, _, hv⟩ := hc.verdict_of_failed h hr hf
  obtain ⟨run₀, hr₀, hi₀, hs₀⟩ := hv.persisted
  obtain ⟨t₀, ht₀, hi, _⟩ := h.inv.taskRun_asOf hr₀ hs₀ ht hd
  have hid : t₀.runId = id := Db.runId_of_taskRun ht₀
  have hd₀ : t₀.dagrunId = t.dagrunId := congrArg TaskRunIdent.dagrunId hi.symm
  refine ⟨t₀, ?_, hid⟩
  rw [(h.inv.tables tx.start).mem_readTrs (hplain dag (Shared.mem_of_dag? hdag)) hdag hr₀ hi₀]
  exact ⟨hid.symm ▸ ht₀, hd₀.trans hd⟩

/-- A FAILED DagRun strands no TaskRun exactly when no upsert outside a transaction marks a DagRun
FAILED while one of its TaskRuns is SCHEDULED, and no transaction while one is that it did not
read. -/
theorem failed_dagRuns_strand_none_iff (h : Scheduling σ₀ as) :
    system.Always (fun σ => CleansUp σ.shared) σ₀ as ↔ system.Along FailsUnstranded σ₀ as := by
  have h0 : NoneStranded σ₀.shared.db := by
    intro id run hr hf id' t ht
    rw [h.initial.taskRuns id'] at ht
    cases ht
  simp only [cleansUp_iff]
  constructor
  · intro hall
    exact h.along_imp (fun σ a hs hn => .of_act hs hn) ((Machine.always_iff h0).mp hall)
  · exact h.always h0 fun σ a σ' hs hn hc ha => hn.act hs hc ha

/-- The root of `chainRun` is submitted and its DAG cannot be loaded. -/
def failsToLoad : List Step :=
  submitted ++ .step 2 { pick := 1 } :: calls 2 3 ++
    .step 2 { fail := some .dagInitialization } :: calls 2 2

theorem scheduling_failsToLoad : Scheduling chainRun (failsToLoad ++ calls 2 1) :=
  ⟨initial_chainRun, by decide +kernel⟩

/-- The DagRun is FAILED and the TaskRun of its second task stays SCHEDULED. -/
theorem failed_dagRun_strands : ¬∀ σ₀ as, Scheduling σ₀ as →
    system.Always (fun σ => CleansUp σ.shared) σ₀ as := by
  intro h
  have hno : ¬system.Always (fun σ => NoneStranded σ.shared.db) chainRun (failsToLoad ++ calls 2 1) :=
    Machine.not_always (by decide +kernel)
  have hc := h _ _ scheduling_failsToLoad
  simp only [cleansUp_iff] at hc
  exact hno hc

theorem failed_dagRuns_strand_none_iff_failsToLoad :
    system.Always (fun σ => CleansUp σ.shared) chainRun failsToLoad ∧
      ¬system.Always (fun σ => CleansUp σ.shared) chainRun (failsToLoad ++ calls 2 1) :=
  ⟨(failed_dagRuns_strand_none_iff ⟨initial_chainRun, by decide +kernel⟩).mpr (by decide +kernel),
    fun h => absurd ((failed_dagRuns_strand_none_iff scheduling_failsToLoad).mp h)
      (by decide +kernel)⟩

end YtScheduler
