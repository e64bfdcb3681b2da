import YtScheduler.Laws.Steps

/-! What is finished stays finished, for TaskRuns and for DagRuns. Transactions cannot
undo a finished TaskRun, because they saw it unfinished and nobody wrote it since;
an upsert outside a transaction can. A DagRun is also reopened by an `update_state`
that finds it finished without the TaskRuns to show for it. -/

namespace YtScheduler

open Tablet Threads

variable {σ σ' σ₀ : State} {a : Step} {as : List Step}

/-! ### TaskRuns -/

/-- Finished TaskRuns have the state they had. -/
def FinishedStay (db db' : Db) : Prop :=
  ∀ id t, db.taskRun id = some t → t.state ∈ TaskRunState.finishedStates →
    ∃ t', db'.taskRun id = some t' ∧ t'.state = t.state

instance (db db' : Db) : Decidable (FinishedStay db db') := by
  unfold FinishedStay
  infer_instance

theorem FinishedStay.refl (db : Db) : FinishedStay db db := fun _ t ht _ => ⟨t, ht, rfl⟩

theorem FinishedStay.trans {db db' db'' : Db} (h : FinishedStay db db')
    (h' : FinishedStay db' db'') : FinishedStay db db'' := by
  intro id t ht hf
  obtain ⟨t', ht', hst⟩ := h id t ht hf
  obtain ⟨t'', ht'', hst'⟩ := h' id t' ht' (hst ▸ hf)
  exact ⟨t'', ht'', hst'.trans hst⟩

/-- A batch that writes finished TaskRuns only in the state they have. -/
theorem FinishedStay.of_rows {db : Db} {rows : List Row}
    (h : ∀ t, .taskRun t ∈ rows → ∀ t₀, db.taskRun t.runId = some t₀ →
      t₀.state ∈ TaskRunState.finishedStates → t.state = t₀.state) :
    FinishedStay db (db.upsertAll rows) := by
  intro id t₀ h₀ hf
  by_cases hw : ∃ b : TaskRunRow, RowKind.toRow b ∈ rows ∧ RowKind.id b = id
  · obtain ⟨t, hm, rfl, ht⟩ := Db.get_upsertAll_of_written db hw
    exact ⟨t, ht, h t hm t₀ h₀ hf⟩
  · have hn : ∀ b : TaskRunRow, RowKind.toRow b ∈ rows → RowKind.id b ≠ id :=
      fun b hb he => hw ⟨b, hb, he⟩
    exact ⟨t₀, (Db.get_upsertAll_of_not_written hn).trans h₀, rfl⟩

/-- An upsert outside a transaction writes no TaskRun that is finished in another state. -/
def SparesFinished (σ : State) (a : Step) : Prop :=
  ∀ rows, Upserts σ a rows → ∀ t, .taskRun t ∈ rows → ∀ t₀, σ.shared.db.taskRun t.runId = some t₀ →
    t₀.state ∈ TaskRunState.finishedStates → t.state = t₀.state

instance (σ : State) (a : Step) : Decidable (SparesFinished σ a) := by
  unfold SparesFinished
  infer_instance

/-- Only an upsert outside a transaction writes a TaskRun that is finished, and it writes one
state. -/
theorem Effect.finished {c : Commit Row} (h : Effect σ a (σ.shared.store.append c)) {t t₀ : TaskRunRow}
    (ht : .taskRun t ∈ c.rows) (h₀ : σ.shared.db.taskRun t.runId = some t₀)
    (hf : t₀.state ∈ TaskRunState.finishedStates) :
    Upserts σ a c.rows ∧ ∀ t', .taskRun t' ∈ c.rows → t'.state = t.state := by
  have hno : ∀ {ts : ℕ} {rows : List Row} {t₁ : TaskRunRow}, Commits σ a ⟨ts, rows⟩ →
      .taskRun t ∈ rows → Db.taskRun (σ.shared.store.asOf ts) t.runId = some t₁ →
      t₁.state ∉ TaskRunState.finishedStates → False := by
    intro ts rows t₁ hc hm h₁ hu
    have heq := get_asOf_of_not_conflict (a := t) hc.not_conflict hm h₁
    obtain rfl : t₀ = t₁ := Option.some.inj (h₀.symm.trans heq)
    exact hu hf
  cases h with
  | quiet hs => exact absurd hs.symm (Store.ne_append _ _)
  | queues h hc hs =>
    cases Store.append_inj hs
    obtain ⟨hnone, _⟩ := (h.creates hc.not_conflict).unused t (by simpa using ht)
    rw [h₀] at hnone
    cases hnone
  | verdict _ h hc hs =>
    cases Store.append_inj hs
    obtain ⟨_, _, t₁, _, h₁, _, hst⟩ := h.skips t (by simpa using ht)
    exact (hno hc ht h₁ (by rcases hst with hst | hst <;> rw [hst] <;> decide)).elim
  | releases h hc hs =>
    cases Store.append_inj hs
    obtain ⟨_, t₁, h₁, _, hst, _⟩ := h.queues t (by simpa using ht)
    exact (hno hc ht h₁ (by rw [hst]; decide)).elim
  | setsTaskRuns _ h hu hs =>
    cases Store.append_inj hs
    refine ⟨hu, fun t' ht' => ?_⟩
    rw [(h t (by simpa using ht)).1, (h t' (by simpa using ht')).1]
  | setsDagRun _ _ _ hs =>
    cases Store.append_inj hs
    simp at ht

/-- The step lemma. -/
theorem finishedStay_iff (h : SoundState σ) :
    (∀ σ', system.act σ a = some σ' → FinishedStay σ.shared.db σ'.shared.db) ↔
      SparesFinished σ a := by
  constructor
  · intro hstay rows hu t ht t₀ h₀ hf
    obtain ⟨i, σ', ha, hs⟩ := hu.act
    have heff := hs ▸ effect_of_act h ha
    obtain ⟨t', ht', hst⟩ := hstay σ' ha _ t₀ h₀ hf
    rw [Shared.db, hs, Store.current_append] at ht'
    have hw : ∃ b : TaskRunRow, RowKind.toRow b ∈ rows ∧ RowKind.id b = t.runId := ⟨t, ht, rfl⟩
    obtain ⟨t'', hm, _, hget⟩ := Db.get_upsertAll_of_written σ.shared.db hw
    obtain rfl : t'' = t' := Option.some.inj (hget.symm.trans ht')
    rw [← hst]
    exact ((heff.finished ht h₀ hf).2 t'' hm).symm
  · intro hspare σ' ha
    rcases act_store ha with hs | ⟨i, rows, hu, hs⟩ | ⟨i, tx, hc, hs⟩
    · rw [Shared.db, Shared.db, hs]
      exact .refl _
    · rw [Shared.db, Shared.db, hs, Store.current_append]
      exact .of_rows (hspare rows hu)
    · have heff := hs ▸ effect_of_act h ha
      rw [Shared.db, Shared.db, hs, Store.current_append]
      refine .of_rows fun t ht t₀ h₀ hf => ?_
      exact absurd hc (heff.finished ht h₀ hf).1.not_commits

/-- A finished TaskRun stays as it finished exactly when every upsert outside a transaction
spares the TaskRuns that are finished. -/
theorem finished_taskRuns_stay_iff (h : Scheduling σ₀ as) :
    system.Throughout (fun σ σ' => FinishedStay σ.shared.db σ'.shared.db) σ₀ as ↔
      system.Along SparesFinished σ₀ as := by
  rw [Machine.throughout_iff (fun _ => .refl _) fun _ _ _ => .trans]
  exact h.along_iff fun _ _ => finishedStay_iff

/-- The first submission runs to SUCCESS, then the second one fails to start its operation. -/
def startsTwice : List Step :=
  resubmitted ++ .step 2 { pick := 1 } :: calls 2 23 ++ calls 1 7 ++
    .step 1 { status := .completed } :: calls 1 4 ++ .step 2 { pick := 4 } :: calls 2 6 ++
    .step 2 { pick := 2 } :: calls 2 5 ++ .step 2 { fail := some .runtime } :: calls 2 2

theorem scheduling_startsTwice : Scheduling chainRun (startsTwice ++ calls 2 1) :=
  ⟨initial_chainRun, by decide +kernel⟩

/-- The failed start marks the successful TaskRun FAILED. -/
theorem finished_taskRun_overwritten : ¬∀ σ₀ as, Scheduling σ₀ as →
    system.Throughout (fun σ σ' => FinishedStay σ.shared.db σ'.shared.db) σ₀ as := fun h =>
  Machine.not_throughout (by decide +kernel) (h _ _ scheduling_startsTwice)

theorem finished_taskRuns_stay_iff_startsTwice :
    system.Throughout (fun σ σ' => FinishedStay σ.shared.db σ'.shared.db) chainRun startsTwice ∧
      ¬system.Throughout (fun σ σ' => FinishedStay σ.shared.db σ'.shared.db) chainRun
        (startsTwice ++ calls 2 1) :=
  ⟨(finished_taskRuns_stay_iff ⟨initial_chainRun, by decide +kernel⟩).mpr (by decide +kernel),
    fun h => absurd ((finished_taskRuns_stay_iff scheduling_startsTwice).mp h) (by decide +kernel)⟩

/-! ### DagRuns -/

/-- Finished DagRuns are finished. -/
def FinishedRunsStay (db db' : Db) : Prop :=
  ∀ id run, db.dagRun id = some run → run.state ∈ DagRunState.finishedStates →
    ∃ run', db'.dagRun id = some run' ∧ run'.state ∈ DagRunState.finishedStates

instance (db db' : Db) : Decidable (FinishedRunsStay db db') := by
  unfold FinishedRunsStay
  infer_instance

theorem FinishedRunsStay.refl (db : Db) : FinishedRunsStay db db := fun _ run hr hf => ⟨run, hr, hf⟩

theorem FinishedRunsStay.trans {db db' db'' : Db} (h : FinishedRunsStay db db')
    (h' : FinishedRunsStay db' db'') : FinishedRunsStay db db'' := by
  intro id run hr hf
  obtain ⟨run', hr', hf'⟩ := h id run hr hf
  exact h' id run' hr' hf'

theorem FinishedRunsStay.of_rows {db : Db} {rows : List Row}
    (h : ∀ run, .dagRun run ∈ rows → ∀ run₀, db.dagRun run.runId = some run₀ →
      run₀.state ∈ DagRunState.finishedStates → run.state ∈ DagRunState.finishedStates) :
    FinishedRunsStay db (db.upsertAll rows) := by
  intro id run₀ h₀ hf
  by_cases hw : ∃ b : DagRunRow, RowKind.toRow b ∈ rows ∧ RowKind.id b = id
  · obtain ⟨run, hm, rfl, hr⟩ := Db.get_upsertAll_of_written db hw
    exact ⟨run, hr, h run hm run₀ h₀ hf⟩
  · have hn : ∀ b : DagRunRow, RowKind.toRow b ∈ rows → RowKind.id b ≠ id :=
      fun b hb he => hw ⟨b, hb, he⟩
    exact ⟨run₀, (Db.get_upsertAll_of_not_written hn).trans h₀, hf⟩

/-- The TaskRuns that `update_state` reads do not show why a finished DagRun is finished: none is
FAILED, and not all are SUCCESS. -/
def Unaccounted (s : Shared) (db : Db) (run : DagRunRow) : Prop :=
  (∃ run₀, db.dagRun run.runId = some run₀ ∧ run₀.state ∈ DagRunState.finishedStates) ∧
    ∃ dag, s.dag? run.dagId = some dag ∧
      (∀ t ∈ DagRun.readTrs s.engine db run dag, t.state ≠ .failed) ∧
      ∃ t ∈ DagRun.readTrs s.engine db run dag, t.state ≠ .success

/-- No upsert outside a transaction marks a finished DagRun RUNNING, and no transaction commits
a DagRun whose end was unaccounted for in its snapshot. -/
structure SparesFinishedRuns (σ : State) (a : Step) : Prop where
  upserts : ∀ rows, Upserts σ a rows → ∀ run, .dagRun run ∈ rows → run.state = .running →
    ∀ run₀, σ.shared.db.dagRun run.runId = some run₀ → run₀.state ∉ DagRunState.finishedStates
  commits : ∀ tx, Commits σ a tx → ∀ run, .dagRun run ∈ tx.writes →
    ¬Unaccounted σ.shared (σ.shared.store.asOf tx.start) run

instance (s : Shared) (db : Db) (run : DagRunRow) : Decidable (Unaccounted s db run) := by
  unfold Unaccounted
  infer_instance

instance (σ : State) (a : Step) : Decidable (SparesFinishedRuns σ a) :=
  decidable_of_iff
    ((∀ rows, Upserts σ a rows → ∀ run, .dagRun run ∈ rows → run.state = .running →
        ∀ run₀, σ.shared.db.dagRun run.runId = some run₀ →
          run₀.state ∉ DagRunState.finishedStates) ∧
      ∀ tx, Commits σ a tx → ∀ run, .dagRun run ∈ tx.writes →
        ¬Unaccounted σ.shared (σ.shared.store.asOf tx.start) run)
    ⟨fun h => ⟨h.1, h.2⟩, fun h => ⟨h.upserts, h.commits⟩⟩

/-- A step that writes a finished DagRun finishes it again, or takes the way back to RUNNING. -/
theorem Effect.finishedRun {c : Commit Row} (h : Effect σ a (σ.shared.store.append c))
    {run run₀ : DagRunRow} (hr : .dagRun run ∈ c.rows)
    (h₀ : σ.shared.db.dagRun run.runId = some run₀)
    (hf : run₀.state ∈ DagRunState.finishedStates) :
    (run.state = .running ↔ run.state ∉ DagRunState.finishedStates) ∧
      (Upserts σ a c.rows ∨ Commits σ a ⟨c.start, c.rows⟩ ∧
        (run.state = .running ↔ Unaccounted σ.shared (σ.shared.store.asOf c.start) run)) := by
  cases h with
  | quiet hs => exact absurd hs.symm (Store.ne_append _ _)
  | queues h hc hs =>
    cases Store.append_inj hs
    obtain rfl := dagRun_mem_batch.mp hr
    obtain ⟨run₁, h₁, _, hst⟩ := (h.creates hc.not_conflict).persisted
    obtain rfl : run₀ = run₁ := Option.some.inj (h₀.symm.trans h₁)
    rw [hst] at hf
    cases hf with | tail _ hf => cases hf with | tail _ hf => cases hf
  | @verdict _ _ _ dag _ hdag h hc hs =>
    cases Store.append_inj hs
    obtain rfl := dagRun_mem_batch.mp hr
    have hsnap := (get_asOf_eq_of_not_conflict (a := run) hc.not_conflict (by simp)).trans h₀
    refine ⟨?_, Or.inr ⟨hc, ?_⟩⟩
    · rcases h.decided with hst | hst | hst <;> rw [hst] <;> decide
    · rw [h.running]
      constructor
      · exact fun hrun => ⟨⟨run₀, hsnap, hf⟩, dag, hdag, hrun⟩
      · rintro ⟨_, dag', hdag', hrun⟩
        rwa [Option.some.inj (hdag'.symm.trans hdag)] at hrun
  | releases _ _ hs =>
    cases Store.append_inj hs
    simp at hr
  | setsTaskRuns _ _ _ hs =>
    cases Store.append_inj hs
    simp at hr
  | setsDagRun _ hst hu hs =>
    cases Store.append_inj hs
    obtain rfl : run = _ := by simpa using hr
    exact ⟨by rcases hst with hst | hst <;> rw [hst] <;> decide, Or.inl hu⟩

/-- The step lemma. -/
theorem finishedRunsStay_iff (h : SoundState σ) :
    (∀ σ', system.act σ a = some σ' → FinishedRunsStay σ.shared.db σ'.shared.db) ↔
      SparesFinishedRuns σ a := by
  constructor
  · intro hstay
    have hwrite : ∀ {i tx ts rows σ'}, system.act σ a = some σ' →
        σ'.shared.store = σ.shared.store.append ⟨i, tx, ts, rows⟩ →
        ∀ run, .dagRun run ∈ rows → ∀ run₀, σ.shared.db.dagRun run.runId = some run₀ →
        run₀.state ∈ DagRunState.finishedStates → run.state ≠ .running := by
      intro i tx ts rows σ' ha hs run hr run₀ h₀ hf hrun
      have heff := hs ▸ effect_of_act h ha
      obtain ⟨run', hr', hf'⟩ := hstay σ' ha _ run₀ h₀ hf
      rw [Shared.db, hs, Store.current_append] at hr'
      have hw : ∃ b : DagRunRow, RowKind.toRow b ∈ rows ∧ RowKind.id b = run.runId := ⟨run, hr, rfl⟩
      obtain ⟨run'', hm, _, hget⟩ := Db.get_upsertAll_of_written σ.shared.db hw
      obtain rfl : run'' = run' := Option.some.inj (hget.symm.trans hr')
      obtain rfl := heff.dagRun_unique hr hm
      exact (heff.finishedRun hr h₀ hf).1.mp hrun hf'
    refine ⟨fun rows hu run hr hrun run₀ h₀ hf => ?_, fun tx hc run hr hun => ?_⟩
    · obtain ⟨i, σ', ha, hs⟩ := hu.act
      exact hwrite ha hs run hr run₀ h₀ hf hrun
    · obtain ⟨i, σ', ha, hs⟩ := hc.act
      obtain ⟨run₀, h₁, hf⟩ := hun.1
      have h₀ := get_asOf_of_not_conflict (a := run) hc.not_conflict hr h₁
      have heff := hs ▸ effect_of_act h ha
      rcases (heff.finishedRun hr h₀ hf).2 with hu | ⟨_, hiff⟩
      · exact hu.not_commits hc
      · exact hwrite ha hs run hr run₀ h₀ hf (hiff.mpr hun)
  · intro hspare σ' ha
    have hstep : ∀ {i tx ts rows}, σ'.shared.store = σ.shared.store.append ⟨i, tx, ts, rows⟩ →
        FinishedRunsStay σ.shared.db σ'.shared.db := by
      intro i tx ts rows hs
      have heff := hs ▸ effect_of_act h ha
      rw [Shared.db, Shared.db, hs, Store.current_append]
      refine .of_rows fun run hr run₀ h₀ hf => ?_
      obtain ⟨hiff, hcase⟩ := heff.finishedRun hr h₀ hf
      by_contra hne
      rcases hcase with hu | ⟨hc, hun⟩
      · exact hspare.upserts rows hu run hr (hiff.mpr hne) run₀ h₀ hf
      · exact hspare.commits _ hc run hr (hun.mp (hiff.mpr hne))
    rcases act_store ha with hs | ⟨i, rows, _, hs⟩ | ⟨i, tx, _, hs⟩
    · rw [Shared.db, Shared.db, hs]
      exact .refl _
    · exact hstep hs
    · exact hstep hs

/-- A finished DagRun stays finished exactly when every step spares it. -/
theorem finished_dagRuns_stay_iff (h : Scheduling σ₀ as) :
    system.Throughout (fun σ σ' => FinishedRunsStay σ.shared.db σ'.shared.db) σ₀ as ↔
      system.Along SparesFinishedRuns σ₀ as := by
  rw [Machine.throughout_iff (fun _ => .refl _) fun _ _ _ => .trans]
  exact h.along_iff fun _ _ => finishedRunsStay_iff

/-- Of two submissions of a TaskRun, one has started its operation and the other cannot load the
DAG. -/
def losesDag : List Step :=
  resubmitted ++ .step 2 { pick := 1 } :: calls 2 8 ++ .spawn (.worker 1) ::
    .step 3 { pick := 2 } :: calls 3 3 ++ .step 3 { fail := some .dagInitialization } :: calls 3 3

theorem scheduling_losesDag : Scheduling chainRun (losesDag ++ calls 2 1) :=
  ⟨initial_chainRun, by decide +kernel⟩

/-- The started operation marks the FAILED DagRun RUNNING. -/
theorem finished_dagRun_reopened : ¬∀ σ₀ as, Scheduling σ₀ as →
    system.Throughout (fun σ σ' => FinishedRunsStay σ.shared.db σ'.shared.db) σ₀ as := fun h =>
  Machine.not_throughout (by decide +kernel) (h _ _ scheduling_losesDag)

theorem finished_dagRuns_stay_iff_losesDag :
    system.Throughout (fun σ σ' => FinishedRunsStay σ.shared.db σ'.shared.db) chainRun losesDag ∧
      ¬system.Throughout (fun σ σ' => FinishedRunsStay σ.shared.db σ'.shared.db) chainRun
        (losesDag ++ calls 2 1) :=
  ⟨(finished_dagRuns_stay_iff ⟨initial_chainRun, by decide +kernel⟩).mpr (by decide +kernel),
    fun h => absurd ((finished_dagRuns_stay_iff scheduling_losesDag).mp h) (by decide +kernel)⟩

end YtScheduler
