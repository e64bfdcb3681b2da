import YtScheduler.Laws.Finished

/-! When a TaskRun is released. `update_state` finds it ready in its snapshot, and
`schedule_trs` queues it in a transaction of its own. A ready TaskRun has finished
upstreams; they succeeded if the snapshot shows no SKIPPED upstream without a FAILED
TaskRun, and they still have if finished TaskRuns stay as they finished. All task ids
are plain. -/

namespace YtScheduler

open Tablet Threads

variable {σ σ' σ₀ : State} {a : Step} {as : List Step}

/-- The TaskRuns of all upstream tasks of `t` are persisted as SUCCESS. -/
def UpstreamSucceeded (s : Shared) (t : TaskRunRow) : Prop :=
  ∃ dag, s.dag? t.dagId = some dag ∧ ∀ u ∈ DagRun.upstream dag t.taskId, ∃ id up,
    s.db.taskRun id = some up ∧ up.dagrunId = t.dagrunId ∧ up.taskId = u ∧ up.state = .success

/-- A TaskRun that goes from SCHEDULED to QUEUED is released after its upstream succeeded. -/
def ReleasesInOrder (s s' : Shared) : Prop :=
  ∀ id t t', s.db.taskRun id = some t → t.state = .scheduled →
    s'.db.taskRun id = some t' → t'.state = .queued → UpstreamSucceeded s t

/-- If no TaskRun of the run is FAILED, none that is SKIPPED is upstream of a SCHEDULED one. -/
def SkipsDownstream (s : Shared) (db : Db) (runId : Uuid) : Prop :=
  (∀ id t, db.taskRun id = some t → t.dagrunId = runId → t.state ≠ .failed) →
    ∀ id t dag, db.taskRun id = some t → t.dagrunId = runId → t.state = .scheduled →
      s.dag? t.dagId = some dag → ∀ id' up, db.taskRun id' = some up → up.dagrunId = runId →
        up.taskId ∈ DagRun.upstream dag t.taskId → up.state ≠ .skipped

/-- Every transaction that commits a DagRun read a snapshot in which `SkipsDownstream` holds. -/
def ReadsSkipsDownstream (σ : State) (a : Step) : Prop :=
  ∀ tx, Commits σ a tx → ∀ run, .dagRun run ∈ tx.writes →
    SkipsDownstream σ.shared (σ.shared.store.asOf tx.start) run.runId

instance (s : Shared) (t : TaskRunRow) : Decidable (UpstreamSucceeded s t) := by
  unfold UpstreamSucceeded
  infer_instance

instance (s s' : Shared) : Decidable (ReleasesInOrder s s') :=
  decidable_of_iff (∀ id t, s.db.taskRun id = some t → ∀ id' t', s'.db.taskRun id' = some t' →
    id' = id → t.state = .scheduled → t'.state = .queued → UpstreamSucceeded s t)
    ⟨fun h id t t' ht hst ht' => h id t ht id t' ht' rfl hst,
      fun h id t ht _ t' ht' hid hst => h id t t' ht hst (hid ▸ ht')⟩

instance (s : Shared) (db : Db) (runId : Uuid) : Decidable (SkipsDownstream s db runId) :=
  decidable_of_iff
    ((∀ id t, db.taskRun id = some t → t.dagrunId = runId → t.state ≠ .failed) →
      ∀ id t, db.taskRun id = some t → ∀ dag, s.dag? t.dagId = some dag →
        ∀ id' up, db.taskRun id' = some up →
          t.dagrunId = runId ∧ t.state = .scheduled ∧ up.dagrunId = runId ∧
            up.taskId ∈ DagRun.upstream dag t.taskId → up.state ≠ .skipped)
    ⟨fun h hn id t dag ht hd hst hdag id' up hup hd' hm =>
        h hn id t ht dag hdag id' up hup ⟨hd, hst, hd', hm⟩,
      fun h hn id t ht dag hdag id' up hup ⟨hd, hst, hd', hm⟩ =>
        h hn id t dag ht hd hst hdag id' up hup hd' hm⟩

instance (σ : State) (a : Step) : Decidable (ReadsSkipsDownstream σ a) := by
  unfold ReadsSkipsDownstream
  infer_instance

/-- What a run over plain task ids keeps when finished TaskRuns are spared and snapshots show no
lone SKIPPED. -/
structure Orderly (s : Shared) : Prop where
  plain : s.PlainDags
  finished : ∀ ts, FinishedStay (s.store.asOf ts) s.db
  skips : ∀ c ∈ s.store.log, c.inTx = true → c.start ≤ s.store.now ∧
    ∀ run, .dagRun run ∈ c.rows → SkipsDownstream s (s.store.asOf c.start) run.runId

/-- The step lemma. -/
theorem Orderly.act (h : SoundState σ) (ho : Orderly σ.shared) (hf : SparesFinished σ a)
    (hr : ReadsSkipsDownstream σ a) (ha : system.act σ a = some σ') : Orderly σ'.shared := by
  obtain ⟨hg, hle⟩ := guarantees_of_act h ha
  have hstay := (finishedStay_iff h).mpr hf σ' ha
  have hskips : ∀ {ts runId}, ts ≤ σ.shared.store.now →
      SkipsDownstream σ.shared (σ.shared.store.asOf ts) runId →
      SkipsDownstream σ'.shared (σ'.shared.store.asOf ts) runId := by
    intro ts runId hts hsk
    rw [hg.store.asOf_eq hts]
    exact fun hn id t dag ht hd hst hdag => hsk hn id t dag ht hd hst ((hg.knows.dag? _).symm.trans hdag)
  have hold : ∀ c ∈ σ.shared.store.log, c.inTx = true → c.start ≤ σ'.shared.store.now ∧
      ∀ run, .dagRun run ∈ c.rows →
        SkipsDownstream σ'.shared (σ'.shared.store.asOf c.start) run.runId := by
    intro c hc htx
    obtain ⟨hts, hsk⟩ := ho.skips c hc htx
    exact ⟨hts.trans hg.store.now_le, fun run hrun => hskips hts (hsk run hrun)⟩
  refine ⟨ho.plain.mono hg.knows, fun ts => ?_, ?_⟩
  · rcases act_store ha with hs | ⟨i, rows, _, hs⟩ | ⟨i, tx, _, hs⟩
    · rw [hs]
      exact (ho.finished ts).trans hstay
    all_goals
      rw [Shared.db, hs]
      rw [Shared.db, Shared.db, hs] at hstay
      rcases Store.asOf_append σ.shared.store _ ts with heq | heq
      · rw [heq]
        exact (ho.finished ts).trans hstay
      · rw [heq]
        exact .refl _
  · rcases act_store ha with hs | ⟨i, rows, _, hs⟩ | ⟨i, tx, hc, hs⟩
    · rw [hs] at hold ⊢
      exact hold
    · intro c hcm htx
      rw [hs, Store.log_append] at hcm
      rcases List.mem_cons.mp hcm with rfl | hcm
      · cases htx
      · exact hold c hcm htx
    · intro c hcm htx
      rw [hs, Store.log_append] at hcm
      rcases List.mem_cons.mp hcm with rfl | hcm
      · have hts := hle _ hs
        exact ⟨hts.trans hg.store.now_le, fun run hrun => hskips hts (hr tx hc run hrun)⟩
      · exact hold c hcm htx

/-- A TaskRun that was found ready has upstreams that succeeded. -/
theorem Ready.upstreamSucceeded {s : Shared} (hc : Consistent s) (ho : Orderly s) {i : ℕ}
    {runId tid : Uuid} {tids : List Uuid} (hd : Decided i s runId tids) (htid : tid ∈ tids)
    {t : TaskRunRow} (ht : s.db.taskRun tid = some t) : UpstreamSucceeded s t := by
  obtain ⟨c, hlog, _, htx, _, run, dag, hrun, rfl, ⟨run₀, hrun₀, hi₀⟩, hdag, hready⟩ := hd
  have hplain := ho.plain dag (Shared.mem_of_dag? hdag)
  have hmem := fun r => (hc.tables c.start).mem_readTrs (t := r) hplain hdag hrun₀ hi₀
  obtain ⟨hnone, t₀, ht₀, rfl, hst₀, hup⟩ := hready tid htid
  have hnone : ∀ id r, Db.taskRun (s.store.asOf c.start) id = some r → r.dagrunId = run.runId →
      r.state ≠ .failed := by
    intro id r hr hd
    exact hnone r ((hmem r).mpr ⟨Db.runId_of_taskRun hr ▸ hr, hd⟩)
  have hdag₀ : s.dag? t₀.dagId = some dag := by
    rw [DagRun.readTrs_of_plain hplain, DagRun.mem_taskRuns] at ht₀
    rw [ht₀.2.2.1]
    exact hdag
  obtain ⟨ht₀, hd₀⟩ := (hmem t₀).mp ht₀
  have hskip := (ho.skips c hlog htx).2 run hrun hnone
  have hpers := hc.persists c.start
  obtain ⟨t', ht', hi, _⟩ := hpers.taskRun _ _ ht₀
  obtain rfl : t = t' := Option.some.inj (ht.symm.trans ht')
  simp only [TaskRunRow.ident, TaskRunIdent.mk.injEq] at hi
  refine ⟨dag, hi.2.2.1 ▸ hdag₀, fun u hu => ?_⟩
  rw [hi.2.1] at hu
  obtain ⟨up, hupmem, htask, hfin⟩ := hup u hu
  obtain ⟨hup₀, hdup⟩ := (hmem up).mp hupmem
  have hsucc : up.state = .success := by
    have hf := hnone up.runId up hup₀ hdup
    have hs := hskip t₀.runId t₀ dag ht₀ hd₀ hst₀ hdag₀ up.runId up hup₀ hdup (htask ▸ hu)
    revert hfin hf hs
    cases up.state <;> decide
  obtain ⟨up', hup', hst'⟩ := ho.finished c.start up.runId up hup₀ hfin
  obtain ⟨up'', hup'', hi', _⟩ := hpers.taskRun _ _ hup₀
  obtain rfl : up' = up'' := Option.some.inj (hup'.symm.trans hup'')
  simp only [TaskRunRow.ident, TaskRunIdent.mk.injEq] at hi'
  exact ⟨up.runId, up', hup', by rw [hi'.2.2.2, hdup, hi.2.2.2, hd₀], hi'.2.1.trans htask,
    hst'.trans hsucc⟩

/-- A step of an orderly state releases in order. -/
theorem Orderly.releases (h : SoundState σ) (ho : Orderly σ.shared)
    (ha : system.act σ a = some σ') : ReleasesInOrder σ.shared σ'.shared := by
  intro id t t' ht hst ht' hst'
  have hne : t ≠ t' := by
    rintro rfl
    rw [hst] at hst'
    cases hst'
  have hrow : ∀ {c : Commit Row}, σ'.shared.store = σ.shared.store.append c → .taskRun t' ∈ c.rows := by
    intro c hs
    rw [Shared.db, hs, Store.current_append] at ht'
    rcases Db.get_upsertAll_cases ht' with ⟨hm, _⟩ | ⟨_, h₀⟩
    · exact hm
    · exact absurd (Option.some.inj (ht.symm.trans h₀)) hne
  have hmap : ∀ {trs : List TaskRunRow}, Row.taskRun t' ∈ trs.map Row.taskRun → t' ∈ trs := by
    simp
  have hid : t'.runId = id := Db.runId_of_taskRun ht'
  cases effect_of_act h ha with
  | quiet hs =>
    rw [Shared.db, hs] at ht'
    exact absurd (Option.some.inj (ht.symm.trans ht')) hne
  | queues h' hcm hs =>
    obtain ⟨hnone, _⟩ := (h'.creates hcm.not_conflict).unused t' (taskRun_mem_batch.mp (hrow hs))
    rw [hid, ht] at hnone
    cases hnone
  | verdict _ h' _ hs =>
    have hskip := (h'.skips t' (taskRun_mem_batch.mp (hrow hs))).1
    rw [hst'] at hskip
    cases hskip
  | releases h' _ hs =>
    exact Ready.upstreamSucceeded h.inv ho h'.decided
      (hid ▸ List.mem_map_of_mem (hmap (hrow hs))) ht
  | setsTaskRuns hq h' _ hs =>
    exact absurd ((h' t' (hmap (hrow hs))).1.symm.trans hst') hq
  | setsDagRun _ _ _ hs => simpa using hrow hs

/-- No task is released before its upstream succeeded, in a run over plain task ids that spares
finished TaskRuns and in which no transaction decides about a DagRun on a SKIPPED upstream without
a FAILED TaskRun. -/
theorem released_after_upstream (h : Scheduling σ₀ as) (hplain : σ₀.shared.PlainDags)
    (hc : system.Along (fun σ a => SparesFinished σ a ∧ ReadsSkipsDownstream σ a) σ₀ as) :
    system.EachStep (fun σ σ' => ReleasesInOrder σ.shared σ'.shared) σ₀ as := by
  have h0 : Orderly σ₀.shared := by
    refine ⟨hplain, fun ts => ?_, ?_⟩
    · rw [h.initial.asOf]
      exact .refl _
    · simp [h.initial.log]
  rintro as₁ a as₂ σ₁ σ' rfl h1 ha
  have hin := fun b hb => h.within b (List.mem_append_left (a :: as₂) hb)
  have hpre : Scheduling σ₀ as₁ := ⟨h.initial, hin⟩
  have ho := hpre.always (P := fun σ => Orderly σ.shared) h0 (fun _ _ _ hs ho hC ha => ho.act hs hC.1 hC.2 ha)
    (Machine.along_left hc) as₁ [] σ₁ (by simp) h1
  exact ho.releases (hpre.sound h1) ha

/-- The first task of `chainRun` succeeds, and a scheduler releases the second one. -/
def releases : List Step :=
  submitted ++ .step 2 { pick := 1 } :: calls 2 23 ++ calls 1 7 ++
    .step 1 { status := .completed } :: calls 1 4 ++ .step 2 { pick := 2 } :: calls 2 6 ++
    .spawn (.scheduler [.scheduleRunningDagruns] 1) :: calls 3 5 ++ .step 2 { pick := 2 } ::
    calls 2 4 ++ calls 3 22

theorem released_after_upstream_releases :
    system.EachStep (fun σ σ' => ReleasesInOrder σ.shared σ'.shared) chainRun releases :=
  released_after_upstream ⟨initial_chainRun, by decide +kernel⟩ plain_chainRun (by decide +kernel)

/-- A scheduler has selected the DagRun when its first task cannot be loaded and is skipped. -/
def skipsRoot : List Step :=
  submitted ++ .spawn (.scheduler [.startQueuedDagruns] 1) :: calls 3 5 ++ .spawn (.worker 1) ::
    .step 4 { pick := 2 } :: calls 4 4 ++ .step 2 { pick := 1 } :: calls 2 3 ++
    .step 2 { fail := some .dagInitialization } :: calls 2 13 ++ calls 3 21

theorem scheduling_skipsRoot : Scheduling chainRun (skipsRoot ++ [.step 3 {}]) :=
  ⟨initial_chainRun, by decide +kernel⟩

/-- The scheduler releases the second task after the first one was skipped. -/
theorem released_after_skipped : ¬∀ σ₀ as, Scheduling σ₀ as →
    system.EachStep (fun σ σ' => ReleasesInOrder σ.shared σ'.shared) σ₀ as := by
  intro h
  have hno : ¬system.EachStep (fun σ σ' => ReleasesInOrder σ.shared σ'.shared) chainRun
      (skipsRoot ++ [.step 3 {}]) := Machine.not_eachStep (by decide +kernel)
  exact hno (h _ _ scheduling_skipsRoot)

end YtScheduler
