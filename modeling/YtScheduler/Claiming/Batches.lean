import YtScheduler.System.Op

/-! The batches that claim metas, and the invariant of the tables they are written to: the
DagMeta rows with a run id and the DagRuns correspond, and the log of the commits says which
DagRun was created for which meta. -/

namespace YtScheduler

open Tablet

variable {s s' : Shared} {batched : List (DagRunRow × DagMetaRow)}

/-- What `_create_dag_runs_atomic` writes: the DagRuns, then the metas that name them. -/
def claimRows (batched : List (DagRunRow × DagMetaRow)) : List Row :=
  batched.map (fun b => .dagRun b.1) ++ batched.map (fun b => .dagMeta b.2)

@[simp] theorem dagRun_mem_claimRows {run : DagRunRow} :
    .dagRun run ∈ claimRows batched ↔ ∃ b ∈ batched, b.1 = run := by
  simp [claimRows]

@[simp] theorem dagMeta_mem_claimRows {row : DagMetaRow} :
    .dagMeta row ∈ claimRows batched ↔ ∃ b ∈ batched, b.2 = row := by
  simp [claimRows]

/-- The number of DagRuns among the rows of a commit. -/
def created (rows : List Row) : ℕ :=
  (rows.filterMap (RowKind.proj : Row → Option DagRunRow)).length

@[simp] theorem created_claimRows (batched : List (DagRunRow × DagMetaRow)) :
    created (claimRows batched) = batched.length := by
  have hruns : batched.filterMap (fun b => RowKind.proj (Row.dagRun b.1)) = batched.map Prod.fst := by
    rw [← List.filterMap_eq_map]
    rfl
  have hmetas : batched.filterMap
      (fun b => (RowKind.proj (Row.dagMeta b.2) : Option DagRunRow)) = [] := by
    simp [RowKind.proj]
  simp only [created, claimRows, List.filterMap_append, List.filterMap_map, Function.comp_def]
  rw [hruns, hmetas, List.append_nil, List.length_map]

/-- The rows of a commit tell which DagRun was built for which meta. -/
theorem claimRows_injective : Function.Injective claimRows := by
  intro batched batched' h
  have hlen : batched.length = batched'.length := by
    rw [← created_claimRows, h, created_claimRows]
  obtain ⟨hruns, hmetas⟩ := List.append_inj h (by simpa using hlen)
  have hfst : batched.map Prod.fst = batched'.map Prod.fst := by
    have hinj : Function.Injective Row.dagRun := fun _ _ => Row.dagRun.inj
    apply List.map_injective_iff.mpr hinj
    simpa [List.map_map, Function.comp_def] using hruns
  have hsnd : batched.map Prod.snd = batched'.map Prod.snd := by
    have hinj : Function.Injective Row.dagMeta := fun _ _ => Row.dagMeta.inj
    apply List.map_injective_iff.mpr hinj
    simpa [List.map_map, Function.comp_def] using hmetas
  rw [← List.zip_unzip batched, ← List.zip_unzip batched', List.unzip_fst, List.unzip_snd, hfst,
    hsnd, List.unzip_fst, List.unzip_snd]

/-- A batch that claims metas without a run id in the tables `db`, one new DagRun for each. -/
structure Claims (s : Shared) (db : Db) (batched : List (DagRunRow × DagMetaRow)) : Prop where
  unclaimed : ∀ b ∈ batched, ∃ row, db.dagMeta b.2.id = some row ∧ row.runId = none
  named : ∀ b ∈ batched, b.2.runId = some (.run b.1.runId)
  unused : ∀ b ∈ batched, db.dagRun b.1.runId = none ∧ b.1.runId < s.uuids
  metas : (batched.map (·.2.id)).Nodup
  runs : (batched.map (·.1.runId)).Nodup

/-- A commit of `_create_dag_runs_atomic` created the DagRun `runId` for the meta `id`. -/
def CreatedFor (s : Shared) (id runId : Uuid) : Prop :=
  ∃ c ∈ s.store.log, ∃ batched, c.rows = claimRows batched ∧
    ∃ b ∈ batched, b.2.id = id ∧ b.1.runId = runId

/-- The claimed metas and the DagRuns correspond. -/
structure Claimed (s : Shared) : Prop where
  runs_lt : ∀ ts id run, Db.dagRun (s.store.asOf ts) id = some run → id < s.uuids
  named : ∀ id row x, s.db.dagMeta id = some row → row.runId = some x →
    ∃ runId, x = .run runId ∧ CreatedFor s id runId
  persisted : ∀ id runId, CreatedFor s id runId → ∃ row run, s.db.dagMeta id = some row ∧
    row.runId = some (.run runId) ∧ s.db.dagRun runId = some run
  count : s.db.dagRuns.length = (s.store.log.map fun c => created c.rows).sum

/-- The invariant speaks about the store, and lets uuids come into use. -/
theorem Claimed.of_store (h : Claimed s) (hs : s'.store = s.store) (hu : s.uuids ≤ s'.uuids) :
    Claimed s' := by
  have hc : ∀ id runId, CreatedFor s' id runId ↔ CreatedFor s id runId := by
    intro id runId
    rw [CreatedFor, CreatedFor, hs]
  refine ⟨fun ts id run hr => ?_, fun id row x hrow hx => ?_, fun id runId hcr => ?_, ?_⟩
  · rw [hs] at hr
    exact (h.runs_lt ts id run hr).trans_le hu
  · rw [Shared.db, hs] at hrow
    simpa only [hc] using h.named id row x hrow hx
  · rw [Shared.db, hs]
    exact h.persisted id runId ((hc id runId).mp hcr)
  · rw [Shared.db, hs]
    exact h.count

theorem Claims.of_later {db : Db} (h : Claims s db batched) (hu : s.uuids ≤ s'.uuids) :
    Claims s' db batched :=
  ⟨h.unclaimed, h.named, fun b hb => (h.unused b hb).imp_right fun hlt => hlt.trans_le hu, h.metas,
    h.runs⟩

/-- Where the commit meets no conflict, the batch claims metas of the current tables. -/
theorem Claims.current {ts : ℕ} (h : Claims s (s.store.asOf ts) batched)
    (hc : ¬s.store.Conflict ts (claimRows batched)) : Claims s s.db batched where
  unclaimed b hb := by
    obtain ⟨row, hrow, hnone⟩ := h.unclaimed b hb
    exact ⟨row, get_asOf_of_not_conflict (a := b.2) hc (dagMeta_mem_claimRows.mpr ⟨b, hb, rfl⟩) hrow,
      hnone⟩
  named := h.named
  unused b hb := by
    obtain ⟨hnone, hlt⟩ := h.unused b hb
    refine ⟨?_, hlt⟩
    rw [← hnone]
    exact (get_asOf_eq_of_not_conflict (a := b.1) hc (dagRun_mem_claimRows.mpr ⟨b, hb, rfl⟩)).symm
  metas := h.metas
  runs := h.runs

namespace Claims

variable {db : Db} (h : Claims s db batched)
include h

theorem dagMeta {b : DagRunRow × DagMetaRow} (hb : b ∈ batched) :
    Db.dagMeta (db.upsertAll (claimRows batched)) b.2.id = some b.2 := by
  have hmem : RowKind.toRow b.2 ∈ claimRows batched := dagMeta_mem_claimRows.mpr ⟨b, hb, rfl⟩
  obtain ⟨row, hrow, hid, hget⟩ := Db.get_upsertAll_of_written db ⟨b.2, hmem, rfl⟩
  obtain ⟨b', hb', rfl⟩ := dagMeta_mem_claimRows.mp hrow
  rwa [List.inj_on_of_nodup_map h.metas hb' hb hid] at hget

theorem dagRun {b : DagRunRow × DagMetaRow} (hb : b ∈ batched) :
    Db.dagRun (db.upsertAll (claimRows batched)) b.1.runId = some b.1 := by
  have hmem : RowKind.toRow b.1 ∈ claimRows batched := dagRun_mem_claimRows.mpr ⟨b, hb, rfl⟩
  obtain ⟨run, hrun, hid, hget⟩ := Db.get_upsertAll_of_written db ⟨b.1, hmem, rfl⟩
  obtain ⟨b', hb', rfl⟩ := dagRun_mem_claimRows.mp hrun
  rwa [List.inj_on_of_nodup_map h.runs hb' hb hid] at hget

/-- A meta that was already claimed keeps its row. -/
theorem dagMeta_of_claimed {id : Uuid} {row : DagMetaRow} (hrow : db.dagMeta id = some row)
    (hr : row.runId ≠ none) :
    Db.dagMeta (db.upsertAll (claimRows batched)) id = some row := by
  rw [Db.dagMeta, Db.get_upsertAll_of_not_written]
  · exact hrow
  · rintro row' hm rfl
    obtain ⟨b, hb, rfl⟩ := dagMeta_mem_claimRows.mp hm
    obtain ⟨row₀, hrow₀, hnone⟩ := h.unclaimed b hb
    rw [Option.some.inj (hrow₀.symm.trans hrow)] at hnone
    exact hr hnone

/-- A DagRun that existed keeps its row. -/
theorem dagRun_of_exists {id : Uuid} {run : DagRunRow} (hrun : db.dagRun id = some run) :
    Db.dagRun (db.upsertAll (claimRows batched)) id = some run := by
  rw [Db.dagRun, Db.get_upsertAll_of_not_written]
  · exact hrun
  · rintro run' hm rfl
    obtain ⟨b, hb, rfl⟩ := dagRun_mem_claimRows.mp hm
    have hnone := (h.unused b hb).1
    rw [id_dagRun, hnone] at hrun
    cases hrun

theorem dagRuns_length :
    (Db.dagRuns (db.upsertAll (claimRows batched))).length = db.dagRuns.length + batched.length := by
  have hruns : batched.map (fun b => Row.dagRun b.1) = (batched.map Prod.fst).map RowKind.toRow := by
    simp
  rw [claimRows, Table.upsertAll_append, Db.dagRuns, Db.all_upsertAll_of_other, hruns,
    Db.all_upsertAll_of_new, List.length_append, List.length_map]
  · simpa [List.map_map, Function.comp_def] using h.runs
  · intro run hrun
    obtain ⟨b, hb, rfl⟩ := List.mem_map.mp hrun
    exact (h.unused b hb).1
  · intro row hrow
    obtain ⟨b, _, rfl⟩ := List.mem_map.mp hrow
    rfl

end Claims

/-- The step lemma: a batch that claims unclaimed metas keeps the invariant. -/
theorem Claims.claimed (h : Claims s s.db batched) (hs : Claimed s) {c : Commit Row}
    (hc : c.rows = claimRows batched) : Claimed (s.commit c) := by
  have hdb : (s.commit c).db = s.db.upsertAll (claimRows batched) := by
    rw [← hc]
    rfl
  have hold : ∀ {id runId}, CreatedFor s id runId → CreatedFor (s.commit c) id runId :=
    fun ⟨c', hm, hrest⟩ => ⟨c', List.mem_cons_of_mem _ hm, hrest⟩
  refine ⟨fun ts id run hr => ?_, fun id row x hrow hx => ?_, fun id runId hcr => ?_, ?_⟩
  · rcases Store.asOf_append s.store c ts with heq | heq
    · exact hs.runs_lt ts id run (heq ▸ hr)
    · rw [show (s.commit c).store.asOf ts = s.db.upsertAll (claimRows batched) from hc ▸ heq] at hr
      rcases Db.get_upsertAll_cases hr with ⟨hm, rfl⟩ | ⟨_, h₀⟩
      · obtain ⟨b, hb, rfl⟩ := dagRun_mem_claimRows.mp hm
        exact (h.unused b hb).2
      · exact hs.runs_lt s.store.now id run (by rwa [Store.asOf_now])
  · rw [hdb] at hrow
    rcases Db.get_upsertAll_cases hrow with ⟨hm, rfl⟩ | ⟨_, h₀⟩
    · obtain ⟨b, hb, rfl⟩ := dagMeta_mem_claimRows.mp hm
      rw [h.named b hb] at hx
      exact ⟨_, (Option.some.inj hx).symm, c, List.mem_cons_self, batched, hc, b, hb, rfl, rfl⟩
    · obtain ⟨runId, hx', hcr⟩ := hs.named id row x h₀ hx
      exact ⟨runId, hx', hold hcr⟩
  · rw [hdb]
    obtain ⟨c', hm, batched', hrows, b, hb, rfl, rfl⟩ := hcr
    rcases List.mem_cons.mp hm with rfl | hm
    · obtain rfl : batched' = batched := claimRows_injective (hrows.symm.trans hc)
      exact ⟨b.2, b.1, h.dagMeta hb, h.named b hb, h.dagRun hb⟩
    · obtain ⟨row, run, hrow, hrun, hget⟩ := hs.persisted _ _ ⟨c', hm, batched', hrows, b, hb, rfl, rfl⟩
      exact ⟨row, run, h.dagMeta_of_claimed hrow (by simp [hrun]), hrun, h.dagRun_of_exists hget⟩
  · rw [hdb, h.dagRuns_length, hs.count, show (s.commit c).store.log = c :: s.store.log from rfl,
      List.map_cons, List.sum_cons, hc, created_claimRows, add_comm]

end YtScheduler
