import YtScheduler.System.Op

/-! What every snapshot of the tables satisfies while DagRuns are queued, examined and
executed: a SCHEDULED DagRun has no TaskRun, any other has at most one for each task of
its DAG and none is missing if the task ids are plain, and a RUNNING TaskRun names an operation that was started for it. Two kinds of
writes keep this: creating the TaskRuns of a SCHEDULED DagRun, and replacing rows by
rows that identify the same run. -/

namespace YtScheduler

open Tablet

/-- The operation was returned by a `run_operation` call for the run. -/
def Shared.Started (s : Shared) (runId : Uuid) (operation : Option OperationId) : Prop :=
  ∃ op, operation = some op ∧ (op, runId) ∈ s.operations

structure Tables (s : Shared) (db : Db) : Prop where
  taskRun_lt : ∀ id t, db.taskRun id = some t → id < s.uuids
  dagRun_lt : ∀ id run, db.dagRun id = some run → id < s.uuids
  disjoint : ∀ id t, db.taskRun id = some t → db.dagRun id = none
  owner : ∀ id t, db.taskRun id = some t → ∃ run dag, db.dagRun t.dagrunId = some run ∧
    run.state ≠ .scheduled ∧ t.dagId = run.dagId ∧ s.dag? run.dagId = some dag ∧
    t.taskId ∈ dag.taskIds
  unique : ∀ id t id' t', db.taskRun id = some t → db.taskRun id' = some t' →
    t.dagrunId = t'.dagrunId → t.taskId = t'.taskId → id = id'
  complete : ∀ id run, db.dagRun id = some run → run.state ≠ .scheduled →
    ∃ dag, s.dag? run.dagId = some dag ∧ (dag.Plain → ∀ taskId ∈ dag.taskIds, ∃ id' t,
      db.taskRun id' = some t ∧ t.dagrunId = id ∧ t.taskId = taskId)
  running : ∀ id t, db.taskRun id = some t → t.state = .running → s.Started id t.operationId

/-- Rows of runs stay, keep what identifies them, and never return to SCHEDULED; no
DagRun appears, and no TaskRun of a DagRun that was not SCHEDULED. -/
structure Persists (db db' : Db) : Prop where
  taskRun : ∀ id t, db.taskRun id = some t → ∃ t', db'.taskRun id = some t' ∧
    t'.ident = t.ident ∧ (t.state ≠ .scheduled → t'.state ≠ .scheduled)
  dagRun : ∀ id run, db.dagRun id = some run → ∃ run', db'.dagRun id = some run' ∧
    run'.ident = run.ident ∧ (run.state ≠ .scheduled → run'.state ≠ .scheduled)
  dagRun_none : ∀ id, db.dagRun id = none → db'.dagRun id = none
  taskRun_old : ∀ id t', db'.taskRun id = some t' → ∀ run, db.dagRun t'.dagrunId = some run →
    run.state ≠ .scheduled → ∃ t, db.taskRun id = some t

namespace Persists

theorem refl (db : Db) : Persists db db :=
  ⟨fun _ t h => ⟨t, h, rfl, id⟩, fun _ run h => ⟨run, h, rfl, id⟩, fun _ h => h,
    fun _ t h _ _ _ => ⟨t, h⟩⟩

theorem trans {db db' db'' : Db} (h : Persists db db') (h' : Persists db' db'') :
    Persists db db'' := by
  refine ⟨fun id t ht => ?_, fun id run hr => ?_, fun id hn => h'.dagRun_none id (h.dagRun_none id hn),
    fun id t'' ht'' run hr hs => ?_⟩
  · obtain ⟨t', ht', hi, hs⟩ := h.taskRun id t ht
    obtain ⟨t'', ht'', hi', hs'⟩ := h'.taskRun id t' ht'
    exact ⟨t'', ht'', hi'.trans hi, fun hn => hs' (hs hn)⟩
  · obtain ⟨run', hr', hi, hs⟩ := h.dagRun id run hr
    obtain ⟨run'', hr'', hi', hs'⟩ := h'.dagRun id run' hr'
    exact ⟨run'', hr'', hi'.trans hi, fun hn => hs' (hs hn)⟩
  · obtain ⟨run', hr', _, hs'⟩ := h.dagRun _ run hr
    obtain ⟨t', ht'⟩ := h'.taskRun_old id t'' ht'' run' hr' (hs' hs)
    obtain ⟨t₁, ht₁, hi, _⟩ := h'.taskRun id t' ht'
    obtain rfl : t'' = t₁ := Option.some.inj (ht''.symm.trans ht₁)
    have hd : t''.dagrunId = t'.dagrunId := congrArg TaskRunIdent.dagrunId hi
    exact h.taskRun_old id t' ht' run (hd ▸ hr) hs

end Persists

/-- What is known in a state stays known: uuids and operations are only added. -/
structure Knows (s s' : Shared) : Prop where
  uuids : s.uuids ≤ s'.uuids
  operations : ∀ x ∈ s.operations, x ∈ s'.operations
  dags : s'.dags = s.dags
  engine : s'.engine = s.engine

namespace Knows

variable {s s' s'' : Shared}

theorem refl (s : Shared) : Knows s s := ⟨le_refl _, fun _ h => h, rfl, rfl⟩

theorem trans (h : Knows s s') (h' : Knows s' s'') : Knows s s'' :=
  ⟨h.uuids.trans h'.uuids, fun x hx => h'.operations x (h.operations x hx),
    h'.dags.trans h.dags, h'.engine.trans h.engine⟩

theorem dag? (h : Knows s s') (dagId : Uuid) : s'.dag? dagId = s.dag? dagId := by
  simp only [Shared.dag?, h.dags]

theorem started (h : Knows s s') {runId : Uuid} {operation : Option OperationId}
    (ho : s.Started runId operation) : s'.Started runId operation := by
  obtain ⟨op, rfl, hop⟩ := ho
  exact ⟨op, rfl, h.operations _ hop⟩

end Knows

theorem Shared.PlainDags.mono {s s' : Shared} (h : s.PlainDags) (hk : Knows s s') : s'.PlainDags := by
  rw [Shared.PlainDags, hk.dags]
  exact h

theorem Tables.mono {s s' : Shared} {db : Db} (h : Tables s db) (hk : Knows s s') :
    Tables s' db where
  taskRun_lt id t ht := (h.taskRun_lt id t ht).trans_le hk.uuids
  dagRun_lt id run hr := (h.dagRun_lt id run hr).trans_le hk.uuids
  disjoint := h.disjoint
  owner id t ht := by
    obtain ⟨run, dag, hr, hs, hd, hdag, hm⟩ := h.owner id t ht
    exact ⟨run, dag, hr, hs, hd, (hk.dag? _).trans hdag, hm⟩
  unique := h.unique
  complete id run hr hs := by
    obtain ⟨dag, hdag, hall⟩ := h.complete id run hr hs
    exact ⟨dag, (hk.dag? _).trans hdag, hall⟩
  running id t ht hs := hk.started (h.running id t ht hs)

theorem Tables.taskRun_none {s : Shared} {db : Db} (h : Tables s db) {id : Uuid}
    (hid : s.uuids ≤ id) : db.taskRun id = none := by
  by_contra hne
  obtain ⟨t, ht⟩ := Option.ne_none_iff_exists'.mp hne
  exact absurd (h.taskRun_lt id t ht) (Nat.not_lt.mpr hid)

theorem Tables.dagRun_none {s : Shared} {db : Db} (h : Tables s db) {id : Uuid}
    (hid : s.uuids ≤ id) : db.dagRun id = none := by
  by_contra hne
  obtain ⟨run, hr⟩ := Option.ne_none_iff_exists'.mp hne
  exact absurd (h.dagRun_lt id run hr) (Nat.not_lt.mpr hid)

/-- With plain task ids `update_state` reads all TaskRuns of the run. -/
theorem Tables.mem_readTrs {s : Shared} {db : Db} (h : Tables s db) {run run₀ : DagRunRow} {dag : Dag}
    (hplain : dag.Plain) (hdag : s.dag? run.dagId = some dag) (hrun : db.dagRun run.runId = some run₀)
    (hi : run.ident = run₀.ident) {t : TaskRunRow} :
    t ∈ DagRun.readTrs s.engine db run dag ↔ db.taskRun t.runId = some t ∧ t.dagrunId = run.runId := by
  rw [DagRun.readTrs_of_plain hplain, DagRun.mem_taskRuns]
  refine ⟨fun ht => ⟨ht.1, ht.2.1⟩, fun ⟨ht, hd⟩ => ⟨ht, hd, ?_⟩⟩
  obtain ⟨run', dag', hr, _, hdagId, hdag', hm⟩ := h.owner _ t ht
  rw [hd, hrun] at hr
  obtain rfl := Option.some.inj hr
  have hsame : run.dagId = run₀.dagId := congrArg DagRunIdent.dagId hi
  rw [← hsame] at hdagId hdag'
  obtain rfl := Option.some.inj (hdag'.symm.trans hdag)
  exact ⟨hdagId, hm⟩

/-! ### Replacing rows -/

/-- The new TaskRun row replaces the row of the same run and does not make it SCHEDULED. -/
structure SetsTaskRun (s : Shared) (t : TaskRunRow) : Prop where
  persisted : ∃ t₀, s.db.taskRun t.runId = some t₀ ∧ t.ident = t₀.ident
  state : t.state ≠ .scheduled
  running : t.state = .running → s.Started t.runId t.operationId

/-- The new DagRun row replaces a row that was not SCHEDULED and is not SCHEDULED itself. -/
structure SetsDagRun (s : Shared) (run : DagRunRow) : Prop where
  persisted : ∃ run₀, s.db.dagRun run.runId = some run₀ ∧ run.ident = run₀.ident ∧
    run₀.state ≠ .scheduled
  state : run.state ≠ .scheduled

/-- A batch that only replaces rows. -/
structure Sets (s : Shared) (rows : List Row) : Prop where
  taskRun : ∀ t, .taskRun t ∈ rows → SetsTaskRun s t
  dagRun : ∀ run, .dagRun run ∈ rows → SetsDagRun s run

namespace Sets

variable {s : Shared} {rows : List Row} (h : Sets s rows)
include h

theorem taskRun_of_upsertAll {id : Uuid} {t : TaskRunRow}
    (ht : Db.taskRun (s.db.upsertAll rows) id = some t) :
    ∃ t₀, s.db.taskRun id = some t₀ ∧ t.ident = t₀.ident ∧ (t = t₀ ∨ SetsTaskRun s t) := by
  rcases Db.get_upsertAll_cases ht with ⟨hm, rfl⟩ | ⟨_, h₀⟩
  · obtain ⟨t₀, h₀, hi⟩ := (h.taskRun t hm).persisted
    exact ⟨t₀, h₀, hi, Or.inr (h.taskRun t hm)⟩
  · exact ⟨t, h₀, rfl, Or.inl rfl⟩

theorem dagRun_of_upsertAll {id : Uuid} {run : DagRunRow}
    (hr : Db.dagRun (s.db.upsertAll rows) id = some run) :
    ∃ run₀, s.db.dagRun id = some run₀ ∧ run.ident = run₀.ident ∧
      (run = run₀ ∨ run₀.state ≠ .scheduled ∧ run.state ≠ .scheduled) := by
  rcases Db.get_upsertAll_cases hr with ⟨hm, rfl⟩ | ⟨_, h₀⟩
  · obtain ⟨run₀, h₀, hi, hs⟩ := (h.dagRun run hm).persisted
    exact ⟨run₀, h₀, hi, Or.inr ⟨hs, (h.dagRun run hm).state⟩⟩
  · exact ⟨run, h₀, rfl, Or.inl rfl⟩

theorem persists : Persists s.db (s.db.upsertAll rows) := by
  refine ⟨fun id t ht => ?_, fun id run hr => ?_, fun id hn => ?_, fun id t ht _ _ _ => ?_⟩
  · by_cases hw : ∃ b : TaskRunRow, RowKind.toRow b ∈ rows ∧ RowKind.id b = id
    · obtain ⟨t', hm, rfl, ht'⟩ := Db.get_upsertAll_of_written s.db hw
      obtain ⟨t₀, h₀, hi⟩ := (h.taskRun t' hm).persisted
      rw [show s.db.taskRun t'.runId = some t from ht] at h₀
      cases h₀
      exact ⟨t', ht', hi, fun _ => (h.taskRun t' hm).state⟩
    · have hn : ∀ b : TaskRunRow, RowKind.toRow b ∈ rows → RowKind.id b ≠ id :=
        fun b hb he => hw ⟨b, hb, he⟩
      exact ⟨t, (Db.get_upsertAll_of_not_written hn).trans ht, rfl, fun hs => hs⟩
  · by_cases hw : ∃ b : DagRunRow, RowKind.toRow b ∈ rows ∧ RowKind.id b = id
    · obtain ⟨run', hm, rfl, hr'⟩ := Db.get_upsertAll_of_written s.db hw
      obtain ⟨run₀, h₀, hi, _⟩ := (h.dagRun run' hm).persisted
      rw [show s.db.dagRun run'.runId = some run from hr] at h₀
      cases h₀
      exact ⟨run', hr', hi, fun _ => (h.dagRun run' hm).state⟩
    · have hn : ∀ b : DagRunRow, RowKind.toRow b ∈ rows → RowKind.id b ≠ id :=
        fun b hb he => hw ⟨b, hb, he⟩
      exact ⟨run, (Db.get_upsertAll_of_not_written hn).trans hr, rfl, fun hs => hs⟩
  · by_contra hne
    obtain ⟨run, hr⟩ := Option.ne_none_iff_exists'.mp hne
    obtain ⟨run₀, h₀, _⟩ := h.dagRun_of_upsertAll hr
    rw [hn] at h₀
    cases h₀
  · obtain ⟨t₀, h₀, _⟩ := h.taskRun_of_upsertAll ht
    exact ⟨t₀, h₀⟩

theorem tables (ht : Tables s s.db) : Tables s (s.db.upsertAll rows) where
  taskRun_lt id t h' := by
    obtain ⟨t₀, h₀, _⟩ := h.taskRun_of_upsertAll h'
    exact ht.taskRun_lt id t₀ h₀
  dagRun_lt id run h' := by
    obtain ⟨run₀, h₀, _⟩ := h.dagRun_of_upsertAll h'
    exact ht.dagRun_lt id run₀ h₀
  disjoint id t h' := by
    obtain ⟨t₀, h₀, _⟩ := h.taskRun_of_upsertAll h'
    exact h.persists.dagRun_none id (ht.disjoint id t₀ h₀)
  owner id t h' := by
    obtain ⟨t₀, h₀, hi, _⟩ := h.taskRun_of_upsertAll h'
    obtain ⟨run, dag, hr, hs, hd, hdag, hm⟩ := ht.owner id t₀ h₀
    obtain ⟨run', hr', hri, hrs⟩ := h.persists.dagRun _ run hr
    simp only [TaskRunRow.ident, TaskRunIdent.mk.injEq] at hi
    simp only [DagRunRow.ident, DagRunIdent.mk.injEq] at hri
    refine ⟨run', dag, ?_, hrs hs, ?_, ?_, ?_⟩
    · rw [hi.2.2.2, hr']
    · rw [hi.2.2.1, hd, hri.2]
    · rw [hri.2, hdag]
    · rw [hi.2.1]
      exact hm
  unique id t id' t' h₁ h₂ hd htask := by
    obtain ⟨t₀, h₀, hi, _⟩ := h.taskRun_of_upsertAll h₁
    obtain ⟨t₀', h₀', hi', _⟩ := h.taskRun_of_upsertAll h₂
    simp only [TaskRunRow.ident, TaskRunIdent.mk.injEq] at hi hi'
    exact ht.unique id t₀ id' t₀' h₀ h₀' (by rw [← hi.2.2.2, ← hi'.2.2.2, hd])
      (by rw [← hi.2.1, ← hi'.2.1, htask])
  complete id run h' hs := by
    obtain ⟨run₀, h₀, hi, hcase⟩ := h.dagRun_of_upsertAll h'
    have hs₀ : run₀.state ≠ .scheduled := by
      rcases hcase with rfl | ⟨hs₀, _⟩
      · exact hs
      · exact hs₀
    obtain ⟨dag, hdag, hall⟩ := ht.complete id run₀ h₀ hs₀
    simp only [DagRunRow.ident, DagRunIdent.mk.injEq] at hi
    refine ⟨dag, by rw [hi.2, hdag], fun hplain taskId hm => ?_⟩
    obtain ⟨id', t, htr, hd, htask⟩ := hall hplain taskId hm
    obtain ⟨t', ht', hti, _⟩ := h.persists.taskRun id' t htr
    simp only [TaskRunRow.ident, TaskRunIdent.mk.injEq] at hti
    exact ⟨id', t', ht', by rw [hti.2.2.2, hd], by rw [hti.2.1, htask]⟩
  running id t h' hs := by
    obtain ⟨t₀, h₀, _, hcase⟩ := h.taskRun_of_upsertAll h'
    rcases hcase with rfl | hset
    · exact ht.running id t h₀ hs
    · have hid : t.runId = id := Db.runId_of_taskRun h'
      exact hid ▸ hset.running hs

end Sets

/-! ### Creating the TaskRuns of a DagRun -/

/-- The batch of `queue_run_atomic`: TaskRuns with unused ids, one for each task if the task ids are
plain, and the DagRun itself, which was SCHEDULED. -/
structure Creates (s : Shared) (run : DagRunRow) (dag : Dag) (trs : List TaskRunRow) : Prop where
  persisted : ∃ run₀, s.db.dagRun run.runId = some run₀ ∧ run.ident = run₀.ident ∧
    run₀.state = .scheduled
  queued : run.state = .queued
  loaded : s.dag? run.dagId = some dag
  complete : dag.Plain → ∀ taskId ∈ dag.taskIds, ∃ t ∈ trs, t.taskId = taskId
  tasks : ∀ t ∈ trs, t.taskId ∈ dag.taskIds
  unique : ∀ t ∈ trs, ∀ t' ∈ trs, t.taskId = t'.taskId → t = t'
  ids : ∀ t ∈ trs, ∀ t' ∈ trs, t.runId = t'.runId → t = t'
  unused : ∀ t ∈ trs, s.db.taskRun t.runId = none ∧ s.db.dagRun t.runId = none ∧
    t.runId < s.uuids
  owner : ∀ t ∈ trs, t.dagrunId = run.runId ∧ t.dagId = run.dagId
  state : ∀ t ∈ trs, t.state = .queued ∨ t.state = .scheduled

/-- The TaskRun rows and the DagRun row that one transaction writes. -/
def batch (run : DagRunRow) (trs : List TaskRunRow) : List Row :=
  trs.map .taskRun ++ [.dagRun run]

@[simp] theorem taskRun_mem_batch {run : DagRunRow} {trs : List TaskRunRow} {t : TaskRunRow} :
    Row.taskRun t ∈ batch run trs ↔ t ∈ trs := by simp [batch]

@[simp] theorem dagRun_mem_batch {run run' : DagRunRow} {trs : List TaskRunRow} :
    Row.dagRun run' ∈ batch run trs ↔ run' = run := by simp [batch]

theorem dagRun_upsertAll_batch (db : Db) (run : DagRunRow) (trs : List TaskRunRow) :
    Db.dagRun (db.upsertAll (batch run trs)) run.runId = some run := by
  have hw : ∃ b : DagRunRow, RowKind.toRow b ∈ batch run trs ∧ RowKind.id b = run.runId :=
    ⟨run, by simp, rfl⟩
  obtain ⟨run', hm, _, hr⟩ := Db.get_upsertAll_of_written db hw
  rw [toRow_dagRun, dagRun_mem_batch] at hm
  rw [hm] at hr
  exact hr

namespace Creates

variable {s : Shared} {run : DagRunRow} {dag : Dag} {trs : List TaskRunRow}
  (h : Creates s run dag trs)
include h

theorem taskRun_iff {id : Uuid} {t : TaskRunRow} :
    Db.taskRun (s.db.upsertAll (batch run trs)) id = some t ↔
      (t ∈ trs ∧ t.runId = id) ∨ s.db.taskRun id = some t := by
  constructor
  · intro ht
    rcases Db.get_upsertAll_cases ht with ⟨hm, hid⟩ | ⟨_, h₀⟩
    · exact Or.inl ⟨by simpa using hm, hid⟩
    · exact Or.inr h₀
  · rintro (⟨hm, rfl⟩ | h₀)
    · have hw : ∃ b : TaskRunRow, RowKind.toRow b ∈ batch run trs ∧ RowKind.id b = t.runId :=
        ⟨t, by simpa using hm, rfl⟩
      obtain ⟨t', hm', hid, ht'⟩ := Db.get_upsertAll_of_written s.db hw
      rw [toRow_taskRun, taskRun_mem_batch] at hm'
      rw [h.ids t' hm' t hm hid] at ht'
      exact ht'
    · rw [← h₀]
      refine Db.get_upsertAll_of_not_written fun t' hm' hid => ?_
      rw [toRow_taskRun, taskRun_mem_batch] at hm'
      have hn := (h.unused t' hm').1
      rw [show t'.runId = id from hid, h₀] at hn
      cases hn

theorem dagRun_of_ne {id : Uuid} (hid : id ≠ run.runId) :
    Db.dagRun (s.db.upsertAll (batch run trs)) id = s.db.dagRun id := by
  refine Db.get_upsertAll_of_not_written fun run' hm he => ?_
  rw [toRow_dagRun, dagRun_mem_batch] at hm
  subst hm
  exact hid he.symm

theorem persists : Persists s.db (s.db.upsertAll (batch run trs)) := by
  obtain ⟨run₀, hr₀, hi, hs₀⟩ := h.persisted
  refine ⟨fun id t ht => ⟨t, h.taskRun_iff.mpr (Or.inr ht), rfl, fun hs => hs⟩, fun id run' hr => ?_,
    fun id hn => ?_, fun id t ht run' hr hs => ?_⟩
  · by_cases hid : id = run.runId
    · subst hid
      rw [hr₀] at hr
      cases hr
      exact ⟨run, dagRun_upsertAll_batch _ _ _, hi, fun _ => by rw [h.queued]; decide⟩
    · exact ⟨run', (h.dagRun_of_ne hid).trans hr, rfl, fun hs => hs⟩
  · rw [h.dagRun_of_ne, hn]
    rintro rfl
    rw [hr₀] at hn
    cases hn
  · rcases h.taskRun_iff.mp ht with ⟨hm, _⟩ | h₀
    · rw [(h.owner t hm).1, hr₀] at hr
      cases hr
      exact absurd hs₀ hs
    · exact ⟨t, h₀⟩

/-- No TaskRun belonged to the DagRun before. -/
theorem dagrunId_ne (ht : Tables s s.db) {id : Uuid} {t : TaskRunRow}
    (h₀ : s.db.taskRun id = some t) : t.dagrunId ≠ run.runId := by
  obtain ⟨run₀, hr₀, _, hs₀⟩ := h.persisted
  intro he
  obtain ⟨run', _, hr, hs, _⟩ := ht.owner id t h₀
  rw [he, hr₀] at hr
  cases hr
  exact hs hs₀

theorem tables (ht : Tables s s.db) : Tables s (s.db.upsertAll (batch run trs)) where
  taskRun_lt id t h' := by
    rcases h.taskRun_iff.mp h' with ⟨hm, rfl⟩ | h₀
    · exact (h.unused t hm).2.2
    · exact ht.taskRun_lt id t h₀
  dagRun_lt id run' h' := by
    by_cases hid : id = run.runId
    · obtain ⟨run₀, hr₀, _⟩ := h.persisted
      exact hid ▸ ht.dagRun_lt _ run₀ hr₀
    · exact ht.dagRun_lt id run' ((h.dagRun_of_ne hid).symm.trans h')
  disjoint id t h' := by
    rcases h.taskRun_iff.mp h' with ⟨hm, rfl⟩ | h₀
    · exact h.persists.dagRun_none _ (h.unused t hm).2.1
    · exact h.persists.dagRun_none _ (ht.disjoint id t h₀)
  owner id t h' := by
    rcases h.taskRun_iff.mp h' with ⟨hm, rfl⟩ | h₀
    · refine ⟨run, dag, ?_, by rw [h.queued]; decide, (h.owner t hm).2, h.loaded, h.tasks t hm⟩
      rw [(h.owner t hm).1]
      exact dagRun_upsertAll_batch _ _ _
    · obtain ⟨run', dag', hr, hs, hd, hdag, hm⟩ := ht.owner id t h₀
      exact ⟨run', dag', (h.dagRun_of_ne (h.dagrunId_ne ht h₀)).trans hr, hs, hd, hdag, hm⟩
  unique id t id' t' h₁ h₂ hd htask := by
    rcases h.taskRun_iff.mp h₁ with ⟨hm, rfl⟩ | h₀ <;> rcases h.taskRun_iff.mp h₂ with ⟨hm', rfl⟩ | h₀'
    · rw [h.unique t hm t' hm' htask]
    · exact absurd (hd.symm.trans (h.owner t hm).1) (h.dagrunId_ne ht h₀')
    · exact absurd (hd.trans (h.owner t' hm').1) (h.dagrunId_ne ht h₀)
    · exact ht.unique id t id' t' h₀ h₀' hd htask
  complete id run' h' hs := by
    by_cases hid : id = run.runId
    · subst hid
      rw [dagRun_upsertAll_batch] at h'
      cases h'
      refine ⟨dag, h.loaded, fun hplain taskId hm => ?_⟩
      obtain ⟨t, htm, htask⟩ := h.complete hplain taskId hm
      exact ⟨t.runId, t, h.taskRun_iff.mpr (Or.inl ⟨htm, rfl⟩), (h.owner t htm).1, htask⟩
    · obtain ⟨dag', hdag, hall⟩ := ht.complete id run' ((h.dagRun_of_ne hid).symm.trans h') hs
      refine ⟨dag', hdag, fun hplain taskId hm => ?_⟩
      obtain ⟨id', t, h₀, hd, htask⟩ := hall hplain taskId hm
      exact ⟨id', t, h.taskRun_iff.mpr (Or.inr h₀), hd, htask⟩
  running id t h' hs := by
    rcases h.taskRun_iff.mp h' with ⟨hm, rfl⟩ | h₀
    · rcases h.state t hm with hq | hq <;> rw [hq] at hs <;> cases hs
    · exact ht.running id t h₀ hs

end Creates

end YtScheduler
