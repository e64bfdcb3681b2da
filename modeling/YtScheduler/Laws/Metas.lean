import YtScheduler.Sequences.Indices
import YtScheduler.Services.Clients

/-! What claiming writes into a DagMeta. The row written back was rebuilt from a join with
the DagRef, whose `created_at` stands in for that of the meta. -/

namespace YtScheduler

open Tablet Threads

variable {i : ℕ} {s : Shared} {ytClient : Option Client} {metas : List (Option Uuid)}

/-- A selected row and the meta written for it. -/
def Stamped (row : DagRefRow × DagMetaRow) (new : DagMetaRow) : Prop :=
  ∃ runId, new = { row.2 with runId := some runId }

namespace Scheduler

theorem yields_markMetas (rows : List (DagRefRow × DagMetaRow)) (s : Shared) :
    ∃ news clock, Yields i (markMetas rows) s news { s with clock } ∧ List.Forall₂ Stamped rows news := by
  induction rows generalizing s with
  | nil => exact ⟨[], s.clock, Yields.ret _ _, .nil⟩
  | cons row rows ih =>
    obtain ⟨news, clock, hrest, hnews⟩ := ih { s with clock := s.clock + 1 }
    exact ⟨_, clock, (Yields.nowUtc s).bind (hrest.bind (Yields.ret _ _)), .cons ⟨_, rfl⟩ hnews⟩

theorem yields_claimMetas (rows : List (DagRefRow × DagMetaRow)) (s : Shared) :
    ∃ news clock uuids, Yields i (claimMetas rows) s news { s with clock, uuids } ∧
      List.Forall₂ Stamped rows (news.map Prod.snd) := by
  induction rows generalizing s with
  | nil => exact ⟨[], s.clock, s.uuids, Yields.ret _ _, .nil⟩
  | cons row rows ih =>
    obtain ⟨news, clock, uuids, hrest, hnews⟩ :=
      ih { s with clock := s.clock + 1, uuids := s.uuids + 1 }
    have hid : Yields i (P.call .generateUuid) s s.uuids { s with uuids := s.uuids + 1 } :=
      Yields.op fun _ l _ => ⟨l, rfl⟩
    have hnow := Yields.nowUtc (i := i) { s with uuids := s.uuids + 1 }
    exact ⟨_, clock, uuids, hid.bind (hnow.bind (hrest.bind (Yields.ret _ _))), .cons ⟨_, rfl⟩ hnews⟩

theorem yields_dagsNeedingDagrunsOfMetas {c : Client} {s₁ : Shared} (h : Within i s c s₁ [])
    {cl : Option Client} (hcl : Op.resolve cl i = c ∨ Op.resolve cl i = .thread i)
    (metas : List (Option Uuid)) :
    Yields i (dagsNeedingDagrunsOfMetas metas cl) s₁
      (YtScheduler.dagsNeedingDagrunsOfMetas metas s.db) s₁ := by
  rw [dagsNeedingDagrunsOfMetas]
  split_ifs with hempty
  · have hnil : YtScheduler.dagsNeedingDagrunsOfMetas metas s.db = [] := by
      rw [List.isEmpty_iff.mp hempty]
      simp [YtScheduler.dagsNeedingDagrunsOfMetas]
    rw [hnil]
    exact Yields.ret _ _
  · exact h.select hcl rfl

/-- `_set_invalid_meta` alone writes the selected metas. -/
theorem yields_setInvalidMeta (hopen : s.opened (.thread i) = []) (metas : List (Option Uuid))
    (ytClient : Option Client) :
    ∃ news, List.Forall₂ Stamped (YtScheduler.dagsNeedingDagrunsOfMetas metas s.db) news ∧
      ∃ s', Yields i (setInvalidMeta metas ytClient) s () s' ∧
        s'.db = s.db.upsertAll (news.map .dagMeta) := by
  have h := Within.begin hopen (Op.resolve ytClient i)
  have hselect := yields_dagsNeedingDagrunsOfMetas h
    (Or.inr (rfl : Op.resolve none i = .thread i)) metas
  obtain ⟨news, clock, hmark, hnews⟩ := yields_markMetas (i := i)
    (YtScheduler.dagsNeedingDagrunsOfMetas metas s.db) (s.beginTx i (Op.resolve ytClient i))
  have h₁ := h.congr { s.beginTx i (Op.resolve ytClient i) with clock } rfl rfl rfl
  have hwrite : ∃ s₂, Yields i (P.unlessEmpty news (P.upsertRows (news.map .dagMeta) none))
      { s.beginTx i (Op.resolve ytClient i) with clock } () s₂ ∧
      Within i s (Op.resolve ytClient i) s₂ (news.map .dagMeta) := by
    cases news with
    | nil => exact ⟨_, Yields.ret () _, h₁⟩
    | cons new news =>
      obtain ⟨s₂, hupsert, h₂, _⟩ := h₁.upsertRows ((new :: news).map .dagMeta)
      exact ⟨s₂, hupsert, h₂⟩
  obtain ⟨s₂, hwrite, h₂⟩ := hwrite
  have hset : ∃ s', Yields i (setInvalidMeta metas ytClient) s () s' ∧
      s'.db = s.db.upsertAll (news.map .dagMeta) ∧ s'.opened (.thread i) = [] ∧ s'.mem = s₂.mem := by
    refine h₂.transaction_on ?_
    exact hselect.bind (hmark.bind hwrite)
  obtain ⟨s', hset, hdb, _⟩ := hset
  exact ⟨news, hnews, s', hset, hdb⟩

/-- `_create_dag_runs_atomic` alone writes the selected metas and new DagRuns. -/
theorem yields_createDagRunsAtomic (hopen : s.opened (.thread i) = []) (metas : List (Option Uuid))
    (ytClient : Option Client) :
    ∃ (runs : List DagRunRow) (news : List DagMetaRow),
      List.Forall₂ Stamped (YtScheduler.dagsNeedingDagrunsOfMetas metas s.db) news ∧
      ∃ n s', Yields i (createDagRunsAtomic metas ytClient) s n s' ∧
        s'.db = s.db.upsertAll (runs.map .dagRun ++ news.map .dagMeta) := by
  have h := Within.begin hopen (Op.resolve ytClient i)
  have hselect := yields_dagsNeedingDagrunsOfMetas h (Or.inl rfl) metas
  obtain ⟨batched, clock, uuids, hclaim, hnews⟩ := yields_claimMetas (i := i)
    (YtScheduler.dagsNeedingDagrunsOfMetas metas s.db) (s.beginTx i (Op.resolve ytClient i))
  have h₁ := h.congr { s.beginTx i (Op.resolve ytClient i) with clock, uuids } rfl rfl rfl
  have hwrite : ∃ s₂, Yields i (P.unlessEmpty batched do
        P.upsertRows (batched.map fun b => .dagRun b.1) none
        P.upsertRows (batched.map fun b => .dagMeta b.2) none)
      { s.beginTx i (Op.resolve ytClient i) with clock, uuids } () s₂ ∧
      Within i s (Op.resolve ytClient i) s₂
        ((batched.map fun b => .dagRun b.1) ++ batched.map fun b => .dagMeta b.2) := by
    cases batched with
    | nil => exact ⟨_, Yields.ret () _, h₁⟩
    | cons b batched =>
      obtain ⟨s₂, hruns, h₂, _⟩ := h₁.upsertRows ((b :: batched).map fun b => .dagRun b.1)
      obtain ⟨s₃, hmetas, h₃, _⟩ := h₂.upsertRows ((b :: batched).map fun b => .dagMeta b.2)
      exact ⟨s₃, hruns.bind hmetas, h₃⟩
  obtain ⟨s₂, hwrite, h₂⟩ := hwrite
  have hcreate : ∃ s', Yields i (createDagRunsAtomic metas ytClient) s batched.length s' ∧
      s'.db = s.db.upsertAll ((batched.map fun b => .dagRun b.1) ++ batched.map fun b => .dagMeta b.2) ∧
      s'.opened (.thread i) = [] ∧ s'.mem = s₂.mem := by
    refine h₂.transaction_on ?_
    exact hselect.bind (hclaim.bind (hwrite.bind (Yields.ret batched.length s₂)))
  obtain ⟨s', hcreate, hdb, _⟩ := hcreate
  refine ⟨batched.map Prod.fst, batched.map Prod.snd, hnews, batched.length, s', hcreate, ?_⟩
  rw [hdb, List.map_map, List.map_map]
  rfl

end Scheduler

/-- The persisted meta differs from the given one in its `run_id` only. -/
def OnlyClaimed (row : DagMetaRow) (db' : Db) : Prop :=
  ∃ runId, db'.dagMeta row.id = some { row with runId }

section Written

variable {db : Db} {ref : DagRefRow} {row : DagMetaRow} {news : List DagMetaRow} {others : List Row}

/-- A meta waiting for a DagRun comes back with the `created_at` of its DagRef. -/
theorem dagMeta_of_stamped (href : ref ∈ db.dagRefs) (hrow : row ∈ db.dagMetas)
    (hdag : row.dagId = ref.dagId) (hmem : some row.id ∈ metas) (hnull : row.runId = none)
    (hnews : List.Forall₂ Stamped (dagsNeedingDagrunsOfMetas metas db) news) :
    ∃ runId, Db.dagMeta (db.upsertAll (others ++ news.map .dagMeta)) row.id =
      some { row with createdAt := ref.createdAt, runId } := by
  have hrow := Db.mem_dagMetas.mp hrow
  have hselected : (ref, joinedMeta ref row) ∈ dagsNeedingDagrunsOfMetas metas db :=
    mem_dagsNeedingDagrunsOfMetas.mpr ⟨href, row, hrow, hdag, hmem, hnull, rfl⟩
  -- whatever is written under the id of the meta was built from it and its DagRef
  have hbuilt : ∀ new ∈ news, new.id = row.id →
      ∃ runId, new = { row with createdAt := ref.createdAt, runId } := by
    rintro new hnew hid
    obtain ⟨⟨ref', row'⟩, hpair, runId, rfl⟩ := Sequences.exists_left hnews hnew
    obtain ⟨href', row₀, hrow₀, hdag₀, _, _, rfl⟩ := mem_dagsNeedingDagrunsOfMetas.mp hpair
    have hid : row₀.id = row.id := hid
    rw [hid, hrow] at hrow₀
    obtain rfl := Option.some.inj hrow₀
    have hsame : ref' = ref := List.inj_on_of_nodup_map (Db.nodup_all db) href' href
      (hdag₀.symm.trans hdag)
    refine ⟨some runId, ?_⟩
    rw [hsame]
    simp [joinedMeta, hdag]
  obtain ⟨new, hnew, runId, rfl⟩ := Sequences.exists_right hnews hselected
  rw [Table.upsertAll_append]
  obtain ⟨a, ha, hid, hget⟩ := Db.get_upsertAll_of_written (db.upsertAll others)
    (show ∃ b : DagMetaRow, RowKind.toRow b ∈ news.map Row.dagMeta ∧ RowKind.id b = row.id from
      ⟨_, List.mem_map_of_mem hnew, rfl⟩)
  obtain ⟨new, hmem', he⟩ := List.mem_map.mp ha
  obtain rfl : new = a := by simpa using he
  obtain ⟨runId', rfl⟩ := hbuilt new hmem' hid
  exact ⟨runId', hget⟩

end Written

/-- A meta waiting for a DagRun, with its DagRef. -/
structure Awaiting (db : Db) (ref : DagRefRow) (row : DagMetaRow) : Prop where
  mem_dagRefs : ref ∈ db.dagRefs
  mem_dagMetas : row ∈ db.dagMetas
  dagId : row.dagId = ref.dagId
  null : row.runId = none

/-- The meta as claiming leaves it: with the `created_at` of the DagRef. -/
def Rebuilt (ref : DagRefRow) (row : DagMetaRow) (db' : Db) : Prop :=
  ∃ runId, db'.dagMeta row.id = some { row with createdAt := ref.createdAt, runId }

section Claiming

variable {ref : DagRefRow} {row : DagMetaRow}

theorem create_rebuilds (hopen : s.opened (.thread i) = []) (h : Awaiting s.db ref row)
    (hmem : some row.id ∈ metas) (ytClient : Option Client) :
    ∃ n s', Yields i (Scheduler.createDagRunsAtomic metas ytClient) s n s' ∧ Rebuilt ref row s'.db := by
  obtain ⟨runs, news, hnews, n, s', hcreate, hdb⟩ :=
    Scheduler.yields_createDagRunsAtomic hopen metas ytClient
  refine ⟨n, s', hcreate, ?_⟩
  rw [Rebuilt, hdb]
  exact dagMeta_of_stamped h.mem_dagRefs h.mem_dagMetas h.dagId hmem h.null hnews

theorem setInvalid_rebuilds (hopen : s.opened (.thread i) = []) (h : Awaiting s.db ref row)
    (hmem : some row.id ∈ metas) (ytClient : Option Client) :
    ∃ s', Yields i (Scheduler.setInvalidMeta metas ytClient) s () s' ∧ Rebuilt ref row s'.db := by
  obtain ⟨news, hnews, s', hset, hdb⟩ := Scheduler.yields_setInvalidMeta hopen metas ytClient
  refine ⟨s', hset, ?_⟩
  rw [Rebuilt, hdb, ← List.nil_append (news.map Row.dagMeta)]
  exact dagMeta_of_stamped h.mem_dagRefs h.mem_dagMetas h.dagId hmem h.null hnews

theorem Rebuilt.onlyClaimed_iff {db' : Db} (h : Rebuilt ref row db') :
    OnlyClaimed row db' ↔ ref.createdAt = row.createdAt := by
  obtain ⟨runId, hget⟩ := h
  rw [OnlyClaimed, hget]
  constructor
  · rintro ⟨runId', he⟩
    exact congrArg DagMetaRow.createdAt (Option.some.inj he)
  · intro hcreated
    exact ⟨runId, by rw [hcreated]⟩

/-- Alone, both ways of claiming a meta keep its other columns exactly if the DagRef was created at
the same time. -/
theorem claiming_keeps_meta_iff (hopen : s.opened (.thread i) = []) (h : Awaiting s.db ref row)
    (hmem : some row.id ∈ metas) (ytClient : Option Client) :
    (∃ n s', Yields i (Scheduler.createDagRunsAtomic metas ytClient) s n s' ∧
      (OnlyClaimed row s'.db ↔ ref.createdAt = row.createdAt)) ∧
    ∃ s', Yields i (Scheduler.setInvalidMeta metas ytClient) s () s' ∧
      (OnlyClaimed row s'.db ↔ ref.createdAt = row.createdAt) := by
  obtain ⟨n, s₁, hcreate, h₁⟩ := create_rebuilds hopen h hmem ytClient
  obtain ⟨s₂, hset, h₂⟩ := setInvalid_rebuilds hopen h hmem ytClient
  exact ⟨⟨n, s₁, hcreate, h₁.onlyClaimed_iff⟩, s₂, hset, h₂.onlyClaimed_iff⟩

end Claiming

/-- A meta added after its DagRef. -/
def lateMeta : DagMetaRow := ⟨4, 0, ⟨2, true⟩, none⟩

def earlyRef : DagRefRow := ⟨0, "", "", ⟨1, true⟩⟩

def rerun : Shared where
  store := ⟨⟨[.dagRef earlyRef, .dagMeta lateMeta], by decide⟩, []⟩

theorem awaiting_lateMeta : Awaiting rerun.db earlyRef lateMeta :=
  ⟨by decide, by decide, rfl, rfl⟩

theorem rerun_keeps_meta_iff :
    (∃ n s', Yields 0 (Scheduler.createDagRunsAtomic [some 4] none) rerun n s' ∧
      (OnlyClaimed lateMeta s'.db ↔ earlyRef.createdAt = lateMeta.createdAt)) ∧
    ∃ s', Yields 0 (Scheduler.setInvalidMeta [some 4] none) rerun () s' ∧
      (OnlyClaimed lateMeta s'.db ↔ earlyRef.createdAt = lateMeta.createdAt) :=
  claiming_keeps_meta_iff rfl awaiting_lateMeta (by decide) none

/-- Both ways of claiming change the `created_at` of this meta. -/
theorem rerun_changes_meta :
    (¬∃ n s', Yields 0 (Scheduler.createDagRunsAtomic [some 4] none) rerun n s' ∧
      OnlyClaimed lateMeta s'.db) ∧
    ¬∃ s', Yields 0 (Scheduler.setInvalidMeta [some 4] none) rerun () s' ∧
      OnlyClaimed lateMeta s'.db := by
  constructor
  · rintro ⟨n, s', hcreate, honly⟩
    obtain ⟨n', s'', hcreate', h⟩ := create_rebuilds (i := 0) rfl awaiting_lateMeta
      (show some lateMeta.id ∈ [some 4] by decide) none
    rw [(hcreate.unique hcreate').2] at honly
    exact absurd (h.onlyClaimed_iff.mp honly) (by decide)
  · rintro ⟨s', hset, honly⟩
    obtain ⟨s'', hset', h⟩ := setInvalid_rebuilds (i := 0) rfl awaiting_lateMeta
      (show some lateMeta.id ∈ [some 4] by decide) none
    rw [(hset.unique hset').2] at honly
    exact absurd (h.onlyClaimed_iff.mp honly) (by decide)

end YtScheduler
