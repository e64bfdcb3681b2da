import YtScheduler.Store.Engine

/-! The select statements of the repository, as functions of the tables they read.
A filter argument that is `None` selects everything, a scalar selects by equality
and a list by membership; the shard filter compares the row key's hash. Task ids are
strings of the user, pasted into the text of the statement: a statement with task ids
selects what the engine reads there. -/

namespace YtScheduler

/-- A filter argument that is not `None`: `process_filter_value`. -/
inductive FilterValue (α : Type)
  | eq (a : α)
  | mem (as : List α)

namespace FilterValue

open Filters Quoting

variable {α : Type} [DecidableEq α]

def accepts : FilterValue α → α → Bool
  | .eq b, a => a = b
  | .mem bs, a => a ∈ bs

/-- A keyword argument of `fetch_rows`; `None` accepts every value. -/
def acceptsOpt (f : Option (FilterValue α)) (a : α) : Bool := f.all (·.accepts a)

omit [DecidableEq α] in
/-- `process_filter_value`. -/
def text (text : α → Text) : FilterValue α → Filters.ValueType × Text
  | .eq a => (.str, quoteValue (text a))
  | .mem as => (.list, flatten (as.map text))

@[simp] theorem acceptsOpt_none (a : α) : acceptsOpt none a = true := rfl

@[simp] theorem acceptsOpt_eq (a b : α) : acceptsOpt (some (.eq b)) a = true ↔ a = b := by
  simp [acceptsOpt, accepts]

@[simp] theorem acceptsOpt_mem (a : α) (bs : List α) :
    acceptsOpt (some (.mem bs)) a = true ↔ a ∈ bs := by
  simp [acceptsOpt, accepts]

end FilterValue

open FilterValue Filters Lookups

structure ShardingOptions where
  shardIndex : ℕ
  numShards : ℕ
  numVirtualShards : ℕ
  deriving DecidableEq, Inhabited

/-- `(farm_hash(key) % num_virtual_shards) % num_shards = shard_index`. -/
def ShardingOptions.selects (shard : ShardingOptions) (farmHash : Uuid → ℕ) (key : Uuid) : Bool :=
  (farmHash key % shard.numVirtualShards) % shard.numShards = shard.shardIndex

structure TaskRunFilter where
  runId : Option (FilterValue Uuid) := none
  taskId : Option (FilterValue String) := none
  dagId : Option (FilterValue Uuid) := none
  dagrunId : Option (FilterValue Uuid) := none
  state : Option (FilterValue TaskRunState) := none
  operationId : Option (FilterValue (Option OperationId)) := none
  limit : Option ℕ := none
  shard : Option ShardingOptions := none

structure DagRunFilter where
  runId : Option (FilterValue Uuid) := none
  dagId : Option (FilterValue Uuid) := none
  state : Option (FilterValue DagRunState) := none
  limit : Option ℕ := none
  shard : Option ShardingOptions := none

namespace TaskRunFilter

variable (w : TaskRunFilter)

/-- What the filters say of a row, the shard apart. -/
def agrees (r : TaskRunRow) : Bool :=
  acceptsOpt w.runId r.runId && acceptsOpt w.taskId r.taskId && acceptsOpt w.dagId r.dagId &&
    acceptsOpt w.dagrunId r.dagrunId && acceptsOpt w.state r.state &&
    acceptsOpt w.operationId r.operationId

/-- The filters of `make_formatted_select`. -/
def params (R : Rendering) : Params :=
  [(Columns.runId, w.runId.map (·.text R.uuid)),
    (Columns.taskId, w.taskId.map (·.text String.toList)),
    (Columns.dagId, w.dagId.map (·.text R.uuid)),
    (Columns.dagrunId, w.dagrunId.map (·.text R.uuid)),
    (Columns.state, w.state.map (·.text taskRunState)),
    (Columns.operationId, w.operationId.map (·.text fun o => (o.map R.operationId).getD "None".toList))
  ].filterMap fun filter => filter.2.map fun value => (filter.1, value)

/-- How the engine reads the filters. -/
def read (engine : Engine) : Option (TaskRunRow → Bool) :=
  match w.taskId with
  | none => some w.agrees
  | some _ => (engine.readWhere (clauseOf (w.params engine.rendering))).map fun test r =>
      test (engine.rendering.taskRun r)

def accepts (engine : Engine) (r : TaskRunRow) : Bool :=
  (w.read engine).any (· r) && w.shard.all (·.selects engine.farmHash r.runId)

variable {w} in
theorem accepts_of_taskId_none (h : w.taskId = none) (engine : Engine) (r : TaskRunRow) :
    w.accepts engine r = (w.agrees r && w.shard.all (·.selects engine.farmHash r.runId)) := by
  rw [accepts, read, h]
  rfl

end TaskRunFilter

def DagRunFilter.accepts (w : DagRunFilter) (engine : Engine) (r : DagRunRow) : Bool :=
  acceptsOpt w.runId r.runId && acceptsOpt w.dagId r.dagId && acceptsOpt w.state r.state &&
    w.shard.all (·.selects engine.farmHash r.runId)

/-- `limit n`; `limit 0` and no limit leave the rows alone. -/
def limited {α : Type} (limit : Option ℕ) (rows : List α) : List α :=
  match limit with
  | none | some 0 => rows
  | some n => rows.take n

theorem mem_of_limited {α : Type} {limit : Option ℕ} {rows : List α} {r : α}
    (h : r ∈ limited limit rows) : r ∈ rows := by
  unfold limited at h
  split at h
  · exact h
  · exact h
  · exact List.mem_of_mem_take h

/-- `make_formatted_select` for TaskRuns. -/
def TaskRunFilter.select (w : TaskRunFilter) (engine : Engine) (db : Db) : List TaskRunRow :=
  limited w.limit (db.taskRuns.filter (w.accepts engine))

/-- `make_formatted_select` for DagRuns. -/
def DagRunFilter.select (w : DagRunFilter) (engine : Engine) (db : Db) : List DagRunRow :=
  limited w.limit (db.dagRuns.filter (w.accepts engine))

/-- `get_orphaned_task_runs`: the QUEUED and RUNNING TaskRuns of FAILED DagRuns. -/
def orphanedTaskRuns (shard : ShardingOptions) (engine : Engine) (db : Db) : List TaskRunRow :=
  db.taskRuns.filter fun r =>
    r.state ∈ [.queued, .running] && (db.dagRun r.dagrunId).any (·.state = .failed) &&
      shard.selects engine.farmHash r.runId

/-- The meta that `from_dict` rebuilds from a joined row: the columns `dag_id` and
`created_at` were already selected from the DagRef. -/
def joinedMeta (ref : DagRefRow) (row : DagMetaRow) : DagMetaRow :=
  ⟨row.id, ref.dagId, ref.createdAt, row.runId⟩

/-- `dags_needing_dagruns`. The left join keeps a DagRef without metas, once, with null
meta columns. -/
def dagsNeedingDagruns (shard : ShardingOptions) (engine : Engine) (db : Db) :
    List (DagRefRow × Option DagMetaRow) :=
  (db.dagRefs.filter fun ref => shard.selects engine.farmHash ref.dagId).flatMap fun ref =>
    match db.dagMetas.filter fun row => row.dagId = ref.dagId with
    | [] => [(ref, none)]
    | metas => (metas.filter fun row => row.runId = none).map fun row => (ref, some (joinedMeta ref row))

/-- `dags_needing_dagruns_of_metas`; the text `None` of a missing id matches no row. -/
def dagsNeedingDagrunsOfMetas (metas : List (Option Uuid)) (db : Db) :
    List (DagRefRow × DagMetaRow) :=
  db.dagRefs.flatMap fun ref =>
    (db.dagMetas.filter fun row =>
      row.dagId = ref.dagId && some row.id ∈ metas && row.runId = none).map fun row =>
        (ref, joinedMeta ref row)

/-- `DagRef.get`: at most one row. -/
def dagRefsOf (dagId : Uuid) (db : Db) : List DagRefRow :=
  (db.dagRefs.filter fun ref => ref.dagId = dagId).take 1

/-- `DagRef.get` by payload hash. -/
def dagRefsOfPayload (payloadHash : String) (db : Db) : List DagRefRow :=
  (db.dagRefs.filter fun ref => ref.payloadHash = payloadHash).take 1

inductive Query
  | taskRuns (w : TaskRunFilter)
  | dagRuns (w : DagRunFilter)
  | orphanedTaskRuns (shard : ShardingOptions)
  | dagRefs (dagId : Uuid)
  | dagRefsOfPayload (payloadHash : String)
  | dagsNeedingDagruns (shard : ShardingOptions)
  | dagsNeedingDagrunsOfMetas (metas : List (Option Uuid))

namespace Query

@[reducible] def Out : Query → Type
  | .taskRuns _ => List TaskRunRow
  | .dagRuns _ => List DagRunRow
  | .orphanedTaskRuns _ => List TaskRunRow
  | .dagRefs _ => List DagRefRow
  | .dagRefsOfPayload _ => List DagRefRow
  | .dagsNeedingDagruns _ => List (DagRefRow × Option DagMetaRow)
  | .dagsNeedingDagrunsOfMetas _ => List (DagRefRow × DagMetaRow)

def eval (engine : Engine) (db : Db) : (q : Query) → q.Out
  | .taskRuns w => w.select engine db
  | .dagRuns w => w.select engine db
  | .orphanedTaskRuns shard => YtScheduler.orphanedTaskRuns shard engine db
  | .dagRefs dagId => dagRefsOf dagId db
  | .dagRefsOfPayload payloadHash => YtScheduler.dagRefsOfPayload payloadHash db
  | .dagsNeedingDagruns shard => YtScheduler.dagsNeedingDagruns shard engine db
  | .dagsNeedingDagrunsOfMetas metas => YtScheduler.dagsNeedingDagrunsOfMetas metas db

/-- The moduli a query puts into its text. -/
def shard? : Query → Option ShardingOptions
  | .taskRuns w => w.shard
  | .dagRuns w => w.shard
  | .orphanedTaskRuns shard => some shard
  | .dagRefs _ => none
  | .dagRefsOfPayload _ => none
  | .dagsNeedingDagruns shard => some shard
  | .dagsNeedingDagrunsOfMetas _ => none

/-- The query divides by zero, which the query engine reports as an error. -/
def dividesByZero (q : Query) : Bool :=
  q.shard?.any fun shard => shard.numShards = 0 || shard.numVirtualShards = 0

/-- The engine can read the text of the query. -/
def isReadable (engine : Engine) : Query → Bool
  | .taskRuns w => (w.read engine).isSome
  | _ => true

/-- The query engine reports an error. -/
def fails (engine : Engine) (q : Query) : Bool := q.dividesByZero || !q.isReadable engine

theorem fails_taskRuns {w : TaskRunFilter} {engine : Engine} (hshard : w.shard = none)
    (hread : (w.read engine).isSome = true) : (Query.taskRuns w).fails engine = false := by
  simp [fails, dividesByZero, shard?, hshard, isReadable, hread]

theorem fails_of_unreadable {w : TaskRunFilter} {engine : Engine} (hread : w.read engine = none) :
    (Query.taskRuns w).fails engine = true := by
  simp [fails, isReadable, hread]

theorem readable_of_fails_eq_false {w : TaskRunFilter} {engine : Engine}
    (h : (Query.taskRuns w).fails engine = false) : (w.read engine).isSome = true := by
  simp only [fails, isReadable, Bool.or_eq_false_iff, Bool.not_eq_false'] at h
  exact h.2

end Query

theorem mem_select_taskRuns {w : TaskRunFilter} {engine : Engine} {db : Db} {r : TaskRunRow}
    (h : r ∈ w.select engine db) : db.taskRun r.runId = some r ∧ w.accepts engine r = true := by
  have h := List.mem_filter.mp (mem_of_limited h)
  exact ⟨Db.mem_taskRuns.mp h.1, h.2⟩

theorem mem_select_dagRuns {w : DagRunFilter} {engine : Engine} {db : Db} {r : DagRunRow}
    (h : r ∈ w.select engine db) : db.dagRun r.runId = some r ∧ w.accepts engine r = true := by
  have h := List.mem_filter.mp (mem_of_limited h)
  exact ⟨Db.mem_dagRuns.mp h.1, h.2⟩

theorem mem_orphanedTaskRuns {shard : ShardingOptions} {engine : Engine} {db : Db}
    {r : TaskRunRow} :
    r ∈ orphanedTaskRuns shard engine db ↔ db.taskRun r.runId = some r ∧
      (r.state = .queued ∨ r.state = .running) ∧
      (∃ run, db.dagRun r.dagrunId = some run ∧ run.state = .failed) ∧
      shard.selects engine.farmHash r.runId = true := by
  simp [orphanedTaskRuns, Db.mem_taskRuns, Option.any_eq_true, and_assoc]

theorem mem_dagsNeedingDagrunsOfMetas {metas : List (Option Uuid)} {db : Db} {ref : DagRefRow}
    {row : DagMetaRow} :
    (ref, row) ∈ dagsNeedingDagrunsOfMetas metas db ↔ ref ∈ db.dagRefs ∧
      ∃ row', db.dagMeta row'.id = some row' ∧ row'.dagId = ref.dagId ∧ some row'.id ∈ metas ∧
        row'.runId = none ∧ row = joinedMeta ref row' := by
  simp only [dagsNeedingDagrunsOfMetas, List.mem_flatMap, List.mem_map, List.mem_filter,
    Db.mem_dagMetas, Bool.and_eq_true, decide_eq_true_eq, Prod.mk.injEq]
  constructor
  · rintro ⟨ref', href, row', ⟨hrow, ⟨hd, hm⟩, hr⟩, rfl, rfl⟩
    exact ⟨href, row', hrow, hd, hm, hr, rfl⟩
  · rintro ⟨href, row', hrow, hd, hm, hr, rfl⟩
    exact ⟨ref, href, row', ⟨hrow, ⟨hd, hm⟩, hr⟩, rfl, rfl⟩

/-- Every meta is selected once. -/
theorem nodup_dagsNeedingDagrunsOfMetas (metas : List (Option Uuid)) (db : Db) :
    ((dagsNeedingDagrunsOfMetas metas db).map (·.2.id)).Nodup := by
  have hids : ∀ (ref : DagRefRow) (rows : List DagMetaRow),
      (rows.map fun row => (ref, joinedMeta ref row)).map (·.2.id) = rows.map RowKind.id := by
    intro ref rows
    simp [joinedMeta]
  simp only [dagsNeedingDagrunsOfMetas, List.map_flatMap, hids]
  refine List.nodup_flatMap.mpr ⟨fun ref _ => ?_, ?_⟩
  · exact (List.filter_sublist.map _).nodup (Db.nodup_all db)
  · refine (List.Nodup.of_map RowKind.id (Db.nodup_all (α := DagRefRow) db)).imp_of_mem ?_
    intro ref ref' href href' hne id hid hid'
    obtain ⟨row, hrow, rfl⟩ := List.mem_map.mp hid
    obtain ⟨row', hrow', hrid⟩ := List.mem_map.mp hid'
    simp only [List.mem_filter, Bool.and_eq_true, decide_eq_true_eq] at hrow hrow'
    have hmeta := Db.mem_all.mp hrow.1
    have hmeta' := Db.mem_all.mp hrow'.1
    rw [hrid, hmeta] at hmeta'
    obtain rfl := Option.some.inj hmeta'
    have hdag : RowKind.id ref = RowKind.id ref' := hrow.2.1.1.symm.trans hrow'.2.1.1
    exact hne (List.inj_on_of_nodup_map (Db.nodup_all db) href href' hdag)

end YtScheduler
