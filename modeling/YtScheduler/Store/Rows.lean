import YtScheduler.Store.State
import YtScheduler.Tablet.Log

/-! The rows of the dynamic tables. All tables form one keyed table, whose keys
name the table and the row, so that a transaction over several tables is one
commit. `taskRuns`, `dagRuns`, `dagMetas` and `dagRefs` read one table back. -/

namespace YtScheduler

open Tablet

structure TaskRunRow where
  runId : Uuid
  taskId : String
  dagId : Uuid
  dagrunId : Uuid
  state : TaskRunState
  operationId : Option OperationId := none
  scheduledAt : Option Iso := none
  queuedAt : Option Iso := none
  startDate : Option Iso := none
  endDate : Option Iso := none
  deriving DecidableEq

structure DagRunRow where
  runId : Uuid
  dagId : Uuid
  state : DagRunState
  scheduledAt : Option Iso := none
  queuedAt : Option Iso := none
  startDate : Option Iso := none
  endDate : Option Iso := none
  deriving DecidableEq

/-- The `run_id` of a DagMeta: the DagRun created for it, or the text
`ERR:PARSING_FAILED:` with the time it was written. -/
inductive MetaRunId
  | run (runId : Uuid)
  | parsingFailed (time : Iso)
  deriving DecidableEq

structure DagMetaRow where
  id : Uuid
  dagId : Uuid
  createdAt : Iso
  runId : Option MetaRunId := none
  deriving DecidableEq

structure DagRefRow where
  dagId : Uuid
  serializedRepr : String
  payloadHash : String
  createdAt : Iso
  deriving DecidableEq

structure TaskRefRow where
  dagId : Uuid
  taskId : String
  serializedRepr : String
  payloadHash : String
  createdAt : Iso
  deriving DecidableEq

instance : Inhabited TaskRunRow := ⟨⟨0, "", 0, 0, .scheduled, none, none, none, none, none⟩⟩

instance : Inhabited DagRunRow := ⟨⟨0, 0, .scheduled, none, none, none, none⟩⟩

inductive Row
  | taskRun (r : TaskRunRow)
  | dagRun (r : DagRunRow)
  | dagMeta (r : DagMetaRow)
  | dagRef (r : DagRefRow)
  | taskRef (r : TaskRefRow)
  deriving DecidableEq

inductive RowKey
  | taskRun (runId : Uuid)
  | dagRun (runId : Uuid)
  | dagMeta (id : Uuid)
  | dagRef (dagId : Uuid)
  | taskRef (dagId : Uuid) (taskId : String)
  deriving DecidableEq

instance : Keyed Row RowKey where
  key
    | .taskRun r => .taskRun r.runId
    | .dagRun r => .dagRun r.runId
    | .dagMeta r => .dagMeta r.id
    | .dagRef r => .dagRef r.dagId
    | .taskRef r => .taskRef r.dagId r.taskId

@[simp] theorem key_taskRun (r : TaskRunRow) : Keyed.key (Row.taskRun r) = .taskRun r.runId := rfl

@[simp] theorem key_dagRun (r : DagRunRow) : Keyed.key (Row.dagRun r) = .dagRun r.runId := rfl

@[simp] theorem key_dagMeta (r : DagMetaRow) : Keyed.key (Row.dagMeta r) = .dagMeta r.id := rfl

@[simp] theorem key_dagRef (r : DagRefRow) : Keyed.key (Row.dagRef r) = .dagRef r.dagId := rfl

/-- One table of the store: the rows of type `α`, keyed by one id. -/
class RowKind (α : Type) where
  toRow : α → Row
  proj : Row → Option α
  id : α → Uuid
  rowKey : Uuid → RowKey
  proj_eq_some : ∀ {row a}, proj row = some a ↔ row = toRow a
  key_mk : ∀ a, Keyed.key (toRow a) = rowKey (id a)
  rowKey_inj : ∀ {i j}, rowKey i = rowKey j → i = j
  exists_of_key : ∀ {row i}, Keyed.key row = rowKey i → ∃ a, row = toRow a

instance : RowKind TaskRunRow where
  toRow := .taskRun
  proj | .taskRun r => some r | _ => none
  id := TaskRunRow.runId
  rowKey := .taskRun
  proj_eq_some {row a} := by cases row <;> simp
  key_mk _ := rfl
  rowKey_inj h := by simpa using h
  exists_of_key {row i} h := by cases row <;> simp_all

instance : RowKind DagRunRow where
  toRow := .dagRun
  proj | .dagRun r => some r | _ => none
  id := DagRunRow.runId
  rowKey := .dagRun
  proj_eq_some {row a} := by cases row <;> simp
  key_mk _ := rfl
  rowKey_inj h := by simpa using h
  exists_of_key {row i} h := by cases row <;> simp_all

instance : RowKind DagMetaRow where
  toRow := .dagMeta
  proj | .dagMeta r => some r | _ => none
  id := DagMetaRow.id
  rowKey := .dagMeta
  proj_eq_some {row a} := by cases row <;> simp
  key_mk _ := rfl
  rowKey_inj h := by simpa using h
  exists_of_key {row i} h := by cases row <;> simp_all

instance : RowKind DagRefRow where
  toRow := .dagRef
  proj | .dagRef r => some r | _ => none
  id := DagRefRow.dagId
  rowKey := .dagRef
  proj_eq_some {row a} := by cases row <;> simp
  key_mk _ := rfl
  rowKey_inj h := by simpa using h
  exists_of_key {row i} h := by cases row <;> simp_all

@[simp] theorem toRow_taskRun (r : TaskRunRow) : RowKind.toRow r = Row.taskRun r := rfl

@[simp] theorem toRow_dagRun (r : DagRunRow) : RowKind.toRow r = Row.dagRun r := rfl

@[simp] theorem toRow_dagMeta (r : DagMetaRow) : RowKind.toRow r = Row.dagMeta r := rfl

@[simp] theorem toRow_dagRef (r : DagRefRow) : RowKind.toRow r = Row.dagRef r := rfl

@[simp] theorem id_taskRun (r : TaskRunRow) : RowKind.id r = r.runId := rfl

@[simp] theorem id_dagRun (r : DagRunRow) : RowKind.id r = r.runId := rfl

@[simp] theorem id_dagMeta (r : DagMetaRow) : RowKind.id r = r.id := rfl

/-- The contents of all tables. -/
abbrev Db := Table Row

namespace Db

variable {α : Type} [RowKind α] {db : Db}

/-- The rows of one table. -/
def all (α : Type) [RowKind α] (db : Db) : List α := db.rows.filterMap RowKind.proj

/-- The row of one table with an id. -/
def get (α : Type) [RowKind α] (db : Db) (id : Uuid) : Option α :=
  (db.find (RowKind.rowKey α id)).bind RowKind.proj

abbrev taskRuns (db : Db) : List TaskRunRow := db.all TaskRunRow

abbrev dagRuns (db : Db) : List DagRunRow := db.all DagRunRow

abbrev dagMetas (db : Db) : List DagMetaRow := db.all DagMetaRow

abbrev dagRefs (db : Db) : List DagRefRow := db.all DagRefRow

abbrev taskRun (db : Db) (runId : Uuid) : Option TaskRunRow := db.get TaskRunRow runId

abbrev dagRun (db : Db) (runId : Uuid) : Option DagRunRow := db.get DagRunRow runId

abbrev dagMeta (db : Db) (id : Uuid) : Option DagMetaRow := db.get DagMetaRow id

abbrev dagRef (db : Db) (dagId : Uuid) : Option DagRefRow := db.get DagRefRow dagId

theorem get_eq_some {id : Uuid} {a : α} :
    db.get α id = some a ↔ db.find (RowKind.rowKey α id) = some (RowKind.toRow a) := by
  simp [get, Option.bind_eq_some_iff, RowKind.proj_eq_some]

theorem id_of_get {id : Uuid} {a : α} (h : db.get α id = some a) : RowKind.id a = id := by
  have hk := Table.key_of_find (get_eq_some.mp h)
  rw [RowKind.key_mk] at hk
  exact RowKind.rowKey_inj hk

theorem mem_all {a : α} : a ∈ db.all α ↔ db.get α (RowKind.id a) = some a := by
  rw [get_eq_some, all, List.mem_filterMap, ← RowKind.key_mk, ← Table.mem_rows]
  simp [RowKind.proj_eq_some]

theorem runId_of_taskRun {id : Uuid} {r : TaskRunRow} (h : db.taskRun id = some r) :
    r.runId = id := id_of_get h

theorem runId_of_dagRun {id : Uuid} {r : DagRunRow} (h : db.dagRun id = some r) :
    r.runId = id := id_of_get h

theorem mem_taskRuns {r : TaskRunRow} : r ∈ db.taskRuns ↔ db.taskRun r.runId = some r := mem_all

theorem mem_dagRuns {r : DagRunRow} : r ∈ db.dagRuns ↔ db.dagRun r.runId = some r := mem_all

theorem mem_dagMetas {r : DagMetaRow} : r ∈ db.dagMetas ↔ db.dagMeta r.id = some r := mem_all

/-- No two rows of one table have the same id. -/
theorem nodup_all (db : Db) : ((db.all α).map RowKind.id).Nodup := by
  have hrows : (db.all α).Nodup := by
    refine (List.Nodup.of_map _ db.nodup).filterMap fun row row' a ha ha' => ?_
    rw [RowKind.proj_eq_some.mp ha, RowKind.proj_eq_some.mp ha']
  refine hrows.map_on fun a ha b hb hid => ?_
  have hb := mem_all.mp hb
  rw [← hid] at hb
  exact Option.some.inj ((mem_all.mp ha).symm.trans hb)

/-- After a batch, a row of a table is one of the batch or an old row left alone. -/
theorem get_upsertAll_cases {rows : List Row} {id : Uuid} {a : α}
    (h : Db.get α (db.upsertAll rows) id = some a) :
    (RowKind.toRow a ∈ rows ∧ RowKind.id a = id) ∨
      ((∀ b : α, RowKind.toRow b ∈ rows → RowKind.id b ≠ id) ∧ db.get α id = some a) := by
  rcases Table.find_upsertAll_cases (get_eq_some.mp h) with ⟨hm, _⟩ | ⟨hn, hf⟩
  · exact Or.inl ⟨hm, id_of_get h⟩
  · refine Or.inr ⟨fun b hb hid => hn _ hb ?_, get_eq_some.mpr hf⟩
    rw [RowKind.key_mk, hid]

theorem get_upsertAll_of_not_written {rows : List Row} {id : Uuid}
    (h : ∀ b : α, RowKind.toRow b ∈ rows → RowKind.id b ≠ id) :
    Db.get α (db.upsertAll rows) id = db.get α id := by
  rw [get, get, Table.find_upsertAll_of_not_written]
  intro r hr hk
  obtain ⟨b, rfl⟩ := RowKind.exists_of_key hk
  rw [RowKind.key_mk] at hk
  exact h b hr (RowKind.rowKey_inj hk)

variable (db) in
/-- A row the batch wrote is found as the batch wrote it last. -/
theorem get_upsertAll_of_written {rows : List Row} {id : Uuid}
    (h : ∃ b : α, RowKind.toRow b ∈ rows ∧ RowKind.id b = id) :
    ∃ a : α, RowKind.toRow a ∈ rows ∧ RowKind.id a = id ∧
      Db.get α (db.upsertAll rows) id = some a := by
  obtain ⟨b, hb, rfl⟩ := h
  obtain ⟨r, hr, hk, hf⟩ := Table.find_upsertAll_of_written ⟨_, hb, RowKind.key_mk b⟩ db
  obtain ⟨a, rfl⟩ := RowKind.exists_of_key hk
  rw [RowKind.key_mk] at hk
  exact ⟨a, hr, RowKind.rowKey_inj hk, get_eq_some.mpr hf⟩

/-! ### How a table grows -/

theorem all_upsert_of_other {row : Row} (h : (RowKind.proj row : Option α) = none) :
    Db.all α (db.upsert row) = db.all α := by
  refine Table.filterMap_put _ h fun r _ hk => ?_
  refine Option.eq_none_iff_forall_ne_some.mpr fun a ha => ?_
  rw [RowKind.proj_eq_some.mp ha, RowKind.key_mk] at hk
  obtain ⟨b, rfl⟩ := RowKind.exists_of_key hk.symm
  rw [RowKind.proj_eq_some.mpr rfl] at h
  cases h

theorem all_upsert_of_new {a : α} (h : db.get α (RowKind.id a) = none) :
    Db.all α (db.upsert (RowKind.toRow a)) = db.all α ++ [a] := by
  have hnew : ∀ r ∈ db.rows, Keyed.key r ≠ Keyed.key (RowKind.toRow a) := by
    intro r hr hk
    rw [RowKind.key_mk] at hk
    obtain ⟨b, rfl⟩ := RowKind.exists_of_key hk
    have hb := mem_all.mp (List.mem_filterMap.mpr ⟨_, hr, RowKind.proj_eq_some.mpr rfl⟩)
    rw [RowKind.key_mk] at hk
    rw [RowKind.rowKey_inj hk, h] at hb
    cases hb
  show (Table.put (RowKind.toRow a) db.rows).filterMap RowKind.proj = db.all α ++ [a]
  rw [Table.put_of_not_mem hnew, List.filterMap_append,
    List.filterMap_cons_some (RowKind.proj_eq_some.mpr rfl), List.filterMap_nil]
  rfl

theorem get_upsert {row : Row} {id : Uuid} (h : ∀ b : α, row = RowKind.toRow b → RowKind.id b ≠ id) :
    Db.get α (db.upsert row) id = db.get α id := by
  show Db.get α (db.upsertAll [row]) id = db.get α id
  exact get_upsertAll_of_not_written (by simpa [eq_comm] using h)

theorem get_upsert_self (db : Db) (a : α) :
    Db.get α (db.upsert (RowKind.toRow a)) (RowKind.id a) = some a := by
  rw [get_eq_some, Table.find_upsert, if_pos (RowKind.key_mk a)]

/-- Rows of other tables leave the table alone. -/
theorem all_upsertAll_of_other {rows : List Row}
    (h : ∀ row ∈ rows, (RowKind.proj row : Option α) = none) :
    Db.all α (db.upsertAll rows) = db.all α := by
  induction rows generalizing db with
  | nil => rfl
  | cons row rows ih =>
    rw [List.forall_mem_cons] at h
    rw [Table.upsertAll_cons, ih h.2, all_upsert_of_other h.1]

/-- New rows with distinct ids are appended to the table. -/
theorem all_upsertAll_of_new {rows : List α} (hid : (rows.map RowKind.id).Nodup)
    (h : ∀ a ∈ rows, db.get α (RowKind.id a) = none) :
    Db.all α (db.upsertAll (rows.map RowKind.toRow)) = db.all α ++ rows := by
  induction rows generalizing db with
  | nil => simp
  | cons a rows ih =>
    rw [List.forall_mem_cons] at h
    rw [List.map_cons, List.nodup_cons] at hid
    rw [List.map_cons, Table.upsertAll_cons, ih hid.2 fun b hb => ?_, all_upsert_of_new h.1,
      List.append_assoc, List.singleton_append]
    rw [get_upsert fun c hc => ?_, h.2 b hb]
    obtain rfl : a = c := by
      have := RowKind.proj_eq_some.mpr hc
      rwa [RowKind.proj_eq_some.mpr rfl, Option.some.injEq] at this
    intro he
    exact hid.1 (he ▸ List.mem_map_of_mem hb)

/-! ### Statements about all rows can be decided -/

theorem forall_get {P : Uuid → α → Prop} :
    (∀ id a, db.get α id = some a → P id a) ↔ ∀ a ∈ db.all α, P (RowKind.id a) a := by
  constructor
  · exact fun h a ha => h _ a (mem_all.mp ha)
  · intro h id a ha
    obtain rfl := id_of_get ha
    exact h a (mem_all.mpr ha)

theorem exists_get {P : Uuid → α → Prop} :
    (∃ id a, db.get α id = some a ∧ P id a) ↔ ∃ a ∈ db.all α, P (RowKind.id a) a := by
  constructor
  · rintro ⟨id, a, ha, hp⟩
    obtain rfl := id_of_get ha
    exact ⟨a, mem_all.mpr ha, hp⟩
  · rintro ⟨a, ha, hp⟩
    exact ⟨_, a, mem_all.mp ha, hp⟩

instance {P : Uuid → α → Prop} [∀ id a, Decidable (P id a)] :
    Decidable (∀ id a, db.get α id = some a → P id a) := decidable_of_iff _ forall_get.symm

instance {P : Uuid → α → Prop} [∀ id a, Decidable (P id a)] :
    Decidable (∃ id a, db.get α id = some a ∧ P id a) := decidable_of_iff _ exists_get.symm

end Db

section Snapshot

variable {α : Type} [RowKind α] {store : Store Row} {ts : ℕ} {rows : List Row} {a b : α}

/-- A row that is written still stands in the tables as the transaction read it. -/
theorem get_asOf_eq_of_not_conflict (h : ¬store.Conflict ts rows) (ha : RowKind.toRow a ∈ rows) :
    Db.get α (store.asOf ts) (RowKind.id a) = Db.get α store.current (RowKind.id a) := by
  rw [Db.get, Db.get, ← RowKind.key_mk, Store.find_asOf_of_not_conflict h ha]

theorem get_asOf_of_not_conflict (h : ¬store.Conflict ts rows) (ha : RowKind.toRow a ∈ rows)
    (hb : Db.get α (store.asOf ts) (RowKind.id a) = some b) :
    Db.get α store.current (RowKind.id a) = some b := (get_asOf_eq_of_not_conflict h ha).symm.trans hb

/-- A row of a snapshot is an initial row or one that some commit wrote. -/
theorem get_asOf_cases {id : Uuid} (h : Db.get α (store.asOf ts) id = some a) :
    Db.get α store.init id = some a ∨ ∃ c ∈ store.log, RowKind.toRow a ∈ c.rows := by
  suffices ∀ cs : List (Commit Row), Db.get α (Store.replay store.init cs) id = some a →
      Db.get α store.init id = some a ∨ ∃ c ∈ cs, RowKind.toRow a ∈ c.rows from
    (this _ h).imp_right fun ⟨c, hc, ha⟩ => ⟨c, List.mem_of_mem_drop hc, ha⟩
  intro cs
  induction cs with
  | nil => exact Or.inl
  | cons c cs ih =>
    intro h
    rcases Db.get_upsertAll_cases h with ⟨ha, _⟩ | ⟨_, h⟩
    · exact Or.inr ⟨c, List.mem_cons_self, ha⟩
    · exact (ih h).imp_right fun ⟨c', hc', ha⟩ => ⟨c', List.mem_cons_of_mem _ hc', ha⟩

theorem not_conflict_now (rows : List Row) : ¬store.Conflict store.now rows :=
  fun ⟨_, _, ht⟩ => Store.not_touched_now _ _ ht

end Snapshot

section Lookup

variable {β : Type} {o : Option β} {P : β → Prop} [DecidablePred P]

/-- What is said of a row that was looked up. -/
instance decidableForallSome : Decidable (∀ b, o = some b → P b) :=
  match o with
  | none => .isTrue (by simp)
  | some b => decidable_of_iff (P b) (by simp)

instance decidableExistsSome : Decidable (∃ b, o = some b ∧ P b) :=
  match o with
  | none => .isFalse (by simp)
  | some b => decidable_of_iff (P b) (by simp)

end Lookup

section Batch

variable {rows : List Row}

theorem mem_filterMap_proj {α : Type} [RowKind α] {a : α} :
    a ∈ rows.filterMap RowKind.proj ↔ RowKind.toRow a ∈ rows := by
  simp [List.mem_filterMap, RowKind.proj_eq_some]

instance {P : TaskRunRow → Prop} [DecidablePred P] :
    Decidable (∀ t, Row.taskRun t ∈ rows → P t) :=
  decidable_of_iff (∀ t ∈ rows.filterMap (RowKind.proj : Row → Option TaskRunRow), P t)
    (by simp only [mem_filterMap_proj, toRow_taskRun])

instance {P : DagRunRow → Prop} [DecidablePred P] :
    Decidable (∀ run, Row.dagRun run ∈ rows → P run) :=
  decidable_of_iff (∀ run ∈ rows.filterMap (RowKind.proj : Row → Option DagRunRow), P run)
    (by simp only [mem_filterMap_proj, toRow_dagRun])

instance {P : DagMetaRow → Prop} [DecidablePred P] :
    Decidable (∀ row, Row.dagMeta row ∈ rows → P row) :=
  decidable_of_iff (∀ row ∈ rows.filterMap (RowKind.proj : Row → Option DagMetaRow), P row)
    (by simp only [mem_filterMap_proj, toRow_dagMeta])

instance {P : DagRefRow → Prop} [DecidablePred P] :
    Decidable (∀ ref, Row.dagRef ref ∈ rows → P ref) :=
  decidable_of_iff (∀ ref ∈ rows.filterMap (RowKind.proj : Row → Option DagRefRow), P ref)
    (by simp only [mem_filterMap_proj, toRow_dagRef])

end Batch

end YtScheduler
