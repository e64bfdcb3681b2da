import YtScheduler.Store.Query
import YtScheduler.Laws.Lookups

/-! Lookups in the store. The statements that `get` sends are read as text; by the key they
find the row that the queries of the tables find, and by a payload one of several. -/

namespace YtScheduler.Lookups

open Filters Quoting

variable {R : Rendering} {db : Db} {x : Escaping} {selectRows : SelectRows}

/-! ### Keys -/

theorem nodup_map_of_id {α β : Type} [RowKind α] (db : Db) {key : α → β}
    (h : ∀ a b, key a = key b → RowKind.id a = RowKind.id b) : ((db.all α).map key).Nodup := by
  have hrows : (db.all α).Nodup := List.Nodup.of_map _ (Db.nodup_all db)
  refine hrows.map_on fun a ha b hb hkey => ?_
  exact List.inj_on_of_nodup_map (Db.nodup_all db) ha hb (h a b hkey)

theorem mem_taskRefs {row : TaskRefRow} (h : row ∈ db.rows.filterMap taskRef?) :
    .taskRef row ∈ db.rows := by
  obtain ⟨row', hrow', he⟩ := List.mem_filterMap.mp h
  cases row' with
  | taskRef row' =>
    cases he
    exact hrow'
  | _ => cases he

theorem nodup_taskRefs (R : Rendering) (db : Db) : ((db.rows.filterMap taskRef?).map fun row =>
    [some (R.uuid row.dagId), some row.taskId.toList]).Nodup := by
  have hrows : (db.rows.filterMap taskRef?).Nodup := by
    refine (List.Nodup.of_map _ db.nodup).filterMap fun row row' ref href href' => ?_
    cases row with
    | taskRef row =>
      cases row' with
      | taskRef row' =>
        cases href
        cases href'
        rfl
      | _ => cases href'
    | _ => cases href
  refine hrows.map_on fun a ha b hb hkey => ?_
  simp only [List.cons.injEq, Option.some.injEq, String.toList_inj, and_true] at hkey
  have hsame : Tablet.Keyed.key (Row.taskRef a) = Tablet.Keyed.key (Row.taskRef b) := by
    show RowKey.taskRef a.dagId a.taskId = RowKey.taskRef b.dagId b.taskId
    rw [R.uuid_injective hkey.1, hkey.2]
  cases List.inj_on_of_nodup_map db.nodup (mem_taskRefs ha) (mem_taskRefs hb) hsame
  rfl

theorem uniqueKeys_tables (R : Rendering) (db : Db) : UniqueKeys (R.tables db) := by
  have hid : ∀ {i j : Uuid}, [some (R.uuid i)] = [some (R.uuid j)] → i = j := by
    intro i j h
    exact R.uuid_injective (by simpa using h)
  intro cls
  cases cls with
  | dagMeta =>
    show ((db.dagMetas.map R.dagMeta).map fun row => [row Columns.id.name]).Nodup
    rw [List.map_map]
    exact nodup_map_of_id db fun a b h => hid h
  | taskRef =>
    show (((db.rows.filterMap taskRef?).map R.taskRef).map fun row =>
      [row Columns.dagId.name, row Columns.taskId.name]).Nodup
    rw [List.map_map]
    exact nodup_taskRefs R db
  | dagRef =>
    show ((db.dagRefs.map R.dagRef).map fun row => [row Columns.dagId.name]).Nodup
    rw [List.map_map]
    exact nodup_map_of_id db fun a b h => hid h
  | dagRun =>
    show ((db.dagRuns.map R.dagRun).map fun row => [row Columns.runId.name]).Nodup
    rw [List.map_map]
    exact nodup_map_of_id db fun a b h => hid h
  | taskRun =>
    show ((db.taskRuns.map R.taskRun).map fun row => [row Columns.runId.name]).Nodup
    rw [List.map_map]
    exact nodup_map_of_id db fun a b h => hid h

/-! ### DagRefs and DagRuns -/

theorem accepts_dagRef (ref : DagRefRow) (dagId : Uuid) :
    (Lookup.dagRef (some (.str (R.uuid dagId))) none).accepts (R.dagRef ref) =
      decide (ref.dagId = dagId) := by
  have hcell : R.dagRef ref Columns.dagId.name = some (R.uuid ref.dagId) := rfl
  simp [Lookup.accepts, Lookup.filter, FilterValue.values, hcell, R.uuid_injective.eq_iff]

theorem accepts_payload (ref : DagRefRow) (payloadHash : String) :
    (Lookup.dagRef none (some (.str payloadHash.toList))).accepts (R.dagRef ref) =
      decide (ref.payloadHash = payloadHash) := by
  have hcell : R.dagRef ref Columns.payloadHash.name = some ref.payloadHash.toList := rfl
  simp [Lookup.accepts, Lookup.filter, FilterValue.values, hcell, String.toList_inj]

theorem accepts_dagRun (run : DagRunRow) (runId : Uuid) :
    (Lookup.dagRun (some (.str (R.uuid runId))) none).accepts (R.dagRun run) =
      decide (run.runId = runId) := by
  have hcell : R.dagRun run Columns.runId.name = some (R.uuid run.runId) := rfl
  simp [Lookup.accepts, Lookup.filter, FilterValue.values, hcell, R.uuid_injective.eq_iff]

/-- The rows of a table that match are the rendered rows of which the filter holds. -/
theorem filter_rendered {α : Type} {rows : List α} {render : α → Quoting.Row} {l : Lookup} {p : α → Bool}
    (h : ∀ a, l.accepts (render a) = p a) :
    (rows.map render).filter l.accepts = (rows.filter p).map render := by
  rw [List.filter_map]
  congr 2
  funext a
  exact h a

/-- A lookup by key of what some rows are rendered to finds the first of them. -/
theorem get_of_matching {α : Type} {rows : List α} {render : α → Quoting.Row} {l : Lookup}
    (hreads : Reads x (R.tables db) selectRows) (hplain : l.Plain) (hkey : l.GivesKey)
    (hmatching : l.matching (R.tables db) = rows.map render) :
    l.get selectRows = .ok (foundOf (rows.head?.map render)) := by
  have hget := hreads.get_of_length_le_one (hplain.selected (x := x))
    (length_matching_of_key (uniqueKeys_tables R db) hkey)
  rwa [hmatching, List.head?_map] at hget

/-- `DagRef.get` of a DAG finds the row that the query by `dag_id` finds. -/
theorem get_dagRef (hreads : Reads x (R.tables db) selectRows) (dagId : Uuid) :
    DagRef.get selectRows (some (.str (R.uuid dagId))) none =
      .ok (foundOf ((dagRefsOf dagId db).head?.map R.dagRef)) := by
  let l : Lookup := .dagRef (some (.str (R.uuid dagId))) none
  have hplain : l.Plain := by
    simpa [Lookup.Plain, Lookup.filter, FilterValue.values, l] using R.plain_uuid dagId
  have hkey : l.GivesKey := by
    simp [Lookup.GivesKey, Lookup.rowType, RowType.keyColumns, Lookup.filter, l]
  have hmatching : l.matching (R.tables db) =
      (db.dagRefs.filter fun ref => ref.dagId = dagId).map R.dagRef :=
    filter_rendered fun ref => accepts_dagRef ref dagId
  rw [dagRefsOf, List.head?_take, if_neg one_ne_zero]
  exact get_of_matching hreads hplain hkey hmatching

/-- `DagRun.get` of a run finds the row that the query by `run_id` finds. -/
theorem get_dagRun (hreads : Reads x (R.tables db) selectRows) (engine : Engine) (runId : Uuid) :
    DagRun.get selectRows (some (.str (R.uuid runId))) none =
      .ok (foundOf ((DagRunFilter.select { runId := some (.eq runId), limit := some 1 }
        engine db).head?.map R.dagRun)) := by
  let l : Lookup := .dagRun (some (.str (R.uuid runId))) none
  let w : DagRunFilter := { runId := some (.eq runId), limit := some 1 }
  have hplain : l.Plain := by
    simpa [Lookup.Plain, Lookup.filter, FilterValue.values, l] using R.plain_uuid runId
  have hkey : l.GivesKey := by
    simp [Lookup.GivesKey, Lookup.rowType, RowType.keyColumns, Lookup.filter, l]
  have haccepts : ∀ run, l.accepts (R.dagRun run) = w.accepts engine run := by
    intro run
    rw [accepts_dagRun]
    simp [DagRunFilter.accepts, FilterValue.acceptsOpt, FilterValue.accepts, w]
  have hmatching : l.matching (R.tables db) = (db.dagRuns.filter (w.accepts engine)).map R.dagRun :=
    filter_rendered haccepts
  have hselect : w.select engine db = (db.dagRuns.filter (w.accepts engine)).take 1 := rfl
  rw [hselect, List.head?_take, if_neg one_ne_zero]
  exact get_of_matching hreads hplain hkey hmatching

/-- `DagRef.get` by a payload finds nothing or some DagRef with that payload, not always the one
that the query finds. -/
theorem get_payload {payloadHash : String} (hreads : Reads x (R.tables db) selectRows)
    (hplain : ∀ c ∈ payloadHash.toList, c ≠ quote ∧ c ≠ backslash) :
    DagRef.get selectRows none (some (.str payloadHash.toList)) = .ok (foundOf none) ∨
      ∃ ref ∈ db.dagRefs, ref.payloadHash = payloadHash ∧
        DagRef.get selectRows none (some (.str payloadHash.toList)) = .ok (foundOf (R.dagRef ref)) := by
  let l : Lookup := .dagRef none (some (.str payloadHash.toList))
  have hplain' : l.Plain := by
    simpa [Lookup.Plain, Lookup.filter, FilterValue.values, l] using hplain
  have hmatching : l.matching (R.tables db) =
      (db.dagRefs.filter fun ref => ref.payloadHash = payloadHash).map R.dagRef :=
    filter_rendered fun ref => accepts_payload ref payloadHash
  have hselected : l.selected x (R.tables db) = some (l.matching (R.tables db)) := hplain'.selected
  rw [hmatching] at hselected
  rcases hreads.get_cases hselected with hget | ⟨row, hrow, hget⟩
  · exact Or.inl hget
  · obtain ⟨ref, href, rfl⟩ := List.mem_map.mp hrow
    obtain ⟨hmem, hpayload⟩ := List.mem_filter.mp href
    exact Or.inr ⟨ref, hmem, of_decide_eq_true hpayload, hget⟩

end YtScheduler.Lookups
