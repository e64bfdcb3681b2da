import YtScheduler.Store.Lookups
import YtScheduler.Laws.Filters

/-! What `get` returns. Its query is limited to one row, so the rows it counts are never
several: it cannot tell a lookup with one match from one with many. -/

namespace YtScheduler.Lookups

open Filters Quoting

variable {x : Escaping} {tables : Tables} {selectRows : SelectRows} {l : Lookup}

namespace Lookup

/-- The statement of a lookup. -/
def statement (l : Lookup) : Statement := ⟨l.rowType, whereClause l.kwargs, some 1⟩

theorem get_eq (selectRows : SelectRows) (l : Lookup) :
    l.get selectRows = YtRow.get fun _ => selectRows l.statement := by
  cases l <;> rfl

theorem mem_args {column : Column} {value : FilterValue} :
    (column, some value) ∈ l.kwargs.args ↔ (column, some value) ∈ l.filter := by
  cases l with
  | dagMeta dagId runId id =>
    simp only [kwargs, DagMeta.kwargs, filter, List.mem_cons, List.not_mem_nil, or_false]
    exact or_comm.trans or_assoc
  | taskRef dagId taskId => simp [kwargs, TaskRef.kwargs, filter, or_comm]
  | dagRef dagId payloadHash => exact Iff.rfl
  | dagRun runId dagId => simp [kwargs, DagRun.kwargs, filter]
  | taskRun runId taskId dagId dagrunId operationId => simp [kwargs, TaskRun.kwargs, filter]

theorem accepts_iff {row : Row} : l.accepts row = true ↔ Selected l.kwargs row := by
  simp only [accepts, Selected, List.all_eq_true, Option.all_eq_true, List.any_eq_true, decide_eq_true_eq]
  constructor
  · rintro h ⟨column, _⟩ harg value rfl
    exact h _ (mem_args.mp harg) value rfl
  · rintro h ⟨column, _⟩ harg value rfl
    exact h _ (mem_args.mpr harg) value rfl

/-- The rows that the where clause of the lookup selects, if it can be read. -/
def selected (x : Escaping) (tables : Tables) (l : Lookup) : Option (List Row) :=
  (readWhere x.escapes (whereClause l.kwargs)).map fun o =>
    (tables l.rowType).filter fun row => selects row o

/-- No string of the filter has a quote or a backslash. -/
def Plain (l : Lookup) : Prop :=
  ∀ arg ∈ l.filter, ∀ value, arg.2 = some value → ∀ v ∈ value.values, ∀ c ∈ v, c ≠ quote ∧ c ≠ backslash

/-- The where clause of plain strings selects the rows that match. -/
theorem Plain.selected (h : l.Plain) : l.selected x tables = some (l.matching tables) := by
  have hplain : ∀ f ∈ given l.kwargs, ∀ v ∈ f.2.values, Quoting.Plain x.escapes v := by
    intro f hf
    obtain ⟨⟨column, value⟩, harg, hmap⟩ := List.mem_filterMap.mp hf
    obtain ⟨value, rfl, rfl⟩ := Option.map_eq_some_iff.mp hmap
    exact h _ (mem_args.mp harg) value rfl
  obtain ⟨o, hread, hselects⟩ := selects_of_plain hplain
  rw [Lookup.selected, hread, Option.map_some, matching]
  congr 1
  refine List.filter_congr fun row _ => ?_
  rw [Bool.eq_iff_iff, hselects, accepts_iff]

/-- The where clause can be read and selects at most one row: one if it alone matches the
filter, and otherwise none. -/
def Unambiguous (x : Escaping) (tables : Tables) (l : Lookup) : Prop :=
  ∃ rows, l.selected x tables = some rows ∧ rows.length ≤ 1 ∧
    ∀ row, rows = [row] ↔ l.matching tables = [row]

theorem Plain.unambiguous_iff (h : l.Plain) :
    l.Unambiguous x tables ↔ (l.matching tables).length ≤ 1 := by
  simp [Unambiguous, h.selected]

/-! ### What the client answers -/

theorem get_error {e : SelectError} (h : selectRows l.statement = .error e) :
    l.get selectRows = .error e := by
  rw [get_eq, YtRow.get, h]
  rfl

theorem get_nil (h : selectRows l.statement = .ok []) :
    l.get selectRows = .ok ⟨none, some .cannotFind⟩ := by
  rw [get_eq, YtRow.get, h]
  rfl

theorem get_singleton {row : Row} (h : selectRows l.statement = .ok [row]) :
    l.get selectRows = .ok ⟨some row, none⟩ := by
  rw [get_eq, YtRow.get, h]
  rfl

end Lookup

/-- What `get` makes of a row that was found or not. -/
def foundOf : Option Row → Found
  | none => ⟨none, some .cannotFind⟩
  | some row => ⟨some row, none⟩

namespace Reads

theorem error_of_selected (h : Reads x tables selectRows) (hselected : l.selected x tables = none) :
    l.get selectRows = .error ⟨l.statement⟩ :=
  Lookup.get_error (h.error l.statement (Option.map_eq_none_iff.mp hselected))

theorem rows_of_selected {rows : List Row} (h : Reads x tables selectRows)
    (hselected : l.selected x tables = some rows) :
    ∃ answer, selectRows l.statement = .ok answer ∧ Limited (some 1) rows answer := by
  obtain ⟨o, hread, rfl⟩ := Option.map_eq_some_iff.mp hselected
  exact h.rows l.statement o hread

/-- `get` returns one of the selected rows or none. -/
theorem get_cases {rows : List Row} (h : Reads x tables selectRows)
    (hselected : l.selected x tables = some rows) :
    l.get selectRows = .ok ⟨none, some .cannotFind⟩ ∨
      ∃ row ∈ rows, l.get selectRows = .ok ⟨some row, none⟩ := by
  obtain ⟨answer, hanswer, hlimited⟩ := h.rows_of_selected hselected
  rcases hlimited.of_one with rfl | ⟨row, hrow, rfl⟩
  · exact Or.inl (Lookup.get_nil hanswer)
  · exact Or.inr ⟨row, hrow, Lookup.get_singleton hanswer⟩

theorem get_of_nil (h : Reads x tables selectRows) (hselected : l.selected x tables = some []) :
    l.get selectRows = .ok ⟨none, some .cannotFind⟩ := by
  obtain ⟨answer, hanswer, hlimited⟩ := h.rows_of_selected hselected
  rw [hlimited.nil] at hanswer
  exact Lookup.get_nil hanswer

theorem get_of_singleton {row : Row} (h : Reads x tables selectRows)
    (hselected : l.selected x tables = some [row]) :
    l.get selectRows = .ok ⟨some row, none⟩ := by
  obtain ⟨answer, hanswer, hlimited⟩ := h.rows_of_selected hselected
  rw [hlimited.singleton] at hanswer
  exact Lookup.get_singleton hanswer

/-- The only selected row is returned. -/
theorem get_of_length_le_one {rows : List Row} (h : Reads x tables selectRows)
    (hselected : l.selected x tables = some rows) (hlength : rows.length ≤ 1) :
    l.get selectRows = .ok (foundOf rows.head?) := by
  match rows with
  | [] => exact h.get_of_nil hselected
  | [row] => exact h.get_of_singleton hselected
  | _ :: _ :: _ => simp at hlength

/-- The warning of an ambiguous lookup is never logged. -/
theorem warning_ne {found : Found} (h : Reads x tables selectRows)
    (hget : l.get selectRows = .ok found) (n : ℕ) :
    found.warning ≠ some (.cannotFindUnambiguously n) := by
  cases hselected : l.selected x tables with
  | none =>
    rw [h.error_of_selected hselected] at hget
    cases hget
  | some rows =>
    rcases h.get_cases hselected with hget' | ⟨row, _, hget'⟩
    · cases hget'.symm.trans hget
      simp
    · cases hget'.symm.trans hget
      simp

end Reads

/-- A client that answers with a choice of the rows that a where clause selects. -/
def answering (x : Escaping) (tables : Tables) (choose : Option ℕ → List Row → List Row) :
    SelectRows := fun s =>
  match readWhere x.escapes s.whereClause with
  | none => .error ⟨s⟩
  | some o => .ok (choose s.limit ((tables s.rowType).filter fun row => selects row o))

theorem reads_answering {choose : Option ℕ → List Row → List Row}
    (h : ∀ limit found, Limited limit found (choose limit found)) :
    Reads x tables (answering x tables choose) where
  error s hread := by
    rw [answering, hread]
  rows s o hread := by
    rw [answering, hread]
    exact ⟨_, rfl, h _ _⟩

/-- The first rows. -/
def firstRows (limit : Option ℕ) (found : List Row) : List Row :=
  match limit with
  | none => found
  | some n => found.take n

theorem limited_firstRows (limit : Option ℕ) (found : List Row) :
    Limited limit found (firstRows limit found) := by
  cases limit with
  | none => exact Limited.self (by simp)
  | some n => exact Limited.take found n

/-- No rows if there are more than the limit allows. -/
def allOrNone (limit : Option ℕ) (found : List Row) : List Row :=
  if limit.any (· < found.length) then [] else found

theorem limited_allOrNone (limit : Option ℕ) (found : List Row) :
    Limited limit found (allOrNone limit found) := by
  unfold allOrNone
  split_ifs with h
  · obtain ⟨n, rfl, hn⟩ := (Option.any_eq_true _ _).mp h
    exact Limited.nil_of_lt (of_decide_eq_true hn)
  · refine Limited.self ?_
    rintro n rfl
    simpa using h

/-! ### When `get` does not guess -/

theorem not_neverGuesses_error {e : SelectError} : ¬NeverGuesses tables l (.error e) := by
  rintro ⟨found, ⟨⟩, -⟩

theorem neverGuesses_none {warning : Option Warning} :
    NeverGuesses tables l (.ok ⟨none, warning⟩) ↔ (l.matching tables).length ≠ 1 := by
  constructor
  · rintro ⟨found, ⟨⟩, -, hnone⟩
    exact hnone.mp rfl
  · intro h
    refine ⟨_, rfl, fun row => ⟨by simp, fun hrow => absurd (by rw [hrow]; rfl) h⟩, by simpa using h⟩

theorem neverGuesses_some {row : Row} {warning : Option Warning} :
    NeverGuesses tables l (.ok ⟨some row, warning⟩) ↔ l.matching tables = [row] := by
  constructor
  · rintro ⟨found, ⟨⟩, hsome, -⟩
    exact (hsome row).mp rfl
  · intro h
    exact ⟨_, rfl, by simp [h], by simp [h]⟩

theorem statement_answering {choose : Option ℕ → List Row → List Row} {rows : List Row}
    (hselected : l.selected x tables = some rows) :
    answering x tables choose l.statement = .ok (choose (some 1) rows) := by
  obtain ⟨o, hread, rfl⟩ := Option.map_eq_some_iff.mp hselected
  have hread' : readWhere x.escapes l.statement.whereClause = some o := hread
  rw [answering, hread']
  rfl

theorem unambiguous_of_never (h : ∀ selectRows, Reads x tables selectRows →
    NeverGuesses tables l (l.get selectRows)) : l.Unambiguous x tables := by
  have hreads : Reads x tables (answering x tables firstRows) := reads_answering limited_firstRows
  have hfirst := h _ hreads
  cases hselected : l.selected x tables with
  | none =>
    rw [hreads.error_of_selected hselected] at hfirst
    exact absurd hfirst not_neverGuesses_error
  | some rows =>
    refine ⟨rows, hselected, ?_⟩
    match rows with
    | [] =>
      rw [hreads.get_of_nil hselected, neverGuesses_none] at hfirst
      refine ⟨Nat.zero_le 1, fun row => ⟨by simp, fun hrow => absurd ?_ hfirst⟩⟩
      rw [hrow]
      rfl
    | [a] =>
      rw [hreads.get_of_singleton hselected, neverGuesses_some] at hfirst
      exact ⟨le_rfl, fun row => by rw [hfirst]⟩
    | a :: b :: rest =>
      -- one client answers with the first of the rows, another with none of them
      rw [Lookup.get_singleton (statement_answering hselected), neverGuesses_some] at hfirst
      have hnone := h _ (reads_answering limited_allOrNone)
      rw [Lookup.get_nil (statement_answering hselected), neverGuesses_none, hfirst] at hnone
      exact absurd rfl hnone

theorem neverGuesses_of_unambiguous (h : l.Unambiguous x tables) (hreads : Reads x tables selectRows) :
    NeverGuesses tables l (l.get selectRows) := by
  obtain ⟨rows, hselected, hlength, hrows⟩ := h
  match rows with
  | [] =>
    rw [hreads.get_of_nil hselected, neverGuesses_none]
    intro hone
    obtain ⟨row, hrow⟩ := List.length_eq_one_iff.mp hone
    exact absurd ((hrows row).mpr hrow) (by simp)
  | [a] =>
    rw [hreads.get_of_singleton hselected, neverGuesses_some]
    exact (hrows a).mp rfl
  | _ :: _ :: _ => simp at hlength

/-- Whatever the client answers, `get` does not guess exactly if the lookup is unambiguous; with
plain strings, exactly if at most one stored row matches. -/
theorem get_never_guesses_iff (x : Escaping) (tables : Tables) (l : Lookup) :
    ((∀ selectRows, Reads x tables selectRows → NeverGuesses tables l (l.get selectRows)) ↔
        l.Unambiguous x tables) ∧
      (l.Plain → ((∀ selectRows, Reads x tables selectRows →
        NeverGuesses tables l (l.get selectRows)) ↔ (l.matching tables).length ≤ 1)) := by
  have hiff : (∀ selectRows, Reads x tables selectRows →
      NeverGuesses tables l (l.get selectRows)) ↔ l.Unambiguous x tables :=
    ⟨unambiguous_of_never, fun h _ => neverGuesses_of_unambiguous h⟩
  exact ⟨hiff, fun hplain => hiff.trans hplain.unambiguous_iff⟩

/-! ### Lookups by key -/

/-- No two rows of a table agree in all key columns. -/
def UniqueKeys (tables : Tables) : Prop :=
  ∀ cls, ((tables cls).map fun row => cls.keyColumns.map fun column => row column.name).Nodup

/-- The filter has one string for each key column. -/
def Lookup.GivesKey (l : Lookup) : Prop :=
  ∀ column ∈ l.rowType.keyColumns, ∃ v, (column, some (.str v)) ∈ l.filter

theorem length_matching_of_key (hunique : UniqueKeys tables) (hkey : l.GivesKey) :
    (l.matching tables).length ≤ 1 := by
  choose! v hv using hkey
  refine length_filter_le_one (k := l.rowType.keyColumns.map fun column => some (v column))
    (hunique l.rowType) fun row _ haccepts => ?_
  refine List.map_congr_left fun column hcolumn => ?_
  have hcell := List.all_eq_true.mp haccepts _ (hv column hcolumn)
  show row column.name = some (v column)
  simpa [FilterValue.values] using hcell

/-! ### Two DAGs with one payload -/

def dagRefRow (dagId : Text) : Row := fun name =>
  [(Columns.dagId.name, dagId), ("serialized_repr".toList, "{}".toList),
    (Columns.payloadHash.name, "e3b0".toList),
    ("created_at".toList, "2025-01-01T00:00:00+00:00".toList)].lookup name

/-- The DAGs `a` and `b` with the same payload. -/
def twins : Tables
  | .dagRef => [dagRefRow "a".toList, dagRefRow "b".toList]
  | _ => []

def byPayload : Lookup := .dagRef none (some (.str "e3b0".toList))

theorem matching_twins : byPayload.matching twins = twins .dagRef := by
  refine List.filter_eq_self.mpr fun row hrow => ?_
  rcases List.mem_cons.mp hrow with rfl | hrow
  · decide
  · rw [List.mem_singleton.mp hrow]
    decide

theorem plain_byPayload : byPayload.Plain := by
  intro arg harg value hvalue v hv
  rcases List.mem_cons.mp harg with rfl | harg
  · cases hvalue
  · obtain rfl := List.mem_singleton.mp harg
    cases hvalue
    obtain rfl := List.mem_singleton.mp hv
    exact plain_text (x := keeping) (by decide)

/-- The payload of two DAGs looked up: the first of them is returned. -/
theorem twins_guessed : UniqueKeys twins ∧ Reads keeping twins (answering keeping twins firstRows) ∧
    ¬NeverGuesses twins byPayload (byPayload.get (answering keeping twins firstRows)) := by
  refine ⟨?_, reads_answering limited_firstRows, ?_⟩
  · intro cls
    cases cls <;> decide
  · have hselected : byPayload.selected keeping twins = some (twins .dagRef) := by
      rw [plain_byPayload.selected, matching_twins]
    rw [Lookup.get_singleton (statement_answering hselected), neverGuesses_some, matching_twins]
    exact fun h => absurd (congrArg List.length h) (by decide)

end YtScheduler.Lookups
