import YtScheduler.Store.Query

/-! TaskRun selects as text. With plain task ids the engine reads the clause as its filters say;
without a task id it cannot read it. -/

namespace YtScheduler

open Filters Lookups Quoting

namespace FilterValue

variable {α : Type}

/-- The values of a filter argument. -/
def elems : FilterValue α → List α
  | .eq a => [a]
  | .mem as => as

/-- The argument is no list without values. -/
def Filled (f : FilterValue α) : Prop := f.elems ≠ []

/-- The argument by the texts of its values. -/
def value (text : α → Text) : (f : FilterValue α) → f.Filled → Filters.FilterValue
  | .eq a, _ => .str (text a)
  | .mem as, h => .list ⟨as.map text, fun hnil => h (List.map_eq_nil_iff.mp hnil)⟩

theorem processFilterValue_value (text : α → Text) (f : FilterValue α) (h : f.Filled) :
    processFilterValue (f.value text h) = f.text text := by
  cases f <;> rfl

theorem mem_values {text : α → Text} {f : FilterValue α} {h : f.Filled} {v : Text} :
    v ∈ (f.value text h).values ↔ ∃ a ∈ f.elems, text a = v := by
  cases f with
  | eq a => simp [value, Filters.FilterValue.values, elems, eq_comm]
  | mem as => simp [value, Filters.FilterValue.values, elems]

theorem accepts_iff [DecidableEq α] {f : FilterValue α} {a : α} :
    f.accepts a = true ↔ a ∈ f.elems := by
  cases f <;> simp [accepts, elems]

/-- The cell of a row is one of the values. -/
theorem exists_value_iff [DecidableEq α] {text : α → Text} (htext : Function.Injective text)
    {f : FilterValue α} {h : f.Filled} {a : α} :
    (∃ v ∈ (f.value text h).values, some (text a) = some v) ↔ f.accepts a = true := by
  rw [accepts_iff]
  constructor
  · rintro ⟨v, hv, ha⟩
    obtain ⟨b, hb, rfl⟩ := mem_values.mp hv
    rwa [htext (Option.some.inj ha)]
  · intro ha
    exact ⟨text a, mem_values.mpr ⟨a, ha, rfl⟩, rfl⟩

/-- A keyword argument by the texts of its values. -/
def valueOpt (text : α → Text) (f : Option (FilterValue α)) (h : ∀ g ∈ f, g.Filled) :
    Option Filters.FilterValue := f.pmap (value text) h

theorem map_valueOpt (text : α → Text) (f : Option (FilterValue α)) (h : ∀ g ∈ f, g.Filled) :
    (valueOpt text f h).map processFilterValue = f.map (·.text text) := by
  cases f with
  | none => rfl
  | some f => exact congrArg some (processFilterValue_value text f (h f rfl))

theorem plain_valueOpt {text : α → Text} {f : Option (FilterValue α)} {h : ∀ g ∈ f, g.Filled}
    (hplain : ∀ g ∈ f, ∀ a ∈ g.elems, IsPlain (text a)) {u : Filters.FilterValue}
    (hu : valueOpt text f h = some u) : ∀ v ∈ u.values, IsPlain v := by
  cases f with
  | none => cases hu
  | some f =>
    cases hu
    intro v hv
    obtain ⟨a, ha, rfl⟩ := mem_values.mp hv
    exact hplain f rfl a ha

theorem valueOpt_iff [DecidableEq α] {text : α → Text} (htext : Function.Injective text)
    {f : Option (FilterValue α)} {h : ∀ g ∈ f, g.Filled} {a : α} :
    (∀ u, valueOpt text f h = some u → ∃ v ∈ u.values, some (text a) = some v) ↔
      acceptsOpt f a = true := by
  cases f with
  | none => simp [valueOpt]
  | some f =>
    rw [acceptsOpt, Option.all_some, ← exists_value_iff htext (h := h f rfl)]
    simp [valueOpt]

end FilterValue

theorem taskRunState_injective : Function.Injective taskRunState := by
  intro s s' h
  cases s <;> cases s' <;> first | rfl | exact absurd h (by decide)

theorem plain_taskRunState (s : TaskRunState) : IsPlain (taskRunState s) := by
  cases s <;> decide +kernel

namespace TaskRunFilter

open FilterValue

variable {w : TaskRunFilter} {engine : Engine}

/-- No filter but the one by task ids is a list without values, and there is none by operations. -/
structure Filled (w : TaskRunFilter) : Prop where
  runId : ∀ f ∈ w.runId, f.Filled
  dagId : ∀ f ∈ w.dagId, f.Filled
  dagrunId : ∀ f ∈ w.dagrunId, f.Filled
  state : ∀ f ∈ w.state, f.Filled
  operationId : w.operationId = none

section Texts

variable (R : Rendering) (h : w.Filled)

def kwargsBefore : Kwargs :=
  ⟨[(Columns.runId, valueOpt R.uuid w.runId h.runId)], (by decide : [Columns.runId.name].Nodup)⟩

def kwargsAfter : Kwargs :=
  ⟨[(Columns.dagId, valueOpt R.uuid w.dagId h.dagId),
      (Columns.dagrunId, valueOpt R.uuid w.dagrunId h.dagrunId),
      (Columns.state, valueOpt taskRunState w.state h.state)],
    (by decide : [Columns.dagId.name, Columns.dagrunId.name, Columns.state.name].Nodup)⟩

def kwargs (htask : ∀ f ∈ w.taskId, f.Filled) : Kwargs :=
  TaskRun.kwargs (valueOpt R.uuid w.runId h.runId) (valueOpt String.toList w.taskId htask)
    (valueOpt R.uuid w.dagId h.dagId) (valueOpt R.uuid w.dagrunId h.dagrunId)
    (valueOpt taskRunState w.state h.state) none

variable {R h}

theorem filters_kwargs (htask : ∀ f ∈ w.taskId, f.Filled) :
    filters (kwargs R h htask) = w.params R := by
  rw [filters_eq_filterMap]
  simp only [kwargs, TaskRun.kwargs, List.map_cons, List.map_nil, map_valueOpt, params,
    h.operationId, Option.map_none]

theorem plain_kwargs (htask : ∀ f ∈ w.taskId, f.Filled)
    (hplain : ∀ f ∈ w.taskId, ∀ taskId ∈ f.elems, IsPlain taskId.toList) :
    (kwargs R h htask).IsPlain := by
  refine Kwargs.isPlain_of_args fun arg harg u hu => ?_
  simp only [kwargs, TaskRun.kwargs, List.mem_cons, List.not_mem_nil, or_false] at harg
  rcases harg with rfl | rfl | rfl | rfl | rfl | rfl
  · exact plain_valueOpt (fun _ _ id _ => R.plain_uuid id) hu
  · exact plain_valueOpt hplain hu
  · exact plain_valueOpt (fun _ _ id _ => R.plain_uuid id) hu
  · exact plain_valueOpt (fun _ _ id _ => R.plain_uuid id) hu
  · exact plain_valueOpt (fun _ _ state _ => plain_taskRunState state) hu
  · cases hu

theorem selected_kwargs (htask : ∀ f ∈ w.taskId, f.Filled) (r : TaskRunRow) :
    Selected (kwargs R h htask) (R.taskRun r) ↔ w.agrees r = true := by
  have hstring : Function.Injective String.toList := fun _ _ => String.toList_inj.mp
  simp only [Selected, kwargs, TaskRun.kwargs, List.forall_mem_cons]
  have hrunId : R.taskRun r Columns.runId.name = some (R.uuid r.runId) := rfl
  have htaskId : R.taskRun r Columns.taskId.name = some r.taskId.toList := rfl
  have hdagId : R.taskRun r Columns.dagId.name = some (R.uuid r.dagId) := rfl
  have hdagrunId : R.taskRun r Columns.dagrunId.name = some (R.uuid r.dagrunId) := rfl
  have hstate : R.taskRun r Columns.state.name = some (taskRunState r.state) := rfl
  rw [hrunId, htaskId, hdagId, hdagrunId, hstate, valueOpt_iff R.uuid_injective,
    valueOpt_iff hstring, valueOpt_iff R.uuid_injective, valueOpt_iff R.uuid_injective,
    valueOpt_iff taskRunState_injective]
  simp [agrees, h.operationId, and_assoc]

end Texts

/-- The engine reads filters by plain task ids as they say. -/
theorem Filled.readWhere_of_plain (h : w.Filled) (htask : ∀ f ∈ w.taskId, f.Filled)
    (hplain : ∀ f ∈ w.taskId, ∀ taskId ∈ f.elems, IsPlain taskId.toList) :
    ∃ test, engine.readWhere (clauseOf (w.params engine.rendering)) = some test ∧
      ∀ r, test (engine.rendering.taskRun r) = w.agrees r := by
  obtain ⟨test, hread, htest⟩ := engine.readWhere_plain _ (plain_kwargs (h := h) htask hplain)
  refine ⟨test, ?_, ?_⟩
  · rw [← filters_kwargs htask]
    exact hread
  · intro r
    rw [Bool.eq_iff_iff, htest, selected_kwargs]

theorem Filled.read_of_plain (h : w.Filled) (htask : ∀ f ∈ w.taskId, f.Filled)
    (hplain : ∀ f ∈ w.taskId, ∀ taskId ∈ f.elems, IsPlain taskId.toList) :
    w.read engine = some w.agrees := by
  obtain ⟨test, hread, htest⟩ : ∃ test, engine.readWhere (clauseOf (w.params engine.rendering)) = some test ∧
      ∀ r, test (engine.rendering.taskRun r) = w.agrees r := h.readWhere_of_plain htask hplain
  unfold read
  split
  · rfl
  · rw [hread, Option.map_some]
    exact congrArg some (funext htest)

/-- The engine cannot read a list without task ids. -/
theorem Filled.read_of_empty (h : w.Filled) (htask : w.taskId = some (.mem [])) :
    w.read engine = none := by
  have hparams : w.params engine.rendering = filters (kwargsBefore engine.rendering h) ++
      (Columns.taskId, .list, flatten []) :: filters (kwargsAfter engine.rendering h) := by
    rw [filters_eq_filterMap, filters_eq_filterMap]
    simp only [kwargsBefore, kwargsAfter, List.map_cons, List.map_nil, map_valueOpt, params,
      h.operationId, htask, Option.map_none]
    cases w.runId <;> rfl
  have hbefore : (kwargsBefore engine.rendering h).IsPlain := by
    refine Kwargs.isPlain_of_args fun arg harg u hu => ?_
    obtain rfl := List.mem_singleton.mp harg
    exact plain_valueOpt (fun _ _ id _ => engine.rendering.plain_uuid id) hu
  have hafter : (kwargsAfter engine.rendering h).IsPlain := by
    refine Kwargs.isPlain_of_args fun arg harg u hu => ?_
    simp only [kwargsAfter, List.mem_cons, List.not_mem_nil, or_false] at harg
    rcases harg with rfl | rfl | rfl
    · exact plain_valueOpt (fun _ _ id _ => engine.rendering.plain_uuid id) hu
    · exact plain_valueOpt (fun _ _ id _ => engine.rendering.plain_uuid id) hu
    · exact plain_valueOpt (fun _ _ state _ => plain_taskRunState state) hu
  unfold read
  rw [hparams, engine.readWhere_empty _ _ _ hbefore hafter]
  split
  · rename_i hnone
    rw [htask] at hnone
    cases hnone
  · rfl

end TaskRunFilter

end YtScheduler
