import YtScheduler.Dags.Relations

/-! What is known of a DAG that a spec was accepted as: its tasks are the steps, with
known builders and prepared tables, and its relations are those of the tables. -/

namespace YtScheduler.Dags

open Serialization

variable {B : Builders} {workDir : String}

/-- The tasks of a spec before their relations are set. -/
structure FromSpec (B : Builders) (workDir : String) (steps : List (String × Entries))
    (base : List Task) : Prop where
  taskIds : base.map Task.taskId = steps.map Prod.fst
  known : ∀ t ∈ base, B.known t.operationType = true
  prepared : ∀ t ∈ base, ∃ spec, B.prepareTables workDir t.operationType spec = .ok t.userSpec
  preceding : ∀ t ∈ base, t.precedingTaskIds = ∅
  succeeding : ∀ t ∈ base, t.succeedingTaskIds = ∅
  dagId : ∀ t ∈ base, t.dagId = none

theorem FromSpec.fresh {steps : List (String × Entries)} {base : List Task}
    (h : FromSpec B workDir steps base) : Fresh base :=
  ⟨h.preceding, h.succeeding, fun t ht u hu => (h.dagId u hu).trans (h.dagId t ht).symm⟩

/-- What holds of the task of every step holds of the tasks of a spec. -/
theorem forall₂_tasksFromSpec {R : String × Entries → Task → Prop}
    (hR : ∀ taskId spec t t', Task.fromSpecConf B spec taskId = .ok (some t) →
      t.prepareUserSpec B workDir = .ok t' → R (taskId, spec) t')
    {steps : List (String × Entries)} {base : List Task} (h : tasksFromSpec B workDir steps = .ok base) :
    List.Forall₂ R steps base := by
  induction steps generalizing base with
  | nil =>
    cases h
    exact .nil
  | cons step steps ih =>
    obtain ⟨taskId, params⟩ := step
    rw [tasksFromSpec] at h
    split at h
    · cases h
    · cases h
    · next task htask =>
      split at h
      · cases h
      · next task' hprep =>
        cases hrest : tasksFromSpec B workDir steps with
        | error e => rw [hrest] at h; cases h
        | ok rest =>
          rw [hrest] at h
          cases h
          exact .cons (hR _ _ _ _ htask hprep) (ih hrest)

theorem Task.fromSpecConf_spec {spec : Entries} {taskId : String} {t : Task}
    (h : Task.fromSpecConf B spec taskId = .ok (some t)) :
    t.taskId = taskId ∧ B.known t.operationType = true ∧ t.precedingTaskIds = ∅ ∧
      t.succeedingTaskIds = ∅ ∧ t.dagId = none := by
  rw [Task.fromSpecConf] at h
  split at h
  · cases h
  · split_ifs at h with hknown
    · cases h
      exact ⟨rfl, hknown, rfl, rfl, rfl⟩
    · cases h
  · split_ifs at h
    cases h

theorem Task.prepareUserSpec_spec {t t' : Task} (h : t.prepareUserSpec B workDir = .ok t') :
    ∃ spec, B.prepareTables workDir t.operationType t.userSpec = .ok spec ∧
      t' = { t with userSpec := spec } := by
  rw [Task.prepareUserSpec] at h
  cases hb : B.prepareTables workDir t.operationType t.userSpec with
  | error e =>
    rw [hb] at h
    cases h
  | ok spec =>
    rw [hb] at h
    cases h
    exact ⟨spec, rfl, rfl⟩

theorem fromSpec_of_tasksFromSpec {steps : List (String × Entries)} {base : List Task}
    (h : tasksFromSpec B workDir steps = .ok base) : FromSpec B workDir steps base := by
  have hall : List.Forall₂ (fun step t => (B.known t.operationType = true ∧
      (∃ spec, B.prepareTables workDir t.operationType spec = .ok t.userSpec) ∧
      t.precedingTaskIds = ∅ ∧ t.succeedingTaskIds = ∅ ∧ t.dagId = none) ∧ t.taskId = step.1)
      steps base := by
    refine forall₂_tasksFromSpec (fun taskId spec t t' htask hprep => ?_) h
    obtain ⟨hid, hknown, hrest⟩ := Task.fromSpecConf_spec htask
    obtain ⟨prepared, hprepared, rfl⟩ := Task.prepareUserSpec_spec hprep
    exact ⟨⟨hknown, ⟨_, hprepared⟩, hrest⟩, hid⟩
  obtain ⟨hmem, hids⟩ := (List.forall₂_and_left _ _).mp hall.flip
  refine ⟨?_, fun t ht => (hmem t ht).1, fun t ht => (hmem t ht).2.1, fun t ht => (hmem t ht).2.2.1,
    fun t ht => (hmem t ht).2.2.2.1, fun t ht => (hmem t ht).2.2.2.2⟩
  rw [← List.forall₂_eq_eq_eq, List.forall₂_map_left_iff, List.forall₂_map_right_iff]
  exact hids

theorem fromSpecConf_spec {steps : List (String × Entries)} {dag : Dag}
    (h : Dag.fromSpecConf B steps workDir = .ok dag) :
    ∃ base, FromSpec B workDir steps base ∧
      dag = ⟨none, workDir, resolveTasksDependencies B base⟩ := by
  rw [Dag.fromSpecConf] at h
  cases hb : tasksFromSpec B workDir steps with
  | error e => rw [hb] at h; cases h
  | ok base =>
    rw [hb] at h
    cases h
    exact ⟨base, fromSpec_of_tasksFromSpec hb, rfl⟩

/-! ### A builder -/

/-- The texts of a list. -/
def texts : Option Val → List String
  | some (.list xs) => xs.filterMap Val.text?
  | _ => []

/-- A builder of map operations, whose tables are named by two entries of the spec. -/
def mapBuilder : Builders where
  known operationType := operationType = "map"
  prepareTables _ _ spec :=
    if (spec.lookup "input_table_paths").isSome && (spec.lookup "output_table_paths").isSome then
      .ok spec
    else .error .keyError
  getInputTablePaths _ spec := texts (spec.lookup "input_table_paths")
  getOutputTablePaths _ spec := texts (spec.lookup "output_table_paths")

/-- Two steps, one of which reads what the other one writes. -/
def catSpec : List (String × Entries) :=
  [("just_cat",
      [("operation_type", .prim (.str "map")),
        ("input_table_paths", .list [.prim (.str "//input")]),
        ("output_table_paths", .list [.prim (.str "//middle")]),
        ("limits", .dict [("__var", .tuple [.prim (.int 1), .prim .null]),
          ("__type", .set [.prim (.str "b"), .prim (.str "a")])])]),
    ("cat_after",
      [("input_table_paths", .list [.prim (.str "//middle")]),
        ("output_table_paths", .list [.prim (.str "//output")]),
        ("operation_type", .prim (.str "map")), ("timeout", .timedelta 1500000)])]

def catDag : Dag where
  dagId := none
  workDir := "//home"
  tasks :=
    [⟨"just_cat", none, "map",
        [("input_table_paths", .list [.prim (.str "//input")]),
          ("output_table_paths", .list [.prim (.str "//middle")]),
          ("limits", .dict [("__var", .tuple [.prim (.int 1), .prim .null]),
            ("__type", .set [.prim (.str "b"), .prim (.str "a")])])],
        ∅, {"cat_after"}⟩,
      ⟨"cat_after", none, "map",
        [("input_table_paths", .list [.prim (.str "//middle")]),
          ("output_table_paths", .list [.prim (.str "//output")]), ("timeout", .timedelta 1500000)],
        {"just_cat"}, ∅⟩]

theorem catDag_eq : Dag.fromSpecConf mapBuilder catSpec "//home" = .ok catDag := rfl

end YtScheduler.Dags
