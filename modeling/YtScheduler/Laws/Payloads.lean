import YtScheduler.Laws.Storage
import YtScheduler.Serialization.Canonical

/-! The payloads of equal specs. Keys are sorted, and the sets that can be: the order of the steps
and the order of the other sets show. -/

namespace YtScheduler

open Serialization

namespace Dags

/-! ### Stored DAGs -/

/-- Tasks that are stored alike. -/
theorem plain_serializeOperator_eq_iff {t t' : Task} :
    (Val.dict t.serializeOperator).plain = (Val.dict t'.serializeOperator).plain ↔
      t.taskId = t'.taskId ∧ t.operationType = t'.operationType ∧
        (Val.dict t.userSpec).serialize.plain = (Val.dict t'.userSpec).serialize.plain := by
  have hle : ¬("task_id" : String) ≤ "operation_type" := by decide
  have hle' : ¬("task_id" : String) ≤ "spec_builder._user_spec" := by decide
  rw [Val.serialize, Val.serialize, Val.plain_encode_inj, and_iff_right rfl, serializeOperator_eq,
    serializeOperator_eq, Val.plain_dict, Val.plain_dict]
  simp [sortKeys, hle, hle', Val.plain]
  tauto

/-- DAGs that are stored alike. -/
theorem toSerializedRepr_eq_iff {d d' : Dag} (hd : ∀ t ∈ d.tasks, Val.Formed (.dict t.userSpec))
    (hd' : ∀ t ∈ d'.tasks, Val.Formed (.dict t.userSpec)) :
    d.toSerializedRepr = d'.toSerializedRepr ↔ d.workDir = d'.workDir ∧
      List.Forall₂ (fun t t' => t.taskId = t'.taskId ∧ t.operationType = t'.operationType ∧
        (Val.dict t.userSpec).serialize.plain = (Val.dict t'.userSpec).serialize.plain)
        d.tasks d'.tasks := by
  have hle : ¬("work_dir" : String) ≤ "tasks" := by decide
  have htasks : ∀ ts ts' : List Task,
      (ts.map fun t => (Val.encode (.dict t.serializeOperator) .op).plain) =
        (ts'.map fun t => (Val.encode (.dict t.serializeOperator) .op).plain) ↔
      List.Forall₂ (fun t t' => t.taskId = t'.taskId ∧ t.operationType = t'.operationType ∧
        (Val.dict t.userSpec).serialize.plain = (Val.dict t'.userSpec).serialize.plain) ts ts' := by
    intro ts ts'
    rw [← List.forall₂_eq_eq_eq, List.forall₂_map_left_iff, List.forall₂_map_right_iff]
    simp only [Val.plain_encode_inj, plain_serializeOperator_eq_iff, true_and]
  rw [Dag.toSerializedRepr, Dag.toSerializedRepr,
    Val.dumps_eq_iff (isJson_serializeDag hd) (isJson_serializeDag hd'), serializeDag_eq,
    serializeDag_eq, Val.plain_dict, Val.plain_dict, ← htasks]
  simp [sortKeys, hle, Val.plain, Val.plainList_eq, Function.comp_def, and_comm]

/-! ### Equal specs -/

variable {B : Builders} {workDir : String} {steps steps' : List (String × Entries)} {d d' : Dag}

/-- The `steps` of a spec. -/
def stepsOf (steps : List (String × Entries)) : Val := .dict (steps.map fun s => (s.1, .dict s.2))

/-- Prepared user specs are values of specs again. -/
def Builders.Forms (B : Builders) : Prop :=
  ∀ (workDir operationType : String) (spec prepared : Entries), Val.Formed (.dict spec) →
    B.prepareTables workDir operationType spec = .ok prepared → Val.Formed (.dict prepared)

/-- The parameters that are handed to the spec builder. -/
def specParams (params : Entries) : Entries := params.filter fun e => e.1 ≠ "operation_type"

/-- The task of a step. -/
structure FromStep (B : Builders) (workDir : String) (step : String × Entries) (t : Task) :
    Prop where
  taskId : t.taskId = step.1
  operationType : step.2.lookup "operation_type" = some (.prim (.str t.operationType))
  prepared : B.prepareTables workDir t.operationType (specParams step.2) = .ok t.userSpec

theorem Task.fromStep {spec : Entries} {taskId : String} {t t' : Task}
    (h : Task.fromSpecConf B spec taskId = .ok (some t)) (h' : t.prepareUserSpec B workDir = .ok t') :
    FromStep B workDir (taskId, spec) t' := by
  obtain ⟨prepared, hprepared, rfl⟩ := Task.prepareUserSpec_spec h'
  rw [Task.fromSpecConf] at h
  split at h
  · cases h
  · next operationType htype =>
    split_ifs at h with hknown
    · cases h
      exact ⟨rfl, htype, hprepared⟩
    · cases h
  · split_ifs at h
    cases h

/-- A DAG has a task for each step. -/
theorem forall₂_tasks (h : Dag.fromSpecConf B steps workDir = .ok d) :
    d.workDir = workDir ∧ List.Forall₂ (FromStep B workDir) steps d.tasks := by
  rw [Dag.fromSpecConf] at h
  cases hb : tasksFromSpec B workDir steps with
  | error e => rw [hb] at h; cases h
  | ok base =>
    rw [hb] at h
    cases h
    refine ⟨rfl, ?_⟩
    have hbare : List.Forall₂ (FromStep B workDir) steps
        ((resolveTasksDependencies B base).map Task.bare) := by
      rw [map_bare_resolve, List.forall₂_map_right_iff]
      exact (forall₂_tasksFromSpec (fun _ _ _ _ => Task.fromStep) hb).imp fun _ _ h => ⟨h.taskId, h.operationType, h.prepared⟩
    rw [List.forall₂_map_right_iff] at hbare
    exact hbare.imp fun _ _ h => ⟨h.taskId, h.operationType, h.prepared⟩

theorem taskIds_eq (h : Dag.fromSpecConf B steps workDir = .ok d) :
    d.taskIds = steps.map Prod.fst := by
  rw [Dag.taskIds, ← List.forall₂_eq_eq_eq, List.forall₂_map_left_iff, List.forall₂_map_right_iff]
  exact (forall₂_tasks h).2.flip.imp fun _ _ h => h.taskId

theorem step_of_task (h : Dag.fromSpecConf B steps workDir = .ok d) {t : Task} (ht : t ∈ d.tasks) :
    ∃ step ∈ steps, FromStep B workDir step t :=
  Val.exists_of_forall₂ (forall₂_tasks h).2.flip t ht

theorem keys_specParams {params : Entries} (h : (params.map Prod.fst).Nodup) :
    ((specParams params).map Prod.fst).Nodup :=
  h.sublist (List.filter_sublist.map _)

theorem sameDict_specParams {params other : Entries} (h : SameDict params other) :
    SameDict (specParams params) (specParams other) := by
  obtain ⟨hperm, hentries⟩ := h
  rw [Val.sameEntries_iff] at hentries
  have hkeys : ∀ es : Entries, (specParams es).map Prod.fst =
      (es.map Prod.fst).filter fun k => k ≠ "operation_type" := by
    intro es
    rw [List.filter_map]
    rfl
  refine ⟨?_, Val.sameEntries_iff.mpr fun e he => ?_⟩
  · rw [hkeys, hkeys]
    exact hperm.filter _
  · obtain ⟨he, hne⟩ := List.mem_filter.mp he
    obtain ⟨w, hw, hsame⟩ := hentries e he
    exact ⟨w, List.mem_filter.mpr ⟨hw, hne⟩, hsame⟩

theorem formed_specParams {params : Entries} (h : Val.Formed (.dict params)) :
    Val.Formed (.dict (specParams params)) := by
  cases h with
  | dict h hd => exact .dict (fun e he => h e (List.mem_of_mem_filter he)) (keys_specParams hd)

/-- Equal steps give tasks with equal user specs. -/
theorem FromStep.same (hB : B.Lawful) {step step' : String × Entries} {t t' : Task}
    (h : FromStep B workDir step t) (h' : FromStep B workDir step' t')
    (hkeys : (step.2.map Prod.fst).Nodup) (hsame : SameDict step.2 step'.2) :
    t'.operationType = t.operationType ∧ SameDict t.userSpec t'.userSpec := by
  have htype : t'.operationType = t.operationType := by
    rcases lookup_same hkeys hsame "operation_type" with ⟨hv, _⟩ | ⟨v, w, hv, hw, hvw⟩
    · rw [h.operationType] at hv
      cases hv
    · rw [h.operationType] at hv
      rw [h'.operationType] at hw
      cases hv
      cases hw
      have hprim : Prim.str t.operationType = .str t'.operationType := hvw
      exact (Prim.str.inj hprim).symm
  refine ⟨htype, ?_⟩
  obtain ⟨prepared, hprepared, hspec⟩ := hB.respects _ _ _ _ _ (keys_specParams hkeys)
    (sameDict_specParams hsame) h.prepared
  have hprepared' := h'.prepared
  rw [htype, hprepared] at hprepared'
  cases hprepared'
  exact hspec

/-! ### Steps -/

theorem steps_nodup (h : (stepsOf steps).Formed) : (steps.map Prod.fst).Nodup := by
  cases h with
  | dict _ hd =>
    rw [List.map_map] at hd
    exact hd

theorem formed_step (h : (stepsOf steps).Formed) {step : String × Entries} (hs : step ∈ steps) :
    Val.Formed (.dict step.2) := by
  cases h with
  | dict h _ => exact h _ (List.mem_map_of_mem hs)

theorem nodup_of_formed {es : Entries} (h : Val.Formed (.dict es)) : (es.map Prod.fst).Nodup := by
  cases h with
  | dict _ hd => exact hd

theorem same_steps (h' : (stepsOf steps').Formed) (hsame : (stepsOf steps).Same (stepsOf steps'))
    {step step' : String × Entries} (hs : step ∈ steps) (hs' : step' ∈ steps')
    (hkey : step.1 = step'.1) : SameDict step.2 step'.2 := by
  obtain ⟨_, hentries⟩ := hsame
  rw [Val.sameEntries_iff] at hentries
  obtain ⟨w, hw, hvw⟩ := hentries _ (List.mem_map_of_mem hs)
  have heq : (step.1, w) = (step'.1, Val.dict step'.2) :=
    List.inj_on_of_nodup_map (nodup_of_formed h') hw (List.mem_map_of_mem hs') hkey
  cases (Prod.mk.inj heq).2
  exact hvw

theorem formed_tasks (hforms : B.Forms) (h : (stepsOf steps).Formed)
    (hd : Dag.fromSpecConf B steps workDir = .ok d) :
    ∀ t ∈ d.tasks, Val.Formed (.dict t.userSpec) := by
  intro t ht
  obtain ⟨step, hstep, hfrom⟩ := step_of_task hd ht
  exact hforms _ _ _ _ (formed_specParams (formed_step h hstep)) hfrom.prepared

/-- Tasks of equal specs with one id are equal. -/
theorem same_tasks (hB : B.Lawful) (h : (stepsOf steps).Formed) (h' : (stepsOf steps').Formed)
    (hsame : (stepsOf steps).Same (stepsOf steps')) (hd : Dag.fromSpecConf B steps workDir = .ok d)
    (hd' : Dag.fromSpecConf B steps' workDir = .ok d') {t t' : Task} (ht : t ∈ d.tasks)
    (ht' : t' ∈ d'.tasks) (hid : t.taskId = t'.taskId) :
    t'.operationType = t.operationType ∧ SameDict t.userSpec t'.userSpec := by
  obtain ⟨step, hstep, hfrom⟩ := step_of_task hd ht
  obtain ⟨step', hstep', hfrom'⟩ := step_of_task hd' ht'
  have hkey : step.1 = step'.1 := by rw [← hfrom.taskId, hid, hfrom'.taskId]
  exact hfrom.same hB hfrom' (nodup_of_formed (formed_step h hstep))
    (same_steps h' hsame hstep hstep' hkey)

end Dags

/-! ### The law -/

open Dags

theorem formed_catSpec : (stepsOf catSpec).Formed := by
  have hpath : ∀ s : String, Val.Formed (.list [.prim (.str s)]) := by
    intro s
    refine .list ?_
    simp only [List.forall_mem_cons]
    exact ⟨.prim _, List.forall_mem_nil _⟩
  have hpair : ∀ {p q : Prim}, ∀ x ∈ [Val.prim p, .prim q], x.Formed := by
    intro p q
    simp only [List.forall_mem_cons]
    exact ⟨.prim _, .prim _, List.forall_mem_nil _⟩
  have hlimits : Val.Formed (.dict [("__var", .tuple [.prim (.int 1), .prim .null]),
      ("__type", .set [.prim (.str "b"), .prim (.str "a")])]) := by
    refine .dict ?_ (by decide)
    simp only [List.forall_mem_cons]
    exact ⟨.tuple hpair, .set hpair (by decide) (by decide), List.forall_mem_nil _⟩
  refine .dict ?_ (by decide)
  simp only [catSpec, List.map_cons, List.map_nil, List.forall_mem_cons]
  refine ⟨.dict ?_ (by decide), .dict ?_ (by decide), List.forall_mem_nil _⟩
  · simp only [List.forall_mem_cons]
    exact ⟨.prim _, hpath _, hpath _, hlimits, List.forall_mem_nil _⟩
  · simp only [List.forall_mem_cons]
    exact ⟨hpath _, hpath _, .prim _, .timedelta _, List.forall_mem_nil _⟩

theorem same_reverse (steps : List (String × Entries)) :
    (stepsOf steps).Same (stepsOf steps.reverse) := by
  refine ⟨?_, Val.sameEntries_iff.mpr fun e he => ⟨e.2, ?_, Val.same_refl e.2⟩⟩
  · rw [List.map_reverse, List.map_reverse]
    exact (List.reverse_perm _).symm
  · rw [List.map_reverse, List.mem_reverse]
    exact he

theorem mapBuilder_forms : mapBuilder.Forms := by
  intro _ _ spec prepared h hprep
  rw [mapBuilder] at hprep
  simp only at hprep
  split_ifs at hprep
  cases hprep
  exact h

/-- The DAG of the steps in the other order. -/
def catDagReversed : Dags.Dag := { catDag with tasks := catDag.tasks.reverse }

theorem catDagReversed_eq :
    Dags.Dag.fromSpecConf mapBuilder catSpec.reverse "//home" = .ok catDagReversed := rfl

theorem formed_catSpec_reverse : (stepsOf catSpec.reverse).Formed := by
  have hformed := formed_catSpec
  cases hformed with
  | dict h hd =>
    rw [stepsOf, List.map_reverse]
    refine .dict (fun e he => h e (List.mem_reverse.mp he)) ?_
    rw [List.map_reverse]
    exact List.nodup_reverse.mpr hd

/-- Equal specs whose DAGs have different payloads. -/
structure PayloadsDiffer (B : Builders) (workDir : String) (steps steps' : List (String × Entries)) :
    Prop where
  formed : (stepsOf steps).Formed
  formed' : (stepsOf steps').Formed
  same : (stepsOf steps).Same (stepsOf steps')
  differ : ∃ d d' repr repr', Dags.Dag.fromSpecConf B steps workDir = .ok d ∧
    Dags.Dag.fromSpecConf B steps' workDir = .ok d' ∧ d.toSerializedRepr = some repr ∧
    d'.toSerializedRepr = some repr' ∧ repr ≠ repr'

/-- One step with a set in its spec. -/
def kindsSpec (kinds : List Val) : List (String × Entries) :=
  [("cat",
    [("operation_type", .prim (.str "map")), ("input_table_paths", .list []),
      ("output_table_paths", .list []), ("kinds", .set kinds)])]

def kindsDag (kinds : List Val) : Dags.Dag where
  dagId := none
  workDir := "//home"
  tasks :=
    [⟨"cat", none, "map",
      [("input_table_paths", .list []), ("output_table_paths", .list []), ("kinds", .set kinds)],
      ∅, ∅⟩]

theorem kindsDag_eq (kinds : List Val) :
    Dags.Dag.fromSpecConf mapBuilder (kindsSpec kinds) "//home" = .ok (kindsDag kinds) := rfl

theorem formed_kindsSpec {kinds : List Val} (h : (Val.set kinds).Formed) :
    (stepsOf (kindsSpec kinds)).Formed := by
  have hnil : (Val.list []).Formed := .list (List.forall_mem_nil _)
  refine .dict ?_ (List.nodup_singleton _)
  have hkeys : ["operation_type", "input_table_paths", "output_table_paths", "kinds"].Nodup := by
    decide
  simp only [kindsSpec, List.map_cons, List.map_nil, List.forall_mem_cons]
  refine ⟨.dict ?_ hkeys, List.forall_mem_nil _⟩
  simp only [List.forall_mem_cons]
  exact ⟨.prim _, hnil, hnil, h, List.forall_mem_nil _⟩

theorem formed_kindsDag {kinds : List Val} (h : (Val.set kinds).Formed) :
    ∀ t ∈ (kindsDag kinds).tasks, Val.Formed (.dict t.userSpec) :=
  formed_tasks mapBuilder_forms (formed_kindsSpec h) (kindsDag_eq kinds)

theorem sameDict_set (es : Entries) (k : String) {xs ys : List Val} (h : xs.Perm ys) :
    SameDict (es ++ [(k, .set xs)]) (es ++ [(k, .set ys)]) := by
  refine ⟨?_, Val.sameEntries_iff.mpr fun e he => ?_⟩
  · rw [List.map_append, List.map_append]
    exact .refl _
  · rcases List.mem_append.mp he with he | he
    · exact ⟨e.2, List.mem_append_left _ he, Val.same_refl e.2⟩
    · rcases List.mem_singleton.mp he with rfl
      exact ⟨.set ys, List.mem_append_right _ (List.mem_singleton_self _), h⟩

theorem same_kindsSpec {kinds kinds' : List Val} (h : kinds.Perm kinds') :
    (stepsOf (kindsSpec kinds)).Same (stepsOf (kindsSpec kinds')) := by
  refine ⟨.refl _, Val.sameEntries_iff.mpr fun e he => ?_⟩
  rcases List.mem_singleton.mp he with rfl
  exact ⟨_, List.mem_singleton_self _, sameDict_set [_, _, _] "kinds" h⟩

end YtScheduler
