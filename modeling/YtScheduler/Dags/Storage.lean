import YtScheduler.Dags.Tasks
import YtScheduler.Serialization.RoundTrip
import YtScheduler.Tablet.Table

/-! DAGs and tasks in storage. The fields of a task are serialized, the task as a whole
is serialized again with the text it becomes, and what is read back is decoded field
by field. Relations are not stored: they are resolved again. -/

namespace YtScheduler.Dags

open Serialization Tablet

instance : Keyed Task String := ⟨Task.taskId⟩

/-! ### Serializing -/

/-- An encoded field without its type. -/
def unwrap : Val → Val
  | .dict es =>
    match es.lookup "__type", es.lookup "__var" with
    | some _, some x => x
    | _, _ => .dict es
  | v => v

/-- `_is_excluded`, for fields. -/
def isExcluded : Val → Bool
  | .prim .null => true
  | _ => false

/-- `serialize_to_json` of an object with these fields. -/
def serializeToJson (decorated : List String) (fields : Entries) : Entries :=
  (fields.filter fun e => !isExcluded e.2).map fun e =>
    (e.1, if e.1 ∈ decorated then e.2.serialize else unwrap e.2.serialize)

namespace Task

/-- The `_serialize_fields` of a task. -/
def fields (t : Task) : Entries :=
  [("task_id", .prim (.str t.taskId)), ("operation_type", .prim (.str t.operationType)),
    ("spec_builder._user_spec", .dict t.userSpec)]

def serializeOperator (t : Task) : Entries := serializeToJson [] t.fields

/-- `Task.to_serialized_repr`, without the hash. -/
def toSerializedRepr (t : Task) : Option Json := Json.dumps (Val.dict t.serializeOperator).serialize

end Task

namespace Dag

def serializeDag (dag : Dag) : Entries :=
  serializeToJson ["defaults_args"] [("work_dir", .prim (.str dag.workDir))] ++
    [("tasks", .list (dag.tasks.map fun t => Val.encode (.dict t.serializeOperator) .op))]

/-- `DAG.to_serialized_repr`, without the hash. -/
def toSerializedRepr (dag : Dag) : Option Json := Json.dumps (Val.dict dag.serializeDag).serialize

end Dag

/-! ### Deserializing -/

section Deserialize

variable (B : Builders) (iso : String → Except PyError ℤ)

/-- `deserialize_operator`. A task has to have an id that is a string. -/
def Task.deserializeOperator (encoded : Entries) : Except PyError Task :=
  match encoded.lookup "spec_builder._user_spec", encoded.lookup "task_id" with
  | some (.dict spec), some (.prim (.str taskId)) =>
    match Val.deserializeEntries iso spec with
    | .error e => .error e
    | .ok userSpec =>
      match encoded.lookup "operation_type" with
      | some (.prim (.str operationType)) =>
        if B.known operationType then
          .ok
            { taskId, dagId := none, operationType, userSpec
              precedingTaskIds := ∅, succeedingTaskIds := ∅ }
        else .error .runtimeError
      | _ => .error .runtimeError
  | _, _ => .error .attributeError

/-- The tasks of `deserialize_dag`, by task id. -/
def tasksFromEncoded (dagId : Uuid) : List Val → List Task → Except PyError (List Task)
  | [], tasks => .ok tasks
  | .dict obj :: objs, tasks =>
    if (obj.lookup "__type").bind Val.text? = some AttrTypes.op.value then
      match obj.lookup "__var" with
      | some (.dict encoded) =>
        match Task.deserializeOperator B iso encoded with
        | .error e => .error e
        | .ok t => tasksFromEncoded dagId objs (Table.put { t with dagId := some dagId } tasks)
      | some _ => .error .attributeError
      | none => .error .keyError
    else tasksFromEncoded dagId objs tasks
  | _ :: _, _ => .error .attributeError

/-- `deserialize_dag`. -/
def Dag.deserializeDag (encoded : Entries) (dagId : Uuid) : Except PyError Dag :=
  match encoded.lookup "tasks", encoded.lookup "work_dir" with
  | some (.list objs), some (.prim (.str workDir)) =>
    (tasksFromEncoded B iso dagId objs []).map fun tasks => ⟨some dagId, workDir, tasks⟩
  | _, _ => .error .attributeError

/-- `SerializedObject.from_json`, of an object. -/
def fromJson (repr : Json) : Except PyError Entries :=
  match Val.deserialize iso (Json.loads repr) with
  | .ok (.dict es) => .ok es
  | .ok _ => .error .attributeError
  | .error e => .error e

/-- `Task.from_serialized_repr`, before the exception is wrapped. -/
def Task.fromSerializedRepr (repr : Json) : Except PyError Task :=
  (fromJson iso repr).bind (Task.deserializeOperator B iso)

/-- The loop of `from_serialized_repr` that prepares the tables. -/
def prepareTasks (workDir : String) : List Task → Except PyError (List Task)
  | [] => .ok []
  | t :: ts =>
    match t.prepareUserSpec B workDir with
    | .ok t' => (prepareTasks workDir ts).map (t' :: ·)
    | .error e => .error e

/-- `DAG.from_serialized_repr`. -/
def Dag.fromSerializedRepr (repr : Json) (dagId : Uuid) : Except DagError Dag :=
  match (fromJson iso repr).bind fun encoded => Dag.deserializeDag B iso encoded dagId with
  | .error e => .error (.deserialize dagId e)
  | .ok dag =>
    match prepareTasks B dag.workDir dag.tasks with
    | .error e => .error (.initialization dagId e)
    | .ok tasks => .ok { dag with tasks := resolveTasksDependencies B tasks }

end Deserialize

/-! ### Reading back -/

/-- What is stored is read back with its keys in order. -/
theorem fromJson_dumps {iso : String → Except PyError ℤ} {es : Entries} (h : Val.IsJson (.dict es)) :
    ∃ repr, Json.dumps (Val.dict es).serialize = some repr ∧
      fromJson iso repr = .ok ((sortKeys es).map fun e => (e.1, e.2.plain)) := by
  obtain ⟨repr, hrepr, hloads⟩ := Val.loads_dumps h.serialize
  refine ⟨repr, hrepr, ?_⟩
  rw [fromJson, hloads, Val.deserialize_plain_serialize h, Val.plain_dict]

theorem lookup_eq_some_iff {α : Type} {es : List (String × α)} (h : (es.map Prod.fst).Nodup)
    {k : String} {v : α} : es.lookup k = some v ↔ (k, v) ∈ es := by
  induction es generalizing v with
  | nil => simp
  | cons e es ih =>
    rw [List.map_cons, List.nodup_cons] at h
    obtain ⟨k', v'⟩ := e
    rw [List.lookup_cons, List.mem_cons, ← ih h.2]
    by_cases hk : k = k'
    · subst hk
      have hnone : ∀ w, es.lookup k ≠ some w := by
        intro w hw
        exact h.1 (List.mem_map.mpr ⟨(k, w), (ih h.2).mp hw, rfl⟩)
      simp [hnone, eq_comm]
    · have hbeq : (k == k') = false := by simpa using hk
      simp [hbeq, hk]

/-- A value is found in what was read back. -/
theorem lookup_stored {es : Entries} (h : (es.map Prod.fst).Nodup) {k : String} {v : Val}
    (hv : (k, v) ∈ es) :
    ((sortKeys es).map fun e => (e.1, e.2.plain)).lookup k = some v.plain := by
  have hkeys : (((sortKeys es).map fun e => (e.1, e.2.plain)).map Prod.fst).Nodup := by
    rw [List.map_map]
    exact ((perm_sortKeys es).map Prod.fst).nodup_iff.mpr h
  rw [lookup_eq_some_iff hkeys]
  exact List.mem_map.mpr ⟨_, mem_sortKeys.mpr hv, rfl⟩

/-! ### Tasks -/

section Tasks

variable {B : Builders} {iso : String → Except PyError ℤ} {t : Task}

/-- The stored fields of a task: its spec is encoded once. -/
theorem serializeOperator_eq (t : Task) :
    t.serializeOperator =
      [("task_id", .prim (.str t.taskId)), ("operation_type", .prim (.str t.operationType)),
        ("spec_builder._user_spec", .dict (Val.serializeEntries t.userSpec))] := by
  have htype : ∀ x : Val, unwrap (x.encode .dict) = x := by
    intro x
    simp [Val.encode, unwrap, List.lookup_cons]
  have hprim : ∀ p : Prim, unwrap (.prim p) = .prim p := fun _ => rfl
  simp [Task.serializeOperator, serializeToJson, Task.fields, isExcluded, Val.serialize,
    Prim.serialize, hprim, htype]

theorem keys_serializeOperator (t : Task) : (t.serializeOperator.map Prod.fst).Nodup := by
  rw [serializeOperator_eq]
  show ["task_id", "operation_type", "spec_builder._user_spec"].Nodup
  decide

theorem isJson_serializeOperator (h : Val.Formed (.dict t.userSpec)) :
    Val.IsJson (.dict t.serializeOperator) := by
  rw [serializeOperator_eq]
  refine .dict ?_
  have hstr : ∀ s : String, Val.IsJson (.prim (.str s)) := fun s => .prim rfl
  simp only [List.forall_mem_cons]
  refine ⟨hstr _, hstr _, ?_, fun _ h => nomatch h⟩
  refine .dict fun d hd => ?_
  rw [Val.serializeEntries_eq] at hd
  obtain ⟨e, he, rfl⟩ := List.mem_map.mp hd
  cases h with
  | dict hentries _ => exact (hentries e he).isJson

/-- A task as it is read from storage, with an equal user spec. -/
structure Restored (t t' : Task) : Prop where
  taskId : t'.taskId = t.taskId
  operationType : t'.operationType = t.operationType
  userSpec : SameDict t.userSpec t'.userSpec
  preceding : t'.precedingTaskIds = ∅
  succeeding : t'.succeedingTaskIds = ∅

theorem deserializeOperator_stored (hknown : B.known t.operationType = true)
    (h : Val.Storable (.dict t.userSpec)) :
    ∃ t', Task.deserializeOperator B iso
      ((sortKeys t.serializeOperator).map fun e => (e.1, e.2.plain)) = .ok t' ∧ Restored t t' := by
  have hkeys := keys_serializeOperator t
  have hspec := lookup_stored hkeys (k := "spec_builder._user_spec")
    (v := .dict (Val.serializeEntries t.userSpec)) (by rw [serializeOperator_eq]; simp)
  have hid : ((sortKeys t.serializeOperator).map fun e => (e.1, e.2.plain)).lookup "task_id" =
      some (.prim (.str t.taskId)) :=
    lookup_stored hkeys (v := .prim (.str t.taskId)) (by rw [serializeOperator_eq]; simp)
  have htype : ((sortKeys t.serializeOperator).map fun e => (e.1, e.2.plain)).lookup
      "operation_type" = some (.prim (.str t.operationType)) :=
    lookup_stored hkeys (v := .prim (.str t.operationType)) (by rw [serializeOperator_eq]; simp)
  rw [Val.plain_serializeEntries] at hspec
  cases h with
  | dict hentries _ =>
    obtain ⟨ws, hws, hR⟩ := Val.deserializeEntries_map iso (sortKeys t.userSpec)
      (f := fun x => x.serialize.plain)
      fun e he => (hentries e (mem_sortKeys.mp he)).roundTrip iso
    refine ⟨⟨t.taskId, none, t.operationType, ws, ∅, ∅⟩, ?_, rfl, rfl,
      Val.sameDict_of_forall₂ hR, rfl, rfl⟩
    rw [Task.deserializeOperator, hspec, hid, htype]
    simp only [hws, hknown, if_true]

/-- A task survives storage. -/
theorem Task.fromSerializedRepr_toSerializedRepr (hknown : B.known t.operationType = true)
    (h : Val.Storable (.dict t.userSpec)) :
    ∃ repr t', t.toSerializedRepr = some repr ∧ Task.fromSerializedRepr B iso repr = .ok t' ∧
      Restored t t' := by
  obtain ⟨repr, hrepr, hread⟩ := fromJson_dumps (isJson_serializeOperator h.built.formed)
  obtain ⟨t', ht', hrestored⟩ := deserializeOperator_stored hknown h
  refine ⟨repr, t', hrepr, ?_, hrestored⟩
  rw [Task.fromSerializedRepr, hread]
  exact ht'

end Tasks

/-! ### DAGs -/

section Dags

variable {B : Builders} {iso : String → Except PyError ℤ} {dag : Dag}

theorem serializeDag_eq (dag : Dag) :
    dag.serializeDag = [("work_dir", .prim (.str dag.workDir)),
      ("tasks", .list (dag.tasks.map fun t => Val.encode (.dict t.serializeOperator) .op))] := by
  simp [Dag.serializeDag, serializeToJson, isExcluded, Val.serialize, Prim.serialize, unwrap]

theorem isJson_serializeDag (h : ∀ t ∈ dag.tasks, Val.Formed (.dict t.userSpec)) :
    Val.IsJson (.dict dag.serializeDag) := by
  rw [serializeDag_eq]
  refine .dict ?_
  simp only [List.forall_mem_cons]
  refine ⟨.prim rfl, .list ?_, fun _ h => nomatch h⟩
  intro x hx
  obtain ⟨t, ht, rfl⟩ := List.mem_map.mp hx
  exact Val.IsJson.encode (isJson_serializeOperator (h t ht)) _

theorem tasksFromEncoded_cons (dagId : Uuid) (encoded : Entries) (objs : List Val)
    (tasks : List Task) :
    tasksFromEncoded B iso dagId (.dict [("__type", .prim (.str AttrTypes.op.value)),
        ("__var", .dict encoded)] :: objs) tasks =
      match Task.deserializeOperator B iso encoded with
      | .error e => .error e
      | .ok t => tasksFromEncoded B iso dagId objs (Table.put { t with dagId := some dagId } tasks) := by
  simp [tasksFromEncoded, List.lookup_cons, Val.text?]

/-- The stored tasks are read one after the other. -/
theorem tasksFromEncoded_stored {ts : List Task} (dagId : Uuid) (done : List Task)
    (hid : (done.map Task.taskId ++ ts.map Task.taskId).Nodup)
    (hknown : ∀ t ∈ ts, B.known t.operationType = true)
    (h : ∀ t ∈ ts, Val.Storable (.dict t.userSpec)) :
    ∃ ts', tasksFromEncoded B iso dagId
        (ts.map fun t => (Val.encode (.dict t.serializeOperator) .op).plain) done = .ok (done ++ ts') ∧
      List.Forall₂ Restored ts ts' ∧ ∀ t' ∈ ts', t'.dagId = some dagId := by
  induction ts generalizing done with
  | nil => exact ⟨[], by rw [List.append_nil]; rfl, .nil, fun _ h => nomatch h⟩
  | cons t ts ih =>
    rw [List.forall_mem_cons] at hknown h
    obtain ⟨t', ht', hrestored⟩ := deserializeOperator_stored hknown.1 h.1
    have hnew : ∀ d ∈ done, Keyed.key d ≠ Keyed.key { t' with dagId := some dagId } := by
      intro d hd he
      have hne := (List.nodup_append.mp hid).2.2 d.taskId (List.mem_map_of_mem hd) t.taskId
        List.mem_cons_self
      exact hne (he.trans hrestored.taskId)
    obtain ⟨ts', hts', hall, hdag⟩ := ih (done ++ [{ t' with dagId := some dagId }])
      (by simpa [hrestored.taskId] using hid) hknown.2 h.2
    refine ⟨{ t' with dagId := some dagId } :: ts', ?_, .cons ?_ hall, ?_⟩
    · rw [List.map_cons, Val.plain_encode, Val.plain_dict, tasksFromEncoded_cons, ht']
      show tasksFromEncoded B iso dagId _ (Table.put _ done) = _
      rw [Table.put_of_not_mem hnew, hts', List.append_assoc, List.singleton_append]
    · exact ⟨hrestored.taskId, hrestored.operationType, hrestored.userSpec, hrestored.preceding,
        hrestored.succeeding⟩
    · rw [List.forall_mem_cons]
      exact ⟨rfl, hdag⟩

variable (iso dag) in
/-- A DAG is read from storage with its tasks in their order. -/
theorem deserializeDag_stored (dagId : Uuid) (hid : dag.taskIds.Nodup)
    (hknown : ∀ t ∈ dag.tasks, B.known t.operationType = true)
    (h : ∀ t ∈ dag.tasks, Val.Storable (.dict t.userSpec)) :
    ∃ repr ts', dag.toSerializedRepr = some repr ∧
      ((fromJson iso repr).bind fun encoded => Dag.deserializeDag B iso encoded dagId) =
        .ok ⟨some dagId, dag.workDir, ts'⟩ ∧
      List.Forall₂ Restored dag.tasks ts' ∧ ∀ t' ∈ ts', t'.dagId = some dagId := by
  obtain ⟨repr, hrepr, hread⟩ := fromJson_dumps (isJson_serializeDag fun t ht => (h t ht).built.formed)
  obtain ⟨ts', hts', hall, hdag⟩ := tasksFromEncoded_stored (B := B) dagId [] hid hknown h
  refine ⟨repr, ts', hrepr, ?_, hall, hdag⟩
  have hkeys : (dag.serializeDag.map Prod.fst).Nodup := by
    rw [serializeDag_eq]
    show ["work_dir", "tasks"].Nodup
    decide
  have hwork : ((sortKeys dag.serializeDag).map fun e => (e.1, e.2.plain)).lookup "work_dir" =
      some (.prim (.str dag.workDir)) :=
    lookup_stored hkeys (v := .prim (.str dag.workDir)) (by rw [serializeDag_eq]; simp)
  have htasks := lookup_stored hkeys (k := "tasks")
    (v := .list (dag.tasks.map fun t => Val.encode (.dict t.serializeOperator) .op))
    (by rw [serializeDag_eq]; simp)
  rw [Val.plain, Val.plainList_eq, List.map_map] at htasks
  rw [hread]
  show Dag.deserializeDag B iso _ dagId = _
  rw [Dag.deserializeDag, htasks, hwork]
  show Except.map _ (tasksFromEncoded B iso dagId
    (dag.tasks.map fun t => (Val.encode (.dict t.serializeOperator) .op).plain) []) = _
  rw [hts']
  rfl

end Dags

end YtScheduler.Dags
