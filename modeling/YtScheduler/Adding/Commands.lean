import YtScheduler.System.Op

/-! Adding a DAG. `try_add_dag` looks its payload up and then either writes a DagRef, the
TaskRefs and a DagMeta in one transaction, or a DagMeta for the DagRef it found. Any
number of calls are interleaved, each on a thread of its own. -/

namespace YtScheduler

open P Threads

/-- What `try_add_dag` takes from a DAG: what `to_serialized_repr` returns, if it succeeds, and
for each task its id and what its own `to_serialized_repr` returns. -/
structure AddedDag where
  serialized : Option (String × String)
  tasks : List (String × String × String)

/-- `DagRefClient.get(payload_hash=payload_hash)`. -/
def DagRefClient.get (payloadHash : String) : P (Option DagRefRow) :=
  handleExceptions false (fun _ => pure none) do
    let rows ← call (.select none (.dagRefsOfPayload payloadHash))
    pure rows.head?

namespace Commands

/-- `DagMeta(dag_id=dag_id)`. -/
def newDagMeta (dagId : Uuid) : P DagMetaRow := do
  let id ← call .generateUuid
  let now ← nowUtc
  pure { id, dagId, createdAt := now }

/-- The `task_refs` of the call. -/
def newTaskRefs (dagId : Uuid) : List (String × String × String) → P (List TaskRefRow)
  | [] => pure []
  | (taskId, serializedRepr, payloadHash) :: tasks => do
    let now ← nowUtc
    let rest ← newTaskRefs dagId tasks
    pure ({ dagId, taskId, serializedRepr, payloadHash, createdAt := now } :: rest)

def createRefsMetaAtomic (dagRef : DagRefRow) (taskRefs : List TaskRefRow) (row : DagMetaRow) :
    P Unit :=
  transaction none do
    upsertRows [.dagRef dagRef] none
    upsertRows (taskRefs.map .taskRef) none
    upsertRows [.dagMeta row] none

/-- The two wrapped writes are called without a positional argument. -/
def tryAddDag (dag : AddedDag) : P (Bool × Uuid × Uuid) :=
  match dag.serialized with
  | none => Prog.raise .dagInitialization
  | some (serializedRepr, payloadHash) => do
    let found ← DagRefClient.get payloadHash
    let dagId ← match found with
      | some ref => pure ref.dagId
      | none => call .generateUuid
    let row ← newDagMeta dagId
    match found with
    | none => do
      let now ← nowUtc
      let taskRefs ← newTaskRefs dagId dag.tasks
      handleExceptions false Prog.raise
        (createRefsMetaAtomic { dagId, serializedRepr, payloadHash, createdAt := now } taskRefs row)
      pure (true, dagId, row.id)
    | some _ => do
      handleExceptions false Prog.raise (upsertRows [.dagMeta row] none)
      pure (false, dagId, row.id)

end Commands

/-- The private state of a call: its payload hash and the uuids it has generated, newest first. -/
structure AddLoc where
  payloadHash : String
  loc : Loc := {}
  uuids : List Uuid := []

/-- The private state after a call. -/
def AddLoc.after (l : AddLoc) (o : Op) (s : Shared) (loc : Loc) : AddLoc :=
  { l with
    loc
    uuids := match o with
      | .generateUuid => s.uuids :: l.uuids
      | _ => l.uuids }

/-- Calls of `try_add_dag` on shared tables. -/
def adding : Machine Op Op.Ret Exn AddLoc Shared Choice AddedDag (Bool × Uuid × Uuid) where
  exec o i ch l s := ((o.exec i ch l.loc s).1, l.after o s (o.exec i ch l.loc s).2.1,
    (o.exec i ch l.loc s).2.2)
  start dag _ := ({ payloadHash := (dag.serialized.map Prod.snd).getD "" }, Commands.tryAddDag dag)

abbrev AddState := Sys Op Op.Ret Exn AddLoc Shared (Bool × Uuid × Uuid)

abbrev AddStep := Action Choice AddedDag

end YtScheduler
