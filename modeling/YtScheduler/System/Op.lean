import Mathlib.Logic.Function.Basic
import YtScheduler.System.Memory
import YtScheduler.Threads.Machine

/-! The operations of a thread. A statement goes through a client and takes part in
the transaction opened last on that client, if there is one: it reads that
transaction's snapshot and adds to its writes. Any other statement reads the
current tables or commits on its own. A commit fails when a row it writes was
changed since the transaction began. What YT and the machine decide (failures, time,
the state of an operation, the shard) is the choice of the step. -/

namespace YtScheduler

open Tablet Threads

inductive OperationState
  | running | completed | failed
  deriving DecidableEq

namespace OperationState

def isFinished (st : OperationState) : Bool := st ≠ .running

def isUnsuccessfullyFinished (st : OperationState) : Bool := st = .failed

end OperationState

/-- What the environment decides about one call. -/
structure Choice where
  fail : Option Exn := none
  pick : ℕ := 0
  status : OperationState := .running
  shard : ShardingOptions := ⟨0, 1, 1⟩

/-- The private state of a thread: the snapshots its selects read, newest first. -/
structure Loc where
  reads : List ℕ := []

/-- `opened c` are the transactions opened on client `c` with the threads that opened
them, newest first. The uuids below `uuids` are in use, and `dags` is what the serialized
DAGs deserialize to. -/
structure Shared where
  store : Store Row
  opened : Client → List (ℕ × Tx Row) := fun _ => []
  clock : ℕ := 0
  uuids : ℕ := 0
  operations : List (OperationId × Uuid) := []
  dags : List Dag := []
  engine : Engine := default
  mem : Mem := {}

namespace Shared

variable (s : Shared)

/-- The current contents of all tables. -/
abbrev db : Db := s.store.current

def dag? (dagId : Uuid) : Option Dag := s.dags.find? (·.dagId = dagId)

theorem dagId_of_dag? {dagId : Uuid} {dag : Dag} (h : s.dag? dagId = some dag) :
    dag.dagId = dagId := by
  simpa using List.find?_some (p := fun dag : Dag => decide (dag.dagId = dagId)) h

variable {s} in
theorem mem_of_dag? {dagId : Uuid} {dag : Dag} (h : s.dag? dagId = some dag) : dag ∈ s.dags :=
  List.mem_of_find?_eq_some h

/-- No task id holds a quote or a backslash. -/
def PlainDags : Prop := ∀ dag ∈ s.dags, dag.Plain

instance : Decidable s.PlainDags := inferInstanceAs (Decidable (∀ dag ∈ s.dags, dag.Plain))

/-- The tables that a select through `c` reads, and their timestamp. -/
def snapshot (c : Client) : ℕ :=
  match s.opened c with
  | [] => s.store.now
  | (_, tx) :: _ => tx.start

def beginTx (i : ℕ) (c : Client) : Shared :=
  { s with opened := Function.update s.opened c ((i, ⟨s.store.now, []⟩) :: s.opened c) }

/-- The transaction that thread `i` opened last on `c`. -/
def tx? (i : ℕ) (c : Client) : Option (Tx Row) :=
  ((s.opened c).find? (·.1 = i)).map Prod.snd

def endTx (i : ℕ) (c : Client) : Shared :=
  { s with opened := Function.update s.opened c ((s.opened c).eraseP (·.1 = i)) }

def commit (c : Commit Row) : Shared := { s with store := s.store.append c }

/-- An insert through `c` by thread `i`. -/
def insert (i : ℕ) (c : Client) (rows : List Row) : Shared :=
  match s.opened c with
  | [] => s.commit ⟨i, false, s.store.now, rows⟩
  | (j, tx) :: txs =>
    { s with opened := Function.update s.opened c ((j, ⟨tx.start, tx.writes ++ rows⟩) :: txs) }

section Ends

variable {s} {i : ℕ} {c : Client} {tx : Tx Row}

theorem tx?_of_opened (h : s.opened c = [(i, tx)]) : s.tx? i c = some tx := by simp [tx?, h]

theorem opened_endTx (h : s.opened c = [(i, tx)]) : (s.endTx i c).opened c = [] := by simp [endTx, h]

theorem endTx_other {j : ℕ} (hj : j ≠ i) :
    (s.endTx i (.thread i)).opened (.thread j) = s.opened (.thread j) := by
  simp [endTx, hj]

theorem endTx_global : (s.endTx i (.thread i)).opened .global = s.opened .global := by simp [endTx]

end Ends

end Shared

inductive Op
  | beginTx (ytClient : Option Client)
  | commitTx (ytClient : Option Client)
  | abortTx (ytClient : Option Client)
  | select (ytClient : Option Client) (q : Query)
  | insert (ytClient : Option Client) (rows : List Row)
  | contextClient
  | now
  | generateUuid
  | shardOptions
  | attemptTooRecent
  | deserializeDag (dagId : Uuid)
  | loadTask (dagId : Uuid) (taskId : String)
  | runOperation (mutationId : Uuid)
  | getOperationState (operation : Option OperationId)
  | abortOperation (operation : Option OperationId)
  | mem (o : MemOp)

namespace Op

@[reducible] def Ret : Op → Type
  | select _ q => q.Out
  | contextClient => Client
  | now => ℕ
  | generateUuid => Uuid
  | shardOptions => ShardingOptions
  | attemptTooRecent => Bool
  | deserializeDag _ => Dag
  | loadTask _ _ => Option Task
  | runOperation _ => OperationId
  | getOperationState _ => OperationState
  | mem o => o.Ret
  | _ => Unit

/-- `with_yt_client`: the client passed explicitly, or the one of the thread's context. -/
def resolve (ytClient : Option Client) (i : ℕ) : Client := ytClient.getD (.thread i)

/-- One call of thread `i`. -/
def exec (o : Op) (i : ℕ) (ch : Choice) (l : Loc) (s : Shared) : Except Exn o.Ret × Loc × Shared :=
  match o with
  | .beginTx c =>
    match ch.fail with
    | some e => (.error e, l, s)
    | none => (.ok (), l, s.beginTx i (resolve c i))
  | .commitTx c =>
    match s.tx? i (resolve c i) with
    | none => (.error .runtime, l, s)
    | some tx =>
      let s' := s.endTx i (resolve c i)
      match ch.fail with
      | some e => (.error e, l, s')
      | none =>
        if tx.writes = [] then (.ok (), l, s')
        else if s.store.Conflict tx.start tx.writes then (.error .lockConflict, l, s')
        else (.ok (), l, s'.commit ⟨i, true, tx.start, tx.writes⟩)
  | .abortTx c => (.ok (), l, s.endTx i (resolve c i))
  | .select c q =>
    match ch.fail with
    | some e => (.error e, l, s)
    | none =>
      if q.fails s.engine then (.error .runtime, l, s)
      else
        let ts := s.snapshot (resolve c i)
        (.ok (q.eval s.engine (s.store.asOf ts)), { l with reads := ts :: l.reads }, s)
  | .insert c rows =>
    match ch.fail with
    | some e => (.error e, l, s)
    | none => (.ok (), l, s.insert i (resolve c i) rows)
  | .contextClient => (.ok (.thread i), l, s)
  | .now => (.ok s.clock, l, { s with clock := s.clock + 1 })
  | .generateUuid => (.ok s.uuids, l, { s with uuids := s.uuids + 1 })
  | .shardOptions => (.ok ch.shard, l, s)
  | .attemptTooRecent => (.ok (ch.pick ≠ 0), l, s)
  | .deserializeDag dagId =>
    match ch.fail, s.dag? dagId with
    | none, some dag => (.ok dag, l, s)
    | _, _ => (.error .dagInitialization, l, s)
  -- `TaskRefClient.get` and `Task.from_serialized_repr`; `pick` decides whether a row exists
  | .loadTask dagId taskId =>
    match ch.fail with
    | some e => (.error e, l, s)
    | none => (.ok (if ch.pick = 0 then (s.dag? dagId).bind (·.task? taskId) else none), l, s)
  | .runOperation mutationId =>
    match ch.fail with
    | some e => (.error e, l, s)
    | none => (.ok ch.pick, l, { s with operations := (ch.pick, mutationId) :: s.operations })
  | .getOperationState _ =>
    match ch.fail with
    | some e => (.error e, l, s)
    | none => (.ok ch.status, l, s)
  | .abortOperation _ =>
    match ch.fail with
    | some e => (.error e, l, s)
    | none => (.ok (), l, s)
  | .mem o => ((s.mem.exec i ch.pick o).1, l, { s with mem := (s.mem.exec i ch.pick o).2 })

/-- The tables change only by an insert outside a transaction or by a commit. -/
theorem exec_store (o : Op) (i : ℕ) (ch : Choice) (l : Loc) (s : Shared) :
    (o.exec i ch l s).2.2.store = s.store ∨
    (∃ c rows, o = .insert c rows ∧ ch.fail = none ∧ s.opened (resolve c i) = [] ∧
      (o.exec i ch l s).2.2.store = s.store.append ⟨i, false, s.store.now, rows⟩) ∨
    ∃ c tx, o = .commitTx c ∧ ch.fail = none ∧ s.tx? i (resolve c i) = some tx ∧ tx.writes ≠ [] ∧
      ¬s.store.Conflict tx.start tx.writes ∧
      (o.exec i ch l s).2.2.store = s.store.append ⟨i, true, tx.start, tx.writes⟩ := by
  cases o with
  | insert c rows =>
    cases hf : ch.fail with
    | some e => exact Or.inl (by simp [exec, hf])
    | none =>
      cases hop : s.opened (resolve c i) with
      | nil =>
        exact Or.inr (Or.inl ⟨c, rows, rfl, rfl, hop, by
          simp [exec, hf, Shared.insert, hop, Shared.commit]⟩)
      | cons x txs => exact Or.inl (by simp [exec, hf, Shared.insert, hop])
  | commitTx c =>
    cases htx : s.tx? i (resolve c i) with
    | none => exact Or.inl (by simp [exec, htx])
    | some tx =>
      cases hf : ch.fail with
      | some e => exact Or.inl (by simp [exec, htx, hf, Shared.endTx])
      | none =>
        by_cases hw : tx.writes = []
        · exact Or.inl (by simp [exec, htx, hf, hw, Shared.endTx])
        · by_cases hc : s.store.Conflict tx.start tx.writes
          · exact Or.inl (by simp [exec, htx, hf, hw, hc, Shared.endTx])
          · exact Or.inr (Or.inr ⟨c, tx, rfl, rfl, htx, hw, hc, by
              simp [exec, htx, hf, hw, hc, Shared.endTx, Shared.commit]⟩)
  | _ => exact Or.inl (by first | rfl | (simp only [exec]; (repeat' split) <;> rfl))

/-- A transaction that is open after a call was open before, or was just opened, unless the call
wrote into one. -/
theorem exec_opened {o : Op} {i : ℕ} {ch : Choice} {l : Loc} {s : Shared} {c : Client} {x : ℕ × Tx Row}
    (hwrites : ∀ c rows, o = .insert c rows → ch.fail ≠ none ∨ s.opened (resolve c i) = [])
    (h : x ∈ (o.exec i ch l s).2.2.opened c) : x ∈ s.opened c ∨ x = (i, ⟨s.store.now, []⟩) := by
  have hended : ∀ c', x ∈ (s.endTx i c').opened c → x ∈ s.opened c := by
    intro c' hx
    have hx : x ∈ Function.update s.opened c' ((s.opened c').eraseP (·.1 = i)) c := hx
    by_cases hc : c = c'
    · rw [hc, Function.update_self] at hx
      rw [hc]
      exact List.mem_of_mem_eraseP hx
    · rwa [Function.update_of_ne hc] at hx
  cases o with
  | beginTx c' =>
    simp only [exec] at h
    split at h
    · exact Or.inl h
    · have h : x ∈ Function.update s.opened (resolve c' i)
          ((i, ⟨s.store.now, []⟩) :: s.opened (resolve c' i)) c := h
      by_cases hc : c = resolve c' i
      · rw [hc, Function.update_self] at h
        rw [hc]
        exact (List.mem_cons.mp h).symm
      · rw [Function.update_of_ne hc] at h
        exact Or.inl h
  | commitTx c' =>
    simp only [exec] at h
    repeat' split at h
    all_goals first | exact Or.inl h | exact Or.inl (hended _ h)
  | abortTx c' => exact Or.inl (hended _ h)
  | insert c' rows =>
    simp only [exec] at h
    split at h
    · exact Or.inl h
    · rename_i hok
      have hclosed := (hwrites c' rows rfl).resolve_left fun hfail => hfail hok
      rw [Shared.insert, hclosed] at h
      exact Or.inl h
  | _ => exact Or.inl (by first | exact h | (simp only [exec] at h; (repeat' split at h) <;> exact h))

/-- Only a select changes the private state. -/
theorem exec_loc {o : Op} (ho : ∀ c q, o ≠ .select c q) (i : ℕ) (ch : Choice) (l : Loc) (s : Shared) :
    (o.exec i ch l s).2.1 = l := by
  cases o with
  | select c q => exact absurd rfl (ho c q)
  | _ => first | rfl | (simp only [exec]; (repeat' split) <;> rfl)

/-- The client on which a call opens or ends a transaction, or through which it writes. -/
def touches (i : ℕ) : Op → Option Client
  | .beginTx c | .commitTx c | .abortTx c | .insert c _ => some (resolve c i)
  | _ => none

/-- The transactions of other clients stay. -/
theorem exec_opened_of_ne {o : Op} {i : ℕ} {c : Client} (h : o.touches i ≠ some c) (ch : Choice)
    (l : Loc) (s : Shared) : (o.exec i ch l s).2.2.opened c = s.opened c := by
  have hupdate : ∀ {c' txs}, some c' ≠ some c → Function.update s.opened c' txs c = s.opened c :=
    fun hne => Function.update_of_ne (fun he => hne (congrArg some he.symm)) _ _
  cases o with
  | beginTx c' | commitTx c' | abortTx c' =>
    simp only [exec]
    repeat' split
    all_goals first | rfl | exact hupdate h
  | insert c' rows =>
    simp only [exec]
    split
    · rfl
    · unfold Shared.insert
      split
      · rfl
      · exact hupdate h
  | _ => first | rfl | (simp only [exec]; (repeat' split) <;> rfl)

/-- Transactions of the global client or of the client of the thread, and writes through the
latter. -/
def Own : Op → Prop
  | .beginTx c | .commitTx c | .abortTx c => c = none ∨ c = some .global
  | .insert c _ => c = none
  | _ => True

theorem Own.touches {o : Op} (h : o.Own) {i : ℕ} {c : Client} (hc : o.touches i = some c) :
    c = .thread i ∨ c = .global ∧ ∀ c' rows, o ≠ .insert c' rows := by
  cases o with
  | beginTx c' | commitTx c' | abortTx c' =>
    cases hc
    rcases h with rfl | rfl
    · exact Or.inl rfl
    · exact Or.inr ⟨rfl, nofun⟩
  | insert c' rows =>
    cases hc
    obtain rfl : c' = none := h
    exact Or.inl rfl
  | _ => cases hc

/-- What the transactions of the global client have written stays nothing. -/
theorem Own.unwritten {o : Op} {i : ℕ} {s : Shared} (ho : o.Own)
    (h : ∀ x ∈ s.opened .global, x.2.writes = []) (ch : Choice) (l : Loc) :
    ∀ x ∈ (o.exec i ch l s).2.2.opened .global, x.2.writes = [] := by
  intro x hx
  by_cases ht : o.touches i = some .global
  · have hinsert := (ho.touches ht).resolve_left nofun
    rcases exec_opened (fun c rows he => absurd he (hinsert.2 c rows)) hx with hx | rfl
    · exact h x hx
    · rfl
  · rw [exec_opened_of_ne ht] at hx
    exact h x hx

/-- Transactions are opened on the global client, and writes go through the client of the thread. -/
def Apart : Op → Prop
  | .beginTx c | .commitTx c | .abortTx c => c = some .global
  | .insert c _ => c = none
  | _ => True

/-- The DAGs that the serialized ones stand for stay. -/
theorem exec_dags (o : Op) (i : ℕ) (ch : Choice) (l : Loc) (s : Shared) :
    (o.exec i ch l s).2.2.dags = s.dags := by
  cases o with
  | insert c rows =>
    simp only [exec]
    split
    · rfl
    · unfold Shared.insert
      split <;> rfl
  | _ => first | rfl | (simp only [exec]; (repeat' split) <;> rfl)

theorem exec_engine (o : Op) (i : ℕ) (ch : Choice) (l : Loc) (s : Shared) :
    (o.exec i ch l s).2.2.engine = s.engine := by
  cases o with
  | insert c rows =>
    simp only [exec]
    split
    · rfl
    · unfold Shared.insert
      split <;> rfl
  | _ => first | rfl | (simp only [exec]; (repeat' split) <;> rfl)

/-- Only an access to the memory changes it. -/
theorem exec_mem {o : Op} (ho : ∀ a, o ≠ .mem a) (i : ℕ) (ch : Choice) (l : Loc) (s : Shared) :
    (o.exec i ch l s).2.2.mem = s.mem := by
  cases o with
  | mem a => exact absurd rfl (ho a)
  | insert c rows =>
    simp only [exec]
    split
    · rfl
    · unfold Shared.insert
      split <;> rfl
  | _ => first | rfl | (simp only [exec]; (repeat' split) <;> rfl)

/-- Only a reading of the clock moves it. -/
theorem exec_clock {o : Op} (ho : o ≠ .now) (i : ℕ) (ch : Choice) (l : Loc) (s : Shared) :
    (o.exec i ch l s).2.2.clock = s.clock := by
  cases o with
  | now => exact absurd rfl ho
  | insert c rows =>
    simp only [exec]
    split
    · rfl
    · unfold Shared.insert
      split <;> rfl
  | _ => first | rfl | (simp only [exec]; (repeat' split) <;> rfl)

end Op

/-- No transactions are open but some of the global client, and those have written nothing. -/
structure Shared.Apart (s : Shared) : Prop where
  closed : ∀ j, s.opened (.thread j) = []
  unwritten : ∀ x ∈ s.opened .global, x.2.writes = []

theorem Op.Apart.own {o : Op} (h : o.Apart) : o.Own := by
  cases o with
  | beginTx c | commitTx c | abortTx c => exact Or.inr h
  | insert c rows => exact h
  | _ => trivial

/-- The client of a thread keeps having no transaction. -/
theorem Op.Apart.closed {o : Op} (ho : o.Apart) {i : ℕ} {s : Shared} (h : s.opened (.thread i) = [])
    (ch : Choice) (l : Loc) : (o.exec i ch l s).2.2.opened (.thread i) = [] := by
  cases o with
  | beginTx c | commitTx c | abortTx c =>
    obtain rfl : c = some .global := ho
    exact (Op.exec_opened_of_ne (by simp [Op.touches, Op.resolve]) ch l s).trans h
  | insert c rows =>
    obtain rfl : c = none := ho
    simp only [Op.exec]
    split
    · exact h
    · show (s.insert i (.thread i) rows).opened (.thread i) = []
      rw [Shared.insert, h]
      exact h
  | _ => exact (Op.exec_opened_of_ne (by simp [Op.touches]) ch l s).trans h

/-- The clients of the other threads stay as they are. -/
theorem Op.Own.opened_of_ne {o : Op} (ho : o.Own) {i j : ℕ} (hij : j ≠ i) (ch : Choice) (l : Loc)
    (s : Shared) : (o.exec i ch l s).2.2.opened (.thread j) = s.opened (.thread j) := by
  refine Op.exec_opened_of_ne (fun ht => ?_) ch l s
  rcases ho.touches ht with he | ⟨he, _⟩
  · cases he
    exact hij rfl
  · cases he

namespace Shared.Apart

variable {s : Shared} {o : Op} (h : s.Apart) (ho : o.Apart) (i : ℕ) (ch : Choice) (l : Loc)
include h ho

theorem exec : (o.exec i ch l s).2.2.Apart where
  closed j := by
    by_cases hij : j = i
    · subst hij
      exact ho.closed (h.closed j) ch l
    · exact (ho.own.opened_of_ne hij ch l s).trans (h.closed j)
  unwritten := ho.own.unwritten h.unwritten ch l

/-- Every commit is an insert on its own. -/
theorem store : (o.exec i ch l s).2.2.store = s.store ∨
    ∃ rows, o = .insert none rows ∧ ch.fail = none ∧
      (o.exec i ch l s).2.2.store = s.store.append ⟨i, false, s.store.now, rows⟩ := by
  rcases Op.exec_store o i ch l s with hs | ⟨c, rows, rfl, hf, _, hs⟩ | ⟨c, tx, rfl, _, htx, hw, _, _⟩
  · exact Or.inl hs
  · obtain rfl : c = none := ho
    exact Or.inr ⟨rows, rfl, hf, hs⟩
  · obtain rfl : c = some .global := ho
    obtain ⟨x, hx, rfl⟩ := Option.map_eq_some_iff.mp htx
    exact absurd (h.unwritten x (List.mem_of_find?_eq_some hx)) hw

end Shared.Apart

/-- A program of a thread. -/
abbrev P (α : Type) := Prog Op Op.Ret Exn α

namespace P

/-- One operation. -/
def call (o : Op) : P o.Ret := Prog.op o

/-- `with yt_client.Transaction(type="tablet"): body`. -/
def transaction {α : Type} (ytClient : Option Client) (body : P α) : P α := do
  call (.beginTx ytClient)
  match ← body.attempt with
  | .ok a =>
    call (.commitTx ytClient)
    pure a
  | .error e =>
    call (.abortTx ytClient)
    Prog.raise e

/-- `YtRow.upsert_rows`. -/
def upsertRows (rows : List Row) (ytClient : Option Client) : P Unit :=
  call (.insert ytClient rows)

/-- `if xs: body`. -/
def unlessEmpty {α : Type} (xs : List α) (body : P Unit) : P Unit :=
  if xs.isEmpty then pure () else body

def mem (o : MemOp) : P o.Ret := call (.mem o)

/-- `datetime.now(tz.utc).isoformat()`. -/
def nowUtc : P Iso := do
  let t ← Prog.op .now
  pure ⟨t, true⟩

/-- `datetime.utcnow().isoformat()`. -/
def utcnow : P Iso := do
  let t ← Prog.op .now
  pure ⟨t, false⟩

/-- `Retrier.run` with the given number of retries: other exceptions pass, and the last one
goes to `onExhaust`. -/
def retrier {α : Type} (exceptions : Exn → Bool) (onExhaust : Exn → P α) (fn : P α) : ℕ → P α
  | 0 => fn.catching fun e => if exceptions e then onExhaust e else .raise e
  | n + 1 => fn.catching fun e =>
      if exceptions e then retrier exceptions onExhaust fn n else .raise e

/-- `handle_exceptions` with the options of `make_transient_lock_errors_retry_options`. The
retry looks up the logger of the first positional argument, so a call without one that
has a `log` ends in an `AttributeError` instead. -/
def handleExceptions {α : Type} (hasLog : Bool) (onExhaust : Exn → P α) (fn : P α) : P α :=
  fn.catching fun e =>
    if e.transient then
      if hasLog then retrier Exn.transient onExhaust fn 2 else .raise .attributeError
    else .raise e

/-- Without a logger nothing is retried. -/
theorem uses_handleExceptions {α : Type} {Q : Op → Prop} {p : P α} {onExhaust : Exn → P α}
    (hp : p.Uses Q) : (handleExceptions false onExhaust p).Uses Q := by
  refine hp.catching fun e => ?_
  split
  · trivial
  · trivial

end P

end YtScheduler
