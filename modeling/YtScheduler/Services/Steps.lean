import YtScheduler.Services.Machine

/-! What one step of the system does to the tables: it leaves them alone, upserts rows
outside a transaction, or commits a transaction. The memory it changes by an access. -/

namespace YtScheduler

open Tablet Threads

variable {σ σ' : State} {a : Step}

/-- Thread `i` is about to make call `o`, which the environment lets succeed. -/
def Calls (σ : State) (a : Step) (i : ℕ) (o : Op) : Prop :=
  ∃ ch l k, a = .step i ch ∧ ch.fail = none ∧ σ.threads[i]? = some (l, .call o k)

/-- The step upserts rows outside a transaction. -/
def Upserts (σ : State) (a : Step) (rows : List Row) : Prop :=
  ∃ i c, Calls σ a i (.insert c rows) ∧ σ.shared.opened (Op.resolve c i) = []

/-- The step commits a transaction with writes. -/
def Commits (σ : State) (a : Step) (tx : Tx Row) : Prop :=
  ∃ i c, Calls σ a i (.commitTx c) ∧ σ.shared.tx? i (Op.resolve c i) = some tx ∧
    tx.writes ≠ [] ∧ ¬σ.shared.store.Conflict tx.start tx.writes

theorem Calls.unique {i i' : ℕ} {o o' : Op} (h : Calls σ a i o) (h' : Calls σ a i' o') :
    i = i' ∧ o = o' := by
  obtain ⟨ch, l, k, rfl, _, hth⟩ := h
  obtain ⟨ch', l', k', ha, _, hth'⟩ := h'
  cases ha
  rw [hth] at hth'
  cases hth'
  exact ⟨rfl, rfl⟩

theorem Upserts.not_commits {rows : List Row} {tx : Tx Row} (h : Upserts σ a rows) :
    ¬Commits σ a tx := by
  rintro ⟨i', c', hc', _⟩
  obtain ⟨i, c, hc, _⟩ := h
  cases (hc.unique hc').2

def upserts? (σ : State) : Step → Option (List Row)
  | .spawn _ => none
  | .step i ch =>
    match ch.fail, σ.threads[i]? with
    | none, some (_, .call (.insert c rows) _) =>
      if (σ.shared.opened (Op.resolve c i)).isEmpty then some rows else none
    | _, _ => none

def commits? (σ : State) : Step → Option (Tx Row)
  | .spawn _ => none
  | .step i ch =>
    match ch.fail, σ.threads[i]? with
    | none, some (_, .call (.commitTx c) _) =>
      (σ.shared.tx? i (Op.resolve c i)).filter fun tx =>
        tx.writes ≠ [] ∧ ¬σ.shared.store.Conflict tx.start tx.writes
    | _, _ => none

theorem mem_upserts? {rows : List Row} : rows ∈ upserts? σ a ↔ Upserts σ a rows := by
  constructor
  · intro h
    unfold upserts? at h
    split at h
    · cases h
    · split at h
      · rename_i i ch _ _ l c rows' k hf hth
        split at h
        · rename_i hop
          cases h
          exact ⟨i, c, ⟨ch, l, k, rfl, hf, hth⟩, List.isEmpty_iff.mp hop⟩
        · cases h
      · cases h
  · rintro ⟨i, c, ⟨ch, l, k, rfl, hf, hth⟩, hop⟩
    simp [upserts?, hf, hth, hop]

theorem mem_commits? {tx : Tx Row} : tx ∈ commits? σ a ↔ Commits σ a tx := by
  constructor
  · intro h
    unfold commits? at h
    split at h
    · cases h
    · split at h
      · rename_i i ch _ _ l c k hf hth
        obtain ⟨htx, hok⟩ := Option.filter_eq_some_iff.mp h
        simp only [decide_eq_true_eq] at hok
        exact ⟨i, c, ⟨ch, l, k, rfl, hf, hth⟩, htx, hok.1, hok.2⟩
      · cases h
  · rintro ⟨i, c, ⟨ch, l, k, rfl, hf, hth⟩, htx, hw, hc⟩
    simp [commits?, hf, hth, htx, hw, hc]

instance {P : List Row → Prop} [DecidablePred P] : Decidable (∀ rows, Upserts σ a rows → P rows) :=
  decidable_of_iff (∀ rows, upserts? σ a = some rows → P rows) (by simp only [← mem_upserts?]; rfl)

instance {P : Tx Row → Prop} [DecidablePred P] : Decidable (∀ tx, Commits σ a tx → P tx) :=
  decidable_of_iff (∀ tx, commits? σ a = some tx → P tx) (by simp only [← mem_commits?]; rfl)

theorem Upserts.act {rows : List Row} (h : Upserts σ a rows) : ∃ i σ', system.act σ a = some σ' ∧
    σ'.shared.store = σ.shared.store.append ⟨i, false, σ.shared.store.now, rows⟩ := by
  obtain ⟨i, c, ⟨ch, l, k, rfl, hf, hth⟩, hop⟩ := h
  refine ⟨i, ?_⟩
  simp [Machine.act, hth, system, Op.exec, hf, Shared.insert, hop, Shared.commit]

theorem Commits.act {tx : Tx Row} (h : Commits σ a tx) : ∃ i σ', system.act σ a = some σ' ∧
    σ'.shared.store = σ.shared.store.append ⟨i, true, tx.start, tx.writes⟩ := by
  obtain ⟨i, c, ⟨ch, l, k, rfl, hf, hth⟩, htx, hw, hc⟩ := h
  refine ⟨i, ?_⟩
  simp [Machine.act, hth, system, Op.exec, hf, htx, hw, hc, Shared.commit, Shared.endTx]

theorem Commits.not_conflict {tx : Tx Row} (h : Commits σ a tx) :
    ¬σ.shared.store.Conflict tx.start tx.writes := by
  obtain ⟨_, _, _, _, _, hc⟩ := h
  exact hc

/-- The tables change only by an upsert outside a transaction or by a commit. -/
theorem act_store (ha : system.act σ a = some σ') :
    σ'.shared.store = σ.shared.store ∨
    (∃ i rows, Upserts σ a rows ∧
      σ'.shared.store = σ.shared.store.append ⟨i, false, σ.shared.store.now, rows⟩) ∨
    ∃ i tx, Commits σ a tx ∧
      σ'.shared.store = σ.shared.store.append ⟨i, true, tx.start, tx.writes⟩ := by
  cases a with
  | spawn e => cases ha; exact Or.inl rfl
  | step i ch =>
    simp only [Machine.act] at ha
    split at ha
    · rename_i l o k hth
      cases ha
      rcases Op.exec_store o i ch l σ.shared with h | ⟨c, rows, rfl, hf, hop, h⟩ |
        ⟨c, tx, rfl, hf, htx, hw, hc, h⟩
      · exact Or.inl h
      · exact Or.inr (Or.inl ⟨i, rows, ⟨i, c, ⟨ch, l, k, rfl, hf, hth⟩, hop⟩, h⟩)
      · exact Or.inr (Or.inr ⟨i, tx, ⟨i, c, ⟨ch, l, k, rfl, hf, hth⟩, htx, hw, hc⟩, h⟩)
    · cases ha

/-! ### The memory -/

/-- The step is access `o` to the memory. -/
def Accesses (σ : State) (a : Step) (o : MemOp) : Prop :=
  ∃ i ch l k, a = .step i ch ∧ σ.threads[i]? = some (l, .call (.mem o) k)

def access? (σ : State) : Step → Option MemOp
  | .spawn _ => none
  | .step i _ =>
    match σ.threads[i]? with
    | some (_, .call (.mem o) _) => some o
    | _ => none

theorem mem_access? {o : MemOp} : o ∈ access? σ a ↔ Accesses σ a o := by
  constructor
  · intro h
    unfold access? at h
    split at h
    · cases h
    · split at h
      · rename_i i ch _ l o' k hth
        cases h
        exact ⟨i, ch, l, k, rfl, hth⟩
      · cases h
  · rintro ⟨i, ch, l, k, rfl, hth⟩
    simp [access?, hth]

instance {P : MemOp → Prop} [DecidablePred P] : Decidable (∀ o, Accesses σ a o → P o) :=
  decidable_of_iff (∀ o, access? σ a = some o → P o) (by simp only [← mem_access?]; rfl)

/-! ### Concrete runs -/

/-- The state with the given tables and DAGs, and nothing else. -/
def stateOf (db : Db) (uuids : ℕ) (dags : List Dag) : State :=
  ⟨{ store := ⟨db, []⟩, uuids, dags }, []⟩

/-- `n` calls of thread `i`. -/
def calls (i n : ℕ) : List Step := List.replicate n (.step i {})

end YtScheduler
