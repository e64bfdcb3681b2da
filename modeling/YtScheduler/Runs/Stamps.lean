import YtScheduler.Runs.Update

/-! The timestamps of a row. Every state comes with its own ones, and a change of state
sets those of the new state whichever state it leaves. Instants are compared as UTC,
with or without an offset in the text. -/

namespace YtScheduler

/-- The instants of the timestamps that are set. -/
def instants (ts : List (Option Iso)) : List ℕ := ts.filterMap (Option.map Iso.instant)

namespace DagRunRow

def stamps (row : DagRunRow) : List ℕ :=
  instants [row.scheduledAt, row.queuedAt, row.startDate, row.endDate]

/-- The timestamps fit the state. -/
structure StampsFit (row : DagRunRow) : Prop where
  scheduled : row.scheduledAt.isSome = true
  queued : row.queuedAt.isSome = true ↔ row.state ≠ .scheduled
  started : row.startDate.isSome = true ↔ row.state ∈ [DagRunState.running, .success, .failed]
  ended : row.endDate.isSome = true ↔ row.state ∈ DagRunState.finishedStates
  ordered : row.stamps.Pairwise (· ≤ ·)

/-- A row with the timestamps of its state, all of them set by the time `t`. -/
inductive Dated (t : ℕ) : DagRunRow → Prop
  | scheduled {runId dagId : Uuid} {a : Iso} (ha : a.instant ≤ t) :
    Dated t ⟨runId, dagId, .scheduled, some a, none, none, none⟩
  | queued {runId dagId : Uuid} {a q : Iso} (haq : a.instant ≤ q.instant) (hq : q.instant ≤ t) :
    Dated t ⟨runId, dagId, .queued, some a, some q, none, none⟩
  | running {runId dagId : Uuid} {a q r : Iso} (haq : a.instant ≤ q.instant)
    (hqr : q.instant ≤ r.instant) (hr : r.instant ≤ t) :
    Dated t ⟨runId, dagId, .running, some a, some q, some r, none⟩
  | ended {runId dagId : Uuid} {state : DagRunState} {a q r e : Iso}
    (hstate : state = .success ∨ state = .failed) (haq : a.instant ≤ q.instant)
    (hqr : q.instant ≤ r.instant) (hre : r.instant ≤ e.instant) (he : e.instant ≤ t) :
    Dated t ⟨runId, dagId, state, some a, some q, some r, some e⟩

variable {t now : ℕ} {row : DagRunRow}

theorem Dated.stampsFit (h : row.Dated t) : row.StampsFit := by
  cases h with
  | scheduled ha => constructor <;> simp [DagRunState.finishedStates, stamps, instants]
  | queued haq hq => constructor <;> simp [DagRunState.finishedStates, stamps, instants, haq]
  | running haq hqr hr =>
    constructor <;> simp [DagRunState.finishedStates, stamps, instants]
    omega
  | ended hstate haq hqr hre he =>
    constructor <;> rcases hstate with rfl | rfl <;>
      simp [DagRunState.finishedStates, stamps, instants] <;> omega

theorem Dated.mono (h : row.Dated t) (ht : t ≤ now) : row.Dated now := by
  cases h with
  | scheduled ha => exact .scheduled (by omega)
  | queued haq hq => exact .queued haq (by omega)
  | running haq hqr hr => exact .running haq hqr (by omega)
  | ended hstate haq hqr hre he => exact .ended hstate haq hqr hre (by omega)

/-- Whatever state is entered, the row has the timestamps of that state. -/
theorem Dated.buildRowByState (h : row.Dated t) (ht : t ≤ now) (state : DagRunState) :
    (row.buildRowByState state ⟨now, false⟩).Dated now := by
  by_cases hsame : row.state = state
  · rw [DagRunRow.buildRowByState, if_pos hsame]
    exact h.mono ht
  · cases h with
    | scheduled ha =>
      cases state with
      | scheduled => exact absurd rfl hsame
      | queued => exact .queued (by simp; omega) (by simp)
      | running => exact .running (by simp; omega) (by simp) (by simp)
      -- the time of queueing and the start date are filled in from the time of scheduling
      | success => exact .ended (Or.inl rfl) le_rfl le_rfl (by simp; omega) (by simp)
      | failed => exact .ended (Or.inr rfl) le_rfl le_rfl (by simp; omega) (by simp)
    | queued haq hq =>
      cases state with
      | scheduled => exact .scheduled (by omega)
      | queued => exact absurd rfl hsame
      | running => exact .running haq (by simp; omega) (by simp)
      | success => exact .ended (Or.inl rfl) haq le_rfl (by simp; omega) (by simp)
      | failed => exact .ended (Or.inr rfl) haq le_rfl (by simp; omega) (by simp)
    | running haq hqr hr =>
      cases state with
      | scheduled => exact .scheduled (by omega)
      | queued => exact .queued haq (by omega)
      | running => exact absurd rfl hsame
      | success => exact .ended (Or.inl rfl) haq hqr (by simp; omega) (by simp)
      | failed => exact .ended (Or.inr rfl) haq hqr (by simp; omega) (by simp)
    | ended hstate haq hqr hre he =>
      rcases hstate with rfl | rfl <;> cases state with
      | scheduled => exact .scheduled (by omega)
      | queued => exact .queued haq (by omega)
      | running => exact .running haq (by simp; omega) (by simp)
      -- between finished states only the state changes
      | success => exact .ended (Or.inl rfl) haq hqr hre (by omega)
      | failed => exact .ended (Or.inr rfl) haq hqr hre (by omega)

end DagRunRow

namespace TaskRunRow

def stamps (row : TaskRunRow) : List ℕ :=
  instants [row.scheduledAt, row.queuedAt, row.startDate, row.endDate]

/-- The timestamps fit the state. -/
structure StampsFit (row : TaskRunRow) : Prop where
  queued : row.state = .queued ∨ row.state = .running →
    row.scheduledAt.isSome = true ∧ row.queuedAt.isSome = true
  started : row.state = .running → row.startDate.isSome = true
  unstarted : row.state = .scheduled ∨ row.state = .queued → row.startDate = none
  ended : row.endDate.isSome = true ↔ row.state ∈ TaskRunState.finishedStates
  ordered : row.stamps.Pairwise (· ≤ ·)

/-- A row with the timestamps of its state, all of them set by the time `t`. A row that ended may
have ended before it was scheduled. -/
inductive Dated (t : ℕ) : TaskRunRow → Prop
  | scheduled {runId dagId dagrunId : Uuid} {taskId : String} {operationId : Option OperationId}
    {a : Option Iso} (ha : ∀ x, a = some x → x.instant ≤ t) :
    Dated t ⟨runId, taskId, dagId, dagrunId, .scheduled, operationId, a, none, none, none⟩
  | queued {runId dagId dagrunId : Uuid} {taskId : String} {operationId : Option OperationId}
    {a q : Iso} (haq : a.instant ≤ q.instant) (hq : q.instant ≤ t) :
    Dated t ⟨runId, taskId, dagId, dagrunId, .queued, operationId, some a, some q, none, none⟩
  | running {runId dagId dagrunId : Uuid} {taskId : String} {operationId : Option OperationId}
    {a q r : Iso} (haq : a.instant ≤ q.instant) (hqr : q.instant ≤ r.instant) (hr : r.instant ≤ t) :
    Dated t ⟨runId, taskId, dagId, dagrunId, .running, operationId, some a, some q, some r, none⟩
  | ended {runId dagId dagrunId : Uuid} {taskId : String} {operationId : Option OperationId}
    {state : TaskRunState} {a q r : Option Iso} {e : Iso}
    (hstate : state ∈ TaskRunState.finishedStates) (hqueued : a = none → q = none)
    (hordered : (instants [a, q, r, some e]).Pairwise (· ≤ ·)) (he : e.instant ≤ t) :
    Dated t ⟨runId, taskId, dagId, dagrunId, state, operationId, a, q, r, some e⟩

variable {t now : ℕ} {row : TaskRunRow}

theorem Dated.stampsFit (h : row.Dated t) : row.StampsFit := by
  cases h with
  | scheduled ha =>
    rename_i a
    constructor <;> cases a <;> simp [TaskRunState.finishedStates, stamps, instants]
  | queued haq hq => constructor <;> simp [TaskRunState.finishedStates, stamps, instants, haq]
  | running haq hqr hr =>
    constructor <;> simp [TaskRunState.finishedStates, stamps, instants]
    omega
  | ended hstate hqueued hordered he =>
    have hfinished := hstate
    simp only [TaskRunState.finishedStates, List.mem_cons, List.not_mem_nil, or_false] at hfinished
    constructor
    · rcases hfinished with rfl | rfl | rfl <;> simp
    · rcases hfinished with rfl | rfl | rfl <;> simp
    · rcases hfinished with rfl | rfl | rfl <;> simp
    · exact iff_of_true rfl hstate
    · exact hordered

theorem Dated.mono (h : row.Dated t) (ht : t ≤ now) : row.Dated now := by
  cases h with
  | scheduled ha => exact .scheduled fun x hx => (ha x hx).trans ht
  | queued haq hq => exact .queued haq (by omega)
  | running haq hqr hr => exact .running haq hqr (by omega)
  | ended hstate hqueued hordered he => exact .ended hstate hqueued hordered (by omega)

theorem instants_ended {a q r e : Iso} (haq : a.instant ≤ q.instant) (hqr : q.instant ≤ r.instant)
    (hre : r.instant ≤ e.instant) :
    (instants [some a, some q, some r, some e]).Pairwise (· ≤ ·) := by
  simp [instants]
  omega

/-- Whatever state is entered, the row has the timestamps of that state. -/
theorem Dated.enter (h : row.Dated t) (ht : t ≤ now) (state : TaskRunState) :
    (row.enter state ⟨now, true⟩).Dated now := by
  cases h with
  | @scheduled _ _ _ _ _ a ha =>
    cases a with
    | none =>
      cases state with
      | scheduled => exact .scheduled (by simp)
      | queued => exact .queued le_rfl le_rfl
      | running => exact .running le_rfl le_rfl le_rfl
      | success | failed | skipped =>
        exact .ended (by decide) (by simp) (by simp [instants]) le_rfl
    | some a =>
      have hat := ha a rfl
      cases state with
      | scheduled => exact .scheduled (by simp; omega)
      | queued => exact .queued (by simp; omega) le_rfl
      | running => exact .running (by simp; omega) le_rfl le_rfl
      | success | failed | skipped =>
        exact .ended (by decide) (by simp) (by simp [instants]; omega) le_rfl
  | queued haq hq =>
    cases state with
    | scheduled => exact .scheduled (by simp; omega)
    | queued => exact .queued haq (by omega)
    | running => exact .running haq (by simp; omega) le_rfl
    | success | failed | skipped =>
      exact .ended (by decide) (by simp) (by simp [instants]; omega) le_rfl
  | running haq hqr hr =>
    cases state with
    | scheduled => exact .scheduled (by simp; omega)
    | queued => exact .queued haq (by omega)
    | running => exact .running haq (by simp; omega) le_rfl
    | success | failed | skipped =>
      exact .ended (by decide) (by simp) (instants_ended haq hqr (by simp; omega)) le_rfl
  | @ended _ _ _ _ _ old a q r e hstate hqueued hordered he =>
    have hfinished : old ∉ TaskRunState.unfinishedStates := by
      rwa [TaskRunState.mem_unfinishedStates, not_not]
    have ha : ∀ x, a = some x → x.instant ≤ now := by
      rintro x rfl
      simp only [instants, List.filterMap_cons_some (Option.map_some ..), List.pairwise_cons] at hordered
      have hxe := hordered.1 e.instant (by simp)
      omega
    have hq : ∀ x y, a = some x → q = some y → x.instant ≤ y.instant ∧ y.instant ≤ now := by
      rintro x y rfl rfl
      cases r <;> simp [instants] at hordered <;> omega
    cases state with
    | scheduled => exact .scheduled (by cases a <;> simp_all)
    | queued =>
      cases a with
      | none =>
        obtain rfl := hqueued rfl
        exact .queued le_rfl le_rfl
      | some x =>
        cases q with
        | none => exact .queued (ha x rfl) le_rfl
        | some y => exact .queued (hq x y rfl rfl).1 (hq x y rfl rfl).2
    | running =>
      cases a with
      | none =>
        obtain rfl := hqueued rfl
        exact .running le_rfl le_rfl le_rfl
      | some x =>
        cases q with
        | none => exact .running (ha x rfl) le_rfl le_rfl
        | some y => exact .running (hq x y rfl rfl).1 (hq x y rfl rfl).2 le_rfl
    | success | failed | skipped =>
      rw [TaskRunRow.enter, if_neg (by decide), if_neg hfinished]
      exact .ended (by decide) hqueued hordered (by omega)

theorem Dated.setOperationId (h : row.Dated t) (operationId : Option OperationId) :
    ({ row with operationId := operationId } : TaskRunRow).Dated t := by
  cases h with
  | scheduled ha => exact .scheduled ha
  | queued haq hq => exact .queued haq hq
  | running haq hqr hr => exact .running haq hqr hr
  | ended hstate hqueued hordered he => exact .ended hstate hqueued hordered he

theorem Dated.buildRow (h : row.Dated t) (ht : t ≤ now) (state : Option TaskRunState)
    (operationId : Option OperationId) : (row.buildRow state operationId ⟨now, true⟩).Dated now := by
  have hbase : ∀ st : TaskRunState,
      (if row.state = st then row else row.enter st ⟨now, true⟩).Dated now := by
    intro st
    split_ifs
    · exact h.mono ht
    · exact h.enter ht st
  cases state with
  | none =>
    cases operationId with
    | none => exact h.mono ht
    | some operation => exact (h.mono ht).setOperationId _
  | some st =>
    cases operationId with
    | none => exact hbase st
    | some operation => exact (hbase st).setOperationId _

end TaskRunRow

end YtScheduler
