import Mathlib.Data.Nat.Notation

/-! The states of DagRuns and TaskRuns and the timestamps of their rows. -/

namespace YtScheduler

/-- A generated uuid. Uuids are only compared, so a number stands for one. -/
abbrev Uuid := ℕ

/-- The id of a YT operation. -/
abbrev OperationId := ℕ

inductive DagRunState
  | scheduled | queued | running | success | failed
  deriving DecidableEq

inductive TaskRunState
  | scheduled | queued | running | success | failed | skipped
  deriving DecidableEq

namespace TaskRunState

def unfinishedStates : List TaskRunState := [.scheduled, .queued, .running]

def finishedStates : List TaskRunState := [.failed, .success, .skipped]

theorem mem_unfinishedStates {s : TaskRunState} :
    s ∈ unfinishedStates ↔ s ∉ finishedStates := by cases s <;> decide

end TaskRunState

/-- The states in which a DagRun is finished. -/
def DagRunState.finishedStates : List DagRunState := [.success, .failed]

/-- The text of `isoformat()`: the instant it names, and whether it carries an offset.
`datetime.now(tz.utc)` does, `datetime.utcnow()` does not. -/
structure Iso where
  instant : ℕ
  offset : Bool
  deriving DecidableEq, Inhabited

end YtScheduler
