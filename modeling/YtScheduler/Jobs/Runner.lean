import Mathlib.Data.Int.Notation
import YtScheduler.Sequences.Blocks

/-! Jobs under a `JobRunner`. What the passes of a loop do to the rest of the program, and
where they raise, is any act on a state `ω`; the blocks around them, which decide what
becomes of an exception, are those of the source. Log lines are left out. -/

namespace YtScheduler.Jobs

open Blocks

/-- The exceptions that the handlers tell apart. -/
inductive ExceptionKind
  | exception
  | systemExit
  | other
  deriving DecidableEq

class BaseException (ε : Type) where
  kind : ε → ExceptionKind
  assertionError : ε
  kind_assertionError : kind assertionError = .exception

/-- `except Exception`. -/
def isException {ε : Type} [BaseException ε] (e : ε) : Bool :=
  BaseException.kind e = .exception

inductive JobState
  | running
  | success
  | failed
  deriving DecidableEq

variable {ω ε : Type} [BaseException ε]

/-- `assert self.pool is not None`. -/
def assertPool (pool : Bool) : Act ω ε Unit :=
  if pool then pure () else .raise BaseException.assertionError

/-- `_heartbeat_tick`. -/
def heartbeatTick (touchJob : Act ω ε Unit) : Act ω ε Unit :=
  touchJob.catching isException fun _ => pure ()

/-! ### Services -/

/-- A scheduler: whether it has a pool, and what its loop calls. -/
structure Scheduler (ω ε : Type) where
  pool : Bool
  stopped : Act ω ε Bool
  touchJob : Act ω ε Unit
  createDagrunsForDags : Act ω ε Unit
  queueScheduledDagruns : Act ω ε Unit
  startQueuedDagruns : Act ω ε Unit
  scheduleRunningDagruns : Act ω ε Unit
  drainCallbacks : Act ω ε Unit
  /-- The number of DagRuns created since the last tick, which is set to zero. -/
  takeCreated : Act ω ε ℕ
  wait : Act ω ε Unit

namespace Scheduler

variable (c : Scheduler ω ε)

def doScheduling : Act ω ε Unit := do
  c.createDagrunsForDags
  c.queueScheduledDagruns
  c.startQueuedDagruns
  c.scheduleRunningDagruns

def loopIter : Act ω ε ℕ := do
  c.doScheduling
  c.drainCallbacks
  c.takeCreated

/-- The body of the loop of `_run_scheduler_loop`. -/
def round : Act ω ε Unit := do
  heartbeatTick c.touchJob
  let numScheduled ← c.loopIter
  if numScheduled = 0 then c.wait

end Scheduler

/-- An executor: whether it has a pool, and what its loop calls. -/
structure Executor (ω ε : Type) where
  pool : Bool
  stopped : Act ω ε Bool
  touchJob : Act ω ε Unit
  updatePendingTasks : Act ω ε Unit
  startTaskruns : Act ω ε Unit
  pollPendingOperations : Act ω ε Unit
  submitOrphanCleanup : Act ω ε Unit
  drainCallbacks : Act ω ε Unit
  sleep : Act ω ε Unit

namespace Executor

variable (c : Executor ω ε)

def loopIter : Act ω ε Unit := do
  c.startTaskruns
  c.pollPendingOperations
  c.submitOrphanCleanup
  c.drainCallbacks

/-- The body of the loop of `_run_executor_loop`. -/
def round : Act ω ε Unit := do
  heartbeatTick c.touchJob
  c.loopIter
  c.sleep

end Executor

inductive Service (ω ε : Type)
  | scheduler (c : Scheduler ω ε)
  | executor (c : Executor ω ε)

namespace Service

def touchJob : Service ω ε → Act ω ε Unit
  | .scheduler c => c.touchJob
  | .executor c => c.touchJob

/-- What `_execute` does before its loop. -/
def startUp : Service ω ε → Act ω ε Unit
  | .scheduler c => assertPool c.pool
  | .executor c => do
    assertPool c.pool
    c.updatePendingTasks

/-- `not self._stop_event.is_set()`. -/
def goesOn : Service ω ε → Act ω ε Bool
  | .scheduler c => not <$> c.stopped
  | .executor c => not <$> c.stopped

def round : Service ω ε → Act ω ε Unit
  | .scheduler c => c.round
  | .executor c => c.round

variable (j : Service ω ε)

/-- What `_execute` tries: the start-up and the loop. -/
def body : Block ω ε (Option ℤ) := seq (act j.startUp) (whileDo j.goesOn j.round)

/-- `_execute`, whose `finally` returns `None`. -/
def execute : Block ω ε (Option ℤ) :=
  tryFinally
    (tryExcept j.body fun e => if isException e then some (raise e) else none)
    (ret fun _ => none)

end Service

/-! ### The runner -/

/-- The fields that `_target` assigns. -/
structure JobRunner (ε : Type) where
  started : Bool := false
  finished : Bool := false
  result : Option ℤ := none
  exception : Option ε := none
  state : Option JobState := none

/-- The runner, the variable `ret` of `_target`, and the rest of the program. -/
structure Frame (ω ε : Type) where
  runner : JobRunner ε
  ret : Option ℤ
  world : ω

namespace Frame

/-- The rest of the program as a part of the frame. -/
def rest : Part (Frame ω ε) ω where
  get t := t.world
  set s t := { t with world := s }

def setState (state : JobState) (t : Frame ω ε) : Frame ω ε :=
  { t with runner.state := some state }

def setException (e : ε) (t : Frame ω ε) : Frame ω ε :=
  { t with runner.exception := some e }

def setResult (t : Frame ω ε) : Frame ω ε := { t with runner.result := t.ret }

def setRet (ret : Option ℤ) (t : Frame ω ε) : Frame ω ε := { t with ret := ret }

end Frame

variable (j : Service ω ε)

/-- `_prepare_for_execution`. -/
def prepareForExecution : Act (Frame ω ε) ε Unit := do
  (heartbeatTick j.touchJob).on Frame.rest
  fun t => (.ok (), { t with runner.started := true })

/-- `_complete_execution`. -/
def completeExecution : Act (Frame ω ε) ε Unit := do
  (heartbeatTick j.touchJob).on Frame.rest
  fun t => (.ok (), { t with runner.finished := true })

/-- The inner `try` of `_target`. -/
def runExecute : Block (Frame ω ε) ε (Option ℤ) :=
  tryExcept
    (seq (call Frame.rest j.execute Frame.setRet) (assign (Frame.setState .success)))
    fun e =>
      match BaseException.kind e with
      | .systemExit => some (assign (Frame.setState .success))
      | .exception => some
          (seq (assign (Frame.setException e)) (seq (assign (Frame.setState .failed)) (raise e)))
      | .other => none

/-- `_target`. -/
def target : Block (Frame ω ε) ε (Option ℤ) :=
  tryFinally
    (seq (assign (Frame.setState .running))
      (seq (act (prepareForExecution j))
        (seq (assign (Frame.setRet none))
          (seq (runExecute j)
            (seq (assign Frame.setResult) (ret Frame.ret))))))
    (act (completeExecution j))

/-- A new runner. -/
def fresh (s : ω) : Frame ω ε := ⟨{}, none, s⟩

end YtScheduler.Jobs
