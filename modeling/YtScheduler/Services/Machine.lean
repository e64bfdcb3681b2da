import YtScheduler.Services.Executor
import YtScheduler.Services.Scheduler

/-! The whole system: any number of schedulers, executors, pool workers and direct
callers, interleaved call by call. -/

namespace YtScheduler

open P Threads

/-- What a worker runs for a job. -/
def Job.run : Job → P JobResult
  | .getExecutableTaskRunsToQueue shard => do
    let trs ← TaskRunClient.getExecutableTaskRunsToQueue shard
    pure (.taskRuns (trs.map TaskRunObj.ref))
  | .startTaskrun svc tr => do
    Executor.startTaskrun svc tr
    pure .none
  | .setState rows => do
    let trs ← TaskRunClient.setState rows
    pure (.taskRuns trs)
  | .orphanCleanup => do
    Executor.orphanCleanup
    pure .none
  | .tryAbortRun cell => do
    Executor.tryAbortRun cell
    pure .none
  | .getDagRuns state shard => do
    let runs ← DagRunClient.getDagRuns state shard
    pure (.dagRuns state (runs.map DagRunObj.ref))
  | .queueRunAtomic run dag => do
    DagRunClient.queueRunAtomic run dag
    pure .none
  | .tryClaimDagruns svc => do
    let n ← Scheduler.tryClaimDagruns svc
    pure (.count n)
  | .trySetMetasInvalid rows => do
    let metas ← Scheduler.trySetMetasInvalid rows
    pure (.metas metas)

/-- `n` calls of `queue_run_atomic` on one copy of a DagRun. -/
def queueRun (runId : Uuid) (n : ℕ) : P Unit := do
  match ← DagRunClient.get runId with
  | none => pure ()
  | some run => do
    let ref ← Scheduler.getDagRef run.row.dagId
    match ← Scheduler.getDag ref with
    | none => pure ()
    | some dag => Pool.loop (Executor.ignoring (DagRunClient.queueRunAtomic run.ref dag)) n

/-- The threads a run may start. -/
inductive Entry
  | scheduler (passes : List Scheduler.Pass) (n : ℕ)
  | executor (n : ℕ)
  | worker (n : ℕ)
  | queueRun (runId : Uuid) (n : ℕ)
  | createDagRuns (metas : List (Option Uuid))
  | setState (rows : List UpdateRow)
  | upsert (rows : List Row)

def Entry.prog : Entry → P JobResult
  | .scheduler passes n => do
    Scheduler.execute passes n
    pure .none
  | .executor n => do
    Executor.execute n
    pure .none
  | .worker n => do
    Pool.loop (Pool.workerIter Job.run) n
    pure .none
  | .queueRun runId n => do
    YtScheduler.queueRun runId n
    pure .none
  | .createDagRuns metas => do
    let n ← Scheduler.createDagRunsAtomic metas none
    pure (.count n)
  | .setState rows => do
    let trs ← TaskRun.setState rows
    pure (.taskRuns trs)
  | .upsert rows => do
    upsertRows rows none
    pure .none

/-- The machine of the whole system. -/
def system : Machine Op Op.Ret Exn Loc Shared Choice Entry JobResult where
  exec := Op.exec
  start e _ := ({}, e.prog)

abbrev State := Sys Op Op.Ret Exn Loc Shared JobResult

abbrev Step := Action Choice Entry

end YtScheduler
