import Mathlib.Data.List.Sort
import Mathlib.Data.Rat.Defs
import Mathlib.Algebra.Order.Ring.Rat
import Mathlib.Logic.Function.Basic
import YtScheduler.Tablet.Table
import YtScheduler.Store.Query

/-! The jobs of a `JobContext` and the shards they compute. The jobs of one type are
a dict keyed by job id: a dict lists its entries in the order of their first
insertion, and a table does the same. -/

namespace YtScheduler

open Tablet

/-- A value of `time.time()`, in seconds. -/
abbrev Timestamp := ℚ

/-- A `_JobRun` row as the context holds it. -/
structure JobRunInfo where
  jobId : Uuid
  threadId : ℕ
  hostname : String
  lastSeen : Timestamp
  startDate : Option String
  endDate : Option String
  deriving DecidableEq

instance : Keyed JobRunInfo Uuid := ⟨JobRunInfo.jobId⟩

/-- What a heartbeat carries. A date is written only where the heartbeat gives it. -/
structure HeartbeatOptions where
  jobType : String
  jobId : Uuid
  hostname : String
  threadId : ℕ
  startDate : Option (Option String) := none
  endDate : Option (Option String) := none

/-- A job as the context sees it: its type, its id and where it runs. -/
structure JobBase where
  name : String
  jobId : Uuid
  hostname : String
  threadId : ℕ

/-- The options of `_heartbeat_tick()` without further ones. -/
def JobBase.runOptions (job : JobBase) : HeartbeatOptions where
  jobType := job.name
  jobId := job.jobId
  hostname := job.hostname
  threadId := job.threadId

/-- `_active_jobs`: the jobs of each type, by job id. -/
structure JobContext where
  activeJobs : String → Table JobRunInfo

namespace JobContext

def empty : JobContext := ⟨fun _ => .empty⟩

def heartbeatTtl : Timestamp := 30

/-- The row a heartbeat leaves: the options given are set on the row found, and a new row
starts without dates. -/
def touched (ts : Timestamp) (o : HeartbeatOptions) : Option JobRunInfo → JobRunInfo
  | some row =>
    { row with
      jobId := o.jobId
      hostname := o.hostname
      threadId := o.threadId
      startDate := o.startDate.getD row.startDate
      endDate := o.endDate.getD row.endDate
      lastSeen := ts }
  | none =>
    { jobId := o.jobId
      threadId := o.threadId
      hostname := o.hostname
      lastSeen := ts
      startDate := o.startDate.getD none
      endDate := o.endDate.getD none }

/-- `touch_job(options)` at time `ts`. -/
def touchJob (ctx : JobContext) (ts : Timestamp) (o : HeartbeatOptions) : JobContext :=
  let jobs := ctx.activeJobs o.jobType
  ⟨Function.update ctx.activeJobs o.jobType (jobs.upsert (touched ts o (jobs.find o.jobId)))⟩

/-- The context after a history of heartbeats. -/
def touchAll (ctx : JobContext) (history : List (Timestamp × HeartbeatOptions)) : JobContext :=
  history.foldl (fun ctx h => ctx.touchJob h.1 h.2) ctx

def getAllJobs (ctx : JobContext) (name : String) : List JobRunInfo := (ctx.activeJobs name).rows

/-- `get_active_jobs(job)` at time `ts`. -/
def getActiveJobs (ctx : JobContext) (ts : Timestamp) (name : String) : List Uuid :=
  ((ctx.getAllJobs name).filter fun run => ts - run.lastSeen ≤ heartbeatTtl).map JobRunInfo.jobId

/-- `compute_shard_index(job)` at time `ts`: the index, the number of shards and the list
of ids both are taken from. -/
def computeShardIndex (ctx : JobContext) (ts : Timestamp) (job : JobBase) :
    (ℕ × ℕ × List Uuid) × JobContext :=
  let jobs := ctx.getActiveJobs ts job.name
  if jobs = [] then ((0, 0, []), ctx)
  else if job.jobId ∉ jobs then
    let jobs := (jobs ++ [job.jobId]).insertionSort (· ≤ ·)
    ((jobs.idxOf job.jobId, jobs.length, jobs), ctx.touchJob ts job.runOptions)
  else ((jobs.idxOf job.jobId, jobs.length, jobs), ctx)

end JobContext

/-- One call of `compute_shard_index`: the caller and what it got. -/
structure ShardCall where
  jobId : Uuid
  index : ℕ
  numShards : ℕ
  /-- The active job ids the call computed over. -/
  jobs : List Uuid
  deriving DecidableEq, Inhabited

namespace JobContext

def shardCall (ts : Timestamp) (ctx : JobContext) (job : JobBase) : ShardCall × JobContext :=
  let out := ctx.computeShardIndex ts job
  (⟨job.jobId, out.1.1, out.1.2.1, out.1.2.2⟩, out.2)

/-- `determine_shard_options` of the caller. -/
def determineShardOptions (numVirtualShards : ℕ) (c : ShardCall) : ShardingOptions :=
  ⟨c.index, c.numShards, numVirtualShards⟩

end JobContext

/-- The jobs of one type that compute their shards at one clock time, in the order of their
calls. Each calls once. -/
structure Rollcall where
  ts : Timestamp
  name : String
  jobs : List JobBase
  name_eq : ∀ job ∈ jobs, job.name = name
  nodup : (jobs.map JobBase.jobId).Nodup

end YtScheduler
