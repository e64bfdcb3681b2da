import YtScheduler.Commands.Registry
import YtScheduler.Jobs.Runner
import YtScheduler.Threads.Rely

/-! A command and its jobs. The main thread of `run_command` starts a thread for each job,
watches them and flushes their rows until all have ended, and cleans up whatever happens;
the job threads, and workers of the pool that send a heartbeat for a job, run beside it.
What a job does, and how it ends, is up to the job. -/

namespace YtScheduler.Commands

open Tablet Threads
open Jobs (ExceptionKind JobState JobRunner)

structure Exn where
  kind : ExceptionKind
  code : ℕ
  deriving DecidableEq

def Exn.isException (e : Exn) : Bool := e.kind = .exception

/-- "Job already running." -/
def Exn.alreadyRunning : Exn := ⟨.exception, 0⟩

def Exn.keyboardInterrupt : Exn := ⟨.other, 0⟩

/-! ### What the threads share -/

/-- The thread of a runner. A thread that lives is known by its number, and one that has ended is
`aborted` if no client was created for it, so that it has not entered its target. -/
inductive JobThread
  | none
  | starting
  | alive (thread : ℕ)
  | dead
  | aborted
  deriving DecidableEq

def JobThread.IsOver : JobThread → Prop
  | .dead => True
  | .aborted => True
  | _ => False

theorem JobThread.IsOver.ne_alive {th : JobThread} (h : th.IsOver) (t : ℕ) : th ≠ .alive t := by
  rintro rfl
  exact h

structure Runner extends JobRunner Exn where
  stop : Bool := false
  thread : JobThread := .none

/-- `runner._thread and runner._thread.is_alive()`. -/
def Runner.isAlive (r : Runner) : Bool :=
  match r.thread with
  | .starting => true
  | .alive _ => true
  | _ => false

inductive PoolState
  | new
  | running
  | down
  deriving DecidableEq

/-- The lines of the log, by the call that writes them. -/
inductive LogLine
  | heartbeatFailed (jobId : Uuid)
  | runnerException (i : ℕ)
  | flushFailed
  | endedWithException (i : ℕ)
  | lastFlushFailed
  | shutdownFailed
  deriving DecidableEq

/-- `table` is `job_state`. -/
structure Shared where
  registry : Registry
  table : Table JobRunInfo
  runners : ℕ → Runner
  pool : PoolState
  log : List LogLine

def Shared.initial : Shared := ⟨.empty, .empty, fun _ => {}, .new, []⟩

inductive Op
  | touchJob (o : HeartbeatOptions)
  | nowIso
  /-- anything a job does that the others do not see -/
  | world
  | createClient
  | readRunner (i : ℕ)
  | assign (i : ℕ) (f : JobRunner Exn → JobRunner Exn)
  | setStop (i : ℕ) (b : Bool)
  | stopIsSet (i : ℕ)
  | startThread (i : ℕ)
  /-- the first step of the thread of a runner, and its last one, with and without a client -/
  | enter (i : ℕ)
  | leave (i : ℕ)
  | abort (i : ℕ)
  | join (i : ℕ)
  | wait (i : ℕ)
  | runPool
  | shutdownPool
  | getAllJobs
  | upsertRows (refs : List RunRef)
  | log (l : LogLine)

@[reducible] def Op.Ret : Op → Type
  | .nowIso => String
  | .world => ℕ
  | .readRunner _ => Runner
  | .stopIsSet _ => Bool
  | .enter _ => Bool
  | .getAllJobs => List RunRef
  | _ => Unit

/-- What the environment decides: the time, a failure and whether the statement that failed was
carried out, and what a job sees of the world. -/
structure Choice where
  time : Timestamp
  iso : String
  fails : Option Exn
  carriedOut : Bool
  value : ℕ

namespace Shared

variable (s : Shared)

def setRunner (i : ℕ) (r : Runner) : Shared := { s with runners := Function.update s.runners i r }

def touchJob (ts : Timestamp) (o : HeartbeatOptions) : Shared :=
  { s with registry := s.registry.touchJob ts o }

/-- The objects, as they stand, written as one batch. -/
def upsert (refs : List RunRef) : Shared :=
  { s with table := s.table.upsertAll (refs.filterMap s.registry.find) }

end Shared

/-- A join or a wait has a timeout: it may end at any time, and shows nothing. -/
def Op.exec (o : Op) (t : ℕ) (ch : Choice) (s : Shared) : Except Exn o.Ret × Shared :=
  match o with
  | .touchJob o =>
    -- what it raises is an `Exception`
    match ch.fails with
    | some e => (.error { e with kind := .exception }, s)
    | none => (.ok (), s.touchJob ch.time o)
  | .nowIso => (.ok ch.iso, s)
  | .world =>
    match ch.fails with
    | some e => (.error e, s)
    | none => (.ok ch.value, s)
  | .createClient => (ch.fails.elim (.ok ()) .error, s)
  | .readRunner i => (.ok (s.runners i), s)
  | .assign i f => (.ok (), s.setRunner i { s.runners i with toJobRunner := f (s.runners i).toJobRunner })
  | .setStop i b => (.ok (), s.setRunner i { s.runners i with stop := b })
  | .stopIsSet i => (.ok (s.runners i).stop, s)
  | .startThread i => (.ok (), s.setRunner i { s.runners i with thread := .starting })
  | .enter i =>
    if (s.runners i).thread = .starting then (.ok true, s.setRunner i { s.runners i with thread := .alive t })
    else (.ok false, s)
  | .leave i =>
    if (s.runners i).thread = .alive t then (.ok (), s.setRunner i { s.runners i with thread := .dead })
    else (.ok (), s)
  | .abort i =>
    if (s.runners i).thread = .alive t then (.ok (), s.setRunner i { s.runners i with thread := .aborted })
    else (.ok (), s)
  | .join _ => (ch.fails.elim (.ok ()) .error, s)
  | .wait _ => (ch.fails.elim (.ok ()) .error, s)
  | .runPool =>
    match ch.fails with
    | some e => (.error e, s)
    | none => (.ok (), { s with pool := .running })
  | .shutdownPool =>
    match ch.fails with
    | some e => (.error e, s)
    | none => (.ok (), { s with pool := .down })
  | .getAllJobs => (.ok s.registry.getAllJobs, s)
  | .upsertRows refs =>
    match ch.fails with
    | some e => (.error e, if ch.carriedOut then s.upsert refs else s)
    | none => (.ok (), s.upsert refs)
  | .log l => (.ok (), { s with log := l :: s.log })

abbrev P (α : Type) := Prog Op Op.Ret Exn α

def call (o : Op) : P o.Ret := Prog.op o

/-- `try: p finally: q`. -/
def tryFinally (p : P α) (q : P Unit) : P α := do
  let r ← p.attempt
  q
  match r with
  | .ok a => pure a
  | .error e => Prog.raise e

/-- `try: p except Exception: log l`. -/
def logging (l : LogLine) (p : P Unit) : P Unit :=
  p.catching fun e => if e.isException then call (.log l) else .raise e

/-! ### Jobs -/

/-- What the code of a job may do: heartbeats of its own without dates, and anything the others do
not see. -/
def Op.OfJob (job : JobBase) : Op → Prop
  | .touchJob o => ∃ threadId, o = { job.runOptions with threadId }
  | .world => True
  | .stopIsSet _ => True
  | .log _ => True
  | _ => False

/-- A job, and what its `_entry` does. -/
structure Job extends JobBase where
  lightweight : Bool
  entry : P (Option ℤ)
  entry_uses : entry.Uses (Op.OfJob toJobBase)

def heartbeatTick (job : JobBase) (startDate endDate : Option (Option String)) : P Unit :=
  logging (.heartbeatFailed job.jobId) (call (.touchJob { job.runOptions with startDate, endDate }))

def prepareForExecution (i : ℕ) (job : Job) : P Unit := do
  let now ← call .nowIso
  heartbeatTick job.toJobBase (some (some now)) (some none)
  call (.assign i fun r => { r with started := true })

def completeExecution (i : ℕ) (job : Job) : P Unit := do
  let now ← call .nowIso
  heartbeatTick job.toJobBase none (some (some now))
  call (.assign i fun r => { r with finished := true })

/-- The inner `try` of `_target`. -/
def runEntry (i : ℕ) (job : Job) : P (Option ℤ) :=
  (do
    let ret ← job.entry
    call (.assign i fun r => { r with state := some .success })
    pure ret).catching fun e =>
      match e.kind with
      | .systemExit => do
        call (.assign i fun r => { r with state := some .success })
        pure none
      | .exception => do
        call (.assign i fun r => { r with exception := some e })
        call (.assign i fun r => { r with state := some .failed })
        Prog.raise e
      | .other => .raise e

/-- `_target`. -/
def target (i : ℕ) (job : Job) : P (Option ℤ) :=
  tryFinally
    (do
      call (.assign i fun r => { r with state := some .running })
      prepareForExecution i job
      let ret ← runEntry i job
      call (.assign i fun r => { r with result := ret })
      pure ret)
    (completeExecution i job)

/-- The thread that `_run_async` starts: `_target` with a client. An exception ends it as well. -/
def threadProg (i : ℕ) (job : Job) : P Unit := do
  if ← call (.enter i) then
    match ← (call .createClient).attempt with
    | .error _ => call (.abort i)
    | .ok _ =>
      let _ ← (target i job).attempt
      call (.leave i)
  else pure ()

def runAsync (i : ℕ) : P Unit := do
  if (← call (.readRunner i)).isAlive then Prog.raise .alreadyRunning
  else
    call (.setStop i false)
    call (.startThread i)

def runJob (i : ℕ) (job : Job) : P Unit :=
  if job.lightweight then do
    call .createClient
    let _ ← target i job
    pure ()
  else runAsync i

/-! ### The command -/

/-- `flush_to_yt` without a pool. -/
def flushToYt : P Unit := do
  let rows ← call .getAllJobs
  if rows.isEmpty then pure ()
  else Prog.forEach (chunked 50 rows) fun batch => call (.upsertRows batch)

/-- `if runner.exception: logger.exception(..)`. -/
def logException (i : ℕ) (l : LogLine) : P Unit := do
  if (← call (.readRunner i)).exception.isSome then call (.log l) else pure ()

/-- `if not runner._started.is_set(): runner._started.wait(..)`. -/
def awaitStarted (i : ℕ) : P Unit := do
  if (← call (.readRunner i)).started then pure () else call (.wait i)

/-- One round of the loop over the runners; it tells whether all were dead. -/
def watchRound : List (ℕ × Job) → P Bool
  | [] => pure true
  | (i, _) :: runners => do
    call (.join i)
    let alive := (← call (.readRunner i)).isAlive
    logException i (.runnerException i)
    logging .flushFailed do
      awaitStarted i
      flushToYt
    let allDead ← watchRound runners
    pure (!alive && allDead)

/-- `while True`, cut short by an interrupt after `n` rounds. -/
def watch (runners : List (ℕ × Job)) : ℕ → P Unit
  | 0 => .raise .keyboardInterrupt
  | n + 1 => do
    if ← watchRound runners then pure () else watch runners n

def stopRunner (i : ℕ) : P Unit := do
  call (.setStop i true)
  call (.join i)
  logException i (.endedWithException i)

/-- There is a pool if a job is not lightweight. -/
def hasPool (jobs : List Job) : Bool := jobs.any fun job => !job.lightweight

def runPool (jobs : List Job) : P Unit := if hasPool jobs then call .runPool else pure ()

/-- The jobs with their numbers, in order. -/
def numbered (jobs : List Job) : List (ℕ × Job) := jobs.zipIdx.map fun e => (e.2, e.1)

/-- The end of the `finally` of `run_command`, once the runners have been stopped. -/
def conclude (jobs : List Job) : P Unit := do
  Prog.forEach (numbered jobs) fun r => call (.wait r.1)
  logging .lastFlushFailed flushToYt
  if hasPool jobs then logging .shutdownFailed (call .shutdownPool) else pure ()

/-- The `finally` of `run_command`. -/
def cleanUp (jobs : List Job) : P Unit := do
  Prog.forEach (numbered jobs) fun r => stopRunner r.1
  conclude jobs

/-- `run_command`, from where the runners are built. -/
def runCommand (jobs : List Job) (n : ℕ) : P Unit :=
  tryFinally
    (do
      runPool jobs
      Prog.forEach (numbered jobs) fun r => runJob r.1 r.2
      watch (numbered jobs) n)
    (cleanUp jobs)

/-! ### The machine -/

inductive Entry
  /-- the thread of a runner whose job has one -/
  | thread (i : ℕ)
  /-- a heartbeat for a job by a worker of the pool -/
  | tick (i : ℕ) (threadId : ℕ)

/-- The heartbeat of `compute_shard_index`. -/
def tickProg (job : JobBase) (threadId : ℕ) : P Unit :=
  logging (.heartbeatFailed job.jobId) (call (.touchJob { job.runOptions with threadId }))

def Entry.prog (jobs : List Job) : Entry → P Unit
  | .thread i =>
    match jobs[i]? with
    | some job => if job.lightweight then pure () else threadProg i job
    | none => pure ()
  | .tick i threadId =>
    match jobs[i]? with
    | some job => tickProg job.toJobBase threadId
    | none => pure ()

def command (jobs : List Job) : Machine Op Op.Ret Exn Unit Shared Choice Entry Unit where
  exec o t ch _ s := ((o.exec t ch s).1, (), (o.exec t ch s).2)
  start e _ := ((), e.prog jobs)

abbrev State := Sys Op Op.Ret Exn Unit Shared Unit

/-- The main thread is number 0. -/
def started (jobs : List Job) (n : ℕ) : State := ⟨.initial, [((), runCommand jobs n)]⟩

end YtScheduler.Commands
