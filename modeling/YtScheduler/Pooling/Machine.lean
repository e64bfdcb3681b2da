import YtScheduler.Pooling.Promise
import YtScheduler.Sequences.Transitions

/-! The pool as a machine of workers, callers, owners and one shutdown. A thread is a
stack: a worker runs a job, the job submits another one, and a submission that
falls back to running synchronously runs that job on top. -/

namespace YtScheduler.Pooling

/-- What a thread is in the middle of. -/
inductive Frame (κ : Type)
  /-- `execute()` of a job. -/
  | exec (j : ℕ)
  /-- A submission before its first `put`. -/
  | call (a : κ) (job : Job κ)
  /-- `submit_or_execute` after the queue was full, before its second `put`. -/
  | retry (a : κ) (job : Job κ)
  /-- The promise of a job is returned; `on_complete` is next. -/
  | register (j : ℕ)

inductive Worker (κ : Type)
  /-- Before the test of the stop event. -/
  | top
  /-- In `get(timeout=0.5)`. -/
  | getting
  | busy (stack : List (Frame κ))
  | exited

/-- An owner: its callback queue, the callbacks it has run, by job, and a counter that each
of them adds its job's result to. -/
structure Owner where
  queue : List ℕ := []
  ran : List ℕ := []
  counter : ℤ := 0

/-- Where the caller of `shutdown(wait=True, timeout=None)` stands. -/
inductive Shutdown
  | idle | draining | joining | returned
  deriving DecidableEq

/-- What the threads share. -/
structure Shared (κ : Type) where
  maxsize : ℕ
  queue : List ℕ
  cells : List (Cell κ)
  owners : List Owner

structure Pool (κ : Type) extends Shared κ where
  workers : List (Worker κ)
  callers : List (List (Frame κ))
  stop : Bool
  shutdown : Shutdown

inductive PutResult
  | done | full | waits
  deriving DecidableEq

/-- `queue.Queue.put`: `late` says that the time to wait, if there is one, is over. -/
def put (block : Bool) (timeout : Option ℚ) (isFull late : Bool) : PutResult :=
  if !isFull then .done
  else if !block then .full
  else
    match timeout with
    | none => .waits
    | some _ => if late then .full else .waits

namespace Shared

variable {κ : Type}

/-- The stack after a step of the worker's side of job `j` on top of `fs`. -/
def workStack (j : ℕ) (out : Cell κ × Option (κ × Job κ)) (fs : List (Frame κ)) : List (Frame κ) :=
  match out.2 with
  | some (a, job) => .call a job :: .exec j :: fs
  | none => if out.1.worker.isFinished then fs else .exec j :: fs

/-- The stack after a step of the submitter's side of job `j` on top of `fs`. -/
def registerStack (j : ℕ) (c : Cell κ) (fs : List (Frame κ)) : List (Frame κ) :=
  if c.submitter.isFinished then fs else .register j :: fs

variable (s : Shared κ)

/-- A queue without a bound is never full. -/
def isFull : Bool := 0 < s.maxsize && s.maxsize ≤ s.queue.length

def live (k : ℕ) : Bool := k < s.owners.length

def setCell (j : ℕ) (c : Cell κ) : Shared κ := { s with cells := s.cells.set j c }

/-- The callback of job `j` on the queue of its owner. -/
def enqueue (j : ℕ) (owner : Option ℕ) : Shared κ :=
  { s with owners := owner.elim s.owners fun k =>
      s.owners.modify k fun o => { o with queue := o.queue ++ [j] } }

/-- A put that succeeds. -/
def push (job : Job κ) (owner : Option ℕ) : Shared κ :=
  { s with cells := s.cells ++ [Cell.new job owner], queue := s.queue ++ [s.cells.length] }

/-- A job that its submitter runs itself. -/
def fallback (job : Job κ) (owner : Option ℕ) : Shared κ :=
  { s with cells := s.cells ++ [(Cell.new job owner).take] }

/-- A step of the worker's side of job `j` on top of `fs`. -/
def stepExec (j : ℕ) (fs : List (Frame κ)) : Option (Shared κ × List (Frame κ)) :=
  (s.cells[j]?).bind fun c => (c.work s.live).map fun out =>
    (if out.1.worker.forwarded then (s.setCell j out.1).enqueue j c.owner else s.setCell j out.1,
      workStack j out fs)

/-- A step of the submitter's side of job `j` on top of `fs`. -/
def stepRegister (j : ℕ) (fs : List (Frame κ)) : Option (Shared κ × List (Frame κ)) :=
  (s.cells[j]?).bind fun c => (c.register s.live).map fun c' =>
    (if c'.submitter.forwarded then (s.setCell j c').enqueue j c.owner else s.setCell j c',
      registerStack j c' fs)

/-- `queue.Full` leaves the submission: the job that made it fails, a caller ends. -/
def raiseFull : List (Frame κ) → Shared κ
  | .exec j :: _ => { s with cells := s.cells.modify j fun c => c.raise "queue.Full" }
  | _ => s

variable [Submission κ]

open Submission

/-- `_sync_fallback()`. -/
def stepFallback (a : κ) (job : Job κ) (fs : List (Frame κ)) : Shared κ × List (Frame κ) :=
  (s.fallback job (owner a), .exec s.cells.length :: .register s.cells.length :: fs)

/-- The step of the top of a stack. -/
def step (late : Bool) : List (Frame κ) → Option (Shared κ × List (Frame κ))
  | [] => none
  | .exec j :: fs => s.stepExec j fs
  | .register j :: fs => s.stepRegister j fs
  | .call a job :: fs =>
    if orExecute a && (options a).forceSync then some (s.stepFallback a job fs)
    else
      match put (options a).block (options a).timeout s.isFull late with
      | .done => some (s.push job (owner a), .register s.cells.length :: fs)
      | .full =>
        if orExecute a then some (s, .retry a job :: fs) else some (s.raiseFull fs, fs)
      | .waits => none
  | .retry a job :: fs =>
    match put (options a).blocking.block (options a).blocking.timeout s.isFull late with
    | .done => some (s.push job (owner a), .register s.cells.length :: fs)
    | .full => some (s.stepFallback a job fs)
    | .waits => none

end Shared

inductive Action (κ : Type)
  /-- A new caller submits a job. -/
  | arrive (a : κ) (job : Job κ)
  | worker (i : ℕ) (late : Bool)
  | caller (i : ℕ) (late : Bool)
  /-- Owner `k` runs a callback of its queue. -/
  | drain (k : ℕ)
  | shutdown

/-- The result the callback adds: zero for a job that failed. -/
def Cell.value {κ : Type} (c : Cell κ) : ℤ :=
  match c.promise.head? with
  | some (.ok n) => n
  | _ => 0

def Shared.value {κ : Type} (s : Shared κ) (j : ℕ) : ℤ := (s.cells[j]?).elim 0 Cell.value

/-- One round of `_drain_callbacks`. -/
def Owner.drain (value : ℕ → ℤ) (o : Owner) : Option Owner :=
  match o.queue with
  | [] => none
  | j :: rest => some { queue := rest, ran := o.ran ++ [j], counter := o.counter + value j }

namespace Pool

section Moves

variable {κ : Type} (σ : Pool κ)

/-- A worker after its stack was left as `fs`. -/
def resume : List (Frame κ) → Worker κ
  | [] => .top
  | fs => .busy fs

/-- A step of `shutdown`. -/
def stepShutdown : Option (Pool κ) :=
  match σ.shutdown with
  | .idle => some { σ with stop := true, shutdown := .draining }
  | .draining =>
    match σ.queue with
    | j :: rest =>
      some { σ with queue := rest, cells := σ.cells.modify j Cell.drain }
    | [] => some { σ with shutdown := .joining }
  | .joining =>
    if σ.workers.all (fun | .exited => true | _ => false) then some { σ with shutdown := .returned }
    else none
  | .returned => none

/-- A pool that was started, with its workers and the owners of callbacks. -/
def start (maxsize workers owners : ℕ) : Pool κ where
  maxsize := maxsize
  queue := []
  cells := []
  owners := List.replicate owners {}
  workers := List.replicate workers .top
  callers := []
  stop := false
  shutdown := .idle

end Moves

variable {κ : Type} [Submission κ] (σ : Pool κ)

/-- A step of `_worker_loop`. -/
def stepWorker (late : Bool) : Worker κ → Option (Pool κ × Worker κ)
  | .top => some (σ, if σ.stop then .exited else .getting)
  | .getting =>
    match σ.queue with
    | j :: rest =>
      some ({ σ with queue := rest, cells := σ.cells.modify j Cell.take }, .busy [.exec j])
    | [] => some (σ, .top)
  | .busy fs => (σ.toShared.step late fs).map fun out => ({ σ with toShared := out.1 }, resume out.2)
  | .exited => none

def act : Action κ → Option (Pool κ)
  | .arrive a job => some { σ with callers := σ.callers ++ [[.call a job]] }
  | .worker i late =>
    (σ.workers[i]?).bind fun w => (σ.stepWorker late w).map fun out =>
      { out.1 with workers := out.1.workers.set i out.2 }
  | .caller i late =>
    (σ.callers[i]?).bind fun fs => (σ.toShared.step late fs).map fun out =>
      { σ with toShared := out.1, callers := σ.callers.set i out.2 }
  | .drain k =>
    (σ.owners[k]?).bind fun o => (o.drain σ.value).map fun o' =>
      { σ with owners := σ.owners.set k o' }
  | .shutdown => σ.stepShutdown

end Pool

end YtScheduler.Pooling
