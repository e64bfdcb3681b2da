import Mathlib.Data.Rat.Defs
import Mathlib.Algebra.Order.Ring.Rat

/-! One job of the pool: its promise, the callback registered on it, and the two
sides that work on it. The side of the worker runs the job, completes the promise
and forwards the callback it finds; the side of the submitter stores the callback
and its owner and forwards the callback itself when the promise is done. Neither
takes a lock, so each step below is one access to what they share. -/

namespace YtScheduler.Pooling

structure ExecutionOptions where
  forceSync : Bool := false
  block : Bool := false
  timeout : Option ℚ := none

/-- `{**_execution_options, "block": True}`. -/
def ExecutionOptions.blocking (o : ExecutionOptions) : ExecutionOptions := { o with block := true }

/-- How a caller submits: through `submit_or_execute` or `submit`, with which options, and the
owner it hands to `on_complete`, if it registers a callback. -/
class Submission (κ : Type) where
  orExecute : κ → Bool
  options : κ → ExecutionOptions
  owner : κ → Option ℕ

/-- The arguments of a submission with its owner. -/
structure CallArgs where
  orExecute : Bool := true
  options : ExecutionOptions := {}
  owner : Option ℕ := none

instance : Submission CallArgs := ⟨CallArgs.orExecute, CallArgs.options, CallArgs.owner⟩

/-- What a promise is completed with: a result, or the text of an exception. -/
abbrev Outcome := Except String ℤ

/-- A callable: the submissions it makes, and what it returns or raises after them. -/
inductive Job (κ : Type)
  | mk (calls : List (κ × Job κ)) (outcome : Outcome)

namespace Job

variable {κ : Type}

def calls : Job κ → List (κ × Job κ)
  | .mk calls _ => calls

def outcome : Job κ → Outcome
  | .mk _ outcome => outcome

end Job

/-- Where the side of the worker stands. At the end it knows whether it has put the callback
on a queue. -/
inductive WorkerSide (κ : Type)
  | queued
  /-- `_fn()` runs, with these submissions to come. -/
  | running (calls : List (κ × Job κ)) (outcome : Outcome)
  /-- The promise is completed; `self.callback` comes next. -/
  | settled
  /-- A callback was found; the owner reference comes next. -/
  | forwarding
  | finished (forwarded : Bool)
  /-- Shutdown took the job from the queue. -/
  | drained

/-- Where the side of the submitter stands. -/
inductive SubmitterSide
  /-- The promise was returned; a callback for the owner comes next. -/
  | returned (owner : Option ℕ)
  | callbackStored (owner : ℕ)
  /-- The callback and the owner are stored; `promise.done()` comes next. -/
  | refStored
  | sawDone
  | finished (forwarded : Bool)
  deriving DecidableEq

/-- A `_PoolQueueable`. The outcomes its promise was completed with are kept in a list, and
the runs of its callable are counted. -/
structure Cell (κ : Type) where
  job : Job κ
  promise : List Outcome
  callback : Bool
  owner : Option ℕ
  executed : ℕ
  worker : WorkerSide κ
  submitter : SubmitterSide

namespace WorkerSide

variable {κ : Type}

/-- The worker has taken the job and is not yet done with it. -/
def active : WorkerSide κ → Bool
  | .running _ _ => true
  | .settled => true
  | .forwarding => true
  | _ => false

def isFinished : WorkerSide κ → Bool
  | .finished _ => true
  | _ => false

def forwarded : WorkerSide κ → Bool
  | .finished b => b
  | _ => false

end WorkerSide

namespace SubmitterSide

def isFinished : SubmitterSide → Bool
  | .finished _ => true
  | _ => false

def forwarded : SubmitterSide → Bool
  | .finished b => b
  | _ => false

end SubmitterSide

namespace Cell

variable {κ : Type}

/-- A new job: its submitter holds the promise. -/
def new (job : Job κ) (owner : Option ℕ) : Cell κ where
  job := job
  promise := []
  callback := false
  owner := none
  executed := 0
  worker := .queued
  submitter := .returned owner

/-- A worker starts `execute()`. -/
def take (c : Cell κ) : Cell κ :=
  { c with worker := .running c.job.calls c.job.outcome, executed := c.executed + 1 }

/-- An exception of a submission leaves `_fn()`. -/
def raise (c : Cell κ) (message : String) : Cell κ :=
  match c.worker with
  | .running _ _ => { c with worker := .running [] (.error message) }
  | _ => c

/-- `_forward_callback` puts the callback on a queue: an owner is stored and alive. -/
def reaches (c : Cell κ) (live : ℕ → Bool) : Bool := c.owner.any live

/-- The next step of `execute()`, with the submission it starts. -/
def work (live : ℕ → Bool) (c : Cell κ) : Option (Cell κ × Option (κ × Job κ)) :=
  match c.worker with
  | .running (call :: calls) outcome => some ({ c with worker := .running calls outcome }, some call)
  | .running [] outcome =>
    some ({ c with worker := .settled, promise := c.promise ++ [outcome] }, none)
  | .settled =>
    if c.callback then some ({ c with worker := .forwarding }, none)
    else some ({ c with worker := .finished false }, none)
  | .forwarding => some ({ c with worker := .finished (c.reaches live) }, none)
  | _ => none

/-- The next step after the promise was returned: `on_complete`, if there is a callback. -/
def register (live : ℕ → Bool) (c : Cell κ) : Option (Cell κ) :=
  match c.submitter with
  | .returned none => some { c with submitter := .finished false }
  | .returned (some k) => some { c with callback := true, submitter := .callbackStored k }
  | .callbackStored k => some { c with owner := some k, submitter := .refStored }
  | .refStored =>
    if c.promise.isEmpty then some { c with submitter := .finished false }
    else some { c with submitter := .sawDone }
  | .sawDone => some { c with submitter := .finished (c.reaches live) }
  | .finished _ => none

/-- Shutdown completes a job it found on the queue. -/
def drain (c : Cell κ) : Cell κ :=
  { c with
    worker := .drained
    promise := c.promise ++ [.error "Pool shutdown before execution"] }

end Cell

end YtScheduler.Pooling
