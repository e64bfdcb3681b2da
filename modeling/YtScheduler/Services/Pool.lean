import YtScheduler.Runs.DagRun

/-! The pool and the callback queues, from the side of the threads that submit. The
queue of the pool blocks when it is full, so a submission always succeeds. -/

namespace YtScheduler.Pool

open P Threads

/-- `submit_or_execute`. -/
def submit (fn : Job) : P ℕ := mem (.submit fn)

/-- `promise.on_complete(cb, owner_enqueue=svc.add_callback)`. -/
def onComplete (q svc : ℕ) (cb : Callback) : P Unit := do
  mem (.setCallback q svc cb)
  mem (.forwardIfDone q)

/-- `_PoolQueueable.execute`: the callback is forwarded whatever the outcome was. -/
def execute (q : ℕ) (fn : P JobResult) : P Unit := do
  let result ← fn.attempt
  mem (.setResult q result)
  mem (.forwardCallback q)

/-- One round of `_worker_loop`. -/
def workerIter (runJob : Job → P JobResult) : P Unit := do
  match ← mem .takeJob with
  | none => pure ()
  | some (q, fn) => execute q (runJob fn)

/-- `_drain_callbacks(max_count)`. -/
def drainCallbacks (svc : ℕ) (run : Callback → P Unit) : ℕ → P Unit
  | 0 => pure ()
  | n + 1 => do
    match ← mem (.takeCallback svc) with
    | none => pure ()
    | some cb => do
      (run cb).catching fun _ => pure ()
      drainCallbacks svc run n

/-- `n` rounds of a thread's loop. -/
def loop (iter : P Unit) : ℕ → P Unit
  | 0 => pure ()
  | n + 1 => do
    iter
    loop iter n

end YtScheduler.Pool
