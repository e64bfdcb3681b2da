import YtScheduler.Pooling.Steps

/-! The invariant of one job. Whatever the two sides do, the promise is completed once
and the callable is run once; and a submitter that found the promise pending has
stored callback and owner before, so that the worker finds them. -/

namespace YtScheduler.Pooling

variable {κ : Type}

namespace WorkerSide

/-- The promise is not completed yet. -/
def pending : WorkerSide κ → Bool
  | .queued => true
  | .running _ _ => true
  | _ => false

/-- No worker takes the job, or none has yet. -/
def unstarted : WorkerSide κ → Bool
  | .queued => true
  | .drained => true
  | _ => false

end WorkerSide

/-- The callback is not stored yet, or its owner is not. -/
def SubmitterSide.early : SubmitterSide → Bool
  | .returned _ => true
  | .callbackStored _ => true
  | _ => false

/-- The callback and its owner are stored. -/
def SubmitterSide.stored : SubmitterSide → Bool
  | .refStored => true
  | .sawDone => true
  | _ => false

/-- The submitter has found the promise done. -/
def SubmitterSide.saw : SubmitterSide → Bool
  | .sawDone => true
  | .finished b => b
  | _ => false

namespace Cell

/-- What can happen to a job. -/
inductive Move (live : ℕ → Bool) (c : Cell κ) : Cell κ → Prop
  | take (h : c.worker = .queued) : Move live c c.take
  | drain (h : c.worker = .queued) : Move live c c.drain
  | work {out : Cell κ × Option (κ × Job κ)} (h : c.work live = some out) : Move live c out.1
  | register {c' : Cell κ} (h : c.register live = some c') : Move live c c'
  | raise : Move live c (c.raise "queue.Full")

/-- What a call of the job can come to: what its callable returns or raises, or the exception
of a submission it makes. -/
def comesTo (c : Cell κ) (out : Outcome) : Prop := out = c.job.outcome ∨ out = .error "queue.Full"

structure Ok (live : ℕ → Bool) (c : Cell κ) : Prop where
  promise : c.promise.length = if c.worker.pending then 0 else 1
  executed : c.executed = if c.worker.unstarted then 0 else 1
  early : c.submitter.early = true → c.owner = none
  stored : c.submitter.stored = true → c.owner.isSome = true
  callback : c.owner.isSome = true → c.callback = true
  callbackStored : ∀ k, c.submitter = .callbackStored k → c.callback = true
  workerForwarded : c.worker.forwarded = true → c.reaches live = true
  submitterForwarded : c.submitter.forwarded = true → c.reaches live = true
  saw : c.submitter.saw = true → c.worker.pending = false
  /-- A worker that comes after a submitter that saw the promise pending forwards. -/
  handed : c.submitter = .finished false → c.reaches live = true → c.worker ≠ .finished false
  running : ∀ calls out, c.worker = .running calls out → c.comesTo out
  answers : ∀ out ∈ c.promise, c.comesTo out ∨ out = .error "Pool shutdown before execution"

variable {live : ℕ → Bool} {c c' : Cell κ}

theorem Ok.new (job : Job κ) (owner : Option ℕ) : (Cell.new job owner).Ok live := by
  constructor <;> simp [Cell.new, WorkerSide.pending, WorkerSide.unstarted, WorkerSide.forwarded,
    SubmitterSide.early, SubmitterSide.stored, SubmitterSide.forwarded, SubmitterSide.saw]

theorem reaches_isSome (h : c.reaches live = true) : c.owner.isSome = true := by
  cases ho : c.owner with
  | none => simp [reaches, ho] at h
  | some k => rfl

/-- The promise is completed when the worker's side or shutdown is past it. -/
theorem Ok.promise_eq_nil (h : c.Ok live) : c.promise = [] ↔ c.worker.pending = true := by
  have hp := h.promise
  rw [← List.length_eq_zero_iff, hp]
  cases c.worker.pending <;> simp

theorem Ok.take (h : c.Ok live) (hw : c.worker = .queued) : c.take.Ok live :=
  { h with
    promise := by simpa [hw, Cell.take, WorkerSide.pending] using h.promise
    executed := by
      have hexecuted := h.executed
      simp [hw, WorkerSide.unstarted] at hexecuted
      simp [Cell.take, WorkerSide.unstarted, hexecuted]
    workerForwarded := by simp [Cell.take, WorkerSide.forwarded]
    saw := by simpa [hw, Cell.take, WorkerSide.pending] using h.saw
    handed := by simp [Cell.take]
    running := by
      intro calls out hrun
      cases hrun
      exact Or.inl rfl }

theorem Ok.drain (h : c.Ok live) (hw : c.worker = .queued) : c.drain.Ok live := by
  have hnil : c.promise = [] := h.promise_eq_nil.mpr (by rw [hw]; rfl)
  exact
    { h with
      promise := by simp [Cell.drain, hnil, WorkerSide.pending]
      executed := by simpa [hw, Cell.drain, WorkerSide.unstarted] using h.executed
      workerForwarded := by simp [Cell.drain, WorkerSide.forwarded]
      saw := fun _ => rfl
      handed := by simp [Cell.drain]
      running := by simp [Cell.drain]
      answers := by simp [Cell.drain, hnil] }

theorem Ok.raise (h : c.Ok live) : (c.raise "queue.Full").Ok live := by
  rw [Cell.raise]
  split
  · rename_i calls outcome hw
    exact
      { h with
        promise := by simpa [hw, WorkerSide.pending] using h.promise
        executed := by simpa [hw, WorkerSide.unstarted] using h.executed
        workerForwarded := by simp [WorkerSide.forwarded]
        saw := by simpa [hw, WorkerSide.pending] using h.saw
        handed := by simp
        running := by
          intro calls out hrun
          cases hrun
          exact Or.inr rfl }
  · exact h

/-! ### The worker's side -/

/-- The callable makes its next submission. -/
theorem Ok.submits (h : c.Ok live) {call : κ × Job κ} {calls : List (κ × Job κ)} {outcome : Outcome}
    (hw : c.worker = .running (call :: calls) outcome) :
    ({ c with worker := .running calls outcome } : Cell κ).Ok live :=
  { h with
    promise := by simpa [hw, WorkerSide.pending] using h.promise
    executed := by simpa [hw, WorkerSide.unstarted] using h.executed
    workerForwarded := by simp [WorkerSide.forwarded]
    saw := by simpa [hw, WorkerSide.pending] using h.saw
    handed := by simp
    running := by
      intro calls' out hrun
      cases hrun
      exact h.running _ _ hw }

/-- The callable ends, and the promise is completed. -/
theorem Ok.settles (h : c.Ok live) {outcome : Outcome} (hw : c.worker = .running [] outcome) :
    ({ c with worker := .settled, promise := c.promise ++ [outcome] } : Cell κ).Ok live := by
  have hnil : c.promise = [] := h.promise_eq_nil.mpr (by rw [hw]; rfl)
  exact
    { h with
      promise := by simp [hnil, WorkerSide.pending]
      executed := by simpa [hw, WorkerSide.unstarted] using h.executed
      workerForwarded := by simp [WorkerSide.forwarded]
      saw := fun _ => rfl
      handed := by simp
      running := by simp
      answers := by
        intro out hout
        obtain rfl : out = outcome := by simpa [hnil] using hout
        exact Or.inl (h.running _ _ hw) }

/-- A worker past the promise that does not forward yet. -/
theorem Ok.passes (h : c.Ok live) {w : WorkerSide κ} (hpending : c.worker.pending = w.pending)
    (hunstarted : c.worker.unstarted = w.unstarted) (hforwarded : w.forwarded = true → c.reaches live = true)
    (hhanded : c.reaches live = true → w ≠ .finished false) (hrun : ∀ calls out, w ≠ .running calls out) :
    ({ c with worker := w } : Cell κ).Ok live :=
  { h with
    promise := by rw [← hpending]; exact h.promise
    executed := by rw [← hunstarted]; exact h.executed
    workerForwarded := hforwarded
    saw := by rw [← hpending]; exact h.saw
    handed := fun _ hreaches => hhanded hreaches
    running := fun calls out hw => absurd hw (hrun calls out) }

theorem Ok.work (h : c.Ok live) {out : Cell κ × Option (κ × Job κ)}
    (hw : c.work live = some out) : out.1.Ok live := by
  rw [Cell.work] at hw
  split at hw
  · rename_i hworker
    cases hw
    exact h.submits hworker
  · rename_i hworker
    cases hw
    exact h.settles hworker
  · rename_i hworker
    split_ifs at hw with hcb
    · cases hw
      apply h.passes <;> simp [hworker, WorkerSide.pending, WorkerSide.unstarted, WorkerSide.forwarded]
    · cases hw
      -- without a callback there is no owner to reach
      have hnone : ¬c.reaches live = true := fun hreaches => hcb (h.callback (reaches_isSome hreaches))
      apply h.passes <;>
        simp [hworker, WorkerSide.pending, WorkerSide.unstarted, WorkerSide.forwarded, hnone]
  · rename_i hworker
    cases hw
    apply h.passes <;>
      simp [hworker, WorkerSide.pending, WorkerSide.unstarted, WorkerSide.forwarded]
  · cases hw

/-! ### The submitter's side -/

/-- A submitter that stores nothing. -/
theorem Ok.moves (h : c.Ok live) {sub : SubmitterSide} (hearly : sub.early = false)
    (hstored : sub.stored = true → c.owner.isSome = true)
    (hforwarded : sub.forwarded = true → c.reaches live = true)
    (hsaw : sub.saw = true → c.worker.pending = false)
    (hhanded : sub = .finished false → c.reaches live = true → c.worker ≠ .finished false) :
    ({ c with submitter := sub } : Cell κ).Ok live :=
  { h with
    early := fun he => absurd he (by simp [hearly])
    stored := hstored
    callbackStored := by
      rintro k rfl
      cases hearly
    submitterForwarded := hforwarded
    saw := hsaw
    handed := hhanded }

/-- The callback is stored. -/
theorem Ok.stores (h : c.Ok live) {k : ℕ} (hs : c.submitter = .returned (some k)) :
    ({ c with callback := true, submitter := .callbackStored k } : Cell κ).Ok live :=
  { h with
    early := fun _ => h.early (by rw [hs]; rfl)
    stored := by simp [SubmitterSide.stored]
    callback := fun _ => rfl
    callbackStored := fun _ _ => rfl
    submitterForwarded := by simp [SubmitterSide.forwarded]
    saw := by simp [SubmitterSide.saw]
    handed := by simp }

/-- The owner is stored, and the worker has found none so far. -/
theorem Ok.storesOwner (h : c.Ok live) {k : ℕ} (hs : c.submitter = .callbackStored k) :
    ({ c with owner := some k, submitter := .refStored } : Cell κ).Ok live := by
  have hnone : c.owner = none := h.early (by rw [hs]; rfl)
  have hworker : ¬c.worker.forwarded = true := by
    intro hforwarded
    have hreaches := h.workerForwarded hforwarded
    rw [Cell.reaches, hnone] at hreaches
    cases hreaches
  exact
    { h with
      early := by simp [SubmitterSide.early]
      stored := fun _ => rfl
      callback := fun _ => h.callbackStored k hs
      callbackStored := by simp
      workerForwarded := fun hforwarded => absurd hforwarded hworker
      submitterForwarded := by simp [SubmitterSide.forwarded]
      saw := by simp [SubmitterSide.saw]
      handed := by simp }

theorem Ok.register (h : c.Ok live) (hr : c.register live = some c') : c'.Ok live := by
  have hnil := h.promise_eq_nil
  rw [Cell.register] at hr
  split at hr
  · rename_i hs
    cases hr
    have hnone : c.owner = none := h.early (by rw [hs]; rfl)
    apply h.moves <;> simp [SubmitterSide.early, SubmitterSide.stored, SubmitterSide.forwarded,
      SubmitterSide.saw, Cell.reaches, hnone]
  · rename_i hs
    cases hr
    exact h.stores hs
  · rename_i hs
    cases hr
    exact h.storesOwner hs
  · rename_i hs
    have howner : c.owner.isSome = true := h.stored (by rw [hs]; rfl)
    split_ifs at hr with hempty
    · cases hr
      have hpending := hnil.mp (List.isEmpty_iff.mp hempty)
      have hne : c.worker ≠ .finished false := by
        intro hfin
        rw [hfin] at hpending
        cases hpending
      apply h.moves <;> simp [SubmitterSide.early, SubmitterSide.stored, SubmitterSide.forwarded,
        SubmitterSide.saw, hne]
    · cases hr
      have hdone : c.worker.pending = false := by
        rw [Bool.eq_false_iff]
        exact fun hpending => hempty (List.isEmpty_iff.mpr (hnil.mpr hpending))
      apply h.moves <;> simp [SubmitterSide.early, SubmitterSide.stored, SubmitterSide.forwarded,
        SubmitterSide.saw, howner, hdone]
  · rename_i hs
    cases hr
    have hdone : c.worker.pending = false := h.saw (by rw [hs]; rfl)
    apply h.moves
    · rfl
    · simp [SubmitterSide.stored]
    · exact id
    · exact fun _ => hdone
    · intro hsub hreaches
      rw [hreaches] at hsub
      cases hsub
  · cases hr

theorem Ok.move (h : c.Ok live) (hm : c.Move live c') : c'.Ok live := by
  cases hm with
  | take hw => exact h.take hw
  | drain hw => exact h.drain hw
  | work hw => exact h.work hw
  | register hr => exact h.register hr
  | raise => exact h.raise

end Cell

end YtScheduler.Pooling
