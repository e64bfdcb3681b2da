import YtScheduler.Commands.CleanUp

/-! What a command that has returned leaves behind. However its job threads and the workers
of the pool are interleaved, whatever its jobs do and whichever statements fail, nothing of it
goes on, and `job_state` tells of every job when it was started and when it ended. -/

namespace YtScheduler.Commands

open Tablet Threads

variable {jobs : List Job} {n : ℕ} {k : ℕ} {job : Job} {s s' : Shared}
  {as : List (Action Choice Entry)} {σ : State}

/-! ### The command as a whole -/

/-- All runners are run in order. -/
theorem runJobs_spec (hids : Distinct jobs) :
    Spec jobs 0 (Prog.forEach (numbered jobs) fun r => runJob r.1 r.2)
      (Gives fun _ s => ∀ x ∈ numbered jobs, Begun x s) s := by
  refine gives_forEach (K := fun done s => ∀ x ∈ done, Begun x s) (by simp) fun x done rest s hxs hs => ?_
  rcases x with ⟨k, job⟩
  have hmem : ∀ y ∈ done ++ [(k, job)], jobs[y.1]? = some y.2 := fun y hy =>
    mem_numbered.mp (by rw [hxs, List.append_cons]; exact List.mem_append_left _ hy)
  have hnodup := nodup_numbered jobs
  rw [hxs, List.map_append, List.nodup_append, List.map_cons] at hnodup
  refine runJob_spec hids (hmem _ (by simp)) (fun y hy => ⟨hmem y (by simp [hy]), ?_⟩) hs
  exact hnodup.2.2 y.1 (List.mem_map_of_mem hy) k List.mem_cons_self

theorem runCommand_spec (hids : Distinct jobs) :
    Spec jobs 0 (runCommand jobs n) (Gives fun _ => Returned jobs) s := by
  have htrue : Steady jobs 0 fun _ => True := ⟨fun _ _ => trivial, fun _ _ => trivial⟩
  refine gives_tryFinally (A := Ended jobs) ?_ ?_ fun s' h => cleanUp_spec hids h
  · have hpool : (runPool jobs).Uses Op.IsQuiet := by
      unfold runPool
      split_ifs
      · exact .op trivial
      · trivial
    refine gives_bind (gives_quiet htrue hpool trivial) fun _ s₁ _ => ?_
    refine gives_bind (runJobs_spec hids) fun _ s₂ h₂ => ?_
    refine spec_mono (watch_spec (.ball fun x hx => begun_steady (mem_numbered.mp hx)) n h₂)
      fun r s hr a ha x hx => ?_
    exact ⟨(hr a ha).1 x hx, (hr a ha).2 x hx⟩
  · refine Prog.Uses.bind (.forEach fun _ _ => ?_) fun _ => ?_
    · exact uses_stopRunner trivial trivial trivial fun _ => trivial
    · exact uses_conclude (fun _ => trivial) trivial (fun _ => trivial) trivial fun _ => trivial

theorem Returned.rely (h : Returned jobs s) (hr : Relies jobs 0 s s') : Returned jobs s' where
  ended := ended_steady.rely h.ended hr
  stop x hx := stopped_kept.rely (h.stop x hx) hr
  recorded job hj := recorded_kept.rely (h.recorded job hj) hr
  pool hpool := (h.pool hpool).imp (hr.main rfl).pool.trans (hr.log _)

/-- What is asserted of the outcome of a thread: of the main thread only. -/
def outcomes (jobs : List Job) (i : ℕ) : Post Exn Unit Unit Shared :=
  fun r _ s => i = 0 → Gives (fun _ => Returned jobs) r s

theorem startable (hids : Distinct jobs) :
    Startable (command jobs) (contract jobs) (outcomes jobs) fun _ => True where
  stable i r l s s' h hr _ := by
    rintro rfl a ha
    exact (h rfl a ha).rely hr
  start e _ i s _ hf := by
    have hother : ∀ {p : P Unit}, Spec jobs i p (fun _ _ => True) s →
        Safe (command jobs) (contract jobs) i p (outcomes jobs i) () s := fun h =>
      Safe.mono h fun _ _ _ _ hi => absurd hi hf.1.ne'
    refine hother ?_
    cases e with
    | thread k =>
      show Spec jobs i (Entry.prog jobs (.thread k)) _ s
      rw [Entry.prog]
      cases hj : jobs[k]? with
      | none => exact trivial
      | some job =>
        simp only
        split_ifs with hlight
        · exact trivial
        · exact threadProg_spec hj hids (Bool.eq_false_iff.mpr hlight)
    | tick k threadId =>
      show Spec jobs i (Entry.prog jobs (.tick k threadId)) _ s
      rw [Entry.prog]
      cases hj : jobs[k]? with
      | none => exact trivial
      | some job => exact tickProg_spec hj hids threadId

theorem started_sound (hids : Distinct jobs) :
    Sound (command jobs) (contract jobs) (outcomes jobs) (started jobs n) where
  inv := ⟨fun _ _ _ _ h => by simp [started, Shared.initial] at h, fun _ _ h => by cases h⟩
  safe i th h := by
    cases i with
    | zero =>
      cases h
      exact Safe.mono (runCommand_spec hids) fun _ _ _ h _ => h
    | succ i => cases h
  fresh i hi := ⟨hi, fun j h => by simp [started, Shared.initial] at h⟩

/-- The main thread has returned. -/
def State.HasReturned (σ : State) : Prop := σ.threads[0]? = some ((), .ret ())

theorem returned_of_run (hids : Distinct jobs) (hrun : (command jobs).run (started jobs n) as = some σ)
    (hret : State.HasReturned σ) : Returned jobs σ.shared := by
  have hwithin : ∀ a ∈ as, a.Within fun _ : Entry => True := by
    intro a _
    cases a <;> trivial
  have hsound := (started_sound (n := n) hids).run (startable hids) hwithin hrun
  exact (hsound.safe 0 _ hret) rfl () rfl

/-! ### What is left -/

section Example

/-- A job that fails. -/
def failingJob : Job where
  name := "scheduler"
  jobId := 1
  hostname := "host"
  threadId := 1
  lightweight := false
  entry := Prog.raise ⟨.exception, 1⟩
  entry_uses := trivial

def failingStep (i : ℕ) : Action Choice Entry := .step i ⟨0, "now", none, false, 0⟩

/-- The job is started and fails, and the main thread sees it in its first round. -/
def failingRun : List (Action Choice Entry) :=
  List.replicate 4 (failingStep 0) ++ .spawn (.thread 0) :: List.replicate 12 (failingStep 1) ++
    List.replicate 15 (failingStep 0)

theorem failingJob_distinct : Distinct [failingJob] := List.nodup_singleton _

theorem failingRun_returns : ∃ σ, (command [failingJob]).run (started [failingJob] 1) failingRun = some σ ∧
    State.HasReturned σ := by
  obtain ⟨σ, h⟩ := Option.isSome_iff_exists.mp
    (show ((command [failingJob]).run (started [failingJob] 1) failingRun).isSome from rfl)
  refine ⟨σ, h, ?_⟩
  cases h
  rfl

end Example

/-- When `run_command` has returned, the threads of its jobs have ended, every runner has been told
to stop, and the pool was shut down, unless the log tells that its shutdown failed. -/
theorem a_returned_command_is_at_rest (hids : Distinct jobs)
    (hrun : (command jobs).run (started jobs n) as = some σ) (hret : State.HasReturned σ) :
    (∀ k job, jobs[k]? = some job → job.lightweight = false → (σ.shared.runners k).thread.IsOver) ∧
      (∀ k < jobs.length, (σ.shared.runners k).stop = true) ∧
      (hasPool jobs = true → σ.shared.pool = .down ∨ .shutdownFailed ∈ σ.shared.log) := by
  have h := returned_of_run hids hrun hret
  refine ⟨fun k job hj hlight => Ended.isOver h.ended hj hlight, fun k hk => ?_, h.pool⟩
  exact h.stop (k, jobs[k]) (mem_numbered.mpr (List.getElem?_eq_getElem hk))

theorem a_returned_command_is_at_rest_sample : ∃ σ,
    (command [failingJob]).run (started [failingJob] 1) failingRun = some σ ∧
      (σ.shared.runners 0).thread.IsOver ∧ (σ.shared.runners 0).stop = true := by
  obtain ⟨σ, h, hret⟩ := failingRun_returns
  obtain ⟨hover, hstop, -⟩ := a_returned_command_is_at_rest failingJob_distinct h hret
  exact ⟨σ, h, hover 0 failingJob rfl rfl, hstop 0 (by decide)⟩

/-- When `run_command` has returned, `job_state` has for every job a row with the date it was
started at and the date it ended at, unless the log tells that a heartbeat of the job or the last
flush failed, or the thread of the job ended as it had no client. -/
theorem a_returned_command_has_dated_its_jobs (hids : Distinct jobs)
    (hrun : (command jobs).run (started jobs n) as = some σ) (hret : State.HasReturned σ) :
    ∀ job ∈ jobs, (∃ d e, σ.shared.tableDates job = some (some d, some e)) ∨
      Excused jobs job σ.shared ∨ .lastFlushFailed ∈ σ.shared.log :=
  fun job hj => or_assoc.mp ((returned_of_run hids hrun hret).recorded job hj)

theorem a_returned_command_has_dated_its_jobs_sample : ∃ σ,
    (command [failingJob]).run (started [failingJob] 1) failingRun = some σ ∧
      ((∃ d e, σ.shared.tableDates failingJob = some (some d, some e)) ∨
        Excused [failingJob] failingJob σ.shared ∨ .lastFlushFailed ∈ σ.shared.log) := by
  obtain ⟨σ, h, hret⟩ := failingRun_returns
  exact ⟨σ, h, a_returned_command_has_dated_its_jobs failingJob_distinct h hret failingJob (by simp)⟩

end YtScheduler.Commands
