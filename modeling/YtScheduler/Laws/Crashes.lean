import YtScheduler.Jobs.Runner
import YtScheduler.Laws.Retries

/-! What a `JobRunner` reports of a crash. The `finally` of `_execute` returns, so that no
exception of a service reaches its runner. -/

namespace YtScheduler.Jobs

open Blocks

variable {ω ε : Type} [BaseException ε]

/-- A run of a service that a new runner starts in the state `s`: its start-up or its loop raises. -/
def Service.Raises (j : Service ω ε) (s : ω) (e : ε) : Prop :=
  ∃ s₀ t, heartbeatTick j.touchJob s = (.ok (), s₀) ∧ j.body s₀ (.raises e) t

/-- The runner of a service that was started in the state `s` has ended with the right state and
exception. -/
structure ReportsCrash (j : Service ω ε) (s : ω) (runner : JobRunner ε) : Prop where
  failed : ∀ e, isException e = true → j.Raises s e →
    runner.state = some .failed ∧ runner.exception = some e
  success : (∃ s₀, heartbeatTick j.touchJob s = (.ok (), s₀)) →
    (∀ e, isException e = true → ¬j.Raises s e) →
    runner.state = some .success ∧ runner.exception = none

/-- A call of the start-up raises, or one of the loop does after some full iterations. -/
def Service.CrashesFrom (j : Service ω ε) (s : ω) (e : ε) : Prop :=
  (∃ t, j.startUp s = (.error e, t)) ∨ ∃ s₀, j.startUp s = (.ok (), s₀) ∧
    ∃ n s₁, Rounds j.goesOn j.round n s₀ s₁ ∧
      ((∃ t, j.goesOn s₁ = (.error e, t)) ∨
        ∃ s₂, j.goesOn s₁ = (.ok true, s₂) ∧ ∃ t, j.round s₂ = (.error e, t))

variable {j : Service ω ε} {s s₀ : ω} {e : ε} {t t' : Frame ω ε} {r : Completion ε (Option ℤ)}

/-- The body of `_execute` raises what its start-up or its loop raises. -/
theorem body_raises : (∃ t, j.body s (.raises e) t) ↔ j.CrashesFrom s e := by
  simp only [Service.body, seq_raises, act_raises, act_falls, whileDo_raises, Service.CrashesFrom]
  constructor
  · rintro ⟨t, hstart | ⟨s₀, hstart, n, s₁, hrounds, hgo | ⟨s₂, hgo, hround⟩⟩⟩
    · exact Or.inl ⟨t, hstart⟩
    · exact Or.inr ⟨s₀, hstart, n, s₁, hrounds, Or.inl ⟨t, hgo⟩⟩
    · exact Or.inr ⟨s₀, hstart, n, s₁, hrounds, Or.inr ⟨s₂, hgo, t, hround⟩⟩
  · rintro (⟨t, hstart⟩ | ⟨s₀, hstart, n, s₁, hrounds, ⟨t, hgo⟩ | ⟨s₂, hgo, t, hround⟩⟩)
    · exact ⟨t, Or.inl hstart⟩
    · exact ⟨t, Or.inr ⟨s₀, hstart, n, s₁, hrounds, Or.inl hgo⟩⟩
    · exact ⟨t, Or.inr ⟨s₀, hstart, n, s₁, hrounds, Or.inr ⟨s₂, hgo, hround⟩⟩⟩

/-- `_execute` returns `None`, however its body ends. -/
theorem execute_returns {r : Completion ε (Option ℤ)} {s' : ω} (h : j.execute s r s') :
    r = .returns none :=
  (tryFinally_ret.mp h).2

/-- The last heartbeat leaves the runner's state and exception alone. -/
theorem completeExecution_runner (h : act (completeExecution j) t r t') :
    t'.runner.state = t.runner.state ∧ t'.runner.exception = t.runner.exception := by
  rw [act_state h]
  simp only [completeExecution, bind, Act.on, Frame.rest]
  rcases heartbeatTick j.touchJob t.world with ⟨_ | _, s'⟩
  · exact ⟨rfl, rfl⟩
  · exact ⟨rfl, rfl⟩

theorem prepareForExecution_ok (hstart : heartbeatTick j.touchJob t.world = (.ok (), s₀)) :
    prepareForExecution j t = (.ok (), { t with runner.started := true, world := s₀ }) := by
  simp only [prepareForExecution, bind, Act.on, Frame.rest, hstart]

/-- The inner `try` falls through, with the state set to a success. -/
theorem runExecute_falls (h : runExecute j t r t') :
    r = .falls ∧ t'.runner.state = some .success ∧ t'.runner.exception = t.runner.exception := by
  have hcall : ∀ {r' : Completion ε (Option ℤ)} {t₁ : Frame ω ε},
      call Frame.rest j.execute Frame.setRet t r' t₁ →
      r' = .falls ∧ t₁.runner = t.runner := by
    rintro r' t₁ ⟨r₁, s', hexec, hstore⟩
    obtain rfl := execute_returns hexec
    obtain ⟨rfl, rfl⟩ := hstore
    exact ⟨rfl, rfl⟩
  rcases h with ⟨(⟨t₁, hexec, rfl, rfl⟩ | ⟨hne, hexec⟩), -⟩ | ⟨e, t₁, hd, hraise, -, -⟩
  · have hrunner := (hcall hexec).2
    refine ⟨rfl, rfl, ?_⟩
    change t₁.runner.exception = t.runner.exception
    rw [hrunner]
  · exact absurd (hcall hexec).1 hne
  · rcases seq_raises.mp hraise with hexec | ⟨t₂, -, hassign, -⟩
    · cases (hcall hexec).1
    · cases hassign

/-- A service whose first heartbeat succeeds always ends as a success. -/
theorem target_success (h : target j (fresh s) r t)
    (hstart : heartbeatTick j.touchJob s = (.ok (), s₀)) :
    t.runner.state = some .success ∧ t.runner.exception = none := by
  obtain ⟨r₁, t₁, r₂, hinner, hcomplete, -⟩ := h
  obtain ⟨hstate, hexc⟩ := completeExecution_runner hcomplete
  rw [hstate, hexc]
  have hprepare := prepareForExecution_ok (j := j) (t := Frame.setState .running (fresh s)) hstart
  rw [seq_assign] at hinner
  rcases hinner with ⟨t₂, hact, hinner⟩ | ⟨hne, hact⟩
  · rw [act_falls, hprepare] at hact
    cases hact
    rw [seq_assign] at hinner
    rcases hinner with ⟨t₃, hrun, hinner⟩ | ⟨hne, hrun⟩
    · obtain ⟨-, hstate₃, hexc₃⟩ := runExecute_falls hrun
      rw [seq_assign] at hinner
      obtain ⟨-, rfl⟩ := hinner
      exact ⟨hstate₃, hexc₃⟩
    · exact absurd (runExecute_falls hrun).1 hne
  · rw [act, hprepare] at hact
    exact absurd hact.1 hne

theorem execute_ends {r' : Completion ε (Option ℤ)} {s₁ : ω} (hbody : j.body s₀ r' s₁) :
    j.execute s₀ (.returns none) s₁ := by
  refine tryFinally_ret.mpr ⟨?_, rfl⟩
  by_cases hcaught : ∃ e, r' = .raises e ∧ isException e = true
  · obtain ⟨e, rfl, he⟩ := hcaught
    exact ⟨.raises e, Or.inr ⟨e, s₁, raise e, hbody, if_pos he, rfl, rfl⟩⟩
  · refine ⟨r', Or.inl ⟨hbody, ?_⟩⟩
    rintro e rfl
    exact if_neg fun he => hcaught ⟨e, rfl, he⟩

theorem runExecute_ends {s₁ : ω} (hexec : j.execute t.world (.returns none) s₁) :
    ∃ t', runExecute j t .falls t' := by
  refine ⟨_, Or.inl ⟨Or.inl ⟨_, ⟨.returns none, s₁, hexec, rfl, rfl⟩, rfl, rfl⟩, ?_⟩⟩
  rintro e ⟨⟩

/-- The runner of a service whose body ends has an end. -/
theorem target_ends {r' : Completion ε (Option ℤ)} {s₁ : ω}
    (hstart : heartbeatTick j.touchJob s = (.ok (), s₀)) (hbody : j.body s₀ r' s₁) :
    ∃ r t, target j (fresh s) r t := by
  let t₀ : Frame ω ε := Frame.setState .running (fresh s)
  have hprepare : prepareForExecution j t₀ =
      (.ok (), { t₀ with runner.started := true, world := s₀ }) := prepareForExecution_ok hstart
  obtain ⟨t₁, hrun⟩ := runExecute_ends (j := j) (t := { t₀ with runner.started := true, world := s₀ })
    (execute_ends hbody)
  obtain ⟨r₂, t₂, hcomplete⟩ := act_ends (ρ := Option ℤ) (completeExecution j) (Frame.setResult t₁)
  refine ⟨_, t₂, .returns t₁.ret, Frame.setResult t₁, r₂, ?_, hcomplete, rfl⟩
  refine seq_assign.mpr (Or.inl ⟨_, act_falls.mpr hprepare, ?_⟩)
  exact seq_assign.mpr (Or.inl ⟨_, hrun, seq_assign.mpr ⟨rfl, rfl⟩⟩)

/-- What a runner has reported when it has ended is right exactly when neither the start-up nor an
iteration of the loop raised an exception. -/
theorem runner_reports_crash_iff (j : Service ω ε) (s : ω) {r : Completion ε (Option ℤ)}
    {t : Frame ω ε} (h : target j (fresh s) r t) :
    ReportsCrash j s t.runner ↔ ∀ e s₀, isException e = true →
      heartbeatTick j.touchJob s = (.ok (), s₀) → ¬j.CrashesFrom s₀ e := by
  constructor
  · intro hreports e s₀ he hstart hcrash
    obtain ⟨t', hbody⟩ := body_raises.mpr hcrash
    have hfailed := (hreports.failed e he ⟨s₀, t', hstart, hbody⟩).1
    rw [(target_success h hstart).1] at hfailed
    cases hfailed
  · intro hnone
    constructor
    · rintro e he ⟨s₀, t', hstart, hbody⟩
      exact absurd (body_raises.mp ⟨t', hbody⟩) (hnone e s₀ he hstart)
    · rintro ⟨s₀, hstart⟩ -
      exact target_success h hstart

/-! ### Two services -/

instance : BaseException CallException where
  kind _ := .exception
  assertionError := .assertionError
  kind_assertionError := rfl

/-- An executor that is told to stop after two iterations; the state counts them. -/
def stoppedExecutor : Executor ℕ CallException where
  pool := true
  stopped s := (.ok (decide (2 ≤ s)), s)
  touchJob := pure ()
  updatePendingTasks := pure ()
  startTaskruns := pure ()
  pollPendingOperations := pure ()
  submitOrphanCleanup := pure ()
  drainCallbacks := pure ()
  sleep s := (.ok (), s + 1)

theorem stoppedExecutor_reports :
    ∃ r t, target (.executor stoppedExecutor) (fresh 0) r t ∧
      ReportsCrash (.executor stoppedExecutor) 0 t.runner := by
  have hloop : whileDo (Service.executor stoppedExecutor).goesOn (Service.executor stoppedExecutor).round
      0 (.falls : Completion CallException (Option ℤ)) 2 :=
    .next rfl rfl (.next rfl rfl (.done rfl))
  obtain ⟨r, t, h⟩ := target_ends (j := .executor stoppedExecutor) (s := 0) rfl
    (Or.inl ⟨0, act_falls.mpr rfl, hloop⟩)
  refine ⟨r, t, h, (runner_reports_crash_iff _ _ h).mpr ?_⟩
  rintro e s₀ - - (⟨t', ht⟩ | ⟨s₁, -, n, s₂, -, ⟨t', ht⟩ | ⟨s₃, -, t', ht⟩⟩)
  · cases ht
  · cases ht
  · cases ht

/-- A scheduler without a pool, which is the default. -/
def poollessScheduler : Scheduler Unit CallException where
  pool := false
  stopped := pure false
  touchJob := pure ()
  createDagrunsForDags := pure ()
  queueScheduledDagruns := pure ()
  startQueuedDagruns := pure ()
  scheduleRunningDagruns := pure ()
  drainCallbacks := pure ()
  takeCreated := pure 0
  wait := pure ()

/-- The runner of the scheduler that crashed holds no exception. -/
theorem crash_not_reported :
    ¬∀ (j : Service Unit CallException) (s : Unit) (r : Completion CallException (Option ℤ))
      (t : Frame Unit CallException), target j (fresh s) r t → ReportsCrash j s t.runner := by
  intro h
  have hbody : (Service.scheduler poollessScheduler).body () (.raises .assertionError) () :=
    seq_raises.mpr (Or.inl (act_raises.mpr rfl))
  obtain ⟨r, t, hrun⟩ := target_ends (j := .scheduler poollessScheduler) (s := ()) rfl hbody
  have hfailed := ((h _ () r t hrun).failed _ rfl ⟨(), (), rfl, hbody⟩).1
  rw [(target_success hrun rfl).1] at hfailed
  cases hfailed

end YtScheduler.Jobs
