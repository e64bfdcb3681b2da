import YtScheduler.Commands.Running

/-! The contract of a command. A thread relies on nobody else dating the row of a job that
is its own; the main thread relies on the dead staying dead and on writing the table, the
stop events and the state of the pool alone. The row of a job whose thread is dead has both
dates, unless the log tells of a heartbeat that failed. -/

namespace YtScheduler.Commands

open Tablet Threads

variable {jobs : List Job} {s s' s'' : Shared} {i j : ℕ} {job : Job}

/-- The object of the row of a job. -/
def Job.ref (job : Job) : RunRef := ⟨job.name, job.jobId⟩

namespace Shared

/-- The dates of the row of a job, if it has one. -/
def dates (s : Shared) (job : Job) : Option (Option String × Option String) :=
  (s.registry.find job.ref).map fun row => (row.startDate, row.endDate)

/-- The row tells when the job was started, unless a heartbeat of the job failed. -/
def HasStart (s : Shared) (job : Job) : Prop :=
  (∃ d e, s.dates job = some (some d, e)) ∨ .heartbeatFailed job.jobId ∈ s.log

/-- The row tells when the job was started and when it ended. -/
def HasDates (s : Shared) (job : Job) : Prop :=
  (∃ d e, s.dates job = some (some d, some e)) ∨ .heartbeatFailed job.jobId ∈ s.log

end Shared

/-- The thread runs the job: its own, or a lightweight one in the main thread. -/
def Owns (i j : ℕ) (job : Job) (s : Shared) : Prop :=
  if job.lightweight then i = 0 else (s.runners j).thread = .alive i

/-- What the main thread relies on. -/
structure MainRelies (s s' : Shared) : Prop where
  pool : s'.pool = s.pool
  table : s'.table = s.table
  stop : ∀ j, (s'.runners j).stop = (s.runners j).stop
  ended : ∀ j, (s.runners j).thread.IsOver → (s'.runners j).thread = (s.runners j).thread
  unstarted : ∀ j, (s'.runners j).thread = .none ↔ (s.runners j).thread = .none

structure Relies (jobs : List Job) (i : ℕ) (s s' : Shared) : Prop where
  log : ∀ l ∈ s.log, l ∈ s'.log
  alive : ∀ j, (s'.runners j).thread = .alive i ↔ (s.runners j).thread = .alive i
  dates : ∀ j job, jobs[j]? = some job → Owns i j job s → s.dates job ≠ none → s'.dates job = s.dates job
  main : i = 0 → MainRelies s s'

structure Consistent (jobs : List Job) (s : Shared) : Prop where
  dead : ∀ j job, jobs[j]? = some job → job.lightweight = false → (s.runners j).thread = .dead → s.HasDates job
  known : ∀ ref row, s.registry.find ref = some row → ∃ job ∈ jobs, ref = job.ref

theorem MainRelies.refl (s : Shared) : MainRelies s s :=
  ⟨rfl, rfl, fun _ => rfl, fun _ _ => rfl, fun _ => Iff.rfl⟩

theorem MainRelies.trans (h : MainRelies s s') (h' : MainRelies s' s'') : MainRelies s s'' where
  pool := h'.pool.trans h.pool
  table := h'.table.trans h.table
  stop j := (h'.stop j).trans (h.stop j)
  ended j hj := (h'.ended j ((h.ended j hj).symm ▸ hj)).trans (h.ended j hj)
  unstarted j := (h'.unstarted j).trans (h.unstarted j)

theorem Relies.owns (h : Relies jobs i s s') : Owns i j job s' ↔ Owns i j job s := by
  rw [Owns, Owns]
  split_ifs
  · rfl
  · exact h.alive j

theorem Relies.trans (h : Relies jobs i s s') (h' : Relies jobs i s' s'') : Relies jobs i s s'' where
  log l hl := h'.log l (h.log l hl)
  alive j := (h'.alive j).trans (h.alive j)
  dates j job hj hown hne := by
    have hs := h.dates j job hj hown hne
    exact (h'.dates j job hj (h.owns.mpr hown) (hs ▸ hne)).trans hs
  main hi := (h.main hi).trans (h'.main hi)

def contract (jobs : List Job) : Contract Op Unit Shared where
  inv := Consistent jobs
  grows s s' := ∀ l ∈ s.log, l ∈ s'.log
  rely := Relies jobs
  guar _ _ _ s _ s' := ∀ l ∈ s.log, l ∈ s'.log
  fresh i s := 0 < i ∧ ∀ j, (s.runners j).thread ≠ .alive i
  refl _ s := ⟨fun _ h => h, fun _ => Iff.rfl, fun _ _ _ _ _ => rfl, fun _ => .refl s⟩
  trans _ _ _ _ := Relies.trans
  fresh_rely _ _ _ h hf := ⟨hf.1, fun j hj => hf.2 j ((h.alive j).mp hj)⟩
  grows_refl _ _ h := h
  grows_trans _ _ _ h h' l hl := h' l (h l hl)
  rely_grows _ _ _ h := h.log
  guar_grows _ _ _ _ _ _ h := h

/-- What thread `i` owes of a call. -/
abbrev Owes (jobs : List Job) (i : ℕ) (o : Op) (s s' : Shared) : Prop :=
  Owed (contract jobs) i o () s () s'

/-! ### Quiet calls -/

/-- The rows of the context and the threads of the runners are the same. -/
structure Quiet (s s' : Shared) : Prop where
  registry : s'.registry = s.registry
  thread : ∀ j, (s'.runners j).thread = (s.runners j).thread
  log : ∀ l ∈ s.log, l ∈ s'.log

/-- What only the main thread writes is the same. -/
structure Aside (s s' : Shared) : Prop where
  pool : s'.pool = s.pool
  table : s'.table = s.table
  stop : ∀ j, (s'.runners j).stop = (s.runners j).stop

/-- The call leaves the rows of the context and the threads of the runners. -/
def Op.IsQuiet : Op → Prop
  | .touchJob _ => False
  | .startThread _ => False
  | .enter _ => False
  | .leave _ => False
  | .abort _ => False
  | _ => True

/-- The call writes what only the main thread writes. -/
def Op.IsMain : Op → Prop
  | .setStop _ _ => True
  | .runPool => True
  | .shutdownPool => True
  | .upsertRows _ => True
  | _ => False

variable {o : Op} {t : ℕ} {ch : Choice}

theorem Quiet.refl (s : Shared) : Quiet s s := ⟨rfl, fun _ => rfl, fun _ h => h⟩

theorem Aside.refl (s : Shared) : Aside s s := ⟨rfl, rfl, fun _ => rfl⟩

/-- A runner that keeps its thread. -/
theorem quiet_setRunner {r : Runner} (h : r.thread = (s.runners j).thread) : Quiet s (s.setRunner j r) := by
  refine ⟨rfl, fun k => ?_, fun _ h => h⟩
  by_cases hk : k = j
  · subst hk
    simpa [Shared.setRunner] using h
  · simp [Shared.setRunner, hk]

theorem aside_setRunner {r : Runner} (h : r.stop = (s.runners j).stop) : Aside s (s.setRunner j r) := by
  refine ⟨rfl, rfl, fun k => ?_⟩
  by_cases hk : k = j
  · subst hk
    simpa [Shared.setRunner] using h
  · simp [Shared.setRunner, hk]

theorem Op.IsQuiet.exec (h : o.IsQuiet) (t : ℕ) (ch : Choice) (s : Shared) : Quiet s (o.exec t ch s).2 := by
  cases o with
  | touchJob o => exact h.elim
  | startThread j => exact h.elim
  | enter j => exact h.elim
  | leave j => exact h.elim
  | abort j => exact h.elim
  | assign j f => exact quiet_setRunner rfl
  | setStop j b => exact quiet_setRunner rfl
  | log l => exact ⟨rfl, fun _ => rfl, fun _ h => List.mem_cons_of_mem _ h⟩
  | upsertRows refs =>
    rcases ch with ⟨_, _, _ | e, _ | _, _⟩ <;> exact ⟨rfl, fun _ => rfl, fun _ h => h⟩
  | runPool => rcases ch with ⟨_, _, _ | e, _, _⟩ <;> exact ⟨rfl, fun _ => rfl, fun _ h => h⟩
  | shutdownPool => rcases ch with ⟨_, _, _ | e, _, _⟩ <;> exact ⟨rfl, fun _ => rfl, fun _ h => h⟩
  | world => rcases ch with ⟨_, _, _ | e, _, _⟩ <;> exact .refl s
  | _ => exact .refl s

theorem Op.exec_aside (h : ¬o.IsMain) (t : ℕ) (ch : Choice) (s : Shared) : Aside s (o.exec t ch s).2 := by
  cases o with
  | setStop j b => exact absurd trivial h
  | runPool => exact absurd trivial h
  | shutdownPool => exact absurd trivial h
  | upsertRows refs => exact absurd trivial h
  | assign j f => exact aside_setRunner rfl
  | startThread j => exact aside_setRunner rfl
  | touchJob o => rcases ch with ⟨_, _, _ | e, _, _⟩ <;> exact ⟨rfl, rfl, fun _ => rfl⟩
  | log l => exact ⟨rfl, rfl, fun _ => rfl⟩
  | world => rcases ch with ⟨_, _, _ | e, _, _⟩ <;> exact .refl s
  | enter j =>
    simp only [Op.exec]
    split_ifs
    · exact aside_setRunner rfl
    · exact .refl s
  | leave j =>
    simp only [Op.exec]
    split_ifs
    · exact aside_setRunner rfl
    · exact .refl s
  | abort j =>
    simp only [Op.exec]
    split_ifs
    · exact aside_setRunner rfl
    · exact .refl s
  | _ => exact .refl s

namespace Quiet

variable (h : Quiet s s')
include h

theorem dates (job : Job) : s'.dates job = s.dates job := by rw [Shared.dates, Shared.dates, h.registry]

theorem hasStart (hs : s.HasStart job) : s'.HasStart job := hs.imp (h.dates job ▸ id) (h.log _)

theorem hasDates (hs : s.HasDates job) : s'.HasDates job := hs.imp (h.dates job ▸ id) (h.log _)

theorem owns (hs : Owns i j job s) : Owns i j job s' := by
  rw [Owns] at hs ⊢
  rwa [h.thread]

theorem consistent (hc : Consistent jobs s) : Consistent jobs s' where
  dead j job hj hlight hdead := h.hasDates (hc.dead j job hj hlight ((h.thread j).symm.trans hdead))
  known := h.registry ▸ hc.known

end Quiet

theorem owes_quiet (hc : Consistent jobs s) (h : Quiet s s') (hmain : i ≠ 0 → Aside s s') :
    Owes jobs i o s s' := by
  refine ⟨h.consistent hc, fun k hk => ?_, h.log⟩
  refine ⟨h.log, fun j => by rw [h.thread], fun j job _ _ _ => h.dates job, ?_⟩
  rintro rfl
  obtain ⟨hpool, htable, hstop⟩ := hmain (Ne.symm hk)
  exact ⟨hpool, htable, hstop, fun j _ => h.thread j, fun j => by rw [h.thread]⟩

/-! ### Heartbeats -/

theorem dates_touchJob {ts : Timestamp} {o : HeartbeatOptions} (htype : o.jobType = job.name)
    (hid : o.jobId = job.jobId) :
    (s.touchJob ts o).dates job =
      some (o.startDate.getD ((s.dates job).elim none Prod.fst),
        o.endDate.getD ((s.dates job).elim none Prod.snd)) := by
  rw [Shared.dates, Shared.touchJob, Registry.find_touchJob, if_pos ⟨htype, hid⟩, Shared.dates]
  cases s.registry.find job.ref <;> rfl

theorem dates_touchJob_of_ne {ts : Timestamp} {o : HeartbeatOptions} (h : o.jobId ≠ job.jobId) :
    (s.touchJob ts o).dates job = s.dates job := by
  rw [Shared.dates, Shared.touchJob, Registry.find_touchJob, if_neg fun h' => h h'.2, Shared.dates]

/-- A heartbeat without dates leaves those of the row. -/
theorem dates_touchJob_undated {ts : Timestamp} {o : HeartbeatOptions} (htype : o.jobType = job.name)
    (hid : o.jobId = job.jobId) (hstart : o.startDate = none) (hend : o.endDate = none)
    (hne : s.dates job ≠ none) :
    (s.touchJob ts o).dates job = s.dates job := by
  rw [dates_touchJob htype hid, hstart, hend]
  obtain ⟨d, hd⟩ := Option.ne_none_iff_exists'.mp hne
  rw [hd]
  rfl

/-- The heartbeat is one for the job, and dates its row only if the thread owns the job. -/
structure HeartbeatOf (jobs : List Job) (i k : ℕ) (job : Job) (o : HeartbeatOptions) (s : Shared) : Prop where
  mem : jobs[k]? = some job
  jobType : o.jobType = job.name
  jobId : o.jobId = job.jobId
  dates : o.startDate = none ∧ o.endDate = none ∨ Owns i k job s

/-- The ids of the jobs are different. -/
abbrev Distinct (jobs : List Job) : Prop := (jobs.map fun job => job.jobId).Nodup

theorem Distinct.eq (h : Distinct jobs) {job' : Job} {k : ℕ} (hj : jobs[j]? = some job)
    (hk : jobs[k]? = some job') (hid : job.jobId = job'.jobId) : j = k := by
  have hlt : j < (jobs.map fun job => job.jobId).length := by
    rw [List.length_map]
    exact (List.getElem?_eq_some_iff.mp hj).1
  refine (List.getElem?_inj hlt h).mp ?_
  rw [List.getElem?_map, List.getElem?_map, hj, hk]
  exact congrArg some hid

theorem owes_touchJob {k : ℕ} {ts : Timestamp} {op : HeartbeatOptions} (hids : Distinct jobs)
    (hc : Consistent jobs s) (h : HeartbeatOf jobs i k job op s) :
    Owes jobs i o s (s.touchJob ts op) := by
  have hother : ∀ m job', jobs[m]? = some job' → m ≠ k → op.jobId ≠ job'.jobId := by
    intro m job' hm hne hid
    exact hne (hids.eq hm h.mem (hid.symm.trans h.jobId))
  -- the dates of a job that another thread owns, or whose thread is dead, are left
  have hdates : ∀ m job', jobs[m]? = some job' → (m = k → ¬Owns i k job s) → s.dates job' ≠ none →
      (s.touchJob ts op).dates job' = s.dates job' := by
    intro m job' hm hnot hne
    by_cases hmk : m = k
    · subst hmk
      cases Option.some.inj (hm.symm.trans h.mem)
      obtain ⟨hstart, hend⟩ := h.dates.resolve_right (hnot rfl)
      exact dates_touchJob_undated h.jobType h.jobId hstart hend hne
    · exact dates_touchJob_of_ne (hother m job' hm hmk)
  refine ⟨⟨?_, ?_⟩, ?_, fun _ h => h⟩
  · intro m job' hm hlight hdead
    rcases hc.dead m job' hm hlight hdead with ⟨d, e, hde⟩ | hlog
    · refine Or.inl ⟨d, e, ?_⟩
      rw [hdates m job' hm ?_ (by rw [hde]; simp), hde]
      rintro rfl hown
      cases Option.some.inj (hm.symm.trans h.mem)
      rw [Owns, hlight] at hown
      exact absurd (hown.symm.trans hdead) (by simp)
    · exact Or.inr hlog
  · intro ref row hrow
    rw [Shared.touchJob, Registry.find_touchJob] at hrow
    split_ifs at hrow with hif
    · refine ⟨job, List.mem_of_getElem? h.mem, ?_⟩
      rcases ref with ⟨jobType, jobId⟩
      rw [Job.ref, ← h.jobType, ← h.jobId, hif.1, hif.2]
    · exact hc.known ref row hrow
  · intro m hm
    refine ⟨fun _ h => h, fun _ => Iff.rfl, fun n job' hn hown hne => ?_, fun _ =>
      ⟨rfl, rfl, fun _ => rfl, fun _ _ => rfl, fun _ => Iff.rfl⟩⟩
    refine hdates n job' hn ?_ hne
    rintro rfl hown'
    cases Option.some.inj (hn.symm.trans h.mem)
    rw [Owns] at hown hown'
    split_ifs at hown hown'
    · exact hm (hown.trans hown'.symm)
    · exact hm (JobThread.alive.inj (hown.symm.trans hown'))

/-! ### Threads -/

@[simp] theorem thread_setRunner_self {r : Runner} : ((s.setRunner j r).runners j).thread = r.thread := by
  simp [Shared.setRunner]

theorem thread_setRunner_of_ne {r : Runner} {k : ℕ} (h : k ≠ j) :
    ((s.setRunner j r).runners k).thread = (s.runners k).thread := by
  simp [Shared.setRunner, h]

/-- A thread of a runner goes on: it is started, enters or leaves. -/
theorem owes_setThread {r : Runner} (hc : Consistent jobs s) (hstop : r.stop = (s.runners j).stop)
    (hdead : r.thread = .dead → ∀ job, jobs[j]? = some job → job.lightweight = false → s.HasDates job)
    (halive : ∀ k, k ≠ i → (r.thread = .alive k ↔ (s.runners j).thread = .alive k))
    (hmain : i ≠ 0 → ¬(s.runners j).thread.IsOver ∧ (s.runners j).thread ≠ .none ∧ r.thread ≠ .none) :
    Owes jobs i o s (s.setRunner j r) := by
  have haside := aside_setRunner hstop
  refine ⟨⟨?_, hc.known⟩, ?_, fun _ h => h⟩
  · intro m job hm hlight hd
    by_cases hmj : m = j
    · subst hmj
      rw [thread_setRunner_self] at hd
      exact hdead hd job hm hlight
    · rw [thread_setRunner_of_ne hmj] at hd
      exact hc.dead m job hm hlight hd
  · intro k hk
    refine ⟨fun _ h => h, fun m => ?_, fun _ _ _ _ _ => rfl, ?_⟩
    · by_cases hmj : m = j
      · subst hmj
        rw [thread_setRunner_self]
        exact halive k hk
      · rw [thread_setRunner_of_ne hmj]
    · rintro rfl
      obtain ⟨hdead, hnone, hnone'⟩ := hmain (Ne.symm hk)
      refine ⟨haside.pool, haside.table, haside.stop, fun m hm => ?_, fun m => ?_⟩
      · have hmj : m ≠ j := by
          rintro rfl
          exact hdead hm
        exact thread_setRunner_of_ne hmj
      · by_cases hmj : m = j
        · subst hmj
          rw [thread_setRunner_self]
          exact iff_of_false hnone' hnone
        · rw [thread_setRunner_of_ne hmj]

end YtScheduler.Commands
