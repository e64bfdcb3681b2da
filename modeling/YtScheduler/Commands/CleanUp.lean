import YtScheduler.Commands.MainThread

/-! The `finally` of a command, under the contract: it tells every runner to stop, and its last
flush writes the rows of the jobs as they are. Only then is the pool shut down. -/

namespace YtScheduler.Commands

open Tablet Threads

variable {jobs : List Job} {k : ℕ} {job : Job} {s s' : Shared} {o : Op} {A : Shared → Prop}

/-! ### What the last flush leaves in the table -/

/-- The dates of the row of a job in `job_state`. -/
def Shared.tableDates (s : Shared) (job : Job) : Option (Option String × Option String) :=
  (s.table.find job.jobId).map fun row => (row.startDate, row.endDate)

theorem Shared.exists_find (h : s.dates job ≠ none) : ∃ row, s.registry.find job.ref = some row := by
  refine Option.ne_none_iff_exists'.mp fun hf => h ?_
  rw [Shared.dates, hf]
  rfl

/-- A batch that holds the row of a job writes its dates, and any other batch leaves them. -/
theorem tableDates_upsert (hids : Distinct jobs) (hc : Consistent jobs s) (hj : job ∈ jobs)
    (refs : List RunRef) (hd : s.dates job ≠ none) :
    (s.upsert refs).tableDates job = if job.ref ∈ refs then s.dates job else s.tableDates job := by
  -- a row with the id of the job is the row of the job
  have hrow : ∀ r ∈ refs.filterMap s.registry.find, JobRunInfo.jobId r = job.jobId →
      job.ref ∈ refs ∧ s.registry.find job.ref = some r := by
    intro r hr hid
    obtain ⟨ref, href, hfind⟩ := List.mem_filterMap.mp hr
    obtain ⟨job', hj', rfl⟩ := hc.known ref r hfind
    have heq : job' = job := List.inj_on_of_nodup_map hids hj' hj
      ((Registry.jobId_of_find hfind).symm.trans hid)
    exact heq ▸ ⟨href, hfind⟩
  unfold Shared.tableDates Shared.upsert
  split_ifs with hmem
  · obtain ⟨row, hfind⟩ := Shared.exists_find hd
    obtain ⟨r, hr, hid, hwritten⟩ := Table.find_upsertAll_of_written
      ⟨row, List.mem_filterMap.mpr ⟨job.ref, hmem, hfind⟩, Registry.jobId_of_find hfind⟩ s.table
    simp only [Shared.dates, (hrow r hr hid).2]
    exact congrArg (Option.map _) hwritten
  · exact congrArg (Option.map _)
      (Table.find_upsertAll_of_not_written (fun r hr hid => hmem (hrow r hr hid).1) s.table)

/-- What may keep the dates of a job from its row: a heartbeat of the job failed, or its thread had
no client. -/
def Excused (jobs : List Job) (job : Job) (s : Shared) : Prop :=
  .heartbeatFailed job.jobId ∈ s.log ∨ ∃ k, jobs[k]? = some job ∧ (s.runners k).thread = .aborted

theorem excused_steady : Steady jobs 0 (Excused jobs job) where
  rely := by
    rintro s s' (hlog | ⟨k, hk, h⟩) hr
    · exact Or.inl (hr.log _ hlog)
    · exact Or.inr ⟨k, hk, ((hr.main rfl).ended k (h ▸ trivial)).trans h⟩
  quiet h hq := h.imp (hq.log _) (Exists.imp fun k => And.imp_right (hq.thread k).trans)

/-- The table has the row of the job with both dates, or an excuse. -/
def Dated (jobs : List Job) (job : Job) (s : Shared) : Prop :=
  (∃ d e, s.tableDates job = some (some d, some e)) ∨ Excused jobs job s

theorem dated_rely (h : Dated jobs job s) (hr : Relies jobs 0 s s') : Dated jobs job s' := by
  refine h.imp (fun hd => ?_) (excused_steady.rely · hr)
  rwa [Shared.tableDates, (hr.main rfl).table]

/-- As `Dated`, unless the last flush failed. -/
def Recorded (jobs : List Job) (job : Job) (s : Shared) : Prop :=
  Dated jobs job s ∨ .lastFlushFailed ∈ s.log

/-- Every lightweight job was run, and the thread of every other one has ended. -/
abbrev Ended (jobs : List Job) (s : Shared) : Prop := ∀ x ∈ numbered jobs, Begun x s ∧ Idle x.1 s

theorem ended_steady : Steady jobs 0 (Ended jobs) :=
  .ball fun _ hx => (begun_steady (mem_numbered.mp hx)).and idle_steady

namespace Ended

variable (h : Ended jobs s)
include h

theorem isOver (hj : jobs[k]? = some job) (hlight : job.lightweight = false) :
    (s.runners k).thread.IsOver := by
  obtain ⟨hbegun, hidle⟩ := h (k, job) (mem_numbered.mpr hj)
  rw [Begun, hlight] at hbegun
  exact hidle.resolve_left hbegun

theorem dates (hc : Consistent jobs s) (hj : job ∈ jobs) :
    (∃ d e, s.dates job = some (some d, some e)) ∨ Excused jobs job s := by
  obtain ⟨k, hk⟩ := List.mem_iff_getElem?.mp hj
  cases hlight : job.lightweight with
  | true =>
    have hbegun := (h (k, job) (mem_numbered.mpr hk)).1
    rw [Begun, if_pos hlight] at hbegun
    exact hbegun.imp_right Or.inl
  | false =>
    have hover := h.isOver hk hlight
    cases hth : (s.runners k).thread with
    | dead => exact (hc.dead k job hk hlight hth).imp_right Or.inl
    | aborted => exact Or.inr (Or.inr ⟨k, hk, hth⟩)
    | _ => exact (hth ▸ hover).elim

end Ended

/-! ### The last flush -/

/-- A batch adds the rows of its jobs to those that the table has with both dates. -/
theorem upsertRows_spec (hids : Distinct jobs) {done batch : List RunRef}
    (h : Ended jobs s ∧ ∀ job ∈ jobs, job.ref ∈ done → Dated jobs job s) :
    Spec jobs 0 (call (.upsertRows batch))
      (Gives fun _ s => Ended jobs s ∧ ∀ job ∈ jobs, job.ref ∈ done ++ batch → Dated jobs job s) s := by
  refine spec_call fun s₁ hr hc ch => ?_
  have hended := ended_steady.rely h.1 hr
  have hquiet : Op.IsQuiet (.upsertRows batch) := trivial
  refine ⟨owes_quiet hc (hquiet.exec 0 ch s₁) fun h => absurd rfl h, ?_⟩
  rintro _ ha
  refine ⟨ended_steady.quiet hended (hquiet.exec 0 ch s₁), fun job hj hmem => ?_⟩
  rcases ch with ⟨_, _, _ | e, _, _⟩
  · rcases hended.dates hc hj with ⟨d, e, hde⟩ | hexcused
    · have hupsert := tableDates_upsert hids hc hj batch (by rw [hde]; simp)
      split_ifs at hupsert with hbatch
      · exact Or.inl ⟨d, e, hupsert.trans hde⟩
      · have hdone := (List.mem_append.mp hmem).resolve_right hbatch
        exact (dated_rely (h.2 job hj hdone) hr).imp_left
          (Exists.imp fun d => Exists.imp fun e hd => hupsert.trans hd)
    · exact Or.inr (excused_steady.quiet hexcused (hquiet.exec 0 ⟨_, _, none, _, _⟩ s₁))
  · cases ha

/-- The row of every job is in the context. -/
def Listed (jobs : List Job) (rows : List RunRef) (s : Shared) : Prop :=
  ∀ job ∈ jobs, job.ref ∈ rows ∨ Excused jobs job s

theorem listed_steady {rows : List RunRef} : Steady jobs 0 (Listed jobs rows) where
  rely h hr job hj := (h job hj).imp_right (excused_steady.rely · hr)
  quiet h hq job hj := (h job hj).imp_right (excused_steady.quiet · hq)

theorem getAllJobs_spec (h : Ended jobs s) :
    Spec jobs 0 (call .getAllJobs) (Gives fun rows s => Ended jobs s ∧ Listed jobs rows s) s := by
  refine spec_call fun s₁ hr hc ch => ⟨owes_quiet hc (.refl s₁) fun _ => .refl s₁, ?_⟩
  have hended := ended_steady.rely h hr
  rintro _ ⟨⟩
  refine ⟨hended, fun job hj => (hended.dates hc hj).imp_left ?_⟩
  rintro ⟨d, e, hde⟩
  obtain ⟨row, hrow⟩ := Shared.exists_find (by rw [hde]; simp)
  exact Registry.mem_getAllJobs hrow

/-- A flush writes the rows of all jobs, batch after batch. -/
theorem flushToYt_spec (hids : Distinct jobs) (h : Ended jobs s) :
    Spec jobs 0 flushToYt (Gives fun _ s => ∀ job ∈ jobs, Dated jobs job s) s := by
  refine gives_bind (getAllJobs_spec h) fun rows s₁ h₁ => ?_
  split_ifs with hempty
  · refine gives_ret fun job hj => Or.inr ((h₁.2 job hj).resolve_left fun hmem => ?_)
    rw [List.isEmpty_iff.mp hempty] at hmem
    cases hmem
  · have hloop : Spec jobs 0 (Prog.forEach (chunked 50 rows) fun batch => call (.upsertRows batch))
        (Gives fun _ s => Ended jobs s ∧ ∀ job ∈ jobs, job.ref ∈ (chunked 50 rows).flatten →
          Dated jobs job s) s₁ := by
      refine gives_forEach
        (K := fun done s => Ended jobs s ∧ ∀ job ∈ jobs, job.ref ∈ done.flatten → Dated jobs job s)
        ⟨h₁.1, by simp⟩ fun batch done rest s _ hs => ?_
      rw [List.flatten_append, List.flatten_singleton]
      exact upsertRows_spec hids hs
    refine spec_mono (gives_and_kept listed_steady.kept (.forEach fun _ _ => .op trivial) hloop h₁.2)
      fun r s hr a ha => ?_
    obtain ⟨⟨-, hdated⟩, hlisted⟩ := hr a ha
    intro job hj
    rw [chunked_flatten (by decide)] at hdated
    exact (hlisted job hj).elim (hdated job hj) Or.inr

/-! ### The `finally` -/

/-- The call sets no stop event back. -/
def Op.KeepsStop : Op → Prop
  | .setStop _ b => b = true
  | _ => True

/-- The call is one of the last ones: the table is not written any more. -/
def Op.IsLast : Op → Prop
  | .log _ => True
  | .shutdownPool => True
  | _ => False

def Stopped (k : ℕ) (s : Shared) : Prop := (s.runners k).stop = true

theorem stopped_kept : Kept jobs Op.KeepsStop (Stopped k) where
  rely h hr := ((hr.main rfl).stop k).trans h
  exec := by
    intro o ho ch s h
    cases o with
    | setStop j b =>
      obtain rfl : b = true := ho
      by_cases hk : k = j
      · subst hk
        simp [Stopped, Op.exec, Shared.setRunner]
      · simpa [Stopped, Op.exec, Shared.setRunner, hk] using h
    | upsertRows refs => rcases ch with ⟨_, _, _ | e, _ | _, _⟩ <;> exact h
    | runPool => rcases ch with ⟨_, _, _ | e, _, _⟩ <;> exact h
    | shutdownPool => rcases ch with ⟨_, _, _ | e, _, _⟩ <;> exact h
    | _ => exact ((Op.exec_aside id 0 ch s).stop k).trans h

theorem recorded_kept : Kept jobs Op.IsLast (Recorded jobs job) where
  rely h hr := h.imp (dated_rely · hr) (hr.log _)
  exec := by
    intro o ho ch s h
    cases o with
    | log l =>
      have hquiet : Op.IsQuiet (.log l) := trivial
      refine h.imp (Or.imp_right (excused_steady.quiet · (hquiet.exec 0 ch s))) (List.mem_cons_of_mem l)
    | shutdownPool => rcases ch with ⟨_, _, _ | e, _, _⟩ <;> exact h
    | _ => exact ho.elim

/-- The pool of a command, if it has one, is down. -/
def PoolDown (jobs : List Job) (s : Shared) : Prop :=
  hasPool jobs = true → s.pool = .down ∨ .shutdownFailed ∈ s.log

/-- What a command that has returned leaves. -/
structure Returned (jobs : List Job) (s : Shared) : Prop where
  ended : Ended jobs s
  stop : ∀ x ∈ numbered jobs, Stopped x.1 s
  recorded : ∀ job ∈ jobs, Recorded jobs job s
  pool : PoolDown jobs s

theorem stopRunner_spec (h : Ended jobs s) :
    Spec jobs 0 (stopRunner k) (Gives fun _ s => Ended jobs s ∧ Stopped k s) s := by
  have hset : Spec jobs 0 (call (.setStop k true)) (Gives fun _ => Stopped k) s := by
    refine spec_call fun s₁ hr hc ch => ?_
    have hquiet : Op.IsQuiet (.setStop k true) := trivial
    refine ⟨owes_quiet hc (hquiet.exec 0 ch s₁) fun h => absurd rfl h, ?_⟩
    rintro _ -
    simp [Stopped, Op.exec, Shared.setRunner]
  refine gives_bind (gives_and_kept ended_steady.kept (.op trivial) hset h) fun _ s₁ h₁ => ?_
  refine gives_and_kept stopped_kept ?_ (gives_quiet ended_steady ?_ h₁.2) h₁.1
  · exact Prog.Uses.bind (.op trivial) fun _ => uses_logException trivial trivial
  · exact Prog.Uses.bind (.op trivial) fun _ => uses_logException trivial trivial

theorem shutdownPool_spec :
    Spec jobs 0 (logging .shutdownFailed (call .shutdownPool)) (Gives fun _ => PoolDown jobs) s := by
  refine gives_logging (spec_call fun s₁ hr hc ch => ?_) fun s₁ => spec_call fun s₂ hr hc ch => ?_
  · have hquiet : Op.IsQuiet .shutdownPool := trivial
    refine ⟨owes_quiet hc (hquiet.exec 0 ch s₁) fun h => absurd rfl h, ?_⟩
    rcases ch with ⟨_, _, _ | e, _, _⟩
    · exact fun _ _ _ => Or.inl rfl
    · rintro _ ⟨⟩
  · have hquiet : Op.IsQuiet (.log .shutdownFailed) := trivial
    refine ⟨owes_quiet hc (hquiet.exec 0 ch s₂) fun h => absurd rfl h, ?_⟩
    exact fun _ _ _ => Or.inr List.mem_cons_self

theorem conclude_spec (hids : Distinct jobs) (h : Ended jobs s) :
    Spec jobs 0 (conclude jobs) (Gives fun _ s => PoolDown jobs s ∧ ∀ job ∈ jobs, Recorded jobs job s) s := by
  refine gives_bind (gives_quiet ended_steady (.forEach fun _ _ => .op trivial) h) fun _ s₁ h₁ => ?_
  have hflush : Spec jobs 0 (logging .lastFlushFailed flushToYt)
      (Gives fun _ s => ∀ job ∈ jobs, Recorded jobs job s) s₁ := by
    refine gives_logging (spec_mono (flushToYt_spec hids h₁) fun r s hr a ha job hj =>
      Or.inl (hr a ha job hj)) fun s₂ => spec_call fun s₃ hr hc ch => ?_
    have hquiet : Op.IsQuiet (.log .lastFlushFailed) := trivial
    refine ⟨owes_quiet hc (hquiet.exec 0 ch s₃) fun h => absurd rfl h, ?_⟩
    exact fun _ _ _ _ => Or.inr List.mem_cons_self
  refine gives_bind hflush fun _ s₂ h₂ => ?_
  split_ifs with hpool
  · exact gives_and_kept (.ball fun _ _ => recorded_kept) (uses_logging trivial (.op trivial))
      shutdownPool_spec h₂
  · exact gives_ret ⟨fun h => absurd h hpool, h₂⟩

/-- When the clean-up is done, nothing of the command goes on. -/
theorem cleanUp_spec (hids : Distinct jobs) (h : Ended jobs s) :
    Spec jobs 0 (cleanUp jobs) (Gives fun _ => Returned jobs) s := by
  have hstops : Spec jobs 0 (Prog.forEach (numbered jobs) fun r => stopRunner r.1)
      (Gives fun _ s => Ended jobs s ∧ ∀ x ∈ numbered jobs, Stopped x.1 s) s := by
    refine gives_forEach (K := fun (done : List (ℕ × Job)) s => Ended jobs s ∧ ∀ x ∈ done, Stopped x.1 s)
      ⟨h, by simp⟩ fun x done rest s _ hs => ?_
    refine spec_mono (gives_and_kept (.ball fun _ _ => stopped_kept)
      (uses_stopRunner rfl trivial trivial fun _ => trivial) (stopRunner_spec hs.1) hs.2) fun r s hr a ha => ?_
    obtain ⟨⟨hended, hstop⟩, hdone⟩ := hr a ha
    exact ⟨hended, List.forall_mem_append.mpr ⟨hdone, List.forall_mem_singleton.mpr hstop⟩⟩
  refine gives_bind hstops fun _ s₁ h₁ => ?_
  have hend := gives_and_kept ended_steady.kept
    (uses_conclude (fun _ => trivial) trivial (fun _ => trivial) trivial fun _ => trivial)
    (conclude_spec hids h₁.1) h₁.1
  refine spec_mono (gives_and_kept (.ball fun _ _ => stopped_kept)
    (uses_conclude (fun _ => trivial) trivial (fun _ => trivial) trivial fun _ => trivial) hend h₁.2)
    fun r s hr a ha => ?_
  obtain ⟨⟨⟨hpool, hrecorded⟩, hended⟩, hstop⟩ := hr a ha
  exact ⟨hended, hstop, hrecorded, hpool⟩

end YtScheduler.Commands
