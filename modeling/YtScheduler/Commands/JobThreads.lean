import YtScheduler.Commands.Contract

/-! What the thread of a job does, under the contract: whatever its job does and however it
ends, the row of the job has both dates before the thread is dead. -/

namespace YtScheduler.Commands

open Tablet Threads

variable {jobs : List Job} {i k : ℕ} {job : Job} {s : Shared} {o : Op} {p : P α} {A B : Shared → Prop}

abbrev Spec (jobs : List Job) (i : ℕ) (p : P α) (Q : Except Exn α → Shared → Prop) (s : Shared) : Prop :=
  Safe (command jobs) (contract jobs) i p (fun r _ s => Q r s) () s

/-- The program does not raise, and `A` holds when it is done. -/
def Done (A : Shared → Prop) (r : Except Exn α) (s : Shared) : Prop := (∃ a, r = .ok a) ∧ A s

/-- Neither the other threads nor quiet calls disturb `A`. -/
structure Steady (jobs : List Job) (i : ℕ) (A : Shared → Prop) : Prop where
  rely : ∀ {s s' : Shared}, A s → Relies jobs i s s' → A s'
  quiet : ∀ {s s' : Shared}, A s → Quiet s s' → A s'

/-- The call does not raise. -/
def Op.IsCalm : Op → Prop
  | .nowIso => True
  | .readRunner _ => True
  | .assign _ _ => True
  | .setStop _ _ => True
  | .stopIsSet _ => True
  | .getAllJobs => True
  | .log _ => True
  | _ => False

theorem Op.IsCalm.exec (h : o.IsCalm) (t : ℕ) (ch : Choice) (s : Shared) : ∃ a, (o.exec t ch s).1 = .ok a := by
  cases o with
  | nowIso => exact ⟨_, rfl⟩
  | readRunner j => exact ⟨_, rfl⟩
  | assign j f => exact ⟨_, rfl⟩
  | setStop j b => exact ⟨_, rfl⟩
  | stopIsSet j => exact ⟨_, rfl⟩
  | getAllJobs => exact ⟨_, rfl⟩
  | log l => exact ⟨_, rfl⟩
  | _ => exact h.elim

theorem Op.IsCalm.quiet (h : o.IsCalm) : o.IsQuiet := by
  cases o <;> trivial

/-! ### Rules -/

section Rules

theorem spec_call {Q : Except Exn o.Ret → Shared → Prop}
    (h : ∀ s₁, Relies jobs i s s₁ → Consistent jobs s₁ → ∀ ch,
      Owes jobs i o s₁ (o.exec i ch s₁).2 ∧ Q (o.exec i ch s₁).1 (o.exec i ch s₁).2) :
    Spec jobs i (call o) Q s :=
  Safe.op h

theorem spec_mono {Q Q' : Except Exn α → Shared → Prop} (h : Spec jobs i p Q s)
    (hQ : ∀ r s, Q r s → Q' r s) : Spec jobs i p Q' s :=
  Safe.mono h fun r _ s hr => hQ r s hr

theorem spec_seq {f : α → P β} {R : Except Exn α → Shared → Prop} {Q : Except Exn β → Shared → Prop}
    (hp : Spec jobs i p R s) (hf : ∀ a s', R (.ok a) s' → Spec jobs i (f a) Q s')
    (he : ∀ e s', R (.error e) s' → Q (.error e) s') : Spec jobs i (p.bind f) Q s := by
  refine Safe.bind (Safe.mono hp ?_)
  rintro r - s' hr
  cases r with
  | ok a => exact hf a s' hr
  | error e => exact he e s' hr

/-- After what does not raise. -/
theorem spec_bind {f : α → P β} {Q : Except Exn β → Shared → Prop} (hp : Spec jobs i p (Done A) s)
    (hf : ∀ a s', A s' → Spec jobs i (f a) Q s') : Spec jobs i (p.bind f) Q s := by
  refine spec_seq hp (fun a s' h => hf a s' h.2) ?_
  rintro e s' ⟨⟨a, ha⟩, -⟩
  cases ha

/-- After what keeps `A` even if it raises. -/
theorem spec_bind_keep {f : α → P β} (hp : Spec jobs i p (fun _ => A) s)
    (hf : ∀ a s', A s' → Spec jobs i (f a) (fun _ => A) s') : Spec jobs i (p.bind f) (fun _ => A) s := by
  exact spec_seq hp hf fun _ _ h => h

theorem spec_catching {hd : Exn → P α} (hp : Spec jobs i p (fun _ => A) s)
    (hh : ∀ e s', A s' → Spec jobs i (hd e) (fun _ => A) s') :
    Spec jobs i (p.catching hd) (fun _ => A) s := by
  refine Safe.catching (Safe.mono hp ?_)
  rintro r - s' hA
  cases r with
  | ok a => exact hA
  | error e => exact hh e s' hA

theorem spec_quiet (hA : Steady jobs i A) (ho : o.IsQuiet) (hi : i ≠ 0 → ¬o.IsMain) (h : A s) :
    Spec jobs i (call o) (fun _ => A) s := by
  refine spec_call fun s₁ hr hc ch => ?_
  have hq := ho.exec i ch s₁
  exact ⟨owes_quiet hc hq fun hne => o.exec_aside (hi hne) i ch s₁, hA.quiet (hA.rely h hr) hq⟩

theorem spec_calm (hA : Steady jobs i A) (ho : o.IsCalm) (hi : i ≠ 0 → ¬o.IsMain) (h : A s) :
    Spec jobs i (call o) (Done A) s := by
  refine spec_call fun s₁ hr hc ch => ?_
  have hq := ho.quiet.exec i ch s₁
  exact ⟨owes_quiet hc hq fun hne => o.exec_aside (hi hne) i ch s₁, ho.exec i ch s₁,
    hA.quiet (hA.rely h hr) hq⟩

/-- A `finally` that is reached whatever was raised. -/
theorem spec_tryFinally {q : P Unit} (hp : Spec jobs i p (fun _ => A) s)
    (hq : ∀ s', A s' → Spec jobs i q (Done B) s') : Spec jobs i (tryFinally p q) (fun _ => B) s := by
  refine Safe.bind (Safe.attempt (Safe.mono hp ?_))
  rintro r - s' hA
  refine spec_bind (hq s' hA) fun _ s'' hB => ?_
  cases r with
  | ok a => exact hB
  | error e => exact hB

end Rules

/-! ### Threads and heartbeats -/

/-- The thread runs the job, whose row tells when it was started. -/
abbrev HoldsStart (i k : ℕ) (job : Job) (s : Shared) : Prop := Owns i k job s ∧ s.HasStart job

/-- The thread runs the job, whose row has both dates. -/
abbrev HoldsDates (i k : ℕ) (job : Job) (s : Shared) : Prop := Owns i k job s ∧ s.HasDates job

theorem owns_steady : Steady jobs i (Owns i k job) := ⟨fun h hr => hr.owns.mpr h, fun h hq => hq.owns h⟩

/-- Only one thread enters, and it is the thread of the runner from then on. -/
theorem enter_spec (hlight : job.lightweight = false) :
    Spec jobs i (call (.enter k)) (fun r s => ∃ b, r = .ok b ∧ (b = true → Owns i k job s)) s := by
  refine spec_call fun s₁ hr hc ch => ?_
  simp only [Op.exec]
  split_ifs with h
  · refine ⟨owes_setThread hc rfl (by simp) (fun m hm => ?_) (by simp [h, JobThread.IsOver]), true, rfl,
      fun _ => ?_⟩
    · simp [h, Ne.symm hm]
    · simp [Owns, hlight]
  · exact ⟨owes_quiet hc (.refl s₁) fun _ => .refl s₁, false, rfl, by simp⟩

/-- A thread without a client ends. -/
theorem abort_spec (hlight : job.lightweight = false) (h : Owns i k job s) :
    Spec jobs i (call (.abort k)) (fun _ _ => True) s := by
  refine spec_call fun s₁ hr hc ch => ⟨?_, trivial⟩
  have hown := owns_steady.rely h hr
  rw [Owns, hlight] at hown
  simp only [Bool.false_eq_true, if_false] at hown
  rw [Op.exec, if_pos hown]
  refine owes_setThread hc rfl (by simp) (fun m hm => ?_) (by simp [hown, JobThread.IsOver])
  simp [hown, Ne.symm hm]

section Heartbeats

variable (hj : jobs[k]? = some job)
include hj

theorem hasStart_steady : Steady jobs i (HoldsStart i k job) where
  rely := by
    rintro s s' ⟨hown, hs⟩ hr
    refine ⟨hr.owns.mpr hown, ?_⟩
    rcases hs with ⟨d, e, hd⟩ | hlog
    · exact Or.inl ⟨d, e, (hr.dates k job hj hown (by rw [hd]; simp)).trans hd⟩
    · exact Or.inr (hr.log _ hlog)
  quiet h hq := ⟨hq.owns h.1, hq.hasStart h.2⟩

theorem hasDates_steady : Steady jobs i (HoldsDates i k job) where
  rely := by
    rintro s s' ⟨hown, hs⟩ hr
    refine ⟨hr.owns.mpr hown, ?_⟩
    rcases hs with ⟨d, e, hd⟩ | hlog
    · exact Or.inl ⟨d, e, (hr.dates k job hj hown (by rw [hd]; simp)).trans hd⟩
    · exact Or.inr (hr.log _ hlog)
  quiet h hq := ⟨hq.owns h.1, hq.hasDates h.2⟩

/-- A heartbeat of a job is made, or logged as failed. -/
theorem heartbeatTick_spec (hids : Distinct jobs) {startDate endDate : Option (Option String)}
    (hA : Steady jobs i A) (hown : ∀ s, A s → Owns i k job s)
    (hB : ∀ ts s, A s → B (s.touchJob ts { job.runOptions with startDate, endDate }))
    (hlog : ∀ s, A s → B { s with log := .heartbeatFailed job.jobId :: s.log }) (h : A s) :
    Spec jobs i (heartbeatTick job.toJobBase startDate endDate) (Done B) s := by
  refine Safe.catching (Safe.mono (Q := fun r _ s => (r = .ok () ∧ B s) ∨
    (∃ e, r = .error e ∧ e.isException = true) ∧ A s) ?_ ?_)
  · refine spec_call fun s₁ hr hc ch => ?_
    have h₁ := hA.rely h hr
    have hof : HeartbeatOf jobs i k job { job.runOptions with startDate, endDate } s₁ :=
      ⟨hj, rfl, rfl, Or.inr (hown s₁ h₁)⟩
    rcases ch with ⟨ts, iso, _ | e, carriedOut, value⟩
    · exact ⟨owes_touchJob hids hc hof, Or.inl ⟨rfl, hB ts s₁ h₁⟩⟩
    · exact ⟨owes_quiet hc (.refl s₁) fun _ => .refl s₁, Or.inr ⟨⟨_, rfl, rfl⟩, h₁⟩⟩
  · rintro r - s' (⟨rfl, hs'⟩ | ⟨⟨e, rfl, he⟩, hs'⟩)
    · exact ⟨⟨(), rfl⟩, hs'⟩
    · simp only [he, if_true]
      have hquiet : Op.IsQuiet (.log (.heartbeatFailed job.jobId)) := trivial
      refine spec_call fun s₁ hr hc ch => ⟨?_, ⟨(), rfl⟩, hlog s₁ (hA.rely hs' hr)⟩
      exact owes_quiet hc (hquiet.exec i ch s₁) fun _ => Op.exec_aside id i ch s₁

theorem prepareForExecution_spec (hids : Distinct jobs) (h : Owns i k job s) :
    Spec jobs i (prepareForExecution k job) (Done (HoldsStart i k job)) s := by
  refine spec_bind (spec_calm owns_steady trivial (fun _ => id) h) fun now s₁ h₁ => ?_
  refine spec_bind (heartbeatTick_spec (B := HoldsStart i k job) hj hids owns_steady (fun _ => id) ?_ ?_ h₁)
    fun _ s₂ h₂ => ?_
  · exact fun ts s hs => ⟨hs, Or.inl ⟨now, _, dates_touchJob rfl rfl⟩⟩
  · exact fun s hs => ⟨hs, Or.inr List.mem_cons_self⟩
  · exact spec_calm (hasStart_steady hj) trivial (fun _ => id) h₂

theorem completeExecution_spec (hids : Distinct jobs) (h : HoldsStart i k job s) :
    Spec jobs i (completeExecution k job) (Done (HoldsDates i k job)) s := by
  refine spec_bind (spec_calm (hasStart_steady hj) trivial (fun _ => id) h) fun now s₁ h₁ => ?_
  refine spec_bind (heartbeatTick_spec (B := HoldsDates i k job) hj hids (hasStart_steady hj)
    (fun _ => And.left) ?_ ?_ h₁) fun _ s₂ h₂ => ?_
  · rintro ts s ⟨hown, ⟨d, e, hd⟩ | hlog⟩
    · refine ⟨hown, Or.inl ⟨d, now, ?_⟩⟩
      rw [dates_touchJob rfl rfl, hd]
      rfl
    · exact ⟨hown, Or.inr hlog⟩
  · exact fun s hs => ⟨hs.1, Or.inr List.mem_cons_self⟩
  · exact spec_calm (hasDates_steady hj) trivial (fun _ => id) h₂

/-- What the code of the job does leaves the dates. -/
theorem entry_spec (hids : Distinct jobs) (h : HoldsStart i k job s) :
    Spec jobs i job.entry (fun _ => HoldsStart i k job) s := by
  refine Safe.of_uses job.entry_uses (K := fun _ => HoldsStart i k job) h
    (fun _ _ _ h hr _ => (hasStart_steady hj).rely h hr) ?_
  rintro o ho - s ⟨hown, hs⟩ hc ch
  have hquiet : o.IsQuiet → ¬o.IsMain → Owes jobs i o s (o.exec i ch s).2 ∧
      HoldsStart i k job (o.exec i ch s).2 := fun hq hm =>
    ⟨owes_quiet hc (hq.exec i ch s) fun _ => o.exec_aside hm i ch s,
      (hasStart_steady hj).quiet ⟨hown, hs⟩ (hq.exec i ch s)⟩
  cases o with
  | touchJob op =>
    obtain ⟨threadId, rfl⟩ := ho
    have hof : HeartbeatOf jobs i k job { job.runOptions with threadId } s :=
      ⟨hj, rfl, rfl, Or.inl ⟨rfl, rfl⟩⟩
    rcases ch with ⟨ts, iso, _ | e, carriedOut, value⟩
    · refine ⟨owes_touchJob hids hc hof, hown, ?_⟩
      rcases hs with ⟨d, e, hd⟩ | hlog
      · exact Or.inl ⟨d, e, (dates_touchJob_undated rfl rfl rfl rfl (by rw [hd]; simp)).trans hd⟩
      · exact Or.inr hlog
    · exact ⟨owes_quiet hc (.refl s) fun _ => .refl s, hown, hs⟩
  | world => exact hquiet trivial id
  | stopIsSet j => exact hquiet trivial id
  | log l => exact hquiet trivial id
  | _ => exact ho.elim

theorem runEntry_spec (hids : Distinct jobs) (h : HoldsStart i k job s) :
    Spec jobs i (runEntry k job) (fun _ => HoldsStart i k job) s := by
  have hassign : ∀ {s : Shared} (f), HoldsStart i k job s →
      Spec jobs i (call (.assign k f)) (fun _ => HoldsStart i k job) s := fun f h =>
    spec_quiet (hasStart_steady hj) trivial (fun _ => id) h
  refine spec_catching (spec_bind_keep (entry_spec hj hids h) fun ret s₁ h₁ => ?_) fun e s₁ h₁ => ?_
  · exact spec_bind_keep (hassign _ h₁) fun _ s₂ h₂ => h₂
  · cases e.kind with
    | systemExit => exact spec_bind_keep (hassign _ h₁) fun _ s₂ h₂ => h₂
    | exception =>
      refine spec_bind_keep (hassign _ h₁) fun _ s₂ h₂ => ?_
      exact spec_bind_keep (hassign _ h₂) fun _ s₃ h₃ => h₃
    | other => exact h₁

/-- Whatever the job does, its row has both dates when the target is done. -/
theorem target_spec (hids : Distinct jobs) (h : Owns i k job s) :
    Spec jobs i (target k job) (fun _ => HoldsDates i k job) s := by
  refine spec_tryFinally (A := HoldsStart i k job) ?_
    fun s' hs' => completeExecution_spec hj hids hs'
  refine spec_bind (spec_calm owns_steady trivial (fun _ => id) h) fun _ s₁ h₁ => ?_
  refine spec_bind (prepareForExecution_spec hj hids h₁) fun _ s₂ h₂ => ?_
  refine spec_bind_keep (runEntry_spec hj hids h₂) fun ret s₃ h₃ => ?_
  exact spec_bind_keep (spec_quiet (hasStart_steady hj) trivial (fun _ => id) h₃) fun _ s₄ h₄ => h₄

/-- The thread leaves when the row of its job has both dates. -/
theorem leave_spec (hlight : job.lightweight = false) (h : HoldsDates i k job s) :
    Spec jobs i (call (.leave k)) (fun _ _ => True) s := by
  refine spec_call fun s₁ hr hc ch => ⟨?_, trivial⟩
  obtain ⟨hown, hdates⟩ := (hasDates_steady hj).rely h hr
  rw [Owns, hlight] at hown
  simp only [Bool.false_eq_true, if_false] at hown
  rw [Op.exec, if_pos hown]
  refine owes_setThread hc rfl (fun _ job' hk _ => ?_) (fun m hm => ?_) (by simp [hown, JobThread.IsOver])
  · cases Option.some.inj (hk.symm.trans hj)
    exact hdates
  · simp [hown, Ne.symm hm]

theorem threadProg_spec (hids : Distinct jobs) (hlight : job.lightweight = false) :
    Spec jobs i (threadProg k job) (fun _ _ => True) s := by
  refine spec_seq (enter_spec hlight) ?_ fun _ _ _ => trivial
  rintro b s₁ ⟨_, ⟨⟩, hb⟩
  cases b with
  | false => exact trivial
  | true =>
    refine Safe.bind (Safe.attempt (Safe.mono
      (spec_quiet (o := .createClient) owns_steady trivial (fun _ => id) (hb rfl)) ?_))
    rintro r - s₂ h₂
    cases r with
    | error e => exact abort_spec hlight h₂
    | ok _ =>
      refine Safe.bind (Safe.attempt (Safe.mono (target_spec hj hids h₂) ?_))
      rintro r - s₃ h₃
      exact leave_spec hj hlight h₃

/-- A worker of the pool may send a heartbeat for any job at any time. -/
theorem tickProg_spec (hids : Distinct jobs) (threadId : ℕ) :
    Spec jobs i (tickProg job.toJobBase threadId) (fun _ _ => True) s := by
  refine spec_catching (A := fun _ => True) ?_ fun e s₁ _ => ?_
  · refine spec_call fun s₁ hr hc ch => ⟨?_, trivial⟩
    have hof : HeartbeatOf jobs i k job { job.runOptions with threadId } s₁ :=
      ⟨hj, rfl, rfl, Or.inl ⟨rfl, rfl⟩⟩
    rcases ch with ⟨ts, iso, _ | e, carriedOut, value⟩
    · exact owes_touchJob hids hc hof
    · exact owes_quiet hc (.refl s₁) fun _ => .refl s₁
  · split_ifs
    · exact spec_quiet ⟨fun _ _ => trivial, fun _ _ => trivial⟩ trivial (fun _ => id) trivial
    · exact trivial

end Heartbeats

end YtScheduler.Commands
