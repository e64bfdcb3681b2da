import YtScheduler.Commands.JobThreads

/-! What the main thread does, under the contract: it returns only when the threads of all
jobs are dead, has told every runner to stop, and has written the rows of all jobs with
both dates and shut the pool down, unless its log tells otherwise. -/

namespace YtScheduler.Commands

open Tablet Threads

variable {jobs : List Job} {k : ℕ} {job : Job} {s s' : Shared} {o : Op} {p : P α}

theorem mem_numbered : (k, job) ∈ numbered jobs ↔ jobs[k]? = some job := by
  simp [numbered, List.mem_zipIdx_iff_getElem?]

theorem nodup_numbered (jobs : List Job) : ((numbered jobs).map Prod.fst).Nodup := by
  have h : (numbered jobs).map Prod.fst = jobs.zipIdx.map Prod.snd := by
    simp [numbered, Function.comp_def]
  rw [h, List.zipIdx_map_snd]
  exact List.nodup_range'

/-! ### Rules -/

/-- `A` holds of a result. -/
def Gives (A : α → Shared → Prop) (r : Except Exn α) (s : Shared) : Prop := ∀ a, r = .ok a → A a s

section Rules

variable {A : α → Shared → Prop} {B : β → Shared → Prop}

theorem gives_ret {a : α} (h : A a s) : Spec jobs 0 (.ret a) (Gives A) s := by
  rintro _ ⟨⟩
  exact h

theorem gives_raise (e : Exn) : Spec jobs 0 (.raise e : P α) (Gives A) s := by
  rintro _ ⟨⟩

theorem gives_bind {f : α → P β} (hp : Spec jobs 0 p (Gives A) s)
    (hf : ∀ a s', A a s' → Spec jobs 0 (f a) (Gives B) s') : Spec jobs 0 (p.bind f) (Gives B) s := by
  refine spec_seq hp (fun a s' h => hf a s' (h a rfl)) ?_
  rintro e s' - _ ⟨⟩

theorem gives_forEach {γ : Type} {body : γ → P Unit} {K : List γ → Shared → Prop} {xs : List γ}
    (hK : K [] s) (hb : ∀ x done rest s, xs = done ++ x :: rest → K done s →
      Spec jobs 0 (body x) (Gives fun _ => K (done ++ [x])) s) :
    Spec jobs 0 (Prog.forEach xs body) (Gives fun _ => K xs) s := by
  have hloop : Spec jobs 0 (Prog.forEach xs body) (Gives fun _ => K ([] ++ xs)) s :=
    Safe.returns_forEach (K := fun done _ => K done) hK fun x done rest _ s hxs hs => hb x done rest s hxs hs
  exact hloop

theorem gives_of_keep {A : Shared → Prop} (h : Spec jobs 0 p (fun _ => A) s) :
    Spec jobs 0 p (Gives fun _ => A) s :=
  spec_mono h fun _ _ hA _ _ => hA

theorem gives_logging {A : Shared → Prop} {l : LogLine} {p : P Unit} (hp : Spec jobs 0 p (Gives fun _ => A) s)
    (hl : ∀ s', Spec jobs 0 (call (.log l)) (Gives fun _ => A) s') :
    Spec jobs 0 (logging l p) (Gives fun _ => A) s := by
  refine Safe.returns_catching (A := fun _ _ => A) hp fun e _ s' => ?_
  split_ifs
  · exact hl s'
  · exact gives_raise e

/-- Neither the other threads nor these calls of the main thread disturb `A`. -/
structure Kept (jobs : List Job) (U : Op → Prop) (A : Shared → Prop) : Prop where
  rely : ∀ {s s' : Shared}, A s → Relies jobs 0 s s' → A s'
  exec : ∀ {o : Op}, U o → ∀ ch s, A s → A (o.exec 0 ch s).2

theorem Kept.ball {γ : Type} {xs : List γ} {U : Op → Prop} {A : γ → Shared → Prop}
    (hA : ∀ x ∈ xs, Kept jobs U (A x)) : Kept jobs U fun s => ∀ x ∈ xs, A x s :=
  ⟨fun h hr x hx => (hA x hx).rely (h x hx) hr, fun ho ch s h x hx => (hA x hx).exec ho ch s (h x hx)⟩

theorem Steady.kept {A : Shared → Prop} (hA : Steady jobs 0 A) : Kept jobs Op.IsQuiet A :=
  ⟨hA.rely, fun ho ch s h => hA.quiet h (Op.IsQuiet.exec ho 0 ch s)⟩

theorem keep_of_uses {U : Op → Prop} {A : Shared → Prop} (hA : Kept jobs U A) (hU : ∀ o, U o → o.IsQuiet)
    (hp : p.Uses U) (h : A s) : Spec jobs 0 p (Gives fun _ => A) s := by
  refine gives_of_keep (Safe.of_uses hp (K := fun _ => A) h (fun _ _ _ h hr _ => hA.rely h hr) ?_)
  intro o ho _ s hs hc ch
  exact ⟨owes_quiet hc ((hU o ho).exec 0 ch s) fun h => absurd rfl h, hA.exec ho ch s hs⟩

theorem gives_quiet {A : Shared → Prop} (hA : Steady jobs 0 A) (hp : p.Uses Op.IsQuiet) (h : A s) :
    Spec jobs 0 p (Gives fun _ => A) s :=
  keep_of_uses hA.kept (fun _ ho => ho) hp h

/-- What these calls keep holds of the outcome as well. -/
theorem gives_and_kept {U : Op → Prop} {B : Shared → Prop} (hB : Kept jobs U B) (hu : p.Uses U)
    (hp : Spec jobs 0 p (Gives A) s) (h : B s) : Spec jobs 0 p (Gives fun a s => A a s ∧ B s) s := by
  refine Safe.mono (Safe.and_of_uses (K := fun _ => B) hp hu h (fun _ _ _ h hr _ => hB.rely h hr)
    fun o ho _ s hs ch => hB.exec ho ch s hs) ?_
  exact fun r _ s hr a ha => ⟨hr.1 a ha, hr.2⟩

/-- A `finally` after what raised nothing; after an exception it may do anything quiet. -/
theorem gives_tryFinally {q : P Unit} {A B : Shared → Prop} (hp : Spec jobs 0 p (Gives fun _ => A) s)
    (hu : q.Uses Op.IsQuiet) (hq : ∀ s', A s' → Spec jobs 0 q (Gives fun _ => B) s') :
    Spec jobs 0 (tryFinally p q) (Gives fun _ => B) s := by
  refine Safe.bind (Safe.attempt (Safe.mono hp ?_))
  rintro r - s' hr
  cases r with
  | ok a => exact gives_bind (hq s' (hr a rfl)) fun _ s'' hB => gives_ret hB
  | error e =>
    have htrue : Steady jobs 0 fun _ => True := ⟨fun _ _ => trivial, fun _ _ => trivial⟩
    exact gives_bind (gives_quiet htrue hu trivial) fun _ s'' _ => gives_raise e

end Rules

/-! ### The calls of the parts -/

section Uses

variable {U : Op → Prop}

theorem uses_logging {l : LogLine} {p : P Unit} (hl : U (.log l)) (h : p.Uses U) : (logging l p).Uses U := by
  refine h.catching fun e => ?_
  split_ifs
  · exact .op hl
  · trivial

theorem uses_logException {l : LogLine} (hread : U (.readRunner k)) (hl : U (.log l)) :
    (logException k l).Uses U := by
  refine Prog.Uses.bind (.op hread) fun r => ?_
  split_ifs
  · exact .op hl
  · trivial

theorem uses_flushToYt (hget : U .getAllJobs) (hupsert : ∀ refs, U (.upsertRows refs)) :
    flushToYt.Uses U := by
  refine Prog.Uses.bind (.op hget) fun rows => ?_
  split_ifs
  · trivial
  · exact .forEach fun _ _ => .op (hupsert _)

theorem uses_conclude (hwait : ∀ j, U (.wait j)) (hget : U .getAllJobs) (hupsert : ∀ refs, U (.upsertRows refs))
    (hshutdown : U .shutdownPool) (hl : ∀ l, U (.log l)) : (conclude jobs).Uses U := by
  refine Prog.Uses.bind (.forEach fun _ _ => .op (hwait _)) fun _ => Prog.Uses.bind ?_ fun _ => ?_
  · exact uses_logging (hl _) (uses_flushToYt hget hupsert)
  · split_ifs
    · exact uses_logging (hl _) (.op hshutdown)
    · trivial

theorem uses_stopRunner (hstop : U (.setStop k true)) (hjoin : U (.join k)) (hread : U (.readRunner k))
    (hl : ∀ l, U (.log l)) : (stopRunner k).Uses U :=
  Prog.Uses.bind (.op hstop) fun _ => Prog.Uses.bind (.op hjoin) fun _ => uses_logException hread (hl _)

theorem uses_awaitFlush : ((awaitStarted k).bind fun _ => flushToYt).Uses Op.IsQuiet := by
  refine Prog.Uses.bind (Prog.Uses.bind (.op trivial) fun r => ?_) fun _ => uses_flushToYt trivial fun _ => trivial
  split_ifs
  · trivial
  · exact .op trivial

end Uses

theorem Steady.and {A B : Shared → Prop} {i : ℕ} (hA : Steady jobs i A) (hB : Steady jobs i B) :
    Steady jobs i fun s => A s ∧ B s :=
  ⟨fun h hr => ⟨hA.rely h.1 hr, hB.rely h.2 hr⟩, fun h hq => ⟨hA.quiet h.1 hq, hB.quiet h.2 hq⟩⟩

theorem Steady.imp {A : Shared → Prop} {i : ℕ} (φ : Prop) (hA : Steady jobs i A) :
    Steady jobs i fun s => φ → A s :=
  ⟨fun h hr hφ => hA.rely (h hφ) hr, fun h hq hφ => hA.quiet (h hφ) hq⟩

theorem Steady.ball {γ : Type} {xs : List γ} {A : γ → Shared → Prop} {i : ℕ}
    (hA : ∀ x ∈ xs, Steady jobs i (A x)) : Steady jobs i fun s => ∀ x ∈ xs, A x s :=
  ⟨fun h hr x hx => (hA x hx).rely (h x hx) hr, fun h hq x hx => (hA x hx).quiet (h x hx) hq⟩

/-! ### Starting the jobs -/

/-- The runner has no thread that lives. -/
def Idle (k : ℕ) (s : Shared) : Prop := (s.runners k).thread = .none ∨ (s.runners k).thread.IsOver

theorem idle_steady : Steady jobs 0 (Idle k) where
  rely h hr := h.imp ((hr.main rfl).unstarted k).mpr fun h => (hr.main rfl).ended k h ▸ h
  quiet h hq := by
    unfold Idle
    rwa [hq.thread]

/-- A lightweight job was run, and the thread of another one was started. -/
def Begun (x : ℕ × Job) (s : Shared) : Prop :=
  if x.2.lightweight then s.HasDates x.2 else (s.runners x.1).thread ≠ .none

theorem owns_lightweight (h : job.lightweight = true) : Owns 0 k job s := by
  rw [Owns, if_pos h]

theorem begun_steady (hj : jobs[k]? = some job) : Steady jobs 0 (Begun (k, job)) := by
  unfold Begun
  cases hlight : job.lightweight with
  | true =>
    have hd := hasDates_steady (i := 0) hj
    exact ⟨fun h hr => (hd.rely ⟨owns_lightweight hlight, h⟩ hr).2, fun h hq => hq.hasDates h⟩
  | false =>
    refine ⟨fun h hr => ?_, fun h hq => ?_⟩
    · exact fun hn => h (((hr.main rfl).unstarted k).mp hn)
    · exact fun hn => h ((hq.thread k).symm.trans hn)

theorem readRunner_spec {A : Shared → Prop} (hA : Steady jobs 0 A) (h : A s) :
    Spec jobs 0 (call (.readRunner k)) (Gives fun r s => A s ∧ (r.isAlive = false → Idle k s)) s := by
  refine spec_call fun s₁ hr hc ch => ⟨owes_quiet hc (.refl s₁) fun _ => .refl s₁, ?_⟩
  rintro r ⟨⟩
  refine ⟨hA.rely h hr, fun halive => ?_⟩
  rw [Runner.isAlive] at halive
  unfold Idle
  cases hth : (s₁.runners k).thread with
  | none => exact Or.inl hth
  | dead => exact Or.inr (hth ▸ trivial)
  | aborted => exact Or.inr (hth ▸ trivial)
  | starting => simp [hth] at halive
  | alive t => simp [hth] at halive

/-- A call that leaves the threads of the runners, and the rows of other jobs. -/
def Op.OnJob (job : JobBase) : Op → Prop
  | .touchJob o => o.jobId = job.jobId
  | .startThread _ => False
  | .enter _ => False
  | .leave _ => False
  | .abort _ => False
  | _ => True

theorem Op.OnJob.cases {job : JobBase} (h : o.OnJob job) :
    o.IsQuiet ∨ ∃ op, o = .touchJob op ∧ op.jobId = job.jobId := by
  cases o with
  | touchJob op => exact Or.inr ⟨op, rfl, h⟩
  | startThread j => exact h.elim
  | enter j => exact h.elim
  | leave j => exact h.elim
  | abort j => exact h.elim
  | _ => exact Or.inl trivial

theorem uses_target (k : ℕ) (job : Job) : (target k job).Uses (Op.OnJob job.toJobBase) := by
  have hcall : ∀ {o : Op}, o.OnJob job.toJobBase → (call o).Uses (Op.OnJob job.toJobBase) := fun h => .op h
  have htick : ∀ d e, (heartbeatTick job.toJobBase d e).Uses (Op.OnJob job.toJobBase) := fun d e =>
    uses_logging trivial (hcall rfl)
  have hentry : job.entry.Uses (Op.OnJob job.toJobBase) := by
    refine job.entry_uses.mono fun o ho => ?_
    cases o with
    | touchJob op =>
      obtain ⟨threadId, rfl⟩ := ho
      exact rfl
    | world => trivial
    | stopIsSet j => trivial
    | log l => trivial
    | _ => exact ho.elim
  refine Prog.Uses.bind (Prog.Uses.attempt ?_) fun r => Prog.Uses.bind ?_ fun _ => ?_
  · refine Prog.Uses.bind (hcall trivial) fun _ => Prog.Uses.bind ?_ fun _ => Prog.Uses.bind ?_ fun ret => ?_
    · exact Prog.Uses.bind (hcall trivial) fun now => Prog.Uses.bind (htick _ _) fun _ => hcall trivial
    · refine Prog.Uses.catching ?_ fun e => ?_
      · exact hentry.bind fun ret => Prog.Uses.bind (hcall trivial) fun _ => trivial
      · cases e.kind with
        | systemExit => exact Prog.Uses.bind (hcall trivial) fun _ => trivial
        | exception =>
          exact Prog.Uses.bind (hcall trivial) fun _ => Prog.Uses.bind (hcall trivial) fun _ => trivial
        | other => trivial
    · exact Prog.Uses.bind (hcall trivial) fun _ => trivial
  · exact Prog.Uses.bind (hcall trivial) fun now => Prog.Uses.bind (htick _ _) fun _ => hcall trivial
  · cases r <;> trivial

/-- The run of a lightweight job leaves what was begun before. -/
theorem begun_exec {k' : ℕ} {job' : Job} (hids : Distinct jobs) (hj : jobs[k]? = some job)
    (hj' : jobs[k']? = some job') (hne : k ≠ k') (ho : o.OnJob job'.toJobBase) (ch : Choice)
    (h : Begun (k, job) s) : Begun (k, job) (o.exec 0 ch s).2 := by
  rcases ho.cases with hq | ⟨op, rfl, hid⟩
  · exact (begun_steady hj).quiet h (hq.exec 0 ch s)
  · rcases ch with ⟨ts, iso, _ | e, carriedOut, value⟩
    · have hne : op.jobId ≠ job.jobId := fun h => hne (hids.eq hj hj' (h.symm.trans hid))
      unfold Begun at h ⊢
      split_ifs at h ⊢
      · exact h.imp (fun hd => (dates_touchJob_of_ne hne).symm ▸ hd) id
      · exact h
    · exact h

theorem thread_startThread {j t : ℕ} {ch : Choice} :
    (((Op.startThread j).exec t ch s).2.runners k).thread =
      if k = j then .starting else (s.runners k).thread := by
  split_ifs with h
  · subst h
    exact thread_setRunner_self
  · exact thread_setRunner_of_ne h

/-- What is done with one runner. -/
theorem runJob_spec (hids : Distinct jobs) (hj : jobs[k]? = some job) {done : List (ℕ × Job)}
    (hdone : ∀ x ∈ done, jobs[x.1]? = some x.2 ∧ x.1 ≠ k) (h : ∀ x ∈ done, Begun x s) :
    Spec jobs 0 (runJob k job) (Gives fun _ s => ∀ x ∈ done ++ [(k, job)], Begun x s) s := by
  have hsteady : Steady jobs 0 fun s => ∀ x ∈ done, Begun x s :=
    .ball fun x hx => begun_steady (hdone x hx).1
  have hadd : ∀ {s : Shared}, (∀ x ∈ done, Begun x s) → Begun (k, job) s →
      ∀ x ∈ done ++ [(k, job)], Begun x s := fun h hx => by
    rw [List.forall_mem_append, List.forall_mem_singleton]
    exact ⟨h, hx⟩
  cases hlight : job.lightweight with
  | true =>
    rw [runJob, if_pos hlight]
    refine gives_bind (gives_quiet hsteady (.op trivial) h) fun _ s₀ h₀ => ?_
    have htarget := Safe.and_of_uses (K := fun _ s => ∀ x ∈ done, Begun x s)
      (target_spec hj hids (owns_lightweight hlight)) (uses_target k job) h₀
      (fun _ _ _ h hr _ => hsteady.rely h hr)
      fun o ho _ s hs ch x hx => begun_exec hids (hdone x hx).1 hj (hdone x hx).2 ho ch (hs x hx)
    refine gives_bind (A := fun _ s => ∀ x ∈ done ++ [(k, job)], Begun x s)
      (Safe.mono htarget fun r _ s hr a _ => ?_) fun ret s₁ h₁ => gives_ret h₁
    refine hadd hr.2 ?_
    rw [Begun, if_pos hlight]
    exact hr.1.2
  | false =>
    rw [runJob, if_neg (by simp [hlight])]
    refine gives_bind (readRunner_spec hsteady h) fun r s₁ h₁ => ?_
    cases halive : r.isAlive with
    | true => exact gives_raise _
    | false =>
      have hidle : Steady jobs 0 fun s => (∀ x ∈ done, Begun x s) ∧ Idle k s := hsteady.and idle_steady
      refine gives_bind (gives_quiet hidle (.op trivial) ⟨h₁.1, h₁.2 halive⟩) fun _ s₂ h₂ => ?_
      refine spec_call fun s₃ hr hc ch => ?_
      obtain ⟨hbegun, hidle⟩ := hidle.rely h₂ hr
      refine ⟨owes_setThread hc rfl (by simp) (fun m _ => ?_) (by simp), ?_⟩
      · rcases hidle with hidle | hidle
        · simp [hidle]
        · exact iff_of_false (by simp) (hidle.ne_alive m)
      · rintro _ ⟨⟩
        refine hadd (fun x hx => ?_) ?_
        · have hx' := hbegun x hx
          unfold Begun at hx' ⊢
          split_ifs at hx' ⊢
          · exact hx'
          · rwa [thread_startThread, if_neg (hdone x hx).2]
        · simp [Begun, hlight, thread_startThread]

/-! ### Watching the jobs -/

/-- A round that tells so has seen every runner without a thread that lives, and none of them
lives again. -/
theorem watchRound_spec {runners : List (ℕ × Job)} {A : Shared → Prop} (hA : Steady jobs 0 A) (h : A s) :
    Spec jobs 0 (watchRound runners)
      (Gives fun b s => A s ∧ (b = true → ∀ x ∈ runners, Idle x.1 s)) s := by
  induction runners generalizing A s with
  | nil => exact gives_ret ⟨h, by simp⟩
  | cons x runners ih =>
    rcases x with ⟨j, job⟩
    refine gives_bind (gives_quiet hA (.op trivial) h) fun _ s₁ h₁ => ?_
    refine gives_bind (readRunner_spec hA h₁) fun r s₂ h₂ => ?_
    have hA' : Steady jobs 0 fun s => A s ∧ (r.isAlive = false → Idle j s) :=
      hA.and (idle_steady.imp _)
    refine gives_bind (gives_quiet hA' (uses_logException trivial trivial) h₂) fun _ s₃ h₃ => ?_
    refine gives_bind (gives_quiet hA' (uses_logging trivial uses_awaitFlush) h₃) fun _ s₄ h₄ => ?_
    refine gives_bind (ih hA' h₄) fun allDead s₅ h₅ => gives_ret ⟨h₅.1.1, fun hdead => ?_⟩
    rw [Bool.and_eq_true, Bool.not_eq_true'] at hdead
    exact List.forall_mem_cons.mpr ⟨h₅.1.2 hdead.1, h₅.2 hdead.2⟩

theorem watch_spec {runners : List (ℕ × Job)} {A : Shared → Prop} (hA : Steady jobs 0 A) (n : ℕ) (h : A s) :
    Spec jobs 0 (watch runners n) (Gives fun _ s => A s ∧ ∀ x ∈ runners, Idle x.1 s) s := by
  induction n generalizing s with
  | zero => exact gives_raise _
  | succ n ih =>
    refine gives_bind (watchRound_spec hA h) fun b s₁ h₁ => ?_
    cases b with
    | true => exact gives_ret ⟨h₁.1, h₁.2 rfl⟩
    | false => exact ih h₁.1

end YtScheduler.Commands
