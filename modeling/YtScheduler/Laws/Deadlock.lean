import YtScheduler.Pooling.Forwards

/-! Jobs that submit jobs. With the default options the second put of
`submit_or_execute` waits for room without a limit, so that its fallback is never
reached; the pool then goes on exactly as long as the last worker that is not waiting
does not submit to a full queue. -/

namespace YtScheduler

open Pooling Sequences

namespace Pooling

/-- A submission through `submit_or_execute` that leaves the options as they are. -/
structure DefaultArgs where
  owner : Option ℕ := none

instance : Submission DefaultArgs := ⟨fun _ => true, fun _ => {}, DefaultArgs.owner⟩

variable {κ : Type}

/-- A submission before one of its puts. -/
def Frame.isSubmission : Frame κ → Bool
  | .call _ _ => true
  | .retry _ _ => true
  | _ => false

/-- The worker is in a put that waits for room. -/
def Worker.waits : Worker κ → Bool
  | .busy (.retry _ _ :: _) => true
  | _ => false

/-- The job is on the queue or its worker is not done with it. -/
def Cell.unfinished (c : Cell κ) : Bool :=
  match c.worker with
  | .queued => true
  | w => w.active

/-- A step of a worker or a caller, other than the look of a worker at an empty queue. -/
def Pool.working (σ : Pool κ) : Action κ → Bool
  | .worker i _ =>
    match σ.workers[i]? with
    | some (.busy _) => true
    | some .top => !σ.queue.isEmpty
    | some .getting => !σ.queue.isEmpty
    | _ => false
  | .caller _ _ => true
  | _ => false

/-- While no shutdown was requested, somebody can work on if a job is unfinished, and not every
worker waits for room. -/
structure GoesOn [Submission κ] (σ : Pool κ) : Prop where
  works : σ.stop = false → (∃ c ∈ σ.cells, c.unfinished = true) →
    ∃ a, σ.working a = true ∧ (σ.act a).isSome = true
  free : σ.stop = false → ¬(σ.isFull = true ∧ ∀ w ∈ σ.workers, w.waits = true)

/-- A job that submits to a full queue leaves another worker that is not waiting. -/
def LeavesWorker (σ : Pool κ) (a : Action κ) : Prop :=
  σ.stop = false → ∀ (i : ℕ) (late : Bool) (x : κ) (job : Job κ) (fs : List (Frame κ)),
    a = .worker i late → σ.workers[i]? = some (.busy (.call x job :: fs)) → σ.isFull = true →
    ∃ k w, k ≠ i ∧ σ.workers[k]? = some w ∧ w.waits = false

/-! ### Stacks -/

section Stacks

/-- Only the top of a stack is a submission. -/
def Shaped (fs : List (Frame κ)) : Prop := ∀ f ∈ fs.tail, f.isSubmission = false

theorem Shaped.tail {f : Frame κ} {fs : List (Frame κ)} (h : Shaped (f :: fs)) :
    Shaped fs := fun g hg => h g (List.mem_of_mem_tail hg)

theorem Shaped.waits_tail {f : Frame κ} {fs : List (Frame κ)} (h : Shaped (f :: fs)) :
    (Pool.resume fs).waits = false := by
  match fs with
  | [] => rfl
  | .retry a job :: fs => exact absurd (h _ List.mem_cons_self) (by simp [Frame.isSubmission])
  | .exec _ :: _ => rfl
  | .call _ _ :: _ => rfl
  | .register _ :: _ => rfl

variable [Submission κ] {s s' : Shared κ} {late : Bool} {fs fs' : List (Frame κ)}

/-- After a step the stack still has its submission on top, and waits only if the step has found
the queue full. -/
theorem ThreadStep.shaped (hstep : ThreadStep s late fs s' fs') (h : Shaped fs) :
    Shaped fs' ∧ ((Pool.resume fs').waits = false ∨
      s.isFull = true ∧ ∃ a job rest, fs = .call a job :: rest) := by
  cases hstep with
  | @exec j c out fs hc hw =>
    unfold Shared.workStack
    split
    · refine ⟨?_, Or.inl rfl⟩
      intro f hf
      rcases List.mem_cons.mp hf with rfl | hf
      · rfl
      · exact h f hf
    · split_ifs
      · exact ⟨h.tail, Or.inl h.waits_tail⟩
      · exact ⟨h, Or.inl rfl⟩
  | @register j c c' fs hc hr =>
    unfold Shared.registerStack
    split_ifs
    · exact ⟨h.tail, Or.inl h.waits_tail⟩
    · exact ⟨h, Or.inl rfl⟩
  | put hf _ _ => exact ⟨h, Or.inl rfl⟩
  | fallback hf _ =>
    refine ⟨?_, Or.inl rfl⟩
    intro f hf
    rcases List.mem_cons.mp hf with rfl | hf
    · rfl
    · exact h f hf
  | retry hfull => exact ⟨h, Or.inr ⟨hfull, _, _, _, rfl⟩⟩
  | raise _ => exact ⟨h.tail, Or.inl h.waits_tail⟩

end Stacks

theorem mem_framesOf {ws : List (Worker κ)} {cs : List (List (Frame κ))} {f : Frame κ} :
    f ∈ framesOf ws cs ↔ (∃ w ∈ ws, f ∈ w.stack) ∨ ∃ fs ∈ cs, f ∈ fs := by
  simp [framesOf, List.mem_append, List.mem_flatMap]

/-! ### Who can take a step -/

theorem resume_ne_busy_nil (fs : List (Frame κ)) : Pool.resume fs ≠ .busy [] := by
  cases fs <;> exact fun h => nomatch h

theorem resume_ne_exited (fs : List (Frame κ)) : Pool.resume fs ≠ .exited := by
  cases fs <;> exact fun h => nomatch h

section Enabled

variable {σ : Pool DefaultArgs} {late : Bool} {f : Frame DefaultArgs}
  {fs : List (Frame DefaultArgs)}

theorem work_isSome {live : ℕ → Bool} {c : Cell κ} (h : c.worker.active = true) :
    (c.work live).isSome = true := by
  rw [Cell.work]
  cases hw : c.worker with
  | running calls outcome => cases calls <;> rfl
  | settled => cases c.callback <;> rfl
  | forwarding => rfl
  | _ => rw [hw] at h; cases h

theorem register_isSome {live : ℕ → Bool} {c : Cell κ} (h : c.submitter.isFinished = false) :
    (c.register live).isSome = true := by
  rw [Cell.register]
  cases hs : c.submitter with
  | returned owner => cases owner <;> rfl
  | callbackStored k => rfl
  | refStored => cases c.promise.isEmpty <;> rfl
  | sawDone => rfl
  | finished b => rw [hs] at h; cases h

variable (late fs) in
/-- A thread with something on its stack takes a step, or waits for room on a full queue. -/
theorem step_isSome (hsound : Sound σ) (hf : f ∈ σ.frames) :
    (σ.toShared.step late (f :: fs)).isSome = true ∨
      σ.isFull = true ∧ ∃ a job, f = .retry a job := by
  cases f with
  | exec j =>
    left
    obtain ⟨c, hc, hactive⟩ := (hsound.places.execs.mem j).mp
      (List.mem_filterMap.mpr ⟨_, hf, rfl⟩)
    simp [Shared.step, Shared.stepExec, hc, work_isSome hactive]
  | register j =>
    left
    obtain ⟨c, hc, hnot⟩ := (hsound.places.registers.mem j).mp
      (List.mem_filterMap.mpr ⟨_, hf, rfl⟩)
    simp [Shared.step, Shared.stepRegister, hc, register_isSome hnot]
  | call a job =>
    left
    cases hfull : σ.isFull <;> simp [Shared.step, Submission.orExecute, Submission.options, put, hfull]
  | retry a job =>
    cases hfull : σ.isFull with
    | false => left; simp [Shared.step, put, hfull]
    | true => exact Or.inr ⟨rfl, a, job, rfl⟩

theorem act_worker_isSome {i : ℕ} (hi : σ.workers[i]? = some (.busy fs))
    (h : (σ.toShared.step late fs).isSome = true) : (σ.act (.worker i late)).isSome = true := by
  simp [Pool.act, Pool.stepWorker, hi, h]

theorem act_caller_isSome {i : ℕ} (hi : σ.callers[i]? = some fs)
    (h : (σ.toShared.step late fs).isSome = true) : (σ.act (.caller i late)).isSome = true := by
  simp [Pool.act, hi, h]

end Enabled

/-! ### A worker that does not wait -/

section Workers

/-- What a run keeps as long as the last worker does not submit to a full queue. -/
structure HasWorker [Submission κ] (σ : Pool κ) : Prop where
  sound : Sound σ
  shaped : ∀ w ∈ σ.workers, Shaped w.stack
  busy : ∀ w ∈ σ.workers, w ≠ .busy []
  staying : σ.stop = false → ∀ w ∈ σ.workers, w ≠ .exited
  free : σ.stop = false → ∃ w ∈ σ.workers, w.waits = false

variable [Submission κ] {σ σ' : Pool κ} {a : Action κ}

/-- One worker moves on; another one, or this one, does not wait. -/
theorem HasWorker.set (h : HasWorker σ) {i : ℕ} {w : Worker κ} (hsound : Sound σ')
    (hworkers : σ'.workers = σ.workers.set i w) (hi : (σ.workers[i]?).isSome = true)
    (hstop : σ'.stop = σ.stop) (hshaped : Shaped w.stack) (hbusy : w ≠ .busy [])
    (hstaying : σ.stop = false → w ≠ .exited)
    (hfree : σ.stop = false → w.waits = false ∨
      ∃ k w', k ≠ i ∧ σ.workers[k]? = some w' ∧ w'.waits = false) : HasWorker σ' := by
  have hmem : ∀ {P : Worker κ → Prop}, P w → (∀ w ∈ σ.workers, P w) → ∀ w ∈ σ'.workers, P w := by
    intro P hw hall w' hw'
    rw [hworkers] at hw'
    rcases List.mem_or_eq_of_mem_set hw' with hold | rfl
    · exact hall w' hold
    · exact hw
  refine ⟨hsound, hmem hshaped h.shaped, hmem hbusy h.busy, ?_, ?_⟩
  · intro hs
    rw [hstop] at hs
    exact hmem (hstaying hs) (h.staying hs)
  · intro hs
    rw [hstop] at hs
    rw [hworkers]
    rcases hfree hs with hw | ⟨k, w', hk, hw', hfree⟩
    · obtain ⟨w₀, hw₀⟩ := Option.isSome_iff_exists.mp hi
      exact ⟨w, List.mem_set (List.getElem?_eq_some_iff.mp hw₀).1 w, hw⟩
    · refine ⟨w', List.mem_of_getElem? (i := k) ?_, hfree⟩
      rwa [List.getElem?_set_ne (Ne.symm hk)]

theorem HasWorker.same (h : HasWorker σ) (hsound : Sound σ') (hworkers : σ'.workers = σ.workers)
    (hstop : σ'.stop = false → σ.stop = false) : HasWorker σ' := by
  refine ⟨hsound, ?_, ?_, ?_, ?_⟩
  · rw [hworkers]; exact h.shaped
  · rw [hworkers]; exact h.busy
  · rw [hworkers]; exact fun hs => h.staying (hstop hs)
  · rw [hworkers]; exact fun hs => h.free (hstop hs)

theorem HasWorker.act (h : HasWorker σ) (hc : LeavesWorker σ a) (ha : σ.act a = some σ') :
    HasWorker σ' := by
  have hsound := h.sound.act ha
  have hnil : Shaped ([] : List (Frame κ)) := fun f hf => nomatch hf
  cases Pool.act_cases ha with
  | arrive a job => exact h.same hsound rfl id
  | check hi =>
    apply h.set hsound rfl (by rw [hi]; rfl) rfl
    · cases σ.stop <;> exact hnil
    · cases σ.stop <;> exact fun h => nomatch h
    · intro hs
      rw [hs]
      exact fun h => nomatch h
    · intro hs
      rw [hs]
      exact Or.inl rfl
  | take hi hq =>
    exact h.set hsound rfl (by rw [hi]; rfl) rfl hnil (fun h => nomatch h)
      (fun _ h => nomatch h) fun _ => Or.inl rfl
  | empty hi hq =>
    exact h.set hsound rfl (by rw [hi]; rfl) rfl hnil (fun h => nomatch h)
      (fun _ h => nomatch h) fun _ => Or.inl rfl
  | @worker i late s' fs fs' hi hstep =>
    obtain ⟨hshaped, hwaits⟩ := hstep.shaped (h.shaped _ (List.mem_of_getElem? hi))
    apply h.set hsound rfl (by rw [hi]; rfl) rfl
    · rwa [stack_resume]
    · exact resume_ne_busy_nil fs'
    · exact fun _ => resume_ne_exited fs'
    · intro hs
      rcases hwaits with hfree | ⟨hfull, x, job, rest, rfl⟩
      · exact Or.inl hfree
      · exact Or.inr (hc hs i late x job rest rfl hi hfull)
  | caller hi hstep => exact h.same hsound rfl id
  | ran hk hq => exact h.same hsound rfl id
  | stop hs => exact h.same hsound rfl fun h => nomatch h
  | drained hs hq => exact h.same hsound rfl id
  | emptied hs hq => exact h.same hsound rfl id
  | joined hs hw => exact h.same hsound rfl id

theorem HasWorker.start (maxsize workers owners : ℕ) :
    HasWorker (Pool.start maxsize (workers + 1) owners : Pool κ) := by
  have hall : ∀ {P : Worker κ → Prop}, P .top →
      ∀ w ∈ (Pool.start maxsize (workers + 1) owners : Pool κ).workers, P w := by
    intro P hP w hw
    rw [List.eq_of_mem_replicate hw]
    exact hP
  refine ⟨Sound.start _ _ _, ?_, ?_, ?_, ?_⟩
  · exact hall fun f hf => nomatch hf
  · exact hall fun h => nomatch h
  · exact fun _ => hall fun h => nomatch h
  · exact fun _ => ⟨.top, List.mem_replicate.mpr ⟨by omega, rfl⟩, rfl⟩

end Workers

section Progress

variable {σ : Pool DefaultArgs}

/-- A worker or a caller whose thread holds a frame goes on, unless it waits for room. -/
theorem works_of_frame (h : HasWorker σ) {f : Frame DefaultArgs} (hf : f ∈ σ.frames)
    (hroom : σ.isFull = false) : ∃ a, σ.working a = true ∧ (σ.act a).isSome = true := by
  have htop : ∀ g fs, (∀ f ∈ g :: fs, f ∈ σ.frames) →
      (σ.toShared.step false (g :: fs)).isSome = true := by
    intro g fs hmem
    rcases step_isSome false fs h.sound (hmem g List.mem_cons_self) with hs | hs
    · exact hs
    · rw [hroom] at hs
      cases hs.1
  rcases mem_framesOf.mp hf with ⟨w, hw, hfw⟩ | ⟨fs, hfs, hff⟩
  · obtain ⟨i, hi⟩ := List.mem_iff_getElem?.mp hw
    match w with
    | .busy [] => cases hfw
    | .busy (g :: fs) =>
      refine ⟨.worker i false, by rw [Pool.working, hi], act_worker_isSome hi ?_⟩
      exact htop g fs fun f hf => mem_framesOf.mpr (Or.inl ⟨_, hw, hf⟩)
    | .top => cases hfw
    | .getting => cases hfw
    | .exited => cases hfw
  · obtain ⟨i, hi⟩ := List.mem_iff_getElem?.mp hfs
    match fs with
    | [] => cases hff
    | g :: fs =>
      refine ⟨.caller i false, rfl, act_caller_isSome hi ?_⟩
      exact htop g fs fun f hf => mem_framesOf.mpr (Or.inr ⟨_, hfs, hf⟩)

theorem HasWorker.works (h : HasWorker σ) (hs : σ.stop = false)
    (hjob : ∃ c ∈ σ.cells, c.unfinished = true) :
    ∃ a, σ.working a = true ∧ (σ.act a).isSome = true := by
  obtain ⟨c, hc, hunfinished⟩ := hjob
  obtain ⟨j, hj⟩ := List.mem_iff_getElem?.mp hc
  cases hq : σ.queue with
  | nil =>
    -- the job is on a stack, and there is room for any submission
    have hactive : c.worker.active = true := by
      rw [Cell.unfinished] at hunfinished
      cases hw : c.worker with
      | queued =>
        have hmem := (h.sound.places.queue.mem j).mpr ⟨c, hj, hw⟩
        rw [hq] at hmem
        cases hmem
      | _ => rw [hw] at hunfinished; exact hunfinished
    obtain ⟨f, hf, _⟩ := List.mem_filterMap.mp ((h.sound.places.execs.mem j).mpr ⟨c, hj, hactive⟩)
    apply works_of_frame h hf
    rw [Shared.isFull, hq, Bool.and_eq_false_iff]
    simp only [List.length_nil, decide_eq_false_iff_not]
    omega
  | cons k rest =>
    -- a worker that does not wait takes a job or works on its own
    obtain ⟨w, hw, hfree⟩ := h.free hs
    obtain ⟨i, hi⟩ := List.mem_iff_getElem?.mp hw
    match w with
    | .top =>
      exact ⟨.worker i false, by simp [Pool.working, hi, hq], by simp [Pool.act, Pool.stepWorker, hi]⟩
    | .getting =>
      exact ⟨.worker i false, by simp [Pool.working, hi, hq],
        by simp [Pool.act, Pool.stepWorker, hi, hq]⟩
    | .busy [] => exact absurd rfl (h.busy _ hw)
    | .busy (g :: fs) =>
      refine ⟨.worker i false, by rw [Pool.working, hi], act_worker_isSome hi ?_⟩
      have hmem : g ∈ σ.frames := mem_framesOf.mpr (Or.inl ⟨_, hw, List.mem_cons_self⟩)
      rcases step_isSome false fs h.sound hmem with hstep | ⟨_, a, job, rfl⟩
      · exact hstep
      · cases hfree
    | .exited => exact absurd rfl (h.staying hs _ hw)

theorem HasWorker.goesOn (h : HasWorker σ) : GoesOn σ := by
  refine ⟨h.works, ?_⟩
  rintro hs ⟨_, hall⟩
  obtain ⟨w, hw, hfree⟩ := h.free hs
  rw [hall w hw] at hfree
  cases hfree

/-- The last worker that submits to a full queue leaves none. -/
theorem leavesWorker_of_always {maxsize workers owners : ℕ} {as : List (Action DefaultArgs)}
    (h : Transitions.Always Pool.act GoesOn (Pool.start maxsize workers owners) as) :
    Transitions.Along Pool.act LeavesWorker (Pool.start maxsize workers owners) as := by
  apply Transitions.along_of_forall
  rintro as₁ a as₂ σ rfl hrun hs i late x job fs rfl hi hfull
  by_contra hnone
  have ha : σ.act (.worker i late) = some
      { σ with workers := σ.workers.set i (.busy (.retry x job :: fs)) } := by
    simp [Pool.act, Pool.stepWorker, hi, Shared.step, Submission.orExecute, Submission.options,
      put, hfull, Pool.resume]
  have hnext := h (as₁ ++ [.worker i late]) as₂ _ (by simp) (by
    rw [Transitions.run_append, hrun, Option.bind_some, Transitions.run, ha]
    rfl)
  refine hnext.free hs ⟨hfull, ?_⟩
  intro w hw
  obtain ⟨k, hk⟩ := List.mem_iff_getElem?.mp hw
  rw [List.getElem?_set] at hk
  split_ifs at hk with hik
  · cases hk
    rfl
  · by_contra hwaits
    exact hnone ⟨k, w, Ne.symm hik, hk, by simpa using hwaits⟩

end Progress

end Pooling

/-! ### The law -/

/-- The pool goes on in every state of a run exactly when no job submits to a full queue while
all other workers wait for room. -/
theorem pool_goes_on_iff (maxsize workers owners : ℕ) (as : List (Action DefaultArgs)) :
    Transitions.Always Pool.act GoesOn (Pool.start maxsize (workers + 1) owners) as ↔
      Transitions.Along Pool.act LeavesWorker (Pool.start maxsize (workers + 1) owners) as := by
  refine ⟨leavesWorker_of_always, ?_⟩
  intro hc
  have hinv : Transitions.Always Pool.act HasWorker (Pool.start maxsize (workers + 1) owners) as :=
    Transitions.always_of_along (HasWorker.start _ _ _) (fun _ _ _ h hc ha => h.act hc ha) hc
  exact Transitions.always_imp hinv fun σ h => h.goesOn

/-- A job that submits another one, on a pool with one worker and room for one job. -/
def nestedSubmission : List (Action DefaultArgs) :=
  [.arrive {} (.mk [({}, .mk [] (.ok 1))] (.ok 0)), .caller 0 false, .caller 0 false,
    .worker 0 false, .worker 0 false,
    -- another caller fills the queue
    .arrive {} (.mk [] (.ok 2)), .caller 1 false, .caller 1 false,
    .worker 0 false, .worker 0 false]

theorem pool_deadlocks :
    ¬Transitions.Always Pool.act GoesOn (Pool.start 1 1 0) nestedSubmission := by
  intro h
  have hfree : Transitions.Always Pool.act (fun σ : Pool DefaultArgs => σ.stop = false →
      ¬(σ.isFull = true ∧ ∀ w ∈ σ.workers, w.waits = true)) (Pool.start 1 1 0) nestedSubmission :=
    Transitions.always_imp h fun σ hσ => hσ.free
  exact Transitions.not_always (by decide +kernel) hfree

end YtScheduler
