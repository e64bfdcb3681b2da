import YtScheduler.Services.Polls

/-! Which entries a poll removes. The callbacks of one poll share the variable `run_id`
of its frame, which holds the last item once the poll has returned. They remove the
runs that were seen finished if that is the only one of them. -/

namespace YtScheduler

open Tablet Threads Executor

/-- After a poll with these answers, draining the callbacks of its jobs, in whatever order they
come and whatever is pending by then, removes the entries of exactly the run ids whose operation
was seen finished. -/
def FinalizesSeen (i svc : ℕ) (s : Shared) (service : Service) (answers : List Answer) : Prop :=
  ∃ t, Polls i (pollPendingOperations svc) answers {} s () [] t ∧
    ∀ (cbs rest : List Callback) (d : Shared) (service' : Service),
      cbs.Perm (callbacks (t.mem.queueables.drop s.mem.queueables.length)) →
      d.mem.frames = t.mem.frames →
      d.mem.services[svc]? = some { service' with callbacks := cbs ++ rest } →
      ∃ d', Yields i (Pool.drainCallbacks svc (runCallback svc) cbs.length) d () d' ∧
        d'.mem.services[svc]? = some { service' with
          callbacks := rest
          pendingOperations := service'.pendingOperations.filter
            (·.runId ∉ seenFinished service.pendingOperations answers)
          pendingTaskRuns := service'.pendingTaskRuns.filter
            (·.runId ∉ seenFinished service.pendingOperations answers) }

/-- Every item whose operation was seen finished is the last one of the poll. -/
def OnlyLastFinished (items : List (Item (Option OperationId))) (answers : List Answer) : Prop :=
  ∀ id ∈ seenFinished items answers, items.getLast?.map Item.runId = some id

instance (items : List (Item (Option OperationId))) (answers : List Answer) :
    Decidable (OnlyLastFinished items answers) := by
  unfold OnlyLastFinished
  infer_instance

variable {i svc : ℕ} {s : Shared} {service : Service} {answers : List Answer}

/-- What draining does to a service, for a poll whose last run id is `last`. -/
theorem drained_eq {F : List Uuid} {last : Uuid} (h : ∀ id ∈ F, id = last) (rest : List Callback) :
    { (if F.length = 0 then service else service.popPending last) with callbacks := rest } =
      { service with
        callbacks := rest
        pendingOperations := service.pendingOperations.filter (·.runId ∉ F)
        pendingTaskRuns := service.pendingTaskRuns.filter (·.runId ∉ F) } := by
  cases F with
  | nil => simp
  | cons id ids =>
    have hmem : ∀ runId, runId ∈ id :: ids ↔ runId = last := by
      intro runId
      refine ⟨h runId, ?_⟩
      rintro rfl
      rw [← h id List.mem_cons_self]
      exact List.mem_cons_self
    simp only [hmem]
    rfl

/-- A poll, and what draining its callbacks does: the entries of its last run id go if any
operation was seen finished. -/
theorem exists_poll (i : ℕ) (hsvc : s.mem.services[svc]? = some service)
    (hlength : answers.length = service.pendingOperations.length) :
    ∃ t, Polls i (pollPendingOperations svc) answers {} s () [] t ∧
      callbacks (t.mem.queueables.drop s.mem.queueables.length) =
        List.replicate (seenFinished service.pendingOperations answers).length
          (.finalize s.mem.frames.length) ∧
      ∀ (rest : List Callback) (d : Shared) (service' : Service) (n : ℕ),
        d.mem.frames = t.mem.frames →
        d.mem.services[svc]? =
          some { service' with callbacks := List.replicate n (.finalize s.mem.frames.length) ++ rest } →
        ∃ d', Yields i (Pool.drainCallbacks svc (runCallback svc) n) d () d' ∧
          d'.mem.services[svc]? = some { (if n = 0 then service' else service'.popPending
            ((service.pendingOperations.getLast?.map Item.runId).getD 0)) with callbacks := rest } := by
  obtain ⟨t, entries, hpoll, hframe, _, hentries, hcallbacks⟩ :=
    polls_pendingOperations (i := i) (l := {}) hsvc hlength
  refine ⟨t, hpoll, ?_, fun rest d service' n hframes hd => ?_⟩
  · rw [hentries, List.drop_left, hcallbacks]
  · exact yields_drainCallbacks (hframes ▸ hframe) rfl hd

theorem FinalizesSeen.of_onlyLast (hsvc : s.mem.services[svc]? = some service)
    (hlength : answers.length = service.pendingOperations.length)
    (h : OnlyLastFinished service.pendingOperations answers) : FinalizesSeen i svc s service answers := by
  obtain ⟨t, hpoll, hcallbacks, hdrain⟩ := exists_poll i hsvc hlength
  refine ⟨t, hpoll, fun cbs rest d service' hperm hframes hd => ?_⟩
  rw [hcallbacks, List.perm_replicate] at hperm
  subst hperm
  obtain ⟨d', hyields, hservice⟩ := hdrain rest d service' _ hframes hd
  rw [List.length_replicate]
  refine ⟨d', hyields, hservice.trans (congrArg some (drained_eq (fun id hid => ?_) rest))⟩
  rw [h id hid]
  rfl

theorem FinalizesSeen.onlyLast (hsvc : s.mem.services[svc]? = some service)
    (hlength : answers.length = service.pendingOperations.length)
    (h : FinalizesSeen i svc s service answers) : OnlyLastFinished service.pendingOperations answers := by
  obtain ⟨t, hpoll, hcallbacks, hdrain⟩ := exists_poll i hsvc hlength
  obtain ⟨t', hpoll', hfinal⟩ := h
  cases hpoll.symm.trans hpoll'
  -- the service as it was, with the callbacks of the poll in its queue
  let n := (seenFinished service.pendingOperations answers).length
  let cbs := List.replicate n (Callback.finalize s.mem.frames.length)
  let d : Shared := { t with mem := { t.mem with
    services := List.replicate (svc + 1) { service with callbacks := cbs ++ [] } } }
  have hd : d.mem.services[svc]? = some { service with callbacks := cbs ++ [] } := by
    simp [d]
  obtain ⟨d₁, hyields₁, hservice₁⟩ := hdrain [] d service n rfl hd
  obtain ⟨d₂, hyields₂, hservice₂⟩ := hfinal cbs [] d service (hcallbacks ▸ .refl _) rfl hd
  rw [List.length_replicate] at hyields₂
  rw [(hyields₁.unique hyields₂).2, hservice₂] at hservice₁
  have hops := congrArg Service.pendingOperations (Option.some.inj hservice₁)
  intro id hid
  have hn : n ≠ 0 := by
    rw [Ne, List.length_eq_zero_iff]
    exact List.ne_nil_of_mem hid
  rw [if_neg hn] at hops
  obtain ⟨p, hp, rfl⟩ := List.mem_map.mp hid
  have hitem : p.1 ∈ service.pendingOperations := (List.of_mem_zip (List.mem_filter.mp hp).1).1
  -- the entry of a finished run is gone, so it is the entry of the last item
  have hgone : p.1 ∉ (service.popPending
      ((service.pendingOperations.getLast?.map Item.runId).getD 0)).pendingOperations := by
    intro hmem
    rw [← hops] at hmem
    simp [hid] at hmem
  have hlast : p.1.runId = (service.pendingOperations.getLast?.map Item.runId).getD 0 := by
    simpa [Service.popPending, hitem] using hgone
  cases hitems : service.pendingOperations.getLast? with
  | none =>
    rw [List.getLast?_eq_none_iff.mp hitems] at hitem
    cases hitem
  | some item =>
    rw [hitems] at hlast
    rw [hlast]
    rfl

/-- The callbacks of a poll remove exactly the runs that were seen finished if and only if none
but the last item was. -/
theorem finalizes_seen_iff (hsvc : s.mem.services[svc]? = some service)
    (hlength : answers.length = service.pendingOperations.length) :
    FinalizesSeen i svc s service answers ↔ OnlyLastFinished service.pendingOperations answers :=
  ⟨fun h => h.onlyLast hsvc hlength, FinalizesSeen.of_onlyLast hsvc hlength⟩

/-- Two operations are pending. -/
def twoPending : Service where
  pendingOperations := [⟨1, some 11⟩, ⟨2, some 12⟩]
  pendingTaskRuns := [⟨1, 0⟩, ⟨2, 1⟩]

def polling : Shared where
  store := ⟨⟨[], by decide⟩, []⟩
  mem := { services := [twoPending] }

/-- The last operation is seen finished after the state of the first one could not be had. -/
theorem finalizes_seen_last :
    FinalizesSeen 0 0 polling twoPending [.error .runtime, .ok .completed] ↔
      OnlyLastFinished twoPending.pendingOperations [.error .runtime, .ok .completed] :=
  finalizes_seen_iff rfl rfl

/-- The first operation is seen finished while the second one runs. -/
theorem finalizes_running : ¬∀ (i svc : ℕ) (s : Shared) (service : Service) (answers : List Answer),
    s.mem.services[svc]? = some service → answers.length = service.pendingOperations.length →
    FinalizesSeen i svc s service answers := by
  intro h
  have hlast := (h 0 0 polling twoPending [.ok .completed, .ok .running] rfl rfl).onlyLast rfl rfl
  revert hlast
  decide

end YtScheduler
