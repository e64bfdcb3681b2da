import YtScheduler.Sequences.Indices
import YtScheduler.Services.Alone

/-! One poll of an executor run alone, with an answer of `get_operation_state` for each
pending item: a status or a failure. The poll submits a job for every status it saw,
and for a finished operation a callback that reads `run_id` from the frame of the call.
When the poll has returned, the frame holds the run id of the last item. -/

namespace YtScheduler.Executor

open Tablet Threads

/-- What `get_operation_state` comes to for one item. -/
abbrev Answer := Except Exn OperationState

/-- The operation was seen finished. -/
def Answer.isFinished : Answer → Bool
  | .ok status => status.isFinished
  | .error _ => false

/-- The environment that gives these answers, in order. -/
def answering : Environment Op Choice (List Answer) where
  choose answers o :=
    match o, answers with
    | .getOperationState _, .ok status :: _ => { status }
    | .getOperationState _, .error e :: _ => { fail := some e }
    | _, _ => {}
  next answers o :=
    match o with
    | .getOperationState _ => answers.tail
    | _ => answers

/-- The run ids whose operation was seen finished. -/
def seenFinished (items : List (Item (Option OperationId))) (answers : List Answer) : List Uuid :=
  ((items.zip answers).filter fun p => p.2.isFinished).map (·.1.runId)

/-- The callbacks that were set on these pool entries. -/
def callbacks (entries : List Queueable) : List Callback :=
  entries.filterMap fun e => e.callback.map Prod.snd

variable {i svc frame : ℕ} {answers : List Answer} {l : Loc} {s s' : Shared}

/-- Thread `i` alone under the given answers. -/
abbrev Polls {α : Type} (i : ℕ) (p : P α) (answers : List Answer) (l : Loc) (s : Shared) (a : α)
    (answers' : List Answer) (s' : Shared) : Prop :=
  p.Ends (system.alone i answering) (answers, l, s) (.ok a) (answers', l, s')

theorem polls_mem {o : MemOp} {r : o.Ret} {m : Mem} (h : s.mem.exec i 0 o = (.ok r, m)) :
    Polls i (P.mem o) answers l s r answers { s with mem := m } := by
  refine Prog.ends_op ?_
  show ((Op.exec (.mem o) i {} l s).1, answers, (Op.exec (.mem o) i {} l s).2) = _
  simp only [Op.exec, h]

theorem polls_answer (answer : Answer) (operation : Option OperationId) :
    Polls i (P.call (.getOperationState operation)).attempt (answer :: answers) l s answer answers s := by
  cases answer with
  | ok status => exact (Prog.ends_op rfl).attempt
  | error e => exact (Prog.ends_op rfl).attempt

/-- A job is submitted, and its entry is not done. -/
theorem polls_submit (fn : Job) :
    Polls i (Pool.submit fn) answers l s s.mem.queueables.length answers
      { s with mem := { s.mem with
          queueables := s.mem.queueables ++ [{ owner := i, fn }]
          queue := s.mem.queue ++ [s.mem.queueables.length] } } := polls_mem rfl

/-- A callback is set on an entry that is not done, and waits there. -/
theorem polls_onComplete {entries : List Queueable} {e : Queueable} (cb : Callback)
    (hq : s.mem.queueables = entries ++ [e]) (he : e.result = none) :
    Polls i (Pool.onComplete entries.length svc cb) answers l s () answers
      { s with mem := { s.mem with queueables := entries ++ [{ e with callback := some (svc, cb) }] } } := by
  let s₁ : Shared :=
    { s with mem := { s.mem with queueables := entries ++ [{ e with callback := some (svc, cb) }] } }
  have hset : Polls i (P.mem (.setCallback entries.length svc cb)) answers l s () answers s₁ :=
    polls_mem (by
      rw [Mem.exec, hq, Sequences.modify_eq_set (x := e) _ (by simp)]
      simp)
  have hforward : Polls i (P.mem (.forwardIfDone entries.length)) answers l s₁ () answers s₁ :=
    polls_mem (by simp [Mem.exec, he, s₁])
  exact hset.bind hforward

variable (svc) in
/-- One round of the loop: the frame moves on, and a finished operation leaves a callback. -/
theorem polls_pollItem {thread svc' : ℕ} {runId : Uuid} {item : Item (Option OperationId)}
    {items : List (Item (Option OperationId))} (answer : Answer)
    (hframe : s.mem.frames[frame]? = some ⟨thread, svc', runId, item :: items⟩) :
    ∃ s' entries, Polls i (pollItem svc frame) (answer :: answers) l s () answers s' ∧
      s'.mem.frames = s.mem.frames.set frame ⟨thread, svc', item.runId, items⟩ ∧
      s'.mem.services = s.mem.services ∧ s'.mem.queueables = s.mem.queueables ++ entries ∧
      callbacks entries = if answer.isFinished then [.finalize frame] else [] := by
  let m : Mem := { s.mem with frames := s.mem.frames.set frame ⟨thread, svc', item.runId, items⟩ }
  have hnext : Polls i (P.mem (.nextItem frame)) (answer :: answers) l s (some item)
      (answer :: answers) { s with mem := m } := polls_mem (by simp [Mem.exec, hframe, m])
  have hanswer : Polls i (P.call (.getOperationState item.value)).attempt (answer :: answers) l
      { s with mem := m } answer answers { s with mem := m } := polls_answer answer item.value
  cases answer with
  | error e =>
    refine ⟨{ s with mem := m }, [], hnext.bind ?_, rfl, rfl, (List.append_nil _).symm, rfl⟩
    exact hanswer.bind (Prog.ends_ret () _)
  | ok status =>
    let s₁ : Shared := { s with mem := m }
    cases hstatus : status.isFinished with
    | true =>
      let tr := (m.services[svc]?).bind (·.pendingTaskRun item.runId)
      let fn : Job := .setState [finalUpdate item.runId tr status]
      have hread : Polls i (P.mem (.pendingTaskRun svc item.runId)) answers l s₁ tr answers s₁ :=
        polls_mem rfl
      let entry : Queueable := { owner := i, fn, callback := some (svc, .finalize frame) }
      refine ⟨{ s₁ with mem := { m with
          queueables := s.mem.queueables ++ [entry]
          queue := s.mem.queue ++ [s.mem.queueables.length] } }, [entry],
        hnext.bind (hanswer.bind ?_), rfl, rfl, rfl, ?_⟩
      · show Polls i (if status.isFinished then _ else _) answers l s₁ () answers _
        rw [hstatus, if_pos rfl]
        refine hread.bind ((polls_submit fn).bind ?_)
        exact polls_onComplete (e := { owner := i, fn }) (.finalize frame) rfl rfl
      · simp [callbacks, Answer.isFinished, hstatus, entry]
    | false =>
      let fn : Job := .setState [runningUpdate item]
      refine ⟨{ s₁ with mem := { m with
          queueables := s.mem.queueables ++ [{ owner := i, fn }]
          queue := s.mem.queue ++ [s.mem.queueables.length] } }, [{ owner := i, fn }],
        hnext.bind (hanswer.bind ?_), rfl, rfl, rfl, ?_⟩
      · show Polls i (if status.isFinished then _ else _) answers l s₁ () answers _
        rw [hstatus, if_neg Bool.false_ne_true]
        exact (polls_submit fn).bind (Prog.ends_ret () _)
      · simp [callbacks, Answer.isFinished, hstatus]

theorem seenFinished_cons (item : Item (Option OperationId)) (items : List (Item (Option OperationId)))
    (answer : Answer) (answers : List Answer) :
    seenFinished (item :: items) (answer :: answers) =
      (if answer.isFinished then [item.runId] else []) ++ seenFinished items answers := by
  simp only [seenFinished, List.zip_cons_cons, List.filter_cons]
  split_ifs <;> rfl

theorem callbacks_append (es es' : List Queueable) :
    callbacks (es ++ es') = callbacks es ++ callbacks es' := List.filterMap_append

variable (svc) in
/-- The loop takes all items: the frame stays at the last one, and every operation seen finished
left a callback of this frame. -/
theorem polls_loop {thread svc' : ℕ} {runId : Uuid} {items : List (Item (Option OperationId))}
    (hlength : answers.length = items.length)
    (hframe : s.mem.frames[frame]? = some ⟨thread, svc', runId, items⟩) :
    ∃ s' entries, Polls i (Pool.loop (pollItem svc frame) items.length) answers l s () [] s' ∧
      s'.mem.frames[frame]? = some ⟨thread, svc', (items.getLast?.map Item.runId).getD runId, []⟩ ∧
      s'.mem.services = s.mem.services ∧ s'.mem.queueables = s.mem.queueables ++ entries ∧
      callbacks entries = List.replicate (seenFinished items answers).length (.finalize frame) := by
  induction items generalizing answers runId s with
  | nil =>
    obtain rfl := List.length_eq_zero_iff.mp hlength
    exact ⟨s, [], Prog.ends_ret () _, hframe, rfl, (List.append_nil _).symm, rfl⟩
  | cons item items ih =>
    cases answers with
    | nil => cases hlength
    | cons answer answers =>
      obtain ⟨s₁, entries₁, hround, hframes, hservices₁, hqueueables₁, hcallbacks₁⟩ :=
        polls_pollItem svc (i := i) (l := l) answer hframe
      have hframe₁ : s₁.mem.frames[frame]? = some ⟨thread, svc', item.runId, items⟩ := by
        rw [hframes, List.getElem?_set_self (List.getElem?_eq_some_iff.mp hframe).1]
      obtain ⟨s₂, entries₂, hrest, hframe₂, hservices₂, hqueueables₂, hcallbacks₂⟩ :=
        ih (Nat.succ.inj hlength) hframe₁
      refine ⟨s₂, entries₁ ++ entries₂, hround.bind hrest, ?_, hservices₂.trans hservices₁, ?_, ?_⟩
      · rw [hframe₂, List.getLast?_cons]
        cases items.getLast? <;> rfl
      · rw [hqueueables₂, hqueueables₁, List.append_assoc]
      · rw [callbacks_append, hcallbacks₁, hcallbacks₂, seenFinished_cons]
        split_ifs <;> rfl

/-- A poll: the callbacks it leaves are all of one frame, which holds the last run id. -/
theorem polls_pendingOperations {service : Service} (hsvc : s.mem.services[svc]? = some service)
    (hlength : answers.length = service.pendingOperations.length) :
    ∃ s' entries, Polls i (pollPendingOperations svc) answers l s () [] s' ∧
      s'.mem.frames[s.mem.frames.length]? =
        some ⟨i, svc, (service.pendingOperations.getLast?.map Item.runId).getD 0, []⟩ ∧
      s'.mem.services = s.mem.services ∧ s'.mem.queueables = s.mem.queueables ++ entries ∧
      callbacks entries = List.replicate (seenFinished service.pendingOperations answers).length
        (.finalize s.mem.frames.length) := by
  let items := service.pendingOperations
  let s₁ : Shared := { s with mem := { s.mem with frames := s.mem.frames ++ [⟨i, svc, 0, items⟩] } }
  have hopen : Polls i (P.mem (.openFrame svc)) answers l s (s.mem.frames.length, items.length)
      answers s₁ := polls_mem (by simp [Mem.exec, hsvc, items])
  have hframe : s₁.mem.frames[s.mem.frames.length]? = some ⟨i, svc, 0, items⟩ := by simp [s₁]
  obtain ⟨s', entries, hloop, h⟩ := polls_loop svc (i := i) (l := l) hlength hframe
  exact ⟨s', entries, hopen.bind hloop, h⟩

/-! ### Draining -/

theorem popPending_popPending (service : Service) (runId : Uuid) :
    (service.popPending runId).popPending runId = service.popPending runId := by
  simp [Service.popPending]

/-- The callbacks of one frame all remove the run id it holds. -/
theorem yields_drainCallbacks {f : PollFrame} {service : Service} {n : ℕ} {rest : List Callback}
    (hframe : s.mem.frames[frame]? = some f) (hf : f.svc = svc)
    (hsvc : s.mem.services[svc]? =
      some { service with callbacks := List.replicate n (.finalize frame) ++ rest }) :
    ∃ s', Yields i (Pool.drainCallbacks svc (runCallback svc) n) s () s' ∧
      s'.mem.services[svc]? = some
        { (if n = 0 then service else service.popPending f.runId) with callbacks := rest } := by
  subst hf
  induction n generalizing s service with
  | zero => exact ⟨s, Yields.ret () s, hsvc⟩
  | succ n ih =>
    let s₁ : Shared :=
      { s with mem := s.mem.onService f.svc fun sv => { sv with callbacks := sv.callbacks.tail } }
    let s₂ : Shared := { s₁ with mem := s₁.mem.onService f.svc fun sv => sv.popPending f.runId }
    have htake : Yields i (P.mem (.takeCallback f.svc)) s (some (.finalize frame)) s₁ :=
      Yields.mem fun _ => by simp [Mem.exec, hsvc, List.replicate_succ]
    have hfinalize : Yields i (P.mem (.finalize frame)) s₁ () s₂ :=
      Yields.mem fun _ => by simp [Mem.exec, s₁, Mem.onService, hframe]
    have hsvc₂ : s₂.mem.services[f.svc]? = some { service.popPending f.runId with
        callbacks := List.replicate n (.finalize frame) ++ rest } := by
      simp [s₂, s₁, Mem.onService, hsvc, Service.popPending, List.replicate_succ]
    obtain ⟨s', hrest, hservice⟩ := ih (s := s₂) hframe hsvc₂
    refine ⟨s', htake.bind (hfinalize.catching.bind hrest), ?_⟩
    rw [hservice, popPending_popPending, ite_self, if_neg (Nat.succ_ne_zero n)]

end YtScheduler.Executor
