import YtScheduler.System.Memory

/-! What one access can do to the pool entries, the callback queues and the frames: where
each of them comes from, and what survives. A thread sets the callback of an entry it
submitted, once, and steps through the frames of its own calls. -/

namespace YtScheduler

variable {m m' m'' : Mem} {i pick : ℕ} {o : MemOp}

namespace Mem

@[simp] theorem queueables_onService (m : Mem) (svc : ℕ) (f : Service → Service) :
    (m.onService svc f).queueables = m.queueables := rfl

@[simp] theorem frames_onService (m : Mem) (svc : ℕ) (f : Service → Service) :
    (m.onService svc f).frames = m.frames := rfl

@[simp] theorem queueables_forward (m : Mem) (q : ℕ) : (m.forward q).queueables = m.queueables := by
  unfold forward
  split <;> rfl

@[simp] theorem frames_forward (m : Mem) (q : ℕ) : (m.forward q).frames = m.frames := by
  unfold forward
  split <;> rfl

theorem forward_eq (m : Mem) (q : ℕ) : ∃ services, m.forward q = { m with services := services } := by
  unfold forward
  split
  · exact ⟨_, rfl⟩
  · exact ⟨_, rfl⟩

/-- What moves callbacks, frames and the queue leaves objects and pool entries alone. -/
def Moves : MemOp → Prop
  | .nextItem _ | .finalize _ | .takeJob | .forwardIfDone _ | .forwardCallback _ => True
  | _ => False

theorem exec_of_moves (m : Mem) (i pick : ℕ) (h : Moves o) : ∃ services frames queue,
    (m.exec i pick o).2 = { m with services := services, frames := frames, queue := queue } := by
  have hsame : ∃ services frames queue,
      m = { m with services := services, frames := frames, queue := queue } := ⟨_, _, _, rfl⟩
  have hforward : ∀ q, ∃ services frames queue,
      m.forward q = { m with services := services, frames := frames, queue := queue } := by
    intro q
    obtain ⟨services, he⟩ := forward_eq m q
    exact ⟨services, _, _, he⟩
  cases o with
  | nextItem frame =>
    simp only [exec]
    split
    · exact ⟨_, _, _, rfl⟩
    · exact hsame
  | finalize frame =>
    simp only [exec]
    split
    · exact ⟨_, _, _, rfl⟩
    · exact hsame
  | takeJob =>
    simp only [exec]
    split
    · split
      · exact ⟨_, _, _, rfl⟩
      · exact hsame
    · exact hsame
  | forwardIfDone q =>
    simp only [exec]
    split_ifs
    · exact hforward q
    · exact hsame
  | forwardCallback q => exact hforward q
  | _ => exact absurd h id

/-- TaskRun objects change only by being made or written. -/
theorem taskRuns_exec (hnew : ∀ rows, o ≠ .newTaskRuns rows) (hwrite : ∀ tr row, o ≠ .writeTaskRun tr row) :
    (m.exec i pick o).2.taskRuns = m.taskRuns := by
  by_cases hmoves : Moves o
  · obtain ⟨_, _, _, he⟩ := exec_of_moves m i pick hmoves
    rw [he]
  · cases o with
    | newTaskRuns rows => exact absurd rfl (hnew rows)
    | writeTaskRun tr row => exact absurd rfl (hwrite tr row)
    | nextItem _ | finalize _ | takeJob | forwardIfDone _ | forwardCallback _ =>
      exact absurd trivial hmoves
    | _ => rfl

theorem dagRuns_exec (hnew : ∀ rows, o ≠ .newDagRuns rows) (hwrite : ∀ run row, o ≠ .writeDagRun run row) :
    (m.exec i pick o).2.dagRuns = m.dagRuns := by
  by_cases hmoves : Moves o
  · obtain ⟨_, _, _, he⟩ := exec_of_moves m i pick hmoves
    rw [he]
  · cases o with
    | newDagRuns rows => exact absurd rfl (hnew rows)
    | writeDagRun run row => exact absurd rfl (hwrite run row)
    | nextItem _ | finalize _ | takeJob | forwardIfDone _ | forwardCallback _ =>
      exact absurd trivial hmoves
    | _ => rfl

/-- Pool entries change only by being made, and when their callback or result is set. -/
theorem queueables_exec (hsubmit : ∀ fn, o ≠ .submit fn) (hcallback : ∀ q svc cb, o ≠ .setCallback q svc cb)
    (hresult : ∀ q r, o ≠ .setResult q r) : (m.exec i pick o).2.queueables = m.queueables := by
  by_cases hmoves : Moves o
  · obtain ⟨_, _, _, he⟩ := exec_of_moves m i pick hmoves
    rw [he]
  · cases o with
    | submit fn => exact absurd rfl (hsubmit fn)
    | setCallback q svc cb => exact absurd rfl (hcallback q svc cb)
    | setResult q r => exact absurd rfl (hresult q r)
    | nextItem _ | finalize _ | takeJob | forwardIfDone _ | forwardCallback _ =>
      exact absurd trivial hmoves
    | _ => rfl

/-- A DagRun object stays as it is until it is written. -/
theorem getElem?_dagRuns_exec {self : Ref} {run : DagRunRow} (hwrite : ∀ row, o ≠ .writeDagRun self row)
    (h : m.dagRuns[self]? = some run) : (m.exec i pick o).2.dagRuns[self]? = some run := by
  cases o with
  | newDagRuns rows => exact (List.getElem?_append_left (List.getElem?_eq_some_iff.mp h).1).trans h
  | writeDagRun run' row =>
    have hne : run' ≠ self := by
      rintro rfl
      exact hwrite row rfl
    exact (List.getElem?_set_ne hne).trans h
  | _ => rwa [dagRuns_exec (by simp) (by simp)]

/-- Only a submission makes a pool entry. -/
theorem length_queueables_exec (h : ∀ fn, o ≠ .submit fn) :
    (m.exec i pick o).2.queueables.length = m.queueables.length := by
  cases o with
  | submit fn => exact absurd rfl (h fn)
  | setCallback q svc cb => exact List.length_modify ..
  | setResult q r => exact List.length_modify ..
  | _ => rw [queueables_exec (by simp) (by simp) (by simp)]

theorem mem_onService {svc : ℕ} {f : Service → Service} {service : Service}
    (h : service ∈ (m.onService svc f).services) :
    service ∈ m.services ∨ ∃ service₀ ∈ m.services, service = f service₀ := by
  obtain ⟨k, hk, rfl⟩ := List.getElem_of_mem h
  have hk' : k < m.services.length := by simpa [onService] using hk
  simp only [onService, List.getElem_modify]
  split_ifs
  · exact Or.inr ⟨_, List.getElem_mem hk', rfl⟩
  · exact Or.inl (List.getElem_mem hk')

/-- A queued callback of an entry, which has a result if it was forwarded for being done. -/
def Forwards (m : Mem) (o : MemOp) (cb : Callback) : Prop :=
  ∃ q e svc, m.queueables[q]? = some e ∧ e.callback = some (svc, cb) ∧
    (o = .forwardCallback q ∨ o = .forwardIfDone q ∧ e.result.isSome = true)

theorem mem_forward {q : ℕ} {service : Service} {cb : Callback}
    (h : service ∈ (m.forward q).services) (hcb : cb ∈ service.callbacks) :
    (∃ service₀ ∈ m.services, cb ∈ service₀.callbacks) ∨
      ∃ e svc, m.queueables[q]? = some e ∧ e.callback = some (svc, cb) := by
  unfold forward at h
  split at h
  · rename_i svc cb' he
    obtain ⟨e, he, hcb'⟩ := Option.bind_eq_some_iff.mp he
    rcases mem_onService h with h | ⟨service₀, h₀, rfl⟩
    · exact Or.inl ⟨service, h, hcb⟩
    · rcases List.mem_append.mp hcb with hcb | hcb
      · exact Or.inl ⟨service₀, h₀, hcb⟩
      · exact Or.inr ⟨e, svc, he, by rw [hcb', List.mem_singleton.mp hcb]⟩
  · exact Or.inl ⟨service, h, hcb⟩

/-- Where a queued callback comes from. -/
theorem mem_callbacks_exec {service : Service} {cb : Callback}
    (h : service ∈ (m.exec i pick o).2.services) (hcb : cb ∈ service.callbacks) :
    (∃ service₀ ∈ m.services, cb ∈ service₀.callbacks) ∨ m.Forwards o cb := by
  have hsvc : ∀ {svc : ℕ} {f : Service → Service}, service ∈ (m.onService svc f).services →
      (∀ service₀, ∀ cb ∈ (f service₀).callbacks, cb ∈ service₀.callbacks) →
      ∃ service₀ ∈ m.services, cb ∈ service₀.callbacks := by
    intro svc f h hf
    rcases mem_onService h with h | ⟨service₀, h₀, rfl⟩
    · exact ⟨service, h, hcb⟩
    · exact ⟨service₀, h₀, hf service₀ cb hcb⟩
  cases o with
  | newService =>
    rcases List.mem_append.mp h with h | h
    · exact Or.inl ⟨service, h, hcb⟩
    · rw [List.mem_singleton.mp h] at hcb
      cases hcb
  | takeCallback svc => exact Or.inl (hsvc h fun _ _ => List.mem_of_mem_tail)
  | addPending svc runId operation tr => exact Or.inl (hsvc h fun _ _ => id)
  | addCreated svc n => exact Or.inl (hsvc h fun _ _ => id)
  | takeCreated svc => exact Or.inl (hsvc h fun _ _ => id)
  | nextItem frame =>
    simp only [exec] at h
    split at h <;> exact Or.inl ⟨service, h, hcb⟩
  | finalize frame =>
    simp only [exec] at h
    split at h
    · exact Or.inl (hsvc h fun _ _ => id)
    · exact Or.inl ⟨service, h, hcb⟩
  | takeJob =>
    simp only [exec] at h
    repeat' split at h
    all_goals exact Or.inl ⟨service, h, hcb⟩
  | forwardIfDone q =>
    simp only [exec] at h
    split_ifs at h with hdone
    · refine (mem_forward h hcb).imp_right fun ⟨e, svc, he, hcb⟩ => ⟨q, e, svc, he, hcb, ?_⟩
      rw [he, Option.bind_some] at hdone
      exact Or.inr ⟨rfl, hdone⟩
    · exact Or.inl ⟨service, h, hcb⟩
  | forwardCallback q =>
    refine (mem_forward h hcb).imp_right fun ⟨e, svc, he, hcb⟩ => ?_
    exact ⟨q, e, svc, he, hcb, Or.inl rfl⟩
  | _ => exact Or.inl ⟨service, h, hcb⟩

/-- Where a pool entry comes from. -/
theorem getElem?_queueables_exec {q : ℕ} {e : Queueable}
    (h : (m.exec i pick o).2.queueables[q]? = some e) :
    (∃ fn, o = .submit fn ∧ q = m.queueables.length ∧ e = { owner := i, fn }) ∨
      ∃ e₀, m.queueables[q]? = some e₀ ∧ e.owner = e₀.owner ∧ e.fn = e₀.fn ∧
        (e.callback = e₀.callback ∨
          ∃ svc cb, o = .setCallback q svc cb ∧ e.callback = some (svc, cb)) ∧
        (e.result = e₀.result ∨ ∃ r, o = .setResult q r ∧ e.result = some r) := by
  have hsame : m.queueables[q]? = some e → ∃ e₀, m.queueables[q]? = some e₀ ∧ e.owner = e₀.owner ∧
      e.fn = e₀.fn ∧ (e.callback = e₀.callback ∨
        ∃ svc cb, o = .setCallback q svc cb ∧ e.callback = some (svc, cb)) ∧
      (e.result = e₀.result ∨ ∃ r, o = .setResult q r ∧ e.result = some r) :=
    fun h => ⟨e, h, rfl, rfl, Or.inl rfl, Or.inl rfl⟩
  cases o with
  | submit fn =>
    rcases Nat.lt_or_ge q m.queueables.length with hlt | hge
    · simp only [exec, List.getElem?_append_left hlt] at h
      exact Or.inr (hsame h)
    · simp only [exec, List.getElem?_append_right hge, List.getElem?_singleton] at h
      split_ifs at h with hq
      · cases h
        exact Or.inl ⟨fn, rfl, by omega, rfl⟩
  | setCallback q' svc cb =>
    simp only [exec, List.getElem?_modify] at h
    obtain ⟨e₀, he₀, he⟩ := Option.map_eq_some_iff.mp h
    refine Or.inr ⟨e₀, he₀, ?_⟩
    by_cases hq : q' = q
    · subst hq
      rw [if_pos rfl] at he
      subst he
      exact ⟨rfl, rfl, Or.inr ⟨svc, cb, rfl, rfl⟩, Or.inl rfl⟩
    · rw [if_neg hq] at he
      subst he
      exact ⟨rfl, rfl, Or.inl rfl, Or.inl rfl⟩
  | setResult q' r =>
    simp only [exec, List.getElem?_modify] at h
    obtain ⟨e₀, he₀, he⟩ := Option.map_eq_some_iff.mp h
    refine Or.inr ⟨e₀, he₀, ?_⟩
    by_cases hq : q' = q
    · subst hq
      rw [if_pos rfl] at he
      subst he
      exact ⟨rfl, rfl, Or.inl rfl, Or.inr ⟨r, rfl, rfl⟩⟩
    · rw [if_neg hq] at he
      subst he
      exact ⟨rfl, rfl, Or.inl rfl, Or.inl rfl⟩
  | _ =>
    rw [queueables_exec (by simp) (by simp) (by simp)] at h
    exact Or.inr (hsame h)

/-- Where a frame comes from. -/
theorem getElem?_frames_exec {f : ℕ} {fr : PollFrame}
    (h : (m.exec i pick o).2.frames[f]? = some fr) :
    m.frames[f]? = some fr ∨ (f = m.frames.length ∧ fr.thread = i) ∨
      ∃ fr₀ item, o = .nextItem f ∧ m.frames[f]? = some fr₀ ∧
        fr₀.remaining = item :: fr.remaining ∧ fr.thread = fr₀.thread ∧ fr.svc = fr₀.svc ∧
        fr.runId = item.runId := by
  cases o with
  | openFrame svc =>
    rcases Nat.lt_or_ge f m.frames.length with hlt | hge
    · simp only [exec, List.getElem?_append_left hlt] at h
      exact Or.inl h
    · simp only [exec, List.getElem?_append_right hge, List.getElem?_singleton] at h
      split_ifs at h with hf
      · cases h
        exact Or.inr (Or.inl ⟨by omega, rfl⟩)
  | nextItem frame =>
    simp only [exec] at h
    split at h
    · rename_i thread svc runId item items hfr
      by_cases hf : frame = f
      · subst hf
        have hlt := (List.getElem?_eq_some_iff.mp hfr).1
        rw [List.getElem?_set_self hlt] at h
        cases h
        exact Or.inr (Or.inr ⟨_, item, rfl, hfr, rfl, rfl, rfl, rfl⟩)
      · rw [List.getElem?_set_ne hf] at h
        exact Or.inl h
    · exact Or.inl h
  | finalize frame =>
    simp only [exec] at h
    split at h <;> exact Or.inl h
  | takeJob =>
    simp only [exec] at h
    repeat' split at h
    all_goals exact Or.inl h
  | forwardIfDone q =>
    simp only [exec] at h
    split_ifs at h
    · rw [frames_forward] at h
      exact Or.inl h
    · exact Or.inl h
  | forwardCallback q =>
    simp only [exec, frames_forward] at h
    exact Or.inl h
  | _ => exact Or.inl h

end Mem

/-! ### What survives -/

/-- Entries and frames stay, with what was set in them. -/
structure Retains (m m' : Mem) : Prop where
  entries : ∀ (q : ℕ) (e : Queueable), m.queueables[q]? = some e →
    ∃ e' : Queueable, m'.queueables[q]? = some e' ∧
    e'.owner = e.owner ∧ e'.fn = e.fn ∧ (e.result.isSome = true → e'.result.isSome = true) ∧
    ∀ cb, e.callback = some cb → e'.callback = some cb
  frames : ∀ (f : ℕ) (fr : PollFrame), m.frames[f]? = some fr →
    ∃ fr' : PollFrame, m'.frames[f]? = some fr' ∧
    fr'.thread = fr.thread ∧ fr'.svc = fr.svc ∧ (fr.remaining = [] → fr' = fr)

/-- What thread `i` submitted gets no callback meanwhile, and the frames of its calls stay. -/
structure Leaves (i : ℕ) (m m' : Mem) : Prop extends Retains m m' where
  own : ∀ (q : ℕ) (e : Queueable), m.queueables[q]? = some e → e.owner = i →
    ∃ e' : Queueable, m'.queueables[q]? = some e' ∧ e'.callback = e.callback
  ownFrames : ∀ (f : ℕ) (fr : PollFrame), m.frames[f]? = some fr → fr.thread = i →
    m'.frames[f]? = some fr

theorem Retains.refl (m : Mem) : Retains m m :=
  ⟨fun _ e he => ⟨e, he, rfl, rfl, id, fun _ => id⟩, fun _ fr hf => ⟨fr, hf, rfl, rfl, fun _ => rfl⟩⟩

theorem Retains.trans (h : Retains m m') (h' : Retains m' m'') : Retains m m'' where
  entries q e he := by
    obtain ⟨e', he', ho, hf, hr, hc⟩ := h.entries q e he
    obtain ⟨e'', he'', ho', hf', hr', hc'⟩ := h'.entries q e' he'
    exact ⟨e'', he'', ho'.trans ho, hf'.trans hf, hr' ∘ hr, fun cb hcb => hc' cb (hc cb hcb)⟩
  frames f fr hfr := by
    obtain ⟨fr', hfr', ht, hs, he⟩ := h.frames f fr hfr
    obtain ⟨fr'', hfr'', ht', hs', he'⟩ := h'.frames f fr' hfr'
    refine ⟨fr'', hfr'', ht'.trans ht, hs'.trans hs, fun hnil => ?_⟩
    have heq := he hnil
    exact (he' (heq ▸ hnil)).trans heq

theorem Leaves.refl (i : ℕ) (m : Mem) : Leaves i m m :=
  ⟨.refl m, fun _ e he _ => ⟨e, he, rfl⟩, fun _ _ hf _ => hf⟩

theorem Leaves.trans (h : Leaves i m m') (h' : Leaves i m' m'') : Leaves i m m'' where
  toRetains := h.toRetains.trans h'.toRetains
  own q e he hi := by
    obtain ⟨e', he', hc⟩ := h.own q e he hi
    obtain ⟨e₁, he₁, ho, _⟩ := h.entries q e he
    obtain rfl := Option.some.inj (he'.symm.trans he₁)
    obtain ⟨e'', he'', hc'⟩ := h'.own q e' he' (ho.trans hi)
    exact ⟨e'', he'', hc'.trans hc⟩
  ownFrames f fr hf hi := h'.ownFrames f fr (h.ownFrames f fr hf hi) hi

/-- Thread `i` sets the callback of an entry of its own that has none, and takes items from a
frame of its own. -/
def MemOp.Handles (i : ℕ) (m : Mem) : MemOp → Prop
  | .setCallback q _ _ => ∀ e : Queueable, m.queueables[q]? = some e → e.owner = i ∧ e.callback = none
  | .nextItem f => ∀ fr : PollFrame, m.frames[f]? = some fr → fr.thread = i
  | _ => True

theorem exists_queueable_exec (m : Mem) (i pick : ℕ) (o : MemOp) {q : ℕ} {e : Queueable}
    (h : m.queueables[q]? = some e) : ∃ e', (m.exec i pick o).2.queueables[q]? = some e' := by
  have hlen : m.queueables.length ≤ (m.exec i pick o).2.queueables.length := by
    cases o <;> simp only [Mem.exec, List.length_append, List.length_modify, List.length_singleton]
    all_goals try (repeat' split)
    all_goals simp
  have hlt := (List.getElem?_eq_some_iff.mp h).1
  exact ⟨_, List.getElem?_eq_getElem (hlt.trans_le hlen)⟩

theorem exists_frame_exec (m : Mem) (i pick : ℕ) (o : MemOp) {f : ℕ} {fr : PollFrame}
    (h : m.frames[f]? = some fr) : ∃ fr', (m.exec i pick o).2.frames[f]? = some fr' := by
  have hlen : m.frames.length ≤ (m.exec i pick o).2.frames.length := by
    cases o <;> simp only [Mem.exec, List.length_append, List.length_singleton]
    all_goals try (repeat' split)
    all_goals simp
  have hlt := (List.getElem?_eq_some_iff.mp h).1
  exact ⟨_, List.getElem?_eq_getElem (hlt.trans_le hlen)⟩

theorem MemOp.Handles.retains (h : o.Handles i m) (pick : ℕ) : Retains m (m.exec i pick o).2 where
  entries q e he := by
    obtain ⟨e', he'⟩ := exists_queueable_exec m i pick o he
    refine ⟨e', he', ?_⟩
    rcases Mem.getElem?_queueables_exec he' with ⟨fn, rfl, rfl, _⟩ | ⟨e₀, he₀, ho, hf, hc, hr⟩
    · rw [List.getElem?_eq_none (le_refl _)] at he
      cases he
    · obtain rfl := Option.some.inj (he.symm.trans he₀)
      refine ⟨ho, hf, fun hsome => ?_, fun cb hcb => ?_⟩
      · rcases hr with hr | ⟨r, _, hr⟩
        · rwa [hr]
        · simp [hr]
      · rcases hc with hc | ⟨svc, cb', rfl, _⟩
        · rwa [hc]
        · rw [(h e he).2] at hcb
          cases hcb
  frames f fr hfr := by
    obtain ⟨fr', hfr'⟩ := exists_frame_exec m i pick o hfr
    refine ⟨fr', hfr', ?_⟩
    rcases Mem.getElem?_frames_exec hfr' with heq | ⟨rfl, _⟩ | ⟨fr₀, item, _, hfr₀, hrem, ht, hs, _⟩
    · obtain rfl := Option.some.inj (hfr.symm.trans heq)
      exact ⟨rfl, rfl, fun _ => rfl⟩
    · rw [List.getElem?_eq_none (le_refl _)] at hfr
      cases hfr
    · obtain rfl := Option.some.inj (hfr.symm.trans hfr₀)
      exact ⟨ht, hs, fun hnil => by rw [hnil] at hrem; cases hrem⟩

/-- The step lemma: an access of another thread leaves what is thread `j`'s. -/
theorem MemOp.Handles.leaves (h : o.Handles i m) (pick : ℕ) {j : ℕ} (hj : j ≠ i) :
    Leaves j m (m.exec i pick o).2 where
  toRetains := h.retains pick
  own q e he hi := by
    obtain ⟨e', he'⟩ := exists_queueable_exec m i pick o he
    refine ⟨e', he', ?_⟩
    rcases Mem.getElem?_queueables_exec he' with ⟨fn, rfl, rfl, _⟩ | ⟨e₀, he₀, _, _, hc, _⟩
    · rw [List.getElem?_eq_none (le_refl _)] at he
      cases he
    · obtain rfl := Option.some.inj (he.symm.trans he₀)
      rcases hc with hc | ⟨svc, cb, rfl, _⟩
      · exact hc
      · exact absurd (hi.symm.trans (h e he).1) hj
  ownFrames f fr hfr hi := by
    obtain ⟨fr', hfr'⟩ := exists_frame_exec m i pick o hfr
    rcases Mem.getElem?_frames_exec hfr' with heq | ⟨rfl, _⟩ | ⟨fr₀, item, rfl, hfr₀, _⟩
    · obtain rfl := Option.some.inj (hfr.symm.trans heq)
      exact hfr'
    · rw [List.getElem?_eq_none (le_refl _)] at hfr
      cases hfr
    · exact absurd (hi.symm.trans (h fr hfr)) hj

end YtScheduler
