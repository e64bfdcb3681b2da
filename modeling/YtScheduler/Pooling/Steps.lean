import YtScheduler.Pooling.Machine

/-! What a step of the pool can do, said once. A step of a thread works on one job,
puts a job on the queue, runs one itself, or gives up a submission; every other
action moves a worker between its stations, runs a callback, or is the shutdown's. -/

namespace YtScheduler.Pooling

open Submission

variable {κ : Type}

section Thread

variable [Submission κ]

/-- The frame is a submission that puts its job on the queue if there is room. -/
def Frame.puts : Frame κ → Bool
  | .call a _ => !(orExecute a && (options a).forceSync)
  | .retry _ _ => true
  | _ => false

/-- The steps of the top of a stack. -/
inductive ThreadStep (s : Shared κ) (late : Bool) :
    List (Frame κ) → Shared κ → List (Frame κ) → Prop
  | exec {j : ℕ} {c : Cell κ} {out : Cell κ × Option (κ × Job κ)} {fs : List (Frame κ)}
      (hc : s.cells[j]? = some c) (hw : c.work s.live = some out) :
      ThreadStep s late (.exec j :: fs)
        (if out.1.worker.forwarded then (s.setCell j out.1).enqueue j c.owner
          else s.setCell j out.1)
        (Shared.workStack j out fs)
  | register {j : ℕ} {c c' : Cell κ} {fs : List (Frame κ)}
      (hc : s.cells[j]? = some c) (hr : c.register s.live = some c') :
      ThreadStep s late (.register j :: fs)
        (if c'.submitter.forwarded then (s.setCell j c').enqueue j c.owner else s.setCell j c')
        (Shared.registerStack j c' fs)
  | put {f : Frame κ} {a : κ} {job : Job κ} {fs : List (Frame κ)}
      (hf : f = .call a job ∨ f = .retry a job) (hputs : f.puts = true)
      (hroom : s.isFull = false) :
      ThreadStep s late (f :: fs) (s.push job (owner a)) (.register s.cells.length :: fs)
  | fallback {f : Frame κ} {a : κ} {job : Job κ} {fs : List (Frame κ)}
      (hf : f = .call a job ∨ f = .retry a job) (hputs : f.puts = false ∨ s.isFull = true) :
      ThreadStep s late (f :: fs) (s.fallback job (owner a))
        (.exec s.cells.length :: .register s.cells.length :: fs)
  | retry {a : κ} {job : Job κ} {fs : List (Frame κ)} (hfull : s.isFull = true) :
      ThreadStep s late (.call a job :: fs) s (.retry a job :: fs)
  | raise {a : κ} {job : Job κ} {fs : List (Frame κ)} (hfull : s.isFull = true) :
      ThreadStep s late (.call a job :: fs) (s.raiseFull fs) fs

theorem put_done {block late isFull : Bool} {timeout : Option ℚ}
    (h : put block timeout isFull late = .done) : isFull = false := by
  cases isFull with
  | false => rfl
  | true =>
    cases block <;> cases timeout <;> cases late <;> simp [put] at h

theorem put_full {block late isFull : Bool} {timeout : Option ℚ}
    (h : put block timeout isFull late = .full) : isFull = true := by
  cases isFull with
  | true => rfl
  | false => simp [put] at h

theorem Shared.step_cases {s s' : Shared κ} {late : Bool} {fs fs' : List (Frame κ)}
    (h : s.step late fs = some (s', fs')) : ThreadStep s late fs s' fs' := by
  match fs with
  | [] => cases h
  | .exec j :: fs =>
    obtain ⟨c, hc, h⟩ := Option.bind_eq_some_iff.mp h
    obtain ⟨out, hw, h⟩ := Option.map_eq_some_iff.mp h
    cases h
    exact .exec hc hw
  | .register j :: fs =>
    obtain ⟨c, hc, h⟩ := Option.bind_eq_some_iff.mp h
    obtain ⟨c', hr, h⟩ := Option.map_eq_some_iff.mp h
    cases h
    exact .register hc hr
  | .call a job :: fs =>
    rw [Shared.step] at h
    by_cases hforce : (orExecute a && (options a).forceSync) = true
    · rw [if_pos hforce] at h
      cases h
      exact .fallback (Or.inl rfl) (Or.inl (by rw [Frame.puts, hforce]; rfl))
    · rw [if_neg hforce] at h
      split at h
      · next hput =>
        cases h
        exact .put (Or.inl rfl) (by rw [Frame.puts, Bool.eq_false_iff.mpr hforce]; rfl) (put_done hput)
      · next hput =>
        by_cases hor : orExecute a = true
        · rw [if_pos hor] at h
          cases h
          exact .retry (put_full hput)
        · rw [if_neg hor] at h
          cases h
          exact .raise (put_full hput)
      · cases h
  | .retry a job :: fs =>
    rw [Shared.step] at h
    split at h
    · next hput =>
      cases h
      exact .put (Or.inr rfl) rfl (put_done hput)
    · next hput =>
      cases h
      exact .fallback (Or.inr rfl) (Or.inr (put_full hput))
    · cases h

end Thread

/-! ### Actions -/

/-- The steps of the pool. `fs` and `fs'` are the stacks of the thread that takes the step. -/
inductive PoolStep [Submission κ] (σ : Pool κ) : Action κ → Pool κ → Prop
  | arrive (a : κ) (job : Job κ) :
      PoolStep σ (.arrive a job) { σ with callers := σ.callers ++ [[.call a job]] }
  | check {i : ℕ} {late : Bool} (hi : σ.workers[i]? = some .top) :
      PoolStep σ (.worker i late)
        { σ with workers := σ.workers.set i (if σ.stop then .exited else .getting) }
  | take {i j : ℕ} {late : Bool} {rest : List ℕ} (hi : σ.workers[i]? = some .getting)
      (hq : σ.queue = j :: rest) :
      PoolStep σ (.worker i late)
        { σ with
          queue := rest, cells := σ.cells.modify j Cell.take
          workers := σ.workers.set i (.busy [.exec j]) }
  | empty {i : ℕ} {late : Bool} (hi : σ.workers[i]? = some .getting) (hq : σ.queue = []) :
      PoolStep σ (.worker i late) { σ with workers := σ.workers.set i .top }
  | worker {i : ℕ} {late : Bool} {s' : Shared κ} {fs fs' : List (Frame κ)}
      (hi : σ.workers[i]? = some (.busy fs)) (hstep : ThreadStep σ.toShared late fs s' fs') :
      PoolStep σ (.worker i late)
        { σ with toShared := s', workers := σ.workers.set i (Pool.resume fs') }
  | caller {i : ℕ} {late : Bool} {s' : Shared κ} {fs fs' : List (Frame κ)}
      (hi : σ.callers[i]? = some fs) (hstep : ThreadStep σ.toShared late fs s' fs') :
      PoolStep σ (.caller i late) { σ with toShared := s', callers := σ.callers.set i fs' }
  | ran {k j : ℕ} {o : Owner} {rest : List ℕ} (hk : σ.owners[k]? = some o)
      (hq : o.queue = j :: rest) :
      PoolStep σ (.drain k)
        { σ with owners := σ.owners.set k ⟨rest, o.ran ++ [j], o.counter + σ.value j⟩ }
  | stop (hs : σ.shutdown = .idle) :
      PoolStep σ .shutdown { σ with stop := true, shutdown := .draining }
  | drained {j : ℕ} {rest : List ℕ} (hs : σ.shutdown = .draining) (hq : σ.queue = j :: rest) :
      PoolStep σ .shutdown { σ with queue := rest, cells := σ.cells.modify j Cell.drain }
  | emptied (hs : σ.shutdown = .draining) (hq : σ.queue = []) :
      PoolStep σ .shutdown { σ with shutdown := .joining }
  | joined (hs : σ.shutdown = .joining) (hw : ∀ w ∈ σ.workers, w = .exited) :
      PoolStep σ .shutdown { σ with shutdown := .returned }

theorem Pool.act_cases [Submission κ] {σ σ' : Pool κ} {a : Action κ} (h : σ.act a = some σ') :
    PoolStep σ a σ' := by
  cases a with
  | arrive a job =>
    cases h
    exact .arrive a job
  | worker i late =>
    obtain ⟨w, hi, h⟩ := Option.bind_eq_some_iff.mp h
    obtain ⟨⟨σ₁, w'⟩, hstep, h⟩ := Option.map_eq_some_iff.mp h
    cases h
    cases w with
    | top =>
      cases hstep
      exact .check hi
    | getting =>
      rw [Pool.stepWorker] at hstep
      split at hstep
      · next j rest hq =>
        cases hstep
        exact .take hi hq
      · next hq =>
        cases hstep
        exact .empty hi hq
    | busy fs =>
      obtain ⟨out, hthread, hout⟩ := Option.map_eq_some_iff.mp hstep
      cases hout
      exact .worker hi (Shared.step_cases hthread)
    | exited => cases hstep
  | caller i late =>
    obtain ⟨fs, hi, h⟩ := Option.bind_eq_some_iff.mp h
    obtain ⟨out, hthread, h⟩ := Option.map_eq_some_iff.mp h
    cases h
    exact .caller hi (Shared.step_cases hthread)
  | drain k =>
    obtain ⟨o, hk, h⟩ := Option.bind_eq_some_iff.mp h
    obtain ⟨o', hdrain, h⟩ := Option.map_eq_some_iff.mp h
    cases h
    rw [Owner.drain] at hdrain
    split at hdrain
    · cases hdrain
    · next j rest hq =>
      cases hdrain
      exact .ran hk hq
  | shutdown =>
    rw [Pool.act, Pool.stepShutdown] at h
    split at h
    · next hs =>
      cases h
      exact .stop hs
    · next hs =>
      split at h
      · next j rest hq =>
        cases h
        exact .drained hs hq
      · next hq =>
        cases h
        exact .emptied hs hq
    · next hs =>
      split_ifs at h with hw
      cases h
      refine .joined hs ?_
      intro w hmem
      have hexit := List.all_eq_true.mp hw w hmem
      cases w <;> first | rfl | cases hexit
    · cases h

end YtScheduler.Pooling
