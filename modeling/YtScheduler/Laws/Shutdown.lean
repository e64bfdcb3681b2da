import YtScheduler.Pooling.Forwards
import YtScheduler.Pooling.Moves

/-! Shutdown. It completes the jobs it finds on the queue until the queue is empty, and
then waits for the workers. Two things escape it: a job put on the queue after that,
unless a worker is still in its last `get`, and a callback registered on a job before
shutdown completes it. -/

namespace YtScheduler

open Pooling Sequences

namespace Pooling

variable {κ : Type}

def Worker.isGetting : Worker κ → Bool
  | .getting => true
  | _ => false

/-- How many workers are in `get`. -/
def Pool.getting (σ : Pool κ) : ℕ := σ.workers.countP Worker.isGetting

/-- The drain of the queue has ended. -/
def Pool.late (σ : Pool κ) : Bool :=
  match σ.shutdown with
  | .joining => true
  | .returned => true
  | _ => false

/-- Shutdown has returned and the callers have finished. -/
def Pool.over (σ : Pool κ) : Bool :=
  decide (σ.shutdown = .returned) && σ.callers.all List.isEmpty

/-- The promise is completed once: with the result or the exception of the job, or with the error
of shutdown. -/
def Cell.Answered (c : Cell κ) : Prop :=
  ∃ out, c.promise = [out] ∧ (c.comesTo out ∨ out = .error "Pool shutdown before execution")

/-- No job is run twice; and when all is over every promise is completed once and every callback
with a living owner was forwarded. -/
structure NothingHangs (σ : Pool κ) : Prop where
  once : ∀ c ∈ σ.cells, c.executed ≤ 1
  answered : σ.over = true → ∀ c ∈ σ.cells, c.Answered
  forwarded : σ.over = true → ∀ (j k : ℕ) (c : Cell κ) (o : Owner), σ.cells[j]? = some c →
    c.owner = some k → σ.owners[k]? = some o → 0 < o.holds j

/-- The action puts a job on the queue. -/
def Pool.puts [Submission κ] (σ : Pool κ) (a : Action κ) : Bool :=
  match σ.stack? a with
  | some (f :: _) => f.puts && !σ.isFull
  | _ => false

/-- A job put on the queue after the drain has a worker in `get`, and shutdown completes no job
whose callback is registered already. -/
structure Heard [Submission κ] (σ : Pool κ) (a : Action κ) : Prop where
  put : σ.late = true → σ.puts a = true → σ.queue.length < σ.getting
  drain : a = .shutdown → σ.shutdown = .draining → ∀ (j : ℕ) (c : Cell κ),
    σ.queue.head? = some j → σ.cells[j]? = some c → c.submitter = .finished false →
    c.reaches σ.live = false

def Action.isShutdown : Action κ → Bool
  | .shutdown => true
  | _ => false

instance [Submission κ] (σ : Pool κ) (a : Action κ) : Decidable (Heard σ a) :=
  decidable_of_iff ((σ.late = true → σ.puts a = true → σ.queue.length < σ.getting) ∧
    (a.isShutdown = true → σ.shutdown = .draining → ∀ j ∈ σ.queue.head?, ∀ c ∈ σ.cells[j]?,
      c.submitter = .finished false → c.reaches σ.live = false)) <| by
    constructor
    · rintro ⟨hput, hdrain⟩
      refine ⟨hput, ?_⟩
      rintro rfl hs j c hq hj
      exact hdrain rfl hs j hq c hj
    · rintro ⟨hput, hdrain⟩
      refine ⟨hput, ?_⟩
      intro ha hs j hq c hj
      cases a with
      | shutdown => exact hdrain rfl hs j c hq hj
      | _ => cases ha

/-! ### The queue after the drain -/

/-- What a step does to the queue once the drain has ended. -/
inductive LateStep [Submission κ] (σ σ' : Pool κ) (a : Action κ) : Prop
  | put (hputs : σ.puts a = true) (hq : σ'.queue.length = σ.queue.length + 1)
      (hg : σ'.getting = σ.getting)
  | take (hputs : σ.puts a = false) (hq : σ.queue.length = σ'.queue.length + 1)
      (hg : σ.getting = σ'.getting + 1)
  | empty (hputs : σ.puts a = false) (hq : σ.queue = []) (hq' : σ'.queue = [])
      (hg : σ.getting = σ'.getting + 1)
  | same (hputs : σ.puts a = false) (hq : σ'.queue = σ.queue) (hg : σ'.getting = σ.getting)

section Late

theorem not_isGetting_resume (fs : List (Frame κ)) : (Pool.resume fs).isGetting = false := by
  cases fs <;> rfl

variable [Submission κ] {σ σ' : Pool κ} {a : Action κ}

/-- A step of a thread puts one job on the queue, or leaves it. -/
theorem ThreadStep.queue {s s' : Shared κ} {late : Bool} {f : Frame κ} {fs fs' : List (Frame κ)}
    (hstep : ThreadStep s late (f :: fs) s' fs') :
    (f.puts && !s.isFull) = true ∧ s'.queue.length = s.queue.length + 1 ∨
      (f.puts && !s.isFull) = false ∧ s'.queue = s.queue := by
  have hforwarding : ∀ (b : Bool) (j : ℕ) (c : Cell κ) (owner : Option ℕ),
      (if b then (s.setCell j c).enqueue j owner else s.setCell j c).queue = s.queue := by
    intro b j c owner
    cases b <;> rfl
  cases hstep with
  | exec _ _ => exact Or.inr ⟨rfl, hforwarding _ _ _ _⟩
  | register _ _ => exact Or.inr ⟨rfl, hforwarding _ _ _ _⟩
  | put _ hputs hroom => exact Or.inl ⟨by rw [hputs, hroom]; rfl, by simp [Shared.push]⟩
  | fallback _ hputs =>
    refine Or.inr ⟨?_, rfl⟩
    rcases hputs with h | h <;> simp [h]
  | retry hfull => exact Or.inr ⟨by rw [hfull]; simp, rfl⟩
  | raise hfull =>
    refine Or.inr ⟨by rw [hfull]; simp, ?_⟩
    unfold Shared.raiseFull
    split <;> rfl

theorem PoolStep.late (hstep : PoolStep σ a σ') (hlate : σ.late = true) (hstop : σ.stop = true) :
    LateStep σ σ' a ∧ σ'.late = true := by
  have hcount : ∀ {i : ℕ} {w : Worker κ}, σ.workers[i]? = some w → ∀ w' : Worker κ,
      (σ.workers.set i w').countP Worker.isGetting + w.isGetting.toNat =
        σ.getting + w'.isGetting.toNat := fun hi w' => countP_set_add _ hi w'
  have hidle : ∀ {i : ℕ} {late : Bool} {w : Worker κ}, σ.workers[i]? = some w → w.stack = [] →
      σ.puts (.worker i late) = false := by
    intro i late w hi hw
    simp [Pool.puts, Pool.stack?, hi, hw]
  -- a thread that puts a job does so without leaving a `get`
  have hthread : ∀ {s' : Shared κ} {late : Bool} {fs fs' : List (Frame κ)},
      ThreadStep σ.toShared late fs s' fs' → σ.stack? a = some fs → σ'.toShared = s' →
      σ'.getting = σ.getting → LateStep σ σ' a := by
    intro s' late fs fs' hstep hs he hg
    cases fs with
    | nil => cases hstep
    | cons f fs =>
      rw [← he] at hstep
      rcases hstep.queue with ⟨hputs, hq⟩ | ⟨hputs, hq⟩
      · exact .put (by rw [Pool.puts, hs]; exact hputs) hq hg
      · exact .same (by rw [Pool.puts, hs]; exact hputs) hq hg
  cases hstep with
  | arrive _ _ => exact ⟨.same rfl rfl rfl, hlate⟩
  | check hi =>
    refine ⟨.same (hidle hi rfl) rfl ?_, hlate⟩
    have h := hcount hi .exited
    rw [Pool.getting, hstop]
    exact h
  | @take i j late rest hi hq =>
    have h := hcount hi (.busy [.exec j])
    exact ⟨.take (hidle hi rfl) (by rw [hq]; rfl) h.symm, hlate⟩
  | empty hi hq => exact ⟨.empty (hidle hi rfl) hq hq (hcount hi .top).symm, hlate⟩
  | @worker i late s' fs fs' hi hstep =>
    refine ⟨hthread hstep (by rw [Pool.stack?, hi]; rfl) rfl ?_, hlate⟩
    have h := hcount hi (Pool.resume fs')
    rw [not_isGetting_resume] at h
    exact h
  | caller hi hstep => exact ⟨hthread hstep hi rfl rfl, hlate⟩
  | ran _ _ => exact ⟨.same rfl rfl rfl, hlate⟩
  | stop hs => rw [Pool.late, hs] at hlate; cases hlate
  | drained hs _ => rw [Pool.late, hs] at hlate; cases hlate
  | emptied hs _ => rw [Pool.late, hs] at hlate; cases hlate
  | joined _ _ => exact ⟨.same rfl rfl rfl, rfl⟩

end Late

/-! ### What shutdown leaves behind -/

section Sides

variable {live : ℕ → Bool} {c c' : Cell κ}

theorem drained_work {out : Cell κ × Option (κ × Job κ)} (h : c.work live = some out) :
    out.1.worker ≠ .drained := by
  intro hd
  obtain ⟨_, _, _, hactive | hfinished⟩ := Cell.work_spec h
  · rw [hd] at hactive; cases hactive.1
  · rw [hd] at hfinished; cases hfinished.2.1

theorem raise_of_drained {message : String} (h : (c.raise message).worker = .drained) :
    c.raise message = c := by
  rw [Cell.raise] at h ⊢
  split at h
  · cases h
  · rfl

/-- A submitter ends without forwarding when it found the promise pending, or nobody to tell. -/
theorem finished_register (hok : c.Ok live) (h : c.register live = some c')
    (hf : c'.submitter = .finished false) : c.promise = [] ∨ c'.reaches live = false := by
  rw [Cell.register] at h
  split at h
  · next hs =>
    cases h
    right
    have hnone := hok.early (by rw [hs]; rfl)
    simp [Cell.reaches, hnone]
  · cases h; cases hf
  · cases h; cases hf
  · split_ifs at h with hempty
    · left
      exact List.isEmpty_iff.mp hempty
    · cases h; cases hf
  · cases h
    right
    exact SubmitterSide.finished.inj hf
  · cases h

/-- Shutdown has completed a job whose callback was registered for a living owner. -/
structure Cell.Missed (live : ℕ → Bool) (c : Cell κ) : Prop where
  worker : c.worker = .drained
  submitter : c.submitter = .finished false
  reaches : c.reaches live = true

theorem Cell.Missed.move (h : c.Missed live) (hm : c.Move live c') : c'.Missed live := by
  obtain ⟨hw, hs, hreach⟩ := h
  cases hm with
  | take hq => rw [hw] at hq; cases hq
  | drain hq => rw [hw] at hq; cases hq
  | work h => rw [Cell.work, hw] at h; cases h
  | register h => rw [Cell.register, hs] at h; cases h
  | raise =>
    have hself : c.raise "queue.Full" = c := by rw [Cell.raise, hw]
    rw [hself]
    exact ⟨hw, hs, hreach⟩

end Sides

section Runs

theorem idle_of_not_late {σ : Pool κ} (h : σ.shutdown = .idle) : σ.late = false := by
  rw [Pool.late, h]

variable [Submission κ] {σ σ' : Pool κ} {a : Action κ}

/-- What a run keeps as long as every job and every callback is heard. -/
structure InTime (σ : Pool κ) : Prop where
  sound : Sound σ
  stop : σ.shutdown ≠ .idle → σ.stop = true
  queue : σ.late = true → σ.queue.length ≤ σ.getting
  exited : σ.shutdown = .returned → ∀ w ∈ σ.workers, w = .exited
  told : ∀ (j : ℕ) (c : Cell κ), σ.cells[j]? = some c → ¬c.Missed σ.live

theorem PoolStep.stop_of_shutdown (hstep : PoolStep σ a σ')
    (h : σ.shutdown ≠ .idle → σ.stop = true) (hs' : σ'.shutdown ≠ .idle) : σ'.stop = true := by
  cases hstep with
  | stop _ => rfl
  | emptied hs _ => exact h (by rw [hs]; exact fun h => nomatch h)
  | joined hs _ => exact h (by rw [hs]; exact fun h => nomatch h)
  | _ => exact h hs'

/-- The drain ends with an empty queue. -/
theorem PoolStep.queue_of_late (hstep : PoolStep σ a σ') (hlate : σ.late = false)
    (hlate' : σ'.late = true) : σ'.queue = [] := by
  cases hstep with
  | emptied _ hq => exact hq
  | stop hs => cases hlate'
  | joined hs _ => rw [Pool.late, hs] at hlate; cases hlate
  | _ => exact absurd (hlate.symm.trans hlate') (by simp)

/-- Once shutdown has returned no worker moves. -/
theorem PoolStep.exited (hstep : PoolStep σ a σ')
    (h : σ.shutdown = .returned → ∀ w ∈ σ.workers, w = .exited)
    (hs' : σ'.shutdown = .returned) : ∀ w ∈ σ'.workers, w = .exited := by
  have hmoves : ∀ {i : ℕ} {w : Worker κ}, σ.shutdown = .returned → σ.workers[i]? = some w →
      w = .exited := fun hs hi => h hs _ (List.mem_of_getElem? hi)
  cases hstep with
  | check hi => cases hmoves hs' hi
  | take hi _ => cases hmoves hs' hi
  | empty hi _ => cases hmoves hs' hi
  | worker hi _ => cases hmoves hs' hi
  | joined _ hw => exact hw
  | stop _ => cases hs'
  | emptied _ _ => cases hs'
  | _ => exact h hs'

theorem InTime.act (h : InTime σ) (hc : Heard σ a) (ha : σ.act a = some σ') : InTime σ' := by
  have hstep := Pool.act_cases ha
  refine ⟨h.sound.act ha, hstep.stop_of_shutdown h.stop, ?_, hstep.exited h.exited, ?_⟩
  · intro hlate'
    cases hlate : σ.late with
    | false =>
      rw [hstep.queue_of_late hlate hlate']
      exact Nat.zero_le _
    | true =>
      have hstop : σ.stop = true := by
        apply h.stop
        intro hidle
        rw [idle_of_not_late hidle] at hlate
        cases hlate
      have hqueue := h.queue hlate
      cases (hstep.late hlate hstop).1 with
      | put hputs hq hg =>
        have hlt := hc.put hlate hputs
        omega
      | take _ hq hg => omega
      | empty _ _ hq' _ =>
        rw [hq']
        exact Nat.zero_le _
      | same _ hq hg => rwa [hq, hg]
  · intro j c' hj' hmissed
    have hchange := hstep.change h.sound
    obtain ⟨hw, hs, hreach⟩ := hmissed
    rw [hchange.live_eq] at hreach
    rcases hchange.cell hj' with ⟨_, _, hearly⟩ | ⟨c, hj, _⟩
    · rw [hs] at hearly; cases hearly
    · have hok := h.sound.cells j c hj
      cases hstep.moved hj hj' with
      | same => exact h.told j c' hj ⟨hw, hs, hreach⟩
      | work _ hwork => exact drained_work hwork hw
      | @register fs _ _ hr =>
        have hworker := (Cell.register_spec hr).2
        rcases finished_register hok hr hs with hnil | hnobody
        · have hpending := hok.promise_eq_nil.mp hnil
          rw [← hworker, hw] at hpending
          cases hpending
        · rw [hreach] at hnobody; cases hnobody
      | raise =>
        have hself := raise_of_drained hw
        rw [hself] at hw hs hreach
        exact h.told j c hj ⟨hw, hs, hreach⟩
      | take => cases hw
      | drain ha hdraining hq =>
        have hnobody := hc.drain ha hdraining j c hq hj hs
        rw [Cell.reaches] at hreach hnobody
        exact Bool.false_ne_true (hnobody.symm.trans hreach)

omit [Submission κ] in
theorem InTime.start (maxsize workers owners : ℕ) :
    InTime (Pool.start maxsize workers owners : Pool κ) := by
  refine ⟨Sound.start _ _ _, ?_, ?_, ?_, ?_⟩
  · exact fun h => absurd rfl h
  · exact fun h => nomatch h
  · exact fun h => nomatch h
  · exact fun j c hj => nomatch hj

/-! ### When all is over -/

omit [Submission κ] in
/-- When all is over nobody works on a job any more. -/
theorem InTime.settled (h : InTime σ) (hover : σ.over = true) :
    ∀ (j : ℕ) (c : Cell κ), σ.cells[j]? = some c →
      c.worker.active = false ∧ c.worker ≠ .queued ∧ c.submitter.isFinished = true := by
  simp only [Pool.over, Bool.and_eq_true, decide_eq_true_eq, List.all_eq_true,
    List.isEmpty_iff] at hover
  obtain ⟨hreturned, hcallers⟩ := hover
  have hexited := h.exited hreturned
  have hframes : σ.frames = [] := by
    rw [Pool.frames, framesOf, List.append_eq_nil_iff, List.flatMap_eq_nil_iff,
      List.flatMap_eq_nil_iff]
    refine ⟨fun w hw => ?_, hcallers⟩
    rw [hexited w hw]
    rfl
  have hgetting : σ.getting = 0 := by
    rw [Pool.getting, List.countP_eq_zero]
    intro w hw
    rw [hexited w hw]
    intro h
    cases h
  have hqueue : σ.queue = [] := by
    have hle := h.queue (by rw [Pool.late, hreturned])
    rw [hgetting] at hle
    exact List.length_eq_zero_iff.mp (by omega)
  have hplaces := h.sound.places
  rw [hframes] at hplaces
  intro j c hj
  refine ⟨?_, ?_, ?_⟩
  · by_contra hactive
    exact absurd ((hplaces.execs.mem j).mpr ⟨c, hj, by simpa using hactive⟩) List.not_mem_nil
  · intro hqueued
    have hmem := (hplaces.queue.mem j).mpr ⟨c, hj, hqueued⟩
    rw [hqueue] at hmem
    cases hmem
  · by_contra hnot
    exact absurd ((hplaces.registers.mem j).mpr ⟨c, hj, by simpa using hnot⟩) List.not_mem_nil

omit [Submission κ] in
/-- A job nobody works on any more was forwarded, if its callback has a living owner. -/
theorem forwards_pos {live : ℕ → Bool} {c : Cell κ} (hok : c.Ok live)
    (hactive : c.worker.active = false) (hqueued : c.worker ≠ .queued)
    (hs : c.submitter.isFinished = true) (hreach : c.reaches live = true)
    (htold : ¬c.Missed live) : 0 < c.forwards := by
  rw [Cell.forwards]
  cases hsub : c.submitter with
  | finished b =>
    cases b with
    | true => simp [SubmitterSide.forwarded]
    | false =>
      have hnot := hok.handed hsub hreach
      cases hw : c.worker with
      | finished b =>
        cases b
        · exact absurd hw hnot
        · simp [WorkerSide.forwarded, SubmitterSide.forwarded]
      | drained => exact absurd ⟨hw, hsub, hreach⟩ htold
      | queued => exact absurd hw hqueued
      | _ => rw [hw] at hactive; cases hactive
  | _ => rw [hsub] at hs; cases hs

omit [Submission κ] in
theorem InTime.nothingHangs (h : InTime σ) : NothingHangs σ := by
  refine ⟨?_, ?_, ?_⟩
  · intro c hc
    obtain ⟨j, hj⟩ := List.mem_iff_getElem?.mp hc
    rw [(h.sound.cells j c hj).executed]
    split_ifs <;> omega
  · intro hover c hc
    obtain ⟨j, hj⟩ := List.mem_iff_getElem?.mp hc
    obtain ⟨hactive, hqueued, _⟩ := h.settled hover j c hj
    have hok := h.sound.cells j c hj
    have hlen := hok.promise
    rw [if_neg] at hlen
    · obtain ⟨out, hout⟩ := List.length_eq_one_iff.mp hlen
      exact ⟨out, hout, hok.answers out (by rw [hout]; exact List.mem_singleton_self out)⟩
    · cases hw : c.worker with
      | queued => exact absurd hw hqueued
      | running _ _ => rw [hw] at hactive; cases hactive
      | _ => exact fun h => nomatch h
  · intro hover j k c o hj howner hk
    obtain ⟨hactive, hqueued, hs⟩ := h.settled hover j c hj
    have hreach : c.reaches σ.live = true := by
      simpa [Cell.reaches, howner, Shared.live] using (List.getElem?_eq_some_iff.mp hk).1
    rw [h.sound.counted k o hk, Shared.forwards, hj, Option.elim_some, if_pos howner]
    exact forwards_pos (h.sound.cells j c hj) hactive hqueued hs hreach (h.told j c hj)

theorem along_nothingHangs {maxsize workers owners : ℕ} {as : List (Action κ)}
    (hc : Transitions.Along Pool.act Heard (Pool.start maxsize workers owners) as) :
    Transitions.Always Pool.act NothingHangs (Pool.start maxsize workers owners) as := by
  have hinv : Transitions.Always Pool.act InTime (Pool.start maxsize workers owners) as :=
    Transitions.always_of_along (InTime.start _ _ _) (fun _ _ _ h hc ha => h.act hc ha) hc
  exact Transitions.always_imp hinv fun σ h => h.nothingHangs

/-! ### What hangs -/

/-- More jobs are on the queue than workers will take. -/
structure Overdue (σ : Pool κ) : Prop where
  stop : σ.stop = true
  late : σ.late = true
  queue : σ.getting < σ.queue.length

theorem PoolStep.stays_stopped (hstep : PoolStep σ a σ') (h : σ.stop = true) : σ'.stop = true := by
  cases hstep with
  | stop _ => rfl
  | _ => exact h

theorem Overdue.act (h : Overdue σ) (ha : σ.act a = some σ') : Overdue σ' := by
  have hstep := Pool.act_cases ha
  obtain ⟨hqueue, hlate⟩ := hstep.late h.late h.stop
  refine ⟨hstep.stays_stopped h.stop, hlate, ?_⟩
  have hlt := h.queue
  cases hqueue with
  | put _ hq hg => omega
  | take _ hq hg => omega
  | empty _ hq _ _ =>
    rw [hq] at hlt
    cases hlt
  | same _ hq hg => rwa [hq, hg]

omit [Submission κ] in
/-- A job that is left on the queue has no answer. -/
theorem Overdue.not_answered (h : Overdue σ) (hsound : Sound σ) :
    ¬∀ c ∈ σ.cells, c.Answered := by
  intro hall
  cases hq : σ.queue with
  | nil =>
    have hlt := h.queue
    rw [hq] at hlt
    cases hlt
  | cons j rest =>
    obtain ⟨c, hj, hqueued⟩ := (hsound.places.queue.mem j).mp (by rw [hq]; exact List.mem_cons_self)
    obtain ⟨out, hout, _⟩ := hall c (List.mem_of_getElem? hj)
    have hnil := (hsound.cells j c hj).promise_eq_nil.mpr (by rw [hqueued]; rfl)
    rw [hnil] at hout
    cases hout

/-- A callback that was missed stays so. -/
theorem missed_run {as : List (Action κ)} {j : ℕ} {c : Cell κ} (hsound : Sound σ)
    (hj : σ.cells[j]? = some c) (hm : c.Missed σ.live)
    (hrun : Transitions.run Pool.act σ as = some σ') :
    Sound σ' ∧ ∃ c', σ'.cells[j]? = some c' ∧ c'.Missed σ'.live := by
  apply Transitions.run_induction (P := fun σ' : Pool κ => Sound σ' ∧
    ∃ c', σ'.cells[j]? = some c' ∧ c'.Missed σ'.live) ⟨hsound, c, hj, hm⟩ _ hrun
  rintro σ₁ a σ₂ ⟨hsound₁, c₁, hj₁, hm₁⟩ ha
  have hchange := (Pool.act_cases ha).change hsound₁
  refine ⟨hsound₁.act ha, ?_⟩
  rw [hchange.live_eq]
  obtain ⟨c₂, hj₂, rfl | hmove⟩ := hchange.cell_after hj₁
  · exact ⟨c₂, hj₂, hm₁⟩
  · exact ⟨c₂, hj₂, hm₁.move hmove⟩

omit [Submission κ] in
theorem not_forwarded_of_missed {j : ℕ} {c : Cell κ} (hsound : Sound σ)
    (hj : σ.cells[j]? = some c) (hm : c.Missed σ.live) :
    ∃ k o, c.owner = some k ∧ σ.owners[k]? = some o ∧ o.holds j = 0 := by
  obtain ⟨k, hk⟩ := Option.isSome_iff_exists.mp (Cell.reaches_isSome hm.reaches)
  have hlive : k < σ.owners.length := by
    simpa [Cell.reaches, hk, Shared.live] using hm.reaches
  have ho := List.getElem?_eq_getElem hlive
  refine ⟨k, _, hk, ho, ?_⟩
  rw [hsound.counted k _ ho, Shared.forwards, hj, Option.elim_some, if_pos hk, Cell.forwards,
    hm.worker, hm.submitter]
  rfl

/-- Shutdown answers the first job of the queue. -/
theorem PoolStep.drains {j : ℕ} {c : Cell κ} (hstep : PoolStep σ .shutdown σ')
    (hs : σ.shutdown = .draining) (hq : σ.queue.head? = some j) (hj : σ.cells[j]? = some c) :
    σ'.cells[j]? = some c.drain := by
  generalize ha : Action.shutdown = a at hstep
  cases hstep with
  | drained _ hq' =>
    rw [hq'] at hq
    cases hq
    rw [List.getElem?_modify, hj]
    simp
  | stop hs' => rw [hs] at hs'; cases hs'
  | emptied _ hq' => rw [hq'] at hq; cases hq
  | joined hs' _ => rw [hs] at hs'; cases hs'
  | _ => cases ha

theorem along_heard {maxsize workers owners : ℕ} {as : List (Action κ)} {σ' : Pool κ}
    (hrun : Transitions.run Pool.act (Pool.start maxsize workers owners) as = some σ')
    (hover : σ'.over = true) (hn : NothingHangs σ') :
    Transitions.Along Pool.act Heard (Pool.start maxsize workers owners) as := by
  apply Transitions.along_of_forall
  rintro as₁ a as₂ σ rfl hrun₁
  rw [Transitions.run_append, hrun₁, Option.bind_some] at hrun
  obtain ⟨σ₁, ha, hrest⟩ := Option.bind_eq_some_iff.mp hrun
  have hsound := Sound.run hrun₁
  have hstep := Pool.act_cases ha
  refine ⟨?_, ?_⟩
  · intro hlate hputs
    by_contra hnot
    have hstop : σ.stop = true := by
      apply Transitions.run_induction (P := fun σ : Pool κ => σ.shutdown ≠ .idle → σ.stop = true)
        (fun h => absurd rfl h) (fun _ _ _ h ha => (Pool.act_cases ha).stop_of_shutdown h) hrun₁
      intro hidle
      rw [idle_of_not_late hidle] at hlate
      cases hlate
    obtain ⟨hqueue, hlate₁⟩ := hstep.late hlate hstop
    -- from now on some job is left on the queue
    have hoverdue : Overdue σ₁ := by
      refine ⟨hstep.stays_stopped hstop, hlate₁, ?_⟩
      cases hqueue with
      | put _ hq hg => omega
      | take hnone _ _ => rw [hputs] at hnone; cases hnone
      | empty hnone _ _ _ => rw [hputs] at hnone; cases hnone
      | same hnone _ _ => rw [hputs] at hnone; cases hnone
    have hend : Overdue σ' ∧ Sound σ' :=
      Transitions.run_induction (P := fun σ' : Pool κ => Overdue σ' ∧ Sound σ')
        ⟨hoverdue, hsound.act ha⟩ (fun _ _ _ h ha => ⟨h.1.act ha, h.2.act ha⟩) hrest
    exact hend.1.not_answered hend.2 (hn.answered hover)
  · rintro rfl hdraining j c hq hj hs
    by_contra hreach
    have hmissed : c.drain.Missed σ₁.live := by
      rw [(hstep.change hsound).live_eq]
      exact ⟨rfl, hs, (Bool.not_eq_false _).mp hreach⟩
    obtain ⟨hsound', c', hj', hm'⟩ := missed_run (hsound.act ha) (hstep.drains hdraining hq hj)
      hmissed hrest
    obtain ⟨k, o, howner, hk, hzero⟩ := not_forwarded_of_missed hsound' hj' hm'
    have hpos := hn.forwarded hover j k c' o hj' howner hk
    omega

end Runs

end Pooling

/-! ### The law -/

/-- In a run in which every late job has a worker and no registered job is drained, nothing hangs;
in a run in which shutdown returns and the callers finish this is the only way. -/
theorem shutdown_leaves_nothing_iff {κ : Type} [Submission κ] (maxsize workers owners : ℕ)
    (as : List (Action κ)) :
    (Transitions.Along Pool.act Heard (Pool.start maxsize workers owners) as →
      Transitions.Always Pool.act NothingHangs (Pool.start maxsize workers owners) as) ∧
    ∀ σ, Transitions.run Pool.act (Pool.start maxsize workers owners) as = some σ →
      σ.over = true →
      Transitions.Always Pool.act NothingHangs (Pool.start maxsize workers owners) as →
      Transitions.Along Pool.act Heard (Pool.start maxsize workers owners) as := by
  refine ⟨along_nothingHangs, ?_⟩
  intro σ hrun hover hn
  exact along_heard hrun hover (hn as [] σ (by simp) hrun)

/-- A job is put on the queue after the drain, with the only worker in its last `get`. -/
def lastGet : List (Action CallArgs) :=
  [.arrive { owner := some 0 } (.mk [] (.ok 1)), .worker 0 false, .shutdown, .shutdown,
    .caller 0 false, .worker 0 false, .worker 0 false, .worker 0 false, .worker 0 false,
    .caller 0 false, .caller 0 false, .caller 0 false, .caller 0 false, .shutdown]

theorem lastGet_nothingHangs :
    Transitions.Always Pool.act NothingHangs (Pool.start 10 1 1) lastGet :=
  (shutdown_leaves_nothing_iff 10 1 1 lastGet).1 (by decide +kernel)

/-- The only worker finds an empty queue, shutdown drains it, and then a job is submitted. -/
def lateSubmission : List (Action CallArgs) :=
  [.arrive {} (.mk [] (.ok 1)), .shutdown, .shutdown, .worker 0 false, .caller 0 false,
    .caller 0 false, .shutdown]

/-- A caller registers a callback on a job that no worker has taken; shutdown completes it. -/
def drainedCallback : List (Action CallArgs) :=
  [.arrive { owner := some 0 } (.mk [] (.ok 1)), .caller 0 false, .caller 0 false,
    .caller 0 false, .caller 0 false, .shutdown, .shutdown, .shutdown, .worker 0 false, .shutdown]

theorem shutdown_leaves_job_and_callback :
    ¬Transitions.Always Pool.act NothingHangs (Pool.start 10 1 1) lateSubmission ∧
      ¬Transitions.Always Pool.act NothingHangs (Pool.start 10 1 1) drainedCallback := by
  constructor
  · intro h
    have hlen : Transitions.Always Pool.act (fun σ : Pool CallArgs => σ.over = true →
        ∀ c ∈ σ.cells, c.promise.length = 1) (Pool.start 10 1 1) lateSubmission := by
      refine Transitions.always_imp h fun σ hσ hover c hc => ?_
      obtain ⟨out, hout, _⟩ := hσ.answered hover c hc
      rw [hout]
      rfl
    exact Transitions.not_always (by decide +kernel) hlen
  · intro h
    have hheld : Transitions.Always Pool.act (fun σ : Pool CallArgs => σ.over = true →
        (σ.cells[0]?).any (fun c => c.owner == some 0) = true →
        (σ.owners[0]?).all (fun o => decide (0 < o.holds 0)) = true)
        (Pool.start 10 1 1) drainedCallback := by
      refine Transitions.always_imp h fun σ hσ hover hany => ?_
      obtain ⟨c, hc, howner⟩ := (Option.any_eq_true _ _).mp hany
      rw [Option.all_eq_true]
      intro o ho
      exact decide_eq_true (hσ.forwarded hover 0 0 c o hc (by simpa using howner) ho)
    exact Transitions.not_always (by decide +kernel) hheld

end YtScheduler
