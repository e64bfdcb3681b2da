import YtScheduler.Pooling.Cells
import YtScheduler.Sequences.Indices

/-! Where the jobs are. A job that no worker has taken is on the queue, a job whose
worker is active is on exactly one stack, and so is a job whose submitter is not
done with it. The stacks are read as one list of frames, up to their order. -/

namespace YtScheduler.Pooling

open Sequences

variable {κ : Type}

def Worker.stack : Worker κ → List (Frame κ)
  | .busy fs => fs
  | _ => []

/-- The frames of all threads. -/
def framesOf (workers : List (Worker κ)) (callers : List (List (Frame κ))) : List (Frame κ) :=
  workers.flatMap Worker.stack ++ callers.flatMap id

def Pool.frames (σ : Pool κ) : List (Frame κ) := framesOf σ.workers σ.callers

theorem framesOf_set_worker {ws : List (Worker κ)} {i : ℕ} {w : Worker κ} (hi : ws[i]? = some w)
    (cs : List (List (Frame κ))) : ∃ rest, (framesOf ws cs).Perm (w.stack ++ rest) ∧
      ∀ w', (framesOf (ws.set i w') cs).Perm (w'.stack ++ rest) := by
  obtain ⟨rest, hp, hset⟩ := exists_perm_flatMap Worker.stack hi
  refine ⟨rest ++ cs.flatMap id, ?_, fun w' => ?_⟩
  · rw [← List.append_assoc]
    exact hp.append_right _
  · rw [← List.append_assoc]
    exact (hset w').append_right _

theorem framesOf_set_caller {cs : List (List (Frame κ))} {i : ℕ} {fs : List (Frame κ)}
    (hi : cs[i]? = some fs) (ws : List (Worker κ)) : ∃ rest, (framesOf ws cs).Perm (fs ++ rest) ∧
      ∀ fs', (framesOf ws (cs.set i fs')).Perm (fs' ++ rest) := by
  obtain ⟨rest, hp, hset⟩ := exists_perm_flatMap id hi
  have hswap : ∀ gs : List (Frame κ), (ws.flatMap Worker.stack ++ (gs ++ rest)).Perm
      (gs ++ (rest ++ ws.flatMap Worker.stack)) := fun gs => by
    rw [← List.append_assoc gs]
    exact List.perm_append_comm
  exact ⟨rest ++ ws.flatMap Worker.stack, (hp.append_left _).trans (hswap fs),
    fun fs' => ((hset fs').append_left _).trans (hswap fs')⟩

theorem framesOf_arrive (ws : List (Worker κ)) (cs : List (List (Frame κ))) (f : Frame κ) :
    (framesOf ws (cs ++ [[f]])).Perm (f :: framesOf ws cs) := by
  have hflat : framesOf ws (cs ++ [[f]]) = framesOf ws cs ++ [f] := by
    simp [framesOf, List.append_assoc]
  rw [hflat]
  exact List.perm_append_singleton _ _

@[simp] theorem stack_resume (fs : List (Frame κ)) : (Pool.resume fs).stack = fs := by
  cases fs <;> rfl

def Frame.exec? : Frame κ → Option ℕ
  | .exec j => some j
  | _ => none

def Frame.register? : Frame κ → Option ℕ
  | .register j => some j
  | _ => none

/-- The jobs executed by these frames. -/
def execs (fs : List (Frame κ)) : List ℕ := fs.filterMap Frame.exec?

/-- The jobs registered by these frames. -/
def registers (fs : List (Frame κ)) : List ℕ := fs.filterMap Frame.register?

/-- The jobs are where the sides say. -/
structure Places (s : Shared κ) (fs : List (Frame κ)) : Prop where
  queue : Lists s.cells (fun c => c.worker = .queued) s.queue
  execs : Lists s.cells (fun c => c.worker.active = true) (execs fs)
  registers : Lists s.cells (fun c => c.submitter.isFinished = false) (registers fs)

theorem Places.perm {s : Shared κ} {fs gs : List (Frame κ)} (h : Places s fs) (hp : fs.Perm gs) :
    Places s gs :=
  ⟨h.queue, h.execs.perm (hp.filterMap _), h.registers.perm (hp.filterMap _)⟩

/-! ### The sides and the places -/

namespace Cell

variable {live : ℕ → Bool} {c c' : Cell κ}

/-- A step of the worker's side keeps it active or ends it. -/
theorem work_spec {out : Cell κ × Option (κ × Job κ)} (h : c.work live = some out) :
    c.worker.active = true ∧ out.1.submitter = c.submitter ∧ out.1.worker ≠ .queued ∧
      (out.1.worker.active = true ∧ out.1.worker.isFinished = false ∨
        out.1.worker.active = false ∧ out.1.worker.isFinished = true ∧ out.2 = none) := by
  rw [Cell.work] at h
  split at h
  · next hc => cases h; exact ⟨by rw [hc]; rfl, rfl, by simp, Or.inl ⟨rfl, rfl⟩⟩
  · next hc => cases h; exact ⟨by rw [hc]; rfl, rfl, by simp, Or.inl ⟨rfl, rfl⟩⟩
  · next hc =>
    split_ifs at h
    · cases h; exact ⟨by rw [hc]; rfl, rfl, by simp, Or.inl ⟨rfl, rfl⟩⟩
    · cases h; exact ⟨by rw [hc]; rfl, rfl, by simp, Or.inr ⟨rfl, rfl, rfl⟩⟩
  · next hc => cases h; exact ⟨by rw [hc]; rfl, rfl, by simp, Or.inr ⟨rfl, rfl, rfl⟩⟩
  · cases h

theorem not_queued_of_active {w : WorkerSide κ} (h : w.active = true) : w ≠ .queued := by
  rintro rfl
  cases h

theorem register_spec (h : c.register live = some c') :
    c.submitter.isFinished = false ∧ c'.worker = c.worker := by
  rw [Cell.register] at h
  split at h
  · next hc => cases h; exact ⟨by rw [hc]; rfl, rfl⟩
  · next hc => cases h; exact ⟨by rw [hc]; rfl, rfl⟩
  · next hc => cases h; exact ⟨by rw [hc]; rfl, rfl⟩
  · next hc =>
    split_ifs at h
    · cases h; exact ⟨by rw [hc]; rfl, rfl⟩
    · cases h; exact ⟨by rw [hc]; rfl, rfl⟩
  · next hc => cases h; exact ⟨by rw [hc]; rfl, rfl⟩
  · cases h

/-- An exception reaches a job that is running, and it stays so. -/
theorem raise_spec (c : Cell κ) (message : String) :
    ((c.raise message).worker = .queued ↔ c.worker = .queued) ∧
      (c.raise message).worker.active = c.worker.active ∧
      (c.raise message).submitter = c.submitter := by
  rw [Cell.raise]
  split
  · next hc => rw [hc]; exact ⟨by simp, rfl, rfl⟩
  · exact ⟨Iff.rfl, rfl, rfl⟩

end Cell

namespace Places

variable {s s' : Shared κ} {fs fs' rest : List (Frame κ)} {j : ℕ} {c c' : Cell κ}

/-- A job changes on its sides as it stands. -/
theorem setCell (h : Places s fs) (hc : s.cells[j]? = some c)
    (hq : c'.worker = .queued ↔ c.worker = .queued) (ha : c'.worker.active = c.worker.active)
    (hs : c'.submitter.isFinished = c.submitter.isFinished) : Places (s.setCell j c') fs where
  queue := h.queue.set hc hq
  execs := h.execs.set hc (by rw [ha])
  registers := h.registers.set hc (by rw [hs])

theorem enqueue (h : Places s fs) (owner : Option ℕ) : Places (s.enqueue j owner) fs :=
  ⟨h.queue, h.execs, h.registers⟩

theorem exec {out : Cell κ × Option (κ × Job κ)} (h : Places s (.exec j :: fs))
    (hc : s.cells[j]? = some c) (hw : c.work s.live = some out) :
    Places (s.setCell j out.1) (Shared.workStack j out fs) := by
  obtain ⟨hactive, hsub, hqueued, hnext⟩ := Cell.work_spec hw
  have hnot := Cell.not_queued_of_active hactive
  rcases hnext with ⟨hact, hfin⟩ | ⟨hact, hfin, hcall⟩
  · have hplaces : Places (s.setCell j out.1) (.exec j :: fs) :=
      h.setCell hc (by simp [hqueued, hnot]) (by rw [hact, hactive]) (by rw [hsub])
    cases hcall : out.2 with
    | none => simpa [Shared.workStack, hcall, hfin] using hplaces
    | some call =>
      rw [Shared.workStack, hcall]
      exact ⟨hplaces.queue, hplaces.execs, hplaces.registers⟩
  · rw [Shared.workStack, hcall]
    simp only [hfin, if_true]
    exact ⟨h.queue.set hc (by simp [hqueued, hnot]), h.execs.remove hc (by simp [hact]),
      h.registers.set hc (by rw [hsub])⟩

theorem register (h : Places s (.register j :: fs)) (hc : s.cells[j]? = some c)
    (hr : c.register s.live = some c') :
    Places (s.setCell j c') (Shared.registerStack j c' fs) := by
  rw [Shared.registerStack]
  obtain ⟨hsub, hworker⟩ := Cell.register_spec hr
  cases hfin : c'.submitter.isFinished with
  | false => exact h.setCell hc (by rw [hworker]) (by rw [hworker]) (by rw [hfin, hsub])
  | true =>
    exact ⟨h.queue.set hc (by rw [hworker]), h.execs.set hc (by rw [hworker]),
      h.registers.remove hc (by simp [hfin])⟩

variable {f : Frame κ}

/-- Frames of submissions are nowhere counted. -/
theorem drop (h : Places s (f :: fs)) (he : f.exec? = none) (hr : f.register? = none) :
    Places s fs where
  queue := h.queue
  execs := by
    have hexecs := h.execs
    rwa [Pooling.execs, List.filterMap_cons_none he] at hexecs
  registers := by
    have hregisters := h.registers
    rwa [Pooling.registers, List.filterMap_cons_none hr] at hregisters

theorem cons (h : Places s fs) (he : f.exec? = none) (hr : f.register? = none) :
    Places s (f :: fs) where
  queue := h.queue
  execs := by rw [Pooling.execs, List.filterMap_cons_none he]; exact h.execs
  registers := by rw [Pooling.registers, List.filterMap_cons_none hr]; exact h.registers

theorem push (h : Places s fs) (job : Job κ) (owner : Option ℕ) :
    Places (s.push job owner) (.register s.cells.length :: fs) where
  queue := (h.queue.append rfl).perm (List.perm_append_singleton _ _).symm
  execs := h.execs.append_not (by simp [Cell.new, WorkerSide.active])
  registers := h.registers.append rfl

theorem fallback (h : Places s fs) (job : Job κ) (owner : Option ℕ) :
    Places (s.fallback job owner) (.exec s.cells.length :: .register s.cells.length :: fs) where
  queue := h.queue.append_not (by simp [Cell.take])
  execs := h.execs.append rfl
  registers := h.registers.append rfl

theorem modify (h : Places s fs) (g : Cell κ → Cell κ)
    (hg : ∀ c, ((g c).worker = .queued ↔ c.worker = .queued) ∧
      (g c).worker.active = c.worker.active ∧ (g c).submitter = c.submitter) :
    Places { s with cells := s.cells.modify j g } fs := by
  cases hc : s.cells[j]? with
  | none =>
    have hself : s.cells.modify j g = s.cells :=
      List.modify_eq_self (List.getElem?_eq_none_iff.mp hc)
    rw [hself]
    exact h
  | some c =>
    rw [modify_eq_set g hc]
    exact h.setCell hc (hg c).1 (hg c).2.1 (by rw [(hg c).2.2])

theorem raiseFull (h : Places s fs) (gs : List (Frame κ)) : Places (s.raiseFull gs) fs := by
  unfold Shared.raiseFull
  split
  · exact h.modify _ fun c => c.raise_spec _
  · exact h

theorem submission [Submission κ] {a : κ} {job : Job κ} (hf : f = .call a job ∨ f = .retry a job) :
    f.exec? = none ∧ f.register? = none := by
  rcases hf with rfl | rfl <;> exact ⟨rfl, rfl⟩

/-- A step of one thread keeps the places, whatever the other threads are in. -/
theorem threadStep [Submission κ] {late : Bool} (h : Places s (fs ++ rest))
    (hstep : ThreadStep s late fs s' fs') : Places s' (fs' ++ rest) := by
  cases hstep with
  | @exec j c out fs hc hw =>
    have hstack : Shared.workStack j out fs ++ rest = Shared.workStack j out (fs ++ rest) := by
      rw [Shared.workStack, Shared.workStack]
      cases out.2 with
      | none => cases out.1.worker.isFinished <;> rfl
      | some call => rfl
    have hplaces : Places (s.setCell j out.1) (Shared.workStack j out (fs ++ rest)) := h.exec hc hw
    rw [hstack]
    split_ifs
    · exact hplaces.enqueue _
    · exact hplaces
  | @register j c c' fs hc hr =>
    have hstack : Shared.registerStack j c' fs ++ rest = Shared.registerStack j c' (fs ++ rest) := by
      rw [Shared.registerStack, Shared.registerStack]
      cases c'.submitter.isFinished <;> rfl
    have hplaces : Places (s.setCell j c') (Shared.registerStack j c' (fs ++ rest)) :=
      h.register hc hr
    rw [hstack]
    split_ifs
    · exact hplaces.enqueue _
    · exact hplaces
  | put hf _ _ =>
    obtain ⟨he, hr⟩ := submission hf
    exact (h.drop he hr).push _ _
  | fallback hf _ =>
    obtain ⟨he, hr⟩ := submission hf
    exact (h.drop he hr).fallback _ _
  | retry _ => exact (h.drop rfl rfl).cons rfl rfl
  | raise _ => exact (h.drop rfl rfl).raiseFull _

/-- A worker takes the first job of the queue. -/
theorem take {js : List ℕ} (h : Places s fs) (hq : s.queue = j :: js) :
    Places { s with queue := js, cells := s.cells.modify j Cell.take } (.exec j :: fs) := by
  have hqueue := h.queue
  rw [hq] at hqueue
  obtain ⟨c, hc, hqueued⟩ := (hqueue.mem j).mp List.mem_cons_self
  have hidle : ¬c.worker.active = true := fun ha => Cell.not_queued_of_active ha hqueued
  rw [modify_eq_set Cell.take hc]
  exact ⟨hqueue.remove hc (by simp [Cell.take]), h.execs.insert hc hidle rfl,
    h.registers.set hc Iff.rfl⟩

/-- Shutdown takes the first job of the queue. -/
theorem drain {js : List ℕ} (h : Places s fs) (hq : s.queue = j :: js) :
    Places { s with queue := js, cells := s.cells.modify j Cell.drain } fs := by
  have hqueue := h.queue
  rw [hq] at hqueue
  obtain ⟨c, hc, hqueued⟩ := (hqueue.mem j).mp List.mem_cons_self
  have hinactive : c.drain.worker.active = true ↔ c.worker.active = true := by
    simp [Cell.drain, hqueued, WorkerSide.active]
  rw [modify_eq_set Cell.drain hc]
  exact ⟨hqueue.remove hc (by simp [Cell.drain]), h.execs.set hc hinactive,
    h.registers.set hc Iff.rfl⟩

/-- Every step of the pool keeps the places. -/
theorem poolStep [Submission κ] {σ σ' : Pool κ} {a : Action κ} (h : Places σ.toShared σ.frames)
    (hstep : PoolStep σ a σ') : Places σ'.toShared σ'.frames := by
  cases hstep with
  | arrive a job => exact (h.cons rfl rfl).perm (framesOf_arrive _ _ _).symm
  | check hi =>
    obtain ⟨rest, hp, hset⟩ := framesOf_set_worker hi σ.callers
    have hstack : (if σ.stop then Worker.exited else Worker.getting : Worker κ).stack = [] := by
      split_ifs <;> rfl
    have hframes := hset (if σ.stop then .exited else .getting)
    rw [hstack] at hframes
    exact (h.perm hp).perm hframes.symm
  | take hi hq =>
    obtain ⟨rest, hp, hset⟩ := framesOf_set_worker hi σ.callers
    exact ((h.perm hp).take hq).perm (hset (.busy [.exec _])).symm
  | empty hi hq =>
    obtain ⟨rest, hp, hset⟩ := framesOf_set_worker hi σ.callers
    exact (h.perm hp).perm (hset .top).symm
  | @worker i late s' fs fs' hi hstep =>
    obtain ⟨rest, hp, hset⟩ := framesOf_set_worker hi σ.callers
    have hframes := hset (Pool.resume fs')
    rw [stack_resume] at hframes
    exact ((h.perm hp).threadStep hstep).perm hframes.symm
  | @caller i late s' fs fs' hi hstep =>
    obtain ⟨rest, hp, hset⟩ := framesOf_set_caller hi σ.workers
    exact ((h.perm hp).threadStep hstep).perm (hset fs').symm
  | ran hk hq => exact ⟨h.queue, h.execs, h.registers⟩
  | stop hs => exact h
  | drained hs hq => exact h.drain hq
  | emptied hs hq => exact h
  | joined hs hw => exact h

end Places

end YtScheduler.Pooling
