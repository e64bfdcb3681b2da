import YtScheduler.Pooling.Places

/-! What an action does to one job. -/

namespace YtScheduler.Pooling

open Sequences

variable {κ : Type}

/-- The stack of the thread that takes the action. -/
def Pool.stack? (σ : Pool κ) : Action κ → Option (List (Frame κ))
  | .worker i _ => (σ.workers[i]?).map Worker.stack
  | .caller i _ => σ.callers[i]?
  | _ => none

/-- What becomes of job `j` when the action is taken. -/
inductive Moved (σ : Pool κ) (a : Action κ) (j : ℕ) (c : Cell κ) : Cell κ → Prop
  | same : Moved σ a j c c
  | work {fs : List (Frame κ)} {out : Cell κ × Option (κ × Job κ)}
      (hs : σ.stack? a = some (.exec j :: fs)) (h : c.work σ.live = some out) : Moved σ a j c out.1
  | register {fs : List (Frame κ)} {c' : Cell κ} (hs : σ.stack? a = some (.register j :: fs))
      (h : c.register σ.live = some c') : Moved σ a j c c'
  | raise : Moved σ a j c (c.raise "queue.Full")
  | take : Moved σ a j c c.take
  | drain (ha : a = .shutdown) (hs : σ.shutdown = .draining) (hq : σ.queue.head? = some j) :
      Moved σ a j c c.drain

theorem getElem?_modify_cases {α : Type} {xs : List α} {i j : ℕ} {f : α → α} {x z : α}
    (h : xs[j]? = some x) (h' : (xs.modify i f)[j]? = some z) : i = j ∧ z = f x ∨ z = x := by
  rw [List.getElem?_modify, h] at h'
  simp only [Option.map_eq_map, Option.map_some, Option.some.injEq] at h'
  split_ifs at h' with hij
  · exact Or.inl ⟨hij, h'.symm⟩
  · exact Or.inr h'.symm

section Moves

variable {s s' : Shared κ} {j : ℕ} {c c' : Cell κ}

theorem cells_forwarding (b : Bool) (owner : Option ℕ) :
    (if b then (s.setCell j c).enqueue j owner else s.setCell j c).cells = s.cells.set j c := by
  cases b <;> rfl

variable [Submission κ] {σ σ' : Pool κ} {a : Action κ} {late : Bool} {fs fs' : List (Frame κ)}

theorem ThreadStep.moved (hstep : ThreadStep σ.toShared late fs s' fs')
    (hs : σ.stack? a = some fs) (hj : σ.cells[j]? = some c) (hj' : s'.cells[j]? = some c') :
    Moved σ a j c c' := by
  have hsame : c' = c → Moved σ a j c c' := by
    rintro rfl
    exact .same
  cases hstep with
  | @exec i d out fs hc hw =>
    rw [cells_forwarding] at hj'
    rcases getElem?_set_cases hj hj' with ⟨rfl, rfl⟩ | ⟨_, hold⟩
    · cases Option.some.inj (hj.symm.trans hc)
      exact .work hs hw
    · exact hsame hold
  | @register i d d' fs hc hr =>
    rw [cells_forwarding] at hj'
    rcases getElem?_set_cases hj hj' with ⟨rfl, rfl⟩ | ⟨_, hold⟩
    · cases Option.some.inj (hj.symm.trans hc)
      exact .register hs hr
    · exact hsame hold
  | put _ _ _ => exact hsame (getElem?_append_left hj hj')
  | fallback _ _ => exact hsame (getElem?_append_left hj hj')
  | retry _ => exact hsame (Option.some.inj (hj'.symm.trans hj))
  | raise _ =>
    unfold Shared.raiseFull at hj'
    split at hj'
    · rcases getElem?_modify_cases hj hj' with ⟨_, rfl⟩ | hold
      · exact .raise
      · exact hsame hold
    · exact hsame (Option.some.inj (hj'.symm.trans hj))

/-- An action works on a job in one of these ways, or leaves it alone. -/
theorem PoolStep.moved (hstep : PoolStep σ a σ') (hj : σ.cells[j]? = some c)
    (hj' : σ'.cells[j]? = some c') : Moved σ a j c c' := by
  have hsame : σ'.cells = σ.cells → Moved σ a j c c' := by
    intro he
    rw [he] at hj'
    cases Option.some.inj (hj'.symm.trans hj)
    exact .same
  cases hstep with
  | arrive => exact hsame rfl
  | check _ => exact hsame rfl
  | take _ _ =>
    rcases getElem?_modify_cases hj hj' with ⟨_, rfl⟩ | rfl
    · exact .take
    · exact .same
  | empty _ _ => exact hsame rfl
  | worker hi hthread => exact hthread.moved (by rw [Pool.stack?, hi]; rfl) hj hj'
  | caller hi hthread => exact hthread.moved hi hj hj'
  | ran _ _ => exact hsame rfl
  | stop _ => exact hsame rfl
  | drained hs hq =>
    rcases getElem?_modify_cases hj hj' with ⟨rfl, rfl⟩ | rfl
    · exact .drain rfl hs (by rw [hq]; rfl)
    · exact .same
  | emptied _ _ => exact hsame rfl
  | joined _ _ => exact hsame rfl

end Moves

end YtScheduler.Pooling
