import Mathlib.Algebra.BigOperators.Group.Finset.Basic
import YtScheduler.Pooling.Forwards
import YtScheduler.Pooling.Moves

/-! Callbacks of pool jobs. The submitter and the worker of a job look at each other's
progress without a lock. One of them always forwards the callback; both do exactly
when the submitter finds the promise done while the worker has yet to look for the
callback, or has found it. -/

namespace YtScheduler

open Pooling Sequences

namespace Pooling

variable {κ : Type}

/-- The worker and the submitter have finished with the job. -/
def Cell.Done (c : Cell κ) : Prop := c.worker.isFinished = true ∧ c.submitter.isFinished = true

instance (c : Cell κ) : Decidable c.Done := by
  unfold Cell.Done
  infer_instance

/-- Shutdown has taken the job, or its worker has finished without forwarding. -/
def Cell.Past (c : Cell κ) : Prop := c.worker = .finished false ∨ c.worker = .drained

instance (c : Cell κ) : Decidable c.Past :=
  match h : c.worker with
  | .finished false | .drained => .isTrue (by simp [Cell.Past, h])
  | .finished true | .queued | .running _ _ | .settled | .forwarding =>
    .isFalse (by simp [Cell.Past, h])

/-- Once both sides have finished with a job whose callback has a living owner, the callback
is on its queue or was run, once; and when this is so of all the callbacks an owner has run, its
counter has grown by each job's result once. -/
structure ForwardedOnce (σ : Pool κ) : Prop where
  once : ∀ (j k : ℕ) (c : Cell κ) (o : Owner), σ.cells[j]? = some c → c.Done →
    c.owner = some k → σ.owners[k]? = some o → o.queue.count j + o.ran.count j = 1
  counter : ∀ o ∈ σ.owners, (∀ j ∈ o.ran, ∃ c, σ.cells[j]? = some c ∧ c.Done) →
    o.counter = ∑ j ∈ o.ran.toFinset, σ.value j

/-- When the submitter finds the promise of a job done, the worker is past the callback. -/
def TestsLate (σ : Pool κ) (a : Action κ) : Prop :=
  ∀ (j : ℕ) (fs : List (Frame κ)) (c : Cell κ), σ.stack? a = some (.register j :: fs) →
    σ.cells[j]? = some c → c.submitter = .refStored → c.promise ≠ [] →
    c.reaches σ.live = true → c.Past

instance (σ : Pool κ) (a : Action κ) : Decidable (TestsLate σ a) :=
  match h : σ.stack? a with
  | some (.register j :: fs) =>
    decidable_of_iff (∀ c ∈ σ.cells[j]?, c.submitter = .refStored → c.promise ≠ [] →
      c.reaches σ.live = true → c.Past) (by
        simp only [TestsLate, h, Option.some.injEq, List.cons.injEq, Frame.register.injEq]
        exact ⟨fun hc _ _ c he => he.1 ▸ hc c, fun hc c => hc j fs c ⟨rfl, rfl⟩⟩)
  | none | some [] | some (.exec _ :: _) | some (.call _ _ :: _) | some (.retry _ _ :: _) =>
    .isTrue (by simp [TestsLate, h])

/-! ### Who forwards -/

section Sides

variable {live : ℕ → Bool} {c c' : Cell κ}

/-- A job the worker is past stays as it is for the worker. -/
theorem Cell.Past.move (h : c.Past) (hm : c.Move live c') : c'.worker = c.worker := by
  have hnot : c.worker ≠ .queued := by
    rcases h with hw | hw <;> rw [hw] <;> exact fun hq => nomatch hq
  cases hm with
  | take hw => exact absurd hw hnot
  | drain hw => exact absurd hw hnot
  | work hw => rcases h with h | h <;> rw [Cell.work, h] at hw <;> cases hw
  | register hr => exact (Cell.register_spec hr).2
  | raise => rcases h with h | h <;> simp [Cell.raise, h]

/-- Every step of the submitter moves its side. -/
theorem submitter_register (hr : c.register live = some c') : c'.submitter ≠ c.submitter := by
  rw [Cell.register] at hr
  split at hr
  all_goals rename_i hs
  all_goals rw [hs]
  case h_4 => split_ifs at hr <;> cases hr <;> simp
  all_goals cases hr
  all_goals simp

/-- Only the submitter's side changes the owner. -/
theorem owner_move (hm : c.Move live c') (hs : c'.submitter = c.submitter) :
    c'.owner = c.owner := by
  cases hm with
  | take _ => rfl
  | drain _ => rfl
  | work hw => exact Cell.owner_work hw
  | register hr => exact absurd hs (submitter_register hr)
  | raise => exact c.owner_raise _

/-- A submitter that knows the promise is done has just found it done, or knew before. -/
theorem saw_register (hr : c.register live = some c') (hsaw : c'.submitter.saw = true)
    (hreach : c'.reaches live = true) :
    (c.submitter = .refStored ∧ c.promise ≠ [] ∨ c.submitter.saw = true) ∧
      c.reaches live = true := by
  rw [Cell.register] at hr
  split at hr
  · cases hr; cases hsaw
  · cases hr; cases hsaw
  · cases hr; cases hsaw
  · next hs =>
    split_ifs at hr with hempty
    · cases hr; cases hsaw
    · cases hr
      exact ⟨Or.inl ⟨hs, fun hnil => hempty (List.isEmpty_iff.mpr hnil)⟩, hreach⟩
  · next hs =>
    cases hr
    exact ⟨Or.inr (by rw [hs]; rfl), hreach⟩
  · cases hr

/-- The submitter has found the promise done before the worker came to the callback, so that
both forward it. -/
structure Cell.Doubled (live : ℕ → Bool) (c : Cell κ) : Prop where
  saw : c.submitter.saw = true
  reaches : c.reaches live = true
  worker : c.worker = .settled ∨ c.worker = .forwarding ∨ c.worker = .finished true

theorem Cell.Doubled.move (h : c.Doubled live) (hok : c.Ok live) (hm : c.Move live c') :
    c'.Doubled live := by
  obtain ⟨hsaw, hreach, hworker⟩ := h
  have hnot : c.worker ≠ .queued := by
    rcases hworker with hw | hw | hw <;> rw [hw] <;> exact fun hq => nomatch hq
  cases hm with
  | take hw => exact absurd hw hnot
  | drain hw => exact absurd hw hnot
  | work hw =>
    have hcallback := hok.callback (Cell.reaches_isSome hreach)
    rcases hworker with h | h | h <;> rw [Cell.work, h] at hw
    · simp only [hcallback, if_true, Option.some.injEq] at hw
      rw [← hw]
      exact ⟨hsaw, hreach, Or.inr (Or.inl rfl)⟩
    · cases hw
      exact ⟨hsaw, hreach, Or.inr (Or.inr (by rw [hreach]))⟩
    · cases hw
  | register hr =>
    rw [Cell.register] at hr
    split at hr <;> rename_i hs <;> rw [hs] at hsaw <;> try cases hsaw
    · cases hr
      exact ⟨hreach, hreach, hworker⟩
    · cases hr
  | raise =>
    rw [Cell.raise]
    rcases hworker with h | h | h <;> rw [h] <;> exact ⟨hsaw, hreach, by simp [h]⟩

theorem head_move (hm : c.Move live c') (hp : c.promise ≠ []) :
    c'.promise.head? = c.promise.head? := by
  have happend : ∀ o, (c.promise ++ [o]).head? = c.promise.head? := by
    intro o
    cases hc : c.promise with
    | nil => exact absurd hc hp
    | cons p ps => rfl
  cases hm with
  | take _ => rfl
  | drain _ => exact happend _
  | work hw =>
    rw [Cell.work] at hw
    split at hw
    · cases hw; rfl
    · cases hw; exact happend _
    · split_ifs at hw <;> cases hw <;> rfl
    · cases hw; rfl
    · cases hw
  | register hr =>
    rw [Cell.register] at hr
    split at hr
    · cases hr; rfl
    · cases hr; rfl
    · cases hr; rfl
    · split_ifs at hr <;> cases hr <;> rfl
    · cases hr; rfl
    · cases hr
  | raise =>
    rw [Cell.raise]
    split <;> rfl

end Sides

/-- The side of a submitter moves in its own thread. -/
theorem Moved.submitter {σ : Pool κ} {a : Action κ} {j : ℕ} (hm : Moved σ a j c c')
    (hne : c'.submitter ≠ c.submitter) :
    (∃ fs, σ.stack? a = some (.register j :: fs)) ∧ c.register σ.live = some c' := by
  cases hm with
  | register hs h => exact ⟨⟨_, hs⟩, h⟩
  | work _ h => exact absurd (Cell.work_spec h).2.1 hne
  | raise => exact absurd (c.raise_spec _).2.2 hne
  | same => exact absurd rfl hne
  | take => exact absurd rfl hne
  | drain _ _ _ => exact absurd rfl hne

/-! ### Runs of the pool -/

section Runs

/-- The counter of an owner is the sum of the results of the jobs whose callbacks it has run. -/
def Counts (s : Shared κ) : Prop :=
  ∀ o ∈ s.owners, o.counter = (o.ran.map s.value).sum

theorem Change.value {s s' : Shared κ} {j : ℕ} {c : Cell κ} (h : Change s s')
    (hj : s.cells[j]? = some c) (hp : c.promise ≠ []) : s'.value j = s.value j := by
  obtain ⟨c', hj', rfl | hm⟩ := h.cell_after hj
  · rw [Shared.value, Shared.value, hj, hj']
  · rw [Shared.value, Shared.value, hj, hj']
    show c'.value = c.value
    rw [Cell.value, Cell.value, head_move hm hp]

/-- An owner holds callbacks of completed jobs. -/
theorem Sound.completed {σ : Pool κ} (h : Sound σ) {k j : ℕ} {o : Owner}
    (hk : σ.owners[k]? = some o) (hj : 0 < o.holds j) :
    ∃ c, σ.cells[j]? = some c ∧ c.owner = some k ∧ c.promise ≠ [] := by
  rw [h.counted k o hk, Shared.forwards] at hj
  cases hc : σ.cells[j]? with
  | none => simp [hc] at hj
  | some c =>
    rw [hc, Option.elim_some] at hj
    split_ifs at hj with howner
    · refine ⟨c, rfl, howner, ?_⟩
      have hok := h.cells j c hc
      rw [ne_eq, hok.promise_eq_nil, Bool.not_eq_true]
      rw [Cell.forwards] at hj
      cases hs : c.submitter.forwarded with
      | true =>
        apply hok.saw
        cases hfin : c.submitter <;> simp_all [SubmitterSide.forwarded, SubmitterSide.saw]
      | false =>
        cases hw : c.worker <;> simp_all [WorkerSide.forwarded, WorkerSide.pending]
    · omega

theorem Counts.change {σ : Pool κ} {s' : Shared κ} (h : Counts σ.toShared) (hsound : Sound σ)
    (hchange : Change σ.toShared s') : Counts s' := by
  -- the results of the callbacks that were run do not change
  have hran : ∀ o ∈ σ.owners, o.ran.map s'.value = o.ran.map σ.value := by
    intro o ho
    apply List.map_congr_left
    intro j hj
    obtain ⟨k, hk⟩ := List.mem_iff_getElem?.mp ho
    obtain ⟨c, hc, _, hp⟩ := hsound.completed hk (j := j)
      (Nat.add_pos_right _ (List.count_pos_iff.mpr hj))
    exact hchange.value hc hp
  have hsame : ∀ o ∈ σ.owners, o.counter = (o.ran.map s'.value).sum := by
    intro o ho
    rw [hran o ho]
    exact h o ho
  intro o ho
  cases hchange with
  | same _ howners => exact hsame o (by rwa [howners] at ho)
  | new _ _ _ _ howners => exact hsame o (by rwa [howners] at ho)
  | move _ _ _ _ _ howners => exact hsame o (by rwa [howners] at ho)
  | forward _ _ _ _ _ _ howners =>
    rw [howners] at ho
    obtain ⟨k, hk⟩ := List.mem_iff_getElem?.mp ho
    rw [List.getElem?_modify] at hk
    obtain ⟨o₀, hk₀, rfl⟩ := Option.map_eq_some_iff.mp hk
    split_ifs <;> exact hsame o₀ (List.mem_of_getElem? hk₀)
  | @ran k j o₀ rest hk hq hc howners =>
    rw [howners] at ho
    rcases List.mem_or_eq_of_mem_set ho with hmem | rfl
    · exact hsame o hmem
    · have hvalue : s'.value j = σ.value j := by rw [Shared.value, Shared.value, hc]
      have hmem := List.mem_of_getElem? hk
      show o₀.counter + σ.value j = ((o₀.ran ++ [j]).map s'.value).sum
      rw [List.map_append, List.sum_append, ← hsame o₀ hmem]
      simp [hvalue]

variable [Submission κ] {σ σ' : Pool κ} {a : Action κ}

/-- Where the submitter found a promise done, the worker is past the callback. -/
def AllPast (σ : Pool κ) : Prop :=
  ∀ (j : ℕ) (c : Cell κ), σ.cells[j]? = some c → c.submitter.saw = true →
    c.reaches σ.live = true → c.Past

theorem AllPast.step (h : AllPast σ) (hsound : Sound σ) (hlate : TestsLate σ a)
    (hstep : PoolStep σ a σ') : AllPast σ' := by
  intro j c' hj' hsaw hreach
  have hchange := hstep.change hsound
  rw [hchange.live_eq] at hreach
  rcases hchange.cell hj' with ⟨_, _, hearly⟩ | ⟨c, hj, rfl | hm⟩
  · cases hs : c'.submitter <;> simp_all [SubmitterSide.early, SubmitterSide.saw]
  · exact h j c' hj hsaw hreach
  · by_cases hs : c'.submitter = c.submitter
    · have hpast : c.Past := by
        apply h j c hj
        · rwa [← hs]
        · rwa [Cell.reaches, ← owner_move hm hs]
      rwa [Cell.Past, hpast.move hm]
    · obtain ⟨⟨fs, hstack⟩, hr⟩ := (hstep.moved hj hj').submitter hs
      obtain ⟨hbefore, hreach₀⟩ := saw_register hr hsaw hreach
      have hpast : c.Past := by
        rcases hbefore with ⟨href, hdone⟩ | hsaw₀
        · exact hlate j fs c hstack hj href hdone hreach₀
        · exact h j c hj hsaw₀ hreach₀
      rwa [Cell.Past, hpast.move hm]

omit [Submission κ] in
/-- A job both sides are done with was forwarded once. -/
theorem forwards_eq_one {c : Cell κ} {live : ℕ → Bool} (hok : c.Ok live) (hdone : c.Done)
    (hreach : c.reaches live = true) (hpast : c.submitter.saw = true → c.Past) :
    c.forwards = 1 := by
  obtain ⟨hw, hs⟩ := hdone
  cases hworker : c.worker with
  | finished b =>
    cases hsub : c.submitter with
    | finished b' =>
      rw [Cell.forwards, hworker, hsub]
      cases b' with
      | true =>
        have hlast := hpast (by rw [hsub]; rfl)
        rw [Cell.Past, hworker] at hlast
        simp_all [WorkerSide.forwarded, SubmitterSide.forwarded]
      | false =>
        have hnot := hok.handed hsub hreach
        rw [hworker] at hnot
        cases b
        · exact absurd rfl hnot
        · rfl
    | _ => rw [hsub] at hs; cases hs
  | _ => rw [hworker] at hw; cases hw

omit [Submission κ] in
theorem forwardedOnce (hsound : Sound σ) (hcounts : Counts σ.toShared) (hpast : AllPast σ) :
    ForwardedOnce σ := by
  have honce : ∀ (j k : ℕ) (c : Cell κ) (o : Owner), σ.cells[j]? = some c → c.Done →
      c.owner = some k → σ.owners[k]? = some o → o.queue.count j + o.ran.count j = 1 := by
    intro j k c o hj hdone howner hk
    have hreach : c.reaches σ.live = true := by
      have hlt := (List.getElem?_eq_some_iff.mp hk).1
      simpa [Cell.reaches, howner, Shared.live] using hlt
    have hcount := hsound.counted k o hk j
    rw [Shared.forwards, hj, Option.elim_some, if_pos howner,
      forwards_eq_one (hsound.cells j c hj) hdone hreach fun hsaw => hpast j c hj hsaw hreach]
      at hcount
    exact hcount
  refine ⟨honce, ?_⟩
  intro o ho hdone
  obtain ⟨k, hk⟩ := List.mem_iff_getElem?.mp ho
  have hnodup : o.ran.Nodup := by
    rw [List.nodup_iff_count_le_one]
    intro j
    by_cases hj : j ∈ o.ran
    · obtain ⟨c, hc, howner, _⟩ := hsound.completed hk (j := j)
        (Nat.add_pos_right _ (List.count_pos_iff.mpr hj))
      obtain ⟨c', hc', hboth⟩ := hdone j hj
      cases Option.some.inj (hc.symm.trans hc')
      have hone := honce j k c o hc hboth howner hk
      omega
    · rw [List.count_eq_zero_of_not_mem hj]
      omega
  rw [hcounts o ho, List.sum_toFinset _ hnodup]

theorem along_forwardedOnce {maxsize workers owners : ℕ} {as : List (Action κ)}
    (hlate : Transitions.Along Pool.act TestsLate (Pool.start maxsize workers owners) as) :
    Transitions.Always Pool.act ForwardedOnce (Pool.start maxsize workers owners) as := by
  have hinv : Transitions.Always Pool.act
      (fun σ : Pool κ => Sound σ ∧ Counts σ.toShared ∧ AllPast σ)
      (Pool.start maxsize workers owners) as := by
    refine Transitions.always_of_along ?_ ?_ hlate
    · refine ⟨Sound.start _ _ _, ?_, ?_⟩
      · intro o ho
        rw [List.eq_of_mem_replicate ho]
        rfl
      · intro j c hj
        cases hj
    · rintro σ a σ' ⟨hsound, hcounts, hpast⟩ hc ha
      have hstep := Pool.act_cases ha
      exact ⟨hsound.act ha, hcounts.change hsound (hstep.change hsound),
        hpast.step hsound hc hstep⟩
  exact Transitions.always_imp hinv fun σ h => forwardedOnce h.1 h.2.1 h.2.2

/-- A callback that both sides are about to forward is forwarded twice in the end. -/
theorem doubled_run {σ σ' : Pool κ} {as : List (Action κ)} {j : ℕ} {c : Cell κ} (hsound : Sound σ)
    (hj : σ.cells[j]? = some c) (hd : c.Doubled σ.live)
    (hrun : Transitions.run Pool.act σ as = some σ') :
    Sound σ' ∧ ∃ c', σ'.cells[j]? = some c' ∧ c'.Doubled σ'.live := by
  apply Transitions.run_induction (P := fun σ' : Pool κ => Sound σ' ∧
    ∃ c', σ'.cells[j]? = some c' ∧ c'.Doubled σ'.live) ⟨hsound, c, hj, hd⟩ _ hrun
  rintro σ₁ a σ₂ ⟨hsound₁, c₁, hj₁, hd₁⟩ ha
  have hchange := (Pool.act_cases ha).change hsound₁
  refine ⟨hsound₁.act ha, ?_⟩
  rw [hchange.live_eq]
  obtain ⟨c₂, hj₂, rfl | hm⟩ := hchange.cell_after hj₁
  · exact ⟨c₂, hj₂, hd₁⟩
  · exact ⟨c₂, hj₂, hd₁.move (hsound₁.cells j c₁ hj₁) hm⟩

/-- A step on top of a registration is the registration's. -/
theorem act_register {j : ℕ} {fs : List (Frame κ)} {c : Cell κ}
    (hstack : σ.stack? a = some (.register j :: fs)) (hj : σ.cells[j]? = some c)
    (ha : σ.act a = some σ') :
    ∃ c', c.register σ.live = some c' ∧ σ'.cells[j]? = some c' := by
  have hlt := (List.getElem?_eq_some_iff.mp hj).1
  have hthread : ∀ {late : Bool} {s' : Shared κ} {fs' : List (Frame κ)},
      ThreadStep σ.toShared late (.register j :: fs) s' fs' →
      ∃ c', c.register σ.live = some c' ∧ s'.cells[j]? = some c' := by
    intro late s' fs' hstep
    generalize hstack : Frame.register j :: fs = stack at hstep
    cases hstep with
    | register hc hr =>
      cases hstack
      cases Option.some.inj (hj.symm.trans hc)
      refine ⟨_, hr, ?_⟩
      rw [cells_forwarding, List.getElem?_set_self hlt]
    | put hf _ _ => cases hstack; rcases hf with hf | hf <;> cases hf
    | fallback hf _ => cases hstack; rcases hf with hf | hf <;> cases hf
    | _ => cases hstack
  cases Pool.act_cases ha with
  | check hi => rw [Pool.stack?, hi] at hstack; cases hstack
  | take hi _ => rw [Pool.stack?, hi] at hstack; cases hstack
  | empty hi _ => rw [Pool.stack?, hi] at hstack; cases hstack
  | worker hi hstep =>
    rw [Pool.stack?, hi] at hstack
    cases hstack
    exact hthread hstep
  | caller hi hstep =>
    rw [Pool.stack?, hi] at hstack
    cases hstack
    exact hthread hstep
  | _ => cases hstack

theorem along_testsLate {maxsize workers owners : ℕ} {as : List (Action κ)} {σ' : Pool κ}
    (hrun : Transitions.run Pool.act (Pool.start maxsize workers owners) as = some σ')
    (hdone : ∀ c ∈ σ'.cells, c.Done) (hforwarded : ForwardedOnce σ') :
    Transitions.Along Pool.act TestsLate (Pool.start maxsize workers owners) as := by
  apply Transitions.along_of_forall
  rintro as₁ a as₂ σ rfl hrun₁ j fs c hstack hj href hp hreach
  rw [Transitions.run_append, hrun₁, Option.bind_some] at hrun
  obtain ⟨σ₁, ha, hrun⟩ := Option.bind_eq_some_iff.mp hrun
  have hsound := Sound.run hrun₁
  have hok := hsound.cells j c hj
  obtain ⟨c₁, hr, hj₁⟩ := act_register hstack hj ha
  rw [Cell.register, href, if_neg (by simpa using hp)] at hr
  cases hr
  by_contra hnot
  have hpending : c.worker.pending = false := by
    rw [← Bool.not_eq_true, ← hok.promise_eq_nil]
    exact hp
  -- otherwise the worker forwards the callback too
  have hdoubled : ({ c with submitter := .sawDone } : Cell κ).Doubled σ₁.live := by
    rw [((Pool.act_cases ha).change hsound).live_eq]
    refine ⟨rfl, hreach, ?_⟩
    cases hw : c.worker with
    | queued => rw [hw] at hpending; cases hpending
    | running _ _ => rw [hw] at hpending; cases hpending
    | settled => exact Or.inl rfl
    | forwarding => exact Or.inr (Or.inl rfl)
    | finished b =>
      cases b
      · exact absurd (Or.inl hw) hnot
      · exact Or.inr (Or.inr rfl)
    | drained => exact absurd (Or.inr hw) hnot
  obtain ⟨hsound', c', hj', hd'⟩ := doubled_run (hsound.act ha) hj₁ hdoubled hrun
  have hboth := hdone c' (List.mem_of_getElem? hj')
  obtain ⟨k, hk⟩ := Option.isSome_iff_exists.mp (Cell.reaches_isSome hd'.reaches)
  have hlive : k < σ'.owners.length := by
    simpa [Cell.reaches, hk, Shared.live] using hd'.reaches
  have ho := List.getElem?_eq_getElem hlive
  have hone := hforwarded.once j k c' _ hj' hboth hk ho
  have hcount := hsound'.counted k _ ho j
  rw [Owner.holds, hone, Shared.forwards, hj', Option.elim_some, if_pos hk, Cell.forwards] at hcount
  have hworker : c'.worker.forwarded = true := by
    rcases hd'.worker with hw | hw | hw
    · rw [Cell.Done, hw] at hboth; cases hboth.1
    · rw [Cell.Done, hw] at hboth; cases hboth.1
    · rw [hw]; rfl
  have hsubmitter : c'.submitter.forwarded = true := by
    have hsaw := hd'.saw
    have hfin := hboth.2
    cases hs : c'.submitter <;> rw [hs] at hsaw hfin <;> first | exact hsaw | cases hfin
  rw [hworker, hsubmitter] at hcount
  cases hcount

end Runs

end Pooling

/-! ### The law -/

/-- In a run in which submitters find a promise done only after its worker is past the callback,
every callback is forwarded once. In a run that finishes its jobs this is the only way. -/
theorem callbacks_forwarded_once_iff {κ : Type} [Submission κ] (maxsize workers owners : ℕ)
    (as : List (Action κ)) :
    (Transitions.Along Pool.act TestsLate (Pool.start maxsize workers owners) as →
      Transitions.Always Pool.act ForwardedOnce (Pool.start maxsize workers owners) as) ∧
    ∀ σ, Transitions.run Pool.act (Pool.start maxsize workers owners) as = some σ →
      (∀ c ∈ σ.cells, c.Done) →
      Transitions.Always Pool.act ForwardedOnce (Pool.start maxsize workers owners) as →
      Transitions.Along Pool.act TestsLate (Pool.start maxsize workers owners) as := by
  refine ⟨along_forwardedOnce, ?_⟩
  intro σ hrun hdone honce
  exact along_testsLate hrun hdone (honce as [] σ (by simp) hrun)

/-- A caller registers a callback before the only worker takes its job; then the owner runs it. -/
def singleCallback : List (Action CallArgs) :=
  [.arrive { owner := some 0 } (.mk [] (.ok 5)), .caller 0 false, .caller 0 false,
    .caller 0 false, .caller 0 false, .worker 0 false, .worker 0 false, .worker 0 false,
    .worker 0 false, .worker 0 false, .drain 0]

theorem callback_forwarded_once :
    Transitions.Always Pool.act ForwardedOnce (Pool.start 1 1 1) singleCallback :=
  (callbacks_forwarded_once_iff 1 1 1 singleCallback).1 (by decide +kernel)

/-- A caller registers a callback while the only worker runs its job. -/
def doubleCallback : List (Action CallArgs) :=
  [.arrive { owner := some 0 } (.mk [] (.ok 5)), .caller 0 false,
    .worker 0 false, .worker 0 false,
    -- callback and owner are stored before the worker completes the promise
    .caller 0 false, .caller 0 false, .worker 0 false,
    -- the submitter finds the promise done and forwards, and so does the worker
    .caller 0 false, .caller 0 false, .worker 0 false, .worker 0 false]

theorem callback_forwarded_twice :
    ¬Transitions.Always Pool.act ForwardedOnce (Pool.start 1 1 1) doubleCallback := by
  intro h
  have hone : Transitions.Always Pool.act (fun σ : Pool CallArgs =>
      (σ.cells[0]?).any (fun c => decide c.Done && c.owner == some 0) = true →
        (σ.owners[0]?).all (fun o => o.queue.count 0 + o.ran.count 0 == 1) = true)
      (Pool.start 1 1 1) doubleCallback := by
    refine Transitions.always_imp h ?_
    intro σ hσ hany
    obtain ⟨c, hc, hdone⟩ := (Option.any_eq_true _ _).mp hany
    simp only [Bool.and_eq_true, decide_eq_true_eq, beq_iff_eq] at hdone
    rw [Option.all_eq_true]
    intro o ho
    rw [beq_iff_eq]
    exact hσ.once 0 0 c o hc hdone.1 hdone.2 ho
  exact Transitions.not_always (by decide +kernel) hone

end YtScheduler
