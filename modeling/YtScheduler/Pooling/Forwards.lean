import YtScheduler.Pooling.Places

/-! How often a callback was put on the queue of its owner. Each of the two sides of
a job remembers whether it has put it there, and the owner's queue and the callbacks
it has run together hold the callback as often as the two sides say. -/

namespace YtScheduler.Pooling

open Sequences

variable {κ : Type}

/-- How often the sides of a job have put its callback on a queue. -/
def Cell.forwards (c : Cell κ) : ℕ := c.worker.forwarded.toNat + c.submitter.forwarded.toNat

namespace Cell

variable {live : ℕ → Bool} {c c' : Cell κ}

theorem forwarded_of_active (h : c.worker.active = true) : c.worker.forwarded = false := by
  cases hw : c.worker <;> simp_all [WorkerSide.active, WorkerSide.forwarded]

theorem forwarded_of_not_finished (h : c.submitter.isFinished = false) :
    c.submitter.forwarded = false := by
  cases hs : c.submitter <;> simp_all [SubmitterSide.isFinished, SubmitterSide.forwarded]

theorem owner_work {out : Cell κ × Option (κ × Job κ)} (h : c.work live = some out) :
    out.1.owner = c.owner := by
  rw [Cell.work] at h
  split at h
  · cases h; rfl
  · cases h; rfl
  · split_ifs at h <;> cases h <;> rfl
  · cases h; rfl
  · cases h

theorem forwards_work {out : Cell κ × Option (κ × Job κ)} (h : c.work live = some out) :
    out.1.forwards = c.forwards + out.1.worker.forwarded.toNat := by
  obtain ⟨hactive, hsub, -, -⟩ := work_spec h
  rw [Cell.forwards, Cell.forwards, hsub, forwarded_of_active hactive]
  simp only [Bool.toNat_false]
  omega

theorem forwards_register (h : c.register live = some c') :
    c'.forwards = c.forwards + c'.submitter.forwarded.toNat := by
  obtain ⟨hsub, hworker⟩ := register_spec h
  rw [Cell.forwards, Cell.forwards, hworker, forwarded_of_not_finished hsub]
  simp

/-- The owner is stored before any side has forwarded. -/
theorem owner_register (hok : c.Ok live) (h : c.register live = some c') :
    c'.owner = c.owner ∨ c.forwards = 0 := by
  rw [Cell.register] at h
  split at h
  · cases h; exact Or.inl rfl
  · cases h; exact Or.inl rfl
  · next k hc =>
    cases h
    right
    have hnone := hok.early (by rw [hc]; rfl)
    have hnot : c.worker.forwarded = false := by
      by_contra hf
      simpa [Cell.reaches, hnone] using hok.workerForwarded (by simpa using hf)
    rw [Cell.forwards, hnot, hc]
    rfl
  · split_ifs at h <;> cases h <;> exact Or.inl rfl
  · cases h; exact Or.inl rfl
  · cases h

theorem owner_of_forwarded (h : c.register live = some c') (hf : c'.submitter.forwarded = true) :
    c'.owner = c.owner := by
  rw [Cell.register] at h
  split at h
  · cases h; rfl
  · cases h; rfl
  · cases h; cases hf
  · split_ifs at h <;> cases h <;> rfl
  · cases h; rfl
  · cases h

theorem forwards_raise (message : String) : (c.raise message).forwards = c.forwards := by
  rw [Cell.raise]
  split
  · next hc =>
    rw [Cell.forwards, Cell.forwards, hc]
    rfl
  · rfl

theorem owner_raise (message : String) : (c.raise message).owner = c.owner := by
  rw [Cell.raise]
  split <;> rfl

end Cell

/-- What a step does to the jobs and the owners. -/
inductive Change (s s' : Shared κ) : Prop
  | same (hc : s'.cells = s.cells) (ho : s'.owners = s.owners)
  | new {c : Cell κ} (hok : c.Ok s.live) (hearly : c.submitter.early = true) (hf : c.forwards = 0)
      (hc : s'.cells = s.cells ++ [c]) (ho : s'.owners = s.owners)
  | move {j : ℕ} {c c' : Cell κ} (hj : s.cells[j]? = some c) (hm : c.Move s.live c')
      (howner : c'.owner = c.owner ∨ c.forwards = 0) (hf : c'.forwards = c.forwards)
      (hc : s'.cells = s.cells.set j c') (ho : s'.owners = s.owners)
  | forward {j k : ℕ} {c c' : Cell κ} (hj : s.cells[j]? = some c) (hm : c.Move s.live c')
      (hk : c.owner = some k) (howner : c'.owner = some k) (hf : c'.forwards = c.forwards + 1)
      (hc : s'.cells = s.cells.set j c')
      (ho : s'.owners = s.owners.modify k fun o => { o with queue := o.queue ++ [j] })
  | ran {k j : ℕ} {o : Owner} {rest : List ℕ} (hk : s.owners[k]? = some o)
      (hq : o.queue = j :: rest) (hc : s'.cells = s.cells)
      (ho : s'.owners = s.owners.set k ⟨rest, o.ran ++ [j], o.counter + s.value j⟩)

namespace Change

variable {s s' : Shared κ}

theorem live_eq (h : Change s s') : s'.live = s.live := by
  have hlen : s'.owners.length = s.owners.length := by
    cases h with
    | same _ ho => rw [ho]
    | new _ _ _ _ ho => rw [ho]
    | move _ _ _ _ _ ho => rw [ho]
    | forward _ _ _ _ _ _ ho => rw [ho, List.length_modify]
    | ran _ _ _ ho => rw [ho, List.length_set]
  funext k
  rw [Shared.live, Shared.live, hlen]

/-- A side that has forwarded a callback has put it on the queue of the stored owner. -/
theorem of_forwarded {j : ℕ} {c c' : Cell κ} (hj : s.cells[j]? = some c)
    (hm : c.Move s.live c') {b : Bool} (hf : c'.forwards = c.forwards + b.toNat)
    (howner : c'.owner = c.owner ∨ c.forwards = 0) (hb : b = true → c.reaches s.live = true)
    (hsame : b = true → c'.owner = c.owner) :
    Change s (if b then (s.setCell j c').enqueue j c.owner else s.setCell j c') := by
  cases b with
  | false => exact .move hj hm howner hf rfl rfl
  | true =>
    obtain ⟨k, hk⟩ := Option.isSome_iff_exists.mp (Cell.reaches_isSome (hb rfl))
    refine .forward hj hm hk ((hsame rfl).trans hk) hf rfl ?_
    rw [hk]
    rfl

end Change

/-- How often a callback waits with an owner or was run by it. -/
def Owner.holds (o : Owner) (j : ℕ) : ℕ := o.queue.count j + o.ran.count j

/-- How often job `j` was forwarded to owner `k`. -/
def Shared.forwards (s : Shared κ) (k j : ℕ) : ℕ :=
  (s.cells[j]?).elim 0 fun c => if c.owner = some k then c.forwards else 0

/-- Everything the pool keeps, whatever its threads do. -/
structure Sound (σ : Pool κ) : Prop where
  places : Places σ.toShared σ.frames
  cells : ∀ (j : ℕ) (c : Cell κ), σ.cells[j]? = some c → c.Ok σ.live
  counted : ∀ (k : ℕ) (o : Owner), σ.owners[k]? = some o → ∀ j, o.holds j = σ.forwards k j

section Steps

variable [Submission κ] {s s' : Shared κ} {fs fs' : List (Frame κ)} {late : Bool}

theorem ThreadStep.change (hstep : ThreadStep s late fs s' fs')
    (hok : ∀ (j : ℕ) (c : Cell κ), s.cells[j]? = some c → c.Ok s.live) : Change s s' := by
  cases hstep with
  | @exec j c out fs hc hw =>
    have howner := Cell.owner_work hw
    apply Change.of_forwarded hc (.work hw) (Cell.forwards_work hw) (Or.inl howner)
    · intro hf
      have hreach := ((hok j c hc).work hw).workerForwarded hf
      rwa [Cell.reaches, howner] at hreach
    · exact fun _ => howner
  | @register j c c' fs hc hr =>
    have hsame := Cell.owner_of_forwarded hr
    apply Change.of_forwarded hc (.register hr) (Cell.forwards_register hr)
      (Cell.owner_register (hok j c hc) hr)
    · intro hf
      have hreach := ((hok j c hc).register hr).submitterForwarded hf
      rwa [Cell.reaches, hsame hf] at hreach
    · exact hsame
  | put _ _ _ => exact .new (.new _ _) rfl rfl rfl rfl
  | fallback _ _ => exact .new ((Cell.Ok.new _ _).take rfl) rfl rfl rfl rfl
  | retry _ => exact .same rfl rfl
  | @raise a job fs _ =>
    unfold Shared.raiseFull
    split
    · next j _ =>
      cases hc : s.cells[j]? with
      | none =>
        have hself : s.cells.modify j (fun c => c.raise "queue.Full") = s.cells :=
          List.modify_eq_self (List.getElem?_eq_none_iff.mp hc)
        exact .same hself rfl
      | some c =>
        exact .move hc .raise (Or.inl (c.owner_raise _)) (c.forwards_raise _)
          (modify_eq_set _ hc) rfl
    · exact .same rfl rfl

theorem PoolStep.change {σ σ' : Pool κ} {a : Action κ} (hstep : PoolStep σ a σ')
    (h : Sound σ) : Change σ.toShared σ'.toShared := by
  have hqueued : ∀ {j rest}, σ.queue = j :: rest →
      ∃ c, σ.cells[j]? = some c ∧ c.worker = .queued := by
    intro j rest hq
    exact (h.places.queue.mem j).mp (by rw [hq]; exact List.mem_cons_self)
  cases hstep with
  | arrive => exact .same rfl rfl
  | check _ => exact .same rfl rfl
  | take _ hq =>
    obtain ⟨c, hc, hworker⟩ := hqueued hq
    refine .move hc (.take hworker) (Or.inl rfl) ?_ (modify_eq_set _ hc) rfl
    rw [Cell.forwards, Cell.forwards, hworker]
    rfl
  | empty _ _ => exact .same rfl rfl
  | worker _ hthread => exact hthread.change h.cells
  | caller _ hthread => exact hthread.change h.cells
  | ran hk hq => exact .ran hk hq rfl rfl
  | stop _ => exact .same rfl rfl
  | drained _ hq =>
    obtain ⟨c, hc, hworker⟩ := hqueued hq
    refine .move hc (.drain hworker) (Or.inl rfl) ?_ (modify_eq_set _ hc) rfl
    rw [Cell.forwards, Cell.forwards, hworker]
    rfl
  | emptied _ _ => exact .same rfl rfl
  | joined _ _ => exact .same rfl rfl

end Steps

namespace Change

variable {s s' : Shared κ}

/-- Each job after a step is new, or what became of the job before. -/
theorem cell (h : Change s s') {j : ℕ} {c' : Cell κ} (hj : s'.cells[j]? = some c') :
    s.cells[j]? = none ∧ c'.Ok s.live ∧ c'.submitter.early = true ∨
      ∃ c, s.cells[j]? = some c ∧ (c' = c ∨ c.Move s.live c') := by
  have hset : ∀ {i : ℕ} {c d : Cell κ}, s.cells[i]? = some c → c.Move s.live d →
      s'.cells = s.cells.set i d →
      ∃ c, s.cells[j]? = some c ∧ (c' = c ∨ c.Move s.live c') := by
    intro i c d hi hm hc
    rw [hc, List.getElem?_set] at hj
    split_ifs at hj with hij hlt
    · cases hj
      exact ⟨c, by rw [← hij]; exact hi, Or.inr hm⟩
    · exact ⟨c', hj, Or.inl rfl⟩
  cases h with
  | same hc _ => exact Or.inr ⟨c', by rw [← hc]; exact hj, Or.inl rfl⟩
  | new hok hearly _ hc _ =>
    rw [hc, List.getElem?_append] at hj
    split_ifs at hj with hlt
    · exact Or.inr ⟨c', hj, Or.inl rfl⟩
    · cases hk : j - s.cells.length with
      | zero =>
        rw [hk] at hj
        cases hj
        exact Or.inl ⟨List.getElem?_eq_none (by omega), hok, hearly⟩
      | succ k => simp [hk] at hj
  | move hi hm _ _ hc _ => exact Or.inr (hset hi hm hc)
  | forward hi hm _ _ _ hc _ => exact Or.inr (hset hi hm hc)
  | ran _ _ hc _ => exact Or.inr ⟨c', by rw [← hc]; exact hj, Or.inl rfl⟩

/-- Jobs stay in their places. -/
theorem cell_after (h : Change s s') {j : ℕ} {c : Cell κ} (hj : s.cells[j]? = some c) :
    ∃ c', s'.cells[j]? = some c' ∧ (c' = c ∨ c.Move s.live c') := by
  have hlt := (List.getElem?_eq_some_iff.mp hj).1
  have hlen : s.cells.length ≤ s'.cells.length := by
    cases h with
    | same hc _ => rw [hc]
    | new _ _ _ hc _ => rw [hc, List.length_append]; omega
    | move _ _ _ _ hc _ => rw [hc, List.length_set]
    | forward _ _ _ _ _ hc _ => rw [hc, List.length_set]
    | ran _ _ hc _ => rw [hc]
  have hj' := List.getElem?_eq_getElem (show j < s'.cells.length by omega)
  refine ⟨_, hj', ?_⟩
  rcases h.cell hj' with ⟨hnone, _⟩ | ⟨c₀, hj₀, hmove⟩
  · rw [hj] at hnone
    cases hnone
  · cases Option.some.inj (hj.symm.trans hj₀)
    exact hmove

theorem ok (h : Change s s') (hok : ∀ (j : ℕ) (c : Cell κ), s.cells[j]? = some c → c.Ok s.live)
    (j : ℕ) (c' : Cell κ) (hj : s'.cells[j]? = some c') : c'.Ok s'.live := by
  rw [h.live_eq]
  rcases h.cell hj with ⟨_, hnew, _⟩ | ⟨c, hc, rfl | hm⟩
  · exact hnew
  · exact hok j c' hc
  · exact (hok j c hc).move hm

/-- A job that changes keeps its count with every owner. -/
theorem forwards_set {i : ℕ} {c d : Cell κ} (hi : s.cells[i]? = some c)
    (howner : d.owner = c.owner ∨ c.forwards = 0) (hf : d.forwards = c.forwards)
    (hc : s'.cells = s.cells.set i d) (k j : ℕ) : s'.forwards k j = s.forwards k j := by
  rw [Shared.forwards, Shared.forwards, hc, List.getElem?_set]
  split_ifs with hij hlt
  · subst hij
    rw [hi]
    simp only [Option.elim_some, hf]
    rcases howner with howner | hzero
    · rw [howner]
    · simp [hzero]
  · subst hij
    exact absurd (List.getElem?_eq_some_iff.mp hi).1 hlt
  · rfl

theorem counted (h : Change s s')
    (hcount : ∀ (k : ℕ) (o : Owner), s.owners[k]? = some o → ∀ j, o.holds j = s.forwards k j)
    (k : ℕ) (o : Owner) (hk : s'.owners[k]? = some o) (j : ℕ) : o.holds j = s'.forwards k j := by
  cases h with
  | same hc ho =>
    rw [Shared.forwards, hc]
    exact hcount k o (by rw [← ho]; exact hk) j
  | @new c _ _ hf hc ho =>
    rw [hcount k o (by rw [← ho]; exact hk) j, Shared.forwards, Shared.forwards, hc,
      List.getElem?_append]
    split_ifs with hlt
    · rfl
    · rw [List.getElem?_eq_none (by omega)]
      cases hk : j - s.cells.length with
      | zero => simp [hf]
      | succ n => rfl
  | move hi _ howner hf hc ho =>
    rw [forwards_set hi howner hf hc]
    exact hcount k o (by rw [← ho]; exact hk) j
  | @forward i l c c' hi _ hl howner hf hc ho =>
    rw [ho, List.getElem?_modify] at hk
    obtain ⟨o₀, hk₀, rfl⟩ := Option.map_eq_some_iff.mp hk
    have hold := hcount k o₀ hk₀ j
    rw [Owner.holds, Shared.forwards] at hold
    rw [Owner.holds, Shared.forwards, hc, List.getElem?_set]
    have hlen := (List.getElem?_eq_some_iff.mp hi).1
    by_cases hij : i = j
    · subst hij
      rw [hi] at hold
      simp only [Option.elim_some, hl, if_true, hlen, howner, Option.some.injEq] at hold ⊢
      by_cases hkl : l = k
      · subst hkl
        simp only [if_true, List.count_append, List.count_singleton_self] at hold ⊢
        omega
      · simpa [hkl] using hold
    · rw [if_neg hij]
      by_cases hkl : l = k
      · subst hkl
        simpa [List.count_append, hij] using hold
      · simpa [hkl] using hold
  | @ran l i o₀ rest hl hq hc ho =>
    rw [Shared.forwards, hc]
    rw [ho, List.getElem?_set] at hk
    split_ifs at hk with hkl hlt
    · cases hk
      subst hkl
      have hold := hcount l o₀ hl j
      rw [Owner.holds, hq, List.count_cons, Shared.forwards] at hold
      rw [← hold]
      show rest.count j + (o₀.ran ++ [i]).count j = _
      rw [List.count_append, List.count_singleton]
      omega
    · exact hcount k o hk j

end Change

/-- Every step keeps what the pool keeps. -/
theorem Sound.act [Submission κ] {σ σ' : Pool κ} {a : Action κ} (h : Sound σ)
    (ha : σ.act a = some σ') : Sound σ' := by
  have hstep := Pool.act_cases ha
  have hchange := hstep.change h
  exact ⟨h.places.poolStep hstep, hchange.ok h.cells, hchange.counted h.counted⟩

theorem Sound.start (maxsize workers owners : ℕ) :
    Sound (Pool.start maxsize workers owners : Pool κ) := by
  have hframes : (Pool.start maxsize workers owners : Pool κ).frames = [] := by
    simp [Pool.frames, framesOf, Pool.start, Worker.stack]
  refine ⟨?_, ?_, ?_⟩
  · rw [hframes]
    have hnone : ∀ P : Cell κ → Prop, Lists ([] : List (Cell κ)) P [] := fun P =>
      ⟨List.nodup_nil, by simp⟩
    exact ⟨hnone _, hnone _, hnone _⟩
  · intro j c hc
    simp [Pool.start] at hc
  · intro k o hk j
    have ho : o = {} := List.eq_of_mem_replicate (List.mem_of_getElem? hk)
    rw [ho]
    rfl

/-- Everything holds of every state of a run. -/
theorem Sound.run [Submission κ] {maxsize workers owners : ℕ} {σ : Pool κ} {as : List (Action κ)}
    (h : Transitions.run Pool.act (Pool.start maxsize workers owners) as = some σ) : Sound σ :=
  Transitions.run_induction (Sound.start _ _ _) (fun _ _ _ hs ha => hs.act ha) h

end YtScheduler.Pooling
