import YtScheduler.Laws.Rows

/-! When an executor forgets a pending run. The callback of a poll reads `run_id` when it
is drained, after the loop has assigned it for the last time, and it is forwarded whether
the `set_state` job has returned or raised. A run is forgotten after its outcome was stored
if callbacks are registered in the last round of a poll only and no final job raises. -/

namespace YtScheduler

open Tablet Threads

variable {σ σ' σ₀ : State} {a : Step} {as : List Step}

/-! ### What is forgotten -/

namespace Mem

variable {m : Mem} {k : ℕ} {svc svc' : Service}

/-- The keys of `_pending_operations` of a service. -/
def pendingOperations (m : Mem) (k : ℕ) : List Uuid :=
  (m.services[k]?).elim [] fun svc => svc.pendingOperations.map Item.runId

/-- The keys of `_pending_task_runs` of a service. -/
def pendingTaskRuns (m : Mem) (k : ℕ) : List Uuid :=
  (m.services[k]?).elim [] fun svc => svc.pendingTaskRuns.map Item.runId

/-- The two maps of a service change when an operation is added and when a callback of a poll
is drained. -/
theorem service_exec (i pick : ℕ) (o : MemOp) (h : m.services[k]? = some svc) :
    ∃ svc', (m.exec i pick o).2.services[k]? = some svc' ∧
      (svc'.pendingOperations = svc.pendingOperations ∧ svc'.pendingTaskRuns = svc.pendingTaskRuns ∨
      (∃ runId operation tr, svc' = svc.addPending runId operation tr) ∨
      ∃ f fr, o = .finalize f ∧ m.frames[f]? = some fr ∧ fr.svc = k ∧
        svc' = svc.popPending fr.runId) := by
  have hsame : ∃ svc', m.services[k]? = some svc' ∧
      (svc'.pendingOperations = svc.pendingOperations ∧ svc'.pendingTaskRuns = svc.pendingTaskRuns ∨
      (∃ runId operation tr, svc' = svc.addPending runId operation tr) ∨
      ∃ f fr, o = .finalize f ∧ m.frames[f]? = some fr ∧ fr.svc = k ∧
        svc' = svc.popPending fr.runId) := ⟨svc, h, Or.inl ⟨rfl, rfl⟩⟩
  have hon : ∀ (k' : ℕ) (g : Service → Service), (m.onService k' g).services[k]? =
      some (if k' = k then g svc else svc) := by
    intro k' g
    simp only [onService, List.getElem?_modify, h]
    split_ifs <;> rfl
  have hforward : ∀ q, ∃ svc', (m.forward q).services[k]? = some svc' ∧
      svc'.pendingOperations = svc.pendingOperations ∧ svc'.pendingTaskRuns = svc.pendingTaskRuns := by
    intro q
    unfold forward
    split
    · refine ⟨_, hon _ _, ?_, ?_⟩ <;> split_ifs <;> rfl
    · exact ⟨svc, h, rfl, rfl⟩
  cases o with
  | newService =>
    have hlt := (List.getElem?_eq_some_iff.mp h).1
    exact ⟨svc, by simpa only [exec, List.getElem?_append_left hlt] using h, Or.inl ⟨rfl, rfl⟩⟩
  | takeCallback k' => exact ⟨_, hon _ _, Or.inl (by split_ifs <;> exact ⟨rfl, rfl⟩)⟩
  | addCreated k' n => exact ⟨_, hon _ _, Or.inl (by split_ifs <;> exact ⟨rfl, rfl⟩)⟩
  | takeCreated k' => exact ⟨_, hon _ _, Or.inl (by split_ifs <;> exact ⟨rfl, rfl⟩)⟩
  | addPending k' runId operation tr =>
    refine ⟨_, hon _ _, ?_⟩
    split_ifs
    · exact Or.inr (Or.inl ⟨runId, operation, tr, rfl⟩)
    · exact Or.inl ⟨rfl, rfl⟩
  | finalize f =>
    simp only [exec]
    split
    · rename_i fr hfr
      refine ⟨_, hon _ _, ?_⟩
      split_ifs with hk
      · exact Or.inr (Or.inr ⟨f, fr, rfl, hfr, hk, rfl⟩)
      · exact Or.inl ⟨rfl, rfl⟩
    · exact hsame
  | nextItem f =>
    simp only [exec]
    split <;> exact hsame
  | takeJob =>
    simp only [exec]
    repeat' split
    all_goals exact hsame
  | forwardIfDone q =>
    simp only [exec]
    split
    · obtain ⟨svc', h', hp⟩ := hforward q
      exact ⟨svc', h', Or.inl hp⟩
    · exact hsame
  | forwardCallback q =>
    obtain ⟨svc', h', hp⟩ := hforward q
    exact ⟨svc', h', Or.inl hp⟩
  | _ => exact hsame

end Mem

/-- The run is taken out of a map of service `k`. -/
def Forgets (m m' : Mem) (k : ℕ) (runId : Uuid) : Prop :=
  runId ∈ m.pendingOperations k ∧ runId ∉ m'.pendingOperations k ∨
    runId ∈ m.pendingTaskRuns k ∧ runId ∉ m'.pendingTaskRuns k

instance (m m' : Mem) (k : ℕ) (runId : Uuid) : Decidable (Forgets m m' k runId) := by
  unfold Forgets
  infer_instance

theorem mem_keys_put {β : Type} {x : Item β} {xs : List (Item β)} {runId : Uuid}
    (h : runId ∈ xs.map Item.runId) : runId ∈ (Table.put x xs).map Item.runId := by
  show runId ∈ (Table.put x xs).map Keyed.key
  rw [Table.keys_put]
  split_ifs
  · exact h
  · exact List.mem_append_left _ h

theorem mem_keys_filter {β : Type} {xs : List (Item β)} {runId runId' : Uuid}
    (h : runId ∈ xs.map Item.runId) (hne : runId ≠ runId') :
    runId ∈ (xs.filter (·.runId ≠ runId')).map Item.runId := by
  obtain ⟨x, hx, rfl⟩ := List.mem_map.mp h
  exact List.mem_map_of_mem (List.mem_filter.mpr ⟨hx, by simpa using hne⟩)

/-- Only the callback of a poll takes a run out, the one its variables name. -/
theorem Forgets.finalize {m : Mem} {i pick k : ℕ} {o : MemOp} {runId : Uuid}
    (h : Forgets m (m.exec i pick o).2 k runId) :
    ∃ f fr, o = .finalize f ∧ m.frames[f]? = some fr ∧ fr.svc = k ∧ fr.runId = runId := by
  cases hsvc : m.services[k]? with
  | none => simp [Forgets, Mem.pendingOperations, Mem.pendingTaskRuns, hsvc] at h
  | some svc =>
    obtain ⟨svc', hsvc', hcase⟩ := Mem.service_exec i pick o hsvc
    simp only [Forgets, Mem.pendingOperations, Mem.pendingTaskRuns, hsvc, hsvc', Option.elim_some] at h
    rcases hcase with ⟨h1, h2⟩ | ⟨runId', operation, tr, rfl⟩ | ⟨f, fr, rfl, hfr, hk, rfl⟩
    · rw [h1, h2] at h
      rcases h with h | h <;> exact absurd h.1 h.2
    · rcases h with h | h <;> exact absurd (mem_keys_put h.1) h.2
    · refine ⟨f, fr, rfl, hfr, hk, ?_⟩
      by_contra hne
      rcases h with h | h <;> exact absurd (mem_keys_filter h.1 (Ne.symm hne)) h.2

/-! ### What is stored -/

/-- The `set_state` job that service `k` submitted for the run returned, and the outcome it sets
was written. -/
structure SettledBy (s : Shared) (k : ℕ) (runId : Uuid) (e : Queueable) (u : UpdateRow) : Prop where
  callback : ∃ f, e.callback = some (k, .finalize f)
  job : e.fn = .setState [u]
  names : Names s runId u.row
  finishes : u.finishes = true
  returned : ∃ r, e.result = some (.ok r)
  written : Written s u

def Settled (s : Shared) (k : ℕ) (runId : Uuid) : Prop :=
  ∃ e ∈ s.mem.queueables, ∃ u, SettledBy s k runId e u

/-- A settled run was written in a terminal state. -/
theorem Settled.terminal {s : Shared} {k : ℕ} {runId : Uuid} (h : Settled s k runId) :
    ∃ c ∈ s.store.log, ∃ t, .taskRun t ∈ c.rows ∧ t.runId = runId ∧
      t.state ∈ TaskRunState.finishedStates := by
  obtain ⟨e, _, u, hs⟩ := h
  obtain ⟨c, hc, t, ht, hn, hst⟩ := hs.written
  have hfin := hs.finishes
  rw [UpdateRow.finishes, Bool.and_eq_true, hst] at hfin
  exact ⟨c, hc, t, ht, hn.unique hs.names, by simpa using hfin.1⟩

/-- Whatever a service forgets is settled. -/
def ForgetsSettled (s s' : Shared) : Prop :=
  ∀ k runId, Forgets s.mem s'.mem k runId → Settled s k runId

/-- The job finishes a run. -/
def Job.finishes : Job → Bool
  | .setState rows => rows.any UpdateRow.finishes
  | _ => false

/-- A callback of a poll is registered when its loop has no more items, and no job that finishes
a run raises. -/
def MemOp.Delivers (m : Mem) : MemOp → Prop
  | .setCallback _ _ (.finalize f) => ∀ fr, m.frames[f]? = some fr → fr.remaining = []
  | .setResult q (.error _) => ∀ e, m.queueables[q]? = some e → e.fn.finishes = false
  | _ => True

instance (m : Mem) : DecidablePred (MemOp.Delivers m) := fun o => by
  unfold MemOp.Delivers
  split <;> infer_instance

def Delivers (σ : State) (a : Step) : Prop := ∀ o, Accesses σ a o → o.Delivers σ.shared.mem

instance (σ : State) (a : Step) : Decidable (Delivers σ a) := by
  unfold Delivers
  infer_instance

/-! ### The invariant -/

/-- A registered callback finalizes the run of its job, and no job that finishes a run raised. -/
structure Settles (s : Shared) : Prop where
  registered : ∀ (q : ℕ) (e : Queueable) k f, s.mem.queueables[q]? = some e →
    e.callback = some (k, .finalize f) → Registers s k f e.fn
  ended : ∀ (q : ℕ) (e : Queueable) k f, s.mem.queueables[q]? = some e →
    e.callback = some (k, .finalize f) → ∀ fr, s.mem.frames[f]? = some fr → fr.remaining = []
  returned : ∀ (q : ℕ) (e : Queueable), s.mem.queueables[q]? = some e → e.fn.finishes = true →
    ∀ x, e.result ≠ some (.error x)

theorem Registers.mono {s s' : Shared} {k f : ℕ} {fn : Job} (h : Registers s k f fn)
    (hg : Grows s s') (hend : ∀ fr, s.mem.frames[f]? = some fr → fr.remaining = []) :
    Registers s' k f fn ∧ ∀ fr, s'.mem.frames[f]? = some fr → fr.remaining = [] := by
  obtain ⟨fr, u, hfr, hk, hfn, hn, hfin⟩ := h
  obtain ⟨fr', hfr', _, _, heq⟩ := hg.mem.frames f fr hfr
  obtain rfl := heq (hend fr hfr)
  refine ⟨⟨fr', u, hfr', hk, hfn, hn.mono hg, hfin⟩, fun fr'' hfr'' => ?_⟩
  obtain rfl := Option.some.inj (hfr'.symm.trans hfr'')
  exact hend _ hfr

/-- A step leaves the memory alone or is an access that is accounted for. -/
theorem access_of_act (h : SoundState σ) (ha : system.act σ a = some σ') :
    σ'.shared.mem = σ.shared.mem ∨ ∃ i pick o, Accesses σ a o ∧ o.Ok i σ.shared ∧
      σ'.shared.mem = (σ.shared.mem.exec i pick o).2 := by
  cases a with
  | spawn e => cases ha; exact Or.inl rfl
  | step i ch =>
    obtain ⟨l, o, k, hth, rfl, howed, _⟩ := h.step ha
    by_cases hmem : ∃ b, o = .mem b
    · obtain ⟨b, rfl⟩ := hmem
      exact Or.inr ⟨i, ch.pick, b, ⟨i, ch, l, k, rfl, hth⟩, howed.guar.access b rfl, rfl⟩
    · exact Or.inl (Op.exec_mem (fun b hb => hmem ⟨b, hb⟩) i ch l σ.shared)

/-- The step lemma. -/
theorem Settles.act (h : SoundState σ) (hs : Settles σ.shared) (hc : Delivers σ a)
    (ha : system.act σ a = some σ') : Settles σ'.shared := by
  have hg := (guarantees_of_act h ha).1
  rcases access_of_act h ha with hm | ⟨i, pick, o, hacc, ho, hm⟩
  · refine ⟨fun q e k f he hcb => ?_, fun q e k f he hcb => ?_, fun q e he => ?_⟩ <;> rw [hm] at he
    · exact ((hs.registered q e k f he hcb).mono hg (hs.ended q e k f he hcb)).1
    · exact ((hs.registered q e k f he hcb).mono hg (hs.ended q e k f he hcb)).2
    · exact hs.returned q e he
  have hcb' : ∀ (q : ℕ) (e : Queueable) k f, σ'.shared.mem.queueables[q]? = some e →
      e.callback = some (k, .finalize f) → Registers σ'.shared k f e.fn ∧
        ∀ fr, σ'.shared.mem.frames[f]? = some fr → fr.remaining = [] := by
    intro q e k f he hcb
    rw [hm] at he
    rcases Mem.getElem?_queueables_exec he with
      ⟨fn, _, _, rfl⟩ | ⟨e₀, he₀, _, hfn, hold | ⟨k', cb, rfl, hset⟩, _⟩
    · cases hcb
    · rw [hold] at hcb
      rw [hfn]
      exact (hs.registered q e₀ k f he₀ hcb).mono hg (hs.ended q e₀ k f he₀ hcb)
    · rw [hset] at hcb
      cases hcb
      rw [hfn]
      exact (ho.2.2 f rfl _ (by rw [Shared.fn?, he₀, Option.map_some])).mono hg (hc _ hacc)
  refine ⟨fun q e k f he hcb => (hcb' q e k f he hcb).1,
    fun q e k f he hcb => (hcb' q e k f he hcb).2, fun q e he hfin x hx => ?_⟩
  rw [hm] at he
  rcases Mem.getElem?_queueables_exec he with
    ⟨fn, _, _, rfl⟩ | ⟨e₀, he₀, _, hfn, _, hold | ⟨r, rfl, hset⟩⟩
  · cases hx
  · exact hs.returned q e₀ he₀ (hfn ▸ hfin) x (hold.symm.trans hx)
  · obtain rfl : r = .error x := Option.some.inj (hset.symm.trans hx)
    have hno := hc _ hacc e₀ he₀
    rw [← hfn, hfin] at hno
    cases hno

/-- What is forgotten in a step was settled before. -/
theorem Settles.forgets (h : SoundState σ) (hs : Settles σ.shared)
    (ha : system.act σ a = some σ') : ForgetsSettled σ.shared σ'.shared := by
  intro k runId hf
  rcases access_of_act h ha with hm | ⟨i, pick, o, _, ho, hm⟩
  · rw [hm] at hf
    rcases hf with hf | hf <;> exact absurd hf.1 hf.2
  · rw [hm] at hf
    obtain ⟨f, fr, rfl, hfr, rfl, rfl⟩ := hf.finalize
    obtain ⟨q, e, k, he, hcb, hres⟩ := ho
    obtain ⟨fr', u, hfr', rfl, hfn, hname, hfin⟩ := hs.registered q e k f he hcb
    obtain rfl := Option.some.inj (hfr.symm.trans hfr')
    have hmem := List.mem_of_getElem? he
    obtain ⟨res, hres⟩ := Option.isSome_iff_exists.mp hres
    cases res with
    | error x => exact absurd hres (hs.returned q e he (by simp [Job.finishes, hfn, hfin]) x)
    | ok r =>
      have hok := (h.inv.mem.queueables e hmem).result r hres
      rw [hfn] at hok
      have hreq : u.requires.nonempty = false := by
        rw [UpdateRow.finishes, Bool.and_eq_true] at hfin
        simpa using hfin.2
      exact ⟨e, hmem, u, ⟨f, hcb⟩, hfn, hname, hfin, ⟨r, hres⟩, hok u (List.mem_singleton_self u) hreq⟩

theorem Initial.settles (h : Initial σ) : Settles σ.shared := by
  refine ⟨?_, ?_, ?_⟩ <;> simp [h.mem]

/-- An executor forgets a run only when the job submitted for it has stored its outcome, in a run
in which callbacks are registered last and no job that finishes a run raises. -/
theorem forgotten_runs_settled (h : Scheduling σ₀ as) (hc : system.Along Delivers σ₀ as) :
    system.EachStep (fun σ σ' => ForgetsSettled σ.shared σ'.shared) σ₀ as := by
  rintro as₁ a as₂ σ₁ σ' rfl h1 ha
  have h₁ : Scheduling σ₀ as₁ :=
    ⟨h.initial, fun b hb => h.within b (List.mem_append_left (a :: as₂) hb)⟩
  have hs := h₁.always (P := fun σ => Settles σ.shared) h.initial.settles
    (fun _ _ _ hσ hP hC hact => hP.act hσ hC hact) (Machine.along_left hc)
  exact Settles.forgets (h₁.sound h1) (hs as₁ [] σ₁ (by simp) h1) ha

/-- The executor finds the operation of the root completed and submits its `set_state` job. -/
def completed : List Step :=
  starts ++ calls 1 7 ++ .step 1 { status := .completed } :: calls 1 4

/-- The job returns and its callback is drained. -/
def settles : List Step := completed ++ .step 2 { pick := 2 } :: calls 2 6 ++ calls 1 3

/-- The upsert of the job fails, and its callback is drained next. -/
def raises : List Step :=
  completed ++ .step 2 { pick := 2 } :: calls 2 2 ++ .step 2 { fail := some .runtime } :: calls 2 2 ++
    calls 1 2

theorem forgotten_runs_settled_settles :
    system.EachStep (fun σ σ' => ForgetsSettled σ.shared σ'.shared) chainRun settles :=
  forgotten_runs_settled ⟨initial_chainRun, by decide +kernel⟩ (by decide +kernel)

theorem forgotten_run_unsettled : ¬∀ σ₀ as, Scheduling σ₀ as →
    system.EachStep (fun σ σ' => ForgetsSettled σ.shared σ'.shared) σ₀ as := by
  intro h
  have hno : ¬system.EachStep (fun σ σ' => Forgets σ.shared.mem σ'.shared.mem 0 2 →
      ¬∀ c ∈ σ.shared.store.log, ∀ t, .taskRun t ∈ c.rows →
        t.state ∉ TaskRunState.finishedStates) chainRun (raises ++ [.step 1 {}]) :=
    Machine.not_eachStep (by decide +kernel)
  refine hno fun as₁ a as₂ σ₁ σ₂ has h1 h2 hf hnone => ?_
  obtain ⟨c, hc, t, ht, _, hst⟩ :=
    (h _ _ ⟨initial_chainRun, by decide +kernel⟩ as₁ a as₂ σ₁ σ₂ has h1 h2 0 2 hf).terminal
  exact hnone c hc t ht hst

end YtScheduler
