import YtScheduler.Completion.Progress
import YtScheduler.Laws.Progress
import YtScheduler.Laws.Rows

/-! A DagRun that is not finished comes to its verdict, once the calls for it are left undisturbed:
whatever happened before, and in whatever order they are made. -/

namespace YtScheduler

open Tablet Threads Graphs

variable {s s' s₁ s₂ : Shared} {n : ℕ} {runId : Uuid}

/-! ### What the tables show of a DagRun -/

/-- The DagRun was finished, or one of its TaskRuns got another state. -/
def Moved (runId : Uuid) (db db' : Db) : Prop :=
  ((db'.dagRun runId).bind fun run => run.state.verdict) ≠ ((db.dagRun runId).bind fun run => run.state.verdict) ∨
    ∃ r r', db.taskRun r.runId = some r ∧ r.dagrunId = runId ∧ db'.taskRun r.runId = some r' ∧
      r'.state ≠ r.state

/-- Calls made one after the other, of which `n` moved the DagRun on. -/
inductive Course (runId : Uuid) : ℕ → Shared → Shared → Prop
  | begin (s : Shared) : Course runId 0 s s
  | stay {n : ℕ} {s s₁ s₂ : Shared} (h : Course runId n s s₁) (ht : Turn s₁ s₂)
      (hsame : ¬Moved runId s₁.db s₂.db) : Course runId n s s₂
  | move {n : ℕ} {s s₁ s₂ : Shared} (h : Course runId n s s₁) (ht : Turn s₁ s₂)
      (hmoved : Moved runId s₁.db s₂.db) : Course runId (n + 1) s s₂

/-- The DagRun is SUCCESS and so are its TaskRuns, or it is FAILED, all its TaskRuns are finished and
some of them has failed. -/
def Concluded (runId : Uuid) (db : Db) : Prop :=
  ∃ run, db.dagRun runId = some run ∧
    ((run.state = .success ∧ ∀ r, db.taskRun r.runId = some r → r.dagrunId = runId → r.state = .success) ∨
      (run.state = .failed ∧ (∃ r, db.taskRun r.runId = some r ∧ r.dagrunId = runId ∧ r.state = .failed) ∧
        ∀ r, db.taskRun r.runId = some r → r.dagrunId = runId → r.state ∈ TaskRunState.finishedStates))

namespace Outline

variable {o : Outline}

/-- What moves the DagRun is what moves the execution. -/
theorem Stands.moved_iff (h : o.Stands s) (h' : o.Stands s') :
    Moved o.runId s.db s'.db ↔ o.execution s'.db ≠ o.execution s.db := by
  constructor
  · rintro (hverdict | ⟨r, r', hr, hown, hr', hstate⟩) he
    · exact hverdict (congrArg Execution.verdict he)
    · have hid := h.only r hr hown
      have hphase := congrFun (congrArg Execution.phase he) r.runId
      rw [phase_eq hid hr] at hphase
      exact hstate ((phase_iff r.state hid hr').mp hphase)
  · intro hne
    by_contra hsame
    rw [Moved, not_or, not_not] at hsame
    refine hne (execution_ext (fun id hid => ?_) hsame.1)
    obtain ⟨r, hr, _⟩ := h.taskRuns id hid
    obtain ⟨r', hr', _⟩ := h'.taskRuns id hid
    obtain rfl := Db.runId_of_taskRun hr
    rw [phase_eq hid hr, phase_eq hid hr']
    by_contra hphase
    exact hsame.2 ⟨r, r', hr, h.own hid hr, hr', fun hs => hphase (by rw [hs])⟩

theorem verdict_eq_some {state : DagRunState} :
    (state.verdict = some true ↔ state = .success) ∧ (state.verdict = some false ↔ state = .failed) := by
  cases state <;> simp [DagRunState.verdict]

/-- An execution that is over is a DagRun that is concluded. -/
theorem Holds.concluded (h : o.Holds s) (hover : (o.execution s.db).Over o.ids) :
    Concluded o.runId s.db := by
  obtain ⟨run, hrun, _⟩ := h.dagRun
  refine ⟨run, hrun, ?_⟩
  rcases h.sound.over hover with ⟨hverdict, hdone⟩ | ⟨hverdict, id, hid, hfailed⟩
  · rw [verdict_eq hrun] at hverdict
    refine Or.inl ⟨verdict_eq_some.1.mp hverdict, fun r hr hown => ?_⟩
    have hid := h.only r hr hown
    exact (phase_iff .success hid hr).mp (hdone _ hid)
  · rw [verdict_eq hrun] at hverdict
    refine Or.inr ⟨verdict_eq_some.2.mp hverdict, ?_, fun r hr hown => ?_⟩
    · obtain ⟨r, hr, _⟩ := h.taskRuns id hid
      obtain rfl := Db.runId_of_taskRun hr
      exact ⟨r, hr, h.own hid hr, (phase_iff .failed hid hr).mp hfailed⟩
    · have hid := h.only r hr hown
      rw [← TaskRunState.isOver_nodePhase, ← phase_eq hid hr]
      exact hover.nodes _ hid

/-- The run lemma: every move lowers the potential. -/
theorem Holds.course (h : o.Holds s) (hc : Course o.runId n s s') :
    o.Holds s' ∧ n + (o.execution s'.db).potential o.ids ≤ (o.execution s.db).potential o.ids := by
  induction hc with
  | begin s => exact ⟨h, by omega⟩
  | stay hc ht hsame ih =>
    obtain ⟨h₁, hle⟩ := ih h
    obtain ⟨h₂, _⟩ := h₁.turn ht
    rw [h₁.moved_iff h₂.toStands, not_not] at hsame
    exact ⟨h₂, by rwa [hsame]⟩
  | move hc ht hmoved ih =>
    obtain ⟨h₁, hle⟩ := ih h
    obtain ⟨h₂, hcases⟩ := h₁.turn ht
    rw [h₁.moved_iff h₂.toStands] at hmoved
    have hlt := (hcases.resolve_left hmoved).potential_lt
    exact ⟨h₂, by omega⟩

/-- After the end nothing moves. -/
theorem Holds.rests (h : o.Holds s) (hover : (o.execution s.db).Over o.ids) (ht : Turn s s') :
    ¬Moved o.runId s.db s'.db := by
  obtain ⟨h', hcases⟩ := h.turn ht
  rw [h.moved_iff h'.toStands]
  intro hmoved
  have hlt := (hcases.resolve_left hmoved).potential_lt
  rw [hover.potential_eq] at hlt
  exact Nat.not_lt_zero _ hlt

end Outline

/-! ### DagRuns of a consistent state -/

namespace Consistent

variable {run : DagRunRow} {dag : Dag}

/-- The TaskRuns of a DagRun. -/
def ownTaskRuns (db : Db) (runId : Uuid) : List TaskRunRow := db.taskRuns.filter fun r => r.dagrunId = runId

theorem mem_ownTaskRuns {db : Db} {r : TaskRunRow} :
    r ∈ ownTaskRuns db runId ↔ db.taskRun r.runId = some r ∧ r.dagrunId = runId := by
  rw [ownTaskRuns, List.mem_filter, decide_eq_true_eq, Db.mem_taskRuns]

/-- A DagRun that was queued has one TaskRun for each task of its DAG. -/
theorem perm_ownTaskRuns (hc : Consistent s) (hplain : s.PlainDags) (hrun : s.db.dagRun runId = some run)
    (hqueued : run.state ≠ .scheduled) (hdag : s.dag? run.dagId = some dag) :
    ((ownTaskRuns s.db runId).map TaskRunRow.taskId).Perm dag.taskIds := by
  obtain ⟨dag', hdag', hone, hall⟩ := (hc.oneTaskRunPerTask hplain).others runId run hrun hqueued
  rw [hdag] at hdag'
  obtain rfl := Option.some.inj hdag'
  have hids : ((ownTaskRuns s.db runId).map TaskRunRow.runId).Nodup :=
    (List.filter_sublist.map _).nodup (Db.nodup_all s.db)
  have htasks : dag.taskIds.Nodup := dag.nodup
  rw [List.perm_ext_iff_of_nodup ((List.Nodup.of_map _ hids).map_on ?_) htasks]
  · intro taskId
    constructor
    · intro htask
      obtain ⟨r, hr, rfl⟩ := List.mem_map.mp htask
      obtain ⟨hget, hown⟩ := mem_ownTaskRuns.mp hr
      exact hall _ r hget hown
    · intro htask
      obtain ⟨id, ⟨r, hget, hown, rfl⟩, _⟩ := hone taskId htask
      have hid := Db.runId_of_taskRun hget
      exact List.mem_map_of_mem (mem_ownTaskRuns.mpr ⟨by rwa [hid], hown⟩)
  · intro r hr r' hr' htask
    obtain ⟨hget, hown⟩ := mem_ownTaskRuns.mp hr
    obtain ⟨hget', hown'⟩ := mem_ownTaskRuns.mp hr'
    have hid := hc.db.unique _ r _ r' hget hget' (hown.trans hown'.symm) htask
    rw [← hid, hget] at hget'
    exact Option.some.inj hget'

/-- A DagRun that was queued is the execution of a graph. -/
theorem exists_outline (hc : Consistent s) (hclosed : s.Closed) (hplain : s.PlainDags)
    (hrun : s.db.dagRun runId = some run) (hqueued : run.state ≠ .scheduled)
    (hdag : s.dag? run.dagId = some dag) (hne : dag.tasks ≠ []) (hacyclic : Acyclic dag.Upstream)
    (href : dagRefsOf run.dagId s.db ≠ []) :
    ∃ o : Outline, o.runId = runId ∧ o.dag = dag ∧ o.Stands s := by
  let task : Uuid → String := fun id => ((s.db.taskRun id).map TaskRunRow.taskId).getD ""
  have htask : ((ownTaskRuns s.db runId).map TaskRunRow.runId).map task =
      (ownTaskRuns s.db runId).map TaskRunRow.taskId := by
    rw [List.map_map]
    refine List.map_congr_left fun r hr => ?_
    simp [task, (mem_ownTaskRuns.mp hr).1]
  have hdagId := s.dagId_of_dag? hdag
  let o : Outline :=
    { runId, dag, task, nonempty := hne, acyclic := hacyclic
      ids := (ownTaskRuns s.db runId).map TaskRunRow.runId
      perm := by
        rw [htask]
        exact hc.perm_ownTaskRuns hplain hrun hqueued hdag }
  refine ⟨o, rfl, rfl, hclosed, hplain, ?_, ?_, ⟨run, hrun, ?_, hqueued⟩, ?_, ?_⟩
  · rw [hdagId]
    exact hdag
  · rwa [hdagId]
  · show run.ident = ⟨runId, dag.dagId⟩
    rw [hdagId, ← Db.runId_of_dagRun hrun]
    rfl
  · intro id hid
    obtain ⟨r, hr, rfl⟩ := List.mem_map.mp hid
    obtain ⟨hget, hown⟩ := mem_ownTaskRuns.mp hr
    obtain ⟨run', _, hrun', _, hdagRun, _⟩ := hc.db.owner _ r hget
    rw [hown, hrun] at hrun'
    obtain rfl := Option.some.inj hrun'
    refine ⟨r, hget, ?_⟩
    rw [TaskRunRow.ident, Outline.ident, hown, hdagRun, ← hdagId]
    simp [o, task, hget]
  · intro r hget hown
    exact List.mem_map_of_mem (mem_ownTaskRuns.mpr ⟨hget, hown⟩)

end Consistent

/-! ### From any reachable state -/

/-- Thread 0 queues the DagRun of `chainRun`, and nothing else happens. -/
def queueing : List Step := .spawn (.queueRun 1 1) :: calls 0 19

theorem scheduling_queueing : Scheduling chainRun queueing :=
  ⟨initial_chainRun, by decide +kernel⟩

theorem closed_queueing {σ : State} (hr : system.run chainRun queueing = some σ)
    (hopen : σ.shared.opened (.thread 0) = []) (hlength : σ.threads.length = 1) : σ.shared.Closed := by
  intro j
  cases j with
  | zero => exact hopen
  | succ j =>
    refine (scheduling_queueing.sound hr).fresh (j + 1) ?_
    rw [hlength]
    exact Nat.le_add_left 1 j

/-- The DagRun is QUEUED and its DagRef is there, no TaskRun is SKIPPED, and the transaction is over. -/
theorem queueing_leaves : ∃ σ, system.run chainRun queueing = some σ ∧ σ.shared.Closed ∧
    (∃ run, σ.shared.db.dagRun 1 = some run ∧ run.state = .queued ∧ run.dagId = 0) ∧
    (∀ r ∈ σ.shared.db.taskRuns, r.state ≠ .skipped) ∧ dagRefsOf 0 σ.shared.db ≠ [] := by
  have hall : (system.run chainRun queueing).any (fun σ => (σ.shared.opened (.thread 0)).isEmpty &&
      (σ.threads.length = 1 && ((σ.shared.db.dagRun 1).any (fun run => run.state = .queued && run.dagId = 0) &&
        (σ.shared.db.taskRuns.all (fun r => r.state ≠ .skipped) &&
          !(dagRefsOf 0 σ.shared.db).isEmpty)))) = true := by
    decide +kernel
  simp only [Option.any_eq_true, Bool.and_eq_true, decide_eq_true_eq, List.isEmpty_iff, List.all_eq_true,
    Bool.not_eq_true', List.isEmpty_eq_false_iff] at hall
  obtain ⟨σ, hr, hopen, hlength, hrun, hskipped, href⟩ := hall
  exact ⟨σ, hr, closed_queueing hr hopen hlength, hrun, hskipped, href⟩

end YtScheduler
