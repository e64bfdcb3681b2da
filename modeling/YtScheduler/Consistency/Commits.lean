import YtScheduler.Consistency.Memory

/-! The commits that reach the tables while DagRuns are queued, examined and executed,
each with what its writer knew: the three transactions of the scheduler relate what
they write to the snapshot they read, the executor writes one batch at a time
without a transaction. Every commit creates the TaskRuns of a run or replaces rows. -/

namespace YtScheduler

open Tablet

/-- What `update_state` writes about a DagRun, having read the tables `db` and of them the
TaskRuns `trs`. -/
structure Verdict (db : Db) (trs : List TaskRunRow) (run : DagRunRow) (skipped : List TaskRunRow) :
    Prop where
  persisted : ∃ run₀, db.dagRun run.runId = some run₀ ∧ run.ident = run₀.ident ∧
    run₀.state ≠ .scheduled
  decided : run.state = .failed ∨ run.state = .success ∨ run.state = .running
  failed : run.state = .failed ↔ ∃ t ∈ trs, t.state = .failed
  running : run.state = .running ↔ (∀ t ∈ trs, t.state ≠ .failed) ∧ ∃ t ∈ trs, t.state ≠ .success
  skips : ∀ t ∈ skipped, t.state = .skipped ∧ run.state = .failed ∧ ∃ t₀ ∈ trs,
    db.taskRun t.runId = some t₀ ∧ t.ident = t₀.ident ∧
      (t₀.state = .scheduled ∨ t₀.state = .queued)
  waiting : run.state = .failed → ∀ t₀ ∈ trs, t₀.state = .scheduled ∨ t₀.state = .queued →
    ∃ t ∈ skipped, t.runId = t₀.runId

/-- `update_state` finds the TaskRun `tid` ready among the TaskRuns `trs`. -/
structure Ready (dag : Dag) (trs : List TaskRunRow) (tid : Uuid) : Prop where
  noneFailed : ∀ t ∈ trs, t.state ≠ .failed
  upstream : ∃ t ∈ trs, t.runId = tid ∧ t.state = .scheduled ∧
    ∀ u ∈ DagRun.upstream dag t.taskId, ∃ up ∈ trs, up.taskId = u ∧
      up.state ∈ TaskRunState.finishedStates

/-- A commit of `update_state` by thread `i` found the TaskRuns ready. -/
def Decided (i : ℕ) (s : Shared) (runId : Uuid) (tids : List Uuid) : Prop :=
  ∃ c ∈ s.store.log, c.author = i ∧ c.inTx = true ∧ c.start ≤ s.store.now ∧
    ∃ run dag, .dagRun run ∈ c.rows ∧ run.runId = runId ∧
      (∃ run₀, Db.dagRun (s.store.asOf c.start) run.runId = some run₀ ∧ run.ident = run₀.ident) ∧
      s.dag? run.dagId = some dag ∧
      ∀ tid ∈ tids, Ready dag (DagRun.readTrs s.engine (s.store.asOf c.start) run dag) tid

/-- What `schedule_trs` writes for a DagRun, having read the tables `db`. -/
structure Releases (i : ℕ) (s : Shared) (db : Db) (runId : Uuid) (trs : List TaskRunRow) :
    Prop where
  queues : ∀ t ∈ trs, t.state = .queued ∧ ∃ t₀, db.taskRun t.runId = some t₀ ∧
    t.ident = t₀.ident ∧ t₀.state = .scheduled ∧ t₀.dagrunId = runId
  decided : Decided i s runId (trs.map TaskRunRow.runId)

/-- What `queue_run_atomic` writes for a DagRun, having read the tables `db`. -/
structure Queues (s : Shared) (db : Db) (run : DagRunRow) (dag : Dag)
    (trs : List TaskRunRow) : Prop where
  persisted : ∃ run₀, db.dagRun run.runId = some run₀ ∧ run.ident = run₀.ident ∧
    run₀.state = .scheduled
  queued : run.state = .queued
  loaded : s.dag? run.dagId = some dag
  complete : dag.Plain → ∀ taskId ∈ dag.taskIds, ∃ t ∈ trs, t.taskId = taskId
  tasks : ∀ t ∈ trs, t.taskId ∈ dag.taskIds
  unique : ∀ t ∈ trs, ∀ t' ∈ trs, t.taskId = t'.taskId → t = t'
  ids : ∀ t ∈ trs, ∀ t' ∈ trs, t.runId = t'.runId → t = t'
  unused : ∀ t ∈ trs, db.taskRun t.runId = none ∧ s.db.dagRun t.runId = none ∧
    t.runId < s.uuids
  owner : ∀ t ∈ trs, t.dagrunId = run.runId ∧ t.dagId = run.dagId
  state : ∀ t ∈ trs, t.state = .queued ∨ t.state = .scheduled

/-- The commits of thread `i` in state `s`, by the operation that makes them. -/
inductive Committed (i : ℕ) (s : Shared) : Op → Commit Row → Prop
  | queues {ts : ℕ} {run : DagRunRow} {dag : Dag} {trs : List TaskRunRow}
      (h : Queues s (s.store.asOf ts) run dag trs) :
      Committed i s (.commitTx none) ⟨i, true, ts, batch run trs⟩
  | verdict {ts : ℕ} {run : DagRunRow} {dag : Dag} {skipped : List TaskRunRow}
      (hdag : s.dag? run.dagId = some dag)
      (h : Verdict (s.store.asOf ts) (DagRun.readTrs s.engine (s.store.asOf ts) run dag) run skipped) :
      Committed i s (.commitTx none) ⟨i, true, ts, batch run skipped⟩
  | releases {ts : ℕ} {runId : Uuid} {trs : List TaskRunRow}
      (h : Releases i s (s.store.asOf ts) runId trs) :
      Committed i s (.commitTx none) ⟨i, true, ts, trs.map .taskRun⟩
  | setsTaskRuns {st : TaskRunState} {trs : List TaskRunRow} (hst : st ≠ .queued)
      (h : ∀ t ∈ trs, t.state = st ∧ SetsTaskRun s t) :
      Committed i s (.insert none (trs.map .taskRun)) ⟨i, false, s.store.now, trs.map .taskRun⟩
  | setsDagRun {run : DagRunRow} (h : SetsDagRun s run) (hst : run.state = .running ∨ run.state = .failed) :
      Committed i s (.insert none [.dagRun run]) ⟨i, false, s.store.now, [.dagRun run]⟩

section

variable {i : ℕ} {s : Shared}

theorem Verdict.sets {ts : ℕ} {trs : List TaskRunRow} {run : DagRunRow} {skipped : List TaskRunRow}
    (h : Verdict (s.store.asOf ts) trs run skipped)
    (hc : ¬s.store.Conflict ts (batch run skipped)) : Sets s (batch run skipped) where
  taskRun t ht := by
    obtain ⟨hst, _, t₀, _, h₀, hi, _⟩ := h.skips t (taskRun_mem_batch.mp ht)
    exact ⟨⟨t₀, get_asOf_of_not_conflict (a := t) hc ht h₀, hi⟩, by rw [hst]; decide,
      fun hr => by rw [hst] at hr; cases hr⟩
  dagRun run' hr := by
    obtain rfl := dagRun_mem_batch.mp hr
    obtain ⟨run₀, h₀, hi, hs⟩ := h.persisted
    refine ⟨⟨run₀, get_asOf_of_not_conflict (a := run') hc hr h₀, hi, hs⟩, ?_⟩
    rcases h.decided with hd | hd | hd <;> rw [hd] <;> decide

theorem Releases.sets {ts : ℕ} {runId : Uuid} {trs : List TaskRunRow}
    (h : Releases i s (s.store.asOf ts) runId trs)
    (hc : ¬s.store.Conflict ts (trs.map .taskRun)) : Sets s (trs.map .taskRun) where
  taskRun t ht := by
    obtain ⟨hst, t₀, h₀, hi, _⟩ := h.queues t (by simpa using ht)
    exact ⟨⟨t₀, get_asOf_of_not_conflict (a := t) hc ht h₀, hi⟩, by rw [hst]; decide,
      fun hr => by rw [hst] at hr; cases hr⟩
  dagRun run hr := by simp at hr

theorem Queues.creates {ts : ℕ} {run : DagRunRow} {dag : Dag} {trs : List TaskRunRow}
    (h : Queues s (s.store.asOf ts) run dag trs)
    (hc : ¬s.store.Conflict ts (batch run trs)) : Creates s run dag trs := by
  obtain ⟨run₀, h₀, hi, hs⟩ := h.persisted
  refine ⟨⟨run₀, get_asOf_of_not_conflict (a := run) hc (by simp) h₀, hi, hs⟩, h.queued, h.loaded,
    h.complete, h.tasks, h.unique, h.ids, fun t ht => ?_, h.owner, h.state⟩
  obtain ⟨hnone, hrest⟩ := h.unused t ht
  refine ⟨?_, hrest⟩
  rw [← hnone]
  exact (get_asOf_eq_of_not_conflict (a := t) hc (by simpa using ht)).symm

/-- Every commit creates the TaskRuns of a DagRun or replaces rows. -/
theorem Committed.creates_or_sets {o : Op} {c : Commit Row} (h : Committed i s o c)
    (hc : ¬s.store.Conflict c.start c.rows) :
    (∃ run dag trs, Creates s run dag trs ∧ c.rows = batch run trs) ∨ Sets s c.rows := by
  cases h with
  | queues h => exact Or.inl ⟨_, _, _, h.creates hc, rfl⟩
  | verdict _ h => exact Or.inr (h.sets hc)
  | releases h => exact Or.inr (h.sets hc)
  | setsTaskRuns _ h =>
    exact Or.inr ⟨fun t ht => (h t (by simpa using ht)).2, fun run hr => by simp at hr⟩
  | setsDagRun h _ =>
    refine Or.inr ⟨fun t ht => by simp at ht, fun run hr => ?_⟩
    obtain rfl : run = _ := by simpa using hr
    exact h

/-! ### What a commit does to the tables -/

/-- The tables of all moments are consistent and persist, the memory is consistent, and nothing
was written through the global client. -/
structure Consistent (s : Shared) : Prop where
  tables : ∀ ts, Tables s (s.store.asOf ts)
  persists : ∀ ts, Persists (s.store.asOf ts) s.db
  mem : MemOk s s.mem
  forwarded : ∀ svc ∈ s.mem.services, ∀ cb ∈ svc.callbacks, Forwarded s.mem cb
  global : ∀ x ∈ s.opened .global, x.2.writes = []

theorem Consistent.db (h : Consistent s) : Tables s s.db := by
  have := h.tables s.store.now
  rwa [Store.asOf_now] at this

variable {o : Op} {c : Commit Row} (h : Committed i s o c)
  (hc : ¬s.store.Conflict c.start c.rows)
include h hc

theorem Committed.persists : Persists s.db (s.commit c).db := by
  show Persists s.db (s.db.upsertAll c.rows)
  rcases h.creates_or_sets hc with ⟨run, dag, trs, hcr, hrows⟩ | hset
  · rw [hrows]
    exact hcr.persists
  · exact hset.persists

theorem Committed.grows : Grows s (s.commit c) :=
  ⟨⟨le_refl _, fun _ h => h, rfl, rfl⟩, .append _ _, h.persists hc, fun _ _ h => h,
    fun _ _ h => h, .refl _⟩

theorem Committed.consistent (hs : Consistent s) : Consistent (s.commit c) where
  tables ts := by
    refine Tables.mono (s := s) ?_ (h.grows hc).knows
    rcases Store.asOf_append s.store c ts with heq | heq
    · exact heq ▸ hs.tables ts
    · rw [show (s.commit c).store.asOf ts = s.db.upsertAll c.rows from heq]
      rcases h.creates_or_sets hc with ⟨run, dag, trs, hcr, hrows⟩ | hset
      · rw [hrows]
        exact hcr.tables hs.db
      · exact hset.tables hs.db
  persists ts := by
    rcases Store.asOf_append s.store c ts with heq | heq
    · rw [show (s.commit c).store.asOf ts = s.store.asOf ts from heq]
      exact (hs.persists ts).trans (h.persists hc)
    · rw [show (s.commit c).store.asOf ts = (s.commit c).db from heq]
      exact .refl _
  mem := hs.mem.mono (h.grows hc)
  forwarded := hs.forwarded
  global := hs.global

end

end YtScheduler
