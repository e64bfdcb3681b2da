import YtScheduler.Laws.Creation

/-! The verdict of a pass over a DagRun with plain task ids. It fits the TaskRuns of the run,
except that a run whose TaskRuns are finished, none FAILED and some SKIPPED, stays RUNNING,
and that a DAG without tasks has a query the engine cannot read. -/

namespace YtScheduler

open Tablet Threads

/-- The TaskRuns of a DagRun. -/
abbrev ofRun (db : Db) (run : DagRunRow) : List TaskRunRow :=
  db.taskRuns.filter fun r => r.dagrunId = run.runId

/-- The DagRun has one TaskRun for each task of its DAG. -/
structure OneEach (db : Db) (run : DagRunRow) (dag : Dag) : Prop where
  dagId : run.dagId = dag.dagId
  tasks : ((ofRun db run).map fun r => (r.taskId, r.dagId)).Perm
    (dag.tasks.map fun t => (t.taskId, t.dagId))

/-- The TaskRuns are finished, some are SKIPPED, and none has FAILED. -/
def AllSkippedOrDone (rows : List TaskRunRow) : Prop :=
  (∀ r ∈ rows, r.state ∈ TaskRunState.finishedStates) ∧ (∃ r ∈ rows, r.state = .skipped) ∧
    ∀ r ∈ rows, r.state ≠ .failed

/-- The DagRun is persisted in this state. -/
abbrev LeftIn (db : Db) (run : DagRunRow) (state : DagRunState) : Prop :=
  ∃ row, db.dagRun run.runId = some row ∧ row.state = state

/-- What a pass from `db` to `db'` that returned `tids` is to decide. -/
structure Judged (db db' : Db) (run : DagRunRow) (tids : List Uuid) : Prop where
  success : LeftIn db' run .success ↔ ∀ r ∈ ofRun db run, r.state = .success
  failed : LeftIn db' run .failed ↔ ∃ r ∈ ofRun db run, r.state = .failed
  stopped : LeftIn db' run .failed → tids = [] ∧
    ∀ r ∈ ofRun db' run, r.state ≠ .scheduled ∧ r.state ≠ .queued
  untouched : LeftIn db' run .failed → ∀ r ∈ ofRun db run,
    r.state = .running ∨ r.state ∈ TaskRunState.finishedStates → db'.taskRun r.runId = some r
  running : LeftIn db' run .running → ∃ r ∈ ofRun db run, r.state ∈ TaskRunState.unfinishedStates
  terminal : (∀ r ∈ ofRun db run, r.state ∈ TaskRunState.finishedStates) →
    LeftIn db' run .success ∨ LeftIn db' run .failed

/-- The pass selects the TaskRuns of the run. -/
theorem OneEach.taskRuns_eq {db : Db} {run : DagRunRow} {dag : Dag} (h : OneEach db run dag) :
    DagRun.taskRuns db run dag = ofRun db run := by
  rw [DagRun.taskRuns]
  refine List.filter_congr fun r hr => ?_
  rw [decide_eq_decide]
  constructor
  · exact And.left
  · intro hrun
    have hmem : r ∈ ofRun db run := List.mem_filter.mpr ⟨hr, decide_eq_true hrun⟩
    obtain ⟨t, ht, he⟩ := List.mem_map.mp (h.tasks.mem_iff.mp (List.mem_map_of_mem hmem))
    rw [Prod.mk.injEq] at he
    refine ⟨hrun, ?_, he.1 ▸ List.mem_map_of_mem ht⟩
    rw [h.dagId, ← dag.dagId_eq t ht, he.2]

namespace DagRun

section State

variable {trs : List TaskRunObj}

theorem runState_eq_success :
    runState trs = .success ↔ ∀ r ∈ trs.map (·.row), r.state = .success := by
  rw [List.forall_mem_map]
  constructor
  · intro h tr htr
    by_contra hstate
    have hrunning : runState trs = .running ↔ _ := runState_eq_running
    have hfailed : runState trs = .failed ↔ _ := runState_eq_failed
    rw [h] at hrunning hfailed
    refine absurd (hrunning.mpr ⟨fun tr htr hf => ?_, tr, htr, hstate⟩) nofun
    exact absurd (hfailed.mpr (anyFailed_iff.mpr ⟨_, List.mem_map_of_mem htr, hf⟩)) nofun
  · intro h
    rcases runState_cases trs with hstate | hstate | hstate
    · obtain ⟨r, hr, hf⟩ := anyFailed_iff.mp (runState_eq_failed.mp hstate)
      obtain ⟨tr, htr, rfl⟩ := List.mem_map.mp hr
      rw [h tr htr] at hf
      cases hf
    · exact hstate
    · obtain ⟨_, tr, htr, hne⟩ := runState_eq_running.mp hstate
      exact absurd (h tr htr) hne

end State

section Skipped

variable {db : Db} {run row : DagRunRow} {trs : List TaskRunObj} {rows : List TaskRunRow}

/-- The TaskRuns that the pass writes are those it skips. -/
theorem mem_written (hrows : trs.map (·.row) = ofRun db run)
    (hskipped : List.Forall₂ (TaskRun.Updated .skipped) ((skippableTrs trs).map (·.row)) rows)
    {new : TaskRunRow} (hnew : RowKind.toRow new ∈ rows.map Row.taskRun ++ [.dagRun row]) :
    new.state = .skipped ∧ ∃ r ∈ ofRun db run, new.runId = r.runId ∧
      (r.state = .scheduled ∨ r.state = .queued) := by
  have hmem : new ∈ rows := by simpa using hnew
  obtain ⟨r, hr, hupd⟩ := Sequences.exists_left hskipped hmem
  obtain ⟨tr, htr, rfl⟩ := List.mem_map.mp hr
  obtain ⟨_, htr, hstate⟩ := mem_skippableTrs.mp htr
  exact ⟨hupd.state, tr.row, hrows ▸ List.mem_map_of_mem htr,
    TaskRunRow.runId_of_ident hupd.ident, hstate⟩

/-- A failed pass leaves nothing waiting. -/
theorem stopped_of_skipped (hrows : trs.map (·.row) = ofRun db run) (hfailed : anyFailed trs = true)
    (hskipped : List.Forall₂ (TaskRun.Updated .skipped) ((skippableTrs trs).map (·.row)) rows)
    {r : TaskRunRow} (hr : r ∈ ofRun (db.upsertAll (rows.map .taskRun ++ [.dagRun row])) run) :
    r.state ≠ .scheduled ∧ r.state ≠ .queued := by
  obtain ⟨hr, hrun⟩ := List.mem_filter.mp hr
  rcases Db.get_upsertAll_cases (Db.mem_taskRuns.mp hr) with ⟨hnew, _⟩ | ⟨hold, hget⟩
  · rw [(mem_written hrows hskipped hnew).1]
    exact ⟨nofun, nofun⟩
  · -- a waiting TaskRun of the run would have been skipped
    have hmem : r ∈ trs.map (·.row) := hrows ▸ List.mem_filter.mpr ⟨Db.mem_taskRuns.mpr hget, hrun⟩
    obtain ⟨tr, htr, rfl⟩ := List.mem_map.mp hmem
    rw [← not_or]
    intro hstate
    have hskip : tr ∈ skippableTrs trs := mem_skippableTrs.mpr ⟨hfailed, htr, hstate⟩
    obtain ⟨new, hnew, hupd⟩ := Sequences.exists_right hskipped (List.mem_map_of_mem hskip)
    exact hold new (List.mem_append_left _ (List.mem_map_of_mem hnew))
      (TaskRunRow.runId_of_ident hupd.ident)

theorem untouched_of_skipped (hrows : trs.map (·.row) = ofRun db run)
    (hskipped : List.Forall₂ (TaskRun.Updated .skipped) ((skippableTrs trs).map (·.row)) rows)
    {r : TaskRunRow} (hr : r ∈ ofRun db run)
    (hstate : r.state = .running ∨ r.state ∈ TaskRunState.finishedStates) :
    Db.taskRun (db.upsertAll (rows.map .taskRun ++ [.dagRun row])) r.runId = some r := by
  rw [Db.taskRun, Db.get_upsertAll_of_not_written fun new hnew hid => ?_]
  · exact Db.mem_taskRuns.mp (List.mem_filter.mp hr).1
  · obtain ⟨_, r', hr', hid', hwaiting⟩ := mem_written hrows hskipped hnew
    have hsame : r' = r := List.inj_on_of_nodup_map (Db.nodup_all db) (List.mem_filter.mp hr').1
      (List.mem_filter.mp hr).1 (hid'.symm.trans hid)
    rw [hsame] at hwaiting
    rcases hwaiting with hw | hw <;> rw [hw] at hstate <;> revert hstate <;> decide

end Skipped

end DagRun

section Verdict

variable {db : Db} {run row : DagRunRow} {dag : Dag} {trs : List TaskRunObj} {rows : List TaskRunRow}

/-- Only in one case does a run without an unfinished TaskRun stay RUNNING. -/
theorem runState_ne_running (h : ¬AllSkippedOrDone (trs.map (·.row)))
    (hfinished : ∀ r ∈ trs.map (·.row), r.state ∈ TaskRunState.finishedStates) :
    DagRun.runState trs ≠ .running := by
  intro hrunning
  obtain ⟨hhealthy, tr, htr, hne⟩ := DagRun.runState_eq_running.mp hrunning
  refine h ⟨hfinished, ⟨tr.row, List.mem_map_of_mem htr, ?_⟩, List.forall_mem_map.mpr hhealthy⟩
  have hfin := hfinished tr.row (List.mem_map_of_mem htr)
  have hnot := hhealthy tr htr
  cases hstate : tr.row.state <;> simp_all [TaskRunState.finishedStates]

/-- What the pass writes and returns is a verdict, except in that case. -/
theorem judged_iff (hrows : trs.map (·.row) = ofRun db run) (hident : row.ident = run.ident)
    (hstate : row.state = DagRun.runState trs)
    (hskipped : List.Forall₂ (TaskRun.Updated .skipped) ((DagRun.skippableTrs trs).map (·.row)) rows) :
    Judged db (db.upsertAll (rows.map .taskRun ++ [.dagRun row])) run
      ((DagRun.releasedTrs dag trs).map (·.row.runId)) ↔ ¬AllSkippedOrDone (ofRun db run) := by
  have hleft : ∀ {state}, LeftIn (db.upsertAll (rows.map .taskRun ++ [.dagRun row])) run state ↔
      DagRun.runState trs = state := by
    intro state
    have hid : row.runId = run.runId := congrArg DagRunIdent.runId hident
    have hget : Db.dagRun (db.upsertAll (rows.map .taskRun ++ [.dagRun row])) run.runId = some row := by
      rw [Table.upsertAll_append, ← hid]
      exact Db.get_upsert_self _ row
    rw [LeftIn, hget, ← hstate]
    constructor
    · rintro ⟨row', he, rfl⟩
      rw [Option.some.inj he]
    · exact fun he => ⟨row, rfl, he⟩
  constructor
  · rintro hjudged ⟨hfinished, ⟨r, hr, hskip⟩, hhealthy⟩
    rcases hjudged.terminal hfinished with h | h
    · rw [hjudged.success.mp h r hr] at hskip
      cases hskip
    · obtain ⟨r, hr, hf⟩ := hjudged.failed.mp h
      exact hhealthy r hr hf
  · intro hnot
    rw [← hrows] at hnot
    refine ⟨?_, ?_, ?_, ?_, ?_, ?_⟩
    · rw [hleft, DagRun.runState_eq_success, hrows]
    · rw [hleft, DagRun.runState_eq_failed, DagRun.anyFailed_iff, hrows]
    · intro h
      have hfailed := DagRun.runState_eq_failed.mp (hleft.mp h)
      refine ⟨?_, fun r hr => DagRun.stopped_of_skipped hrows hfailed hskipped hr⟩
      rw [DagRun.releasedTrs, if_pos hfailed, List.map_nil]
    · exact fun _ r hr hstate => DagRun.untouched_of_skipped hrows hskipped hr hstate
    · intro h
      by_contra hnone
      push Not at hnone
      refine runState_ne_running hnot (fun r hr => ?_) (hleft.mp h)
      have hfin := hnone r (hrows ▸ hr)
      rwa [TaskRunState.mem_unfinishedStates, not_not] at hfin
    · intro hfinished
      rw [← hrows] at hfinished
      rw [hleft, hleft]
      rcases DagRun.runState_cases trs with h | h | h
      · exact Or.inr h
      · exact Or.inl h
      · exact absurd h (runState_ne_running hnot hfinished)

end Verdict

/-- Over plain task ids a pass alone gives a run its verdict, exactly if the DAG has a task and it is
not the case that the TaskRuns are all finished, some SKIPPED and none FAILED. -/
theorem update_judges_iff {s : Shared} {i : ℕ} {self : Ref} {run : DagRunRow} {dag : Dag}
    (hopen : s.opened (.thread i) = []) (hself : s.mem.dagRuns[self]? = some run)
    (hplain : dag.Plain) (hone : OneEach s.db run dag) :
    (∃ tids s', Yields i (DagRun.updateState self dag) s tids s' ∧ Judged s.db s'.db run tids) ↔
      dag.tasks ≠ [] ∧ ¬AllSkippedOrDone (ofRun s.db run) := by
  by_cases hnil : dag.tasks = []
  · obtain ⟨s₁, hraises⟩ := DagRun.updateState_raises (i := i) hself (DagRun.read_trsFilter_of_nil hnil)
    refine iff_of_false ?_ fun h => h.1 hnil
    rintro ⟨tids, s', hupdate, _⟩
    exact hraises.not_yields hupdate
  · obtain ⟨trs, rows, row, hrows, hskipped, hident, hstate, s', hupdate, happlied, _⟩ :=
      DagRun.yields_updateState hopen hself (DagRun.readable_trsFilter hplain hnil)
    rw [DagRun.readTrs_of_plain hplain, hone.taskRuns_eq] at hrows
    have hjudged : Judged s.db s'.db run ((DagRun.releasedTrs dag trs).map (·.row.runId)) ↔
        ¬AllSkippedOrDone (ofRun s.db run) := by
      rw [happlied.db]
      exact judged_iff hrows hident hstate hskipped
    constructor
    · rintro ⟨tids, s'', hupdate', h⟩
      obtain ⟨rfl, rfl⟩ := hupdate'.unique hupdate
      exact ⟨hnil, hjudged.mp h⟩
    · exact fun h => ⟨_, s', hupdate, hjudged.mpr h.2⟩

/-- The TaskRuns of a `chain` whose first one was skipped. -/
def skippedChain : Shared where
  store :=
    ⟨⟨[.dagRun firstRun,
      .taskRun { runId := 2, taskId := "extract", dagId := 0, dagrunId := 1, state := .skipped },
      .taskRun { runId := 3, taskId := "load", dagId := 0, dagrunId := 1, state := .success }],
      by decide⟩, []⟩
  mem := { dagRuns := [firstRun] }

theorem skippedChain_judges_iff :
    (∃ tids s', Yields 0 (DagRun.updateState 0 chain) skippedChain tids s' ∧
      Judged skippedChain.db s'.db firstRun tids) ↔
        chain.tasks ≠ [] ∧ ¬AllSkippedOrDone (ofRun skippedChain.db firstRun) :=
  update_judges_iff rfl rfl plain_chain ⟨rfl, by decide⟩

/-- The run is examined forever. -/
theorem skippedChain_not_judged :
    ¬∃ tids s', Yields 0 (DagRun.updateState 0 chain) skippedChain tids s' ∧
      Judged skippedChain.db s'.db firstRun tids := by
  rintro ⟨tids, s', hupdate, hjudged⟩
  have hone : OneEach skippedChain.db firstRun chain :=
    ⟨rfl, by decide⟩
  obtain ⟨trs, rows, row, hrows, hskipped, hident, hstate, s'', hupdate', happlied, _⟩ :=
    DagRun.yields_updateState (i := 0) rfl (show skippedChain.mem.dagRuns[0]? = some firstRun from rfl)
      (DagRun.readable_trsFilter plain_chain (by decide))
  obtain ⟨rfl, rfl⟩ := hupdate.unique hupdate'
  rw [DagRun.readTrs_of_plain plain_chain, hone.taskRuns_eq] at hrows
  rw [happlied.db] at hjudged
  have hnot := (judged_iff hrows hident hstate hskipped).mp hjudged
  rw [AllSkippedOrDone] at hnot
  revert hnot
  decide

end YtScheduler
