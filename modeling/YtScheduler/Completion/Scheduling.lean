import YtScheduler.Completion.Serial
import YtScheduler.Laws.Traces

/-! A round of `_schedule_dag_runs` that nobody disturbs: what it makes of the states of the DagRun and
of its TaskRuns. -/

namespace YtScheduler

open Tablet Threads

variable {i : ℕ} {s s' : Shared}

theorem filterMap_proj_taskRuns (rows : List TaskRunRow) :
    ((rows.map Row.taskRun).filterMap RowKind.proj : List TaskRunRow) = rows := by
  rw [List.filterMap_map]
  exact List.filterMap_some

namespace DagRun

variable {dag : Dag} {trs : List TaskRunObj} {run : DagRunRow} {r : TaskRunRow}

/-- The state that a pass gives a TaskRun, from the TaskRuns of the DagRun. -/
def passState (dag : Dag) (rows : List TaskRunRow) (r : TaskRunRow) : TaskRunState :=
  if ∃ r ∈ rows, r.state = .failed then
    if r ∈ rows ∧ (r.state = .scheduled ∨ r.state = .queued) then .skipped else r.state
  else if r ∈ rows ∧ r.state = .scheduled ∧ ∀ u ∈ upstream dag r.taskId, ∃ up ∈ rows, up.taskId = u ∧
      up.state ∈ TaskRunState.finishedStates then .queued
  else r.state

theorem mem_skipped (hfailed : anyFailed trs = true) : r ∈ (skippableTrs trs).map (·.row) ↔
    r ∈ trs.map (·.row) ∧ (r.state = .scheduled ∨ r.state = .queued) := by
  simp only [List.mem_map]
  constructor
  · rintro ⟨tr, htr, rfl⟩
    obtain ⟨_, hmem, hstate⟩ := mem_skippableTrs.mp htr
    exact ⟨⟨tr, hmem, rfl⟩, hstate⟩
  · rintro ⟨⟨tr, hmem, rfl⟩, hstate⟩
    exact ⟨tr, mem_skippableTrs.mpr ⟨hfailed, hmem, hstate⟩, rfl⟩

/-- What `schedule_trs` selects of the TaskRuns that a pass releases. -/
theorem mem_queueable {db : Db} (hrows : trs.map (·.row) = taskRuns db run dag)
    (hhealthy : anyFailed trs = false) :
    r ∈ queueable db run.runId ((releasedTrs dag trs).map (·.row.runId)) ↔
      r ∈ taskRuns db run dag ∧ r.state = .scheduled ∧ ∀ u ∈ upstream dag r.taskId,
        ∃ up ∈ taskRuns db run dag, up.taskId = u ∧ up.state ∈ TaskRunState.finishedStates := by
  rw [queueable, List.mem_filter, decide_eq_true_eq, Db.mem_taskRuns]
  constructor
  · rintro ⟨hr, hid, _, hstate⟩
    obtain ⟨r₁, hr₁, hsame, _, hup⟩ := releasable_of_released hrows hid
    obtain ⟨hget, _⟩ := mem_taskRuns.mp hr₁
    rw [hsame, hr] at hget
    obtain rfl := Option.some.inj hget
    exact ⟨hr₁, hstate, hup⟩
  · rintro ⟨hr, hstate, hup⟩
    obtain ⟨hget, hrun, _⟩ := mem_taskRuns.mp hr
    refine ⟨hget, ?_, hrun, hstate⟩
    rw [← hrows] at hr hup
    obtain ⟨tr, htr, rfl⟩ := List.mem_map.mp hr
    refine List.mem_map_of_mem (f := fun tr : TaskRunObj => tr.row.runId)
      (mem_releasedTrs.mpr ⟨hhealthy, htr, hstate, fun u hu => ?_⟩)
    obtain ⟨up, hmem, hu, hfinished⟩ := hup u hu
    obtain ⟨uptr, huptr, rfl⟩ := List.mem_map.mp hmem
    exact ⟨uptr, huptr, hu, hfinished⟩

/-- What a pass writes into the TaskRuns. -/
theorem exists_passed {db db₁ : Db} (hrows : trs.map (·.row) = taskRuns db run dag) {skipped : List TaskRunRow}
    {row : DagRunRow} (hskipped : List.Forall₂ (TaskRun.Updated .skipped) ((skippableTrs trs).map (·.row)) skipped)
    (hdb₁ : db₁ = db.upsertAll (skipped.map .taskRun ++ [.dagRun row])) {queued : List TaskRunRow}
    (hqueued : List.Forall₂ (TaskRun.Updated .queued)
      (queueable db₁ run.runId ((releasedTrs dag trs).map (·.row.runId))) queued) :
    ∃ olds : List TaskRunRow, (∀ r, r ∈ olds → db.taskRun r.runId = some r) ∧
      List.Forall₂ (fun r (new : TaskRunRow) => new.ident = r.ident ∧
        new.state = passState dag (taskRuns db run dag) r) olds (skipped ++ queued) ∧
      ∀ r ∉ olds, passState dag (taskRuns db run dag) r = r.state := by
  cases hfailed : anyFailed trs with
  | true =>
    have hany := anyFailed_iff.mp hfailed
    rw [hrows] at hany
    have hnone : releasedTrs dag trs = [] := by rw [releasedTrs, if_pos hfailed]
    have hmem : ∀ r, r ∈ (skippableTrs trs).map (·.row) ↔
        r ∈ taskRuns db run dag ∧ (r.state = .scheduled ∨ r.state = .queued) := by
      intro r
      rw [mem_skipped hfailed, hrows]
    obtain rfl : queued = [] := by
      simpa [hnone, queueable] using hqueued
    refine ⟨(skippableTrs trs).map (·.row), fun r hr => (mem_taskRuns.mp ((hmem r).mp hr).1).1, ?_, fun r hr => ?_⟩
    · rw [List.append_nil]
      refine List.forall₂_iff_get.mpr ⟨hskipped.length_eq, fun n hn hn' => ?_⟩
      have hupdated := (List.forall₂_iff_get.mp hskipped).2 n hn hn'
      refine ⟨hupdated.ident, hupdated.state.trans ?_⟩
      rw [passState, if_pos hany, if_pos ((hmem _).mp (List.get_mem _ _))]
    · rw [passState, if_pos hany, if_neg fun h => hr ((hmem r).mpr h)]
  | false =>
    have hany : ¬∃ r ∈ taskRuns db run dag, r.state = .failed := by
      rw [← hrows, ← anyFailed_iff, hfailed]
      exact Bool.false_ne_true
    have hnone : skippableTrs trs = [] := by rw [skippableTrs, if_neg (by simp [hfailed])]
    obtain rfl : skipped = [] := by
      rwa [hnone, List.map_nil, List.forall₂_nil_left_iff] at hskipped
    have hsame : db₁.taskRuns = db.taskRuns := by
      rw [hdb₁]
      exact Db.all_upsertAll_of_other (by simp [RowKind.proj])
    have hmem := fun r => mem_queueable (r := r) hrows hfailed
    rw [queueable, hsame] at hqueued
    refine ⟨_, fun r hr => (mem_taskRuns.mp ((hmem r).mp hr).1).1, ?_, fun r hr => ?_⟩
    · rw [List.nil_append]
      refine List.forall₂_iff_get.mpr ⟨hqueued.length_eq, fun n hn hn' => ?_⟩
      have hupdated := (List.forall₂_iff_get.mp hqueued).2 n hn hn'
      refine ⟨hupdated.ident, hupdated.state.trans ?_⟩
      rw [passState, if_neg hany, if_pos ((hmem _).mp (List.get_mem _ _))]
    · rw [passState, if_neg hany, if_neg fun h => hr ((hmem r).mpr h)]

/-- The state that a pass gives a DagRun. -/
def passRunState (db : Db) (run : DagRunRow) (dag : Dag) (r : DagRunRow) : DagRunState :=
  if r.runId = run.runId then stateFor (taskRuns db run dag) else r.state

/-- A pass over a DagRun that was just loaded, and has tasks with plain ids. -/
theorem yields_pass (hopen : s.opened (.thread i) = []) {self : Ref}
    (hself : s.mem.dagRuns[self]? = some run) (hcurrent : s.db.dagRun run.runId = some run)
    (hplain : dag.Plain) (hne : dag.tasks ≠ []) :
    ∃ tids s₁ n s₂, Yields i (updateState self dag) s tids s₁ ∧
      Yields i (scheduleTrs run.runId tids) s₁ n s₂ ∧ s₂.opened (.thread i) = [] ∧
      Relabels s.db s₂.db (passRunState s.db run dag) (passState dag (taskRuns s.db run dag)) := by
  obtain ⟨trs, skipped, row, hrows, hskipped, hident, hstate, s₁, hupdate, happlied, _⟩ :=
    yields_updateState hopen hself (readable_trsFilter hplain hne)
  rw [readTrs_of_plain hplain] at hrows
  obtain ⟨queued, hqueued, s₂, hschedule, hscheduled, _⟩ :=
    yields_scheduleTrs happlied.opened run.runId ((releasedTrs dag trs).map (·.row.runId))
  refine ⟨_, s₁, _, s₂, hupdate, hschedule, hscheduled.opened, ?_⟩
  obtain ⟨olds, hold, hnews, hkept⟩ := exists_passed hrows hskipped happlied.db hqueued
  rw [hscheduled.db, happlied.db, ← Table.upsertAll_append]
  refine .of_upsertAll [run] olds ?_ ?_ ?_ hold ?_ (fun r _ => hkept r) ?_
  · rintro r hr
    rwa [List.mem_singleton.mp hr]
  · rw [List.filterMap_append, List.filterMap_append, filterMap_taskRuns, filterMap_taskRuns]
    refine .cons ⟨hident, ?_⟩ .nil
    rw [hstate, passRunState, if_pos rfl, ← hrows, stateFor_rows]
  · intro r hr hnot
    exact if_neg fun hid => hnot (List.mem_singleton.mpr (Db.eq_of_id hr hcurrent hid))
  · rw [List.filterMap_append, List.filterMap_append, filterMap_proj_taskRuns, filterMap_proj_taskRuns]
    rwa [show ([Row.dagRun row].filterMap RowKind.proj : List TaskRunRow) = [] from rfl, List.append_nil]
  · simp only [List.mem_append, List.mem_map, List.mem_singleton]
    rintro r ((⟨a, _, rfl⟩ | rfl) | ⟨a, _, rfl⟩) <;> rfl

end DagRun

/-! ### The round -/

namespace Scheduler

theorem own_getDagRef (dagId : Uuid) : (getDagRef dagId).Uses Op.Own :=
  P.uses_handleExceptions (Prog.Uses.bind (.op trivial) fun _ => trivial)

theorem own_getDag (ref : Option DagRefRow) : (getDag ref).Uses Op.Own := by
  cases ref with
  | none => trivial
  | some ref =>
    refine Prog.Uses.catching (Prog.Uses.bind (.op trivial) fun _ => trivial) fun e => ?_
    split_ifs <;> trivial

theorem own_scheduleDagRun (run : Ref) : (scheduleDagRun run).Uses Op.Own := by
  refine Prog.Uses.bind (.op trivial) fun row => (own_getDagRef row.dagId).bind fun ref => ?_
  refine (own_getDag ref).bind fun dag => ?_
  cases dag with
  | none => trivial
  | some dag =>
    refine (P.uses_handleExceptions (own_updateState run dag)).bind fun tids => ?_
    split_ifs
    · trivial
    · exact (P.uses_handleExceptions (own_scheduleTrs row.runId tids)).bind fun _ => trivial

variable {self : Ref} {run : DagRunRow} {dag : Dag}

/-- A round for a DagRun that was just loaded, and whose DAG can be and has tasks with plain ids. -/
theorem yields_scheduleDagRun (hopen : s.opened (.thread i) = []) (hself : s.mem.dagRuns[self]? = some run)
    (hcurrent : s.db.dagRun run.runId = some run) (hdag : dagOf s i self = some dag) (hplain : dag.Plain)
    (hne : dag.tasks ≠ []) :
    ∃ s', Yields i (scheduleDagRun self) s () s' ∧ s'.opened (.thread i) = [] ∧
      Relabels s.db s'.db (DagRun.passRunState s.db run dag)
        (DagRun.passState dag (DagRun.taskRuns s.db run dag)) := by
  obtain ⟨tids, s₁, n, s₂, hupdate, hschedule, hopen₂, hrelabels⟩ :=
    DagRun.yields_pass hopen hself hcurrent hplain hne
  refine ⟨s₂, comes_load hself (k := scheduleLoaded self) ?_, hopen₂, hrelabels⟩
  rw [hdag]
  refine (Yields.catching hupdate).bind ?_
  split_ifs with hnone
  · -- without a TaskRun to queue `schedule_trs` does nothing
    rw [List.isEmpty_iff.mp hnone] at hschedule
    obtain ⟨_, rfl⟩ := hschedule.unique (Yields.ret 0 s₁)
    exact Yields.ret () _
  · exact (Yields.catching hschedule).bind (Yields.ret () s₂)

variable {operation : OperationId}

/-- What a round leaves. -/
theorem turned_scheduleDagRun (hs : s.Closed) (hplain : s.PlainDags) (hself : s.mem.dagRuns[self]? = some run)
    (hcurrent : s.db.dagRun run.runId = some run) (h : Performs operation i (scheduleDagRun self) s () s') :
    ∃ dag, dagOf s i self = some dag ∧ Turned s s' (DagRun.passRunState s.db run dag)
      (DagRun.passState dag (DagRun.taskRuns s.db run dag)) := by
  cases hdag : dagOf s i self with
  | none =>
    have hraise : Comes i (scheduleDagRun self) s (.error .attributeError) s := by
      refine comes_load hself (k := scheduleLoaded self) ?_
      rw [hdag]
      exact Comes.raise _ s
    cases (h.comes hraise).1
  | some dag =>
    have hne : dag.tasks ≠ [] := by
      intro hnil
      obtain ⟨s₁, hupdate⟩ := DagRun.updateState_raises (i := i) hself (DagRun.read_trsFilter_of_nil hnil)
      have hraise : Comes i (scheduleDagRun self) s (.error .runtime) s₁ := by
        refine comes_load hself (k := scheduleLoaded self) ?_
        rw [hdag]
        exact (hupdate.handleExceptions rfl).bind_error
      cases (h.comes hraise).1
    obtain ⟨s₂, hround, hopen, hrelabels⟩ :=
      yields_scheduleDagRun (hs i) hself hcurrent hdag (hplain dag (mem_of_dagOf hdag)) hne
    obtain ⟨_, rfl⟩ := h.comes hround
    exact ⟨dag, rfl, h.turned (own_scheduleDagRun self) hs hopen hrelabels⟩

end Scheduler

end YtScheduler
