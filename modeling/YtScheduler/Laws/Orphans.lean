import YtScheduler.Orphans.Jobs

/-! How the cleanup treats the orphans. A job reads the loop variable when it runs: as long
as that is its own orphan, every run aborts and fails the orphans with an operation and
skips the others. When the loop has gone on, a job aborts and fails another one. -/

namespace YtScheduler

open Tablet Threads P

variable {trs : List TaskRunObj} {s : Shared} {σ σ' : Cleanup} {as : List (Action Choice Cleaner)}

/-! ### What is selected -/

/-- Before the cleanup of selected orphans: their objects and rows are as they were selected, and
the pool has no jobs. -/
structure Orphaned (trs : List TaskRunObj) (s : Shared) : Prop where
  apart : s.Apart
  objects : ∀ tr ∈ trs, s.mem.taskRuns[tr.ref]? = some tr.row
  rows : ∀ tr ∈ trs, s.db.taskRun tr.row.runId = some tr.row
  jobs : s.mem.queueables = []

/-- The select of the cleanup gives such a list. -/
theorem orphaned_of_select (hapart : s.Apart) (hjobs : s.mem.queueables = []) (shard : ShardingOptions) :
    let rows := orphanedTaskRuns shard s.engine s.db
    OrphanList (TaskRun.objects s rows) ∧ Orphaned (TaskRun.objects s rows) (TaskRun.withObjects s rows) := by
  intro rows
  have hrow : ∀ tr ∈ TaskRun.objects s rows, tr.row ∈ rows := by
    intro tr htr
    rw [← TaskRun.map_row_objects s rows]
    exact List.mem_map_of_mem htr
  refine ⟨⟨?_, ?_, fun tr htr => (mem_orphanedTaskRuns.mp (hrow tr htr)).2.1⟩, ⟨?_, ?_, ?_, hjobs⟩⟩
  · have hrefs : (TaskRun.objects s rows).map TaskRunObj.ref =
        List.range' s.mem.taskRuns.length rows.length := by
      apply List.ext_getElem
      · simp [TaskRun.objects]
      · intro n _ _
        simp [TaskRun.objects]
    rw [hrefs]
    exact List.nodup_range'
  · have hids : (TaskRun.objects s rows).map (·.row.runId) = rows.map TaskRunRow.runId := by
      rw [← TaskRun.map_row_objects s rows, List.map_map, TaskRun.map_row_objects]
      rfl
    rw [hids]
    exact (Db.nodup_all s.db).sublist (List.filter_sublist.map _)
  · exact ⟨hapart.closed, hapart.unwritten⟩
  · exact fun tr htr => (TaskRun.mem_objects htr).2
  · exact fun tr htr => (mem_orphanedTaskRuns.mp (hrow tr htr)).1

/-! ### Timely runs -/

instance : DecidablePred Cleaner.IsWorker
  | .cleanup _ => .isFalse id
  | .worker _ => .isTrue trivial

theorem Orphaned.inHand (h : Orphaned trs s) : InHand trs { shared := s } where
  apart := h.apart
  objects tr htr := ⟨tr.row, h.objects tr htr, rfl, rfl⟩
  rows tr htr := ⟨tr.row, h.rows tr htr, ⟨rfl, rfl⟩, Or.inl rfl⟩
  requested := by simp
  jobs q e he := by
    rw [h.jobs] at he
    cases he

/-- What holds of the threads when they have ended. -/
def cleaningPost (trs : List TaskRunObj) (i : ℕ) : Post Exn JobResult Hand Office :=
  fun _ _ s => i = 0 → Sorted trs s

theorem Sorted.mono {s s' : Office} (h : Sorted trs s) (hs : (cleaningContract trs).rely 0 s s') :
    Sorted trs s' := by
  refine ⟨(hs.2 rfl).jobs.trans h.1, h.2.imp hs.1.refused fun hc tr htr => ?_⟩
  exact hs.1.cleaned tr (List.mem_filter.mp htr).1 (hc tr htr)

theorem startable (hlist : OrphanList trs) :
    Startable (boundCleaning trs) (cleaningContract trs) (cleaningPost trs) Cleaner.IsWorker where
  stable i r l s s' h hr _ := by
    rintro rfl
    exact (h rfl).mono hr
  start e he i s _ hfresh := by
    cases e with
    | cleanup trs' => exact absurd he id
    | worker n => exact (tidy_worker hlist n).mono fun _ _ _ _ hi => absurd hi hfresh

/-- The cleanup as the first thread. -/
theorem sound_cleanup (hlist : OrphanList trs) (h : Orphaned trs s) :
    Sound (boundCleaning trs) (cleaningContract trs) (cleaningPost trs)
      ⟨{ shared := s }, [({}, (Cleaner.cleanup trs).prog)]⟩ where
  inv := h.inHand
  safe i th hth := by
    obtain rfl : i = 0 := by
      by_contra hi
      rw [List.getElem?_eq_none (by simp; omega)] at hth
      cases hth
    cases hth
    have hsorting : Sorting [] trs { shared := s } := ⟨by rw [Office.jobs, h.jobs]; rfl, h.objects⟩
    have hclean := tidy_cleanUp (l := {}) hlist hsorting
    refine Safe.bind (hclean.mono fun r l s' hs => ?_)
    cases r with
    | ok _ => exact fun _ => hs
    | error e => exact fun _ => hs
  fresh i hi := by
    rintro rfl
    simp at hi

/-- A timely run is one of the machine that hands each job its orphan. -/
theorem run_of_timely (htimely : cleaning.Along (Timely trs) σ as) :
    cleaning.run σ as = (boundCleaning trs).run σ as := by
  induction as generalizing σ with
  | nil => rfl
  | cons a as ih =>
    rw [Machine.run, Machine.run, ← act_of_timely htimely.1]
    cases hact : cleaning.act σ a with
    | none => rfl
    | some σ' => exact ih (htimely.2 σ' hact)

/-! ### The law -/

/-- The cleanup has ended, and so have all jobs. -/
def AllRan (σ : Cleanup) : Prop :=
  (σ.threads[0]?).any (fun th => th.2.isEnded) = true ∧
    ∀ e ∈ σ.shared.shared.mem.queueables, e.result.isSome = true

/-- Abortions are requested for operations of RUNNING orphans, and once all jobs have run, for all of
them. Then, if no `set_state` was refused, these orphans are FAILED and the others SKIPPED. -/
structure TreatsEach (trs : List TaskRunObj) (σ : Cleanup) : Prop where
  requested : ∀ operation ∈ σ.shared.requested, ∃ tr ∈ abortable trs, operation = tr.row.operationId
  all : AllRan σ → ∀ tr ∈ abortable trs, tr.row.operationId ∈ σ.shared.requested
  failed : AllRan σ → σ.shared.refused = false → ∀ tr ∈ trs, Cleaned σ.shared tr

theorem treatsEach_of_sound (h : Sound (boundCleaning trs) (cleaningContract trs) (cleaningPost trs) σ) :
    TreatsEach trs σ := by
  have hsorted : AllRan σ → Sorted trs σ.shared := by
    rintro ⟨hended, _⟩
    obtain ⟨⟨l, p⟩, hth, hp⟩ := (Option.any_eq_true _ _).mp hended
    have hsafe := h.safe 0 _ hth
    cases p with
    | ret a => exact hsafe rfl
    | raise e => exact hsafe rfl
    | call o k => cases hp
  have hhandled : AllRan σ → ∀ tr ∈ abortable trs, Handled σ.shared tr := by
    intro hall tr htr
    obtain ⟨q, hq, rfl⟩ := List.mem_iff_getElem.mp htr
    have hlt : q < σ.shared.shared.mem.queueables.length := by
      rw [show σ.shared.shared.mem.queueables.length = _ from (hsorted hall).1]
      exact hq
    obtain ⟨tr, htr', _, hdone⟩ := h.inv.jobs q _ (List.getElem?_eq_getElem hlt)
    obtain rfl : tr = (abortable trs)[q] := by
      rw [List.getElem?_eq_getElem hq] at htr'
      exact (Option.some.inj htr').symm
    exact hdone (hall.2 _ (List.getElem_mem hlt))
  refine ⟨h.inv.requested, fun hall tr htr => (hhandled hall tr htr).1, fun hall hrefused tr htr => ?_⟩
  by_cases habortable : tr.row.Abortable
  · have hmem : tr ∈ abortable trs := List.mem_filter.mpr ⟨htr, decide_eq_true habortable⟩
    exact (hhandled hall tr hmem).2.resolve_left (by simp [hrefused])
  · have hmem : tr ∈ skippable trs := List.mem_filter.mpr ⟨htr, decide_eq_true habortable⟩
    exact (hsorted hall).2.resolve_left (by simp [hrefused]) tr hmem

/-- The cleanup before its first step. -/
def started (trs : List TaskRunObj) (s : Shared) : Cleanup :=
  ⟨{ shared := s }, [({}, (Cleaner.cleanup trs).prog)]⟩

/-- As long as each job reads the loop variable while that is its own orphan, a cleanup with any
number of workers treats each orphan as itself. -/
theorem timely_cleanup_treats_each (hlist : OrphanList trs) (hs : Orphaned trs s)
    (hworkers : ∀ a ∈ as, a.Within Cleaner.IsWorker)
    (htimely : cleaning.Along (Timely trs) (started trs s) as) :
    cleaning.Always (TreatsEach trs) (started trs s) as := by
  rintro as₁ as₂ σ rfl hrun
  rw [run_of_timely (Machine.along_left htimely)] at hrun
  refine treatsEach_of_sound ((sound_cleanup hlist hs).run (startable hlist) (fun a ha => ?_) hrun)
  exact hworkers a (List.mem_append_left _ ha)

/-! ### Three orphans -/

def failedRun : DagRunRow := { runId := 5, dagId := 0, state := .failed }

def orphan (runId : Uuid) (state : TaskRunState) (operationId : Option OperationId) : TaskRunRow :=
  { runId, taskId := "load", dagId := 0, dagrunId := 5, state, operationId }

/-- Two RUNNING TaskRuns with an operation and one that is QUEUED. -/
def orphans : List TaskRunObj :=
  [⟨0, orphan 1 .running (some 7)⟩, ⟨1, orphan 2 .running (some 8)⟩, ⟨2, orphan 3 .queued none⟩]

def leftBehind : Shared where
  store := ⟨⟨.dagRun failedRun :: orphans.map fun tr => .taskRun tr.row, by decide⟩, []⟩
  mem := { taskRuns := orphans.map TaskRunObj.row }

theorem orphanList_orphans : OrphanList orphans := ⟨by decide, by decide, by decide⟩

theorem orphaned_leftBehind : Orphaned orphans leftBehind :=
  ⟨⟨fun _ => rfl, by decide⟩, by decide, by decide, rfl⟩

/-- `n` steps of a thread, in which nothing fails. -/
def steps (i n : ℕ) : List (Action Choice Cleaner) := List.replicate n (.step i {})

/-- A worker runs each job before the loop goes on. -/
def promptly : List (Action Choice Cleaner) :=
  steps 0 4 ++ .spawn (.worker 2) :: (steps 1 17 ++ (steps 0 3 ++ (steps 1 17 ++ steps 0 12)))

theorem promptly_treats_each : cleaning.Always (TreatsEach orphans) (started orphans leftBehind) promptly :=
  timely_cleanup_treats_each orphanList_orphans orphaned_leftBehind (by decide) (by decide +kernel)

/-- A worker runs the jobs when the cleanup is over. -/
def afterwards : List (Action Choice Cleaner) := steps 0 19 ++ .spawn (.worker 2) :: steps 1 28

def afterwardsEnd : Cleanup := (cleaning.run (started orphans leftBehind) afterwards).get (by decide +kernel)

/-- Both jobs take the last orphan for theirs: no abortion of the operations is requested, and two
orphans stay RUNNING. -/
theorem afterwards_not_treats_each :
    ¬cleaning.Always (TreatsEach orphans) (started orphans leftBehind) afterwards := by
  intro h
  have hend : TreatsEach orphans afterwardsEnd :=
    h afterwards [] afterwardsEnd (by simp) (Option.some_get _).symm
  have hran : AllRan afterwardsEnd := by
    rw [AllRan]
    decide +kernel
  have habortable : ⟨0, orphan 1 .running (some 7)⟩ ∈ abortable orphans :=
    List.mem_filter.mpr ⟨List.mem_cons_self, by decide⟩
  have hfirst : some 7 ∈ afterwardsEnd.shared.requested := hend.all hran _ habortable
  revert hfirst
  decide +kernel

end YtScheduler
