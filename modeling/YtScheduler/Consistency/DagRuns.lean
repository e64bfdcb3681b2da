import YtScheduler.Consistency.TaskRuns

/-! What the three transactions of a DagRun commit. `queue_run_atomic` read the DagRun as
SCHEDULED and has new TaskRuns for its tasks, `update_state` decided from the TaskRuns
that it read in its snapshot, and `schedule_trs` releases what an earlier commit of the
same thread found ready. -/

namespace YtScheduler

open Tablet Threads

variable {i : ℕ} {m : Option ℕ} {w : List Row} {l : Loc} {s s' : Shared}

/-! ### Growth of what a transaction knows -/

section Growth

variable (hg : Grows s s')
include hg

theorem Decided.mono {runId : Uuid} {tids tids' : List Uuid} (h : Decided i s runId tids)
    (hsub : ∀ tid ∈ tids', tid ∈ tids) : Decided i s' runId tids' := by
  obtain ⟨c, hc, ha, htx, hle, run, dag, hrun, hrid, hold, hdag, hready⟩ := h
  refine ⟨c, hg.store.mem_log hc, ha, htx, hle.trans hg.store.now_le, run, dag, hrun, hrid, ?_,
    (hg.knows.dag? _).trans hdag, fun tid htid => ?_⟩
  · rw [hg.store.asOf_eq hle]
    exact hold
  · rw [hg.store.asOf_eq hle, hg.knows.engine]
    exact hready tid (hsub tid htid)

theorem Releases.mono {ts : ℕ} (hts : ts ≤ s.store.now) {runId : Uuid} {trs : List TaskRunRow}
    (h : Releases i s (s.store.asOf ts) runId trs) :
    Releases i s' (s'.store.asOf ts) runId trs := by
  rw [hg.store.asOf_eq hts]
  exact ⟨h.queues, h.decided.mono hg fun _ h => h⟩

theorem Queues.mono {ts : ℕ} (hts : ts ≤ s.store.now) {run : DagRunRow} {dag : Dag}
    {trs : List TaskRunRow} (h : Queues s (s.store.asOf ts) run dag trs) :
    Queues s' (s'.store.asOf ts) run dag trs := by
  rw [hg.store.asOf_eq hts]
  refine ⟨h.persisted, h.queued, (hg.knows.dag? _).trans h.loaded, h.complete, h.tasks, h.unique,
    h.ids, fun t ht => ?_, h.owner, h.state⟩
  obtain ⟨h1, h2, h3⟩ := h.unused t ht
  exact ⟨h1, hg.tables.dagRun_none _ h2, h3.trans_le hg.knows.uuids⟩

end Growth

theorem HasDagRun.unique {j j' : DagRunIdent} (h : HasDagRun s j) (h' : HasDagRun s j')
    (hid : j.runId = j'.runId) : j = j' := by
  obtain ⟨run, hr, rfl⟩ := h
  obtain ⟨run', hr', rfl⟩ := h'
  rw [hid, hr'] at hr
  cases hr
  rfl

/-- The DagRun object was built from a row of the tables of time `ts`. -/
structure FetchedRun (s : Shared) (ts : ℕ) (run : DagRunObj) : Prop where
  row : Db.dagRun (s.store.asOf ts) run.row.runId = some run.row
  ref : s.runIdent run.ref = some run.row.ident
  le_now : ts ≤ s.store.now
  persists : Persists (s.store.asOf ts) s.db

namespace FetchedRun

variable {ts : ℕ} {run : DagRunObj}

theorem hasDagRun (h : FetchedRun s ts run) : HasDagRun s run.row.ident := by
  obtain ⟨run', hr, hi, _⟩ := h.persists.dagRun _ _ h.row
  exact ⟨run', hr, hi⟩

theorem active (h : FetchedRun s ts run) (hst : run.row.state ≠ .scheduled) :
    Active s run.row.ident := by
  obtain ⟨run', hr, hi, hs⟩ := h.persists.dagRun _ _ h.row
  exact ⟨run', hr, hi, hs hst⟩

end FetchedRun

namespace Spec

theorem fetchRuns {flt : DagRunFilter} (hs : Stmt i m w s) :
    Spec i (DagRun.fetchRows flt) (Ends i m fun runs w' s' => w' = w ∧ ∃ ts,
      (∀ ts', m = some ts' → ts = ts') ∧ ∀ run ∈ runs, FetchedRun s' ts run ∧
        flt.accepts s'.engine run.row = true) l s := by
  refine bind (select hs) fun rows w₁ l₁ s₁ hs₁ h₁ _ => ?_
  obtain ⟨rfl, ts, hle, hm, hp, hout⟩ := h₁
  have hrow : ∀ row ∈ rows, Db.dagRun (s₁.store.asOf ts) row.runId = some row ∧
      flt.accepts s₁.engine row = true := by
    intro row hrow
    rw [hout] at hrow
    exact mem_select_dagRuns hrow
  refine bind (mem (o := .newDagRuns rows) hs₁ fun s₂ hg₂ _ row hrow' => ?_)
    fun refs w₂ l₂ s₂ hs₂ h₂ hg₂ => ?_
  · obtain ⟨run', hr, hi, _⟩ := hp.dagRun _ _ (hrow row hrow').1
    exact HasDagRun.mono hg₂.grows ⟨run', hr, hi⟩
  · obtain ⟨hw₂, s₃, pick, _, _, rfl, hres⟩ := h₂
    simp only [Mem.exec, Except.ok.injEq] at hres
    subst hres
    refine ret hs₂ ⟨hw₂, ts, hm.start, fun run hrun => ?_⟩
    obtain ⟨k, row, hk, rfl⟩ := mem_zipWith_range' hrun
    obtain ⟨h1, h2⟩ := hrow row (List.mem_of_getElem? hk)
    have heq := hg₂.store.asOf_eq hle
    refine ⟨⟨?_, ?_, hle.trans hg₂.store.now_le, ?_⟩, ?_⟩
    · rw [heq]
      exact h1
    · simp [Shared.runIdent, Mem.exec, List.getElem?_append_right, hk]
    · rw [heq]
      exact hp.trans hg₂.tables
    · rw [hg₂.knows.engine]
      exact h2

theorem get {runId : Uuid} (hs : Stmt i m w s) :
    Spec i (DagRun.get runId) (Ends i m fun res w' s' => w' = w ∧ ∀ run, res = some run →
      run.row.runId = runId ∧ ∃ ts, (∀ ts', m = some ts' → ts = ts') ∧ FetchedRun s' ts run) l s := by
  refine bind (fetchRuns hs) fun runs w₁ l₁ s₁ hs₁ h₁ _ => ?_
  obtain ⟨rfl, ts, hm, hruns⟩ := h₁
  split
  · rename_i run
    refine ret hs₁ ⟨rfl, fun run' hrun' => ?_⟩
    cases hrun'
    obtain ⟨hf, hacc⟩ := hruns run (List.mem_singleton_self _)
    refine ⟨?_, ts, hm, hf⟩
    simpa [DagRunFilter.accepts] using hacc
  · exact ret hs₁ ⟨rfl, by simp⟩

/-- Writes the DagRun row in the given state; outside a transaction the run must be active. -/
theorem dagRunSetState {self : Ref} {state : DagRunState} {j : DagRunIdent} (hs : Stmt i m w s)
    (hj : s.runIdent self = some j)
    (hauto : m = none → Active s j ∧ (state = .running ∨ state = .failed)) :
    Spec i (DagRun.setState self state) (Ends i m fun _ w' _ => ∃ run : DagRunRow,
      w' = w ++ [.dagRun run] ∧ run.ident = j ∧ run.state = state) l s := by
  refine bind (readDagRun hs) fun base w₁ l₁ s₁ hs₁ h₁ hg₁ => ?_
  obtain ⟨rfl, hbase, href⟩ := h₁
  have hij : base.ident = j := by
    rw [hg₁.dagRuns _ _ hj] at href
    exact (Option.some.inj href).symm
  refine bind (Q := fun _ w' _ => w' = w₁) ?_ fun now w₂ l₂ s₂ hs₂ hw₂ hg₂ => ?_
  · exact bind (Spec.now hs₁) fun t w₂ l₂ s₂ hs₂ hw₂ _ => ret hs₂ hw₂
  subst hw₂
  have hident : (base.buildRowByState state now).ident = j := by simp [hij]
  refine bind (insert hs₂ fun hm s₃ hg₃ _ => ?_) fun _ w₃ l₃ s₃ hs₃ hw₃ hg₃ => ?_
  · obtain ⟨ha, hst⟩ := hauto hm
    obtain ⟨run₀, h₀, hi, hne⟩ := ha.mono (hg₁.trans (hg₂.trans hg₃))
    refine Committed.setsDagRun ⟨⟨run₀, ?_, hident.trans hi.symm, hne⟩, ?_⟩ (by simpa using hst)
    · have : (base.buildRowByState state now).runId = j.runId := congrArg DagRunIdent.runId hident
      rw [this]
      exact h₀
    · rcases hst with rfl | rfl <;> simp
  · have hb := hbase.mono (hg₂.trans hg₃)
    refine bind (mem (o := .writeDagRun self (base.buildRowByState state now)) hs₃
      fun s₄ hg₄ _ => ⟨?_, ?_⟩) fun _ w₄ l₄ s₄ hs₄ h₄ _ => ?_
    · simpa using hb.mono hg₄.grows
    · simpa using (hg₂.trans (hg₃.trans hg₄.grows)).dagRuns _ _ href
    · exact ret hs₄ ⟨_, h₄.1.trans hw₃, hident, by simp⟩

/-! ### `queue_run_atomic` -/

theorem newRuns {dagrunId : Uuid} {state : TaskRunState} {tasks : List Task}
    (hs : Stmt i m w s) :
    Spec i (DagRun.newTaskRuns dagrunId state tasks) (Ends i m fun trs w' s' => w' = w ∧
      List.Forall₂ (fun task t => t = DagRun.newTaskRun dagrunId task state t.runId) tasks trs ∧
      (∀ t ∈ trs, s.uuids ≤ t.runId ∧ t.runId < s'.uuids) ∧
      trs.Pairwise (·.runId < ·.runId)) l s := by
  induction tasks generalizing w l s with
  | nil => exact ret hs ⟨rfl, .nil, by simp, .nil⟩
  | cons task tasks ih =>
    refine bind (generateUuid hs) fun n w₁ l₁ s₁ hs₁ h₁ hg₁ => ?_
    obtain ⟨rfl, hlo, hhi⟩ := h₁
    refine bind (ih hs₁) fun trs w₂ l₂ s₂ hs₂ h₂ hg₂ => ?_
    obtain ⟨hw₂, hmade, hbounds, hsorted⟩ := h₂
    refine ret hs₂ ⟨hw₂, .cons rfl hmade, ?_, ?_⟩
    · rw [List.forall_mem_cons]
      exact ⟨⟨hlo, hhi.trans_le hg₂.knows.uuids⟩, fun t ht =>
        ⟨hg₁.knows.uuids.trans (hbounds t ht).1, (hbounds t ht).2⟩⟩
    · exact List.pairwise_cons.mpr ⟨fun t ht => hhi.trans_le (hbounds t ht).1, hsorted⟩

end Spec

/-- The TaskRuns made for the roots and for the other tasks are one for each task that has none. -/
theorem taskIds_of_made {dag : Dag} {existing : List TaskRunObj} {dagrunId : Uuid}
    {roots others : List TaskRunRow}
    (hroots : List.Forall₂ (fun task t => t = DagRun.newTaskRun dagrunId task .queued t.runId)
      (DagRun.tasksToCreate dag existing).1 roots)
    (hothers : List.Forall₂ (fun task t => t = DagRun.newTaskRun dagrunId task .scheduled t.runId)
      (DagRun.tasksToCreate dag existing).2 others) :
    ((roots ++ others).map TaskRunRow.taskId).Perm
      ((dag.tasks.filter fun t => t.taskId ∉ existing.map (·.row.taskId)).map Task.taskId) := by
  have hmap : ∀ {st : TaskRunState} {tasks : List Task} {trs : List TaskRunRow},
      List.Forall₂ (fun task t => t = DagRun.newTaskRun dagrunId task st t.runId) tasks trs →
      trs.map TaskRunRow.taskId = tasks.map Task.taskId := by
    intro st tasks trs h
    induction h with
    | nil => rfl
    | cons hd _ ih => rw [List.map_cons, List.map_cons, ih, hd]; rfl
  rw [List.map_append, hmap hroots, hmap hothers, ← List.map_append]
  refine List.Perm.map _ ?_
  simpa [DagRun.tasksToCreate] using List.filter_append_perm (· ∈ dag.roots)
    (dag.tasks.filter fun t => t.taskId ∉ existing.map (·.row.taskId))

/-- A TaskRun made for a task belongs to the run and the DAG. -/
theorem newTaskRun_of_made {dag : Dag} {dagrunId : Uuid} {st : TaskRunState} {tasks : List Task}
    {trs : List TaskRunRow} (hsub : ∀ task ∈ tasks, task ∈ dag.tasks)
    (h : List.Forall₂ (fun task t => t = DagRun.newTaskRun dagrunId task st t.runId) tasks trs)
    {t : TaskRunRow} (ht : t ∈ trs) :
    t.state = st ∧ t.dagrunId = dagrunId ∧ t.dagId = dag.dagId := by
  induction h with
  | nil => cases ht
  | cons hd _ ih =>
    rw [List.forall_mem_cons] at hsub
    rcases List.mem_cons.mp ht with rfl | ht
    · rw [hd]
      exact ⟨rfl, rfl, dag.dagId_eq _ hsub.1⟩
    · exact ih hsub.2 ht

/-- The TaskRuns made for the roots are QUEUED and the others SCHEDULED. -/
theorem runs_of_made {dag : Dag} {existing : List TaskRunObj} {dagrunId : Uuid}
    {roots others : List TaskRunRow}
    (hroots : List.Forall₂ (fun task t => t = DagRun.newTaskRun dagrunId task .queued t.runId)
      (DagRun.tasksToCreate dag existing).1 roots)
    (hothers : List.Forall₂ (fun task t => t = DagRun.newTaskRun dagrunId task .scheduled t.runId)
      (DagRun.tasksToCreate dag existing).2 others) :
    ∀ t ∈ roots ++ others, (t.state = .queued ∨ t.state = .scheduled) ∧
      t.dagrunId = dagrunId ∧ t.dagId = dag.dagId := by
  intro t ht
  rcases List.mem_append.mp ht with ht | ht
  · obtain ⟨hst, hrun⟩ := newTaskRun_of_made (fun _ h => List.mem_of_mem_filter
      (List.mem_of_mem_filter h)) hroots ht
    exact ⟨Or.inl hst, hrun⟩
  · obtain ⟨hst, hrun⟩ := newTaskRun_of_made (fun _ h => List.mem_of_mem_filter
      (List.mem_of_mem_filter h)) hothers ht
    exact ⟨Or.inr hst, hrun⟩

/-- With plain task ids no existing TaskRun is found: none has the run id of a DagRun. -/
theorem Fetched.eq_nil_of_plain {ts : ℕ} {run run₀ : DagRunRow} {dag : Dag} {trs : List TaskRunObj}
    (h : Fetched s ts (DagRun.existingFilter run dag) trs) (hplain : dag.Plain)
    (hc : Tables s (s.store.asOf ts)) (hrun : Db.dagRun (s.store.asOf ts) run.runId = some run₀) :
    trs = [] := by
  refine List.eq_nil_iff_forall_not_mem.mpr fun tr htr => ?_
  have hmem : tr.row ∈ trs.map TaskRunObj.row := List.mem_map_of_mem htr
  rw [h.rows] at hmem
  have hnone := hc.disjoint _ _ (h.mem htr).1
  rw [((DagRun.mem_existing_of_plain hplain).mp hmem).2.1, hrun] at hnone
  cases hnone

namespace Spec

/-- In the transaction that read the DagRun as SCHEDULED. -/
theorem initTaskRunsForRun {ts : ℕ} {self : Ref} {dag : Dag} {j : DagRunIdent}
    (hs : Stmt i (some ts) w s) (hj : s.runIdent self = some j) (hdag : s.dag? j.dagId = some dag)
    (hrun : ∃ run₀, Db.dagRun (s.store.asOf ts) j.runId = some run₀ ∧ j = run₀.ident ∧
      run₀.state = .scheduled) :
    Spec i (DagRun.initTaskRunsForRun self dag) (Ends i (some ts) fun trs w' s' => w' = w ∧
      ∀ run : DagRunRow, run.ident = j → run.state = .queued →
        Queues s' (s'.store.asOf ts) run dag trs) l s := by
  refine bind (readDagRun hs) fun row w₁ l₁ s₁ hs₁ h₁ hg₁ => ?_
  obtain ⟨rfl, _, href⟩ := h₁
  obtain rfl : row.ident = j := by
    rw [hg₁.dagRuns _ _ hj] at href
    exact (Option.some.inj href).symm
  refine bind (fetchRows hs₁) fun existing w₂ l₂ s₂ hs₂ h₂ hg₂ => ?_
  obtain ⟨rfl, ts', hts', hfetched⟩ := h₂
  obtain rfl := hts'.start ts rfl
  have hle := hs.le_now ts' rfl
  have hrun₂ : ∃ run₀, Db.dagRun (s₂.store.asOf ts') row.runId = some run₀ ∧ row.ident = run₀.ident ∧
      run₀.state = .scheduled := by
    rw [(hg₁.trans hg₂).store.asOf_eq hle]
    exact hrun
  have hnil : dag.Plain → existing = [] := by
    intro hplain
    obtain ⟨run₀, hr₀, _⟩ := hrun₂
    exact hfetched.eq_nil_of_plain hplain (hs₂.consistent.tables ts') hr₀
  refine bind (newRuns hs₂) fun roots w₃ l₃ s₃ hs₃ h₃ hg₃ => ?_
  obtain ⟨rfl, hroots, hlo, hsorted⟩ := h₃
  refine bind (newRuns hs₃) fun others w₄ l₄ s₄ hs₄ h₄ hg₄ => ?_
  obtain ⟨rfl, hothers, hlo', hsorted'⟩ := h₄
  refine ret hs₄ ⟨rfl, fun run hident hst => ?_⟩
  have heq : s₄.store.asOf ts' = s₂.store.asOf ts' :=
    (hg₃.trans hg₄).store.asOf_eq (hs₂.le_now ts' rfl)
  simp only [DagRunRow.ident, DagRunIdent.mk.injEq] at hident hj
  have hdag₄ : s₄.dag? run.dagId = some dag := by
    rw [(hg₁.trans (hg₂.trans (hg₃.trans hg₄))).knows.dag?, hident.2]
    exact hdag
  have hdagId : dag.dagId = row.dagId := s.dagId_of_dag? hdag
  have hperm := taskIds_of_made hroots hothers
  have hbound : ∀ t ∈ roots ++ others, s₂.uuids ≤ t.runId ∧ t.runId < s₄.uuids := by
    intro t ht
    rcases List.mem_append.mp ht with ht | ht
    · exact ⟨(hlo t ht).1, (hlo t ht).2.trans_le hg₄.knows.uuids⟩
    · exact ⟨hg₃.knows.uuids.trans (hlo' t ht).1, (hlo' t ht).2⟩
  have hmade := runs_of_made hroots hothers
  have hids : ((roots ++ others).map TaskRunRow.runId).Nodup := by
    rw [List.Nodup, List.pairwise_map, List.pairwise_append]
    refine ⟨hsorted.imp fun h => Nat.ne_of_lt h, hsorted'.imp fun h => Nat.ne_of_lt h,
      fun t ht t' ht' => Nat.ne_of_lt ((hlo t ht).2.trans_le (hlo' t' ht').1)⟩
  have htasks : ((roots ++ others).map TaskRunRow.taskId).Nodup :=
    hperm.nodup_iff.mpr ((List.filter_sublist.map _).nodup dag.nodup)
  rw [heq]
  refine ⟨?_, hst, hdag₄, fun hplain taskId hm => ?_, fun t ht => ?_, fun t ht t' ht' h => ?_,
    fun t ht t' ht' h => ?_, fun t ht => ?_, fun t ht => ?_, fun t ht => (hmade t ht).1⟩
  · obtain ⟨run₀, hr₀, hi₀, hs₀⟩ := hrun₂
    exact ⟨run₀, hident.1 ▸ hr₀, hi₀ ▸ by simp [DagRunRow.ident, hident], hs₀⟩
  · refine List.mem_map.mp (hperm.mem_iff.mpr ?_)
    rw [hnil hplain]
    simpa using List.mem_map.mp hm
  · obtain ⟨task, htask, hid⟩ := List.mem_map.mp (hperm.mem_iff.mp (List.mem_map_of_mem ht))
    exact List.mem_map.mpr ⟨task, List.mem_of_mem_filter htask, hid⟩
  · exact List.inj_on_of_nodup_map htasks ht ht' h
  · exact List.inj_on_of_nodup_map hids ht ht' h
  · have hlt := (hbound t ht).1
    exact ⟨(hs₂.consistent.tables ts').taskRun_none hlt, (hg₃.trans hg₄).tables.dagRun_none _
      (hs₂.consistent.db.dagRun_none hlt), (hbound t ht).2⟩
  · obtain ⟨_, h1, h2⟩ := hmade t ht
    exact ⟨h1.trans hident.1.symm, h2.trans (hdagId.trans hident.2.symm)⟩

/-- The transaction commits nothing, or the batch that queues the run. -/
theorem queueRunAtomic {self : Ref} {dag : Dag} {j : DagRunIdent} (hs : Stmt i none w s)
    (hj : s.runIdent self = some j) (hdag : s.dag? j.dagId = some dag) :
    Spec i (DagRun.queueRunAtomic self dag) (Ends i none fun _ _ _ => True) l s := by
  refine transaction (Q := fun ts _ w s' => w = [] ∨ ∃ run trs, w = batch run trs ∧
      Queues s' (s'.store.asOf ts) run dag trs) hs (fun ts l₁ s₁ hs₁ _ hg₁ => ?_)
    (fun ts _ w s' s'' hq hs' hr hc hw => ?_) fun _ _ _ _ _ _ _ _ _ _ => trivial
  · refine bind (readDagRun hs₁) fun row w₂ l₂ s₂ hs₂ h₂ hg₂ => ?_
    obtain ⟨rfl, hrow, href⟩ := h₂
    have hj₂ : s₂.runIdent self = some j := (hg₁.trans hg₂).dagRuns _ _ hj
    obtain rfl : row.ident = j := by
      rw [hj₂] at href
      exact (Option.some.inj href).symm
    refine bind (get hs₂) fun res w₃ l₃ s₃ hs₃ h₃ hg₃ => ?_
    obtain ⟨rfl, hres⟩ := h₃
    cases res with
    | none => exact ret hs₃ (Or.inl rfl)
    | some run =>
      obtain ⟨hid, ts', hts', hrun⟩ := hres run rfl
      obtain rfl := hts' ts rfl
      show Spec i (if _ then _ else _) _ _ _
      split_ifs with hst
      · exact ret hs₃ (Or.inl rfl)
      have hident : row.ident = run.row.ident := (hrow.mono hg₃).unique hrun.hasDagRun hid.symm
      have hsched : ∃ run₀, Db.dagRun (s₃.store.asOf ts') row.ident.runId = some run₀ ∧
          row.ident = run₀.ident ∧ run₀.state = .scheduled :=
        ⟨run.row, by rw [hident]; exact hrun.row, hident, not_not.mp hst⟩
      refine bind (initTaskRunsForRun hs₃ (hg₃.dagRuns _ _ hj₂) ?_ hsched)
        fun trs w₄ l₄ s₄ hs₄ h₄ hg₄ => ?_
      · rw [(hg₁.trans (hg₂.trans hg₃)).knows.dag?]
        exact hdag
      obtain ⟨rfl, hqueues⟩ := h₄
      have hinsert : Spec i (P.unlessEmpty trs (P.upsertRows (trs.map Row.taskRun) none))
          (Ends i (some ts') fun _ w' _ => w' = trs.map .taskRun) l₄ s₄ := by
        unfold P.unlessEmpty
        split
        · rename_i hnil
          exact ret hs₄ (by rw [List.isEmpty_iff.mp hnil]; rfl)
        · exact (insert hs₄ (by simp)).mono fun _ _ _ _ h => h
      refine bind hinsert fun _ w₅ l₅ s₅ hs₅ hw₅ hg₅ => ?_
      refine (dagRunSetState hs₅ ((hg₃.trans (hg₄.trans hg₅)).dagRuns _ _ hj₂) (by simp)).mono
        fun _ w₆ s₆ hg₆ h₆ => ?_
      obtain ⟨run', rfl, hi, hst'⟩ := h₆
      subst hw₅
      exact Or.inr ⟨run', trs, rfl, (hqueues run' hi hst').mono (hg₅.trans hg₆)
        (hs₄.le_now ts' rfl)⟩
  · rcases hq with rfl | ⟨run, trs, rfl, hq⟩
    · exact absurd rfl hw
    · exact .queues (hq.mono hr.grows (hs'.le_now ts rfl))

end Spec

/-! ### `update_state` and `schedule_trs` -/

/-- What `update_state` returns was ready among the rows it read. -/
theorem ready_of_released {dag : Dag} {trs : List TaskRunObj} {tr : TaskRunObj}
    (htr : tr ∈ DagRun.releasedTrs dag trs) : Ready dag (trs.map TaskRunObj.row) tr.row.runId := by
  obtain ⟨hnone, hmem, hst, hup⟩ := DagRun.mem_releasedTrs.mp htr
  refine ⟨fun t ht hf => ?_, tr.row, List.mem_map_of_mem hmem, rfl, hst, fun u hu => ?_⟩
  · rw [DagRun.anyFailed_iff.mpr ⟨t, ht, hf⟩] at hnone
    cases hnone
  · obtain ⟨up, hup, hid, hfin⟩ := hup u hu
    exact ⟨up.row, List.mem_map_of_mem hup, hid, hfin⟩

/-- The rows written for updates of objects that stand for fetched rows. -/
theorem AllUpdated.of_objs {st : TaskRunState} {trs xs : List TaskRunObj}
    (h : AllUpdated s UpdateRow.OfObj (trs.map fun tr => { row := .obj tr.ref, state := some st }) xs)
    (href : ∀ tr ∈ trs, HasTaskRun s tr.row.ident ∧ s.trIdent tr.ref = some tr.row.ident) :
    (∀ x ∈ xs, x.row.state = st ∧ ∃ tr ∈ trs, x.row.ident = tr.row.ident) ∧
      ∀ tr ∈ trs, ∃ x ∈ xs, x.row.ident = tr.row.ident := by
  have hident : ∀ {x : TaskRunObj} {tr : TaskRunObj}, tr ∈ trs →
      Updated s { row := .obj tr.ref, state := some st } x → x.row.ident = tr.row.ident := by
    intro x tr htr hup
    obtain ⟨k, hk, hid⟩ := hup.names
    rw [(href tr htr).2] at hk
    cases hk
    exact hup.persisted.unique (href tr htr).1 hid.symm
  constructor
  · intro x hx
    obtain ⟨u, hu, hup⟩ := h.sound x hx
    obtain ⟨tr, htr, rfl⟩ := List.mem_map.mp hu
    exact ⟨(Option.some.inj hup.state).symm, tr, htr, hident htr hup⟩
  · intro tr htr
    obtain ⟨x, hx, hup⟩ := h.complete _ (List.mem_map_of_mem htr) ⟨_, rfl⟩ rfl
    exact ⟨x, hx, hident htr hup⟩

namespace Spec

theorem fetchTrs {self : Ref} {dag : Dag} {j : DagRunIdent} (hs : Stmt i m w s)
    (hj : s.runIdent self = some j) :
    Spec i (DagRun.fetchTrs self dag) (Ends i m fun trs w' s' => w' = w ∧ ∃ ts,
      (∀ ts', m = some ts' → ts = ts') ∧ ∀ run : DagRunRow, run.ident = j →
        Fetched s' ts (DagRun.trsFilter run dag) trs) l s := by
  refine bind (readDagRun hs) fun row w₁ l₁ s₁ hs₁ h₁ hg₁ => ?_
  obtain ⟨rfl, hrow, href⟩ := h₁
  obtain rfl : row.ident = j := by
    rw [hg₁.dagRuns _ _ hj] at href
    exact (Option.some.inj href).symm
  refine (fetchRows hs₁).conseq fun trs w₂ s₂ hs₂ hg₂ h₂ => ?_
  obtain ⟨hw₂, ts, hts, hf⟩ := h₂
  refine ⟨hw₂, ts, hts.start, fun run hrun => ?_⟩
  rwa [DagRun.trsFilter_congr hrun]

end Spec

/-- What `update_state` writes was decided from the rows it read. -/
theorem verdict {ts : ℕ} {j : DagRunIdent} {trs xs : List TaskRunObj} {run : DagRunRow}
    (ht : ∀ tr ∈ trs, Db.taskRun (s.store.asOf ts) tr.row.runId = some tr.row)
    (hrefs : Spec.FetchedOk s trs)
    (hrun : ∃ run₀, Db.dagRun (s.store.asOf ts) j.runId = some run₀ ∧ j = run₀.ident ∧
      run₀.state ≠ .scheduled)
    (hx : AllUpdated s UpdateRow.OfObj ((DagRun.skippableTrs trs).map fun tr =>
      { row := .obj tr.ref, state := some .skipped }) xs)
    (hi : run.ident = j) (hst : run.state = DagRun.runState trs) :
    Verdict (s.store.asOf ts) (trs.map TaskRunObj.row) run (xs.map TaskRunObj.row) := by
  have hrid : run.runId = j.runId := congrArg DagRunIdent.runId hi
  have hskip : ∀ tr ∈ DagRun.skippableTrs trs, DagRun.anyFailed trs = true ∧ tr ∈ trs ∧
      (tr.row.state = .scheduled ∨ tr.row.state = .queued) :=
    fun tr htr => DagRun.mem_skippableTrs.mp htr
  obtain ⟨hsound, hcomplete⟩ := hx.of_objs fun tr htr => hrefs tr (hskip tr htr).2.1
  have hfailed : run.state = .failed ↔ ∃ t ∈ trs.map TaskRunObj.row, t.state = .failed := by
    rw [hst, DagRun.runState_eq_failed, DagRun.anyFailed_iff]
  refine ⟨?_, ?_, hfailed, ?_, fun t htx => ?_, fun hf t₀ ht₀ hwait => ?_⟩
  · obtain ⟨run₀, hr₀, hi₀, hs₀⟩ := hrun
    exact ⟨run₀, hrid ▸ hr₀, hi.trans hi₀, hs₀⟩
  · rw [hst]
    exact DagRun.runState_cases trs
  · rw [hst, DagRun.runState_eq_running]
    simp
  · obtain ⟨x, hxm, rfl⟩ := List.mem_map.mp htx
    obtain ⟨hskipped, tr, htr, hident⟩ := hsound x hxm
    obtain ⟨hany, hmem, hwait⟩ := hskip tr htr
    refine ⟨hskipped, hfailed.mpr (DagRun.anyFailed_iff.mp hany), tr.row, List.mem_map_of_mem hmem, ?_,
      hident, hwait⟩
    rw [TaskRunRow.runId_of_ident hident]
    exact ht tr hmem
  · obtain ⟨tr, htr, rfl⟩ := List.mem_map.mp ht₀
    have hany := DagRun.anyFailed_iff.mpr (hfailed.mp hf)
    obtain ⟨x, hxm, hident⟩ := hcomplete tr (DagRun.mem_skippableTrs.mpr ⟨hany, htr, hwait⟩)
    exact ⟨x.row, List.mem_map_of_mem hxm, TaskRunRow.runId_of_ident hident⟩

/-- What `update_state` writes and returns after it read the tables of time `ts`. -/
structure Judges (s : Shared) (ts : ℕ) (dag : Dag) (run : DagRunRow) (skipped : List TaskRunRow)
    (tids : List Uuid) : Prop where
  loaded : s.dag? run.dagId = some dag
  verdict : Verdict (s.store.asOf ts) (DagRun.readTrs s.engine (s.store.asOf ts) run dag) run skipped
  ready : ∀ tid ∈ tids, Ready dag (DagRun.readTrs s.engine (s.store.asOf ts) run dag) tid

theorem Judges.mono {ts : ℕ} {dag : Dag} {run : DagRunRow} {skipped : List TaskRunRow}
    {tids : List Uuid} (h : Judges s ts dag run skipped tids) (hg : Grows s s')
    (hts : ts ≤ s.store.now) : Judges s' ts dag run skipped tids := by
  have heq := hg.store.asOf_eq hts
  refine ⟨(hg.knows.dag? _).trans h.loaded, ?_, ?_⟩
  · rw [heq, hg.knows.engine]
    exact h.verdict
  · rw [heq, hg.knows.engine]
    exact h.ready

namespace Spec

/-- The decisions of one transaction, and the TaskRuns it found ready. -/
theorem updateState {self : Ref} {dag : Dag} {j : DagRunIdent} (hs : Stmt i none w s)
    (hj : s.runIdent self = some j) (ha : Active s j) (hdag : s.dag? j.dagId = some dag) :
    Spec i (DagRun.updateState self dag)
      (Ends i none fun tids _ s' => Decided i s' j.runId tids) l s := by
  refine transaction (Q := fun ts tids w s' => ∃ run skipped, w = batch run skipped ∧
      run.runId = j.runId ∧ Judges s' ts dag run skipped tids) hs
    (fun ts l₁ s₁ hs₁ hdb hg₁ => ?_) (fun ts _ w s' s'' hq hs' hr _ _ => ?_)
    fun ts tids w s' s'' hq hle hg hlog _ => ?_
  · refine bind (fetchTrs hs₁ (hg₁.dagRuns _ _ hj)) fun trs w₂ l₂ s₂ hs₂ h₂ hg₂ => ?_
    obtain ⟨rfl, ts', hts', hfetched⟩ := h₂
    obtain rfl := hts' ts rfl
    have hrun : ∃ run₀, Db.dagRun (s₂.store.asOf ts') j.runId = some run₀ ∧ j = run₀.ident ∧
        run₀.state ≠ .scheduled := by
      rw [hg₂.store.asOf_eq (hs₁.le_now ts' rfl), hdb]
      obtain ⟨run₀, h₀, hi, hne⟩ := ha.mono hg₁
      exact ⟨run₀, h₀, hi.symm, hne⟩
    have hskip : Spec i (P.unlessEmpty (DagRun.skippableTrs trs)
        (DagRun.skipTrs (DagRun.skippableTrs trs))) (Ends i (some ts') fun _ w' s' => ∃ xs,
          w' = xs.map (fun x => .taskRun x.row) ∧ AllUpdated s' UpdateRow.OfObj
            ((DagRun.skippableTrs trs).map fun tr => { row := .obj tr.ref, state := some .skipped })
            xs) l₂ s₂ := by
      unfold P.unlessEmpty
      split
      · rename_i hnil
        rw [List.isEmpty_iff.mp hnil]
        exact ret hs₂ ⟨[], rfl, by simp, by simp⟩
      · refine bind (setState .skipped hs₂ (by simp) fun u hu => ?_)
          fun _ w₃ l₃ s₃ hs₃ h₃ _ => ret hs₃ (h₃.imp fun xs h =>
            ⟨h.1, h.2.weaken fun _ _ => Or.inl⟩)
        obtain ⟨tr, _, rfl⟩ := List.mem_map.mp hu
        exact ⟨rfl, by decide, by simp⟩
    refine bind hskip fun _ w₃ l₃ s₃ hs₃ h₃ hg₃ => ?_
    obtain ⟨xs, rfl, hx⟩ := h₃
    refine bind (dagRunSetState hs₃ ((hg₁.trans (hg₂.trans hg₃)).dagRuns _ _ hj) (by simp))
      fun _ w₄ l₄ s₄ hs₄ h₄ hg₄ => ?_
    obtain ⟨run, rfl, hi, hst⟩ := h₄
    have hf := (hfetched run hi).mono (hg₃.trans hg₄)
    have hread : trs.map TaskRunObj.row =
        DagRun.readTrs s₄.engine (s₄.store.asOf ts') run dag := hf.rows
    have hrefs : FetchedOk s₄ trs := fun tr htr => ⟨hf.hasTaskRun htr, hf.refs tr htr⟩
    refine ret hs₄ ⟨run, xs.map TaskRunObj.row, by simp [batch], congrArg DagRunIdent.runId hi,
      ?_, ?_, fun tid htid => ?_⟩
    · rw [(hg₁.trans (hg₂.trans (hg₃.trans hg₄))).knows.dag?]
      exact (congrArg (fun k : DagRunIdent => s.dag? k.dagId) hi).trans hdag
    · rw [← hread]
      refine verdict (fun tr htr => (hf.mem htr).1) hrefs ?_ (hx.mono hg₄) hi hst
      rw [(hg₃.trans hg₄).store.asOf_eq (hs₂.le_now ts' rfl)]
      exact hrun
    · obtain ⟨tr, htr, rfl⟩ := List.mem_map.mp htid
      rw [← hread]
      exact ready_of_released htr
  · obtain ⟨run, skipped, rfl, _, hq⟩ := hq
    have hq := hq.mono hr.grows (hs'.le_now ts rfl)
    exact .verdict hq.loaded hq.verdict
  · obtain ⟨run, skipped, rfl, hrid, hq⟩ := hq
    have hq := hq.mono hg hle
    obtain ⟨run₀, h₀, hi, _⟩ := hq.verdict.persisted
    exact ⟨_, hlog (by simp [batch]), rfl, rfl, hle.trans hg.store.now_le, run, dag, by simp, hrid,
      ⟨run₀, h₀, hi⟩, hq.loaded, hq.ready⟩

/-- The transaction commits nothing, or releases TaskRuns that were found ready. -/
theorem scheduleTrs {runId : Uuid} {tids : List Uuid} (hs : Stmt i none w s)
    (hd : Decided i s runId tids) :
    Spec i (DagRun.scheduleTrs runId tids) (Ends i none fun _ _ _ => True) l s := by
  unfold DagRun.scheduleTrs
  split
  · exact ret hs trivial
  refine transaction (Q := fun ts _ w s' => w = [] ∨ ∃ trs, w = trs.map .taskRun ∧
      Releases i s' (s'.store.asOf ts) runId trs) hs (fun ts l₁ s₁ hs₁ _ hg₁ => ?_)
    (fun ts _ w s' s'' hq hs' hr hc hw => ?_) fun _ _ _ _ _ _ _ _ _ _ => trivial
  · refine bind (fetchRows hs₁) fun trs w₂ l₂ s₂ hs₂ h₂ hg₂ => ?_
    obtain ⟨rfl, ts', hts', hf⟩ := h₂
    obtain rfl := hts'.start ts rfl
    split
    · exact ret hs₂ (Or.inl rfl)
    refine bind (setState .queued hs₂ (by simp) fun u hu => ?_)
      fun _ w₃ l₃ s₃ hs₃ h₃ hg₃ => ?_
    · obtain ⟨tr, _, rfl⟩ := List.mem_map.mp hu
      exact ⟨rfl, by decide, by simp⟩
    obtain ⟨xs, rfl, hx⟩ := h₃
    have hf₃ := hf.mono hg₃
    obtain ⟨hsound, _⟩ := (hx.weaken fun _ _ => Or.inl).of_objs fun tr htr => ⟨hf₃.hasTaskRun htr, hf₃.refs tr htr⟩
    have hrow : ∀ x ∈ xs, x.row.state = .queued ∧ x.row.runId ∈ tids ∧ ∃ t₀,
        Db.taskRun (s₃.store.asOf ts') x.row.runId = some t₀ ∧ x.row.ident = t₀.ident ∧
        t₀.state = .scheduled ∧ t₀.dagrunId = runId := by
      intro x hxm
      obtain ⟨hst, tr, htr, hident⟩ := hsound x hxm
      obtain ⟨hrow, hacc⟩ := hf₃.mem htr
      simp only [TaskRunFilter.accepts_of_taskId_none, TaskRunFilter.agrees, Bool.and_eq_true,
        FilterValue.acceptsOpt_eq, FilterValue.acceptsOpt_mem] at hacc
      rw [TaskRunRow.runId_of_ident hident]
      exact ⟨hst, hacc.1.1.1.1.1.1, tr.row, hrow, hident, hacc.1.1.2, hacc.1.1.1.2⟩
    refine ret hs₃ (Or.inr ⟨xs.map TaskRunObj.row, by simp, ⟨fun t ht => ?_, ?_⟩⟩)
    · obtain ⟨x, hxm, rfl⟩ := List.mem_map.mp ht
      exact ⟨(hrow x hxm).1, (hrow x hxm).2.2⟩
    · refine hd.mono (hg₁.trans (hg₂.trans hg₃)) fun tid htid => ?_
      simp only [List.map_map, List.mem_map, Function.comp_apply] at htid
      obtain ⟨x, hxm, rfl⟩ := htid
      exact (hrow x hxm).2.1
  · rcases hq with rfl | ⟨trs, rfl, hq⟩
    · exact absurd rfl hw
    · exact .releases (hq.mono hr.grows (hs'.le_now ts rfl))

end Spec

end YtScheduler
