import YtScheduler.Laws.Verdict

/-! DagRuns whose DAG cannot be loaded. The warning about one reads an attribute of the
missing DAG, so the loop over the DagRuns ends there: the others are all served exactly
if there is none. -/

namespace YtScheduler

open Tablet Threads

variable {i : ℕ} {s s' : Shared} {refs : List Ref}

/-- What `_get_dag` returns for a DagRun. -/
def dagOf (s : Shared) (i : ℕ) (run : Ref) : Option Dag :=
  (s.mem.dagRuns[run]?).bind fun row =>
    (dagRefsOf row.dagId (s.reads i)).head?.bind fun ref => s.dag? ref.dagId

namespace Scheduler

theorem yields_getDagRef (dagId : Uuid) (s : Shared) :
    Yields i (getDagRef dagId) s (dagRefsOf dagId (s.reads i)).head? s := by
  have hselect : Yields i (P.call (.select none (.dagRefs dagId))) s (dagRefsOf dagId (s.reads i)) s :=
    Yields.select rfl
  exact Yields.catching (hselect.bind (Yields.ret _ s))

theorem yields_getDag (ref : Option DagRefRow) (s : Shared) :
    Yields i (getDag ref) s (ref.bind fun ref => s.dag? ref.dagId) s := by
  cases ref with
  | none => exact Yields.ret none s
  | some ref =>
    rw [Option.bind_some]
    cases hdag : s.dag? ref.dagId with
    | none =>
      have hload : Comes i (P.call (.deserializeDag ref.dagId)) s (.error .dagInitialization) s := by
        refine Comes.op_error fun ch l hch => ?_
        simp only [Op.exec, hch, hdag]
      exact (Comes.attempt hload.bind_error).bind (Yields.ret none s)
    | some dag =>
      have hload : Yields i (P.call (.deserializeDag ref.dagId)) s dag s := by
        refine Yields.op fun ch l hch => ⟨l, ?_⟩
        simp only [Op.exec, hch, hdag]
      exact Yields.catching (hload.bind (Yields.ret (some dag) s))

/-- A round of either loop over DagRuns begins alike. -/
theorem comes_load {run : Ref} {row : DagRunRow} (hrun : s.mem.dagRuns[run]? = some row)
    {k : DagRunRow → Option Dag → P Unit} {r : Except Exn Unit}
    (hk : Comes i (k row (dagOf s i run)) s r s') :
    Comes i ((P.mem (.readDagRun run)).bind fun row =>
      (getDagRef row.dagId).bind fun ref => (getDag ref).bind fun dag => k row dag) s r s' := by
  have hread : Yields i (P.mem (.readDagRun run)) s row s :=
    Yields.mem fun _ => by simp [Mem.exec, hrun]
  rw [dagOf, hrun] at hk
  exact hread.bind_comes ((yields_getDagRef row.dagId s).bind_comes ((yields_getDag _ s).bind_comes hk))

end Scheduler

/-! ### Queueing -/

/-- The jobs for the DagRuns whose DAG can be loaded, in order. -/
def queueJobs (s : Shared) (i : ℕ) (refs : List Ref) : List Job :=
  refs.filterMap fun run => (dagOf s i run).map (Job.queueRunAtomic run)

/-- The jobs were submitted by thread `i`, in order, and nothing else happened. -/
def Submits (i : ℕ) (jobs : List Job) (s s' : Shared) : Prop :=
  s' = { s with mem := { s.mem with
    queueables := s.mem.queueables ++ jobs.map fun fn => { owner := i, fn }
    queue := s.mem.queue ++ List.range' s.mem.queueables.length jobs.length } }

theorem Submits.submit {jobs : List Job} (h : Submits i jobs s s') (fn : Job) :
    ∃ q s'', Yields i (Pool.submit fn) s' q s'' ∧ Submits i (jobs ++ [fn]) s s'' := by
  refine ⟨_, _, Yields.mem fun _ => rfl, ?_⟩
  rw [h, Submits]
  simp [List.range'_1_concat]

theorem Submits.dagRuns {jobs : List Job} (h : Submits i jobs s s') :
    s'.mem.dagRuns = s.mem.dagRuns := by
  rw [h]

theorem Submits.dagOf_eq {jobs : List Job} (h : Submits i jobs s s') (run : Ref) :
    dagOf s' i run = dagOf s i run := by
  rw [h]
  rfl

/-- What the callback of `_queue_scheduled_dagruns` does with the DAG of a DagRun. -/
def queueLoaded (run : Ref) : Option Dag → P Unit
  | none => Prog.raise .attributeError
  | some dag => do
    let _ ← Pool.submit (.queueRunAtomic run dag)
    pure ()

def queueRound (run : Ref) : P Unit := do
  let row ← P.mem (.readDagRun run)
  let ref ← Scheduler.getDagRef row.dagId
  let dag ← Scheduler.getDag ref
  queueLoaded run dag

/-- The jobs for the first DagRuns were submitted, and the others are at hand. -/
structure Queueing (i : ℕ) (s : Shared) (done rest : List Ref) (s' : Shared) : Prop where
  submits : Submits i (queueJobs s i done) s s'
  known : ∀ run ∈ rest, ∃ row, s.mem.dagRuns[run]? = some row

theorem comes_queueRounds (hrefs : ∀ run ∈ refs, ∃ row, s.mem.dagRuns[run]? = some row) :
    ∃ r s', Comes i (Prog.forEach refs queueRound) s r s' ∧
      ((∀ run ∈ refs, (dagOf s i run).isSome = true) → r = .ok () ∧ Queueing i s refs [] s') ∧
      (r = .ok () → ∀ run ∈ refs, (dagOf s i run).isSome = true) := by
  have hround : ∀ {done run rest s₁ r s₂}, Queueing i s done (run :: rest) s₁ →
      Comes i (queueLoaded run (dagOf s i run)) s₁ r s₂ →
      Comes i (queueRound run) s₁ r s₂ := by
    intro done run rest s₁ r s₂ h hk
    obtain ⟨row, hrow⟩ := h.known run List.mem_cons_self
    rw [← h.submits.dagRuns] at hrow
    rw [← h.submits.dagOf_eq] at hk
    exact Scheduler.comes_load hrow (k := fun _ => queueLoaded run) hk
  apply Comes.forEach (fun run => (dagOf s i run).isSome = true) (Queueing i s)
  · intro done run rest s₁ h hgood
    obtain ⟨dag, hdag⟩ := Option.isSome_iff_exists.mp hgood
    obtain ⟨q, s₂, hsubmit, hsubmits⟩ := h.submits.submit (.queueRunAtomic run dag)
    refine ⟨s₂, hround h ?_, ?_, (List.forall_mem_cons.mp h.known).2⟩
    · rw [hdag]
      exact hsubmit.bind (Yields.ret () s₂)
    · rw [queueJobs, List.filterMap_append, List.filterMap_cons, hdag]
      exact hsubmits
  · intro done run rest s₁ h hbad
    rw [Bool.not_eq_true, Option.isSome_eq_false_iff, Option.isNone_iff_eq_none] at hbad
    refine ⟨s₁, hround h ?_⟩
    rw [hbad]
    exact Comes.raise _ s₁
  · exact ⟨by simp [Submits, queueJobs], hrefs⟩

/-! ### Scheduling -/

/-- The DagRuns that commits wrote, oldest first. -/
def dagRunsWritten (cs : List (Commit Row)) : List Uuid :=
  cs.reverse.flatMap fun c => (c.rows.filterMap RowKind.proj).map DagRunRow.runId

theorem dagRunsWritten_append (cs cs' : List (Commit Row)) :
    dagRunsWritten (cs ++ cs') = dagRunsWritten cs' ++ dagRunsWritten cs := by
  rw [dagRunsWritten, List.reverse_append, List.flatMap_append]
  rfl

/-- The run ids of the DagRuns whose DAG can be loaded, in order. -/
def loadableRuns (s : Shared) (i : ℕ) (refs : List Ref) : List Uuid :=
  (refs.filter fun run => (dagOf s i run).isSome).filterMap fun run =>
    (s.mem.dagRuns[run]?).map DagRunRow.runId

/-- `update_state` wrote the DagRuns of the given ids, in order, and nothing else changed that a
later round depends on. -/
structure Updates (i : ℕ) (ids : List Uuid) (s s' : Shared) : Prop where
  written : ∃ cs, s'.store.log = cs ++ s.store.log ∧ dagRunsWritten cs = ids
  opened : s'.opened (.thread i) = []
  dagRefs : s'.db.dagRefs = s.db.dagRefs
  dags : s'.dags = s.dags
  ident : ∀ run : Ref, (s'.mem.dagRuns[run]?).map DagRunRow.ident = (s.mem.dagRuns[run]?).map DagRunRow.ident

/-- Outside a transaction a select reads the tables. -/
theorem reads_of_closed (hopen : s.opened (.thread i) = []) : s.reads i = s.db := by
  rw [Shared.reads, Shared.snapshot, hopen]
  exact Store.asOf_now s.store

theorem dagOf_congr (hreads : (s'.reads i).dagRefs = (s.reads i).dagRefs) (hdags : s'.dags = s.dags)
    {run : Ref} (hident : (s'.mem.dagRuns[run]?).map DagRunRow.ident =
      (s.mem.dagRuns[run]?).map DagRunRow.ident) : dagOf s' i run = dagOf s i run := by
  have hbind : ∀ s : Shared, dagOf s i run = ((s.mem.dagRuns[run]?).map DagRunRow.ident).bind fun id =>
      (dagRefsOf id.dagId (s.reads i)).head?.bind fun ref => s.dag? ref.dagId := by
    intro s
    rw [Option.bind_map]
    rfl
  rw [hbind, hbind, hident]
  simp only [dagRefsOf, hreads, Shared.dag?, hdags]

theorem mem_of_dagOf {run : Ref} {dag : Dag} (h : dagOf s i run = some dag) : dag ∈ s.dags := by
  obtain ⟨_, _, h⟩ := Option.bind_eq_some_iff.mp h
  obtain ⟨_, _, h⟩ := Option.bind_eq_some_iff.mp h
  exact Shared.mem_of_dag? h

theorem Updates.dagOf_eq {ids : List Uuid} (h : Updates i ids s s') (hopen : s.opened (.thread i) = [])
    (run : Ref) : dagOf s' i run = dagOf s i run := by
  refine dagOf_congr ?_ h.dags (h.ident run)
  rw [reads_of_closed h.opened, reads_of_closed hopen, h.dagRefs]

/-- One transaction of a pass, which writes TaskRuns and possibly a DagRun. -/
theorem Updates.applied {ids : List Uuid} (h : Updates i ids s s') {w : List Row} {s'' : Shared}
    (happlied : Applied i s' w s'') (hw : ∀ r ∈ w, (RowKind.proj r : Option DagRefRow) = none)
    (hdags : s''.dags = s'.dags)
    (hident : ∀ run : Ref, (s''.mem.dagRuns[run]?).map DagRunRow.ident =
      (s'.mem.dagRuns[run]?).map DagRunRow.ident) :
    Updates i (ids ++ (w.filterMap RowKind.proj).map DagRunRow.runId) s s'' := by
  obtain ⟨cs, hlog, hids⟩ := h.written
  refine ⟨?_, happlied.opened, ?_, hdags.trans h.dags, fun run => (hident run).trans (h.ident run)⟩
  · by_cases hnil : w = []
    · refine ⟨cs, ?_, ?_⟩
      · rw [happlied.store, if_pos hnil, hlog]
      · rw [hnil]
        simpa using hids
    · refine ⟨⟨i, true, s'.store.now, w⟩ :: cs, ?_, ?_⟩
      · rw [happlied.store, if_neg hnil, Store.log_append, hlog]
        rfl
      · rw [← List.singleton_append, dagRunsWritten_append, hids]
        simp [dagRunsWritten]
  · rw [happlied.db, Db.dagRefs, Db.all_upsertAll_of_other hw]
    exact h.dagRefs

theorem filterMap_taskRuns (rows : List TaskRunRow) :
    ((rows.map Row.taskRun).filterMap RowKind.proj : List DagRunRow) = [] := by
  rw [List.filterMap_eq_nil_iff]
  intro r hr
  obtain ⟨t, _, rfl⟩ := List.mem_map.mp hr
  rfl

/-- What a round of `_schedule_dag_runs` does with the DAG of a DagRun. -/
def scheduleLoaded (run : Ref) (row : DagRunRow) : Option Dag → P Unit
  | none => Prog.raise .attributeError
  | some dag => do
    let tids ← DagRunClient.updateState run dag
    if tids.isEmpty then pure ()
    else do
      let _ ← DagRunClient.scheduleTrs row.runId tids
      pure ()

/-- A round for a DagRun whose DAG can be loaded writes it once. -/
theorem Updates.round {ids : List Uuid} (h : Updates i ids s s') {run : Ref} {row : DagRunRow} {dag : Dag}
    (hrow : s'.mem.dagRuns[run]? = some row) (hdag : dagOf s' i run = some dag)
    (hread : ((DagRun.trsFilter row dag).read s'.engine).isSome = true) :
    ∃ s'', Yields i (Scheduler.scheduleDagRun run) s' () s'' ∧ Updates i (ids ++ [row.runId]) s s'' := by
  obtain ⟨trs, rows, new, _, _, hident, _, s₁, hupdate, happlied, hruns⟩ :=
    DagRun.yields_updateState h.opened hrow hread
  have hproj : ((rows.map Row.taskRun ++ [Row.dagRun new]).filterMap RowKind.proj).map
      DagRunRow.runId = [row.runId] := by
    rw [List.filterMap_append, filterMap_taskRuns, List.nil_append]
    exact congrArg (fun id : DagRunIdent => [id.runId]) hident
  have h₁ : Updates i (ids ++ [row.runId]) s s₁ := by
    rw [← hproj]
    apply h.applied happlied ?_ (Comes.dags hupdate)
    · intro r
      rw [hruns, List.getElem?_set]
      split_ifs with hrun hlt
      · subst hrun
        rw [hrow, Option.map_some, Option.map_some, hident]
      · subst hrun
        exact absurd (List.getElem?_eq_some_iff.mp hrow).1 hlt
      · rfl
    · simp only [List.mem_append, List.mem_map, List.mem_singleton]
      rintro r (⟨a, _, rfl⟩ | rfl) <;> rfl
  let tids := (DagRun.releasedTrs dag trs).map (·.row.runId)
  have hrest : ∃ s'', Yields i (if tids.isEmpty then pure () else do
        let _ ← DagRunClient.scheduleTrs row.runId tids
        pure ()) s₁ () s'' ∧ Updates i (ids ++ [row.runId]) s s'' := by
    split_ifs with hnone
    · exact ⟨s₁, Yields.ret () s₁, h₁⟩
    · obtain ⟨rows', _, s₂, hschedule, happlied₂, hruns₂⟩ :=
        DagRun.yields_scheduleTrs h₁.opened row.runId tids
      have h₂ := h₁.applied happlied₂ (by simp [RowKind.proj]) (Comes.dags hschedule)
        fun r => by rw [hruns₂]
      rw [filterMap_taskRuns, List.map_nil, List.append_nil] at h₂
      exact ⟨s₂, (Yields.catching hschedule).bind (Yields.ret () s₂), h₂⟩
  obtain ⟨s₂, hrest, h₂⟩ := hrest
  refine ⟨s₂, Scheduler.comes_load hrow (k := scheduleLoaded run) ?_, h₂⟩
  rw [hdag]
  exact (Yields.catching hupdate).bind hrest

/-- Where a call of `update_state` returns, the engine can read its query. -/
theorem readable_of_yields {run : Ref} {row : DagRunRow} {dag : Dag} {tids : List Uuid}
    (hrow : s.mem.dagRuns[run]? = some row) (h : Yields i (DagRun.updateState run dag) s tids s') :
    ((DagRun.trsFilter row dag).read s.engine).isSome = true := by
  by_contra hnone
  rw [Option.not_isSome_iff_eq_none] at hnone
  obtain ⟨s₁, hraises⟩ := DagRun.updateState_raises (i := i) hrow hnone
  exact hraises.not_yields h

/-- The first DagRuns were updated, and the others are at hand. -/
structure Updating (i : ℕ) (s : Shared) (done rest : List Ref) (s' : Shared) : Prop where
  updates : Updates i (done.filterMap fun run => (s.mem.dagRuns[run]?).map DagRunRow.runId) s s'
  engine : s'.engine = s.engine
  known : ∀ run ∈ rest, ∃ row, s.mem.dagRuns[run]? = some row
  returns : ∀ run ∈ rest, ∀ dag, dagOf s i run = some dag →
    ∃ tids s', Yields i (DagRun.updateState run dag) s tids s'

theorem comes_scheduleRounds (hopen : s.opened (.thread i) = [])
    (hrefs : ∀ run ∈ refs, ∃ row, s.mem.dagRuns[run]? = some row)
    (hreturns : ∀ run ∈ refs, ∀ dag, dagOf s i run = some dag →
      ∃ tids s', Yields i (DagRun.updateState run dag) s tids s') :
    ∃ r s', Comes i (Prog.forEach refs Scheduler.scheduleDagRun) s r s' ∧
      ((∀ run ∈ refs, (dagOf s i run).isSome = true) → r = .ok () ∧ Updating i s refs [] s') ∧
      (r = .ok () → ∀ run ∈ refs, (dagOf s i run).isSome = true) := by
  have hhand : ∀ {done run rest s₁}, Updating i s done (run :: rest) s₁ →
      ∃ row row', s.mem.dagRuns[run]? = some row ∧ s₁.mem.dagRuns[run]? = some row' ∧
        row'.ident = row.ident := by
    intro done run rest s₁ h
    obtain ⟨row, hrow⟩ := h.known run List.mem_cons_self
    have hident := h.updates.ident run
    rw [hrow, Option.map_some, Option.map_eq_some_iff] at hident
    obtain ⟨row', hrow', he⟩ := hident
    exact ⟨row, row', hrow, hrow', he⟩
  apply Comes.forEach (e := .attributeError) (fun run => (dagOf s i run).isSome = true) (Updating i s)
  · intro done run rest s₁ h hgood
    obtain ⟨row, row', hrow, hrow', hident⟩ := hhand h
    obtain ⟨dag, hdag⟩ := Option.isSome_iff_exists.mp hgood
    obtain ⟨tids, s', hupdate⟩ := h.returns run List.mem_cons_self dag hdag
    have hread := readable_of_yields hrow hupdate
    rw [← DagRun.trsFilter_congr hident, ← h.engine] at hread
    rw [← h.updates.dagOf_eq hopen] at hdag
    obtain ⟨s₂, hround, h₂⟩ := h.updates.round hrow' hdag hread
    refine ⟨s₂, hround, ?_, (Comes.engine hround).trans h.engine, (List.forall_mem_cons.mp h.known).2,
      (List.forall_mem_cons.mp h.returns).2⟩
    rw [List.filterMap_append, List.filterMap_cons, hrow, Option.map_some, List.filterMap_nil]
    rwa [show row'.runId = row.runId from congrArg DagRunIdent.runId hident] at h₂
  · intro done run rest s₁ h hbad
    obtain ⟨row, row', hrow, hrow', hident⟩ := hhand h
    rw [Bool.not_eq_true, Option.isSome_eq_false_iff, Option.isNone_iff_eq_none,
      ← h.updates.dagOf_eq hopen] at hbad
    refine ⟨s₁, Scheduler.comes_load hrow' (k := scheduleLoaded run) ?_⟩
    rw [hbad]
    exact Comes.raise _ s₁
  · exact ⟨⟨⟨[], rfl, rfl⟩, hopen, rfl, rfl, fun _ => rfl⟩, rfl, hrefs, hreturns⟩

/-! ### Both loops -/

/-- Alone, the callback submits a job for each DagRun whose DAG can be loaded, and
`_schedule_dag_runs` updates each of them if these calls of `update_state` return, in order and
without an exception, exactly if the DAG of every DagRun can be loaded. -/
theorem others_served_iff {q : ℕ} {state : DagRunState} (hopen : s.opened (.thread i) = [])
    (hresult : (s.mem.queueables[q]?).bind Queueable.result = some (.ok (.dagRuns state refs)))
    (hrefs : ∀ run ∈ refs, ∃ row, s.mem.dagRuns[run]? = some row) :
    (∃ r s', Comes i (Scheduler.onQueueDagruns q) s r s' ∧
      (r = .ok () ∧ Submits i (queueJobs s i refs) s s' ↔
        ∀ run ∈ refs, (dagOf s i run).isSome = true)) ∧
    ((∀ run ∈ refs, ∀ dag, dagOf s i run = some dag →
        ∃ tids s', Yields i (DagRun.updateState run dag) s tids s') →
      ∃ r s', Comes i (Prog.forEach refs Scheduler.scheduleDagRun) s r s' ∧
        (r = .ok () ∧ Updates i (loadableRuns s i refs) s s' ↔
          ∀ run ∈ refs, (dagOf s i run).isSome = true)) := by
  constructor
  · have hread : Yields i (P.mem (.result q)) s (.dagRuns state refs) s :=
      Yields.mem fun _ => by simp [Mem.exec, hresult]
    obtain ⟨r, s', hloop, hall, hok⟩ := comes_queueRounds (i := i) hrefs
    refine ⟨r, s', hread.bind_comes hloop, fun h => hok h.1, fun h => ?_⟩
    exact ⟨(hall h).1, (hall h).2.submits⟩
  · intro hreturns
    obtain ⟨r, s', hloop, hall, hok⟩ := comes_scheduleRounds hopen hrefs hreturns
    refine ⟨r, s', hloop, fun h => hok h.1, fun h => ⟨(hall h).1, ?_⟩⟩
    rw [loadableRuns, List.filter_eq_self.mpr h]
    exact (hall h).2.updates

/-- A DagRun whose DagRef is missing comes before one of `chain`, and both are the result of a
promise. -/
def missingRef : Shared where
  store := ⟨⟨[.dagRef ⟨0, "", "", ⟨1, true⟩⟩, .dagRun ⟨5, 9, .running, none, none, none, none⟩,
    .dagRun firstRun], by decide⟩, []⟩
  dags := [chain]
  mem :=
    { dagRuns := [⟨5, 9, .running, none, none, none, none⟩, firstRun]
      queueables := [⟨0, .getDagRuns .running ⟨0, 1, 1⟩, some (.ok (.dagRuns .running [0, 1])), none⟩] }

theorem known_missingRef : ∀ run ∈ [0, 1], ∃ row, missingRef.mem.dagRuns[run]? = some row := by
  intro run hrun
  rw [← Option.isSome_iff_exists]
  revert run
  decide

theorem returns_missingRef : ∀ run ∈ [0, 1], ∀ dag, dagOf missingRef 0 run = some dag →
    ∃ tids s', Yields 0 (DagRun.updateState run dag) missingRef tids s' := by
  intro run hrun dag hdag
  obtain ⟨row, hrow⟩ := known_missingRef run hrun
  obtain rfl : dag = chain := List.mem_singleton.mp (mem_of_dagOf hdag)
  obtain ⟨_, _, _, _, _, _, _, s', hupdate, _⟩ := DagRun.yields_updateState (i := 0) rfl hrow
    (DagRun.readable_trsFilter plain_chain (by decide))
  exact ⟨_, s', hupdate⟩

theorem missingRef_served_iff :
    (∃ r s', Comes 0 (Scheduler.onQueueDagruns 0) missingRef r s' ∧
      (r = .ok () ∧ Submits 0 (queueJobs missingRef 0 [0, 1]) missingRef s' ↔
        ∀ run ∈ [0, 1], (dagOf missingRef 0 run).isSome = true)) ∧
    ∃ r s', Comes 0 (Prog.forEach [0, 1] Scheduler.scheduleDagRun) missingRef r s' ∧
      (r = .ok () ∧ Updates 0 (loadableRuns missingRef 0 [0, 1]) missingRef s' ↔
        ∀ run ∈ [0, 1], (dagOf missingRef 0 run).isSome = true) :=
  (others_served_iff rfl rfl known_missingRef).imp_right fun h => h returns_missingRef

/-- The run of `chain` is served by neither loop. -/
theorem missingRef_starves :
    (¬∃ r s', Comes 0 (Scheduler.onQueueDagruns 0) missingRef r s' ∧ r = .ok () ∧
      Submits 0 (queueJobs missingRef 0 [0, 1]) missingRef s') ∧
    ¬∃ r s', Comes 0 (Prog.forEach [0, 1] Scheduler.scheduleDagRun) missingRef r s' ∧ r = .ok () ∧
      Updates 0 (loadableRuns missingRef 0 [0, 1]) missingRef s' := by
  have hmissing : ¬∀ run ∈ [0, 1], (dagOf missingRef 0 run).isSome = true := by decide
  constructor
  · rintro ⟨r, s', hcomes, rfl, _⟩
    have hread : Yields 0 (P.mem (.result 0)) missingRef (.dagRuns .running [0, 1]) missingRef :=
      Yields.mem fun _ => rfl
    obtain ⟨r, s'', hloop, _, hok⟩ := comes_queueRounds (i := 0) known_missingRef
    obtain ⟨rfl, _⟩ := hcomes.unique (hread.bind_comes hloop)
    exact hmissing (hok rfl)
  · rintro ⟨r, s', hcomes, rfl, _⟩
    obtain ⟨r, s'', hloop, _, hok⟩ := comes_scheduleRounds (i := 0) rfl known_missingRef returns_missingRef
    obtain ⟨rfl, _⟩ := hcomes.unique hloop
    exact hmissing (hok rfl)

end YtScheduler
