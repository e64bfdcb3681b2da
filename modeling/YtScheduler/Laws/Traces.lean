import YtScheduler.Consistency.TaskRuns
import YtScheduler.Laws.Stamps
import YtScheduler.Services.Rollback
import YtScheduler.Services.Updates

/-! What a failed `queue_run_atomic` or `update_state` leaves behind. The tables come out
as they were. The DagRun object does not where the commit fails: `set_state` has then
given it its new state already. -/

namespace YtScheduler

open Tablet Threads

/-- The calls before `set_state`: statements of the transaction, none of which changes the object. -/
def Op.Aside (self : Ref) (o : Op) : Prop := o.Joins ∧ ∀ row, o ≠ .mem (.writeDagRun self row)

namespace TaskRun

variable {self : Ref}

theorem uses_fetch (filter : TaskRunFilter) : (fetchRows filter).Uses (Op.Aside self) :=
  (Prog.Uses.op ⟨trivial, by simp⟩).bind fun _ => (Prog.Uses.op ⟨trivial, by simp⟩).bind fun _ => trivial

theorem Prepares.aside {o : Op} (h : Prepares o) : o.Aside self := by
  cases o with
  | now => exact ⟨trivial, by simp⟩
  | mem a =>
    cases a with
    | readTaskRun tr | writeTaskRun tr row => exact ⟨trivial, by simp⟩
    | _ => exact absurd h id
  | _ => exact absurd h id

/-- Without requirements nothing is fetched. -/
theorem fetchableRids_stateUpdate (state : TaskRunState) (trs : List TaskRunObj) :
    fetchableRids (trs.map (stateUpdate state)) = Prog.ret [] := by
  induction trs with
  | nil => rfl
  | cons tr trs ih =>
    have hrid : fetchableRid (stateUpdate state tr) = Prog.ret [] := rfl
    rw [List.map_cons, fetchableRids, hrid, ih]
    rfl

theorem uses_stateUpdates (state : TaskRunState) (trs : List TaskRunObj) :
    (setState (trs.map (stateUpdate state))).Uses (Op.Aside self) := by
  rw [setState, fetchableRids_stateUpdate]
  refine Prog.Uses.bind (p := fetchAndApply [] _) ?_ fun updates => ?_
  · have hprepare : (prepareAll [] (trs.map (stateUpdate state))).Uses (Op.Aside self) :=
      (uses_prepareAll _ _).mono fun o ho => ho.aside
    refine hprepare.bind fun updates => Prog.Uses.bind ?_ fun _ => trivial
    unfold P.unlessEmpty
    split_ifs
    · trivial
    · exact Prog.Uses.op ⟨rfl, by simp⟩
  · exact Prog.Uses.bind (Prog.Uses.forEach fun _ _ => Prog.Uses.op ⟨trivial, by simp⟩) fun _ => trivial

end TaskRun

namespace DagRun

variable {self : Ref} {dag : Dag}

/-! ### The statements -/

/-- The statements of `queue_run_atomic` inside its transaction. -/
def queueBody (self : Ref) (dag : Dag) : P Unit := do
  let row ← P.mem (.readDagRun self)
  match ← get row.runId with
  | none => pure ()
  | some run =>
    if run.row.state ≠ .scheduled then pure ()
    else do
      let trs ← initTaskRunsForRun self dag
      P.unlessEmpty trs (P.upsertRows (trs.map .taskRun) none)
      setState self .queued

theorem queueRunAtomic_eq (self : Ref) (dag : Dag) :
    queueRunAtomic self dag = P.transaction none (queueBody self dag) := rfl

theorem uses_get (self : Ref) (runId : Uuid) : (get runId).Uses (Op.Aside self) := by
  refine Prog.Uses.bind (p := fetchRows _) ?_ fun runs => ?_
  · exact (Prog.Uses.op ⟨trivial, by simp⟩).bind fun _ =>
      (Prog.Uses.op ⟨trivial, by simp⟩).bind fun _ => trivial
  · split <;> trivial

theorem uses_newTaskRuns (dagrunId : Uuid) (state : TaskRunState) (tasks : List Task) :
    (newTaskRuns dagrunId state tasks).Uses (Op.Aside self) := by
  induction tasks with
  | nil => trivial
  | cons t ts ih =>
    exact (Prog.Uses.op ⟨trivial, by simp⟩).bind fun _ => ih.bind fun _ => trivial

theorem uses_initTaskRunsForRun (self run : Ref) (dag : Dag) :
    (initTaskRunsForRun run dag).Uses (Op.Aside self) := by
  refine Prog.Uses.bind (Prog.Uses.op ⟨trivial, by simp⟩) fun row => ?_
  refine (TaskRun.uses_fetch _).bind fun existing => ?_
  exact (uses_newTaskRuns _ _ _).bind fun _ => (uses_newTaskRuns _ _ _).bind fun _ => trivial

theorem uses_create (self : Ref) (trs : List TaskRunRow) :
    (P.unlessEmpty trs (P.upsertRows (trs.map .taskRun) none)).Uses (Op.Aside self) := by
  unfold P.unlessEmpty
  split_ifs
  · trivial
  · exact Prog.Uses.op ⟨rfl, by simp⟩

theorem uses_skip (self : Ref) (trs : List TaskRunObj) :
    (P.unlessEmpty (skippableTrs trs) (skipTrs (skippableTrs trs))).Uses (Op.Aside self) := by
  unfold P.unlessEmpty
  split_ifs
  · trivial
  · exact (TaskRun.uses_stateUpdates .skipped _).bind fun _ => trivial

theorem joins_setState (self : Ref) (state : DagRunState) : (setState self state).Uses Op.Joins := by
  refine Prog.Uses.bind (Prog.Uses.op trivial) fun _ => ?_
  refine Prog.Uses.bind (Prog.Uses.bind (Prog.Uses.op trivial) fun _ => trivial) fun _ => ?_
  exact Prog.Uses.bind (Prog.Uses.op rfl) fun _ => Prog.Uses.op trivial

theorem joins_of_aside {α : Type} {p : P α} (h : p.Uses (Op.Aside self)) : p.Uses Op.Joins :=
  h.mono fun _ ho => ho.1

theorem joins_queueBody (self : Ref) (dag : Dag) : (queueBody self dag).Uses Op.Joins := by
  refine Prog.Uses.bind (Prog.Uses.op trivial) fun row => ?_
  refine (joins_of_aside (uses_get self row.runId)).bind fun res => ?_
  cases res with
  | none => trivial
  | some run =>
    dsimp only
    split_ifs
    · trivial
    · exact (joins_of_aside (uses_initTaskRunsForRun self self dag)).bind fun trs =>
        (joins_of_aside (uses_create self trs)).bind fun _ => joins_setState self .queued

theorem joins_updateBody (self : Ref) (dag : Dag) : (updateBody self dag).Uses Op.Joins := by
  have hfetch : (fetchTrs self dag).Uses (Op.Aside self) :=
    (Prog.Uses.op ⟨trivial, by simp⟩).bind fun _ => TaskRun.uses_fetch _
  exact (joins_of_aside hfetch).bind fun trs => (joins_of_aside (uses_skip self trs)).bind fun _ =>
    (joins_setState self _).bind fun _ => trivial

/-! ### The object -/

variable {i : ℕ} {s s₁ : Shared} {row : DagRunRow} {commit : Option Exn}

/-- Inside a transaction begun in `s`, with the object as it was. -/
structure AsItWas (i : ℕ) (s : Shared) (run : Ref) (row : DagRunRow) (s₁ : Shared) : Prop where
  inside : ∃ w, Inside i s s₁ w
  object : s₁.mem.dagRuns[run]? = some row

theorem AsItWas.exec {o : Op} (h : AsItWas i s self row s₁) (ho : o.Aside self) (ch : Choice) (l : Loc) :
    AsItWas i s self row (o.exec i ch l s₁).2.2 where
  inside := h.inside.elim fun _ hw => hw.exec ho.1 ch l
  object := by
    by_cases hmem : ∃ a, o = .mem a
    · obtain ⟨a, rfl⟩ := hmem
      exact Mem.getElem?_dagRuns_exec (fun row he => ho.2 row (congrArg Op.mem he)) h.object
    · push Not at hmem
      rw [Op.exec_mem hmem]
      exact h.object

theorem retains_of_aside {α : Type} {p : P α} (hp : p.Uses (Op.Aside self)) :
    system.Retains i (AsItWas i s self row) p fun _ => True :=
  .of_uses hp fun _ ho ch l _ hs => hs.exec ho ch l

theorem retains_readSelf : system.Retains i (AsItWas i s self row) (P.mem (.readDagRun self)) (· = row) := by
  refine .op (fun ch l s₁ hs => AsItWas.exec (o := .mem (.readDagRun self)) hs ⟨trivial, by simp⟩ ch l) ?_
  intro ch l s₁ hs a ha
  have ha : (s₁.mem.dagRuns[self]?).elim (.error Exn.attributeError) .ok = Except.ok a := ha
  rw [hs.object] at ha
  exact (Except.ok.inj ha).symm

/-- A select reads the tables the transaction began in, if the engine can read it. -/
theorem retains_select (q : Query) :
    system.Retains i (AsItWas i s self row) (P.call (.select none q))
      fun rows => rows = q.eval s.engine s.db ∧ q.fails s.engine = false := by
  refine .op (fun ch l s₁ hs => AsItWas.exec (o := Op.select none q) hs ⟨trivial, by simp⟩ ch l) ?_
  intro ch l s₁ hs rows hrows
  obtain ⟨w, hw⟩ := hs.inside
  have hreads : s₁.store.asOf (s₁.snapshot (Op.resolve none i)) = s.db := hw.reads
  have hrows : ((Op.select none q).exec i ch l s₁).1 = .ok rows := hrows
  simp only [Op.exec, hreads, hw.engine] at hrows
  split at hrows
  · cases hrows
  · split_ifs at hrows with hfails
    exact ⟨(Except.ok.inj hrows).symm, Bool.eq_false_iff.mpr hfails⟩

theorem retains_newDagRuns (rows : List DagRunRow) :
    system.Retains i (AsItWas i s self row) (P.mem (.newDagRuns rows))
      fun refs => ∃ a, refs = List.range' a rows.length := by
  refine .op (fun ch l s₁ hs => AsItWas.exec (o := .mem (.newDagRuns rows)) hs ⟨trivial, by simp⟩ ch l) ?_
  intro ch l s₁ _ refs hrefs
  exact ⟨_, (Except.ok.inj hrefs).symm⟩

theorem retains_newTaskRuns (rows : List TaskRunRow) :
    system.Retains i (AsItWas i s self row) (P.mem (.newTaskRuns rows))
      fun refs => ∃ a, refs = List.range' a rows.length := by
  refine .op (fun ch l s₁ hs => AsItWas.exec (o := .mem (.newTaskRuns rows)) hs ⟨trivial, by simp⟩ ch l) ?_
  intro ch l s₁ _ refs hrefs
  exact ⟨_, (Except.ok.inj hrefs).symm⟩

/-- The objects hold the selected rows. -/
theorem retains_fetchRuns (filter : DagRunFilter) :
    system.Retains i (AsItWas i s self row) (fetchRows filter)
      fun runs => runs.map (·.row) = filter.select s.engine s.db := by
  refine (retains_select (.dagRuns filter)).bind fun rows hrows => ?_
  obtain ⟨rfl, _⟩ := hrows
  refine (retains_newDagRuns _).bind ?_
  rintro _ ⟨a, rfl⟩
  exact .ret (map_zipWith_range' (fun _ _ => rfl) a _)

theorem retains_fetchTaskRuns (filter : TaskRunFilter) :
    system.Retains i (AsItWas i s self row) (TaskRun.fetchRows filter) fun trs =>
      trs.map (·.row) = filter.select s.engine s.db ∧ (filter.read s.engine).isSome = true := by
  refine (retains_select (.taskRuns filter)).bind fun rows hrows => ?_
  obtain ⟨rfl, hfails⟩ := hrows
  refine (retains_newTaskRuns _).bind ?_
  rintro _ ⟨a, rfl⟩
  exact .ret ⟨map_zipWith_range' (fun _ _ => rfl) a _, Query.readable_of_fails_eq_false hfails⟩

theorem retains_fetchTrs (dag : Dag) :
    system.Retains i (AsItWas i s self row) (fetchTrs self dag) fun trs =>
      trs.map (·.row) = readTrs s.engine s.db row dag ∧ ((trsFilter row dag).read s.engine).isSome = true := by
  refine retains_readSelf.bind fun run hrun => ?_
  subst hrun
  exact retains_fetchTaskRuns (trsFilter run dag)

theorem retains_initTaskRunsForRun (dag : Dag) :
    system.Retains i (AsItWas i s self row) (initTaskRunsForRun self dag)
      fun _ => ((existingFilter row dag).read s.engine).isSome = true := by
  refine retains_readSelf.bind fun run hrun => ?_
  subst hrun
  refine (retains_fetchTaskRuns (existingFilter run dag)).bind fun existing hread => ?_
  refine (retains_of_aside (uses_newTaskRuns _ _ _)).bind fun _ _ => ?_
  refine (retains_of_aside (uses_newTaskRuns _ _ _)).bind fun _ _ => ?_
  exact .ret hread.2

theorem retains_get (runId : Uuid) :
    system.Retains i (AsItWas i s self row) (get runId)
      fun res => ∀ run, res = some run → s.db.dagRun runId = some run.row := by
  refine (retains_fetchRuns { runId := some (.eq runId), limit := some 1 }).bind fun runs hruns => ?_
  split
  · next run =>
    refine .ret ?_
    rintro _ ⟨⟩
    have hmem : run.row ∈ DagRunFilter.select { runId := some (.eq runId), limit := some 1 }
        s.engine s.db := by
      rw [← hruns]
      exact List.mem_cons_self
    obtain ⟨hget, haccepts⟩ := mem_select_dagRuns hmem
    have hid : run.row.runId = runId := by simpa [DagRunFilter.accepts] using haccepts
    rwa [hid] at hget
  · exact .ret (by simp)

/-- The object after the statements: as it was where they raise, and where it had the state already. -/
def Spared (self : Ref) (row : DagRunRow) (unchanged : Prop) {α : Type} (r : Except Exn α) (s : Shared) :
    Prop :=
  (∀ a, r = .ok a → unchanged → s.mem.dagRuns[self]? = some row) ∧
    ∀ e, r = .error e → s.mem.dagRuns[self]? = some row

theorem spares_setState {unchanged : Prop} {state : DagRunState} (h : unchanged → row.state = state) :
    system.Meets i (AsItWas i s self row) (setState self state) (Spared self row unchanged) := by
  intro s₁ r s₂ hs hset
  have hobject := meets_setState i self row state s₁.clock ⟨hs.object, rfl⟩ hset
  refine ⟨?_, ?_⟩
  · rintro _ rfl hunchanged
    simp only [DagRunRow.buildRowByState, h hunchanged, if_true] at hobject
    exact hobject
  · rintro _ rfl
    exact hobject

theorem spares_ret {α : Type} {unchanged : Prop} (a : α) :
    system.Meets i (AsItWas i s self row) (Prog.ret a) (Spared self row unchanged) :=
  .ret fun _ hs => ⟨fun _ _ _ => hs.object, by simp⟩

theorem AsItWas.spared {α : Type} {unchanged : Prop} (e : Exn) (h : AsItWas i s self row s₁) :
    Spared (α := α) self row unchanged (.error e) s₁ :=
  ⟨by simp, fun _ _ => h.object⟩

theorem spares_queueBody {unchanged : Prop} (dag : Dag)
    (h : ∀ run, s.db.dagRun row.runId = some run → run.state = .scheduled →
      ((existingFilter row dag).read s.engine).isSome = true → unchanged → row.state = .queued) :
    system.Meets i (AsItWas i s self row) (queueBody self dag) (Spared self row unchanged) := by
  refine retains_readSelf.meets_bind (fun run hrun => ?_) fun e _ hs => hs.spared e
  subst hrun
  refine (retains_get _).meets_bind (fun res hres => ?_) fun e _ hs => hs.spared e
  cases res with
  | none => exact spares_ret ()
  | some found =>
    dsimp only
    split_ifs with hstate
    · exact spares_ret ()
    · push Not at hstate
      refine (retains_initTaskRunsForRun dag).meets_bind (fun trs hread => ?_) fun e _ hs => hs.spared e
      refine (retains_of_aside (uses_create self trs)).meets_bind (fun _ _ => ?_) fun e _ hs => hs.spared e
      exact spares_setState (h found.row (hres found rfl) hstate hread)

/-- The state that `update_state` gives a DagRun with these TaskRuns. -/
def stateFor (rows : List TaskRunRow) : DagRunState := runState (rows.map fun row => ⟨0, row⟩)

theorem stateFor_rows (trs : List TaskRunObj) : stateFor (trs.map (·.row)) = runState trs := by
  simp [stateFor, runState, anyFailed, unfinishedTrs, List.filter_map, Function.comp_def]

theorem spares_updateBody {unchanged : Prop} (dag : Dag)
    (h : ((trsFilter row dag).read s.engine).isSome = true → unchanged →
      row.state = stateFor (readTrs s.engine s.db row dag)) :
    system.Meets i (AsItWas i s self row) (updateBody self dag) (Spared self row unchanged) := by
  refine (retains_fetchTrs dag).meets_bind (fun trs htrs => ?_) fun e _ hs => hs.spared e
  refine (retains_of_aside (uses_skip self trs)).meets_bind (fun _ _ => ?_) fun e _ hs => hs.spared e
  rw [← htrs.1, stateFor_rows] at h
  refine (spares_setState (h htrs.2)).bind (fun _ => .ret fun _ hs => ⟨?_, by simp⟩) ?_
  · exact fun _ _ => hs.1 () rfl
  · exact fun e _ hs => ⟨by simp, fun _ _ => hs.2 e rfl⟩

/-! ### Statements that go well -/

theorem select_dagRun {db : Db} {runId : Uuid} {run : DagRunRow} (h : db.dagRun runId = some run)
    (engine : Engine) :
    DagRunFilter.select { runId := some (.eq runId), limit := some 1 } engine db = [run] := by
  have haccepts : db.dagRuns.filter
      (DagRunFilter.accepts { runId := some (.eq runId), limit := some 1 } engine) =
      db.dagRuns.filter fun r => decide (r.runId = runId) := by
    refine List.filter_congr fun r _ => ?_
    simp [DagRunFilter.accepts, FilterValue.acceptsOpt, FilterValue.accepts]
  have hid := Db.runId_of_dagRun h
  have hmem : run ∈ db.dagRuns.filter fun r => decide (r.runId = runId) := by
    refine List.mem_filter.mpr ⟨Db.mem_dagRuns.mpr ?_, decide_eq_true hid⟩
    rwa [hid]
  have honly : ∀ r ∈ db.dagRuns.filter fun r => decide (r.runId = runId), r = run := by
    intro r hr
    obtain ⟨hr, hid'⟩ := List.mem_filter.mp hr
    have hget := Db.mem_dagRuns.mp hr
    rw [of_decide_eq_true hid', h] at hget
    exact (Option.some.inj hget).symm
  rw [DagRunFilter.select, haccepts]
  cases hrows : db.dagRuns.filter fun r => decide (r.runId = runId) with
  | nil =>
    rw [hrows] at hmem
    cases hmem
  | cons r rows =>
    rw [honly r (by rw [hrows]; exact List.mem_cons_self)]
    rfl

theorem yields_get (h : Inside i s s₁ []) {runId : Uuid} {run : DagRunRow}
    (hrun : s.db.dagRun runId = some run) :
    Yields i (get runId) s₁ (some ⟨s₁.mem.dagRuns.length, run⟩)
      { s₁ with mem := { s₁.mem with dagRuns := s₁.mem.dagRuns ++ [run] } } := by
  have hselect : Yields i (P.call (.select none (.dagRuns { runId := some (.eq runId), limit := some 1 })))
      s₁ [run] s₁ := by
    rw [← select_dagRun hrun s.engine]
    exact h.select rfl
  have hnew : Yields i (P.mem (.newDagRuns [run])) s₁ [s₁.mem.dagRuns.length]
      { s₁ with mem := { s₁.mem with dagRuns := s₁.mem.dagRuns ++ [run] } } := Yields.mem fun _ => rfl
  have hfetch : Yields i (fetchRows { runId := some (.eq runId), limit := some 1 }) s₁
      [⟨s₁.mem.dagRuns.length, run⟩]
      { s₁ with mem := { s₁.mem with dagRuns := s₁.mem.dagRuns ++ [run] } } :=
    hselect.bind (hnew.bind (Yields.ret _ _))
  exact hfetch.bind (Yields.ret _ _)

theorem yields_create (h : Inside i s s₁ []) (trs : List TaskRunRow) :
    ∃ s₂, Yields i (P.unlessEmpty trs (P.upsertRows (trs.map .taskRun) none)) s₁ () s₂ ∧
      Inside i s s₂ (trs.map .taskRun) ∧ s₂.mem = s₁.mem := by
  cases trs with
  | nil => exact ⟨s₁, Yields.ret () s₁, h, rfl⟩
  | cons tr trs =>
    obtain ⟨s₂, hupsert, h₂, hmem, _⟩ := h.upsertRows ((tr :: trs).map .taskRun)
    exact ⟨s₂, hupsert, h₂, hmem⟩

/-- A scheduled DagRun is queued once the TaskRuns it misses are created. -/
theorem yields_queueBody (h : Inside i s s₁ []) (hself : s₁.mem.dagRuns[self]? = some row)
    {run : DagRunRow} (hrun : s.db.dagRun row.runId = some run) (hstate : run.state = .scheduled)
    {dag : Dag} (hexisting : ((existingFilter row dag).read s.engine).isSome = true) :
    ∃ (existing : List TaskRunObj) (new : DagRunRow) (s₂ : Shared),
      existing.map (·.row) = (existingFilter row dag).select s.engine s.db ∧
      Yields i (queueBody self dag) s₁ () s₂ ∧
      Inside i s s₂ ((missing dag existing row.runId s₁.uuids).map .taskRun ++ [.dagRun new]) ∧
      s₂.mem.dagRuns[self]? = some new ∧ new.state = .queued ∧
      s₂.mem.taskRuns = s₁.mem.taskRuns ++ existing.map (·.row) := by
  have hread : Yields i (P.mem (.readDagRun self)) s₁ row s₁ :=
    Yields.mem fun _ => by simp [Mem.exec, hself]
  have hlt := (List.getElem?_eq_some_iff.mp hself).1
  have hget := yields_get h hrun
  let s₂ : Shared := { s₁ with mem := { s₁.mem with dagRuns := s₁.mem.dagRuns ++ [run] } }
  have h₂ : Inside i s s₂ [] := h.congr s₂ rfl rfl rfl
  have hself₂ : s₂.mem.dagRuns[self]? = some row := by rw [List.getElem?_append_left hlt, hself]
  obtain ⟨s₃, hinit, hinside, hmem₃⟩ := yields_initTaskRunsForRun (i := i) hself₂
    (h₂.engine.symm ▸ hexisting)
  have hfound : (found s₂ i row dag).map (·.row) = (existingFilter row dag).select s.engine s.db := by
    rw [found, TaskRun.map_row_objects, h₂.reads, h₂.engine]
  rw [h₂.reads, h₂.engine, ← hfound] at hmem₃
  obtain ⟨s₄, hcreate, h₄, hmem₄⟩ := yields_create (hinside h₂)
    (missing dag (found s₂ i row dag) row.runId s₁.uuids)
  have hself₄ : s₄.mem.dagRuns[self]? = some row := by rw [hmem₄, hmem₃]; exact hself₂
  obtain ⟨new, s₅, hset, h₅, _, hnew, hmem₅⟩ := yields_setState h₄ hself₄ .queued
  refine ⟨_, new, s₅, hfound, ?_, h₅, ?_, hnew, ?_⟩
  · refine hread.bind (hget.bind ?_)
    dsimp only
    rw [if_neg (not_not_intro hstate)]
    exact hinit.bind (hcreate.bind hset)
  · rw [hmem₅]
    exact List.getElem?_set_self (List.getElem?_eq_some_iff.mp hself₄).1
  · rw [hmem₅, hmem₄, hmem₃]
    rfl

end DagRun

/-! ### The call -/

section

variable {i : ℕ} {s s₁ : Shared} {self : Ref} {row new : DagRunRow} {commit : Option Exn}

/-- Statements that change the object and may fail to be committed leave a trace. -/
theorem not_leavesNoTrace {α : Type} {body : P α} {a : α} {w : List Row} {e : Exn}
    (hbody : Yields i body (s.beginTx i (.thread i)) a s₁) (hjoins : body.Uses Op.Joins)
    (hin : Inside i s s₁ w) (hnew : s₁.mem.dagRuns[self]? = some new)
    (hself : s.mem.dagRuns[self]? = some row) (hstate : row.state ≠ new.state) :
    ¬LeavesNoTrace i (some e) self (P.transaction none body) s := by
  intro h
  obtain ⟨l', hends⟩ := hbody.commit_fails hjoins hin e
  have hsame := (h Unit (failing e) (fun _ _ => rfl) _ _ _ _ _ _ hends).2
  have hnew' : (s₁.endTx i (.thread i)).mem.dagRuns[self]? = some new := hnew
  rw [hnew', hself] at hsame
  exact hstate (congrArg DagRunRow.state (Option.some.inj hsame)).symm

/-- A failed `queue_run_atomic` leaves no trace exactly if commits do not fail or there is nothing to
change: no persisted SCHEDULED run, a query the engine cannot read, or an object that is QUEUED. So
does a failed `update_state` exactly if commits do not fail, the engine cannot read its query, or the
object has the state that the TaskRuns it reads give it. -/
theorem failed_call_leaves_no_trace_iff (hopen : s.opened (.thread i) = [])
    (hself : s.mem.dagRuns[self]? = some row) (dag : Dag) (commit : Option Exn) :
    (LeavesNoTrace i commit self (DagRun.queueRunAtomic self dag) s ↔
      (commit ≠ none → ∀ run, s.db.dagRun row.runId = some run → run.state = .scheduled →
        ((DagRun.existingFilter row dag).read s.engine).isSome = true → row.state = .queued)) ∧
    (LeavesNoTrace i commit self (DagRun.updateState self dag) s ↔
      (commit ≠ none → ((DagRun.trsFilter row dag).read s.engine).isSome = true →
        row.state = DagRun.stateFor (DagRun.readTrs s.engine s.db row dag))) := by
  have hbegun : DagRun.AsItWas i s self row (s.beginTx i (.thread i)) := ⟨⟨[], Inside.begin hopen⟩, hself⟩
  have hmeets : ∀ {α : Type} {body : P α}, body.Uses Op.Joins →
      system.Meets i (DagRun.AsItWas i s self row) body (DagRun.Spared self row (commit ≠ none)) →
      LeavesNoTrace i commit self (P.transaction none body) s := by
    intro α body hjoins hbody
    refine leavesNoTrace_of_meets hopen hjoins (hbody.mono ?_ fun r s₁ h => ?_)
    · rintro _ rfl
      exact hbegun
    · rw [hself]
      exact h
  constructor
  · rw [DagRun.queueRunAtomic_eq]
    constructor
    · intro h hfails run hrun hscheduled hread
      by_contra hqueued
      obtain ⟨e, rfl⟩ := Option.ne_none_iff_exists'.mp hfails
      obtain ⟨_, new, s₁, _, hbody, hin, hnew, hstate, _⟩ :=
        DagRun.yields_queueBody (Inside.begin hopen) hbegun.object hrun hscheduled hread
      exact not_leavesNoTrace hbody (DagRun.joins_queueBody self dag) hin hnew hself
        (by rwa [hstate]) h
    · intro h
      exact hmeets (DagRun.joins_queueBody self dag)
        (DagRun.spares_queueBody dag fun run hrun hstate hread hfails => h hfails run hrun hstate hread)
  · rw [DagRun.updateState_eq]
    constructor
    · intro h hfails hread
      by_contra hdiffers
      obtain ⟨e, rfl⟩ := Option.ne_none_iff_exists'.mp hfails
      obtain ⟨trs, rows, new, hrows, _, _, hstate, s₁, hbody, hin, hruns⟩ :=
        DagRun.yields_updateBody (Inside.begin hopen) hbegun.object hread
      have hnew : s₁.mem.dagRuns[self]? = some new := by
        rw [hruns]
        exact List.getElem?_set_self (List.getElem?_eq_some_iff.mp hself).1
      refine not_leavesNoTrace hbody (DagRun.joins_updateBody self dag) hin hnew hself ?_ h
      rwa [hstate, ← DagRun.stateFor_rows, hrows]
    · intro h
      exact hmeets (DagRun.joins_updateBody self dag)
        (DagRun.spares_updateBody dag fun hread hfails => h hfails hread)

end

/-- A DagRun that waits to be queued. -/
def scheduledRun : DagRunRow := { runId := 1, dagId := 0, state := .scheduled }

def aboutToQueue : Shared where
  store := ⟨⟨[.dagRun scheduledRun], by decide⟩, []⟩
  mem := { dagRuns := [scheduledRun] }

theorem aboutToQueue_leaves_no_trace_iff :
    (LeavesNoTrace 0 (some .lockConflict) 0 (DagRun.queueRunAtomic 0 chain) aboutToQueue ↔
      (some Exn.lockConflict ≠ none → ∀ run, aboutToQueue.db.dagRun scheduledRun.runId = some run →
        run.state = .scheduled →
          ((DagRun.existingFilter scheduledRun chain).read aboutToQueue.engine).isSome = true →
            scheduledRun.state = .queued)) ∧
    (LeavesNoTrace 0 (some .lockConflict) 0 (DagRun.updateState 0 chain) aboutToQueue ↔
      (some Exn.lockConflict ≠ none →
        ((DagRun.trsFilter scheduledRun chain).read aboutToQueue.engine).isSome = true →
          scheduledRun.state =
            DagRun.stateFor (DagRun.readTrs aboutToQueue.engine aboutToQueue.db scheduledRun chain))) :=
  failed_call_leaves_no_trace_iff rfl rfl chain _

/-- Where the commit meets a conflicting lock, the object says QUEUED. -/
theorem aboutToQueue_leaves_trace :
    ¬LeavesNoTrace 0 (some .lockConflict) 0 (DagRun.queueRunAtomic 0 chain) aboutToQueue := by
  have hself : aboutToQueue.mem.dagRuns[0]? = some scheduledRun := rfl
  have hrun : aboutToQueue.db.dagRun scheduledRun.runId = some scheduledRun := rfl
  obtain ⟨_, new, s₁, _, hbody, hin, hnew, hstate, _⟩ := DagRun.yields_queueBody
    (Inside.begin (i := 0) (s := aboutToQueue) rfl) hself hrun rfl
    (DagRun.readable_existingFilter plain_chain (by decide))
  rw [DagRun.queueRunAtomic_eq]
  exact not_leavesNoTrace hbody (DagRun.joins_queueBody 0 chain) hin hnew hself (by rw [hstate]; decide)

end YtScheduler
