import YtScheduler.Laws.Creation
import YtScheduler.Runs.Stamps
import YtScheduler.Services.Calls

/-! The timestamps of DagRuns and TaskRuns, over any sequence of `set_state` calls. A
DagRun is created with the timestamp of its state. So is a TaskRun that waits for
others, but the TaskRun of a root is created QUEUED without any timestamp. -/

namespace YtScheduler

open Tablet Threads

/-! ### DagRuns -/

/-- The DagRun that `_create_dag_runs_atomic` creates at time `t`. -/
def createdDagRun (runId dagId : Uuid) (t : ℕ) : DagRunRow :=
  { runId, dagId, state := .scheduled, scheduledAt := some ⟨t, true⟩ }

theorem dated_createdDagRun (runId dagId : Uuid) (t : ℕ) : (createdDagRun runId dagId t).Dated t :=
  .scheduled le_rfl

/-- Nothing else is created. -/
theorem gives_claimMetas (rows : List (DagRefRow × DagMetaRow)) :
    (Scheduler.claimMetas rows).Gives fun batched =>
      ∀ b ∈ batched, ∃ runId dagId t, b.1 = createdDagRun runId dagId t := by
  induction rows with
  | nil => simp [Scheduler.claimMetas, Prog.Gives]
  | cons row rows ih =>
    refine (Prog.gives_true _).bind fun runId _ => ?_
    have hnow : P.nowUtc.Gives fun now => now.offset = true :=
      (Prog.gives_true _).bind fun _ _ => rfl
    refine hnow.bind fun now hoffset => ih.bind fun rest hrest => ?_
    refine List.forall_mem_cons.mpr ⟨⟨runId, row.2.dagId, now.instant, ?_⟩, hrest⟩
    rw [createdDagRun, ← hoffset]

namespace DagRun

/-- `set_state` changes the object once the row is upserted, and not at all if it raises. -/
theorem meets_setState (i : ℕ) (self : Ref) (row : DagRunRow) (state : DagRunState) (now : ℕ) :
    system.Meets i (fun s => s.mem.dagRuns[self]? = some row ∧ s.clock = now)
      (setState self state) fun r s => s.mem.dagRuns[self]? = some
        (match r with
          | .ok _ => row.buildRowByState state ⟨now, false⟩
          | .error _ => row) := by
  have hread : system.Meets i (fun s => s.mem.dagRuns[self]? = some row ∧ s.clock = now)
      (P.mem (.readDagRun self)) fun r s =>
        r = .ok row ∧ s.mem.dagRuns[self]? = some row ∧ s.clock = now := by
    refine .op fun ch l s hs => ?_
    simp [system, Op.exec, Mem.exec, hs.1, hs.2]
  have hnow : system.Meets i (fun s => s.mem.dagRuns[self]? = some row ∧ s.clock = now)
      P.utcnow fun r s => r = .ok ⟨now, false⟩ ∧ s.mem.dagRuns[self]? = some row := by
    refine Machine.Meets.bind_ok (a := now) (R := fun s => s.mem.dagRuns[self]? = some row)
      (.op fun ch l s hs => ?_) (.ret fun s hs => ⟨rfl, hs⟩)
    simp [system, Op.exec, hs.1, hs.2]
  let new := row.buildRowByState state ⟨now, false⟩
  have hupsert : system.Meets i (fun s => s.mem.dagRuns[self]? = some row)
      (P.upsertRows [.dagRun new] none) fun _ s => s.mem.dagRuns[self]? = some row := by
    refine .op fun ch l s hs => ?_
    rwa [show (system.exec _ i ch l s).2.2.mem = s.mem from Op.exec_mem (by simp) i ch l s]
  have hwrite : system.Meets i (fun s => s.mem.dagRuns[self]? = some row)
      (P.mem (.writeDagRun self new)) fun r s => r = .ok () ∧ s.mem.dagRuns[self]? = some new := by
    refine .op fun ch l s hs => ⟨rfl, ?_⟩
    exact List.getElem?_set_self (List.getElem?_eq_some_iff.mp hs).1
  refine hread.bind_ok (hnow.bind_ok (hupsert.bind (fun _ => hwrite.mono (fun _ hs => hs) ?_) ?_))
  · rintro r s ⟨rfl, hs⟩
    exact hs
  · exact fun _ _ hs => hs

end DagRun

/-- The object is left alone. -/
def SameDagRun (self : Ref) (s s₁ : Shared) : Prop := s₁.mem.dagRuns[self]? = s.mem.dagRuns[self]?

/-- After any sequence of `set_state` calls on a DagRun as it is created, its timestamps fit its
state; a call that raises leaves it as it was. -/
theorem dagRun_stamps_fit {runId dagId : Uuid} {self : Ref} {t₀ t : ℕ} {s₀ s : Shared}
    {states : List DagRunState} (hself : s₀.mem.dagRuns[self]? = some (createdDagRun runId dagId t₀))
    (hcalls : Successive (DagRun.setState self) (SameDagRun self) t₀ s₀ states t s) :
    (∃ row, s.mem.dagRuns[self]? = some row ∧ row.StampsFit) ∧
    ∀ i state e s', system.MayEnd i (DagRun.setState self state) s (.error e) s' →
      SameDagRun self s s' := by
  have hdated : ∃ row, s.mem.dagRuns[self]? = some row ∧ row.Dated t := by
    refine hcalls.keeps (I := fun t s => ∃ row, s.mem.dagRuns[self]? = some row ∧ row.Dated t)
      ?_ ⟨_, hself, dated_createdDagRun runId dagId t₀⟩
    rintro state - i t s s₁ ⟨row, hrow, hdated⟩ hsame ht
    have hset := DagRun.meets_setState i self row state s₁.clock
    refine hset.mono ?_ fun r s₂ hs₂ => ⟨_, hs₂, ?_⟩
    · rintro _ rfl
      exact ⟨hsame.trans hrow, rfl⟩
    · cases r with
      | ok _ => exact hdated.buildRowByState ht state
      | error e => exact hdated.mono ht
  obtain ⟨row, hrow, hdated⟩ := hdated
  refine ⟨⟨row, hrow, hdated.stampsFit⟩, fun i state e s' hcall => ?_⟩
  have hleft := DagRun.meets_setState i self row state s.clock
    ⟨hrow, rfl⟩ hcall
  exact hleft.trans hrow.symm

/-- A DagRun just created, as the first object of a process. -/
def createdOnly : Shared where
  store := ⟨.empty, []⟩
  mem := { dagRuns := [createdDagRun 1 0 0] }

/-- The environment in which nothing fails. -/
def quiet : Environment Op Choice Unit := ⟨fun _ _ => {}, fun _ _ => ()⟩

/-- `createdOnly` after its DagRun was set to RUNNING. -/
def createdThenRun : Shared :=
  ((DagRun.setState 0 .running).eval (system.alone 0 quiet) ((), {}, createdOnly)).2.2.2

theorem createdOnly_runs : Successive (DagRun.setState 0) (SameDagRun 0) 0 createdOnly [.running]
    createdOnly.clock createdThenRun := by
  have hcall : system.MayEnd 0 (DagRun.setState 0 .running) createdOnly (.ok ()) createdThenRun :=
    ⟨Unit, quiet, (), (), {}, {}, rfl⟩
  exact .cons rfl (Nat.zero_le _) hcall (.nil _ _)

theorem createdThenRun_stamps_fit :
    (∃ row, createdThenRun.mem.dagRuns[0]? = some row ∧ row.StampsFit) ∧
    ∀ i state e s', system.MayEnd i (DagRun.setState 0 state) createdThenRun (.error e) s' →
      SameDagRun 0 createdThenRun s' :=
  dagRun_stamps_fit rfl createdOnly_runs

/-! ### TaskRuns -/

/-- The rows of TaskRuns that a call brings. -/
def Op.taskRuns : Op → List TaskRunRow
  | .insert _ rows => rows.filterMap RowKind.proj
  | .mem (.newTaskRuns rows) => rows
  | .mem (.writeTaskRun _ row) => [row]
  | _ => []

/-- The persisted row of a TaskRun and the objects that stand for it have the timestamps of their
states, all of them set by the time `now`. -/
structure DatedBy (runId : Uuid) (now : ℕ) (s : Shared) : Prop where
  persisted : ∀ row : TaskRunRow, s.db.taskRun runId = some row → row.Dated now
  objects : ∀ (ref : Ref) (row : TaskRunRow), s.mem.taskRuns[ref]? = some row → row.runId = runId →
    row.Dated now
  apart : s.Apart

/-- A row that may stand for the TaskRun. -/
def Fine (runId : Uuid) (now : ℕ) (row : TaskRunRow) : Prop := row.runId = runId → row.Dated now

namespace DatedBy

variable {runId : Uuid} {t now i : ℕ} {s : Shared} {o : Op}

theorem mono (h : DatedBy runId t s) (ht : t ≤ now) : DatedBy runId now s where
  persisted row hrow := (h.persisted row hrow).mono ht
  objects ref row hrow hid := (h.objects ref row hrow hid).mono ht
  apart := h.apart

/-- A call keeps this if the rows it brings are fine. -/
theorem exec (h : DatedBy runId now s) (ho : o.Apart) (hrows : ∀ row ∈ o.taskRuns, Fine runId now row)
    (ch : Choice) (l : Loc) : DatedBy runId now (o.exec i ch l s).2.2 where
  persisted row hrow := by
    rcases h.apart.store ho i ch l with hstore | ⟨rows, rfl, _, hstore⟩
    · rw [Shared.db, hstore] at hrow
      exact h.persisted row hrow
    · rw [Shared.db, hstore, Store.current_append] at hrow
      rcases Db.get_upsertAll_cases hrow with ⟨hmem, hid⟩ | ⟨_, hold⟩
      · exact hrows row (List.mem_filterMap.mpr ⟨_, hmem, RowKind.proj_eq_some.mpr rfl⟩) hid
      · exact h.persisted row hold
  objects ref row hrow hid := by
    by_cases hmem : ∃ a, o = .mem a
    · obtain ⟨a, rfl⟩ := hmem
      by_cases hnew : ∃ rows, a = .newTaskRuns rows
      · obtain ⟨rows, rfl⟩ := hnew
        rcases List.mem_append.mp (List.mem_of_getElem? hrow) with hold | hadded
        · obtain ⟨ref', hold⟩ := List.mem_iff_getElem?.mp hold
          exact h.objects ref' row hold hid
        · exact hrows row hadded hid
      · by_cases hwrite : ∃ tr new, a = .writeTaskRun tr new
        · obtain ⟨tr, new, rfl⟩ := hwrite
          rcases List.mem_or_eq_of_mem_set (List.mem_of_getElem? hrow) with hold | rfl
          · obtain ⟨ref', hold⟩ := List.mem_iff_getElem?.mp hold
            exact h.objects ref' row hold hid
          · exact hrows row (List.mem_singleton_self _) hid
        · push Not at hnew hwrite
          have hsame : (s.mem.exec i ch.pick a).2.taskRuns = s.mem.taskRuns :=
            Mem.taskRuns_exec hnew hwrite
          have hrow : (s.mem.exec i ch.pick a).2.taskRuns[ref]? = some row := hrow
          rw [hsame] at hrow
          exact h.objects ref row hrow hid
    · push Not at hmem
      rw [Op.exec_mem hmem] at hrow
      exact h.objects ref row hrow hid
  apart := h.apart.exec ho i ch l

end DatedBy

namespace TaskRun

variable {runId : Uuid} {now i : ℕ} {u : UpdateRow}

/-- Until the clock is read. -/
structure Before (runId : Uuid) (now : ℕ) (s : Shared) : Prop where
  dated : DatedBy runId now s
  clock : s.clock = now

theorem Before.exec {s : Shared} {o : Op} (h : Before runId now s) (ho : o.Apart) (hnow : o ≠ .now)
    (hrows : ∀ row ∈ o.taskRuns, Fine runId now row) (ch : Choice) (l : Loc) :
    Before runId now (o.exec i ch l s).2.2 where
  dated := h.dated.exec ho hrows ch l
  clock := (Op.exec_clock hnow i ch l s).trans h.clock

theorem retains_op {o : Op} {V : o.Ret → Prop} (ho : o.Apart) (hnow : o ≠ .now)
    (hrows : ∀ row ∈ o.taskRuns, Fine runId now row)
    (hV : ∀ ch l s, Before runId now s → ∀ a, (o.exec i ch l s).1 = .ok a → V a) :
    system.Retains i (Before runId now) (P.call o) V :=
  .op (fun ch l _ hs => hs.exec ho hnow hrows ch l) hV

theorem retains_read (ref : Ref) : system.Retains i (Before runId now)
    (P.mem (.readTaskRun ref)) (Fine runId now) := by
  refine retains_op trivial (by simp) (by simp [Op.taskRuns]) fun ch l s hs row hrow hid => ?_
  have hrow : (s.mem.taskRuns[ref]?).elim (.error Exn.attributeError) .ok = Except.ok row := hrow
  cases hget : s.mem.taskRuns[ref]? with
  | none => rw [hget] at hrow; cases hrow
  | some row' =>
    rw [hget] at hrow
    cases hrow
    exact hs.dated.objects ref row hget hid

/-- Every TaskRun of a list is fine. -/
abbrev FineTrs (runId : Uuid) (now : ℕ) (trs : List TaskRunObj) : Prop :=
  ∀ tr ∈ trs, Fine runId now tr.row

theorem fineTrs_nil : FineTrs runId now [] := by simp [FineTrs]

theorem retains_target {fetched : List TaskRunObj} (hfetched : FineTrs runId now fetched) :
    system.Retains i (Before runId now) (target fetched u) fun tr =>
      ∀ o : TaskRunObj, tr = some o → Fine runId now o.row := by
  rw [target]
  split
  · exact .ret fun o ho => hfetched o (List.mem_of_find?_eq_some ho)
  · refine (retains_read _).bind fun row hrow => ?_
    split
    · split
      · exact .ret (by simp)
      · next found hfound =>
        have hfine := hfetched found (List.mem_of_find?_eq_some hfound)
        refine Machine.Retains.bind (V := fun _ => True) (retains_op trivial (by simp) ?_ ?_) fun _ _ => ?_
        · simpa [Op.taskRuns] using hfine
        · exact fun _ _ _ _ _ _ => trivial
        · refine .ret ?_
          rintro o ⟨⟩
          exact hfine
    · refine .ret ?_
      rintro o ⟨⟩
      exact hrow

/-- The outcome of a part of `set_state`: the TaskRun is dated, and what is returned is fine. -/
abbrev After {α : Type} (runId : Uuid) (now : ℕ) (rows : α → List TaskRunObj) (r : Except Exn α)
    (s : Shared) : Prop :=
  DatedBy runId now s ∧ ∀ a, r = .ok a → FineTrs runId now (rows a)

theorem meets_ret {α : Type} {rows : α → List TaskRunObj} {a : α} {K : Shared → Prop}
    (hK : ∀ s, K s → DatedBy runId now s) (ha : FineTrs runId now (rows a)) :
    system.Meets i K (Prog.ret a) (After runId now rows) := by
  refine .ret fun s hs => ⟨hK s hs, ?_⟩
  rintro _ ⟨⟩
  exact ha

/-- The clock is read once, for the row that is built. -/
theorem meets_prepare {fetched : List TaskRunObj} (hfetched : FineTrs runId now fetched) :
    system.Meets i (Before runId now) (prepare fetched u) (After runId now Option.toList) := by
  refine (retains_target hfetched).meets_bind (fun tr htr => ?_) fun e s hs => ⟨hs.dated, by simp⟩
  cases tr with
  | none => exact meets_ret (fun _ hs => hs.dated) fineTrs_nil
  | some tr =>
    have hnow : system.Meets i (Before runId now) P.nowUtc fun r s =>
        r = .ok (⟨now, true⟩ : Iso) ∧ DatedBy runId now s := by
      refine Machine.Meets.bind_ok (a := now) (R := DatedBy runId now) (.op fun ch l s hs => ?_)
        (.ret fun s hs => ⟨rfl, hs⟩)
      exact ⟨congrArg Except.ok hs.clock, DatedBy.exec (i := i) (o := .now) hs.dated trivial (by simp [Op.taskRuns]) ch l⟩
    show system.Meets i _ (if _ then _ else _) _
    split_ifs
    · exact meets_ret (fun _ hs => hs.dated) fineTrs_nil
    · refine hnow.bind_ok (meets_ret (fun _ hs => hs) ?_)
      simp only [Option.toList_some, FineTrs, List.forall_mem_singleton]
      intro hid
      rw [TaskRunRow.runId_of_ident (TaskRunRow.ident_buildRow ..)] at hid
      exact (htr tr rfl hid).buildRow le_rfl _ _

theorem meets_applyUpdates {fetched : List TaskRunObj} (hfetched : FineTrs runId now fetched) :
    system.Meets i (Before runId now) (applyUpdates fetched [u]) (After runId now id) := by
  have hprepare : system.Meets i (Before runId now) (prepareAll fetched [u]) (After runId now id) := by
    refine (meets_prepare hfetched).bind (fun tr => ?_) fun e s hs => ⟨hs.1, by simp⟩
    rintro s r s' hs h
    refine meets_ret (K := DatedBy runId now) (fun _ hs => hs) ?_ hs.1 h
    simpa using hs.2 tr rfl
  refine hprepare.bind (fun updates => ?_) fun e s hs => ⟨hs.1, by simp⟩
  rintro s r s' hs h
  have hfine : FineTrs runId now updates := hs.2 updates rfl
  have hupsert : system.Retains i (DatedBy runId now)
      (P.unlessEmpty updates (P.upsertRows (updates.map fun u => .taskRun u.row) none)) fun _ => True := by
    rw [P.unlessEmpty]
    split_ifs
    · exact .ret trivial
    · refine .op (fun ch l s hs => DatedBy.exec
        (o := .insert none (updates.map fun u : TaskRunObj => Row.taskRun u.row)) hs rfl ?_ ch l)
        fun _ _ _ _ _ _ => trivial
      intro row hrow
      simp only [Op.taskRuns, List.filterMap_map, List.mem_filterMap] at hrow
      obtain ⟨tr, htr, he⟩ := hrow
      cases he
      exact hfine tr htr
  exact hupsert.meets_bind (fun _ _ => meets_ret (fun _ hs => hs) hfine) (fun e s hs => ⟨hs, by simp⟩) hs.1 h

theorem retains_fetchRows (filter : TaskRunFilter) : system.Retains i (Before runId now)
    (fetchRows filter) (FineTrs runId now) := by
  have hselect : system.Retains i (Before runId now) (P.call (.select none (.taskRuns filter)))
      fun rows => ∀ row ∈ rows, Fine runId now row := by
    refine retains_op (o := .select none (.taskRuns filter)) trivial (by simp) (by simp [Op.taskRuns]) ?_
    intro ch l s hs rows hrows row hrow hid
    have hcurrent : s.store.asOf (s.snapshot (.thread i)) = s.db := by
      rw [Shared.snapshot, hs.dated.apart.closed i]
      exact Store.asOf_now s.store
    simp only [Op.exec] at hrows
    split at hrows
    · cases hrows
    · split_ifs at hrows
      cases hrows
      have hmem : row ∈ filter.select s.engine (s.store.asOf (s.snapshot (.thread i))) := hrow
      rw [hcurrent] at hmem
      obtain rfl := hid
      exact hs.dated.persisted row (mem_select_taskRuns hmem).1
  refine hselect.bind fun rows hrows => ?_
  refine Machine.Retains.bind (V := fun _ => True)
    (retains_op (o := .mem (.newTaskRuns rows)) trivial (by simp) hrows fun _ _ _ _ _ _ => trivial)
    fun refs _ => .ret ?_
  intro tr htr
  obtain ⟨k, hk⟩ := List.mem_iff_getElem?.mp htr
  obtain ⟨ref, row, _, hrow, rfl⟩ := List.getElem?_zipWith_eq_some.mp hk
  exact hrows row (List.mem_of_getElem? hrow)

theorem meets_fetchAndApply (rids : List Uuid) :
    system.Meets i (Before runId now) (fetchAndApply rids [u]) (After runId now id) := by
  rw [fetchAndApply]
  split_ifs
  · exact meets_applyUpdates fineTrs_nil
  · apply meets_transaction
    · exact fun s hs => hs.dated
    · exact fun ch l s hs => hs.exec (o := .beginTx (some .global)) rfl (by simp) (by simp [Op.taskRuns]) ch l
    · exact fun ch l s hs => hs.exec (o := .commitTx (some .global)) rfl (by simp [Op.taskRuns]) ch l
    · exact fun ch l s hs => hs.exec (o := .abortTx (some .global)) rfl (by simp [Op.taskRuns]) ch l
    · exact (retains_fetchRows _).meets_bind (fun fetched hfetched => meets_applyUpdates hfetched)
        fun e s hs => ⟨hs.dated, by simp⟩

theorem retains_fetchableRids : system.Retains i (Before runId now) (fetchableRids [u]) fun _ => True := by
  have hrid : system.Retains i (Before runId now) (fetchableRid u) fun _ => True := by
    rw [fetchableRid]
    split
    · exact .ret trivial
    · split_ifs
      · exact (retains_read _).bind fun _ _ => .ret trivial
      · exact .ret trivial
  exact hrid.bind fun _ _ => .ret trivial

/-- One update of `set_state` leaves the TaskRun dated, whatever it updates and whatever fails. -/
theorem meets_setState : system.Meets i (Before runId now) (setState [u]) fun _ s => DatedBy runId now s := by
  refine retains_fetchableRids.meets_bind (fun rids _ => ?_) fun e s hs => hs.dated
  refine (meets_fetchAndApply rids).bind (fun updates => ?_) fun e s hs => hs.1
  rintro s r s' ⟨hdated, hfine⟩ h
  have hcopy : system.Retains i (DatedBy runId now)
      (Prog.forEach updates fun u => P.mem (.writeTaskRun u.ref u.row)) fun _ => True := by
    refine .forEach fun tr htr => .op (fun ch l s hs => ?_) fun _ _ _ _ _ _ => trivial
    refine DatedBy.exec (o := .mem (.writeTaskRun tr.ref tr.row)) hs trivial ?_ ch l
    simpa [Op.taskRuns] using hfine updates rfl tr htr
  exact hcopy.meets_bind (Q := fun _ s => DatedBy runId now s) (fun _ _ => .ret fun s hs => hs)
    (fun e s hs => hs) hdated h

end TaskRun

/-- The state after `queue_run_atomic` created a TaskRun for a task (`each_task_born`). -/
structure Born (s : Shared) (task : Task) (dagrunId runId : Uuid) : Prop where
  persisted : s.db.taskRun runId = some (DagRun.newTaskRun dagrunId task task.initialState runId)
  objects : ∀ (ref : Ref) (row : TaskRunRow), s.mem.taskRuns[ref]? = some row → row.runId = runId →
    row = DagRun.newTaskRun dagrunId task task.initialState runId
  apart : s.Apart

/-- The TaskRun is left alone: its row stays, and its objects are old or read it. -/
structure Elsewhere (runId : Uuid) (s s₁ : Shared) : Prop where
  persisted : s₁.db.taskRun runId = s.db.taskRun runId
  objects : ∀ (ref : Ref) (row : TaskRunRow), s₁.mem.taskRuns[ref]? = some row → row.runId = runId →
    row ∈ s.mem.taskRuns ∨ s₁.db.taskRun runId = some row
  apart : s₁.Apart

theorem DatedBy.elsewhere {runId : Uuid} {now : ℕ} {s s₁ : Shared} (h : DatedBy runId now s)
    (hsame : Elsewhere runId s s₁) : DatedBy runId now s₁ where
  persisted row hrow := h.persisted row (hsame.persisted.symm.trans hrow)
  objects ref row hrow hid := by
    rcases hsame.objects ref row hrow hid with hold | hread
    · obtain ⟨ref', hold⟩ := List.mem_iff_getElem?.mp hold
      exact h.objects ref' row hold hid
    · exact h.persisted row (hsame.persisted.symm.trans hread)
  apart := hsame.apart

/-- In every persisted row of a TaskRun the timestamps fit the state, whatever calls of `set_state`
it goes through, exactly if its task is no root. -/
theorem taskRun_stamps_fit_iff {s₀ : Shared} {task : Task} {dagrunId runId : Uuid}
    (hborn : Born s₀ task dagrunId runId) (t₀ : ℕ) :
    (∀ us t s, Successive (fun u => TaskRun.setState [u]) (Elsewhere runId) t₀ s₀ us t s →
      ∀ row : TaskRunRow, s.db.taskRun runId = some row → row.StampsFit) ↔
      task.upstreamTaskIds ≠ [] := by
  constructor
  · intro hfit hroot
    have hrow := (hfit [] t₀ s₀ (.nil t₀ s₀) _ hborn.persisted).queued
    have hstate : task.initialState = .queued := if_pos hroot
    exact absurd (hrow (Or.inl hstate)).1 (by simp [DagRun.newTaskRun])
  · intro hup us t s hcalls row hrow
    have hstate : task.initialState = .scheduled := if_neg hup
    have hnew : (DagRun.newTaskRun dagrunId task task.initialState runId).Dated t₀ := by
      rw [hstate]
      exact .scheduled (by simp)
    have h0 : DatedBy runId t₀ s₀ := by
      refine ⟨fun row hrow => ?_, fun ref row hrow hid => ?_, hborn.apart⟩
      · cases hborn.persisted.symm.trans hrow
        exact hnew
      · rw [hborn.objects ref row hrow hid]
        exact hnew
    have hdated : DatedBy runId t s := by
      refine hcalls.keeps (I := DatedBy runId) (fun u _ i t s s₁ h hsame ht => ?_) h0
      refine TaskRun.meets_setState.mono ?_ fun _ _ h => h
      rintro _ rfl
      exact ⟨(h.elsewhere hsame).mono ht, rfl⟩
    exact (hdated.persisted row hrow).stampsFit

section Example

/-- A chain of two tasks whose TaskRuns were just created. -/
def justQueued : Shared where
  store :=
    ⟨⟨[.taskRun (DagRun.newTaskRun 1 ⟨"extract", 0, []⟩ .queued 2),
      .taskRun (DagRun.newTaskRun 1 ⟨"load", 0, ["extract"]⟩ .scheduled 3)], by decide⟩, []⟩

theorem justQueued_apart : justQueued.Apart := ⟨fun _ => rfl, by simp [justQueued]⟩

theorem load_stamps_fit_iff :
    (∀ us t s, Successive (fun u => TaskRun.setState [u]) (Elsewhere 3) 0 justQueued us t s →
      ∀ row : TaskRunRow, s.db.taskRun 3 = some row → row.StampsFit) ↔
      Task.upstreamTaskIds ⟨"load", 0, ["extract"]⟩ ≠ [] :=
  taskRun_stamps_fit_iff ⟨rfl, by simp [justQueued], justQueued_apart⟩ 0

/-- The root is QUEUED, but neither scheduled nor queued at any time. -/
theorem root_stamps_missing :
    ∃ row : TaskRunRow, Born justQueued ⟨"extract", 0, []⟩ 1 2 ∧
      justQueued.db.taskRun 2 = some row ∧ row.state = .queued ∧ ¬row.StampsFit := by
  refine ⟨_, ⟨rfl, by simp [justQueued], justQueued_apart⟩, rfl, rfl, fun h => ?_⟩
  exact absurd (h.queued (Or.inl rfl)).1 (by decide)

end Example

end YtScheduler
