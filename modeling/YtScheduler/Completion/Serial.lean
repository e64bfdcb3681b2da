import YtScheduler.Laws.Guarded
import YtScheduler.Laws.Skips

/-! Calls that threads make one after the other, while none fails. What such a call leaves is said
by the states that the DagRuns and TaskRuns in the tables get from it. -/

namespace YtScheduler

open Tablet Threads

variable {i : ℕ} {s s' s'' : Shared} {operation : OperationId}

/-! ### An environment that serves -/

/-- No call fails, the task of a TaskRun is found, and a started operation gets this id. -/
structure Serving {κ : Type} (operation : OperationId) (env : Environment Op Choice κ) : Prop where
  healthy : Healthy env
  loads : ∀ k dagId taskId, (env.choose k (.loadTask dagId taskId)).pick = 0
  starts : ∀ k runId, (env.choose k (.runOperation runId)).pick = operation

/-- Thread `i` running `p` alone in `s`, in an environment that serves, returns `a` and leaves
`s'`. -/
def Performs {α : Type} (operation : OperationId) (i : ℕ) (p : P α) (s : Shared) (a : α) (s' : Shared) :
    Prop :=
  ∀ (κ : Type) (env : Environment Op Choice κ), Serving operation env → ∀ k l, ∃ k' l',
    p.Ends (system.alone i env) (k, l, s) (.ok a) (k', l', s')

/-- The environment that always gives the same answers. -/
def steady (operation : OperationId) : Environment Op Choice Unit where
  choose _ o :=
    match o with
    | .runOperation _ => { pick := operation }
    | _ => {}
  next _ _ := ()

theorem serving_steady (operation : OperationId) : Serving operation (steady operation) where
  healthy k o := by cases o <;> rfl
  loads _ _ _ := rfl
  starts _ _ := rfl

namespace Performs

variable {α β : Type} {p : P α} {f : α → P β} {a : α} {b : β}

theorem of_yields (h : Yields i p s a s') : Performs operation i p s a s' :=
  fun κ env henv => h κ env henv.healthy

theorem bind (hp : Performs operation i p s a s') (hf : Performs operation i (f a) s' b s'') :
    Performs operation i (p.bind f) s b s'' := by
  intro κ env henv k l
  obtain ⟨k₁, l₁, h1⟩ := hp κ env henv k l
  obtain ⟨k₂, l₂, h2⟩ := hf κ env henv k₁ l₁
  exact ⟨k₂, l₂, h1.bind h2⟩

theorem attempt (hp : Performs operation i p s a s') : Performs operation i p.attempt s (.ok a) s' := by
  intro κ env henv k l
  obtain ⟨k', l', h⟩ := hp κ env henv k l
  exact ⟨k', l', h.attempt⟩

/-- It leaves one state. -/
theorem unique {s₁ s₂ : Shared} {b : α} (h1 : Performs operation i p s a s₁)
    (h2 : Performs operation i p s b s₂) : a = b ∧ s₁ = s₂ := by
  obtain ⟨_, _, hends₁⟩ := h1 Unit _ (serving_steady operation) () {}
  obtain ⟨_, _, hends₂⟩ := h2 Unit _ (serving_steady operation) () {}
  cases hends₁.symm.trans hends₂
  exact ⟨rfl, rfl⟩

theorem comes {r : Except Exn α} {s₁ : Shared} (hp : Performs operation i p s a s')
    (h : Comes i p s r s₁) : r = .ok a ∧ s₁ = s' := by
  obtain ⟨_, _, hends⟩ := hp Unit _ (serving_steady operation) () {}
  obtain ⟨_, _, hends₁⟩ := h Unit _ (serving_steady operation).healthy () {}
  cases hends.symm.trans hends₁
  exact ⟨rfl, rfl⟩

/-- What every call of the program keeps holds at the end. -/
theorem keeps {A : Op → Prop} {K : Shared → Prop} (hp : Performs operation i p s a s') (huses : p.Uses A)
    (hK : ∀ o ch l s, A o → K s → K (o.exec i ch l s).2.2) (h : K s) : K s' := by
  obtain ⟨_, _, hends⟩ := hp Unit _ (serving_steady operation) () {}
  exact hends.keeps_of_uses (P := fun t => K t.2.2) (fun o t ho ht => hK o _ _ _ ho ht) huses h

theorem dags (hp : Performs operation i p s a s') : s'.dags = s.dags := by
  refine hp.keeps (K := fun s₁ => s₁.dags = s.dags) p.uses_true (fun o ch l s₁ _ h => ?_) rfl
  exact (Op.exec_dags o i ch l s₁).trans h

/-- The clients of the other threads stay as they are. -/
theorem opened_of_ne (hp : Performs operation i p s a s') (huses : p.Uses Op.Own) {j : ℕ} (hij : j ≠ i) :
    s'.opened (.thread j) = s.opened (.thread j) := by
  refine hp.keeps (K := fun s₁ => s₁.opened (.thread j) = s.opened (.thread j)) huses
    (fun o ch l s₁ ho h => ?_) rfl
  exact (ho.opened_of_ne hij ch l s₁).trans h

theorem op {o : Op} {r : o.Ret} (h : ∀ ch l, ch.fail = none →
    (∀ dagId taskId, o = .loadTask dagId taskId → ch.pick = 0) →
    (∀ runId, o = .runOperation runId → ch.pick = operation) → o.exec i ch l s = (.ok r, l, s')) :
    Performs operation i (P.call o) s r s' := by
  intro κ env henv k l
  refine ⟨env.next k o, l, Prog.ends_op ?_⟩
  show ((o.exec i (env.choose k o) l s).1, _, (o.exec i (env.choose k o) l s).2) = _
  rw [h (env.choose k o) l (henv.healthy k o)]
  · rintro dagId taskId rfl
    exact henv.loads k dagId taskId
  · rintro runId rfl
    exact henv.starts k runId

theorem loadTask (dagId : Uuid) (taskId : String) (s : Shared) :
    Performs operation i (P.call (.loadTask dagId taskId)) s ((s.dag? dagId).bind (·.task? taskId)) s := by
  refine op fun ch l hfail hpick _ => ?_
  simp only [Op.exec, hfail, hpick dagId taskId rfl, if_true]

theorem runOperation (runId : Uuid) (s : Shared) :
    Performs operation i (P.call (.runOperation runId)) s operation
      { s with operations := (operation, runId) :: s.operations } := by
  refine op fun ch l hfail _ hpick => ?_
  simp only [Op.exec, hfail, hpick runId rfl]

end Performs

/-! ### States in the tables -/

/-- Two rows of one table with the same id are equal. -/
theorem Db.eq_of_id {α : Type} [RowKind α] {db : Db} {a b : α} (ha : db.get α (RowKind.id a) = some a)
    (hb : db.get α (RowKind.id b) = some b) (hid : RowKind.id a = RowKind.id b) : a = b := by
  rw [hid, hb] at ha
  exact (Option.some.inj ha).symm

/-- A batch that writes one row for each of some rows of a table. -/
theorem map_get_upsertAll {α β : Type} [RowKind α] {db : Db} {w : List Row} {olds : List α}
    {label wanted : α → β} (hold : ∀ a ∈ olds, db.get α (RowKind.id a) = some a)
    (hnews : List.Forall₂ (fun a new => RowKind.id new = RowKind.id a ∧ label new = wanted a) olds
      (w.filterMap RowKind.proj))
    (hkept : ∀ a, db.get α (RowKind.id a) = some a → a ∉ olds → wanted a = label a) (id : Uuid) :
    (Db.get α (db.upsertAll w) id).map label = (db.get α id).map wanted := by
  by_cases hid : ∃ a ∈ olds, RowKind.id a = id
  · obtain ⟨a, ha, rfl⟩ := hid
    obtain ⟨new, hnew, hnewId, _⟩ := Sequences.exists_right hnews ha
    obtain ⟨b, hb, hbid, hget⟩ := Db.get_upsertAll_of_written db ⟨new, mem_filterMap_proj.mp hnew, hnewId⟩
    -- the row found was written for a row with the same id, which is that row
    obtain ⟨a₁, ha₁, hid₁, hlabel₁⟩ := Sequences.exists_left hnews (mem_filterMap_proj.mpr hb)
    have hsame : a₁ = a := Db.eq_of_id (hold a₁ ha₁) (hold a ha) (hid₁.symm.trans hbid)
    rw [hget, hold a ha, Option.map_some, Option.map_some, hlabel₁, hsame]
  · rw [Db.get_upsertAll_of_not_written fun b hb hbid => ?_]
    · cases hrow : db.get α id with
      | none => rfl
      | some a =>
        obtain rfl := Db.id_of_get hrow
        rw [Option.map_some, Option.map_some, hkept a hrow fun ha => hid ⟨a, ha, rfl⟩]
    · obtain ⟨a, ha, haid, _⟩ := Sequences.exists_left hnews (mem_filterMap_proj.mpr hb)
      exact hid ⟨a, ha, haid.symm.trans hbid⟩

/-- Every DagRun and TaskRun stays what it is and gets the state `g` or `f`, and no other appears. -/
structure Relabels (db db' : Db) (g : DagRunRow → DagRunState) (f : TaskRunRow → TaskRunState) : Prop where
  dagRuns : ∀ id, (db'.dagRun id).map (fun r => (r.ident, r.state)) =
    (db.dagRun id).map fun r => (r.ident, g r)
  taskRuns : ∀ id, (db'.taskRun id).map (fun r => (r.ident, r.state)) =
    (db.taskRun id).map fun r => (r.ident, f r)
  dagRefs : db'.dagRefs = db.dagRefs

namespace Relabels

variable {db db' : Db} {g : DagRunRow → DagRunState} {f : TaskRunRow → TaskRunState} {id : Uuid}

theorem refl (db : Db) : Relabels db db DagRunRow.state TaskRunRow.state := ⟨fun _ => rfl, fun _ => rfl, rfl⟩

theorem of_upsertAll {w : List Row} (runs : List DagRunRow) (trs : List TaskRunRow)
    (hrun : ∀ r ∈ runs, db.dagRun r.runId = some r)
    (hruns : List.Forall₂ (fun r (new : DagRunRow) => new.ident = r.ident ∧ new.state = g r) runs
      (w.filterMap RowKind.proj))
    (hg : ∀ r, db.dagRun r.runId = some r → r ∉ runs → g r = r.state)
    (htr : ∀ r ∈ trs, db.taskRun r.runId = some r)
    (htrs : List.Forall₂ (fun r (new : TaskRunRow) => new.ident = r.ident ∧ new.state = f r) trs
      (w.filterMap RowKind.proj))
    (hf : ∀ r, db.taskRun r.runId = some r → r ∉ trs → f r = r.state)
    (hrefs : ∀ row ∈ w, (RowKind.proj row : Option DagRefRow) = none) :
    Relabels db (db.upsertAll w) g f where
  dagRuns := by
    refine map_get_upsertAll hrun (hruns.imp ?_) fun r hr hnot => by rw [hg r hr hnot]
    rintro r new ⟨hident, hstate⟩
    exact ⟨congrArg DagRunIdent.runId hident, by rw [hident, hstate]⟩
  taskRuns := by
    refine map_get_upsertAll htr (htrs.imp ?_) fun r hr hnot => by rw [hf r hr hnot]
    rintro r new ⟨hident, hstate⟩
    exact ⟨congrArg TaskRunIdent.runId hident, by rw [hident, hstate]⟩
  dagRefs := Db.all_upsertAll_of_other hrefs

variable (h : Relabels db db' g f)
include h

theorem congr {g' : DagRunRow → DagRunState} {f' : TaskRunRow → TaskRunState}
    (hg : ∀ r, db.dagRun r.runId = some r → g' r = g r)
    (hf : ∀ r, db.taskRun r.runId = some r → f' r = f r) : Relabels db db' g' f' where
  dagRuns id := by
    rw [h.dagRuns id]
    refine Option.map_congr fun r hr => ?_
    rw [hg r (by rwa [Db.runId_of_dagRun hr])]
  taskRuns id := by
    rw [h.taskRuns id]
    refine Option.map_congr fun r hr => ?_
    rw [hf r (by rwa [Db.runId_of_taskRun hr])]
  dagRefs := h.dagRefs

theorem dagRun {run : DagRunRow} (hrun : db.dagRun id = some run) :
    ∃ run', db'.dagRun id = some run' ∧ run'.ident = run.ident ∧ run'.state = g run := by
  have hmap := h.dagRuns id
  rw [hrun, Option.map_some, Option.map_eq_some_iff] at hmap
  obtain ⟨run', hrun', he⟩ := hmap
  exact ⟨run', hrun', congrArg Prod.fst he, congrArg Prod.snd he⟩

theorem taskRun {r : TaskRunRow} (hr : db.taskRun id = some r) :
    ∃ r', db'.taskRun id = some r' ∧ r'.ident = r.ident ∧ r'.state = f r := by
  have hmap := h.taskRuns id
  rw [hr, Option.map_some, Option.map_eq_some_iff] at hmap
  obtain ⟨r', hr', he⟩ := hmap
  exact ⟨r', hr', congrArg Prod.fst he, congrArg Prod.snd he⟩

theorem taskRun_old {r' : TaskRunRow} (hr' : db'.taskRun id = some r') :
    ∃ r, db.taskRun id = some r ∧ r'.ident = r.ident ∧ r'.state = f r := by
  have hmap := h.taskRuns id
  rw [hr', Option.map_some, eq_comm, Option.map_eq_some_iff] at hmap
  obtain ⟨r, hr, he⟩ := hmap
  exact ⟨r, hr, (congrArg Prod.fst he).symm, (congrArg Prod.snd he).symm⟩

end Relabels

/-- No thread has a transaction on its client. -/
def Shared.Closed (s : Shared) : Prop := ∀ j, s.opened (.thread j) = []

/-- What a call leaves, by the states that the DagRuns and TaskRuns get. -/
structure Turned (s s' : Shared) (g : DagRunRow → DagRunState) (f : TaskRunRow → TaskRunState) : Prop where
  closed : s'.Closed
  dags : s'.dags = s.dags
  relabels : Relabels s.db s'.db g f

/-- A call that returns, and writes only through its own client. -/
theorem Performs.turned {α : Type} {p : P α} {a : α} {g : DagRunRow → DagRunState}
    {f : TaskRunRow → TaskRunState} (hp : Performs operation i p s a s') (huses : p.Uses Op.Own)
    (hs : s.Closed) (hopen : s'.opened (.thread i) = []) (h : Relabels s.db s'.db g f) : Turned s s' g f where
  closed j := by
    by_cases hij : j = i
    · rw [hij, hopen]
    · rw [hp.opened_of_ne huses hij, hs j]
  dags := hp.dags
  relabels := h

end YtScheduler
