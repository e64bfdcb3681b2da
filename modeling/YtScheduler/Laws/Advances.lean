import YtScheduler.Laws.Steps

/-! Rows only advance. Whatever the services do, and in whatever order, a DagRun or a TaskRun
stays, keeps what identifies it, and passes SCHEDULED and QUEUED at most once. The
TaskRuns of a DagRun appear while it is SCHEDULED, and none appears later. -/

namespace YtScheduler

open Tablet Threads

variable {σ σ' σ₀ : State} {a : Step} {as : List Step}

/-- How far a TaskRun has come: the states after QUEUED count as one. -/
def TaskRunState.phase : TaskRunState → ℕ
  | .scheduled => 0
  | .queued => 1
  | _ => 2

def DagRunState.phase : DagRunState → ℕ
  | .scheduled => 0
  | .queued => 1
  | _ => 2

/-- The row stands for the same run, and has come as far at least. -/
structure TaskRunRow.AdvancesTo (t t' : TaskRunRow) : Prop where
  ident : t'.ident = t.ident
  phase : t.state.phase ≤ t'.state.phase

structure DagRunRow.AdvancesTo (run run' : DagRunRow) : Prop where
  ident : run'.ident = run.ident
  phase : run.state.phase ≤ run'.state.phase

structure Advances (db db' : Db) : Prop where
  taskRun : ∀ id t, db.taskRun id = some t → ∃ t', db'.taskRun id = some t' ∧ t.AdvancesTo t'
  dagRun : ∀ id run, db.dagRun id = some run → ∃ run', db'.dagRun id = some run' ∧ run.AdvancesTo run'
  dagRun_none : ∀ id, db.dagRun id = none → db'.dagRun id = none
  appears : ∀ id t', db.taskRun id = none → db'.taskRun id = some t' →
    ∃ run, db.dagRun t'.dagrunId = some run ∧ run.state = .scheduled

theorem TaskRunState.phase_le_two (st : TaskRunState) : st.phase ≤ 2 := by cases st <;> decide

theorem DagRunState.phase_le_two (st : DagRunState) : st.phase ≤ 2 := by cases st <;> decide

theorem DagRunState.scheduled_of_phase_le {st st' : DagRunState} (h : st.phase ≤ st'.phase)
    (hs : st' = .scheduled) : st = .scheduled := by
  subst hs
  cases st with
  | scheduled => rfl
  | _ => exact absurd h (by decide)

namespace Advances

theorem refl (db : Db) : Advances db db :=
  ⟨fun _ t ht => ⟨t, ht, rfl, le_refl _⟩, fun _ run hr => ⟨run, hr, rfl, le_refl _⟩, fun _ h => h,
    fun _ _ hn ht => by rw [hn] at ht; cases ht⟩

theorem trans {db db' db'' : Db} (h : Advances db db') (h' : Advances db' db'') : Advances db db'' where
  taskRun id t ht := by
    obtain ⟨t', ht', hadv⟩ := h.taskRun id t ht
    obtain ⟨t'', ht'', hadv'⟩ := h'.taskRun id t' ht'
    exact ⟨t'', ht'', hadv'.ident.trans hadv.ident, hadv.phase.trans hadv'.phase⟩
  dagRun id run hr := by
    obtain ⟨run', hr', hadv⟩ := h.dagRun id run hr
    obtain ⟨run'', hr'', hadv'⟩ := h'.dagRun id run' hr'
    exact ⟨run'', hr'', hadv'.ident.trans hadv.ident, hadv.phase.trans hadv'.phase⟩
  dagRun_none id hn := h'.dagRun_none id (h.dagRun_none id hn)
  appears id t'' hn ht'' := by
    cases ht' : db'.taskRun id with
    | some t' =>
      -- it appeared before, as a row of the same DagRun
      obtain ⟨t₂, ht₂, hadv⟩ := h'.taskRun id t' ht'
      obtain rfl : t'' = t₂ := Option.some.inj (ht''.symm.trans ht₂)
      rw [show t''.dagrunId = t'.dagrunId from congrArg TaskRunIdent.dagrunId hadv.ident]
      exact h.appears id t' hn ht'
    | none =>
      obtain ⟨run', hr', hs'⟩ := h'.appears id t'' ht' ht''
      cases hr : db.dagRun t''.dagrunId with
      | none =>
        rw [h.dagRun_none _ hr] at hr'
        cases hr'
      | some run =>
        obtain ⟨run₁, hr₁, hadv⟩ := h.dagRun _ run hr
        obtain rfl : run' = run₁ := Option.some.inj (hr'.symm.trans hr₁)
        exact ⟨run, rfl, DagRunState.scheduled_of_phase_le hadv.phase hs'⟩

end Advances

/-- A row after a batch all of whose rows of this kind relate to the rows they replace. -/
theorem Db.get_upsertAll_of_rel {α : Type} [RowKind α] {db : Db} {rows : List Row} {R : α → α → Prop}
    (hrefl : ∀ a, R a a)
    (hrows : ∀ b : α, RowKind.toRow b ∈ rows → ∃ a, db.get α (RowKind.id b) = some a ∧ R a b)
    {id : Uuid} {a : α} (h : db.get α id = some a) :
    ∃ b, Db.get α (db.upsertAll rows) id = some b ∧ R a b := by
  by_cases hw : ∃ b : α, RowKind.toRow b ∈ rows ∧ RowKind.id b = id
  · obtain ⟨b, hb, rfl, hget⟩ := Db.get_upsertAll_of_written db hw
    obtain ⟨a', ha', hR⟩ := hrows b hb
    obtain rfl : a = a' := Option.some.inj (h.symm.trans ha')
    exact ⟨b, hget, hR⟩
  · push Not at hw
    exact ⟨a, (Db.get_upsertAll_of_not_written hw).trans h, hrefl a⟩

/-- A batch that only replaces rows by rows that have come as far. -/
theorem Advances.of_rows {db : Db} {rows : List Row}
    (ht : ∀ t, .taskRun t ∈ rows → ∃ t₀, db.taskRun t.runId = some t₀ ∧ t₀.AdvancesTo t)
    (hr : ∀ run, .dagRun run ∈ rows → ∃ run₀, db.dagRun run.runId = some run₀ ∧ run₀.AdvancesTo run) :
    Advances db (db.upsertAll rows) where
  taskRun _ _ h := Db.get_upsertAll_of_rel (fun _ => ⟨rfl, le_refl _⟩) ht h
  dagRun _ _ h := Db.get_upsertAll_of_rel (fun _ => ⟨rfl, le_refl _⟩) hr h
  dagRun_none id hn := by
    refine (Db.get_upsertAll_of_not_written fun run hrow hid => ?_).trans hn
    obtain ⟨run₀, h₀, _⟩ := hr run hrow
    rw [show run.runId = id from hid, hn] at h₀
    cases h₀
  appears id t' hn ht' := by
    rcases Db.get_upsertAll_cases ht' with ⟨hrow, hid⟩ | ⟨_, h₀⟩
    · obtain ⟨t₀, h₀, _⟩ := ht t' hrow
      rw [show t'.runId = id from hid, hn] at h₀
      cases h₀
    · exact absurd (hn.symm.trans h₀) (by simp)

/-- Queueing a DagRun makes its TaskRuns appear. -/
theorem Creates.advances {s : Shared} {run : DagRunRow} {dag : Dag} {trs : List TaskRunRow}
    (h : Creates s run dag trs) : Advances s.db (s.db.upsertAll (batch run trs)) := by
  obtain ⟨run₀, hr₀, hident, hs₀⟩ := h.persisted
  refine ⟨fun id t ht => ⟨t, h.taskRun_iff.mpr (Or.inr ht), rfl, le_refl _⟩, fun id run' hr => ?_,
    h.persists.dagRun_none, fun id t' hn ht' => ?_⟩
  · by_cases hid : id = run.runId
    · subst hid
      obtain rfl : run' = run₀ := Option.some.inj (hr.symm.trans hr₀)
      refine ⟨run, dagRun_upsertAll_batch _ _ _, hident, ?_⟩
      rw [hs₀]
      exact Nat.zero_le _
    · exact ⟨run', (h.dagRun_of_ne hid).trans hr, rfl, le_refl _⟩
  · rcases h.taskRun_iff.mp ht' with ⟨hm, _⟩ | h₀
    · exact ⟨run₀, (h.owner t' hm).1 ▸ hr₀, hs₀⟩
    · rw [hn] at h₀
      cases h₀

/-- A DagRun that leaves QUEUED behind. -/
theorem DagRunRow.AdvancesTo.of_decided {run run₀ : DagRunRow} (hident : run.ident = run₀.ident)
    (hst : run.state ≠ .scheduled ∧ run.state ≠ .queued) : run₀.AdvancesTo run := by
  refine ⟨hident, run₀.state.phase_le_two.trans ?_⟩
  revert hst
  cases run.state <;> decide

theorem TaskRunRow.AdvancesTo.of_decided {t t₀ : TaskRunRow} (hident : t.ident = t₀.ident)
    (hst : t.state ≠ .scheduled ∧ t.state ≠ .queued) : t₀.AdvancesTo t := by
  refine ⟨hident, t₀.state.phase_le_two.trans ?_⟩
  revert hst
  cases t.state <;> decide

/-- The step lemma. -/
theorem advances_of_act (h : SoundState σ) (ha : system.act σ a = some σ') :
    Advances σ.shared.db σ'.shared.db := by
  have hmap : ∀ {trs : List TaskRunRow} {t}, Row.taskRun t ∈ trs.map Row.taskRun → t ∈ trs := by simp
  cases effect_of_act h ha with
  | quiet hs =>
    rw [Shared.db, Shared.db, hs]
    exact .refl _
  | queues h' hc hs =>
    rw [Shared.db, Shared.db, hs, Store.current_append]
    exact (h'.creates hc.not_conflict).advances
  | verdict _ h' hc hs =>
    rw [Shared.db, Shared.db, hs, Store.current_append]
    refine .of_rows (fun t ht => ?_) fun run hr => ?_
    · obtain ⟨hst, _, t₀, _, h₀, hident, _⟩ := h'.skips t (taskRun_mem_batch.mp ht)
      exact ⟨t₀, get_asOf_of_not_conflict (a := t) hc.not_conflict ht h₀,
        .of_decided hident (by rw [hst]; decide)⟩
    · obtain rfl := dagRun_mem_batch.mp hr
      obtain ⟨run₀, h₀, hident, _⟩ := h'.persisted
      refine ⟨run₀, get_asOf_of_not_conflict (a := run) hc.not_conflict hr h₀,
        .of_decided hident ?_⟩
      rcases h'.decided with hd | hd | hd <;> rw [hd] <;> decide
  | releases h' hc hs =>
    rw [Shared.db, Shared.db, hs, Store.current_append]
    refine .of_rows (fun t ht => ?_) fun run hr => by simp at hr
    -- the rows it queues are still SCHEDULED
    obtain ⟨_, t₀, h₀, hident, hst₀, _⟩ := h'.queues t (hmap ht)
    refine ⟨t₀, get_asOf_of_not_conflict (a := t) hc.not_conflict ht h₀, hident, ?_⟩
    rw [hst₀]
    exact Nat.zero_le _
  | setsTaskRuns hq h' _ hs =>
    rw [Shared.db, Shared.db, hs, Store.current_append]
    refine .of_rows (fun t ht => ?_) fun run hr => by simp at hr
    obtain ⟨hst, hsets⟩ := h' t (hmap ht)
    obtain ⟨t₀, h₀, hident⟩ := hsets.persisted
    exact ⟨t₀, h₀, .of_decided hident ⟨hsets.state, hst ▸ hq⟩⟩
  | setsDagRun h' hst _ hs =>
    rw [Shared.db, Shared.db, hs, Store.current_append]
    refine .of_rows (fun t ht => by simp at ht) fun run hr => ?_
    obtain rfl : run = _ := by simpa using hr
    obtain ⟨run₀, h₀, hident, _⟩ := h'.persisted
    exact ⟨run₀, h₀, .of_decided hident (by rcases hst with hst | hst <;> rw [hst] <;> decide)⟩

/-- In every run the rows only advance. -/
theorem rows_only_advance (h : Scheduling σ₀ as) :
    system.Throughout (fun σ σ' => Advances σ.shared.db σ'.shared.db) σ₀ as := by
  rw [Machine.throughout_iff (fun _ => .refl _) fun _ _ _ => .trans]
  exact h.along_imp (fun _ _ hsound _ _ ha => advances_of_act hsound ha)
    (Machine.along_of_forall fun _ _ => trivial)

theorem rows_only_advance_submitted :
    system.Throughout (fun σ σ' => Advances σ.shared.db σ'.shared.db) chainRun submitted :=
  rows_only_advance ⟨initial_chainRun, by decide +kernel⟩

end YtScheduler
