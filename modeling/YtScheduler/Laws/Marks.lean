import YtScheduler.Claiming.Passes
import YtScheduler.Services.Steps

/-! Marking metas as not parsed against claiming them. A scheduler reads and marks outside
of the transaction it has opened, so a claim that commits between the two statements is
overwritten; without such a commit no meta with a run id is ever marked. -/

namespace YtScheduler

open Tablet Threads

variable {σ σ' σ₀ : State} {a : Step} {as : List Step}

/-- Where a run starts: whatever the tables hold, there is no thread, object or transaction. -/
structure Idle (σ : State) : Prop where
  threads : σ.threads = []
  opened : ∀ c, σ.shared.opened c = []
  mem : σ.shared.mem = {}

/-- A run of schedulers that make claiming passes, of workers and of direct claims. -/
structure Marking (σ₀ : State) (as : List Step) : Prop where
  idle : Idle σ₀
  within : ∀ a ∈ as, a.Within Entry.Marks

abbrev MarkingState (σ : State) : Prop := Sound system marking (fun _ _ _ _ => True) σ

theorem Idle.sound (h : Idle σ) : MarkingState σ where
  inv := by
    refine ⟨?_, ?_, ?_, ?_⟩
    · simp [h.opened]
    · simp [h.mem]
    · simp [h.mem]
    · simp [h.mem]
  safe := by simp [h.threads]
  fresh i _ := ⟨h.opened _, by simp [Captured, h.mem]⟩

/-- The timestamp of the last select of the thread whose step it is. -/
def lastRead? (σ : State) : Step → Option ℕ
  | .spawn _ => none
  | .step i _ => (σ.threads[i]?).bind fun th => th.1.reads.head?

/-- When a mark is upserted outside a transaction, no commit since the last select of its thread
wrote the meta. -/
def Undisturbed (σ : State) (a : Step) : Prop :=
  ∀ rows, Upserts σ a rows → ∀ ts, lastRead? σ a = some ts →
    ∀ row, .dagMeta row ∈ rows → row.IsMark → ¬σ.shared.store.Touched ts (.dagMeta row.id)

/-- No meta that had a run id is marked. -/
def SparesClaims (db db' : Db) : Prop :=
  ∀ id row, db.dagMeta id = some row → row.runId ≠ none →
    ∀ row', db'.dagMeta id = some row' → row'.IsMark → row' = row

instance (σ : State) (a : Step) : Decidable (Undisturbed σ a) := by
  unfold Undisturbed
  infer_instance

instance (db db' : Db) : Decidable (SparesClaims db db') := by
  unfold SparesClaims
  infer_instance

/-- What a batch marks, where no meta it marks had a run id. -/
theorem SparesClaims.of_rows {db : Db} {rows : List Row}
    (h : ∀ row, .dagMeta row ∈ rows → row.IsMark → ∀ row₀, db.dagMeta row.id = some row₀ →
      row₀.runId = none) : SparesClaims db (db.upsertAll rows) := by
  intro id row hrow hne row' hrow' hmark
  rcases Db.get_upsertAll_cases hrow' with ⟨hm, rfl⟩ | ⟨_, h₀⟩
  · exact absurd (h row' hm hmark row hrow) hne
  · exact Option.some.inj (h₀.symm.trans hrow)

/-- The step lemma. -/
theorem SparesClaims.act (h : MarkingState σ) (hc : Undisturbed σ a)
    (ha : system.act σ a = some σ') : SparesClaims σ.shared.db σ'.shared.db := by
  have hquiet : σ'.shared.store = σ.shared.store → SparesClaims σ.shared.db σ'.shared.db := by
    intro hs id row hrow _ row' hrow' _
    rw [Shared.db, hs] at hrow'
    exact Option.some.inj (hrow'.symm.trans hrow)
  cases a with
  | spawn e =>
    cases ha
    exact hquiet rfl
  | step i ch =>
    obtain ⟨l, o, k, hth, hσ', howed, _⟩ := h.step ha
    have hcommit : ∀ c, σ'.shared.store = σ.shared.store.append c →
        (∀ rows, o = .insert none rows → Upserts σ (.step i ch) rows) →
        SparesClaims σ.shared.db σ'.shared.db := by
      intro c hs hup
      rw [Shared.db, Shared.db, hs, Store.current_append]
      refine .of_rows fun row hm hmark row₀ hrow₀ => ?_
      rcases howed.guar.commits c hs with hfree | ⟨ts, rfl, hts, _, hun⟩
      · exact absurd hmark (hfree row hm)
      · obtain ⟨row₁, hrow₁, hnone⟩ := hun row hm
        have hread : lastRead? σ (.step i ch) = some ts := by
          rw [lastRead?, hth]
          exact hts
        have hsame := Store.find_asOf_of_not_touched (hc _ (hup _ rfl) ts hread row hm hmark)
        rw [Db.dagMeta, Db.get, show RowKind.rowKey DagMetaRow row.id = .dagMeta row.id from rfl,
          hsame] at hrow₁
        obtain rfl := Option.some.inj (hrow₁.symm.trans hrow₀)
        exact hnone
    have hexec : σ'.shared = (o.exec i ch l σ.shared).2.2 := by rw [hσ']; rfl
    rcases Op.exec_store o i ch l σ.shared with hs | ⟨c, rows, ho, hf, hop, hs⟩ |
      ⟨c, tx, ho, hf, _, _, _, hs⟩
    · exact hquiet (by rw [hexec, hs])
    · refine hcommit _ (by rw [hexec, hs]) fun rows' ho' => ?_
      subst ho'
      cases ho
      exact ⟨i, none, ⟨ch, l, k, rfl, hf, hth⟩, hop⟩
    · refine hcommit _ (by rw [hexec, hs]) fun rows' ho' => ?_
      rw [ho'] at ho
      cases ho

/-- No meta with a run id is marked, in a run in which no commit comes between the read and the
upsert of a mark. -/
theorem marks_spare_claims (h : Marking σ₀ as) (hc : system.Along Undisturbed σ₀ as) :
    system.EachStep (fun σ σ' => SparesClaims σ.shared.db σ'.shared.db) σ₀ as := by
  rintro as₁ a as₂ σ₁ σ' rfl h1 ha
  have hin := fun b hb => h.within b (List.mem_append_left (a :: as₂) hb)
  have hs : MarkingState σ₁ := h.idle.sound.run marks_startable hin h1
  exact .act hs (Machine.along_iff.mp hc as₁ a as₂ rfl σ₁ h1) ha

/-- Two metas of a DAG that cannot be deserialized. -/
def unloadable : State :=
  stateOf ⟨[.dagRef ⟨0, "", "", default⟩, .dagMeta ⟨1, 0, default, none⟩,
    .dagMeta ⟨2, 0, default, none⟩], by decide⟩ 3 []

/-- The second try has failed too, and the scheduler has opened its transaction. -/
def secondTry : List Step :=
  .spawn (.scheduler [.createDagrunsForDags] 2) :: .spawn (.worker 2) ::
    .spawn (.createDagRuns [some 1]) :: calls 0 4 ++ calls 1 18 ++ calls 0 6

/-- One meta is claimed before the scheduler reads. -/
def claimsFirst : List Step := secondTry ++ calls 2 7 ++ calls 0 4

/-- It is claimed between the select of the scheduler and its upsert, which is next. -/
def claimsBetween : List Step := secondTry ++ calls 0 1 ++ calls 2 7 ++ calls 0 2

theorem idle_unloadable : Idle unloadable where
  threads := rfl
  opened _ := rfl
  mem := rfl

theorem marks_spare_claims_claimsFirst :
    system.EachStep (fun σ σ' => SparesClaims σ.shared.db σ'.shared.db) unloadable claimsFirst :=
  marks_spare_claims ⟨idle_unloadable, by decide +kernel⟩ (by decide +kernel)

theorem mark_overwrites_claim : ¬∀ σ₀ as, Marking σ₀ as →
    system.EachStep (fun σ σ' => SparesClaims σ.shared.db σ'.shared.db) σ₀ as := by
  intro h
  have hno : ¬system.EachStep (fun σ σ' => SparesClaims σ.shared.db σ'.shared.db) unloadable
      (claimsBetween ++ [.step 0 {}]) := Machine.not_eachStep (by decide +kernel)
  exact hno (h _ _ ⟨idle_unloadable, by decide +kernel⟩)

end YtScheduler
