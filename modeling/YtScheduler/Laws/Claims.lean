import YtScheduler.Claiming.Claimers
import YtScheduler.Services.Steps

/-! Concurrent calls of `_create_dag_runs_atomic` claim every meta at most once, whatever
their lists of metas, and their counts add up to the DagRuns there are. -/

namespace YtScheduler

open Tablet Threads

variable {σ σ' σ₀ : State} {a : Step} {as : List Step}

/-- Where claiming starts: no meta has a run id, and there is no DagRun. -/
structure Unclaimed (σ : State) : Prop where
  threads : σ.threads = []
  log : σ.shared.store.log = []
  opened : ∀ c, σ.shared.opened c = []
  metas : ∀ id row, σ.shared.db.dagMeta id = some row → row.runId = none
  dagRuns : σ.shared.db.dagRuns = []

def Entry.Claims : Entry → Prop
  | .createDagRuns _ => True
  | _ => False

instance : DecidablePred Entry.Claims
  | .createDagRuns _ => .isTrue trivial
  | .scheduler _ _ | .executor _ | .worker _ | .queueRun _ _ | .setState _ | .upsert _ => .isFalse id

/-- A run of any number of calls; a call that is retried is one more call with the same metas. -/
structure Claiming (σ₀ : State) (as : List Step) : Prop where
  unclaimed : Unclaimed σ₀
  within : ∀ a ∈ as, a.Within Entry.Claims

/-- The count in a result; an exception counts nothing. -/
def countOf : Except Exn JobResult → ℕ
  | .ok (.count n) => n
  | _ => 0

/-- The count that a thread has returned. -/
def returned (th : Loc × P JobResult) : ℕ :=
  match th.2 with
  | .ret r => countOf (.ok r)
  | _ => 0

/-- A claimer ends with the number of DagRuns it created. -/
def Returned (i : ℕ) : Post Exn JobResult Loc Shared := fun r _ s => createdBy i s = countOf r

abbrev ClaimingState (σ : State) : Prop := Sound system claiming Returned σ

theorem claims_startable : Startable system claiming Returned Entry.Claims where
  stable i r l s s' h hr _ := by
    rw [Returned, createdBy, hr.authored]
    exact h
  start e he i s hc hf := by
    cases e with
    | createDagRuns metas =>
      have hs : Claimer i [] s := ⟨hc, hf.1, hf.2, by simp⟩
      refine Safe.bind (Safe.mono (createDagRunsAtomic_counted hs) fun r l' s' hr => ?_)
      cases r <;> exact hr
    | _ => exact he.elim

theorem Unclaimed.claimed (h : Unclaimed σ) : Claimed σ.shared where
  runs_lt ts id run hr := by
    have hnow : σ.shared.store.asOf ts = σ.shared.db := by simp [Store.asOf, Store.current, h.log]
    rw [hnow] at hr
    have hm := Db.mem_dagRuns.mpr (Db.runId_of_dagRun hr ▸ hr)
    rw [h.dagRuns] at hm
    cases hm
  named id row x hrow hx := by
    rw [h.metas id row hrow] at hx
    cases hx
  persisted id runId hc := by
    obtain ⟨c, hm, _⟩ := hc
    rw [h.log] at hm
    cases hm
  count := by rw [h.dagRuns, h.log]; rfl

theorem Unclaimed.sound (h : Unclaimed σ) : ClaimingState σ where
  inv := h.claimed
  safe := by simp [h.threads]
  fresh i _ := ⟨h.opened _, by simp [Store.authored, h.log]⟩

theorem Claiming.sound (h : Claiming σ₀ as) (hr : system.run σ₀ as = some σ) : ClaimingState σ :=
  h.unclaimed.sound.run claims_startable h.within hr

/-! ### The counts -/

/-- A sum over the elements of a list, as a sum over their positions. -/
theorem sum_map_eq_sum_range {α : Type} {xs : List α} {f : α → ℕ} {g : ℕ → ℕ}
    (h : ∀ i x, xs[i]? = some x → f x = g i) :
    (xs.map f).sum = ∑ i ∈ Finset.range xs.length, g i := by
  induction xs using List.reverseRecOn with
  | nil => rfl
  | append_singleton xs x ih =>
    rw [List.map_append, List.sum_append, List.length_append, List.length_singleton,
      Finset.sum_range_succ, ih fun i y hy => h i y ?_]
    · simp [h xs.length x (by simp)]
    · have hlt : i < xs.length := (List.getElem?_eq_some_iff.mp hy).1
      rw [List.getElem?_append_left hlt, hy]

/-- A thread that has not ended, or ended with an exception, has created nothing. -/
theorem returned_eq_createdBy (h : ClaimingState σ) {i : ℕ} {th : Loc × P JobResult}
    (hth : σ.threads[i]? = some th) : returned th = createdBy i σ.shared := by
  obtain ⟨l, p⟩ := th
  have hs := h.safe i _ hth
  cases p with
  | ret r => exact hs.symm
  | raise e => exact hs.symm
  | call o k =>
    have howed := (hs σ.shared (claiming.refl _ _) h.inv {}).1
    exact (createdBy_of_pending howed.guar.pending).symm

theorem sum_returned (h : ClaimingState σ) :
    (σ.threads.map returned).sum = σ.shared.db.dagRuns.length := by
  rw [sum_map_eq_sum_range fun i th hth => returned_eq_createdBy h hth, h.inv.count]
  refine Store.sum_authored (fun c hc => ?_) _
  by_contra hlt
  have hnone := (h.fresh c.author (not_lt.mp hlt)).2
  have hm : c ∈ σ.shared.store.authored c.author := by simp [Store.authored, hc]
  rw [hnone] at hm
  cases hm

/-! ### The claims -/

/-- Every meta has at most one DagRun created for it, and its run id names exactly that one. -/
structure ClaimedOnce (s : Shared) : Prop where
  once : ∀ id runId runId', CreatedFor s id runId → CreatedFor s id runId' → runId = runId'
  claimed_iff : ∀ id row, s.db.dagMeta id = some row →
    (row.runId ≠ none ↔ ∃ runId run, CreatedFor s id runId ∧ s.db.dagRun runId = some run)
  named : ∀ id row runId, s.db.dagMeta id = some row → CreatedFor s id runId →
    row.runId = some (.run runId)

theorem Claimed.claimedOnce {s : Shared} (h : Claimed s) : ClaimedOnce s := by
  have hnamed : ∀ id row runId, s.db.dagMeta id = some row → CreatedFor s id runId →
      row.runId = some (.run runId) := by
    intro id row runId hrow hc
    obtain ⟨row', _, hrow', hrun, _⟩ := h.persisted id runId hc
    rwa [Option.some.inj (hrow.symm.trans hrow')]
  refine ⟨fun id runId runId' hc hc' => ?_, fun id row hrow => ⟨fun hne => ?_, ?_⟩, hnamed⟩
  · obtain ⟨row, _, hrow, hrun, _⟩ := h.persisted id runId hc
    have he := hrun.symm.trans (hnamed id row runId' hrow hc')
    simpa using he
  · obtain ⟨x, hx⟩ := Option.ne_none_iff_exists'.mp hne
    obtain ⟨runId, _, hc⟩ := h.named id row x hrow hx
    obtain ⟨_, run, _, _, hrun⟩ := h.persisted id runId hc
    exact ⟨runId, run, hc, hrun⟩
  · rintro ⟨runId, _, hc, _⟩
    rw [hnamed id row runId hrow hc]
    simp

/-- A meta with a run id keeps its row. -/
def KeepsClaims (db db' : Db) : Prop :=
  ∀ id row, db.dagMeta id = some row → row.runId ≠ none → db'.dagMeta id = some row

/-- The step lemma. -/
theorem KeepsClaims.act (h : ClaimingState σ) (ha : system.act σ a = some σ') :
    KeepsClaims σ.shared.db σ'.shared.db := by
  have hclaims : ∀ c, σ'.shared.store = σ.shared.store.append c →
      KeepsClaims σ.shared.db σ'.shared.db := by
    intro c hs
    cases a with
    | spawn e =>
      cases ha
      exact absurd hs (Store.ne_append _ _)
    | step i ch =>
      obtain ⟨l, o, k, _, _, howed, _⟩ := h.step ha
      obtain ⟨batched, hb, hrows⟩ := howed.guar.claims c hs
      intro id row hrow hne
      rw [Shared.db, hs, Store.current_append, hrows]
      exact hb.dagMeta_of_claimed hrow hne
  rcases act_store ha with hs | ⟨i, rows, _, hs⟩ | ⟨i, tx, _, hs⟩
  · rw [Shared.db, Shared.db, hs]
    exact fun id row hrow _ => hrow
  · exact hclaims _ hs
  · exact hclaims _ hs

/-- In every reachable state each meta was claimed at most once and the counts returned add up to
the DagRuns, and no later state changes a claimed meta. -/
theorem metas_claimed_once (h : Claiming σ₀ as) :
    system.Always (fun σ => ClaimedOnce σ.shared ∧
      (σ.threads.map returned).sum = σ.shared.db.dagRuns.length) σ₀ as ∧
    system.Throughout (fun σ σ' => KeepsClaims σ.shared.db σ'.shared.db) σ₀ as := by
  have hpre : ∀ {as₁ as₂}, as = as₁ ++ as₂ → Claiming σ₀ as₁ := by
    rintro as₁ as₂ rfl
    exact ⟨h.unclaimed, fun a ha => h.within a (List.mem_append_left as₂ ha)⟩
  constructor
  · intro as₁ as₂ σ₁ has h1
    have hs := (hpre has).sound h1
    exact ⟨hs.inv.claimedOnce, sum_returned hs⟩
  · rw [Machine.throughout_iff (fun σ id row hrow _ => hrow)
      (fun σ σ' σ'' hk hk' id row hrow hne => hk' id row (hk id row hrow hne) hne), Machine.along_iff]
    intro as₁ a as₂ has σ₁ h1 σ' ha
    exact .act ((hpre has).sound h1) ha

/-- Three metas of one DAG. -/
def threeMetas : State :=
  stateOf ⟨[.dagRef ⟨0, "", "", default⟩, .dagMeta ⟨1, 0, default, none⟩,
    .dagMeta ⟨2, 0, default, none⟩, .dagMeta ⟨3, 0, default, none⟩], by decide⟩ 4 []

theorem unclaimed_threeMetas : Unclaimed threeMetas where
  threads := rfl
  log := rfl
  opened _ := rfl
  metas := by decide +kernel
  dagRuns := by decide +kernel

/-- Two calls overlap in one meta; the second commit fails, and its call is retried. -/
def overlaps : List Step :=
  .spawn (.createDagRuns [some 1, some 2]) :: .spawn (.createDagRuns [some 2, some 3]) ::
    calls 0 6 ++ calls 1 6 ++ calls 0 3 ++ calls 1 3 ++
    .spawn (.createDagRuns [some 2, some 3]) :: calls 2 7

theorem metas_claimed_once_overlaps :
    system.Always (fun σ => ClaimedOnce σ.shared ∧
      (σ.threads.map returned).sum = σ.shared.db.dagRuns.length) threeMetas overlaps ∧
    system.Throughout (fun σ σ' => KeepsClaims σ.shared.db σ'.shared.db) threeMetas overlaps :=
  metas_claimed_once ⟨unclaimed_threeMetas, by decide +kernel⟩

end YtScheduler
