import YtScheduler.Threads.Rely
import YtScheduler.Services.Machine
import YtScheduler.Claiming.Batches

/-! The contract of the threads that call `_create_dag_runs_atomic`, each through its own
client, and why the call meets it. Until its one commit a claimer has committed nothing,
and the commit claims metas that had no run id when it took effect: a claim made since the
transaction began would have written the same row, so the commit would have failed. -/

namespace YtScheduler

open Tablet Threads

/-- The store grew and no uuid went out of use. -/
structure Later (s s' : Shared) : Prop where
  store : s.store.Extends s'.store
  uuids : s.uuids ≤ s'.uuids

namespace Later

variable {s s' s'' : Shared}

theorem refl (s : Shared) : Later s s := ⟨.refl _, le_refl _⟩

theorem trans (h : Later s s') (h' : Later s' s'') : Later s s'' :=
  ⟨h.store.trans h'.store, h.uuids.trans h'.uuids⟩

end Later

/-- What claimer `i` relies on between its calls. -/
structure ClaimRelies (i : ℕ) (s s' : Shared) : Prop where
  later : Later s s'
  opened : s'.opened (.thread i) = s.opened (.thread i)
  authored : s'.store.authored i = s.store.authored i

/-- A claimer makes no call after its commit, and the commit claims metas. -/
structure ClaimGuarantees (i : ℕ) (s s' : Shared) : Prop where
  later : Later s s'
  pending : s.store.authored i = []
  claims : ∀ c, s'.store = s.store.append c →
    ∃ batched, Claims s s.db batched ∧ c.rows = claimRows batched

def claiming : Contract Op Loc Shared where
  inv := Claimed
  grows := Later
  rely := ClaimRelies
  guar _ i _ s _ s' := ClaimGuarantees i s s'
  fresh i s := s.opened (.thread i) = [] ∧ s.store.authored i = []
  refl _ s := ⟨.refl s, rfl, rfl⟩
  trans _ _ _ _ h h' :=
    ⟨h.later.trans h'.later, h'.opened.trans h.opened, h'.authored.trans h.authored⟩
  fresh_rely _ _ _ h hf := ⟨h.opened.trans hf.1, h.authored.trans hf.2⟩
  grows_refl := Later.refl
  grows_trans _ _ _ := Later.trans
  rely_grows _ _ _ h := h.later
  guar_grows _ _ _ _ _ _ h := h.later

/-- Claimer `i` has committed nothing, and `txs` is what is open on its client. -/
structure Claimer (i : ℕ) (txs : List (ℕ × Tx Row)) (s : Shared) : Prop where
  claimed : Claimed s
  opened : s.opened (.thread i) = txs
  pending : s.store.authored i = []
  le_now : ∀ x ∈ txs, x.2.start ≤ s.store.now

section

variable {i : ℕ} {o : Op} {ts : ℕ} {w : List Row} {txs : List (ℕ × Tx Row)} {l l' : Loc}
  {s s' : Shared}

theorem Claimer.of_relies (h : Claimer i txs s) (hr : ClaimRelies i s s') (hc : Claimed s') :
    Claimer i txs s' :=
  ⟨hc, hr.opened.trans h.opened, hr.authored.trans h.pending,
    fun x hx => (h.le_now x hx).trans hr.later.store.now_le⟩

theorem Claimer.of_store (h : Claimer i txs s) {txs' : List (ℕ × Tx Row)}
    (hs : s'.store = s.store) (hu : s.uuids ≤ s'.uuids) (ho : s'.opened (.thread i) = txs')
    (hts : ∀ x ∈ txs', x.2.start ≤ s.store.now) : Claimer i txs' s' :=
  ⟨h.claimed.of_store hs hu, ho, hs ▸ h.pending, hs ▸ hts⟩

/-- A call that leaves the store alone and touches no client but the thread's own. -/
theorem owed_of_store (h : Claimer i txs s) (hs : s'.store = s.store) (hu : s.uuids ≤ s'.uuids)
    (ho : ∀ j, j ≠ i → s'.opened (.thread j) = s.opened (.thread j)) :
    Owed claiming i o l s l' s' where
  inv := h.claimed.of_store hs hu
  rely j hj := ⟨⟨hs ▸ .refl _, hu⟩, ho j hj, by rw [hs]⟩
  guar := ⟨⟨hs ▸ .refl _, hu⟩, h.pending, fun c hc => absurd (hs.symm.trans hc) (Store.ne_append _ c)⟩

/-- The commit of a batch that claims metas. -/
theorem owed_of_claims (h : Claimer i txs s) {batched : List (DagRunRow × DagMetaRow)} {c : Commit Row}
    (hcl : Claims s s.db batched) (hc : c.rows = claimRows batched) (hi : c.author = i)
    (hs : s'.store = s.store.append c) (hu : s'.uuids = s.uuids)
    (ho : ∀ j, j ≠ i → s'.opened (.thread j) = s.opened (.thread j)) :
    Owed claiming i o l s l' s' where
  inv := (hcl.claimed h.claimed hc).of_store hs hu.ge
  rely j hj :=
    ⟨⟨hs ▸ .append _ _, hu.ge⟩, ho j hj, by rw [hs, Store.authored_append, if_neg (hi ▸ hj.symm)]⟩
  guar := by
    refine ⟨⟨hs ▸ .append _ _, hu.ge⟩, h.pending, fun c' hc' => ⟨batched, hcl, ?_⟩⟩
    rw [← Store.append_inj (hs.symm.trans hc'), hc]

end

abbrev ClaimSpec {α : Type} (i : ℕ) (p : P α) (Q : Post Exn α Loc Shared) (l : Loc) (s : Shared) :
    Prop := Safe system claiming i p Q l s

/-- The transaction stays open; `Q` holds of a result. -/
abbrev Held {α : Type} (i ts : ℕ) (Q : α → List Row → Shared → Prop) : Post Exn α Loc Shared :=
  Safe.Keeps (fun w _ s => Claimer i [(i, ⟨ts, w⟩)] s) fun a w _ s => Q a w s

namespace ClaimSpec

variable {α β : Type} {i ts : ℕ} {w : List Row} {l : Loc} {s : Shared} {p : P α}
  {Q : α → List Row → Shared → Prop} {R : β → List Row → Shared → Prop}

theorem ret {a : α} (hs : Claimer i [(i, ⟨ts, w⟩)] s) (hQ : Q a w s) :
    ClaimSpec i (.ret a) (Held i ts Q) l s := ⟨w, hs, hQ⟩

theorem bind {f : α → P β} (hp : ClaimSpec i p (Held i ts Q) l s)
    (hf : ∀ a w l' s', Claimer i [(i, ⟨ts, w⟩)] s' → Q a w s' → Later s s' →
      ClaimSpec i (f a) (Held i ts R) l' s') : ClaimSpec i (p.bind f) (Held i ts R) l s :=
  Safe.keeps_bind hp hf

/-- A call that leaves the store and the transaction alone. -/
theorem quiet {o : Op} {Q : o.Ret → Shared → Prop} (h : Claimer i [(i, ⟨ts, w⟩)] s)
    (ho : ∀ ch l s, (o.exec i ch l s).2.2.store = s.store ∧ s.uuids ≤ (o.exec i ch l s).2.2.uuids ∧
      (o.exec i ch l s).2.2.opened = s.opened)
    (hQ : ∀ s₁, Claimer i [(i, ⟨ts, w⟩)] s₁ → Later s s₁ → ∀ ch l r, (o.exec i ch l s₁).1 = .ok r →
      Q r (o.exec i ch l s₁).2.2) :
    ClaimSpec i (P.call o) (Held i ts fun r w' s' => w' = w ∧ Q r s') l s := by
  refine Safe.op fun s₁ hr hc ch => ?_
  have hs₁ := h.of_relies hr hc
  obtain ⟨hstore, huuids, hopened⟩ := ho ch l s₁
  have hs₂ := hs₁.of_store hstore huuids ((congrFun hopened _).trans hs₁.opened) hs₁.le_now
  refine ⟨owed_of_store hs₁ hstore huuids fun j _ => congrFun hopened _, ?_⟩
  have hq := hQ s₁ hs₁ hr.later ch l
  revert hq
  show (∀ r, (o.exec i ch l s₁).1 = .ok r → Q r (o.exec i ch l s₁).2.2) →
    Held i ts _ (o.exec i ch l s₁).1 _ (o.exec i ch l s₁).2.2
  cases (o.exec i ch l s₁).1 with
  | ok r => exact fun hq => ⟨w, hs₂, rfl, hq r rfl⟩
  | error e => exact fun _ => ⟨w, hs₂⟩

/-- An insert adds to the open transaction. -/
theorem insert {rows : List Row} (h : Claimer i [(i, ⟨ts, w⟩)] s) :
    ClaimSpec i (P.upsertRows rows none) (Held i ts fun _ w' _ => w' = w ++ rows) l s := by
  refine Safe.op fun s₁ hr hc ch => ?_
  have hs₁ := h.of_relies hr hc
  show Owed claiming i _ l s₁ (Op.exec _ i ch l s₁).2.1 (Op.exec _ i ch l s₁).2.2 ∧ _
  cases hf : ch.fail with
  | some e =>
    simp only [system, Op.exec, hf]
    exact ⟨owed_of_store hs₁ rfl (le_refl _) fun _ _ => rfl, w, hs₁⟩
  | none =>
    simp only [system, Op.exec, hf, Op.resolve, Option.getD_none, Shared.insert, hs₁.opened]
    refine ⟨owed_of_store hs₁ rfl (le_refl _) fun j hj => by simp [hj], w ++ rows, ?_, rfl⟩
    exact hs₁.of_store rfl (le_refl _) (by simp) (by simpa using hs₁.le_now)

end ClaimSpec

/-! ### The call -/

section Call

variable {i ts : ℕ} {w : List Row} {l : Loc} {s s' : Shared} {metas : List (Option Uuid)}
  {rows : List (DagRefRow × DagMetaRow)} {batched : List (DagRunRow × DagMetaRow)}

/-- The selected metas have no run id, and none is selected twice. -/
structure Needing (db : Db) (rows : List (DagRefRow × DagMetaRow)) : Prop where
  unclaimed : ∀ p ∈ rows, ∃ row, db.dagMeta p.2.id = some row ∧ row.runId = none
  metas : (rows.map (·.2.id)).Nodup

theorem needing_dagsNeedingDagrunsOfMetas (metas : List (Option Uuid)) (db : Db) :
    Needing db (dagsNeedingDagrunsOfMetas metas db) where
  unclaimed p hp := by
    obtain ⟨_, row, hrow, _, _, hnone, hp⟩ := mem_dagsNeedingDagrunsOfMetas.mp hp
    rw [hp]
    exact ⟨row, hrow, hnone⟩
  metas := nodup_dagsNeedingDagrunsOfMetas metas db

theorem select_needing (h : Claimer i [(i, ⟨ts, w⟩)] s) :
    ClaimSpec i (Scheduler.dagsNeedingDagrunsOfMetas metas none)
      (Held i ts fun rows w' s' => w' = w ∧ Needing (s'.store.asOf ts) rows) l s := by
  unfold Scheduler.dagsNeedingDagrunsOfMetas
  split
  · exact .ret h ⟨rfl, by simp, by simp⟩
  · refine .quiet h (fun ch l s => ?_) fun s₁ hs₁ _ ch l r hr => ?_
    · simp only [Op.exec]
      repeat' split
      all_goals exact ⟨rfl, le_refl _, rfl⟩
    · have hsnap : s₁.snapshot (.thread i) = ts := by simp [Shared.snapshot, hs₁.opened]
      revert hr
      simp only [Op.exec]
      repeat' split
      all_goals intro hr; cases hr
      rw [Op.resolve, Option.getD_none, hsnap]
      exact needing_dagsNeedingDagrunsOfMetas _ _

/-- The batch built for the selected metas, with run ids from `u` on. -/
structure Built (rows : List (DagRefRow × DagMetaRow)) (u ts : ℕ) (s : Shared)
    (batched : List (DagRunRow × DagMetaRow)) : Prop where
  ids : batched.map (·.2.id) = rows.map (·.2.id)
  named : ∀ b ∈ batched, b.2.runId = some (.run b.1.runId)
  unused : ∀ b ∈ batched, Db.dagRun (s.store.asOf ts) b.1.runId = none ∧ u ≤ b.1.runId ∧
    b.1.runId < s.uuids
  runs : (batched.map (·.1.runId)).Nodup

theorem Built.claims (hb : Built rows u ts s batched) (hn : Needing (s.store.asOf ts) rows) :
    Claims s (s.store.asOf ts) batched where
  unclaimed b hm := by
    have hid : b.2.id ∈ rows.map (·.2.id) := hb.ids ▸ List.mem_map_of_mem hm
    obtain ⟨p, hp, he⟩ := List.mem_map.mp hid
    rw [← he]
    exact hn.unclaimed p hp
  named := hb.named
  unused b hm := ⟨(hb.unused b hm).1, (hb.unused b hm).2.2⟩
  metas := hb.ids ▸ hn.metas
  runs := hb.runs

theorem generateUuid_unused (h : Claimer i [(i, ⟨ts, w⟩)] s) :
    ClaimSpec i (P.call .generateUuid) (Held i ts fun runId w' s' => w' = w ∧
      Db.dagRun (s'.store.asOf ts) runId = none ∧ s.uuids ≤ runId ∧ runId < s'.uuids) l s := by
  refine .quiet (o := .generateUuid) (Q := fun runId s' => Db.dagRun (s'.store.asOf ts) runId = none ∧
    s.uuids ≤ runId ∧ runId < s'.uuids) h (fun _ _ _ => ⟨rfl, Nat.le_succ _, rfl⟩)
    fun s₁ hs₁ hl ch l r hr => ?_
  cases hr
  refine ⟨Option.eq_none_iff_forall_ne_some.mpr fun run hrun => ?_, hl.uuids, Nat.lt_succ_self _⟩
  exact absurd (hs₁.claimed.runs_lt ts _ run hrun) (lt_irrefl _)

theorem nowUtc_quiet (h : Claimer i [(i, ⟨ts, w⟩)] s) :
    ClaimSpec i P.nowUtc (Held i ts fun _ w' _ => w' = w) l s := by
  have hnow : ClaimSpec i (P.call .now) (Held i ts fun _ w' _ => w' = w ∧ True) l s :=
    .quiet h (fun _ _ _ => ⟨rfl, le_refl _, rfl⟩) fun _ _ _ _ _ _ _ => trivial
  exact .bind hnow fun _ _ _ _ hs hw _ => .ret hs hw.1

theorem claimMetas_built (h : Claimer i [(i, ⟨ts, w⟩)] s) :
    ClaimSpec i (Scheduler.claimMetas rows)
      (Held i ts fun batched w' s' => w' = w ∧ Built rows s.uuids ts s' batched) l s := by
  induction rows generalizing l s with
  | nil => exact .ret h ⟨rfl, rfl, by simp, by simp, by simp⟩
  | cons p rows ih =>
    refine .bind (generateUuid_unused h) fun runId w₁ l₁ s₁ hs₁ ⟨hw₁, hnone, hle, hlt⟩ hl₁ => ?_
    subst hw₁
    refine .bind (nowUtc_quiet hs₁) fun now w₂ l₂ s₂ hs₂ hw₂ hl₂ => ?_
    subst hw₂
    refine .bind (ih hs₂) fun rest w₃ l₃ s₃ hs₃ ⟨hw₃, hrest⟩ hl₃ => ?_
    subst hw₃
    have hts : ts ≤ s₁.store.now := hs₁.le_now _ List.mem_cons_self
    have hlater := hl₂.trans hl₃
    refine .ret hs₃ ⟨rfl, ?_, ?_, ?_, ?_⟩
    · simp [hrest.ids]
    · exact List.forall_mem_cons.mpr ⟨rfl, hrest.named⟩
    · refine List.forall_mem_cons.mpr ⟨⟨?_, hle, hlt.trans_le hlater.uuids⟩, fun b hb => ?_⟩
      · rw [hlater.store.asOf_eq hts]
        exact hnone
      · obtain ⟨hn, hge, hb'⟩ := hrest.unused b hb
        exact ⟨hn, (hl₁.trans hl₂).uuids.trans hge, hb'⟩
    · refine List.nodup_cons.mpr ⟨fun hm => ?_, hrest.runs⟩
      obtain ⟨b, hb, he⟩ := List.mem_map.mp hm
      have hge : s₂.uuids ≤ runId := (hrest.unused b hb).2.1.trans_eq he
      exact absurd (hlt.trans_le hl₂.uuids) (not_lt.mpr hge)

/-- The number of DagRuns that thread `i` created. -/
def createdBy (i : ℕ) (s : Shared) : ℕ := ((s.store.authored i).map fun c => created c.rows).sum

/-- The count that a call returns. -/
def Counted (i : ℕ) : Post Exn ℕ Loc Shared
  | .ok n, _, s => createdBy i s = n
  | .error _, _, s => createdBy i s = 0

theorem createdBy_of_pending (h : s.store.authored i = []) : createdBy i s = 0 := by
  simp [createdBy, h]

theorem abort_counted (h : Claimer i [(i, ⟨ts, w⟩)] s) (e : Exn) :
    ClaimSpec i ((P.call (.abortTx none)).bind fun _ => Prog.raise e : P ℕ) (Counted i) l s := by
  refine Safe.bind (Safe.op fun s₁ hr hc ch => ?_)
  have hs₁ := h.of_relies hr hc
  exact ⟨owed_of_store hs₁ rfl (le_refl _) fun _ => Shared.endTx_other, createdBy_of_pending hs₁.pending⟩

theorem commit_counted (h : Claimer i [(i, ⟨ts, claimRows batched⟩)] s)
    (hb : Claims s (s.store.asOf ts) batched) :
    ClaimSpec i ((P.call (.commitTx none)).bind fun _ => Prog.ret batched.length : P ℕ) (Counted i)
      l s := by
  refine Safe.bind (Safe.op fun s₁ hr hc ch => ?_)
  have hs₁ := h.of_relies hr hc
  have htx := Shared.tx?_of_opened hs₁.opened
  have hother : ∀ j, j ≠ i →
      (s₁.endTx i (.thread i)).opened (.thread j) = s₁.opened (.thread j) := fun _ => Shared.endTx_other
  have hquiet : ∀ l₁, Owed claiming i (.commitTx none) l s₁ l₁ (s₁.endTx i (.thread i)) :=
    fun l₁ => owed_of_store hs₁ rfl (le_refl _) hother
  have hnone : createdBy i (s₁.endTx i (.thread i)) = 0 := createdBy_of_pending hs₁.pending
  show Owed claiming i _ l s₁ (Op.exec _ i ch l s₁).2.1 (Op.exec _ i ch l s₁).2.2 ∧ _
  cases hf : ch.fail with
  | some e =>
    simp only [system, Op.exec, Op.resolve, Option.getD_none, htx, hf]
    exact ⟨hquiet _, hnone⟩
  | none =>
    by_cases hw : claimRows batched = []
    · simp only [system, Op.exec, Op.resolve, Option.getD_none, htx, hf, if_pos hw]
      have hzero : batched.length = 0 := by
        rw [← created_claimRows, hw]
        rfl
      exact ⟨hquiet _, hnone.trans hzero.symm⟩
    · by_cases hconf : s₁.store.Conflict ts (claimRows batched)
      · simp only [system, Op.exec, Op.resolve, Option.getD_none, htx, hf, if_neg hw, if_pos hconf]
        exact ⟨hquiet _, hnone⟩
      · simp only [system, Op.exec, Op.resolve, Option.getD_none, htx, hf, if_neg hw, if_neg hconf]
        have hts : ts ≤ s.store.now := h.le_now _ List.mem_cons_self
        have hb₁ : Claims s₁ (s₁.store.asOf ts) batched := by
          rw [hr.later.store.asOf_eq hts]
          exact hb.of_later hr.later.uuids
        refine ⟨owed_of_claims hs₁ (hb₁.current hconf) rfl rfl rfl rfl hother, ?_⟩
        show createdBy i ((s₁.endTx i (.thread i)).commit _) = batched.length
        simp [createdBy, Shared.commit, Shared.endTx, Store.authored_append, hs₁.pending]

/-- The statements of the block. -/
theorem body_claims (h : Claimer i [(i, ⟨ts, []⟩)] s) :
    ClaimSpec i
      (do
        let rows ← Scheduler.dagsNeedingDagrunsOfMetas metas none
        let batched ← Scheduler.claimMetas rows
        P.unlessEmpty batched do
          P.upsertRows (batched.map fun b => .dagRun b.1) none
          P.upsertRows (batched.map fun b => .dagMeta b.2) none
        pure batched.length)
      (Held i ts fun n w' s' => ∃ batched, w' = claimRows batched ∧ n = batched.length ∧
        Claims s' (s'.store.asOf ts) batched) l s := by
  refine .bind (select_needing h) fun rows w₁ l₁ s₁ hs₁ ⟨hw₁, hn⟩ hl₁ => ?_
  subst hw₁
  have hts : ts ≤ s₁.store.now := hs₁.le_now _ List.mem_cons_self
  refine .bind (claimMetas_built hs₁) fun batched w₂ l₂ s₂ hs₂ ⟨hw₂, hb⟩ hl₂ => ?_
  subst hw₂
  rw [← hl₂.store.asOf_eq hts] at hn
  have hcl : ∀ {s₃}, Later s₂ s₃ → Claims s₃ (s₃.store.asOf ts) batched := by
    intro s₃ hl
    rw [hl.store.asOf_eq (hs₂.le_now _ List.mem_cons_self)]
    exact (hb.claims hn).of_later hl.uuids
  unfold P.unlessEmpty
  split
  · rename_i hempty
    obtain rfl := List.isEmpty_iff.mp hempty
    exact .ret hs₂ ⟨[], rfl, rfl, hcl (.refl _)⟩
  · refine .bind (Q := fun _ w' _ => w' = claimRows batched) (.bind (.insert hs₂)
      fun _ w₃ l₃ s₃ hs₃ hw₃ _ => ?_) fun _ w₄ l₄ s₄ hs₄ hw₄ hl₄ => ?_
    · subst hw₃
      exact .insert hs₃
    · subst hw₄
      exact .ret hs₄ ⟨batched, rfl, rfl, hcl hl₄⟩

/-- `_create_dag_runs_atomic` meets the contract and returns the number of DagRuns it created. -/
theorem createDagRunsAtomic_counted (h : Claimer i [] s) :
    ClaimSpec i (Scheduler.createDagRunsAtomic metas none) (Counted i) l s := by
  refine Safe.bind (Safe.op fun s₁ hr hc ch => ?_)
  have hs₁ := h.of_relies hr hc
  show Owed claiming i _ l s₁ (Op.exec _ i ch l s₁).2.1 (Op.exec _ i ch l s₁).2.2 ∧ _
  cases hf : ch.fail with
  | some e =>
    simp only [system, Op.exec, hf]
    exact ⟨owed_of_store hs₁ rfl (le_refl _) fun _ _ => rfl, createdBy_of_pending hs₁.pending⟩
  | none =>
    simp only [system, Op.exec, hf, Op.resolve, Option.getD_none]
    have hs₂ : Claimer i [(i, ⟨s₁.store.now, []⟩)] (s₁.beginTx i (.thread i)) :=
      hs₁.of_store rfl (le_refl _) (by simp [Shared.beginTx, hs₁.opened]) (by simp)
    refine ⟨owed_of_store hs₁ rfl (le_refl _) fun j hj => by simp [Shared.beginTx, hj], ?_⟩
    refine Safe.bind (Safe.attempt (Safe.mono (body_claims hs₂) fun r l₂ s₂ hr => ?_))
    cases r with
    | ok n =>
      obtain ⟨w, hs, batched, rfl, rfl, hb⟩ := hr
      exact commit_counted hs hb
    | error e =>
      obtain ⟨w, hs⟩ := hr
      exact abort_counted hs e

end Call

end YtScheduler
