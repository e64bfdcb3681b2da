import YtScheduler.Claiming.Marking

/-! The threads of claiming meet the contract: schedulers that only make claiming passes,
pool workers, and direct calls of `_create_dag_runs_atomic`. -/

namespace YtScheduler

open Tablet Threads

variable {α : Type} {i tid svc q : ℕ} {b : Bool} {l : Loc} {s : Shared}

namespace MarkSpec

/-! ### Single operations -/

/-- A call that leaves the store, the transactions and the memory alone. -/
theorem quiet {o : Op} {Q : o.Ret → Loc → Shared → Prop} (h : Between i b s)
    (ho : ∀ ch l s, (o.exec i ch l s).2.2.store = s.store ∧
      (o.exec i ch l s).2.2.opened = s.opened ∧ (o.exec i ch l s).2.2.mem = s.mem)
    (hQ : ∀ s₁ ch r, Between i b s₁ → MarkGrows s s₁ → (o.exec i ch l s₁).1 = .ok r →
      Q r (o.exec i ch l s₁).2.1 (o.exec i ch l s₁).2.2) :
    MarkSpec i (P.call o) (Stands i b Q) l s := by
  refine Safe.op fun s₁ hr hc ch => ?_
  have hs₁ := h.of_relies hr hc
  obtain ⟨hst, hop, hmem⟩ := ho ch l s₁
  obtain ⟨howed, hs₂⟩ := owed_of_same (o := o) (l := l) (k := (o.exec i ch l s₁).2.1) hs₁ hst hop hmem
  refine ⟨howed, ?_⟩
  have hq := fun r => hQ s₁ ch r hs₁ (marking.rely_grows _ _ _ hr)
  revert hq
  show (∀ r, (o.exec i ch l s₁).1 = .ok r → _) → Stands i b Q (o.exec i ch l s₁).1 _ _
  cases (o.exec i ch l s₁).1 with
  | ok r => exact fun hq => ⟨_, ⟨rfl, hs₂⟩, hq r rfl⟩
  | error e => exact fun _ => ⟨_, rfl, hs₂⟩

theorem mem {o : MemOp} {Q : o.Ret → Loc → Shared → Prop} (h : Between i b s)
    (ho : ∀ s₁, Between i b s₁ → Leaves i s.mem s₁.mem → o.ClaimOk i b s₁)
    (hQ : ∀ s₁ p r, Between i b s₁ → Leaves i s.mem s₁.mem → (s₁.mem.exec i p o).1 = .ok r →
      Q r l { s₁ with mem := (s₁.mem.exec i p o).2 }) :
    MarkSpec i (P.mem o) (Stands i b Q) l s := by
  refine Safe.op fun s₁ hr hc ch => ?_
  have hs₁ := h.of_relies hr hc
  obtain ⟨howed, hs₂⟩ := owed_of_mem (l := l) hs₁ (ho s₁ hs₁ hr.mem) ch.pick
  refine ⟨howed, ?_⟩
  have hq := fun r => hQ s₁ ch.pick r hs₁ hr.mem
  revert hq
  show (∀ r, (s₁.mem.exec i ch.pick o).1 = .ok r → _) → Stands i b Q (s₁.mem.exec i ch.pick o).1 _ _
  cases (s₁.mem.exec i ch.pick o).1 with
  | ok r => exact fun hq => ⟨_, ⟨rfl, hs₂⟩, hq r rfl⟩
  | error e => exact fun _ => ⟨_, rfl, hs₂⟩

/-- An access that nothing is said of. -/
theorem access {o : MemOp} (h : Between i b s) (ho : ∀ s₁, o.ClaimOk i b s₁) :
    MarkSpec i (P.mem o) (Stays i b) l s :=
  mem h (fun s₁ _ _ => ho s₁) fun _ _ _ _ _ _ => trivial

/-- A call that fails changes nothing. -/
theorem owed_of_failed {β : Type} {o : Op} {e : Exn} {Q : β → Loc → Shared → Prop} (h : Between i b s) :
    Owed marking i o l s l s ∧ Stands i b Q (.error e) l s := by
  obtain ⟨howed, hs⟩ := owed_of_same (o := o) (l := l) (k := l) h rfl rfl rfl
  exact ⟨howed, l, rfl, hs⟩

/-- An insert that holds no mark. -/
theorem insert {rows : List Row} (h : Between i b s) (hrows : MarkFree rows) :
    MarkSpec i (P.upsertRows rows none) (Stays i b) l s := by
  refine Safe.op fun s₁ hr hc ch => ?_
  have hs₁ := h.of_relies hr hc
  show Owed marking i _ l s₁ (Op.exec _ i ch l s₁).2.1 (Op.exec _ i ch l s₁).2.2 ∧ _
  cases hf : ch.fail with
  | some e =>
    simp only [system, Op.exec, hf]
    exact owed_of_failed hs₁
  | none =>
    simp only [system, Op.exec, hf, Op.resolve, Option.getD_none, Shared.insert]
    split
    · rename_i hop
      obtain ⟨howed, hs₂⟩ := owed_of_opened (l := l) (k := l) (o := .insert none rows) hs₁
        (t := s₁.commit ⟨i, false, s₁.store.now, rows⟩) rfl (.append _ _)
        (fun c hc => Or.inl (Store.append_inj hc ▸ hrows)) hs₁.ok.writes (fun _ => rfl)
        fun _ _ _ => rfl
      exact ⟨howed, l, ⟨rfl, hs₂⟩, trivial⟩
    · rename_i j tx txs hop
      have hb : b = false := by
        cases b with
        | false => rfl
        | true =>
          rw [(hs₁.apart rfl).1] at hop
          cases hop
      have htxs := hs₁.ok.writes (.thread i)
      rw [hop, List.forall_mem_cons] at htxs
      have hfree : MarkFree (tx.writes ++ rows) := fun row hm =>
        (List.mem_append.mp hm).elim (htxs.1 row) (hrows row)
      let txs' := (j, (⟨tx.start, tx.writes ++ rows⟩ : Tx Row)) :: txs
      obtain ⟨howed, hs₂⟩ := owed_of_reach (l := l) (k := l) (o := .insert none rows) hs₁
        (t := { s₁ with opened := Function.update s₁.opened (.thread i) txs' }) txs'
        (Or.inl ⟨hb, rfl⟩) (.refl _) (fun c hc => absurd hc (Store.ne_append _ c))
        (List.forall_mem_cons.mpr ⟨hfree, htxs.2⟩) rfl rfl
      exact ⟨howed, l, ⟨rfl, hs₂⟩, trivial⟩

/-- A scheduler inserts marks for metas that had no run id when it read last. -/
theorem insertMarks {rows : List Row} {ts : ℕ} (h : Between i true s) (hts : l.reads.head? = some ts)
    (hle : ts ≤ s.store.now) (hrows : MarksUnclaimed (s.store.asOf ts) rows) :
    MarkSpec i (P.upsertRows rows none) (Stays i true) l s := by
  refine Safe.op fun s₁ hr hc ch => ?_
  have hs₁ := h.of_relies hr hc
  show Owed marking i _ l s₁ (Op.exec _ i ch l s₁).2.1 (Op.exec _ i ch l s₁).2.2 ∧ _
  cases hf : ch.fail with
  | some e =>
    simp only [system, Op.exec, hf]
    exact owed_of_failed hs₁
  | none =>
    simp only [system, Op.exec, hf, Op.resolve, Option.getD_none, Shared.insert, (hs₁.apart rfl).1]
    have hcom : ∀ c, (s₁.commit ⟨i, false, s₁.store.now, rows⟩).store = s₁.store.append c →
        MarkFree c.rows ∨ ∃ ts, Op.insert none rows = .insert none c.rows ∧
          l.reads.head? = some ts ∧ ts ≤ s₁.store.now ∧ MarksUnclaimed (s₁.store.asOf ts) c.rows := by
      intro c hc
      rw [← Store.append_inj hc]
      exact Or.inr ⟨ts, rfl, hts, hle.trans hr.store.now_le, hr.store.asOf_eq hle ▸ hrows⟩
    obtain ⟨howed, hs₂⟩ := owed_of_opened (l := l) (k := l) (o := .insert none rows) hs₁
      (t := s₁.commit ⟨i, false, s₁.store.now, rows⟩) rfl (.append _ _) hcom
      hs₁.ok.writes (fun _ => rfl) fun _ _ _ => rfl
    exact ⟨howed, l, ⟨rfl, hs₂⟩, trivial⟩

/-- A call that opens transactions on a client in reach. -/
theorem beginTx {c : Option Client} (h : Between i b s)
    (hc : ∀ s₁, MarkGrows s s₁ → Reach i b s₁ (Op.resolve c i)) :
    MarkSpec i (P.call (.beginTx c)) (Stays i b) l s := by
  refine Safe.op fun s₁ hr hcl ch => ?_
  have hs₁ := h.of_relies hr hcl
  have hg := marking.rely_grows _ _ _ hr
  show Owed marking i _ l s₁ (Op.exec _ i ch l s₁).2.1 (Op.exec _ i ch l s₁).2.2 ∧ _
  cases hf : ch.fail with
  | some e =>
    simp only [system, Op.exec, hf]
    exact owed_of_failed hs₁
  | none =>
    simp only [system, Op.exec, hf]
    obtain ⟨howed, hs₂⟩ := owed_of_reach (l := l) (k := l) (o := .beginTx c) hs₁
      (t := s₁.beginTx i (Op.resolve c i)) _ (hc s₁ hg) (.refl _)
      (fun k hk => absurd hk (Store.ne_append _ k))
      (List.forall_mem_cons.mpr ⟨by simp [MarkFree], hs₁.ok.writes (Op.resolve c i)⟩) rfl rfl
    exact ⟨howed, l, ⟨rfl, hs₂⟩, trivial⟩

/-- What stays open on a client when the thread's own transaction is closed holds no mark. -/
theorem markFree_endTx (h : Between i b s) (c : Client) :
    ∀ x ∈ (s.opened c).eraseP (fun x => decide (x.1 = i)), MarkFree x.2.writes :=
  fun x hx => h.ok.writes _ x (List.mem_of_mem_eraseP hx)

/-- A call that closes a transaction and writes nothing. -/
theorem owed_of_endTx {o : Op} {c : Client} (h : Between i b s) (hc : Reach i b s c) :
    Owed marking i o l s l (s.endTx i c) ∧ Between i b (s.endTx i c) :=
  owed_of_reach h _ hc (.refl _) (fun k hk => absurd hk (Store.ne_append _ k)) (markFree_endTx h c)
    rfl rfl

theorem abortTx {c : Option Client} (h : Between i b s)
    (hc : ∀ s₁, MarkGrows s s₁ → Reach i b s₁ (Op.resolve c i)) :
    MarkSpec i (P.call (.abortTx c)) (Stays i b) l s := by
  refine Safe.op fun s₁ hr hcl ch => ?_
  obtain ⟨howed, hs₂⟩ := owed_of_endTx (o := .abortTx c) (l := l) (h.of_relies hr hcl)
    (hc s₁ (marking.rely_grows _ _ _ hr))
  exact ⟨howed, l, ⟨rfl, hs₂⟩, trivial⟩

/-- What a commit appends was open before, so it holds no mark. -/
theorem commitTx {c : Option Client} (h : Between i b s)
    (hc : ∀ s₁, MarkGrows s s₁ → Reach i b s₁ (Op.resolve c i)) :
    MarkSpec i (P.call (.commitTx c)) (Stays i b) l s := by
  refine Safe.op fun s₁ hr hcl ch => ?_
  have hs₁ := h.of_relies hr hcl
  have hreach := hc s₁ (marking.rely_grows _ _ _ hr)
  obtain ⟨howed, hs₂⟩ := owed_of_endTx (o := .commitTx c) (l := l) hs₁ hreach
  show Owed marking i _ l s₁ (Op.exec _ i ch l s₁).2.1 (Op.exec _ i ch l s₁).2.2 ∧ _
  cases htx : s₁.tx? i (Op.resolve c i) with
  | none =>
    simp only [system, Op.exec, htx]
    exact owed_of_failed hs₁
  | some tx =>
    cases hf : ch.fail with
    | some e =>
      simp only [system, Op.exec, htx, hf]
      exact ⟨howed, l, rfl, hs₂⟩
    | none =>
      simp only [system, Op.exec, htx, hf]
      split_ifs with hw hconf
      · exact ⟨howed, l, ⟨rfl, hs₂⟩, trivial⟩
      · exact ⟨howed, l, rfl, hs₂⟩
      · obtain ⟨x, hx, rfl⟩ := Option.map_eq_some_iff.mp htx
        have hfree := hs₁.ok.writes _ x (List.mem_of_find?_eq_some hx)
        obtain ⟨howed, hs₂⟩ := owed_of_reach (l := l) (k := l) (o := .commitTx c) hs₁
          (t := (s₁.endTx i (Op.resolve c i)).commit ⟨i, true, x.2.start, x.2.writes⟩) _ hreach
          (.append _ _) (fun k hk => Store.append_inj hk ▸ hfree) (markFree_endTx hs₁ _) rfl rfl
        exact ⟨howed, l, ⟨rfl, hs₂⟩, trivial⟩

/-- The rule for a transaction on a client that is in reach. -/
theorem transaction {c : Option Client} {body : P α} (h : Between i b s)
    (hc : ∀ s₁, MarkGrows s s₁ → Reach i b s₁ (Op.resolve c i))
    (hbody : ∀ l' s', Between i b s' → MarkGrows s s' → MarkSpec i body (Stays i b) l' s') :
    MarkSpec i (P.transaction c body) (Stays i b) l s := by
  refine bind (beginTx h hc) fun _ l₁ s₁ hs₁ _ hg₁ => ?_
  refine bind (attempt (hbody l₁ s₁ hs₁ hg₁)) fun r l₂ s₂ hs₂ _ hg₂ => ?_
  have hc₂ : ∀ s₃, MarkGrows s₂ s₃ → Reach i b s₃ (Op.resolve c i) :=
    fun s₃ hg₃ => hc s₃ ((hg₁.trans hg₂).trans hg₃)
  cases r with
  | ok a => exact bind (commitTx hs₂ hc₂) fun _ _ _ hs₃ _ _ => ret hs₃ trivial
  | error e => exact bind (abortTx hs₂ hc₂) fun _ _ _ hs₃ _ _ => raise hs₃

/-! ### Pool and callbacks -/

/-- The promise of entry `q` is the thread's, and has no callback yet. -/
def Mine (i q : ℕ) (m : Mem) : Prop :=
  ∃ e : Queueable, m.queueables[q]? = some e ∧ e.owner = i ∧ e.callback = none

theorem Mine.of_leaves {m m' : Mem} (h : Mine i q m) (hl : Leaves i m m') : Mine i q m' := by
  obtain ⟨e, he, ho, hc⟩ := h
  obtain ⟨e', he', hc'⟩ := hl.own q e he ho
  obtain ⟨e₁, he₁, ho₁, _⟩ := hl.entries q e he
  obtain rfl := Option.some.inj (he'.symm.trans he₁)
  exact ⟨e', he', ho₁.trans ho, hc'.trans hc⟩

theorem submit {j : Job} (h : Between i b s) (hj : ClaimJob j) :
    MarkSpec i (Pool.submit j) (Stands i b fun q _ s' => Mine i q s'.mem) l s := by
  refine mem (o := .submit j) h (fun _ _ _ => hj) fun s₁ p r _ _ hr => ?_
  simp only [Mem.exec, Except.ok.injEq] at hr
  subst hr
  exact ⟨{ owner := i, fn := j }, by simp [Mem.exec], rfl, rfl⟩

theorem onComplete {cb : Callback} (h : Between i b s) (hq : Mine i q s.mem)
    (hcb : (∃ q', cb = .claimed q') ∨ b = false ∧ ∃ q', cb = .setInvalid q' (.thread i)) :
    MarkSpec i (Pool.onComplete q svc cb) (Stays i b) l s := by
  have hset : MarkSpec i (P.mem (.setCallback q svc cb)) (Stays i b) l s := by
    refine mem h (fun s₁ _ hl => ⟨fun e he => ?_, hcb⟩) fun _ _ _ _ _ _ => trivial
    obtain ⟨e', he', ho⟩ := hq.of_leaves hl
    rwa [Option.some.inj (he.symm.trans he')]
  exact bind hset fun _ _ _ hs₁ _ _ => access hs₁ fun _ => trivial

theorem takeCallback (h : Between i b s) :
    MarkSpec i (P.mem (.takeCallback svc)) (Stands i b fun res _ s' => ∀ cb, res = some cb →
      ClaimCallback s' cb) l s := by
  refine mem (o := .takeCallback svc) h (fun _ _ _ => trivial) fun s₁ p r hs₁ _ hr cb hcb => ?_
  subst hcb
  simp only [Mem.exec, Except.ok.injEq] at hr
  obtain ⟨service, hsvc, hm⟩ := Option.bind_eq_some_iff.mp hr
  have hret : Retains s₁.mem (s₁.mem.exec i p (.takeCallback svc)).2 :=
    MemOp.Handles.retains (o := .takeCallback svc) trivial p
  exact (hs₁.ok.callbacks service (List.mem_of_getElem? hsvc) cb (List.mem_of_head? hm)).mono hret

theorem takeJob (h : Between i b s) :
    MarkSpec i (P.mem .takeJob) (Stands i b fun res _ _ => ∀ q fn, res = some (q, fn) →
      ClaimJob fn) l s := by
  refine mem (o := .takeJob) h (fun _ _ _ => trivial) fun s₁ p r hs₁ _ hr q fn hres => ?_
  subst hres
  simp only [Mem.exec] at hr
  split at hr
  · split at hr
    · rename_i e he
      cases hr
      exact hs₁.ok.jobs e (List.mem_of_getElem? he)
    · cases hr
  · cases hr

theorem result (h : Between i b s) : MarkSpec i (P.mem (.result q)) (Stays i b) l s :=
  access h fun _ => trivial

/-! ### Marking -/

theorem nowUtc (h : Between i b s) :
    MarkSpec i P.nowUtc (Stands i b fun _ l' _ => l' = l) l s := by
  have hnow : MarkSpec i (P.call .now) (Stands i b fun _ l' _ => l' = l) l s := by
    refine Safe.op fun s₁ hr hc ch => ?_
    have hs₁ := h.of_relies hr hc
    obtain ⟨howed, hs₂⟩ := owed_of_same (o := .now) (l := l) (k := l)
      (t := { s₁ with clock := s₁.clock + 1 }) hs₁ rfl rfl rfl
    exact ⟨howed, l, ⟨rfl, hs₂⟩, rfl⟩
  exact bind hnow fun _ _ _ hs he _ => ret hs he

/-- The select of the metas to mark, outside a transaction. -/
theorem selectMetas {metas : List (Option Uuid)} (h : Between i true s) :
    MarkSpec i (Scheduler.dagsNeedingDagrunsOfMetas metas none)
      (Stands i true fun rows l' s' => rows = [] ∨ ∃ ts, l'.reads.head? = some ts ∧
        ts ≤ s'.store.now ∧ ∀ p ∈ rows, ∃ row, Db.dagMeta (s'.store.asOf ts) p.2.id = some row ∧
          row.runId = none) l s := by
  unfold Scheduler.dagsNeedingDagrunsOfMetas
  split
  · exact ret h (Or.inl rfl)
  · refine quiet h (fun ch l s => ?_) fun s₁ ch r hs₁ _ hr => ?_
    · simp only [Op.exec]
      repeat' split
      all_goals exact ⟨rfl, rfl, rfl⟩
    · have hsnap : s₁.snapshot (.thread i) = s₁.store.now := by
        simp [Shared.snapshot, (hs₁.apart rfl).1]
      revert hr
      simp only [Op.exec]
      repeat' split
      all_goals intro hr; cases hr
      rw [Op.resolve, Option.getD_none, hsnap]
      refine Or.inr ⟨s₁.store.now, rfl, le_refl _, fun p hp => ?_⟩
      obtain ⟨_, row, hrow, _, _, hnone, he⟩ := mem_dagsNeedingDagrunsOfMetas.mp hp
      rw [he]
      exact ⟨row, hrow, hnone⟩

theorem markMetas {rows : List (DagRefRow × DagMetaRow)} (h : Between i b s) :
    MarkSpec i (Scheduler.markMetas rows) (Stands i b fun batched l' _ => l' = l ∧
      ∀ row ∈ batched, ∃ p ∈ rows, p.2.id = row.id) l s := by
  induction rows generalizing l s with
  | nil => exact ret h ⟨rfl, by simp⟩
  | cons p rows ih =>
    refine bind (nowUtc h) fun now l₁ s₁ hs₁ hl₁ _ => ?_
    subst hl₁
    refine bind (ih hs₁) fun rest l₂ s₂ hs₂ ⟨hl₂, hrest⟩ _ => ?_
    subst hl₂
    refine ret hs₂ ⟨rfl, List.forall_mem_cons.mpr ⟨⟨p, List.mem_cons_self, rfl⟩, fun row hm => ?_⟩⟩
    obtain ⟨p', hp', he⟩ := hrest row hm
    exact ⟨p', List.mem_cons_of_mem _ hp', he⟩

/-- `_set_invalid_meta`, with a captured client. -/
theorem setInvalidMeta {metas : List (Option Uuid)} (h : Between i true s) (hc : Captured s tid) :
    MarkSpec i (Scheduler.setInvalidMeta metas (some (.thread tid))) (Stays i true) l s := by
  refine transaction h (fun s₁ hg => Or.inr ⟨tid, rfl, hc.mono hg.mem⟩) fun l₁ s₁ hs₁ _ => ?_
  refine bind (selectMetas hs₁) fun rows l₂ s₂ hs₂ hrows _ => ?_
  refine bind (markMetas hs₂) fun batched l₃ s₃ hs₃ ⟨hl₃, hb⟩ hg₃ => ?_
  subst hl₃
  unfold P.unlessEmpty
  split
  · exact ret hs₃ trivial
  · rename_i hne
    rcases hrows with rfl | ⟨ts, hts, hle, hrows⟩
    · obtain ⟨row, hrow⟩ := List.exists_mem_of_ne_nil batched (by simpa using hne)
      obtain ⟨p, hp, _⟩ := hb row hrow
      cases hp
    · refine insertMarks hs₃ hts (hle.trans hg₃.store.now_le) fun row hrow => ?_
      obtain ⟨p, hp, he⟩ := hb row (by simpa using hrow)
      rw [hg₃.store.asOf_eq hle, ← he]
      exact hrows p hp

theorem onSetInvalid (h : Between i true s) (hc : Captured s tid) :
    MarkSpec i (Scheduler.onSetInvalid q (.thread tid)) (Stays i true) l s := by
  refine bind (result h) fun res l₁ s₁ hs₁ _ hg₁ => ?_
  split
  · exact handleExceptions hs₁ (fun _ _ hs₂ hg₂ => setInvalidMeta hs₂ (hc.mono (hg₁.trans hg₂).mem))
      fun _ _ _ hs₂ _ => raise hs₂
  · exact raise hs₁

theorem onClaimed (h : Between i b s) : MarkSpec i (Scheduler.onClaimed svc q) (Stays i b) l s := by
  refine bind (attempt (result h)) fun res l₁ s₁ hs₁ _ _ => ?_
  split
  · exact access hs₁ fun _ => trivial
  · exact access hs₁ fun _ => trivial

theorem runCallback {cb : Callback} (h : Between i true s) (hcb : ClaimCallback s cb) :
    MarkSpec i (Scheduler.runCallback svc cb) (Stays i true) l s := by
  cases cb with
  | claimed q => exact onClaimed h
  | setInvalid q ytClient =>
    obtain ⟨tid, rfl, hc⟩ := hcb
    exact onSetInvalid h hc
  | _ => exact hcb.elim

theorem drainCallbacks (n : ℕ) (h : Between i true s) :
    MarkSpec i (Pool.drainCallbacks svc (Scheduler.runCallback svc) n) (Stays i true) l s := by
  induction n generalizing l s with
  | zero => exact ret h trivial
  | succ n ih =>
    refine bind (takeCallback h) fun res l₁ s₁ hs₁ hres _ => ?_
    cases res with
    | none => exact ret hs₁ trivial
    | some cb =>
      refine bind (catching (runCallback hs₁ (hres cb rfl)) fun _ _ _ hs₂ _ => ret hs₂ trivial)
        fun _ _ _ hs₂ _ _ => ih hs₂

/-- A scheduler that only makes claiming passes. -/
theorem scheduler {passes : List Scheduler.Pass} {n : ℕ} (h : Between i true s)
    (hp : ∀ p ∈ passes, p = .createDagrunsForDags) :
    MarkSpec i (Scheduler.execute passes n) (Stays i true) l s := by
  refine bind (access (o := .newService) h fun _ => trivial) fun svc l₁ s₁ hs₁ _ _ => ?_
  refine loop hs₁ fun l₂ s₂ hs₂ _ => ?_
  have hpasses : MarkSpec i (Prog.forEach passes (Scheduler.Pass.run svc)) (Stays i true) l₂ s₂ := by
    refine Safe.keeps_forEach (w := l₂) ⟨rfl, hs₂⟩ fun p hm w l₃ s₃ hK _ => ?_
    rw [hp p hm]
    refine bind (submit hK.2 trivial) fun q l₄ s₄ hs₄ hq _ => ?_
    exact onComplete hs₄ hq (Or.inl ⟨q, rfl⟩)
  refine bind hpasses fun _ l₃ s₃ hs₃ _ _ => bind (drainCallbacks 50 hs₃) fun _ l₄ s₄ hs₄ _ _ => ?_
  exact bind (access (o := .takeCreated svc) hs₄ fun _ => trivial) fun _ _ _ hs₅ _ _ =>
    ret hs₅ trivial

/-! ### Claiming -/

/-- A call to the environment that nothing is said of. -/
theorem environment {o : Op} (h : Between i b s) (ho : ∀ ch l s, (o.exec i ch l s).2.2.store = s.store ∧
      (o.exec i ch l s).2.2.opened = s.opened ∧ (o.exec i ch l s).2.2.mem = s.mem) :
    MarkSpec i (P.call o) (Stays i b) l s :=
  quiet h ho fun _ _ _ _ _ _ => trivial

theorem select {c : Option Client} {u : Query} (h : Between i b s) :
    MarkSpec i (P.call (.select c u)) (Stays i b) l s := by
  refine environment h fun ch l s => ?_
  simp only [Op.exec]
  repeat' split
  all_goals exact ⟨rfl, rfl, rfl⟩

theorem deserializeDag {dagId : Uuid} (h : Between i b s) :
    MarkSpec i (P.call (.deserializeDag dagId)) (Stays i b) l s := by
  refine environment h fun ch l s => ?_
  simp only [Op.exec]
  split <;> exact ⟨rfl, rfl, rfl⟩

/-- The metas of a batch name its DagRuns. -/
theorem claimMetas {rows : List (DagRefRow × DagMetaRow)} (h : Between i b s) :
    MarkSpec i (Scheduler.claimMetas rows) (Stands i b fun batched _ _ =>
      ∀ p ∈ batched, p.2.runId = some (.run p.1.runId)) l s := by
  induction rows generalizing l s with
  | nil => exact ret h (by simp)
  | cons p rows ih =>
    refine bind (environment (o := .generateUuid) h fun _ _ _ => ⟨rfl, rfl, rfl⟩)
      fun runId l₁ s₁ hs₁ _ _ => bind (nowUtc hs₁) fun now l₂ s₂ hs₂ _ _ => ?_
    refine bind (ih hs₂) fun rest l₃ s₃ hs₃ hrest _ => ?_
    exact ret hs₃ (List.forall_mem_cons.mpr ⟨rfl, hrest⟩)

theorem createDagRunsAtomic {metas : List (Option Uuid)} {c : Option Client} (h : Between i false s)
    (hc : Op.resolve c i = .thread i) :
    MarkSpec i (Scheduler.createDagRunsAtomic metas c) (Stays i false) l s := by
  refine transaction h (fun _ _ => Or.inl ⟨rfl, hc⟩) fun l₁ s₁ hs₁ _ => ?_
  have hselect : MarkSpec i (Scheduler.dagsNeedingDagrunsOfMetas metas c) (Stays i false) l₁ s₁ := by
    unfold Scheduler.dagsNeedingDagrunsOfMetas
    split
    · exact ret hs₁ trivial
    · exact select hs₁
  refine bind hselect fun rows l₂ s₂ hs₂ _ _ => bind (claimMetas hs₂) fun batched l₃ s₃ hs₃ hb _ => ?_
  have hruns : MarkFree (batched.map fun p => .dagRun p.1) := by simp [MarkFree]
  have hmetas : MarkFree (batched.map fun p => .dagMeta p.2) := by
    rintro row hm ⟨time, htime⟩
    obtain ⟨p, hp, he⟩ := List.mem_map.mp hm
    obtain rfl := Row.dagMeta.inj he
    rw [hb p hp] at htime
    cases htime
  refine bind (Q := fun _ _ _ => True) ?_ fun _ _ _ hs₄ _ _ => ret hs₄ trivial
  unfold P.unlessEmpty
  split
  · exact ret hs₃ trivial
  · exact bind (insert hs₃ hruns) fun _ _ _ hs₄ _ _ => insert hs₄ hmetas

theorem getDag {ref : Option DagRefRow} (h : Between i b s) :
    MarkSpec i (Scheduler.getDag ref) (Stays i b) l s := by
  cases ref with
  | none => exact ret h trivial
  | some ref =>
    refine catching (bind (deserializeDag h) fun _ _ _ hs₁ _ _ => ret hs₁ trivial)
      fun e l₁ s₁ hs₁ _ => ?_
    split_ifs
    · exact ret hs₁ trivial
    · exact raise hs₁

theorem sortMetas {rows : List (DagRefRow × Option DagMetaRow)} (h : Between i b s) :
    MarkSpec i (Scheduler.sortMetas rows) (Stays i b) l s := by
  induction rows generalizing l s with
  | nil => exact ret h trivial
  | cons p rows ih =>
    refine bind (getDag h) fun _ _ _ hs₁ _ _ => bind (ih hs₁) fun r _ _ hs₂ _ _ => ?_
    exact ret hs₂ trivial

/-- The worker captures its own client. -/
theorem tryClaimDagruns (h : Between i false s) :
    MarkSpec i (Scheduler.tryClaimDagruns svc) (Stays i false) l s := by
  have hclient : MarkSpec i (P.call .contextClient)
      (Stands i false fun c _ _ => c = .thread i) l s :=
    quiet h (fun _ _ _ => ⟨rfl, rfl, rfl⟩) fun _ _ _ _ _ hr => (Except.ok.inj hr).symm
  refine bind hclient fun c l₁ s₁ hs₁ hc _ => ?_
  subst hc
  refine bind (environment (o := .shardOptions) hs₁ fun _ _ _ => ⟨rfl, rfl, rfl⟩)
    fun shard l₂ s₂ hs₂ _ _ => ?_
  refine bind (handleExceptions (Q := fun _ _ _ => True) hs₂ (fun _ _ hs₃ _ => select hs₃)
    fun _ _ _ hs₃ _ => ret hs₃ trivial) fun rows l₃ s₃ hs₃ _ _ => ?_
  refine bind (sortMetas hs₃) fun sorted l₄ s₄ hs₄ _ _ => ?_
  refine bind (submit hs₄ trivial) fun q l₅ s₅ hs₅ hq _ => ?_
  refine bind (onComplete hs₅ hq (Or.inr ⟨rfl, q, rfl⟩)) fun _ l₆ s₆ hs₆ _ _ => ?_
  split
  · exact ret hs₆ trivial
  · exact handleExceptions hs₆ (fun _ _ hs₇ _ => createDagRunsAtomic hs₇ rfl)
      fun _ _ _ hs₇ _ => ret hs₇ trivial

theorem trySetMetasInvalid {rows : List (DagRefRow × Option DagMetaRow)} (h : Between i b s) :
    MarkSpec i (Scheduler.trySetMetasInvalid rows) (Stays i b) l s := by
  induction rows generalizing l s with
  | nil => exact ret h trivial
  | cons p rows ih =>
    have hretry : MarkSpec i (P.retrier (· = .dagInitialization) (fun _ => pure false)
        (do
          let _ ← P.call (.deserializeDag p.1.dagId)
          pure true) 1) (Stays i b) l s :=
      P.safe_retrier (w := l) ⟨rfl, h⟩ (fun _ _ _ hK _ => bind (deserializeDag hK.2)
        fun _ _ _ hs₁ _ _ => ret hs₁ trivial) fun _ _ _ _ hK _ => ret hK.2 trivial
    exact bind hretry fun _ _ _ hs₁ _ _ => bind (ih hs₁) fun _ _ _ hs₂ _ _ => ret hs₂ trivial

theorem runJob {fn : Job} (h : Between i false s) (hfn : ClaimJob fn) :
    MarkSpec i fn.run (Stays i false) l s := by
  cases fn with
  | tryClaimDagruns svc => exact bind (tryClaimDagruns h) fun _ _ _ hs₁ _ _ => ret hs₁ trivial
  | trySetMetasInvalid rows =>
    exact bind (trySetMetasInvalid h) fun _ _ _ hs₁ _ _ => ret hs₁ trivial
  | _ => exact hfn.elim

theorem worker {n : ℕ} (h : Between i false s) :
    MarkSpec i (Pool.loop (Pool.workerIter Job.run) n) (Stays i false) l s := by
  refine loop h fun l₁ s₁ hs₁ _ => ?_
  refine bind (takeJob hs₁) fun res l₂ s₂ hs₂ hres _ => ?_
  cases res with
  | none => exact ret hs₂ trivial
  | some job =>
    obtain ⟨q, fn⟩ := job
    refine bind (attempt (runJob hs₂ (hres q fn rfl))) fun r l₃ s₃ hs₃ _ _ => ?_
    exact bind (access (o := .setResult q r) hs₃ fun _ => trivial) fun _ _ _ hs₄ _ _ =>
      access hs₄ fun _ => trivial

end MarkSpec

/-! ### The threads -/

/-- The threads that claim metas and mark them. -/
def Entry.Marks : Entry → Prop
  | .scheduler passes _ => ∀ p ∈ passes, p = .createDagrunsForDags
  | .worker _ | .createDagRuns _ => True
  | _ => False

instance : DecidablePred Entry.Marks
  | .scheduler passes _ => inferInstanceAs (Decidable (∀ p ∈ passes, p = .createDagrunsForDags))
  | .worker _ | .createDagRuns _ => .isTrue trivial
  | .executor _ | .queueRun _ _ | .setState _ | .upsert _ => .isFalse id

theorem marks_startable : Startable system marking (fun _ _ _ _ => True) Entry.Marks where
  stable _ _ _ _ _ _ _ _ := trivial
  start e he i s hc hf := by
    have hsched : Between i true s := ⟨hc, fun _ => hf⟩
    have hother : Between i false s := ⟨hc, fun h => by cases h⟩
    have hend : ∀ {b : Bool} {p : P JobResult} {l : Loc}, MarkSpec i p (Stays i b) l s →
        Safe system marking i p (fun _ _ _ => True) l s := fun h => Safe.mono h fun _ _ _ _ => trivial
    cases e with
    | scheduler passes n =>
      exact hend (MarkSpec.bind (MarkSpec.scheduler hsched he) fun _ _ _ hs₁ _ _ =>
        MarkSpec.ret hs₁ trivial)
    | worker n =>
      exact hend (MarkSpec.bind (MarkSpec.worker hother) fun _ _ _ hs₁ _ _ =>
        MarkSpec.ret hs₁ trivial)
    | createDagRuns metas =>
      exact hend (MarkSpec.bind (MarkSpec.createDagRunsAtomic hother rfl) fun _ _ _ hs₁ _ _ =>
        MarkSpec.ret hs₁ trivial)
    | _ => exact he.elim

end YtScheduler
