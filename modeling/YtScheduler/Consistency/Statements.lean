import YtScheduler.Consistency.Contract

/-! The rules of the single operations: statements inside and outside a transaction,
the transaction block itself, accesses to the memory, and everything else. -/

namespace YtScheduler

open Tablet Threads

variable {α β : Type} {i : ℕ} {m : Option ℕ} {w : List Row} {l : Loc} {s s' : Shared}

/-! ### What a step owes -/

/-- The same state with other transactions open. -/
def Shared.reopen (s : Shared) (opened : Client → List (ℕ × Tx Row)) : Shared := { s with opened }

theorem grows_reopen (s : Shared) (opened : Client → List (ℕ × Tx Row)) :
    Grows s (s.reopen opened) :=
  .of_knows ⟨le_refl _, fun _ h => h, rfl, rfl⟩ rfl rfl

/-- The operation is no access to the memory. -/
def Op.Outside : Op → Prop
  | .mem _ => False
  | _ => True

theorem Op.Outside.access {o : Op} (ho : o.Outside) (a : MemOp) (h : o = .mem a) : a.Ok i s := by
  rw [h] at ho
  exact ho.elim

/-- A step that commits nothing. -/
theorem owed_of_quiet {o : Op} {k : Loc} (ho : o.Outside) (h : Consistent s) (hg : Grows s s')
    (hstore : s'.store = s.store) (hmem : s'.mem = s.mem)
    (hopened : ∀ j ≠ i, s'.opened (.thread j) = s.opened (.thread j))
    (hglobal : ∀ x ∈ s'.opened .global, x.2.writes = []) :
    Owed contract i o l s k s' where
  inv :=
    { tables := fun ts => by
        rw [hstore]
        exact (h.tables ts).mono hg.knows
      persists := fun ts => by
        rw [Shared.db, hstore]
        exact h.persists ts
      mem := by
        rw [hmem]
        exact h.mem.mono hg
      forwarded := by
        rw [hmem]
        exact h.forwarded
      global := hglobal }
  rely j hj := ⟨hg, by rw [hmem]; exact .refl j s.mem, hopened j hj⟩
  guar := ⟨hg, ho.access, fun c hc => absurd (hstore.symm.trans hc) (Store.ne_append _ c)⟩

/-- A step that changes nothing. -/
theorem owed_refl {o : Op} {k : Loc} (ho : o.Outside) (h : Consistent s) : Owed contract i o l s k s :=
  owed_of_quiet ho h (.refl s) rfl rfl (fun _ _ => rfl) h.global

/-- An access to the memory. -/
theorem owed_of_access {o : MemOp} (h : Consistent s) (ho : o.Ok i s) (pick : ℕ) :
    Owed contract i (.mem o) l s l { s with mem := (s.mem.exec i pick o).2 } where
  inv :=
    { tables := fun ts => (h.tables ts).mono (ho.grows pick).knows
      persists := h.persists
      mem := (h.mem.exec ho pick).mono (ho.grows pick)
      forwarded := ho.forwarded pick h.forwarded
      global := h.global }
  rely j hj := ⟨ho.grows pick, ho.handles.leaves pick hj, rfl⟩
  guar := by
    refine ⟨ho.grows pick, fun a ha => ?_, fun c hc => absurd hc (Store.ne_append _ c)⟩
    cases ha
    exact ho

/-- A step that only opens or closes transactions, on the thread's own or the global client. -/
theorem owed_reopen {o : Op} {k : Loc} (ho : o.Outside) (h : Consistent s)
    {f : Client → List (ℕ × Tx Row)}
    (hopened : ∀ j ≠ i, f (.thread j) = s.opened (.thread j))
    (hglobal : ∀ x ∈ f .global, x.2.writes = []) :
    Owed contract i o l s k (s.reopen f) :=
  owed_of_quiet ho h (grows_reopen s f) rfl rfl hopened hglobal

/-- A step that appends a commit. -/
theorem owed_of_committed {o : Op} {k : Loc} {c : Commit Row} (ho : o.Outside) (h : Consistent s)
    (hcom : Committed i s o c) (hc : ¬s.store.Conflict c.start c.rows) (hle : c.start ≤ s.store.now)
    {f : Client → List (ℕ × Tx Row)}
    (hopened : ∀ j ≠ i, f (.thread j) = s.opened (.thread j))
    (hglobal : f .global = s.opened .global) :
    Owed contract i o l s k ((s.commit c).reopen f) where
  inv :=
    { tables := fun ts => ((hcom.consistent hc h).tables ts).mono (grows_reopen _ f).knows
      persists := (hcom.consistent hc h).persists
      mem := (hcom.consistent hc h).mem.mono (grows_reopen _ f)
      forwarded := h.forwarded
      global := fun x hx => h.global x (hglobal ▸ hx) }
  rely j hj := ⟨(hcom.grows hc).trans (grows_reopen _ f), .refl j s.mem, hopened j hj⟩
  guar := by
    refine ⟨(hcom.grows hc).trans (grows_reopen _ f), ho.access, fun c' hc' => ?_⟩
    have hlog := congrArg Store.log hc'
    simp only [Shared.reopen, Shared.commit, Store.log_append, List.cons.injEq, and_true] at hlog
    rw [← hlog]
    exact ⟨hcom, hle⟩

/-! ### The client of a thread -/

section Clients

variable {f : Client → List (ℕ × Tx Row)} {t : List (ℕ × Tx Row)}

theorem update_thread_other {j : ℕ} (hj : j ≠ i) :
    Function.update f (.thread i) t (.thread j) = f (.thread j) :=
  Function.update_of_ne (by simpa using hj) _ _

theorem update_thread_global :
    Function.update f (.thread i) t .global = f .global :=
  Function.update_of_ne (by simp) _ _

theorem update_global_thread {j : ℕ} :
    Function.update f .global t (.thread j) = f (.thread j) :=
  Function.update_of_ne (by simp) _ _

end Clients

theorem Stmt.snapshot {ts : ℕ} (h : Stmt i (some ts) w s) : s.snapshot (.thread i) = ts := by
  simp [Shared.snapshot, h.opened]

theorem Stmt.snapshot_now (h : Stmt i none w s) : s.snapshot (.thread i) = s.store.now := by
  simp [Shared.snapshot, h.opened]

theorem Stmt.outside (hc : Consistent s) (h : s.opened (.thread i) = []) : Stmt i none [] s :=
  ⟨hc, h, by simp, by simp⟩

theorem Stmt.congr (h : Stmt i m w s) (hc : Consistent s') (hstore : s'.store = s.store)
    (hopened : s'.opened (.thread i) = s.opened (.thread i)) : Stmt i m w s' where
  consistent := hc
  opened := hopened.trans h.opened
  le_now := hstore ▸ h.le_now
  written := hstore ▸ h.written

/-- A step on the global client does not touch what the thread has open. -/
theorem Stmt.reopen_global {o : Op} {k : Loc} {txs : List (ℕ × Tx Row)} (h : Stmt i m w s)
    (ho : o.Outside) (htxs : ∀ x ∈ txs, x.2.writes = []) :
    Owed contract i o l s k (s.reopen (Function.update s.opened .global txs)) ∧
      Stmt i m w (s.reopen (Function.update s.opened .global txs)) := by
  have howed : Owed contract i o l s k (s.reopen (Function.update s.opened .global txs)) :=
    owed_reopen ho h.consistent (fun _ _ => update_global_thread) (by simpa using htxs)
  exact ⟨howed, h.congr howed.inv rfl (update_global_thread (f := s.opened) (t := txs))⟩

/-- The moment that a select reads the tables of, made in `s` and seen from `s'`: the start of the
open transaction, or the present. -/
structure ReadAt (m : Option ℕ) (s s' : Shared) (ts : ℕ) : Prop where
  start : ∀ ts', m = some ts' → ts = ts'
  present : m = none → Persists s.db (s'.store.asOf ts)

namespace Spec

/-- The rule for one operation. -/
theorem call {o : Op} {Q : Post Exn o.Ret Loc Shared}
    (h : ∀ s₁, Relies i s s₁ → Consistent s₁ → ∀ ch,
      Owed contract i o l s₁ (o.exec i ch l s₁).2.1 (o.exec i ch l s₁).2.2 ∧
        Q (o.exec i ch l s₁).1 (o.exec i ch l s₁).2.1 (o.exec i ch l s₁).2.2) :
    Spec i (P.call o) Q l s := Safe.op h

/-! ### Statements -/

/-- A select reads the tables of one moment: the start of the open transaction, if any. -/
theorem select {q : Query} (hs : Stmt i m w s) :
    Spec i (P.call (.select none q)) (Ends i m fun out w' s' => w' = w ∧ ∃ ts,
      ts ≤ s'.store.now ∧ ReadAt m s s' ts ∧ Persists (s'.store.asOf ts) s'.db ∧
      out = q.eval s'.engine (s'.store.asOf ts)) l s := by
  refine call fun s₁ hr hc ch => ?_
  have hs₁ := hs.of_relies hr hc
  have howed : ∀ l', Owed contract i (.select none q) l s₁ l' s₁ := fun l' =>
    owed_refl trivial hc
  cases hf : ch.fail with
  | some e =>
    simp only [Op.exec, hf]
    exact ⟨howed l, w, hs₁⟩
  | none =>
    by_cases hz : q.fails s₁.engine = true
    · simp only [Op.exec, hf, if_pos hz]
      exact ⟨howed l, w, hs₁⟩
    · simp only [Op.exec, hf, if_neg hz]
      refine ⟨howed _, w, hs₁, rfl, s₁.snapshot (.thread i), ?_⟩
      cases m with
      | none =>
        rw [hs₁.snapshot_now]
        refine ⟨le_refl _, ⟨by simp, fun _ => ?_⟩, ?_, ?_⟩
        · rw [Store.asOf_now]
          exact hr.grows.tables
        · rw [Store.asOf_now]
          exact .refl _
        · rw [Op.resolve, Option.getD_none, hs₁.snapshot_now]
      | some ts =>
        rw [hs₁.snapshot]
        exact ⟨hs₁.le_now ts rfl, ⟨fun _ h => Option.some.inj h, by simp⟩, hc.persists ts,
          by rw [Op.resolve, Option.getD_none, hs₁.snapshot]⟩

/-- An insert adds to the open transaction; outside of one it must be a commit of its own. -/
theorem insert {rows : List Row} (hs : Stmt i m w s)
    (hcom : m = none → ∀ s₁, Grows s s₁ → Consistent s₁ →
      Committed i s₁ (.insert none rows) ⟨i, false, s₁.store.now, rows⟩) :
    Spec i (P.upsertRows rows none) (Ends i m fun _ w' _ => w' = w ++ rows) l s := by
  refine call fun s₁ hr hc ch => ?_
  have hs₁ := hs.of_relies hr hc
  have hop := hs₁.opened
  cases hf : ch.fail with
  | some e =>
    simp only [Op.exec, hf]
    exact ⟨owed_refl trivial hc, w, hs₁⟩
  | none =>
    cases m with
    | none =>
      rw [Option.elim_none] at hop
      simp only [Op.exec, hf, Op.resolve, Option.getD_none, Shared.insert, hop]
      have howed := owed_of_committed (o := .insert none rows) (l := l) (k := l) trivial hc (hcom rfl s₁ hr.grows hc)
        (not_conflict_now rows) (le_refl _) (f := s₁.opened) (fun _ _ => rfl) rfl
      refine ⟨howed, w ++ rows, ⟨howed.inv, hop, by simp, fun _ row hrow => ?_⟩, rfl⟩
      rcases List.mem_append.mp hrow with hrow | hrow
      · obtain ⟨c, hcl, hw⟩ := hs₁.written rfl row hrow
        exact ⟨c, List.mem_cons_of_mem _ hcl, hw⟩
      · exact ⟨_, List.mem_cons_self, hrow⟩
    | some ts =>
      rw [Option.elim_some] at hop
      simp only [Op.exec, hf, Op.resolve, Option.getD_none, Shared.insert, hop]
      have howed := owed_reopen (i := i) (o := .insert none rows) (l := l) (k := l) trivial hc
        (f := Function.update s₁.opened (.thread i) [(i, ⟨ts, w ++ rows⟩)])
        (fun j hj => update_thread_other hj) (by rw [update_thread_global]; exact hc.global)
      exact ⟨howed, w ++ rows, ⟨howed.inv, by simp, hs₁.le_now, by simp⟩, rfl⟩

/-- An insert that is left out when there are no rows. -/
theorem unlessEmpty_insert {xs : List β} {rows : List Row} (hs : Stmt i m w s)
    (hnil : xs = [] → rows = [])
    (hcom : m = none → ∀ s₁, Grows s s₁ → Consistent s₁ →
      Committed i s₁ (.insert none rows) ⟨i, false, s₁.store.now, rows⟩) :
    Spec i (P.unlessEmpty xs (P.upsertRows rows none)) (Ends i m fun _ w' _ => w' = w ++ rows)
      l s := by
  unfold P.unlessEmpty
  split
  · rename_i hempty
    exact ret hs (by rw [hnil (List.isEmpty_iff.mp hempty), List.append_nil])
  · exact insert hs hcom

/-- A transaction on the thread's own client begins in the present. -/
theorem beginTx (hs : Stmt i none w s) :
    Spec i (P.call (.beginTx none)) (fun r _ s' => match r with
      | .ok _ => ∃ ts, Stmt i (some ts) [] s' ∧ s'.store.asOf ts = s'.db
      | .error _ => ∃ w, Stmt i none w s') l s := by
  refine call fun s₁ hr hc ch => ?_
  have hs₁ := hs.of_relies hr hc
  have hop := hs₁.opened
  rw [Option.elim_none] at hop
  cases hf : ch.fail with
  | some e =>
    simp only [Op.exec, hf]
    exact ⟨owed_refl trivial hc, w, hs₁⟩
  | none =>
    simp only [Op.exec, hf]
    have howed := owed_reopen (i := i) (o := .beginTx none) (l := l) (k := l) trivial hc
      (f := (s₁.beginTx i (.thread i)).opened) (fun j hj => update_thread_other hj)
      (by simpa [Shared.beginTx] using hc.global)
    refine ⟨howed, s₁.store.now,
      ⟨howed.inv, ?_, fun _ h => Option.some.inj h ▸ le_refl _, by simp⟩, Store.asOf_now _⟩
    simp [Shared.beginTx, Op.resolve, hop]

theorem abortTx {ts : ℕ} (hs : Stmt i (some ts) w s) :
    Spec i (P.call (.abortTx none)) (Ends i none fun _ _ _ => True) l s := by
  refine call fun s₁ hr hc ch => ?_
  have hop := (hs.of_relies hr hc).opened
  rw [Option.elim_some] at hop
  simp only [Op.exec]
  have howed := owed_reopen (i := i) (o := .abortTx none) (l := l) (k := l) trivial hc
    (f := (s₁.endTx i (.thread i)).opened) (fun _ => Shared.endTx_other)
    (by rw [Shared.endTx_global]; exact hc.global)
  exact ⟨howed, [], Stmt.outside howed.inv (Shared.opened_endTx hop), trivial⟩

/-- A transaction that wrote something and is committed is in the log. -/
theorem commitTx {ts : ℕ} (hs : Stmt i (some ts) w s)
    (hcom : ∀ s₁, Relies i s s₁ → Consistent s₁ → w ≠ [] → Committed i s₁ (.commitTx none) ⟨i, true, ts, w⟩) :
    Spec i (P.call (.commitTx none))
      (Ends i none fun _ _ s' => w ≠ [] → ⟨i, true, ts, w⟩ ∈ s'.store.log) l s := by
  refine call fun s₁ hr hc ch => ?_
  have hs₁ := hs.of_relies hr hc
  have hop := hs₁.opened
  rw [Option.elim_some] at hop
  have htx := Shared.tx?_of_opened hop
  have hend := Shared.opened_endTx hop
  have hquiet : ∀ l₁, Owed contract i (.commitTx none) l s₁ l₁ (s₁.endTx i (.thread i)) :=
    fun l₁ => owed_reopen (o := .commitTx none) trivial hc (fun _ => Shared.endTx_other)
      (by rw [update_thread_global]; exact hc.global)
  cases hf : ch.fail with
  | some e =>
    simp only [Op.exec, Op.resolve, Option.getD_none, htx, hf]
    exact ⟨hquiet _, [], Stmt.outside (hquiet l).inv hend⟩
  | none =>
    by_cases hw : w = []
    · simp only [Op.exec, Op.resolve, Option.getD_none, htx, hf, if_pos hw]
      exact ⟨hquiet _, [], Stmt.outside (hquiet l).inv hend, fun h => absurd hw h⟩
    · by_cases hconf : s₁.store.Conflict ts w
      · simp only [Op.exec, Op.resolve, Option.getD_none, htx, hf, if_neg hw, if_pos hconf]
        exact ⟨hquiet _, [], Stmt.outside (hquiet l).inv hend⟩
      · simp only [Op.exec, Op.resolve, Option.getD_none, htx, hf, if_neg hw, if_neg hconf]
        have howed := owed_of_committed (o := .commitTx none) (l := l) (k := l) trivial hc
          (hcom s₁ hr hc hw) hconf (hs₁.le_now ts rfl) (f := (s₁.endTx i (.thread i)).opened)
          (fun _ => Shared.endTx_other) Shared.endTx_global
        exact ⟨howed, [], Stmt.outside howed.inv hend, fun _ => List.mem_cons_self⟩

/-- The rule for a transaction on the thread's own client. -/
theorem transaction {body : P α} {Q : ℕ → α → List Row → Shared → Prop}
    {R : α → List Row → Shared → Prop} (hs : Stmt i none w s)
    (hbody : ∀ ts l' s', Stmt i (some ts) [] s' → s'.store.asOf ts = s'.db → Grows s s' →
      Spec i body (Ends i (some ts) (Q ts)) l' s')
    (hcom : ∀ ts a w s' s'', Q ts a w s' → Stmt i (some ts) w s' → Relies i s' s'' →
      Consistent s'' → w ≠ [] → Committed i s'' (.commitTx none) ⟨i, true, ts, w⟩)
    (hR : ∀ ts a w s' s'', Q ts a w s' → ts ≤ s'.store.now → Grows s' s'' →
      (w ≠ [] → ⟨i, true, ts, w⟩ ∈ s''.store.log) → ∀ w', R a w' s'') :
    Spec i (P.transaction none body) (Ends i none R) l s := by
  refine Safe.bind (Safe.mono (Safe.grows (beginTx hs)) fun r l₁ s₁ h => ?_)
  obtain ⟨hr, hg⟩ := h
  cases r with
  | error e => exact hr
  | ok _ =>
    obtain ⟨ts, hs₁, hdb⟩ := hr
    refine Safe.bind (Safe.attempt (Safe.mono (hbody ts l₁ s₁ hs₁ hdb hg) fun r l₂ s₂ hr => ?_))
    cases r with
    | ok a =>
      obtain ⟨w₂, hs₂, hq⟩ := hr
      refine bind (commitTx hs₂ fun s₃ => hcom ts a w₂ s₂ s₃ hq hs₂) fun _ w₃ _ s₃ hs₃ hlog hg₃ => ?_
      exact ret hs₃ (hR ts a w₂ s₂ s₃ hq (hs₂.le_now ts rfl) hg₃ hlog w₃)
    | error e =>
      obtain ⟨w₂, hs₂⟩ := hr
      exact bind (abortTx hs₂) fun _ _ _ _ hs₃ _ _ => raise hs₃

/-- What is open on the global client has no writes, also when the thread's own is closed. -/
theorem writes_endTx_global (hc : Consistent s) :
    ∀ x ∈ (s.opened .global).eraseP (·.1 = i), x.2.writes = [] :=
  fun x hx => hc.global x (List.mem_of_mem_eraseP hx)

theorem beginTx_global (hs : Stmt i m w s) :
    Spec i (P.call (.beginTx (some .global))) (Ends i m fun _ w' _ => w' = w) l s := by
  refine call fun s₁ hr hc ch => ?_
  have hs₁ := hs.of_relies hr hc
  cases hf : ch.fail with
  | some e =>
    simp only [Op.exec, hf]
    exact ⟨owed_refl trivial hc, w, hs₁⟩
  | none =>
    simp only [Op.exec, hf, Op.resolve, Option.getD_some]
    have htxs : ∀ x ∈ (i, ⟨s₁.store.now, []⟩) :: s₁.opened .global, x.2.writes = [] := by
      simpa using hc.global
    obtain ⟨howed, hs₂⟩ := hs₁.reopen_global (o := .beginTx (some .global)) (l := l) (k := l) trivial htxs
    exact ⟨howed, w, hs₂, rfl⟩

theorem abortTx_global (hs : Stmt i m w s) :
    Spec i (P.call (.abortTx (some .global))) (Ends i m fun _ w' _ => w' = w) l s := by
  refine call fun s₁ hr hc ch => ?_
  obtain ⟨howed, hs₂⟩ := (hs.of_relies hr hc).reopen_global (o := .abortTx (some .global)) (l := l) (k := l)
    trivial (writes_endTx_global hc)
  exact ⟨howed, w, hs₂, rfl⟩

/-- Nothing was written on the global client, so its commits append nothing. -/
theorem commitTx_global (hs : Stmt i m w s) :
    Spec i (P.call (.commitTx (some .global))) (Ends i m fun _ w' _ => w' = w) l s := by
  refine call fun s₁ hr hc ch => ?_
  have hs₁ := hs.of_relies hr hc
  obtain ⟨howed, hs₂⟩ := hs₁.reopen_global (o := .commitTx (some .global)) (l := l) (k := l) trivial
    (writes_endTx_global hc)
  cases htx : s₁.tx? i .global with
  | none =>
    simp only [Op.exec, Op.resolve, Option.getD_some, htx]
    exact ⟨owed_refl trivial hc, w, hs₁⟩
  | some tx =>
    have hw : tx.writes = [] := by
      obtain ⟨x, hx, rfl⟩ := Option.map_eq_some_iff.mp htx
      exact hc.global x (List.mem_of_find?_eq_some hx)
    cases hf : ch.fail with
    | some e =>
      simp only [Op.exec, Op.resolve, Option.getD_some, htx, hf]
      exact ⟨howed, w, hs₂⟩
    | none =>
      simp only [Op.exec, Op.resolve, Option.getD_some, htx, hf, if_pos hw]
      exact ⟨howed, w, hs₂, rfl⟩

/-- The rule for a transaction on the global client: the statements do not take part in it. -/
theorem transaction_global {body : P α} {Q : α → List Row → Shared → Prop} (hs : Stmt i m w s)
    (hbody : ∀ l' s', Stmt i m w s' → Grows s s' → Spec i body (Ends i m Q) l' s')
    (hQ : ∀ a w s' s'', Q a w s' → Grows s' s'' → Q a w s'') :
    Spec i (P.transaction (some .global) body) (Ends i m Q) l s := by
  refine bind (beginTx_global hs) fun _ w₁ l₁ s₁ hs₁ hw hg => ?_
  subst hw
  refine Safe.bind (Safe.attempt (Safe.mono (hbody l₁ s₁ hs₁ hg) fun r l₂ s₂ hr => ?_))
  cases r with
  | ok a =>
    obtain ⟨w₂, hs₂, hq⟩ := hr
    refine bind (commitTx_global hs₂) fun _ w₃ _ s₃ hs₃ hw₃ hg₃ => ?_
    subst hw₃
    exact ret hs₃ (hQ a w₃ s₂ s₃ hq hg₃)
  | error e =>
    obtain ⟨w₂, hs₂⟩ := hr
    exact bind (abortTx_global hs₂) fun _ _ _ _ hs₃ _ _ => raise hs₃

/-! ### Memory and environment -/

/-- The rule for an access to the memory. -/
theorem mem {o : MemOp} (hs : Stmt i m w s)
    (ho : ∀ s₁, Relies i s s₁ → Consistent s₁ → o.Ok i s₁) :
    Spec i (P.mem o) (Ends i m fun a w' s' => w' = w ∧ ∃ s₁ pick, Relies i s s₁ ∧ Consistent s₁ ∧
      s' = { s₁ with mem := (s₁.mem.exec i pick o).2 } ∧ (s₁.mem.exec i pick o).1 = .ok a) l s := by
  refine call fun s₁ hr hc ch => ?_
  have hs₁ := hs.of_relies hr hc
  have howed := owed_of_access (l := l) hc (ho s₁ hr hc) ch.pick
  have hs' := hs₁.congr howed.inv rfl rfl
  refine ⟨howed, ?_⟩
  simp only [Op.exec]
  cases hres : (s₁.mem.exec i ch.pick o).1 with
  | ok a => exact ⟨w, hs', rfl, s₁, ch.pick, hr, hc, rfl, hres⟩
  | error e => exact ⟨w, hs'⟩

theorem readTaskRun {tr : Ref} (hs : Stmt i m w s) :
    Spec i (P.mem (.readTaskRun tr)) (Ends i m fun row w' s' => w' = w ∧
      HasTaskRun s' row.ident ∧ s'.trIdent tr = some row.ident) l s := by
  refine (mem (o := .readTaskRun tr) hs fun _ _ _ => trivial).mono fun row w' s' _ h => ?_
  obtain ⟨hw, s₁, pick, _, hc, rfl, hres⟩ := h
  simp only [Mem.exec] at hres ⊢
  cases hrow : s₁.mem.taskRuns[tr]? with
  | none => rw [hrow] at hres; cases hres
  | some row' =>
    rw [hrow] at hres
    cases hres
    exact ⟨hw, hc.mem.taskRuns row (List.mem_of_getElem? hrow), by simp [Shared.trIdent, hrow]⟩

theorem readDagRun {run : Ref} (hs : Stmt i m w s) :
    Spec i (P.mem (.readDagRun run)) (Ends i m fun row w' s' => w' = w ∧
      HasDagRun s' row.ident ∧ s'.runIdent run = some row.ident) l s := by
  refine (mem (o := .readDagRun run) hs fun _ _ _ => trivial).mono fun row w' s' _ h => ?_
  obtain ⟨hw, s₁, pick, _, hc, rfl, hres⟩ := h
  simp only [Mem.exec] at hres ⊢
  cases hrow : s₁.mem.dagRuns[run]? with
  | none => rw [hrow] at hres; cases hres
  | some row' =>
    rw [hrow] at hres
    cases hres
    exact ⟨hw, hc.mem.dagRuns row (List.mem_of_getElem? hrow), by simp [Shared.runIdent, hrow]⟩

/-- An operation that changes nothing. -/
theorem quiet {o : Op} (hs : Stmt i m w s) (hout : o.Outside)
    (ho : ∀ ch l s, (o.exec i ch l s).2.2 = s) :
    Spec i (P.call o) (Ends i m fun a w' s' => w' = w ∧
      ∃ ch l, (o.exec i ch l s').1 = .ok a) l s := by
  refine call fun s₁ hr hc ch => ?_
  have hs₁ := hs.of_relies hr hc
  rw [ho ch l s₁]
  refine ⟨owed_refl hout hc, ?_⟩
  cases hres : (o.exec i ch l s₁).1 with
  | ok a => exact ⟨w, hs₁, rfl, ch, l, hres⟩
  | error e => exact ⟨w, hs₁⟩

theorem deserializeDag {dagId : Uuid} (hs : Stmt i m w s) :
    Spec i (P.call (.deserializeDag dagId)) (Ends i m fun dag w' s' => w' = w ∧
      s'.dag? dagId = some dag) l s := by
  refine (quiet (o := .deserializeDag dagId) hs trivial fun ch l s => ?_).mono fun dag w' s' _ h => ?_
  · simp only [Op.exec]
    split <;> rfl
  · obtain ⟨hw, ch, l', hres⟩ := h
    refine ⟨hw, ?_⟩
    simp only [Op.exec] at hres
    split at hres
    · rename_i dag' hdag
      cases hres
      exact hdag
    · cases hres

theorem loadTask {dagId : Uuid} {taskId : String} (hs : Stmt i m w s) :
    Spec i (P.call (.loadTask dagId taskId)) (Ends i m fun _ w' _ => w' = w) l s := by
  refine (quiet (o := .loadTask dagId taskId) hs trivial fun ch l s => ?_).mono fun _ _ _ _ h => h.1
  simp only [Op.exec]
  split <;> rfl

theorem getOperationState {operation : Option OperationId} (hs : Stmt i m w s) :
    Spec i (P.call (.getOperationState operation)) (Ends i m fun _ w' _ => w' = w) l s := by
  refine (quiet (o := .getOperationState operation) hs trivial fun ch l s => ?_).mono fun _ _ _ _ h => h.1
  simp only [Op.exec]
  split <;> rfl

theorem abortOperation {operation : Option OperationId} (hs : Stmt i m w s) :
    Spec i (P.call (.abortOperation operation)) (Ends i m fun _ w' _ => w' = w) l s := by
  refine (quiet (o := .abortOperation operation) hs trivial fun ch l s => ?_).mono fun _ _ _ _ h => h.1
  simp only [Op.exec]
  split <;> rfl

theorem shardOptions (hs : Stmt i m w s) :
    Spec i (P.call .shardOptions) (Ends i m fun _ w' _ => w' = w) l s :=
  (quiet (o := .shardOptions) hs trivial fun _ _ _ => rfl).mono fun _ _ _ _ h => h.1

theorem attemptTooRecent (hs : Stmt i m w s) :
    Spec i (P.call .attemptTooRecent) (Ends i m fun _ w' _ => w' = w) l s :=
  (quiet (o := .attemptTooRecent) hs trivial fun _ _ _ => rfl).mono fun _ _ _ _ h => h.1

theorem now (hs : Stmt i m w s) : Spec i (P.call .now) (Ends i m fun _ w' _ => w' = w) l s := by
  refine call fun s₁ hr hc ch => ?_
  have hs₁ := hs.of_relies hr hc
  have hg : Grows s₁ { s₁ with clock := s₁.clock + 1 } :=
    .of_knows ⟨le_refl _, fun _ h => h, rfl, rfl⟩ rfl rfl
  have howed : Owed contract i .now l s₁ l { s₁ with clock := s₁.clock + 1 } :=
    owed_of_quiet trivial hc hg rfl rfl (fun _ _ => rfl) hc.global
  exact ⟨howed, w, hs₁.congr howed.inv rfl rfl, rfl⟩

/-- A generated id was not in use. -/
theorem generateUuid (hs : Stmt i m w s) :
    Spec i (P.call .generateUuid) (Ends i m fun n w' s' => w' = w ∧ s.uuids ≤ n ∧
      n < s'.uuids) l s := by
  refine call fun s₁ hr hc ch => ?_
  have hs₁ := hs.of_relies hr hc
  have hg : Grows s₁ { s₁ with uuids := s₁.uuids + 1 } :=
    .of_knows ⟨Nat.le_succ _, fun _ h => h, rfl, rfl⟩ rfl rfl
  have howed : Owed contract i .generateUuid l s₁ l { s₁ with uuids := s₁.uuids + 1 } :=
    owed_of_quiet trivial hc hg rfl rfl (fun _ _ => rfl) hc.global
  exact ⟨howed, w, hs₁.congr howed.inv rfl rfl, rfl, hr.grows.knows.uuids, Nat.lt_succ_self _⟩

/-- The operation is recorded as started for the run. -/
theorem runOperation {runId : Uuid} (hs : Stmt i m w s) :
    Spec i (P.call (.runOperation runId)) (Ends i m fun op w' s' => w' = w ∧
      s'.Started runId (some op)) l s := by
  refine call fun s₁ hr hc ch => ?_
  have hs₁ := hs.of_relies hr hc
  cases hf : ch.fail with
  | some e =>
    simp only [Op.exec, hf]
    exact ⟨owed_refl trivial hc, w, hs₁⟩
  | none =>
    simp only [Op.exec, hf]
    have hg : Grows s₁ { s₁ with operations := (ch.pick, runId) :: s₁.operations } :=
      .of_knows ⟨le_refl _, fun _ h => List.mem_cons_of_mem _ h, rfl, rfl⟩ rfl rfl
    have howed : Owed contract i (.runOperation runId) l s₁ l
        { s₁ with operations := (ch.pick, runId) :: s₁.operations } :=
      owed_of_quiet trivial hc hg rfl rfl (fun _ _ => rfl) hc.global
    exact ⟨howed, w, hs₁.congr howed.inv rfl rfl, rfl, ch.pick, rfl, List.mem_cons_self⟩

end Spec

end YtScheduler
