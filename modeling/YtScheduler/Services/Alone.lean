import YtScheduler.Services.Machine
import YtScheduler.Threads.Alone

/-! One thread of the system alone, while none of its calls fails. A program then
returns one value and leaves one state, whatever else the environment decides. A
transaction commits: nothing was written since it began. -/

namespace YtScheduler

open Tablet Threads

/-- No call fails. -/
def Healthy {κ : Type} (env : Environment Op Choice κ) : Prop := ∀ k o, (env.choose k o).fail = none

/-- What a select of thread `i` reads. -/
abbrev Shared.reads (s : Shared) (i : ℕ) : Db := s.store.asOf (s.snapshot (.thread i))

/-- Thread `i` running `p` alone in `s` returns `a` and leaves `s'`. -/
def Yields {α : Type} (i : ℕ) (p : P α) (s : Shared) (a : α) (s' : Shared) : Prop :=
  ∀ (κ : Type) (env : Environment Op Choice κ), Healthy env → ∀ k l, ∃ k' l',
    p.Ends (system.alone i env) (k, l, s) (.ok a) (k', l', s')

/-- Thread `i` running `p` alone in `s` comes to this outcome, and leaves `s'`. -/
def Comes {α : Type} (i : ℕ) (p : P α) (s : Shared) (r : Except Exn α) (s' : Shared) : Prop :=
  ∀ (κ : Type) (env : Environment Op Choice κ), Healthy env → ∀ k l, ∃ k' l',
    p.Ends (system.alone i env) (k, l, s) r (k', l', s')

namespace Yields

variable {α β : Type} {i : ℕ} {p : P α} {f : α → P β} {a : α} {b : β} {s s' s'' : Shared}

theorem ret (a : α) (s : Shared) : Yields i (Prog.ret a) s a s := by
  intro κ env _ k l
  exact ⟨k, l, Prog.ends_ret a _⟩

theorem bind (hp : Yields i p s a s') (hf : Yields i (f a) s' b s'') :
    Yields i (p.bind f) s b s'' := by
  intro κ env henv k l
  obtain ⟨k₁, l₁, h1⟩ := hp κ env henv k l
  obtain ⟨k₂, l₂, h2⟩ := hf κ env henv k₁ l₁
  exact ⟨k₂, l₂, h1.bind h2⟩

theorem bind_comes {r : Except Exn β} (hp : Yields i p s a s') (hf : Comes i (f a) s' r s'') :
    Comes i (p.bind f) s r s'' := by
  intro κ env henv k l
  obtain ⟨k₁, l₁, h1⟩ := hp κ env henv k l
  obtain ⟨k₂, l₂, h2⟩ := hf κ env henv k₁ l₁
  exact ⟨k₂, l₂, h1.bind h2⟩

theorem attempt (hp : Yields i p s a s') : Yields i p.attempt s (.ok a) s' := by
  intro κ env henv k l
  obtain ⟨k', l', h⟩ := hp κ env henv k l
  exact ⟨k', l', h.attempt⟩

theorem catching {h : Exn → P α} (hp : Yields i p s a s') : Yields i (p.catching h) s a s' :=
  hp.attempt.bind (ret a s')

/-- A call that acts alike under every choice without a failure. -/
theorem op {o : Op} {r : o.Ret}
    (h : ∀ ch l, ch.fail = none → ∃ l', o.exec i ch l s = (.ok r, l', s')) :
    Yields i (P.call o) s r s' := by
  intro κ env henv k l
  obtain ⟨l', ho⟩ := h (env.choose k o) l (henv k o)
  refine ⟨env.next k o, l', Prog.ends_op ?_⟩
  show ((o.exec i (env.choose k o) l s).1, _, (o.exec i (env.choose k o) l s).2) = _
  rw [ho]

theorem mem {o : MemOp} {r : o.Ret} {m : Mem} (h : ∀ pick, s.mem.exec i pick o = (.ok r, m)) :
    Yields i (P.mem o) s r { s with mem := m } := by
  refine op fun ch l _ => ⟨l, ?_⟩
  simp only [Op.exec, h]

theorem forEach {γ : Type} {body : γ → P Unit} {I : List γ → Shared → Prop} {xs : List γ}
    (hbody : ∀ x xs s, I (x :: xs) s → ∃ s', Yields i (body x) s () s' ∧ I xs s') (hI : I xs s) :
    ∃ s', Yields i (Prog.forEach xs body) s () s' ∧ I [] s' := by
  induction xs generalizing s with
  | nil => exact ⟨s, ret () s, hI⟩
  | cons x xs ih =>
    obtain ⟨s₁, h1, hI1⟩ := hbody x xs s hI
    obtain ⟨s₂, h2, hI2⟩ := ih hI1
    exact ⟨s₂, h1.bind h2, hI2⟩

theorem now (s : Shared) : Yields i (P.call .now) s s.clock { s with clock := s.clock + 1 } :=
  op fun _ l _ => ⟨l, rfl⟩

theorem nowUtc (s : Shared) :
    Yields i P.nowUtc s ⟨s.clock, true⟩ { s with clock := s.clock + 1 } := (now s).bind (ret _ _)

theorem utcnow (s : Shared) :
    Yields i P.utcnow s ⟨s.clock, false⟩ { s with clock := s.clock + 1 } := (now s).bind (ret _ _)

theorem select {q : Query} {s : Shared} (hq : q.fails s.engine = false) :
    Yields i (P.call (.select none q)) s
      (q.eval s.engine (s.reads i)) s := by
  refine op fun ch l hch => ⟨{ l with reads := s.snapshot (.thread i) :: l.reads }, ?_⟩
  simp only [Op.exec, hch, hq]
  rfl

end Yields

namespace Comes

variable {α β γ : Type} {i : ℕ} {p : P α} {e : Exn} {r : Except Exn α} {s s' : Shared}

/-- A program that runs alone comes to one outcome. -/
theorem unique {r₁ r₂ : Except Exn α} {s₁ s₂ : Shared} (h1 : Comes i p s r₁ s₁)
    (h2 : Comes i p s r₂ s₂) : r₁ = r₂ ∧ s₁ = s₂ := by
  let env : Environment Op Choice Unit := ⟨fun _ _ => {}, fun _ _ => ()⟩
  obtain ⟨_, _, hends₁⟩ := h1 Unit env (fun _ _ => rfl) () {}
  obtain ⟨_, _, hends₂⟩ := h2 Unit env (fun _ _ => rfl) () {}
  cases hends₁.symm.trans hends₂
  exact ⟨rfl, rfl⟩

theorem raise (e : Exn) (s : Shared) : Comes i (Prog.raise e : P α) s (.error e) s :=
  fun _ _ _ k l => ⟨k, l, rfl⟩

theorem op_error {o : Op} (h : ∀ ch l, ch.fail = none → o.exec i ch l s = (.error e, l, s)) :
    Comes i (P.call o) s (.error e) s := by
  intro κ env henv k l
  refine ⟨env.next k o, l, Prog.ends_op ?_⟩
  show ((o.exec i (env.choose k o) l s).1, _, (o.exec i (env.choose k o) l s).2) = _
  rw [h (env.choose k o) l (henv k o)]

theorem bind_error {f : α → P β} (hp : Comes i p s (.error e) s') :
    Comes i (p.bind f) s (.error e) s' := by
  intro κ env henv k l
  obtain ⟨k', l', h⟩ := hp κ env henv k l
  exact ⟨k', l', h.bind_error⟩

theorem select_fails {q : Query} {s : Shared} (hq : q.fails s.engine = true) :
    Comes i (P.call (.select none q)) s (.error .runtime) s := by
  refine op_error fun ch l hch => ?_
  simp only [Op.exec, hch, hq]
  rfl

/-- What raises does not return. -/
theorem not_yields {a : α} {s₁ s₂ : Shared} (hp : Comes i p s (.error e) s₁) : ¬Yields i p s a s₂ :=
  fun h => absurd (hp.unique h).1 (by simp)

theorem attempt (hp : Comes i p s r s') : Yields i p.attempt s r s' := by
  intro κ env henv k l
  obtain ⟨k', l', h⟩ := hp κ env henv k l
  exact ⟨k', l', h.attempt⟩

/-- An exception that is not transient passes the handler. -/
theorem handleExceptions {hasLog : Bool} {onExhaust : Exn → P α} (hp : Comes i p s (.error e) s')
    (he : e.transient = false) : Comes i (P.handleExceptions hasLog onExhaust p) s (.error e) s' := by
  refine hp.attempt.bind_comes ?_
  simp only [he, Bool.false_eq_true, if_false]
  exact raise e s'

/-- What every call of the program keeps holds at the end. -/
theorem keeps {A : Op → Prop} {K : Shared → Prop} (hp : Comes i p s r s') (huses : p.Uses A)
    (hK : ∀ o ch l s, A o → K s → K (o.exec i ch l s).2.2) (h : K s) : K s' := by
  let env : Environment Op Choice Unit := ⟨fun _ _ => {}, fun _ _ => ()⟩
  obtain ⟨_, _, hends⟩ := hp Unit env (fun _ _ => rfl) () {}
  exact hends.keeps_of_uses (P := fun t => K t.2.2) (fun o t ho ht => hK o _ _ _ ho ht) huses h

theorem dags (hp : Comes i p s r s') : s'.dags = s.dags := by
  refine hp.keeps (K := fun s₁ => s₁.dags = s.dags) p.uses_true (fun o ch l s₁ _ h => ?_) rfl
  exact (Op.exec_dags o i ch l s₁).trans h

theorem engine (hp : Comes i p s r s') : s'.engine = s.engine := by
  refine hp.keeps (K := fun s₁ => s₁.engine = s.engine) p.uses_true (fun o ch l s₁ _ h => ?_) rfl
  exact (Op.exec_engine o i ch l s₁).trans h

/-- A loop over items of which some make it raise, with an invariant of the items done and to
come. -/
theorem forEach {body : γ → P Unit} {xs : List γ} (Good : γ → Prop)
    (I : List γ → List γ → Shared → Prop)
    (hgood : ∀ done x xs s, I done (x :: xs) s → Good x → ∃ s', Yields i (body x) s () s' ∧
      I (done ++ [x]) xs s')
    (hbad : ∀ done x xs s, I done (x :: xs) s → ¬Good x → ∃ s', Comes i (body x) s (.error e) s')
    (hI : I [] xs s) :
    ∃ r s', Comes i (Prog.forEach xs body) s r s' ∧
      ((∀ x ∈ xs, Good x) → r = .ok () ∧ I xs [] s') ∧ (r = .ok () → ∀ x ∈ xs, Good x) := by
  suffices ∀ done, I done xs s → ∃ r s', Comes i (Prog.forEach xs body) s r s' ∧
      ((∀ x ∈ xs, Good x) → r = .ok () ∧ I (done ++ xs) [] s') ∧ (r = .ok () → ∀ x ∈ xs, Good x) from
    this [] hI
  clear hI
  intro done hI
  induction xs generalizing done s with
  | nil =>
    refine ⟨.ok (), s, Yields.ret () s, fun _ => ⟨rfl, ?_⟩, fun _ x hx => nomatch hx⟩
    rwa [List.append_nil]
  | cons x xs ih =>
    by_cases hx : Good x
    · obtain ⟨s₁, h1, hI₁⟩ := hgood done x xs s hI hx
      obtain ⟨r, s₂, h2, hall, hok⟩ := ih _ hI₁
      refine ⟨r, s₂, h1.bind_comes h2, fun h => ?_, fun h => List.forall_mem_cons.mpr ⟨hx, hok h⟩⟩
      rw [← List.append_cons] at hall
      exact hall (List.forall_mem_cons.mp h).2
    · obtain ⟨s₁, h1⟩ := hbad done x xs s hI hx
      refine ⟨.error e, s₁, h1.bind_error, fun h => ?_, fun h => nomatch h⟩
      exact absurd (h x List.mem_cons_self) hx

end Comes

/-- A program that runs alone leaves one state. -/
theorem Yields.unique {i : ℕ} {α : Type} {p : P α} {a b : α} {s s₁ s₂ : Shared}
    (h1 : Yields i p s a s₁) (h2 : Yields i p s b s₂) : a = b ∧ s₁ = s₂ := by
  obtain ⟨hr, hs⟩ := Comes.unique h1 h2
  exact ⟨Except.ok.inj hr, hs⟩

/-- The machine takes the thread to its end by steps of this thread only. -/
theorem Yields.run {i : ℕ} {σ : State} {l : Loc} {p : P JobResult} {a : JobResult} {s' : Shared}
    (hi : σ.threads[i]? = some (l, p)) (h : Yields i p σ.shared a s') :
    ∃ (chs : List Choice) (l' : Loc), system.run σ (chs.map (Action.step i)) =
      some ⟨s', σ.threads.set i (l', .ret a)⟩ := by
  let env : Environment Op Choice Unit := ⟨fun _ _ => {}, fun _ _ => ()⟩
  obtain ⟨_, l', hends⟩ := h Unit env (fun _ _ => rfl) () l
  obtain ⟨chs, hrun⟩ := Machine.run_of_ends hi hends
  exact ⟨chs, l', hrun⟩

/-! ### Transactions -/

/-- Thread `i` is in a transaction begun in the tables of `s`, with the given writes. -/
structure Inside (i : ℕ) (s s' : Shared) (writes : List Row) : Prop where
  store : s'.store = s.store
  opened : s'.opened (.thread i) = [(i, ⟨s.store.now, writes⟩)]
  engine : s'.engine = s.engine

namespace Inside

variable {i : ℕ} {s s₁ s₂ : Shared} {w : List Row}

/-- A thread without an open transaction begins one. -/
theorem begin (hopen : s.opened (.thread i) = []) : Inside i s (s.beginTx i (.thread i)) [] := by
  refine ⟨rfl, ?_, rfl⟩
  rw [Shared.beginTx, hopen]
  exact Function.update_self _ _ _

variable (s₂) in
/-- What only touches the memory and the clock stays inside. -/
theorem congr (h : Inside i s s₁ w) (hstore : s₂.store = s₁.store) (hopened : s₂.opened = s₁.opened)
    (hengine : s₂.engine = s₁.engine) : Inside i s s₂ w :=
  ⟨hstore.trans h.store, by rw [hopened, h.opened], hengine.trans h.engine⟩

theorem reads (h : Inside i s s₁ w) : s₁.reads i = s.db := by
  rw [Shared.reads, Shared.snapshot, h.opened, h.store]
  exact Store.asOf_now s.store

theorem tx? (h : Inside i s s₁ w) : s₁.tx? i (.thread i) = some ⟨s.store.now, w⟩ :=
  Shared.tx?_of_opened h.opened

/-- Nobody else has written. -/
theorem not_conflict (h : Inside i s s₁ w) : ¬s₁.store.Conflict s.store.now w := by
  rw [h.store]
  exact not_conflict_now w

/-- A select reads the tables. -/
theorem select (h : Inside i s s₁ w) {q : Query} (hq : q.fails s.engine = false) :
    Yields i (P.call (.select none q)) s₁ (q.eval s.engine s.db) s₁ := by
  have hselect := Yields.select (i := i) (h.engine.symm ▸ hq)
  rwa [h.reads, h.engine] at hselect

/-- An insert is added to the writes. -/
theorem upsertRows (h : Inside i s s₁ w) (rows : List Row) :
    ∃ s₂, Yields i (P.upsertRows rows none) s₁ () s₂ ∧ Inside i s s₂ (w ++ rows) ∧
      s₂.mem = s₁.mem ∧ s₂.clock = s₁.clock := by
  refine ⟨s₁.insert i (.thread i) rows, Yields.op fun ch l hch => ⟨l, ?_⟩, ⟨?_, ?_, ?_⟩, ?_, ?_⟩
  · simp only [Op.exec, hch]
    rfl
  all_goals rw [Shared.insert, h.opened]
  · exact h.store
  · exact Function.update_self _ _ _
  · exact h.engine

end Inside

/-- The given rows were committed in one transaction, if there are any, and none is open. -/
structure Applied (i : ℕ) (s : Shared) (writes : List Row) (s' : Shared) : Prop where
  store : s'.store = if writes = [] then s.store else s.store.append ⟨i, true, s.store.now, writes⟩
  opened : s'.opened (.thread i) = []

theorem Applied.db {i : ℕ} {s s' : Shared} {w : List Row} (h : Applied i s w s') :
    s'.db = s.db.upsertAll w := by
  rw [Shared.db, h.store]
  split_ifs with hw
  · rw [hw]
    rfl
  · exact Store.current_append _ _

/-- A transaction commits what its body wrote. -/
theorem Yields.transaction_own {α : Type} {i : ℕ} {s s₁ : Shared} {body : P α} {a : α} {w : List Row}
    {ytClient : Option Client} (hc : Op.resolve ytClient i = .thread i)
    (hbody : Yields i body (s.beginTx i (.thread i)) a s₁) (hin : Inside i s s₁ w) :
    ∃ s', Yields i (P.transaction ytClient body) s a s' ∧ Applied i s w s' ∧ s'.mem = s₁.mem := by
  have hbegin : Yields i (P.call (.beginTx ytClient)) s () (s.beginTx i (.thread i)) := by
    refine op fun ch l hch => ⟨l, ?_⟩
    simp only [Op.exec, hch, hc]
  have htx := hin.tx?
  have hended := Shared.opened_endTx hin.opened
  have hcommit : ∃ s', Yields i (P.call (.commitTx ytClient)) s₁ () s' ∧ Applied i s w s' ∧
      s'.mem = s₁.mem := by
    by_cases hw : w = []
    · refine ⟨s₁.endTx i (.thread i), op fun ch l hch => ⟨l, ?_⟩, ⟨?_, hended⟩, rfl⟩
      · simp only [Op.exec, hc, htx, hch, hw, if_true]
      · rw [if_pos hw]
        exact hin.store
    · have hfree := hin.not_conflict
      refine ⟨(s₁.endTx i (.thread i)).commit ⟨i, true, s.store.now, w⟩,
        op fun ch l hch => ⟨l, ?_⟩, ⟨?_, hended⟩, rfl⟩
      · simp only [Op.exec, hc, htx, hch, hw, hfree, if_false]
      · rw [if_neg hw, ← hin.store]
        rfl
  obtain ⟨s', h2, happlied, hmem⟩ := hcommit
  exact ⟨s', hbegin.bind (hbody.attempt.bind (h2.bind (ret a s'))), happlied, hmem⟩

/-- A transaction whose body raises is given up. -/
theorem Comes.transaction {α : Type} {i : ℕ} {s s₁ : Shared} {body : P α} {e : Exn}
    (hbody : Comes i body (s.beginTx i (.thread i)) (.error e) s₁) :
    Comes i (P.transaction none body) s (.error e) (s₁.endTx i (.thread i)) := by
  have hbegin : Yields i (P.call (.beginTx none)) s () (s.beginTx i (.thread i)) := by
    refine Yields.op fun ch l hch => ⟨l, ?_⟩
    simp only [Op.exec, hch]
    rfl
  have habort : Yields i (P.call (.abortTx none)) s₁ () (s₁.endTx i (.thread i)) :=
    Yields.op fun ch l hch => ⟨l, rfl⟩
  exact hbegin.bind_comes (hbody.attempt.bind_comes (habort.bind_comes (Comes.raise e _)))

/-- A transaction on the client of the thread. -/
theorem Yields.transaction {α : Type} {i : ℕ} {s s₁ : Shared} {body : P α} {a : α} {w : List Row}
    (hbody : Yields i body (s.beginTx i (.thread i)) a s₁) (hin : Inside i s s₁ w) :
    ∃ s', Yields i (P.transaction none body) s a s' ∧ Applied i s w s' ∧ s'.mem = s₁.mem :=
  transaction_own rfl hbody hin

end YtScheduler
