import YtScheduler.Services.Passes

/-! A transaction that a thread running alone opens on some client, while the statements
inside may go through the client of the thread. On the client of the thread they take
part in the transaction, on any other one they commit on their own; the tables come out
the same. -/

namespace YtScheduler

open Tablet Threads

/-- Thread `i` is in a transaction on client `c` begun in the tables of `s`, and has written the
given rows. -/
inductive Within (i : ℕ) (s : Shared) (c : Client) (s' : Shared) (writes : List Row) : Prop
  | joined (hc : c = .thread i) (h : Inside i s s' writes)
  | apart (hc : c ≠ .thread i) (hopen : s'.opened (.thread i) = [])
      (htx : s'.opened c = (i, ⟨s.store.now, []⟩) :: s.opened c)
      (hext : s.store.Extends s'.store) (hdb : s'.db = s.db.upsertAll writes)
      (hengine : s'.engine = s.engine)

section

variable {i : ℕ} {s s₁ : Shared} {c : Client} {w : List Row}

/-- A statement outside any transaction commits on its own. -/
theorem Yields.upsertRows (hopen : s.opened (.thread i) = []) (rows : List Row) :
    Yields i (P.upsertRows rows none) s () (s.commit ⟨i, false, s.store.now, rows⟩) := by
  refine op fun ch l hch => ⟨l, ?_⟩
  simp only [Op.exec, hch, Op.resolve, Option.getD_none, Shared.insert, hopen]

namespace Within

theorem begin (hopen : s.opened (.thread i) = []) (c : Client) :
    Within i s c (s.beginTx i c) [] := by
  by_cases hc : c = .thread i
  · subst hc
    exact .joined rfl (Inside.begin hopen)
  · refine .apart hc ?_ (Function.update_self _ _ _) (Store.Extends.refl s.store) rfl rfl
    exact (Function.update_of_ne (Ne.symm hc) _ _).trans hopen

variable (s₂ : Shared) in
/-- What only touches the memory, the clock and the ids stays within. -/
theorem congr (h : Within i s c s₁ w) (hstore : s₂.store = s₁.store)
    (hopened : s₂.opened = s₁.opened) (hengine : s₂.engine = s₁.engine) : Within i s c s₂ w := by
  cases h with
  | joined hc h => exact .joined hc (h.congr s₂ hstore hopened hengine)
  | apart hc hopen htx hext hdb hh =>
    refine .apart hc ?_ ?_ ?_ ?_ (hengine.trans hh)
    · rw [hopened, hopen]
    · rw [hopened, htx]
    · rwa [hstore]
    · rwa [Shared.db, hstore]

/-- Before the first write, a select through either client reads the tables. -/
theorem reads (h : Within i s c s₁ []) {cl : Client} (hcl : cl = c ∨ cl = .thread i) :
    s₁.store.asOf (s₁.snapshot cl) = s.db := by
  cases h with
  | joined hc h =>
    subst hc
    rw [show cl = .thread i by simpa using hcl]
    exact h.reads
  | apart hc hopen htx hext hdb _ =>
    rcases hcl with rfl | rfl
    · rw [Shared.snapshot, htx, hext.asOf_eq le_rfl, Store.asOf_now]
    · rw [Shared.snapshot, hopen, Store.asOf_now]
      exact hdb

theorem select (h : Within i s c s₁ []) {ytClient : Option Client}
    (hclient : Op.resolve ytClient i = c ∨ Op.resolve ytClient i = .thread i) {q : Query}
    (hq : q.fails s.engine = false) :
    Yields i (P.call (.select ytClient q)) s₁ (q.eval s.engine s.db) s₁ := by
  have hengine : s₁.engine = s.engine := by
    cases h with
    | joined _ h => exact h.engine
    | apart _ _ _ _ _ hh => exact hh
  refine Yields.op fun ch l hch => ⟨{ l with reads := s₁.snapshot (Op.resolve ytClient i) :: l.reads }, ?_⟩
  simp only [Op.exec, hch, hq, h.reads hclient, hengine]
  rfl

theorem upsertRows (h : Within i s c s₁ w) (rows : List Row) :
    ∃ s₂, Yields i (P.upsertRows rows none) s₁ () s₂ ∧ Within i s c s₂ (w ++ rows) ∧
      s₂.mem = s₁.mem ∧ s₂.clock = s₁.clock := by
  cases h with
  | joined hc h =>
    obtain ⟨s₂, hupsert, h₂, hmem, hclock⟩ := h.upsertRows rows
    exact ⟨s₂, hupsert, .joined hc h₂, hmem, hclock⟩
  | apart hc hopen htx hext hdb hengine =>
    refine ⟨_, Yields.upsertRows hopen rows, .apart hc hopen htx ?_ ?_ hengine, rfl, rfl⟩
    · exact hext.trans (Store.Extends.append _ _)
    · rw [Table.upsertAll_append, ← hdb]
      rfl

end Within

/-- A transaction leaves the tables with what its body wrote. -/
theorem Within.transaction_on {α : Type} {body : P α} {a : α} {ytClient : Option Client}
    (h : Within i s (Op.resolve ytClient i) s₁ w)
    (hbody : Yields i body (s.beginTx i (Op.resolve ytClient i)) a s₁) :
    ∃ s', Yields i (P.transaction ytClient body) s a s' ∧ s'.db = s.db.upsertAll w ∧
      s'.opened (.thread i) = [] ∧ s'.mem = s₁.mem := by
  cases h with
  | joined hc h =>
    rw [hc] at hbody
    obtain ⟨s', htx, happlied, hmem⟩ := Yields.transaction_own hc hbody h
    exact ⟨s', htx, happlied.db, happlied.opened, hmem⟩
  | apart hc hopen htx hext hdb _ =>
    have hbegin : Yields i (P.call (.beginTx ytClient)) s () (s.beginTx i (Op.resolve ytClient i)) := by
      refine Yields.op fun ch l hch => ⟨l, ?_⟩
      simp only [Op.exec, hch]
    have hcommit : Yields i (P.call (.commitTx ytClient)) s₁ () (s₁.endTx i (Op.resolve ytClient i)) := by
      refine Yields.op fun ch l hch => ⟨l, ?_⟩
      have hmine : s₁.tx? i (Op.resolve ytClient i) = some ⟨s.store.now, []⟩ := by
        simp [Shared.tx?, htx]
      simp only [Op.exec, hmine, hch, if_true]
    refine ⟨_, hbegin.bind (hbody.attempt.bind (hcommit.bind (Yields.ret a _))), hdb, ?_, rfl⟩
    exact (Function.update_of_ne (Ne.symm hc) _ _).trans hopen

end

end YtScheduler
