import YtScheduler.Services.Calls
import YtScheduler.Services.Passes
import YtScheduler.System.Accesses

/-! A transaction that does not commit, opened by a thread that runs alone. The tables
come out as they were; the objects come out as the statements inside left them. -/

namespace YtScheduler

open Tablet Threads

/-- Every commit is answered alike: it may go on, or fails. -/
def Answers {κ : Type} (commit : Option Exn) (env : Environment Op Choice κ) : Prop :=
  ∀ k c, (env.choose k (.commitTx c)).fail = commit

/-- The statements of a transaction: none of them opens or ends one, and the writes go through the
client of the thread. -/
def Op.Joins : Op → Prop
  | .beginTx _ | .commitTx _ | .abortTx _ => False
  | .insert c _ => c = none
  | _ => True

theorem Op.Joins.own {o : Op} (h : o.Joins) : o.Own := by
  cases o with
  | beginTx c | commitTx c | abortTx c => exact h.elim
  | insert c rows => exact h
  | _ => trivial

section

variable {i : ℕ} {s s₁ : Shared} {w : List Row} {o : Op}

/-- A statement stays inside the transaction. -/
theorem Inside.exec (h : Inside i s s₁ w) (ho : o.Joins) (ch : Choice) (l : Loc) :
    ∃ w', Inside i s (o.exec i ch l s₁).2.2 w' := by
  have hengine := (Op.exec_engine o i ch l s₁).trans h.engine
  cases o with
  | beginTx c | commitTx c | abortTx c => exact absurd ho id
  | insert c rows =>
    obtain rfl : c = none := ho
    cases hfail : ch.fail with
    | some e => exact ⟨w, by simpa only [Op.exec, hfail] using h⟩
    | none =>
      refine ⟨w ++ rows, ?_, ?_, hengine⟩
      all_goals simp only [Op.exec, hfail, Op.resolve, Option.getD_none, Shared.insert, h.opened]
      · exact h.store
      · exact Function.update_self _ _ _
  | _ =>
    refine ⟨w, ?_, (Op.exec_opened_of_ne (by simp [Op.touches]) ch l s₁).trans h.opened, hengine⟩
    rcases Op.exec_store _ i ch l s₁ with hs | ⟨c, rows, he, _⟩ | ⟨c, tx, he, _⟩
    · exact hs.trans h.store
    · cases he
    · cases he

/-- The end of a transaction that was committed or given up. -/
theorem Inside.ended (h : Inside i s s₁ w) : (s₁.endTx i (.thread i)).store = s.store := h.store

/-- Nobody else writes, so a commit fails only if the environment fails it. -/
theorem Inside.commit_error (h : Inside i s s₁ w) {ch : Choice} {l l' : Loc} {e : Exn} {s' : Shared}
    (hcommit : (Op.commitTx none).exec i ch l s₁ = (.error e, l', s')) :
    ch.fail = some e ∧ s' = s₁.endTx i (.thread i) := by
  have htx : s₁.tx? i (Op.resolve none i) = some ⟨s.store.now, w⟩ := h.tx?
  have hfree := h.not_conflict
  simp only [Op.exec, htx, hfree, if_false] at hcommit
  cases hfail : ch.fail with
  | some e' =>
    rw [hfail] at hcommit
    cases hcommit
    exact ⟨rfl, rfl⟩
  | none =>
    rw [hfail] at hcommit
    split_ifs at hcommit
    all_goals cases hcommit

end

section

variable {α κ : Type} {i : ℕ} {s s' : Shared} {env : Environment Op Choice κ} {k k' : κ} {l l' : Loc}

theorem exec_of_ends {o : Op} {r : Except Exn o.Ret}
    (h : (P.call o).Ends (system.alone i env) (k, l, s) r (k', l', s')) :
    o.exec i (env.choose k o) l s = (r, l', s') := by
  have hstep := Prog.ends_op_iff.mp h
  simp only [Machine.alone, Prod.mk.injEq] at hstep
  obtain ⟨rfl, -, hleft⟩ := hstep
  rw [← hleft]
  rfl

/-- How a transaction comes to raise: it does not begin, or a statement raises and it is given up, or
it is not committed. -/
theorem transaction_raises {body : P α} {e : Exn}
    (h : (P.transaction none body).Ends (system.alone i env) (k, l, s) (.error e) (k', l', s')) :
    s' = s ∨
    (∃ e' s₁, system.MayEnd i body (s.beginTx i (.thread i)) (.error e') s₁ ∧
      s' = s₁.endTx i (.thread i)) ∨
    ∃ a s₁ k₁ l₁, system.MayEnd i body (s.beginTx i (.thread i)) (.ok a) s₁ ∧
      (Op.commitTx none).exec i (env.choose k₁ (.commitTx none)) l₁ s₁ = (.error e, l', s') := by
  rcases Prog.ends_bind_cases h with ⟨_, ⟨k₁, l₁, s₀⟩, hbegin, hrest⟩ | ⟨e', hbegin, _⟩
  · have hbegun : s₀ = s.beginTx i (.thread i) := by
      have hexec := exec_of_ends hbegin
      simp only [Op.exec] at hexec
      split at hexec
      · cases hexec
      · cases hexec
        rfl
    subst hbegun
    rcases Prog.ends_bind_cases hrest with ⟨r, ⟨k₂, l₂, s₁⟩, hattempt, hend⟩ | ⟨e', hattempt, _⟩
    · obtain ⟨r', he, hbody⟩ := Prog.ends_attempt_cases hattempt
      cases he
      have hbody : system.MayEnd i body (s.beginTx i (.thread i)) r s₁ :=
        ⟨κ, env, k₁, k₂, l₁, l₂, hbody⟩
      cases r with
      | ok a =>
        refine Or.inr (Or.inr ⟨a, s₁, k₂, l₂, hbody, ?_⟩)
        rcases Prog.ends_bind_cases hend with ⟨_, _, _, hret⟩ | ⟨e', hcommit, he⟩
        · cases hret
        · cases he
          exact exec_of_ends hcommit
      | error e' =>
        refine Or.inr (Or.inl ⟨e', s₁, hbody, ?_⟩)
        rcases Prog.ends_bind_cases hend with ⟨_, ⟨k₃, l₃, s₃⟩, habort, hraise⟩ | ⟨_, habort, _⟩
        · cases hraise
          exact (congrArg (·.2.2) (exec_of_ends habort)).symm
        · exact (congrArg (·.2.2) (exec_of_ends habort)).symm
    · obtain ⟨r', he, _⟩ := Prog.ends_attempt_cases hattempt
      cases he
  · left
    have hexec := exec_of_ends hbegin
    simp only [Op.exec] at hexec
    split at hexec
    · exact (congrArg (·.2.2) hexec).symm
    · cases hexec

/-- Nothing fails but commits. -/
def failing (e : Exn) : Environment Op Choice Unit where
  choose _ o :=
    match o with
    | .commitTx _ => { fail := some e }
    | _ => {}
  next _ _ := ()

/-- Statements that go well and are not committed. -/
theorem Yields.commit_fails {body : P α} {a : α} {s₁ : Shared} {w : List Row}
    (hbody : Yields i body (s.beginTx i (.thread i)) a s₁) (hjoins : body.Uses Op.Joins)
    (hin : Inside i s s₁ w) (e : Exn) :
    ∃ l', (P.transaction none body).Ends (system.alone i (failing e)) ((), {}, s) (.error e)
      ((), l', s₁.endTx i (.thread i)) := by
  let env : Environment Op Choice Unit := ⟨fun _ _ => {}, fun _ _ => ()⟩
  obtain ⟨⟨⟩, l', hends⟩ := hbody Unit env (fun _ _ => rfl) () {}
  have hsame : ∀ (o : Op) t, o.Joins → system.alone i env o t = system.alone i (failing e) o t := by
    intro o t ho
    cases o with
    | commitTx c => exact absurd ho id
    | _ => rfl
  rw [Prog.Ends, hjoins.eval_congr hsame] at hends
  have hbegin : (P.call (.beginTx none)).Ends (system.alone i (failing e)) ((), {}, s) (.ok ())
      ((), {}, s.beginTx i (.thread i)) := Prog.ends_op rfl
  have htx : s₁.tx? i (Op.resolve none i) = some ⟨s.store.now, w⟩ := hin.tx?
  have hexec : (Op.commitTx none).exec i { fail := some e } l' s₁ =
      (.error e, l', s₁.endTx i (.thread i)) := by
    simp only [Op.exec, htx]
    rfl
  have hcommit : (P.call (.commitTx none)).Ends (system.alone i (failing e)) ((), l', s₁) (.error e)
      ((), l', s₁.endTx i (.thread i)) :=
    Prog.ends_op (congrArg (fun out => (out.1, ((), out.2))) hexec)
  exact ⟨l', hbegin.bind ((Prog.Ends.attempt hends).bind hcommit.bind_error)⟩

end

/-! ### The object a call is made on -/

/-- Whenever the call raises, while commits are answered with `commit`, the tables and the DagRun
object are as they were. -/
def LeavesNoTrace {α : Type} (i : ℕ) (commit : Option Exn) (self : Ref) (p : P α) (s : Shared) : Prop :=
  ∀ (κ : Type) (env : Environment Op Choice κ), Answers commit env → ∀ k l e k' l' s',
    p.Ends (system.alone i env) (k, l, s) (.error e) (k', l', s') →
      s'.store = s.store ∧ s'.mem.dagRuns[self]? = s.mem.dagRuns[self]?

/-- The statements and the object: they leave it alone where they raise, and where they do not and a
commit may fail. -/
theorem leavesNoTrace_of_meets {α : Type} {i : ℕ} {commit : Option Exn} {self : Ref} {body : P α}
    {s : Shared} (hopen : s.opened (.thread i) = [])
    (hjoins : body.Uses Op.Joins)
    (hbody : system.Meets i (· = s.beginTx i (.thread i)) body fun r s₁ =>
      (∀ a, r = .ok a → commit ≠ none → s₁.mem.dagRuns[self]? = s.mem.dagRuns[self]?) ∧
        ∀ e, r = .error e → s₁.mem.dagRuns[self]? = s.mem.dagRuns[self]?) :
    LeavesNoTrace i commit self (P.transaction none body) s := by
  have hinside : system.Meets i (· = s.beginTx i (.thread i)) body
      fun _ s₁ => ∃ w, Inside i s s₁ w := by
    have hretains : system.Retains i (fun s₁ => ∃ w, Inside i s s₁ w) body fun _ => True :=
      .of_uses hjoins fun o ho ch l s₁ ⟨w, hw⟩ => hw.exec ho ch l
    refine Machine.Meets.mono hretains ?_ fun r s₁ h => h.1
    rintro s₁ rfl
    exact ⟨[], Inside.begin hopen⟩
  rintro κ env hcommit k l e k' l' s' hends
  rcases transaction_raises hends with rfl | ⟨e', s₁, hmay, rfl⟩ | ⟨a, s₁, k₁, l₁, hmay, hexec⟩
  · exact ⟨rfl, rfl⟩
  · obtain ⟨w, hw⟩ := hinside rfl hmay
    exact ⟨hw.ended, (hbody rfl hmay).2 e' rfl⟩
  · obtain ⟨w, hw⟩ := hinside rfl hmay
    obtain ⟨hfail, rfl⟩ := hw.commit_error hexec
    refine ⟨hw.ended, (hbody rfl hmay).1 a rfl ?_⟩
    rw [← hcommit k₁ none, hfail]
    simp

end YtScheduler
