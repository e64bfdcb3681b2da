import YtScheduler.Threads.Machine

/-! A program that runs alone: no other thread takes a step between its calls. Its
outcome is then a function of the state it starts in, outcomes compose along the
program, and the whole is one run of the machine in which only that thread steps. -/

namespace YtScheduler.Threads

variable {Op : Type} {Ret : Op → Type} {ε Loc Shared Choice Entry α β γ St : Type}

namespace Prog

/-- The outcome of a program whose calls act by `step`, and the state it leaves. -/
def eval (step : (o : Op) → St → Except ε (Ret o) × St) : Prog Op Ret ε α → St → Except ε α × St
  | .ret a, s => (.ok a, s)
  | .raise e, s => (.error e, s)
  | .call o k, s => (k (step o s).1).eval step (step o s).2

/-- What is left of a program that came to an outcome. -/
def ended : Except ε α → Prog Op Ret ε α
  | .ok a => .ret a
  | .error e => .raise e

variable (step : (o : Op) → St → Except ε (Ret o) × St)

/-- `p` started in `s` comes to `r` and leaves `s'`. -/
def Ends (p : Prog Op Ret ε α) (s : St) (r : Except ε α) (s' : St) : Prop := p.eval step s = (r, s')

variable {step} {p : Prog Op Ret ε α} {f : α → Prog Op Ret ε β} {s s' s'' s₁ : St}

theorem ends_ret (a : α) (s : St) : Ends step (.ret a : Prog Op Ret ε α) s (.ok a) s := rfl

theorem ends_op {o : Op} {r : Except ε (Ret o)} (h : step o s = (r, s')) :
    Ends step (op o) s r s' := by
  rw [Ends, op, eval, h]
  cases r <;> rfl

theorem Ends.bind {a : α} {r : Except ε β} (hp : Ends step p s (.ok a) s')
    (hf : Ends step (f a) s' r s'') : Ends step (p.bind f) s r s'' := by
  induction p generalizing s with
  | ret b => cases hp; exact hf
  | raise e => cases hp
  | call o k ih => exact ih _ hp

theorem Ends.bind_error {e : ε} (hp : Ends step p s (.error e) s') :
    Ends step (p.bind f) s (.error e) s' := by
  induction p generalizing s with
  | ret b => cases hp
  | raise e => cases hp; rfl
  | call o k ih => exact ih _ hp

theorem Ends.attempt {r : Except ε α} (hp : Ends step p s r s') :
    Ends step p.attempt s (.ok r) s' := by
  induction p generalizing s with
  | ret b => cases hp; rfl
  | raise e => cases hp; rfl
  | call o k ih => exact ih _ hp

theorem Ends.catching {a : α} {h : ε → Prog Op Ret ε α} (hp : Ends step p s (.ok a) s') :
    Ends step (p.catching h) s (.ok a) s' := hp.attempt.bind (ends_ret a s')

/-- A program comes to the same end where its calls are answered alike. -/
theorem Uses.eval_congr {step' : (o : Op) → St → Except ε (Ret o) × St} {Q : Op → Prop} (hp : p.Uses Q)
    (h : ∀ o s, Q o → step o s = step' o s) : p.eval step s = p.eval step' s := by
  induction p generalizing s with
  | ret a => rfl
  | raise e => rfl
  | call o k ih =>
    rw [eval, eval, h o s hp.1]
    exact ih _ (hp.2 _)

variable (step) in
/-- Every call of the program, made from `s` on, meets a condition where it is made. -/
def Sure (C : Op → St → Prop) : Prog Op Ret ε α → St → Prop
  | .ret _, _ => True
  | .raise _, _ => True
  | .call o k, s => C o s ∧ (k (step o s).1).Sure C (step o s).2

theorem ends_bind_iff {a : α} {r : Except ε β} (h : Ends step p s (.ok a) s₁) :
    Ends step (p.bind f) s r s' ↔ Ends step (f a) s₁ r s' := by
  refine ⟨fun hf => ?_, h.bind⟩
  have hany : Ends step (p.bind f) s ((f a).eval step s₁).1 ((f a).eval step s₁).2 := h.bind rfl
  exact hany.symm.trans hf

theorem ends_bind_cases {r : Except ε β} (h : Ends step (p.bind f) s r s') :
    (∃ a s₁, Ends step p s (.ok a) s₁ ∧ Ends step (f a) s₁ r s') ∨
      ∃ e, Ends step p s (.error e) s' ∧ r = .error e := by
  induction p generalizing s with
  | ret a => exact Or.inl ⟨a, s, rfl, h⟩
  | raise e =>
    cases h
    exact Or.inr ⟨e, rfl, rfl⟩
  | call o k ih => exact ih _ h

theorem ends_attempt_cases {r : Except ε (Except ε α)} (h : Ends step p.attempt s r s') :
    ∃ r', r = .ok r' ∧ Ends step p s r' s' := by
  induction p generalizing s with
  | ret a =>
    cases h
    exact ⟨_, rfl, rfl⟩
  | raise e =>
    cases h
    exact ⟨_, rfl, rfl⟩
  | call o k ih => exact ih _ h

theorem ends_op_iff {o : Op} {r : Except ε (Ret o)} :
    Ends step (op o) s r s' ↔ step o s = (r, s') := by
  refine ⟨fun h => ?_, ends_op⟩
  have hop : Ends step (op o) s (step o s).1 (step o s).2 := ends_op rfl
  exact hop.symm.trans h

section Sure

variable {C : Op → St → Prop} {Q : Op → Prop}

theorem sure_op {o : Op} : (op o : Prog Op Ret ε (Ret o)).Sure step C s ↔ C o s := by
  rw [op, Sure, and_iff_left]
  cases (step o s).1 <;> trivial

theorem sure_bind {a : α} (h : Ends step p s (.ok a) s₁) :
    (p.bind f).Sure step C s ↔ p.Sure step C s ∧ (f a).Sure step C s₁ := by
  induction p generalizing s with
  | ret b =>
    cases h
    exact (and_iff_right trivial).symm
  | raise e => cases h
  | call o k ih => exact (and_congr_right fun _ => ih _ h).trans and_assoc.symm

theorem sure_bind_error {e : ε} (h : Ends step p s (.error e) s₁) :
    (p.bind f).Sure step C s ↔ p.Sure step C s := by
  induction p generalizing s with
  | ret b => cases h
  | raise e => rfl
  | call o k ih => exact and_congr_right fun _ => ih _ h

theorem sure_attempt : p.attempt.Sure step C s ↔ p.Sure step C s := by
  induction p generalizing s with
  | ret b => rfl
  | raise e => rfl
  | call o k ih => exact and_congr_right fun _ => ih _

/-- A program all of whose possible calls meet a condition. -/
theorem Uses.sure (hu : p.Uses Q) (h : ∀ o s, Q o → C o s) : p.Sure step C s := by
  induction p generalizing s with
  | ret b => trivial
  | raise e => trivial
  | call o k ih => exact ⟨h o s hu.1, ih _ (hu.2 _)⟩

end Sure

/-! An exception handler that makes no call. -/

section Catching

variable {C : Op → St → Prop} {hd : ε → Prog Op Ret ε α}

theorem ends_catching (hh : ∀ e, (hd e).Uses fun _ => False) {r : Except ε α}
    (hp : Ends step p s r s₁) : ∃ r', Ends step (p.catching hd) s r' s₁ := by
  cases r with
  | ok a => exact ⟨_, hp.catching⟩
  | error e =>
    have hstay : ∀ q : Prog Op Ret ε α, (q.Uses fun _ => False) → ∃ r', Ends step q s₁ r' s₁ := by
      intro q hq
      cases q with
      | ret a => exact ⟨_, rfl⟩
      | raise e => exact ⟨_, rfl⟩
      | call o k => exact hq.1.elim
    obtain ⟨r', hr'⟩ := hstay (hd e) (hh e)
    exact ⟨r', hp.attempt.bind hr'⟩

theorem sure_catching (hh : ∀ e, (hd e).Uses fun _ => False) :
    (p.catching hd).Sure step C s ↔ p.Sure step C s := by
  have hp : Ends step p s (p.eval step s).1 (p.eval step s).2 := rfl
  rw [catching, sure_bind hp.attempt, sure_attempt, and_iff_left]
  cases (p.eval step s).1 with
  | ok a => trivial
  | error e => exact (hh e).sure fun _ _ hf => hf.elim

end Catching

/-- What every call that meets a condition keeps, a program of such calls keeps. -/
theorem Ends.keeps_of_sure {Q : Op → Prop} {C : Op → St → Prop} {P : St → Prop} {r : Except ε α}
    (h : ∀ o s, Q o → C o s → P s → P (step o s).2) (hp : Ends step p s r s') (hu : p.Uses Q)
    (hs : p.Sure step C s) (h0 : P s) : P s' := by
  induction p generalizing s with
  | ret a => cases hp; exact h0
  | raise e => cases hp; exact h0
  | call o k ih => exact ih _ hp (hu.2 _) hs.2 (h o s hu.1 hs.1 h0)

/-- What the possible calls of a program keep, it keeps. -/
theorem Ends.keeps_of_uses {Q : Op → Prop} {P : St → Prop} {r : Except ε α}
    (h : ∀ o s, Q o → P s → P (step o s).2) (hp : Ends step p s r s') (hu : p.Uses Q) (h0 : P s) :
    P s' := by
  induction p generalizing s with
  | ret a => cases hp; exact h0
  | raise e => cases hp; exact h0
  | call o k ih => exact ih _ hp (hu.2 _) (h o s hu.1 h0)

/-- What every call keeps, the whole program keeps. -/
theorem Ends.keeps {P : St → Prop} {r : Except ε α} (h : ∀ o s, P s → P (step o s).2)
    (hp : Ends step p s r s') (h0 : P s) : P s' := by
  induction p generalizing s with
  | ret a => cases hp; exact h0
  | raise e => cases hp; exact h0
  | call o k ih => exact ih _ hp (h o s h0)

end Prog

/-! ### As a run of the machine -/

/-- An environment that makes its choices by a state of its own. -/
structure Environment (Op Choice κ : Type) where
  choose : κ → Op → Choice
  next : κ → Op → κ

namespace Machine

variable {κ : Type} (M : Machine Op Ret ε Loc Shared Choice Entry α)

/-- One call of thread `i`, with the choice of the environment. -/
def alone (i : ℕ) (env : Environment Op Choice κ) (o : Op) (t : κ × Loc × Shared) :
    Except ε (Ret o) × (κ × Loc × Shared) :=
  let out := M.exec o i (env.choose t.1 o) t.2.1 t.2.2
  (out.1, (env.next t.1 o, out.2))

variable {M} {i : ℕ} {env : Environment Op Choice κ} {p : Prog Op Ret ε α}

/-- A program that ends alone is run to its end by the steps of its thread. -/
theorem run_of_ends {σ : Sys Op Ret ε Loc Shared α} {l l' : Loc} {s' : Shared} {k k' : κ}
    {r : Except ε α} (hi : σ.threads[i]? = some (l, p))
    (h : p.Ends (M.alone i env) (k, l, σ.shared) r (k', l', s')) :
    ∃ chs : List Choice, M.run σ (chs.map (Action.step i)) =
      some ⟨s', σ.threads.set i (l', Prog.ended r)⟩ := by
  obtain ⟨hlt, hget⟩ := List.getElem?_eq_some_iff.mp hi
  induction p generalizing σ l k with
  | ret a =>
    cases h
    refine ⟨[], ?_⟩
    rw [Prog.ended, ← hget, List.set_getElem_self]
    rfl
  | raise e =>
    cases h
    refine ⟨[], ?_⟩
    rw [Prog.ended, ← hget, List.set_getElem_self]
    rfl
  | call o c ih =>
    let out := M.exec o i (env.choose k o) l σ.shared
    let σ₁ : Sys Op Ret ε Loc Shared α := ⟨out.2.2, σ.threads.set i (out.2.1, c out.1)⟩
    have hlt₁ : i < σ₁.threads.length := by rwa [List.length_set]
    have hget₁ : σ₁.threads[i] = (out.2.1, c out.1) := List.getElem_set_self hlt₁
    obtain ⟨chs, hrun⟩ := ih out.1 (List.getElem?_eq_some_iff.mpr ⟨hlt₁, hget₁⟩) h hlt₁ hget₁
    refine ⟨env.choose k o :: chs, ?_⟩
    rw [List.map_cons, run, act, hi]
    simpa only [σ₁, out, List.set_set, Option.bind_some] using hrun

end Machine

end YtScheduler.Threads
