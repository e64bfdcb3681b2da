import Mathlib.Data.Nat.Notation

/-! Blocks of statements that may return and raise. An act changes a state and gives a value
or an exception. A block falls through, returns a value, or raises; it relates the
state before to its completion and the state after, so that a loop without an end has
neither. -/

namespace YtScheduler.Blocks

variable {σ τ ε α ρ : Type}

def Act (σ ε α : Type) := σ → Except ε α × σ

instance : Monad (Act σ ε) where
  pure a s := (.ok a, s)
  bind x f s :=
    match x s with
    | (.ok a, s') => f a s'
    | (.error e, s') => (.error e, s')

namespace Act

def raise (e : ε) : Act σ ε α := fun s => (.error e, s)

/-- `try` around an act, with the exceptions that are caught. -/
def catching (a : Act σ ε α) (catches : ε → Bool) (handler : ε → Act σ ε α) : Act σ ε α := fun s =>
  match a s with
  | (.ok v, s') => (.ok v, s')
  | (.error e, s') => if catches e then handler e s' else (.error e, s')

end Act

/-- How a block ends. -/
inductive Completion (ε ρ : Type)
  | falls
  | returns (v : ρ)
  | raises (e : ε)

abbrev Block (σ ε ρ : Type) := σ → Completion ε ρ → σ → Prop

/-- A part of a larger state. -/
structure Part (τ σ : Type) where
  get : τ → σ
  set : σ → τ → τ

/-- An act on a part of the state. -/
def Act.on (p : Part τ σ) (a : Act σ ε α) : Act τ ε α := fun s =>
  let (r, s') := a (p.get s)
  (r, p.set s' s)

/-- An act as a statement. -/
def act (a : Act σ ε Unit) : Block σ ε ρ := fun s r t =>
  match a s with
  | (.ok _, s') => r = .falls ∧ t = s'
  | (.error e, s') => r = .raises e ∧ t = s'

/-- An assignment. -/
def assign (f : σ → σ) : Block σ ε ρ := fun s r t => r = .falls ∧ t = f s

def raise (e : ε) : Block σ ε ρ := fun s r t => r = .raises e ∧ t = s

/-- `return`. -/
def ret (f : σ → ρ) : Block σ ε ρ := fun s r t => r = .returns (f s) ∧ t = s

def seq (b c : Block σ ε ρ) : Block σ ε ρ := fun s r t =>
  (∃ s', b s .falls s' ∧ c s' r t) ∨ (r ≠ .falls ∧ b s r t)

/-- `try` with the handlers of the exceptions that are caught. -/
def tryExcept (b : Block σ ε ρ) (handler : ε → Option (Block σ ε ρ)) : Block σ ε ρ := fun s r t =>
  (b s r t ∧ ∀ e, r = .raises e → handler e = none) ∨
    ∃ e s' h, b s (.raises e) s' ∧ handler e = some h ∧ h s' r t

/-- What `finally` leaves of the completion before it. -/
def Completion.after (r : Completion ε ρ) : Completion ε ρ → Completion ε ρ
  | .falls => r
  | r' => r'

/-- `try` with a `finally`, whose own return or exception replaces the one before. -/
def tryFinally (b f : Block σ ε ρ) : Block σ ε ρ := fun s r t =>
  ∃ r₁ s' r₂, b s r₁ s' ∧ f s' r₂ t ∧ r = r₁.after r₂

/-- `while cond: body`. -/
inductive whileDo (cond : Act σ ε Bool) (body : Act σ ε Unit) : Block σ ε ρ
  | done {s t} : cond s = (.ok false, t) → whileDo cond body s .falls t
  | stuck {s t e} : cond s = (.error e, t) → whileDo cond body s (.raises e) t
  | next {s s₁ s₂ r t} : cond s = (.ok true, s₁) → body s₁ = (.ok (), s₂) →
      whileDo cond body s₂ r t → whileDo cond body s r t
  | fails {s s₁ t e} : cond s = (.ok true, s₁) → body s₁ = (.error e, t) →
      whileDo cond body s (.raises e) t

/-- A number of full iterations. -/
inductive Rounds (cond : Act σ ε Bool) (body : Act σ ε Unit) : ℕ → σ → σ → Prop
  | zero {s} : Rounds cond body 0 s s
  | succ {n s s₁ s₂ t} : cond s = (.ok true, s₁) → body s₁ = (.ok (), s₂) →
      Rounds cond body n s₂ t → Rounds cond body (n + 1) s t

/-- A call on a part of the state, with what is done with its value; a function that falls off its
end gives `none`. -/
def call (p : Part τ σ) (b : Block σ ε (Option α)) (store : Option α → τ → τ) : Block τ ε ρ :=
  fun s r t => ∃ r' s', b (p.get s) r' s' ∧
    match r' with
    | .falls => r = .falls ∧ t = store none (p.set s' s)
    | .returns v => r = .falls ∧ t = store v (p.set s' s)
    | .raises e => r = .raises e ∧ t = p.set s' s

variable {s t : σ} {r : Completion ε ρ} {e : ε}

theorem seq_assign {f : σ → σ} {c : Block σ ε ρ} : seq (assign f) c s r t ↔ c (f s) r t := by
  constructor
  · rintro (⟨s', ⟨-, rfl⟩, hc⟩ | ⟨hne, hr, -⟩)
    · exact hc
    · exact absurd hr hne
  · intro hc
    exact Or.inl ⟨f s, ⟨rfl, rfl⟩, hc⟩

theorem act_falls {a : Act σ ε Unit} : act (ρ := ρ) a s .falls t ↔ a s = (.ok (), t) := by
  rw [act]
  rcases a s with ⟨_ | _, s'⟩
  · simp
  · simp [eq_comm]

theorem act_raises {a : Act σ ε Unit} : act (ρ := ρ) a s (.raises e) t ↔ a s = (.error e, t) := by
  rw [act]
  rcases a s with ⟨_ | _, s'⟩
  · simp [eq_comm]
  · simp

theorem act_ends (a : Act σ ε Unit) (s : σ) : ∃ r t, act (ρ := ρ) a s r t := by
  rcases ha : a s with ⟨_ | _, s'⟩
  · exact ⟨_, s', act_raises.mpr ha⟩
  · exact ⟨_, s', act_falls.mpr ha⟩

theorem act_state {a : Act σ ε Unit} (h : act (ρ := ρ) a s r t) : t = (a s).2 := by
  rcases ha : a s with ⟨_ | _, s'⟩
  · rw [act, ha] at h
    exact h.2
  · rw [act, ha] at h
    exact h.2

theorem seq_raises {b c : Block σ ε ρ} :
    seq b c s (.raises e) t ↔ b s (.raises e) t ∨ ∃ s', b s .falls s' ∧ c s' (.raises e) t := by
  rw [seq, or_comm, and_iff_right (by simp)]

/-- A `finally` that returns hides how the block before it ended. -/
theorem tryFinally_ret {b : Block σ ε ρ} {f : σ → ρ} :
    tryFinally b (ret f) s r t ↔ (∃ r', b s r' t) ∧ r = .returns (f t) := by
  constructor
  · rintro ⟨r₁, s', r₂, hb, ⟨rfl, rfl⟩, rfl⟩
    exact ⟨⟨r₁, hb⟩, rfl⟩
  · rintro ⟨⟨r', hb⟩, rfl⟩
    exact ⟨r', t, _, hb, ⟨rfl, rfl⟩, rfl⟩

theorem rounds_last {cond : Act σ ε Bool} {body : Act σ ε Unit} {n : ℕ} {s' : σ}
    (h : Rounds cond body n s s')
    (hlast : cond s' = (.error e, t) ∨
      ∃ s₁, cond s' = (.ok true, s₁) ∧ body s₁ = (.error e, t)) :
    whileDo (ρ := ρ) cond body s (.raises e) t := by
  induction h with
  | zero =>
    rcases hlast with hcond | ⟨s₁, hcond, hbody⟩
    · exact .stuck hcond
    · exact .fails hcond hbody
  | succ hcond hbody _ ih => exact .next hcond hbody (ih hlast)

/-- A loop raises what its condition or its body raises after some full iterations. -/
theorem whileDo_raises {cond : Act σ ε Bool} {body : Act σ ε Unit} :
    whileDo (ρ := ρ) cond body s (.raises e) t ↔ ∃ n s', Rounds cond body n s s' ∧
      (cond s' = (.error e, t) ∨
        ∃ s₁, cond s' = (.ok true, s₁) ∧ body s₁ = (.error e, t)) := by
  constructor
  · intro h
    generalize hr : Completion.raises e = r at h
    induction h with
    | done hcond => cases hr
    | stuck hcond =>
      cases hr
      exact ⟨0, _, .zero, Or.inl hcond⟩
    | next hcond hbody _ ih =>
      obtain ⟨n, s', hrounds, hlast⟩ := ih hr
      exact ⟨n + 1, s', .succ hcond hbody hrounds, hlast⟩
    | fails hcond hbody =>
      cases hr
      exact ⟨0, _, .zero, Or.inr ⟨_, hcond, hbody⟩⟩
  · rintro ⟨n, s', hrounds, hlast⟩
    exact rounds_last hrounds hlast

end YtScheduler.Blocks
