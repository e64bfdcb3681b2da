import Mathlib.Data.List.Basic
import YtScheduler.Threads.Prog

/-! Threads interleaved on a shared state. An action spawns a thread or lets one
thread make its next call; the choice it carries fixes whatever the environment
decides (an outcome, a fresh value, a failure). A run is a list of actions, so
that a run can be executed, and a property of runs is a property of every
action at the state it is taken in. -/

namespace YtScheduler.Threads

/-- How calls act, and the threads that may be spawned. -/
structure Machine (Op : Type) (Ret : Op → Type) (ε Loc Shared Choice Entry α : Type) where
  exec : (o : Op) → ℕ → Choice → Loc → Shared → Except ε (Ret o) × Loc × Shared
  start : Entry → ℕ → Loc × Prog Op Ret ε α

/-- A shared state and the threads, each with its private state. -/
structure Sys (Op : Type) (Ret : Op → Type) (ε Loc Shared α : Type) where
  shared : Shared
  threads : List (Loc × Prog Op Ret ε α)

inductive Action (Choice Entry : Type)
  | spawn (e : Entry)
  | step (i : ℕ) (ch : Choice)

variable {Op : Type} {Ret : Op → Type} {ε Loc Shared Choice Entry α : Type}

/-- The action spawns no entry outside `E`. -/
def Action.Within (E : Entry → Prop) : Action Choice Entry → Prop
  | .spawn e => E e
  | .step _ _ => True

instance {E : Entry → Prop} [DecidablePred E] : (a : Action Choice Entry) → Decidable (a.Within E)
  | .spawn e => inferInstanceAs (Decidable (E e))
  | .step _ _ => .isTrue trivial

namespace Machine

variable (M : Machine Op Ret ε Loc Shared Choice Entry α)

/-- One action. A thread that has ended takes no step. -/
def act (σ : Sys Op Ret ε Loc Shared α) : Action Choice Entry → Option (Sys Op Ret ε Loc Shared α)
  | .spawn e => some { σ with threads := σ.threads ++ [M.start e σ.threads.length] }
  | .step i ch =>
    match σ.threads[i]? with
    | some (l, .call o k) =>
      let out := M.exec o i ch l σ.shared
      some ⟨out.2.2, σ.threads.set i (out.2.1, k out.1)⟩
    | _ => none

/-- The state after a list of actions. -/
def run (σ : Sys Op Ret ε Loc Shared α) :
    List (Action Choice Entry) → Option (Sys Op Ret ε Loc Shared α)
  | [] => some σ
  | a :: as => (M.act σ a).bind fun σ' => run σ' as

/-- Every action of the run is taken in a state in which `C` holds of it. -/
def Along (C : Sys Op Ret ε Loc Shared α → Action Choice Entry → Prop) :
    Sys Op Ret ε Loc Shared α → List (Action Choice Entry) → Prop
  | _, [] => True
  | σ, a :: as => C σ a ∧ ∀ σ', M.act σ a = some σ' → Along C σ' as

instance decidableAlong {C : Sys Op Ret ε Loc Shared α → Action Choice Entry → Prop}
    [∀ σ a, Decidable (C σ a)] :
    (σ : Sys Op Ret ε Loc Shared α) → (as : List (Action Choice Entry)) → Decidable (M.Along C σ as)
  | _, [] => .isTrue trivial
  | σ, a :: as =>
    match h : M.act σ a with
    | none => decidable_of_iff (C σ a) (by simp [Along, h])
    | some σ' =>
      have : Decidable (M.Along C σ' as) := decidableAlong σ' as
      decidable_of_iff (C σ a ∧ M.Along C σ' as) (by simp [Along, h])

variable {M} {σ σ' : Sys Op Ret ε Loc Shared α} {as : List (Action Choice Entry)}

@[simp] theorem run_nil : M.run σ [] = some σ := rfl

theorem run_append (as bs : List (Action Choice Entry)) :
    M.run σ (as ++ bs) = (M.run σ as).bind fun σ' => M.run σ' bs := by
  induction as generalizing σ with
  | nil => rfl
  | cons a as ih =>
    simp only [List.cons_append, run, Option.bind_assoc]
    congr 1
    funext σ'
    exact ih

/-- What holds at first and is kept by every action holds of every run. -/
theorem run_induction {P : Sys Op Ret ε Loc Shared α → Prop} (h0 : P σ)
    (hact : ∀ σ a σ', P σ → M.act σ a = some σ' → P σ') (h : M.run σ as = some σ') : P σ' := by
  induction as generalizing σ with
  | nil => cases h; exact h0
  | cons a as ih =>
    obtain ⟨σ₁, h1, h2⟩ := Option.bind_eq_some_iff.mp h
    exact ih (hact _ _ _ h0 h1) h2

/-- The same for runs that meet a condition at every action. -/
theorem along_induction {C : Sys Op Ret ε Loc Shared α → Action Choice Entry → Prop}
    {P : Sys Op Ret ε Loc Shared α → Prop} (h0 : P σ)
    (hact : ∀ σ a σ', P σ → C σ a → M.act σ a = some σ' → P σ') (hc : M.Along C σ as)
    (h : M.run σ as = some σ') : P σ' := by
  induction as generalizing σ with
  | nil => cases h; exact h0
  | cons a as ih =>
    obtain ⟨σ₁, h1, h2⟩ := Option.bind_eq_some_iff.mp h
    exact ih (hact _ _ _ h0 hc.1 h1) (hc.2 _ h1) h2

/-- Along a run that keeps `P`, conditions may be exchanged that agree under `P`. -/
theorem along_imp {C D : Sys Op Ret ε Loc Shared α → Action Choice Entry → Prop}
    {P : Sys Op Ret ε Loc Shared α → Prop} (h0 : P σ)
    (hact : ∀ σ a σ', P σ → C σ a → M.act σ a = some σ' → P σ')
    (himp : ∀ σ a, P σ → C σ a → D σ a) (hc : M.Along C σ as) : M.Along D σ as := by
  induction as generalizing σ with
  | nil => trivial
  | cons a as ih =>
    exact ⟨himp _ _ h0 hc.1, fun σ' h => ih (hact _ _ _ h0 hc.1 h) (hc.2 _ h)⟩

theorem along_of_forall {A : Action Choice Entry → Prop} (h : ∀ a ∈ as, A a) :
    M.Along (fun _ => A) σ as := by
  induction as generalizing σ with
  | nil => trivial
  | cons a as ih =>
    exact ⟨h a List.mem_cons_self, fun _ _ => ih fun b hb => h b (List.mem_cons_of_mem _ hb)⟩

theorem along_and {C D : Sys Op Ret ε Loc Shared α → Action Choice Entry → Prop}
    (hc : M.Along C σ as) (hd : M.Along D σ as) : M.Along (fun σ a => C σ a ∧ D σ a) σ as := by
  induction as generalizing σ with
  | nil => trivial
  | cons a as ih => exact ⟨⟨hc.1, hd.1⟩, fun σ' h => ih (hc.2 _ h) (hd.2 _ h)⟩

theorem along_append {C : Sys Op Ret ε Loc Shared α → Action Choice Entry → Prop}
    {bs : List (Action Choice Entry)} (hc : M.Along C σ (as ++ bs)) (h : M.run σ as = some σ') :
    M.Along C σ' bs := by
  induction as generalizing σ with
  | nil => cases h; exact hc
  | cons a as ih =>
    obtain ⟨σ₁, h1, h2⟩ := Option.bind_eq_some_iff.mp h
    exact ih (hc.2 _ h1) h2

/-- `Along` speaks about every action of the run, at the state reached before it. -/
theorem along_iff {C : Sys Op Ret ε Loc Shared α → Action Choice Entry → Prop} :
    M.Along C σ as ↔
      ∀ as₁ a as₂, as = as₁ ++ a :: as₂ → ∀ σ₁, M.run σ as₁ = some σ₁ → C σ₁ a := by
  constructor
  · rintro h as₁ a as₂ rfl σ₁ h1
    exact (along_append h h1).1
  · intro h
    induction as generalizing σ with
    | nil => trivial
    | cons a as ih =>
      refine ⟨h [] a as rfl σ rfl, fun σ' h1 => ih fun as₁ b as₂ he σ₁ h2 => ?_⟩
      exact h (a :: as₁) b as₂ (by rw [he]; rfl) σ₁ (by simpa [run, h1] using h2)

/-! ### Whole runs -/

variable (M) in
/-- `P` holds of every state of the run. -/
def Always (P : Sys Op Ret ε Loc Shared α → Prop) (σ : Sys Op Ret ε Loc Shared α)
    (as : List (Action Choice Entry)) : Prop :=
  ∀ as₁ as₂ σ₁, as = as₁ ++ as₂ → M.run σ as₁ = some σ₁ → P σ₁

variable (M) in
/-- `R` relates each state of the run to every later one. -/
def Throughout (R : Sys Op Ret ε Loc Shared α → Sys Op Ret ε Loc Shared α → Prop)
    (σ : Sys Op Ret ε Loc Shared α) (as : List (Action Choice Entry)) : Prop :=
  ∀ as₁ as₂ as₃ σ₁ σ₂, as = as₁ ++ (as₂ ++ as₃) → M.run σ as₁ = some σ₁ →
    M.run σ₁ as₂ = some σ₂ → R σ₁ σ₂

variable (M) in
/-- `R` relates the states before and after each action of the run. -/
def EachStep (R : Sys Op Ret ε Loc Shared α → Sys Op Ret ε Loc Shared α → Prop)
    (σ : Sys Op Ret ε Loc Shared α) (as : List (Action Choice Entry)) : Prop :=
  ∀ as₁ a as₂ σ₁ σ₂, as = as₁ ++ a :: as₂ → M.run σ as₁ = some σ₁ → M.act σ₁ a = some σ₂ → R σ₁ σ₂

theorem along_left {C : Sys Op Ret ε Loc Shared α → Action Choice Entry → Prop}
    {bs : List (Action Choice Entry)} (hc : M.Along C σ (as ++ bs)) : M.Along C σ as := by
  rw [along_iff] at hc ⊢
  rintro as₁ a as₂ rfl
  exact hc as₁ a (as₂ ++ bs) (by simp)

theorem always_iff {P : Sys Op Ret ε Loc Shared α → Prop} (h0 : P σ) :
    M.Always P σ as ↔ M.Along (fun σ a => ∀ σ', M.act σ a = some σ' → P σ') σ as := by
  constructor
  · intro h
    rw [along_iff]
    rintro as₁ a as₂ rfl σ₁ h1 σ' ha
    exact h (as₁ ++ [a]) as₂ σ' (by simp) (by simp [run_append, h1, run, ha])
  · rintro h as₁ as₂ σ₁ rfl h1
    exact along_induction h0 (fun σ a σ' _ hc ha => hc σ' ha) (along_left h) h1

theorem throughout_iff {R : Sys Op Ret ε Loc Shared α → Sys Op Ret ε Loc Shared α → Prop}
    (hrefl : ∀ σ, R σ σ) (htrans : ∀ σ σ' σ'', R σ σ' → R σ' σ'' → R σ σ'') :
    M.Throughout R σ as ↔ M.Along (fun σ a => ∀ σ', M.act σ a = some σ' → R σ σ') σ as := by
  constructor
  · intro h
    rw [along_iff]
    rintro as₁ a as₂ rfl σ₁ h1 σ' ha
    exact h as₁ [a] as₂ σ₁ σ' rfl h1 (by simp [run, ha])
  · rintro h as₁ as₂ as₃ σ₁ σ₂ rfl h1 h2
    exact along_induction (P := fun σ' => R σ₁ σ') (hrefl σ₁)
      (fun σ a σ' hR hc ha => htrans _ _ _ hR (hc σ' ha)) (along_left (along_append h h1)) h2

theorem eachStep_iff {R : Sys Op Ret ε Loc Shared α → Sys Op Ret ε Loc Shared α → Prop} :
    M.EachStep R σ as ↔ M.Along (fun σ a => ∀ σ', M.act σ a = some σ' → R σ σ') σ as := by
  rw [along_iff]
  exact ⟨fun h as₁ a as₂ has σ₁ h1 σ' ha => h as₁ a as₂ σ₁ σ' has h1 ha,
    fun h as₁ a as₂ σ₁ σ₂ has h1 ha => h as₁ a as₂ has σ₁ h1 σ₂ ha⟩

/-! ### Runs that go wrong -/

section Wrong

variable {bs : List (Action Choice Entry)} {a : Action Choice Entry}

theorem not_always {P : Sys Op Ret ε Loc Shared α → Prop} [DecidablePred P]
    (h : (M.run σ as).map (fun σ₁ => decide (P σ₁)) = some false) : ¬M.Always P σ as := by
  intro hP
  obtain ⟨σ₁, h1, hf⟩ := Option.map_eq_some_iff.mp h
  exact of_decide_eq_false hf (hP as [] σ₁ (by simp) h1)

variable {R : Sys Op Ret ε Loc Shared α → Sys Op Ret ε Loc Shared α → Prop}
  [∀ σ σ', Decidable (R σ σ')]

theorem not_throughout (h : ((M.run σ as).bind fun σ₁ =>
    (M.run σ₁ bs).map fun σ₂ => decide (R σ₁ σ₂)) = some false) :
    ¬M.Throughout R σ (as ++ bs) := by
  intro hR
  obtain ⟨σ₁, h1, h⟩ := Option.bind_eq_some_iff.mp h
  obtain ⟨σ₂, h2, hf⟩ := Option.map_eq_some_iff.mp h
  exact of_decide_eq_false hf (hR as bs [] σ₁ σ₂ (by simp) h1 h2)

theorem not_eachStep (h : ((M.run σ as).bind fun σ₁ =>
    (M.act σ₁ a).map fun σ₂ => decide (R σ₁ σ₂)) = some false) :
    ¬M.EachStep R σ (as ++ [a]) := by
  intro hR
  obtain ⟨σ₁, h1, h⟩ := Option.bind_eq_some_iff.mp h
  obtain ⟨σ₂, h2, hf⟩ := Option.map_eq_some_iff.mp h
  exact of_decide_eq_false hf (hR as a [] σ₁ σ₂ rfl h1 h2)

end Wrong

end Machine

end YtScheduler.Threads
