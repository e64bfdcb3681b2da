import YtScheduler.Threads.Machine

/-! What a thread has seen. A watch collects something from the results of the calls of a
thread, so that a program can be checked on its own: whatever its calls return, each of
them is one that what was seen before allows. A watched machine keeps the collection
beside the private state of the thread, and all its threads go on making allowed calls. -/

namespace YtScheduler.Threads

variable {Op : Type} {Ret : Op → Type} {ε Loc Shared Choice Entry Γ α β δ : Type}

/-- What is collected from a call and its outcome, the outcomes to expect, and the calls allowed. -/
structure Watch (Op : Type) (Ret : Op → Type) (ε Γ : Type) where
  see : Γ → (o : Op) → Except ε (Ret o) → Γ
  outcomes : (o : Op) → Except ε (Ret o) → Prop
  calls : Γ → Op → Prop

namespace Prog

/-- Every call of the program is allowed, and `Q` holds of its outcome and what was seen. -/
def Watched (W : Watch Op Ret ε Γ) (Q : Except ε α → Γ → Prop) : Γ → Prog Op Ret ε α → Prop
  | γ, .ret a => Q (.ok a) γ
  | γ, .raise e => Q (.error e) γ
  | γ, .call o k => W.calls γ o ∧ ∀ r, W.outcomes o r → Watched W Q (W.see γ o r) (k r)

/-- Every call of the program is allowed, whatever was seen before. -/
abbrev Allowed (W : Watch Op Ret ε Γ) (p : Prog Op Ret ε α) : Prop :=
  ∀ γ, p.Watched W (fun _ _ => True) γ

namespace Watched

variable {W : Watch Op Ret ε Γ} {γ : Γ} {p : Prog Op Ret ε α} {Q Q' : Except ε α → Γ → Prop}

theorem mono (h : p.Watched W Q γ) (hQ : ∀ r γ, Q r γ → Q' r γ) : p.Watched W Q' γ := by
  induction p generalizing γ with
  | ret a => exact hQ _ _ h
  | raise e => exact hQ _ _ h
  | call o k ih => exact ⟨h.1, fun r hr => ih r (h.2 r hr)⟩

/-- A watch that sees the same, expects no more and allows no less, as long as what is seen meets
`I`. -/
theorem weaken {W' : Watch Op Ret ε Γ} {I : Γ → Prop} (h : p.Watched W Q γ) (hγ : I γ)
    (hI : ∀ γ o r, I γ → I (W.see γ o r)) (hsee : W'.see = W.see)
    (houtcomes : ∀ o r, W'.outcomes o r → W.outcomes o r)
    (hcalls : ∀ γ o, I γ → W.calls γ o → W'.calls γ o) : p.Watched W' Q γ := by
  induction p generalizing γ with
  | ret a => exact h
  | raise e => exact h
  | call o k ih =>
    refine ⟨hcalls γ o hγ h.1, fun r hr => ?_⟩
    rw [hsee]
    exact ih r (h.2 r (houtcomes o r hr)) (hI γ o r hγ)

/-- Calls that are allowed as long as what is seen meets `I`. -/
theorem of_uses {P : Op → Prop} {I : Γ → Prop} (hp : p.Uses P) (hγ : I γ)
    (hI : ∀ γ o r, I γ → I (W.see γ o r)) (h : ∀ γ o, I γ → P o → W.calls γ o) :
    p.Watched W (fun _ _ => True) γ := by
  induction p generalizing γ with
  | ret a => trivial
  | raise e => trivial
  | call o k ih => exact ⟨h γ o hγ hp.1, fun r _ => ih r (hp.2 r) (hI γ o r hγ)⟩

/-- A watch that sees more, expects no more and allows no less: what it sees is projected by `π`. -/
theorem project {Γ' : Type} {W' : Watch Op Ret ε Γ'} {π : Γ' → Γ} {γ' : Γ'} (h : p.Watched W Q (π γ'))
    (hsee : ∀ γ' o r, π (W'.see γ' o r) = W.see (π γ') o r)
    (houtcomes : ∀ o r, W'.outcomes o r → W.outcomes o r)
    (hcalls : ∀ γ' o, W.calls (π γ') o → W'.calls γ' o) :
    p.Watched W' (fun r γ' => Q r (π γ')) γ' := by
  induction p generalizing γ' with
  | ret a => exact h
  | raise e => exact h
  | call o k ih =>
    refine ⟨hcalls γ' o h.1, fun r hr => ih r ?_⟩
    rw [hsee]
    exact h.2 r (houtcomes o r hr)

/-- What every call keeps holds at the end. -/
theorem keeps {I : Γ → Prop} (h : p.Watched W Q γ) (hγ : I γ) (hI : ∀ γ o r, I γ → I (W.see γ o r)) :
    p.Watched W (fun r γ => Q r γ ∧ I γ) γ := by
  induction p generalizing γ with
  | ret a => exact ⟨h, hγ⟩
  | raise e => exact ⟨h, hγ⟩
  | call o k ih => exact ⟨h.1, fun r hr => ih r (h.2 r hr) (hI γ o r hγ)⟩

theorem bind {f : α → Prog Op Ret ε β} {R : Except ε β → Γ → Prop}
    (h : p.Watched W (fun r γ =>
      match r with
      | .ok a => (f a).Watched W R γ
      | .error e => R (.error e) γ) γ) : (p.bind f).Watched W R γ := by
  induction p generalizing γ with
  | ret a => exact h
  | raise e => exact h
  | call o k ih => exact ⟨h.1, fun r hr => ih r (h.2 r hr)⟩

theorem attempt {R : Except ε (Except ε α) → Γ → Prop} (h : p.Watched W (fun r γ => R (.ok r) γ) γ) :
    p.attempt.Watched W R γ := by
  induction p generalizing γ with
  | ret a => exact h
  | raise e => exact h
  | call o k ih => exact ⟨h.1, fun r hr => ih r (h.2 r hr)⟩

theorem op {o : Op} {R : Except ε (Ret o) → Γ → Prop} (hcalls : W.calls γ o)
    (hR : ∀ r, W.outcomes o r → R r (W.see γ o r)) : (Prog.op o).Watched W R γ := by
  refine ⟨hcalls, fun r hr => ?_⟩
  cases r with
  | ok a => exact hR (.ok a) hr
  | error e => exact hR (.error e) hr

end Watched

/-- Every call of the program is allowed, and `A` holds of a result; nothing is asked of an
exception. -/
abbrev Brings (W : Watch Op Ret ε Γ) (A : α → Γ → Prop) (γ : Γ) (p : Prog Op Ret ε α) : Prop :=
  p.Watched W (fun r γ => ∀ a, r = .ok a → A a γ) γ

namespace Brings

variable {W : Watch Op Ret ε Γ} {γ : Γ} {p : Prog Op Ret ε α} {A A' : α → Γ → Prop} {B : β → Γ → Prop}

theorem ret {a : α} (h : A a γ) : (Prog.ret a : Prog Op Ret ε α).Brings W A γ := by
  rintro _ ⟨⟩
  exact h

theorem mono (h : p.Brings W A γ) (hA : ∀ a γ, A a γ → A' a γ) : p.Brings W A' γ :=
  Watched.mono h fun _ _ hr a he => hA a _ (hr a he)

theorem bind {f : α → Prog Op Ret ε β} (hp : p.Brings W A γ) (hf : ∀ a γ, A a γ → (f a).Brings W B γ) :
    (p.bind f).Brings W B γ := by
  refine Watched.bind (Watched.mono hp fun r γ hr => ?_)
  cases r with
  | ok a => exact hf a γ (hr a rfl)
  | error e => exact fun _ he => nomatch he

theorem op {o : Op} {A : Ret o → Γ → Prop} (hcalls : W.calls γ o)
    (hA : ∀ a, W.outcomes o (.ok a) → A a (W.see γ o (.ok a))) : (Prog.op o).Brings W A γ := by
  refine Watched.op hcalls fun r hr a he => ?_
  subst he
  exact hA a hr

end Brings

namespace Allowed

variable {W : Watch Op Ret ε Γ} {p : Prog Op Ret ε α}

theorem ret (a : α) : (Prog.ret a : Prog Op Ret ε α).Allowed W := fun _ => trivial

theorem raise (e : ε) : (Prog.raise e : Prog Op Ret ε α).Allowed W := fun _ => trivial

theorem op {o : Op} (h : ∀ γ, W.calls γ o) : (Prog.op o : Prog Op Ret ε (Ret o)).Allowed W :=
  fun γ => Watched.op (h γ) fun _ _ => trivial

theorem bind_watched {γ : Γ} {f : α → Prog Op Ret ε β} (hp : p.Watched W (fun _ _ => True) γ)
    (hf : ∀ a, (f a).Allowed W) : (p.bind f).Watched W (fun _ _ => True) γ := by
  refine Watched.bind (hp.mono fun r γ _ => ?_)
  cases r with
  | ok a => exact hf a γ
  | error e => trivial

theorem bind {f : α → Prog Op Ret ε β} (hp : p.Allowed W) (hf : ∀ a, (f a).Allowed W) :
    (p.bind f).Allowed W := fun γ => bind_watched (hp γ) hf

/-- The rest of the program has only to do with what the first part brings. -/
theorem bind_brings {A : α → Γ → Prop} {f : α → Prog Op Ret ε β} (hp : ∀ γ, p.Brings W A γ)
    (hf : ∀ a γ, A a γ → (f a).Watched W (fun _ _ => True) γ) : (p.bind f).Allowed W := by
  intro γ
  refine Watched.bind (Watched.mono (hp γ) fun r γ hr => ?_)
  cases r with
  | ok a => exact hf a γ (hr a rfl)
  | error e => trivial

/-- The rest of the program has to do with what every call keeps. -/
theorem bind_keeps {I : Γ → Prop} {γ : Γ} {f : α → Prog Op Ret ε β}
    (hp : p.Watched W (fun _ _ => True) γ) (hγ : I γ) (hI : ∀ γ o r, I γ → I (W.see γ o r))
    (hf : ∀ a γ, I γ → (f a).Watched W (fun _ _ => True) γ) :
    (p.bind f).Watched W (fun _ _ => True) γ := by
  refine Watched.bind ((hp.keeps hγ hI).mono fun r γ' hr => ?_)
  cases r with
  | ok a => exact hf a γ' hr.2
  | error e => trivial

theorem attempt (hp : p.Allowed W) : p.attempt.Allowed W := fun γ => Watched.attempt (hp γ)

theorem catching {h : ε → Prog Op Ret ε α} (hp : p.Allowed W) (hh : ∀ e, (h e).Allowed W) :
    (p.catching h).Allowed W := by
  refine hp.attempt.bind fun r => ?_
  cases r with
  | ok a => exact ret a
  | error e => exact hh e

theorem forEach {xs : List δ} {body : δ → Prog Op Ret ε Unit} (hb : ∀ x ∈ xs, (body x).Allowed W) :
    (Prog.forEach xs body).Allowed W := by
  induction xs with
  | nil => exact ret ()
  | cons x xs ih =>
    exact (hb x List.mem_cons_self).bind fun _ => ih fun y hy => hb y (List.mem_cons_of_mem _ hy)

theorem forEach_keeps {I : Γ → Prop} {γ : Γ} {xs : List δ} {body : δ → Prog Op Ret ε Unit} (hγ : I γ)
    (hI : ∀ γ o r, I γ → I (W.see γ o r))
    (hb : ∀ x ∈ xs, ∀ γ, I γ → (body x).Watched W (fun _ _ => True) γ) :
    (Prog.forEach xs body).Watched W (fun _ _ => True) γ := by
  induction xs generalizing γ with
  | nil => trivial
  | cons x xs ih =>
    refine bind_keeps (hb x List.mem_cons_self γ hγ) hγ hI fun _ γ' hγ' => ?_
    exact ih hγ' fun y hy => hb y (List.mem_cons_of_mem _ hy)

end Allowed

end Prog

/-! ### Machines -/

namespace Machine

variable (M : Machine Op Ret ε Loc Shared Choice Entry α) (W : Watch Op Ret ε Γ) (seen : Entry → Γ)

/-- The machine whose threads keep what they have seen, at first `seen` of their entry. -/
def watch : Machine Op Ret ε (Loc × Γ) Shared Choice Entry α where
  exec o i ch l s :=
    let out := M.exec o i ch l.1 s
    (out.1, (out.2.1, W.see l.2 o out.1), out.2.2)
  start e i := (((M.start e i).1, seen e), (M.start e i).2)

variable {M W seen} {σ σ' : Sys Op Ret ε (Loc × Γ) Shared α} {a : Action Choice Entry}

/-- All threads make allowed calls only. -/
def AllWatched (W : Watch Op Ret ε Γ) (σ : Sys Op Ret ε (Loc × Γ) Shared α) : Prop :=
  ∀ (i : ℕ) (th : (Loc × Γ) × Prog Op Ret ε α), σ.threads[i]? = some th →
    th.2.Watched W (fun _ _ => True) th.1.2

/-- An action of a machine is an entry or a call. -/
theorem act_cases {N : Machine Op Ret ε Loc Shared Choice Entry α} {τ τ' : Sys Op Ret ε Loc Shared α}
    (h : N.act τ a = some τ') :
    (∃ e, a = .spawn e ∧ τ' = { τ with threads := τ.threads ++ [N.start e τ.threads.length] }) ∨
    ∃ i ch l o k, a = .step i ch ∧ τ.threads[i]? = some (l, .call o k) ∧
      τ' = ⟨(N.exec o i ch l τ.shared).2.2,
        τ.threads.set i ((N.exec o i ch l τ.shared).2.1, k (N.exec o i ch l τ.shared).1)⟩ := by
  cases a with
  | spawn e => exact Or.inl ⟨e, rfl, (Option.some.inj h).symm⟩
  | step i ch =>
    simp only [act] at h
    split at h
    · next l o k hth => exact Or.inr ⟨i, ch, l, o, k, rfl, hth, (Option.some.inj h).symm⟩
    · cases h

theorem AllWatched.act {E : Entry → Prop} (h : AllWatched W σ)
    (hE : ∀ e, E e → ∀ i, (M.start e i).2.Watched W (fun _ _ => True) (seen e)) (hin : a.Within E)
    (houtcomes : ∀ i ch l o k, a = .step i ch → σ.threads[i]? = some (l, .call o k) →
      W.outcomes o (M.exec o i ch l.1 σ.shared).1)
    (ha : (M.watch W seen).act σ a = some σ') : AllWatched W σ' := by
  rcases act_cases ha with ⟨e, rfl, rfl⟩ | ⟨i, ch, l, o, k, rfl, hth, rfl⟩
  · intro j th hj
    rw [List.getElem?_append] at hj
    split_ifs at hj with hlt
    · exact h j th hj
    · rw [List.getElem?_singleton] at hj
      split_ifs at hj
      cases hj
      exact hE e hin _
  · intro j th hj
    by_cases hij : i = j
    · subst hij
      rw [List.getElem?_set_self (List.getElem?_eq_some_iff.mp hth).1] at hj
      cases hj
      exact (h i _ hth).2 _ (houtcomes i ch l o k rfl hth)
    · rw [List.getElem?_set_ne hij] at hj
      exact h j th hj

/-! ### What threads know

A thread need not keep what it has seen: that it could have seen something true is enough. -/

section Aware

variable {τ τ' : Sys Op Ret ε Loc Shared α} {K : Shared → Γ → Prop}

/-- Every thread makes allowed calls only, after having seen something that `K` says is so. -/
def Aware (W : Watch Op Ret ε Γ) (K : Shared → Γ → Prop) (τ : Sys Op Ret ε Loc Shared α) : Prop :=
  ∀ (i : ℕ) (th : Loc × Prog Op Ret ε α), τ.threads[i]? = some th →
    ∃ γ, K τ.shared γ ∧ th.2.Watched W (fun _ _ => True) γ

/-- The step lemma: what is so stays so, and what an allowed call shows is so. -/
theorem Aware.act {E : Entry → Prop} (h : Aware W K τ)
    (hE : ∀ e, E e → ∀ i, ∃ γ, K τ.shared γ ∧ (M.start e i).2.Watched W (fun _ _ => True) γ)
    (hin : a.Within E) (hmono : ∀ γ, K τ.shared γ → K τ'.shared γ)
    (hstep : ∀ i ch l o k γ, a = .step i ch → τ.threads[i]? = some (l, .call o k) → K τ.shared γ →
      W.calls γ o → W.outcomes o (M.exec o i ch l τ.shared).1 ∧
        K τ'.shared (W.see γ o (M.exec o i ch l τ.shared).1))
    (ha : M.act τ a = some τ') : Aware W K τ' := by
  rcases act_cases ha with ⟨e, rfl, rfl⟩ | ⟨i, ch, l, o, k, rfl, hth, rfl⟩
  · intro j th hj
    rw [List.getElem?_append] at hj
    split_ifs at hj with hlt
    · exact h j th hj
    · rw [List.getElem?_singleton] at hj
      split_ifs at hj
      cases hj
      exact hE e hin _
  · intro j th hj
    by_cases hij : i = j
    · subst hij
      rw [List.getElem?_set_self (List.getElem?_eq_some_iff.mp hth).1] at hj
      cases hj
      obtain ⟨γ, hγ, hw⟩ := h i _ hth
      obtain ⟨hout, hγ'⟩ := hstep i ch l o k γ rfl hth hγ hw.1
      exact ⟨_, hγ', hw.2 _ hout⟩
    · rw [List.getElem?_set_ne hij] at hj
      obtain ⟨γ, hγ, hw⟩ := h j th hj
      exact ⟨γ, hmono γ hγ, hw⟩

end Aware

end Machine

end YtScheduler.Threads
