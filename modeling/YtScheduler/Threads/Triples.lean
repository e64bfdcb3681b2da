import YtScheduler.Threads.Alone

/-! Triples of a thread that runs alone while the environment decides what it likes:
from a shared state with the precondition the program comes to an outcome and a
shared state with the postcondition. An exception is an outcome like any other. -/

namespace YtScheduler.Threads.Machine

variable {Op : Type} {Ret : Op → Type} {ε Loc Shared Choice Entry α β γ Out : Type}

/-- `p`, run alone by thread `i` from `s`, may come to `r` and leave `s'`. -/
def MayEnd (M : Machine Op Ret ε Loc Shared Choice Entry Out) (i : ℕ) (p : Prog Op Ret ε α)
    (s : Shared) (r : Except ε α) (s' : Shared) : Prop :=
  ∃ (κ : Type) (env : Environment Op Choice κ) (k k' : κ) (l l' : Loc),
    p.Ends (M.alone i env) (k, l, s) r (k', l', s')

def Meets (M : Machine Op Ret ε Loc Shared Choice Entry Out) (i : ℕ) (pre : Shared → Prop)
    (p : Prog Op Ret ε α) (post : Except ε α → Shared → Prop) : Prop :=
  ∀ ⦃s r s'⦄, pre s → M.MayEnd i p s r s' → post r s'

namespace Meets

variable {M : Machine Op Ret ε Loc Shared Choice Entry Out} {i : ℕ} {p : Prog Op Ret ε α}
  {f : α → Prog Op Ret ε β} {pre pre' : Shared → Prop} {post post' : Except ε α → Shared → Prop}
  {R : Except ε α → Shared → Prop} {Q : Except ε β → Shared → Prop}

theorem mono (h : M.Meets i pre p post) (hpre : ∀ s, pre' s → pre s)
    (hpost : ∀ r s, post r s → post' r s) : M.Meets i pre' p post' :=
  fun _ _ _ hs hp => hpost _ _ (h (hpre _ hs) hp)

theorem ret {a : α} (h : ∀ s, pre s → post (.ok a) s) : M.Meets i pre (.ret a) post := by
  rintro s r s' hs ⟨κ, env, k, k', l, l', hp⟩
  cases hp
  exact h s hs

theorem raise {e : ε} (h : ∀ s, pre s → post (.error e) s) : M.Meets i pre (.raise e) post := by
  rintro s r s' hs ⟨κ, env, k, k', l, l', hp⟩
  cases hp
  exact h s hs

theorem op {o : Op} {post : Except ε (Ret o) → Shared → Prop}
    (h : ∀ ch l s, pre s → post (M.exec o i ch l s).1 (M.exec o i ch l s).2.2) :
    M.Meets i pre (Prog.op o) post := by
  rintro s r s' hs ⟨κ, env, k, k', l, l', hp⟩
  have hstep := Prog.ends_op_iff.mp hp
  simp only [alone, Prod.mk.injEq] at hstep
  obtain ⟨rfl, rfl, hleft⟩ := hstep
  have hpost := h (env.choose k o) l s hs
  rwa [hleft] at hpost

theorem bind (hp : M.Meets i pre p R) (hf : ∀ a, M.Meets i (R (.ok a)) (f a) Q)
    (he : ∀ e s, R (.error e) s → Q (.error e) s) : M.Meets i pre (p.bind f) Q := by
  rintro s r s' hs ⟨κ, env, k, k', l, l', h⟩
  rcases Prog.ends_bind_cases h with ⟨a, t, h1, h2⟩ | ⟨e, h1, rfl⟩
  · exact hf a (hp hs ⟨κ, env, k, _, l, _, h1⟩) ⟨κ, env, _, k', _, l', h2⟩
  · exact he e s' (hp hs ⟨κ, env, k, k', l, l', h1⟩)

/-- The rest of a program whose first part returns one value. -/
theorem bind_ok {a : α} {R : Shared → Prop} (hp : M.Meets i pre p fun r s => r = .ok a ∧ R s)
    (hf : M.Meets i R (f a) Q) : M.Meets i pre (p.bind f) Q := by
  refine hp.bind (fun b s r s' hs h => ?_) ?_
  · obtain ⟨he, hmid⟩ := hs
    cases he
    exact hf hmid h
  · rintro e s ⟨⟨⟩, _⟩

theorem attempt {post : Except ε (Except ε α) → Shared → Prop}
    (hp : M.Meets i pre p fun r s => post (.ok r) s) : M.Meets i pre p.attempt post := by
  rintro s r s' hs ⟨κ, env, k, k', l, l', h⟩
  obtain ⟨r', rfl, h'⟩ := Prog.ends_attempt_cases h
  exact hp hs ⟨κ, env, k, k', l, l', h'⟩

end Meets

/-- `p` retains `K`, whatever comes of it, and returns only values with `V`. -/
def Retains (M : Machine Op Ret ε Loc Shared Choice Entry Out) (i : ℕ) (K : Shared → Prop)
    (p : Prog Op Ret ε α) (V : α → Prop) : Prop :=
  M.Meets i K p fun r s => K s ∧ ∀ a, r = .ok a → V a

namespace Retains

variable {M : Machine Op Ret ε Loc Shared Choice Entry Out} {i : ℕ} {K : Shared → Prop}
  {p : Prog Op Ret ε α} {f : α → Prog Op Ret ε β} {V V' : α → Prop} {W : β → Prop}

theorem ret {a : α} (ha : V a) : M.Retains i K (.ret a) V :=
  Meets.ret fun _ hs => ⟨hs, by rintro _ ⟨⟩; exact ha⟩

theorem raise (e : ε) : M.Retains i K (.raise e) V := Meets.raise fun _ hs => ⟨hs, nofun⟩

theorem op {o : Op} {V : Ret o → Prop} (h : ∀ ch l s, K s → K (M.exec o i ch l s).2.2)
    (hV : ∀ ch l s, K s → ∀ a, (M.exec o i ch l s).1 = .ok a → V a) :
    M.Retains i K (Prog.op o) V :=
  Meets.op fun ch l s hs => ⟨h ch l s hs, hV ch l s hs⟩

theorem bind (hp : M.Retains i K p V) (hf : ∀ a, V a → M.Retains i K (f a) W) :
    M.Retains i K (p.bind f) W := by
  refine Meets.bind hp (fun a s r s' hs h => ?_) fun e s hs => ⟨hs.1, nofun⟩
  exact hf a (hs.2 a rfl) hs.1 h

/-- What follows may be any triple. -/
theorem meets_bind {Q : Except ε β → Shared → Prop} (hp : M.Retains i K p V)
    (hf : ∀ a, V a → M.Meets i K (f a) Q) (he : ∀ e s, K s → Q (.error e) s) :
    M.Meets i K (p.bind f) Q := by
  refine Meets.bind hp (fun a s r s' hs h => ?_) fun e s hs => he e s hs.1
  exact hf a (hs.2 a rfl) hs.1 h

theorem forEach {body : γ → Prog Op Ret ε Unit} {xs : List γ}
    (hbody : ∀ x ∈ xs, M.Retains i K (body x) fun _ => True) :
    M.Retains i K (Prog.forEach xs body) fun _ => True := by
  induction xs with
  | nil => exact ret trivial
  | cons x xs ih =>
    exact bind (hbody x List.mem_cons_self) fun _ _ => ih fun y hy => hbody y (List.mem_cons_of_mem _ hy)

/-- What every call a program may make retains, it retains. -/
theorem of_uses {Q : Op → Prop} (hp : p.Uses Q)
    (h : ∀ o, Q o → ∀ ch l s, K s → K (M.exec o i ch l s).2.2) :
    M.Retains i K p fun _ => True := by
  rintro s r s' hs ⟨κ, env, k, k', l, l', hends⟩
  refine ⟨?_, fun _ _ => trivial⟩
  exact hends.keeps_of_uses (P := fun t => K t.2.2)
    (fun o t ho ht => h o ho (env.choose t.1 o) t.2.1 t.2.2 ht) hp hs

end Retains

end YtScheduler.Threads.Machine
