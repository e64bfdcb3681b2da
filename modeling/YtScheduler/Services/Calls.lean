import YtScheduler.Services.Alone
import YtScheduler.Threads.Triples

/-! Calls made one after the other, each by a thread that runs alone, and whatever
happens in between. Each call may fail where the environment lets it fail. -/

namespace YtScheduler

open Threads

/-- The calls `call a` for `a` in a list. `between` is what may happen before a call, and the clock
does not go back: the calls begin at time `t` or later, and the last of them at `t'`. -/
inductive Successive {σ α : Type} (call : σ → P α) (between : Shared → Shared → Prop) :
    ℕ → Shared → List σ → ℕ → Shared → Prop
  | nil (t : ℕ) (s : Shared) : Successive call between t s [] t s
  | cons {a : σ} {as : List σ} {t t' i : ℕ} {s s₁ s₂ s' : Shared} {r : Except Exn α}
      (hbetween : between s s₁) (ht : t ≤ s₁.clock) (first : system.MayEnd i (call a) s₁ r s₂)
      (rest : Successive call between s₁.clock s₂ as t' s') : Successive call between t s (a :: as) t' s'

theorem Successive.keeps {σ α : Type} {call : σ → P α} {between : Shared → Shared → Prop}
    {I : ℕ → Shared → Prop} {t t' : ℕ} {s s' : Shared} {as : List σ}
    (h : Successive call between t s as t' s')
    (hcall : ∀ a ∈ as, ∀ i t s s₁, I t s → between s s₁ → t ≤ s₁.clock →
      system.Meets i (· = s₁) (call a) fun _ s₂ => I s₁.clock s₂) (h0 : I t s) : I t' s' := by
  induction h with
  | nil t s => exact h0
  | cons hbetween ht first rest ih =>
    exact ih (fun a ha => hcall a (List.mem_cons_of_mem _ ha))
      (hcall _ List.mem_cons_self _ _ _ _ h0 hbetween ht rfl first)

section Rules

variable {i : ℕ} {α : Type} {K : Shared → Prop}

/-- A transaction whose end retains `K`, begun where `pre` holds as well. -/
theorem meets_transaction {ytClient : Option Client} {body : P α} {pre : Shared → Prop} {V : α → Prop}
    (hK : ∀ s, pre s → K s)
    (hbegin : ∀ ch l s, pre s → pre ((Op.beginTx ytClient).exec i ch l s).2.2)
    (hcommit : ∀ ch l s, K s → K ((Op.commitTx ytClient).exec i ch l s).2.2)
    (habort : ∀ ch l s, K s → K ((Op.abortTx ytClient).exec i ch l s).2.2)
    (hbody : system.Meets i pre body fun r s => K s ∧ ∀ a, r = .ok a → V a) :
    system.Meets i pre (P.transaction ytClient body) fun r s => K s ∧ ∀ a, r = .ok a → V a := by
  have hcall : ∀ {o : Op}, (∀ ch l s, K s → K (o.exec i ch l s).2.2) →
      system.Retains i K (P.call o) fun _ => True := fun ho => .op ho fun _ _ _ _ _ _ => trivial
  refine Machine.Meets.bind (R := fun _ s => pre s) (.op hbegin) (fun _ => ?_)
    fun e s hs => ⟨hK s hs, nofun⟩
  refine Machine.Meets.bind (R := fun r s => K s ∧ ∀ a, r = .ok (.ok a) → V a)
    (.attempt (hbody.mono (fun _ hs => hs) fun r s hr => ⟨hr.1, ?_⟩)) (fun r => ?_)
    fun e s hs => ⟨hs.1, nofun⟩
  · rintro a ⟨⟩
    exact hr.2 a rfl
  · rintro s r' s' hs h
    have hV : ∀ a, r = .ok a → V a := by
      rintro a rfl
      exact hs.2 a rfl
    cases r with
    | ok a => exact ((hcall hcommit).bind fun _ _ => .ret (hV a rfl)) hs.1 h
    | error e => exact ((hcall habort).bind fun _ _ => .raise e) hs.1 h

end Rules

end YtScheduler
