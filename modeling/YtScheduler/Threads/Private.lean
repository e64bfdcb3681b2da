import YtScheduler.Threads.Watch

/-! Programs with operations on a state of their own. Some operations of a thread touch
nothing but its private state, so that no other thread can tell when they are made. They
may be carried out at once, which leaves a program of the shared operations. A program
acts as another one if, private operations carried out, it is that one, and leaves the
private state as it was, whatever it returns or raises. -/

namespace YtScheduler.Threads

variable {A S L : Type} {RetA : A → Type} {RetS : S → Type} {ε α β : Type}

/-- The results of private and of shared operations. -/
@[reducible] def Both (RetA : A → Type) (RetS : S → Type) : A ⊕ S → Type
  | .inl a => RetA a
  | .inr s => RetS s

/-- How private operations are carried out. -/
abbrev Handler (L : Type) (RetA : A → Type) (ε : Type) := L → (a : A) → Except ε (RetA a) × L

namespace Prog

/-- The program of the shared operations, with its outcome and the private state it ends in. -/
def localize (h : Handler L RetA ε) : L → Prog (A ⊕ S) (Both RetA RetS) ε α →
    Prog S RetS ε (Except ε α × L)
  | l, .ret a => .ret (.ok a, l)
  | l, .raise e => .ret (.error e, l)
  | l, .call (.inl a) k => localize h (h l a).2 (k (h l a).1)
  | l, .call (.inr s) k => .call s fun r => localize h l (k r)

/-- Private operations carried out, `p` is `q`, and leaves the private state `l` as it was. -/
def ActsAs (h : Handler L RetA ε) (l : L) (p : Prog (A ⊕ S) (Both RetA RetS) ε α)
    (q : Prog S RetS ε α) : Prop :=
  localize h l p = q.attempt.bind fun r => .ret (r, l)

variable {h : Handler L RetA ε} {l l' : L} {p : Prog (A ⊕ S) (Both RetA RetS) ε α}
  {q : Prog S RetS ε α}

theorem localize_bind (f : α → Prog (A ⊕ S) (Both RetA RetS) ε β) :
    localize h l (p.bind f) = (localize h l p).bind fun x =>
      match x.1 with
      | .ok a => localize h x.2 (f a)
      | .error e => .ret (.error e, x.2) := by
  induction p generalizing l with
  | ret a => rfl
  | raise e => rfl
  | call o k ih =>
    cases o with
    | inl a => exact ih _
    | inr s => exact congrArg (call s) (funext fun r => ih r)

theorem localize_attempt :
    localize h l p.attempt = (localize h l p).bind fun x => .ret (.ok x.1, x.2) := by
  induction p generalizing l with
  | ret a => rfl
  | raise e => rfl
  | call o k ih =>
    cases o with
    | inl a => exact ih _
    | inr s => exact congrArg (call s) (funext fun r => ih r)

theorem localize_op (a : A) :
    localize h l (op (Sum.inl a) : Prog (A ⊕ S) (Both RetA RetS) ε (RetA a)) = .ret (h l a) := by
  show localize h (h l a).2 _ = _
  rcases h l a with ⟨_ | r, l'⟩ <;> rfl

theorem attempt_bind (q : Prog S RetS ε α) (g : α → Prog S RetS ε β) :
    (q.bind g).attempt = q.attempt.bind fun r =>
      match r with
      | .ok a => (g a).attempt
      | .error e => .ret (.error e) := by
  induction q with
  | ret a => rfl
  | raise e => rfl
  | call o k ih => exact congrArg (call o) (funext ih)

theorem attempt_attempt (q : Prog S RetS ε α) :
    q.attempt.attempt = q.attempt.bind fun r => .ret (.ok r) := by
  induction q with
  | ret a => rfl
  | raise e => rfl
  | call o k ih => exact congrArg (call o) (funext ih)

namespace ActsAs

theorem ret (a : α) : ActsAs h l (.ret a : Prog (A ⊕ S) (Both RetA RetS) ε α) (.ret a) := rfl

theorem raise (e : ε) : ActsAs h l (.raise e : Prog (A ⊕ S) (Both RetA RetS) ε α) (.raise e) := rfl

theorem bind {f : α → Prog (A ⊕ S) (Both RetA RetS) ε β} {g : α → Prog S RetS ε β}
    (hp : ActsAs h l p q) (hf : ∀ a, ActsAs h l (f a) (g a)) : ActsAs h l (p.bind f) (q.bind g) := by
  rw [ActsAs, localize_bind, hp, attempt_bind, bind_assoc, bind_assoc]
  congr 1
  funext r
  cases r with
  | ok a => exact hf a
  | error e => rfl

theorem attempt (hp : ActsAs h l p q) : ActsAs h l p.attempt q.attempt := by
  rw [ActsAs, localize_attempt, hp, attempt_attempt, bind_assoc, bind_assoc]
  rfl

theorem catching {handler : ε → Prog (A ⊕ S) (Both RetA RetS) ε α} {handler' : ε → Prog S RetS ε α}
    (hp : ActsAs h l p q) (hh : ∀ e, ActsAs h l (handler e) (handler' e)) :
    ActsAs h l (p.catching handler) (q.catching handler') := by
  refine hp.attempt.bind fun r => ?_
  cases r with
  | ok a => exact .ret a
  | error e => exact hh e

/-- A shared operation. -/
theorem shared (s : S) :
    ActsAs h l (op (Sum.inr s) : Prog (A ⊕ S) (Both RetA RetS) ε (RetS s)) (op s) := by
  refine congrArg (call s) (funext fun r => ?_)
  cases r <;> rfl

end ActsAs

/-- What follows private operations that succeed. -/
theorem localize_bind_ret {a : α} {f : α → Prog (A ⊕ S) (Both RetA RetS) ε β}
    (hp : localize h l p = .ret (.ok a, l')) :
    localize h l (p.bind f) = localize h l' (f a) := by
  rw [localize_bind, hp]
  rfl

/-- Private operations that succeed and change nothing are not seen. -/
theorem ActsAs.after {a : α} {f : α → Prog (A ⊕ S) (Both RetA RetS) ε β} {q : Prog S RetS ε β}
    (hp : ActsAs h l p (.ret a)) (hf : ActsAs h l (f a) q) : ActsAs h l (p.bind f) q :=
  (localize_bind_ret hp).trans hf

end Prog

/-! ### Machines of such programs -/

/-- The outcome of a program that has ended. -/
def Prog.outcome? {Op : Type} {Ret : Op → Type} : Prog Op Ret ε α → Option (Except ε α)
  | .ret a => some (.ok a)
  | .raise e => some (.error e)
  | .call _ _ => none

namespace Machine

variable {Shared Choice Entry : Type}

/-- Threads with a private state each, which private operations act on. -/
def withPrivate (h : Handler L RetA ε) (exec : (s : S) → Choice → Shared → Except ε (RetS s) × Shared)
    (start : Entry → L × Prog (A ⊕ S) (Both RetA RetS) ε α) :
    Machine (A ⊕ S) (Both RetA RetS) ε L Shared Choice Entry α where
  exec
    | .inl a, _, _, l, sh => ((h l a).1, (h l a).2, sh)
    | .inr s, _, ch, l, sh => ((exec s ch sh).1, l, (exec s ch sh).2)
  start e _ := start e

/-- Threads without private operations, which return their outcome. The private state stays
as it was at first. -/
def withoutPrivate (exec : (s : S) → Choice → Shared → Except ε (RetS s) × Shared)
    (start : Entry → L × Prog S RetS ε α) :
    Machine S RetS ε L Shared Choice Entry (Except ε α) where
  exec s _ ch l sh := ((exec s ch sh).1, l, (exec s ch sh).2)
  start e _ := ((start e).1, (start e).2.attempt)

/-- Private operations carried out, the thread is the one beside it, and will leave its
private state as it was at first. -/
def Acts (h : Handler L RetA ε) (th : L × Prog (A ⊕ S) (Both RetA RetS) ε α)
    (th' : L × Prog S RetS ε (Except ε α)) : Prop :=
  th.2.localize h th.1 = th'.2.bind fun r => .ret (r, th'.1)

/-- The shared states are the same, and the threads act as those beside them. -/
structure SysActs (h : Handler L RetA ε) (σ : Sys (A ⊕ S) (Both RetA RetS) ε L Shared α)
    (τ : Sys S RetS ε L Shared (Except ε α)) : Prop where
  shared : τ.shared = σ.shared
  length : τ.threads.length = σ.threads.length
  threads : ∀ (i : ℕ) (th : L × Prog (A ⊕ S) (Both RetA RetS) ε α) (th' : L × Prog S RetS ε (Except ε α)),
    σ.threads[i]? = some th → τ.threads[i]? = some th' → Acts h th th'

variable {h : Handler L RetA ε} {exec : (s : S) → Choice → Shared → Except ε (RetS s) × Shared}
  {start : Entry → L × Prog (A ⊕ S) (Both RetA RetS) ε α} {start' : Entry → L × Prog S RetS ε α}
  {σ σ' : Sys (A ⊕ S) (Both RetA RetS) ε L Shared α} {τ : Sys S RetS ε L Shared (Except ε α)}

/-- A thread that has ended has left its private state as it was at first. -/
theorem Acts.ended {l l' : L} {p : Prog (A ⊕ S) (Both RetA RetS) ε α} {q : Prog S RetS ε (Except ε α)}
    {r : Except ε α} (ha : Acts h (l, p) (l', q)) (hr : p.outcome? = some r) : q = .ret r ∧ l = l' := by
  have hp : p.localize h l = .ret (r, l) := by
    cases p with
    | ret a => cases hr; rfl
    | raise e => cases hr; rfl
    | call o k => cases hr
  rw [Acts, hp] at ha
  cases q with
  | ret r' => cases ha; exact ⟨rfl, rfl⟩
  | raise e => cases ha
  | call s k => cases ha

/-- A thread that is about to make a shared call is about to make it in both machines. -/
theorem Acts.call {l l' : L} {s : S} {k : Except ε (RetS s) → Prog (A ⊕ S) (Both RetA RetS) ε α}
    {q : Prog S RetS ε (Except ε α)} (ha : Acts h (l, .call (.inr s) k) (l', q)) :
    ∃ k', q = .call s k' ∧ ∀ r, Acts h (l, k r) (l', k' r) := by
  cases q with
  | ret a => cases ha
  | raise e => cases ha
  | call s' k' =>
    rw [Acts] at ha
    injection ha with hs hk
    subst hs
    exact ⟨k', rfl, fun r => congrFun (eq_of_heq hk) r⟩

theorem SysActs.spawn {th : L × Prog (A ⊕ S) (Both RetA RetS) ε α} {th' : L × Prog S RetS ε (Except ε α)}
    (hR : SysActs h σ τ) (ha : Acts h th th') :
    SysActs h { σ with threads := σ.threads ++ [th] } { τ with threads := τ.threads ++ [th'] } := by
  refine ⟨hR.shared, by simp [hR.length], fun i x y hx hy => ?_⟩
  rw [List.getElem?_append] at hx hy
  rw [hR.length] at hy
  split_ifs at hx hy with hlt
  · exact hR.threads i x y hx hy
  · rw [List.getElem?_singleton] at hx hy
    split_ifs at hx hy
    cases hx
    cases hy
    exact ha

theorem SysActs.set {i : ℕ} {th : L × Prog (A ⊕ S) (Both RetA RetS) ε α}
    {th' : L × Prog S RetS ε (Except ε α)} {sh : Shared} (hR : SysActs h σ τ) (ha : Acts h th th') :
    SysActs h ⟨sh, σ.threads.set i th⟩ ⟨sh, τ.threads.set i th'⟩ := by
  refine ⟨rfl, by simp [hR.length], fun j x y hx hy => ?_⟩
  rw [List.getElem?_set] at hx hy
  rw [hR.length] at hy
  split_ifs at hx hy
  · cases hx
    cases hy
    exact ha
  · exact hR.threads j x y hx hy

/-- A step that acts on a private state is not seen; a shared call is made in both machines. -/
theorem SysActs.act {a : Action Choice Entry} (hR : SysActs h σ τ)
    (hstart : ∀ e, (start e).1 = (start' e).1 ∧ (start e).2.ActsAs h (start e).1 (start' e).2)
    (ha : (withPrivate h exec start).act σ a = some σ') :
    SysActs h σ' τ ∨ ∃ τ', (withoutPrivate exec start').act τ a = some τ' ∧ SysActs h σ' τ' := by
  rcases act_cases ha with ⟨e, rfl, rfl⟩ | ⟨i, ch, l, o, k, rfl, hth, rfl⟩
  · refine Or.inr ⟨_, rfl, hR.spawn ?_⟩
    obtain ⟨hl, hacts⟩ := hstart e
    rw [hl] at hacts
    show Prog.localize h (start e).1 (start e).2 = _
    rw [hl]
    exact hacts
  · obtain ⟨hi, hth⟩ := List.getElem?_eq_some_iff.mp hth
    have hi' : i < τ.threads.length := hR.length ▸ hi
    rcases hq : τ.threads[i] with ⟨l', q⟩
    have hacts : Acts h (l, .call o k) (l', q) :=
      hth ▸ hq ▸ hR.threads i _ _ (List.getElem?_eq_getElem hi) (List.getElem?_eq_getElem hi')
    cases o with
    | inl a =>
      refine Or.inl ?_
      have hset : SysActs h ⟨σ.shared, σ.threads.set i ((h l a).2, k (h l a).1)⟩
          ⟨σ.shared, τ.threads.set i (l', q)⟩ := hR.set hacts
      rw [← hq, List.set_getElem_self] at hset
      exact ⟨hR.shared, hset.length, hset.threads⟩
    | inr s =>
      obtain ⟨k', rfl, hk⟩ := hacts.call
      refine Or.inr ⟨_, ?_, hR.set (hk _)⟩
      simp [Machine.act, List.getElem?_eq_getElem hi', hq, withoutPrivate, withPrivate, hR.shared]

/-- Every run is one of the threads without private operations, some of its steps left out. -/
theorem SysActs.run {as : List (Action Choice Entry)} (hact : SysActs h σ τ)
    (hstart : ∀ e, (start e).1 = (start' e).1 ∧ (start e).2.ActsAs h (start e).1 (start' e).2)
    (hrun : (withPrivate h exec start).run σ as = some σ') :
    ∃ as' τ', as'.Sublist as ∧ (withoutPrivate exec start').run τ as' = some τ' ∧ SysActs h σ' τ' := by
  induction as generalizing σ τ with
  | nil =>
    cases hrun
    exact ⟨[], τ, .slnil, rfl, hact⟩
  | cons a as ih =>
    obtain ⟨σ₁, h1, h2⟩ := Option.bind_eq_some_iff.mp hrun
    rcases hact.act hstart h1 with hact' | ⟨τ₁, h1', hact'⟩
    · obtain ⟨as', τ', hsub, hrun', hR⟩ := ih hact' h2
      exact ⟨as', τ', hsub.cons a, hrun', hR⟩
    · obtain ⟨as', τ', hsub, hrun', hR⟩ := ih hact' h2
      exact ⟨a :: as', τ', hsub.cons_cons a, by simp [Machine.run, h1', hrun'], hR⟩

/-- What holds of the threads at first and is kept by their own calls holds in every run. -/
theorem each_induction {Op Loc : Type} {Ret : Op → Type} {M : Machine Op Ret ε Loc Shared Choice Entry α}
    {ρ ρ' : Sys Op Ret ε Loc Shared α} {as : List (Action Choice Entry)} {K : Shared → Prop}
    {J : ℕ → Loc × Prog Op Ret ε α → Prop} (hK : K ρ.shared)
    (hJ : ∀ (i : ℕ) (th : Loc × Prog Op Ret ε α), ρ.threads[i]? = some th → J i th)
    (hstart : ∀ e i, ρ.threads.length ≤ i → J i (M.start e i))
    (hstep : ∀ o i ch l k s, K s → J i (l, .call o k) → K (M.exec o i ch l s).2.2 ∧
      J i ((M.exec o i ch l s).2.1, k (M.exec o i ch l s).1))
    (h : M.run ρ as = some ρ') :
    K ρ'.shared ∧ ∀ (i : ℕ) (th : Loc × Prog Op Ret ε α), ρ'.threads[i]? = some th → J i th := by
  refine (run_induction (P := fun ρ' => ρ.threads.length ≤ ρ'.threads.length ∧ K ρ'.shared ∧
    ∀ (i : ℕ) (th : Loc × Prog Op Ret ε α), ρ'.threads[i]? = some th → J i th)
    ⟨Nat.le_refl _, hK, hJ⟩ ?_ h).2
  rintro ρ₁ a ρ₂ ⟨hlen, hK₁, hJ₁⟩ ha
  rcases act_cases ha with ⟨e, rfl, rfl⟩ | ⟨i, ch, l, o, k, rfl, hth, rfl⟩
  · refine ⟨by simp only [List.length_append]; omega, hK₁, fun j th hj => ?_⟩
    rw [List.getElem?_append] at hj
    split_ifs at hj with hlt
    · exact hJ₁ j th hj
    · rw [List.getElem?_singleton] at hj
      split_ifs at hj
      cases hj
      have hj' : ρ₁.threads.length = j := by omega
      exact hj' ▸ hstart e _ hlen
  · obtain ⟨hK₂, hJ₂⟩ := hstep o i ch l k ρ₁.shared hK₁ (hJ₁ i _ hth)
    refine ⟨by simpa using hlen, hK₂, fun j th hj => ?_⟩
    rw [List.getElem?_set] at hj
    split_ifs at hj with hij
    · cases hj
      exact hij ▸ hJ₂
    · exact hJ₁ j th hj

end Machine

end YtScheduler.Threads
