import YtScheduler.Threads.Machine

/-! A rely/guarantee rule for interleaved programs. A contract names the invariant
of the shared state, what a thread may rely on between its own calls, and what it
guarantees of each call. A program is safe when each of its calls, made in any
state the others may have left, keeps the invariant, gives every other thread
what that thread relies on, and meets the guarantee; its outcome then satisfies
the postcondition. A system all of whose threads are safe keeps the invariant in
every run, and every step of it meets the guarantee. -/

namespace YtScheduler.Threads

variable {Op : Type} {Ret : Op → Type} {ε Loc Shared Choice Entry α β : Type}

/-- `grows` is what every step keeps, and `fresh i` what the state says of a thread number `i`
not yet in use. -/
structure Contract (Op Loc Shared : Type) where
  inv : Shared → Prop
  grows : Shared → Shared → Prop
  rely : ℕ → Shared → Shared → Prop
  guar : Op → ℕ → Loc → Shared → Loc → Shared → Prop
  fresh : ℕ → Shared → Prop
  refl : ∀ i s, rely i s s
  trans : ∀ i s s' s'', rely i s s' → rely i s' s'' → rely i s s''
  fresh_rely : ∀ i s s', rely i s s' → fresh i s → fresh i s'
  grows_refl : ∀ s, grows s s
  grows_trans : ∀ s s' s'', grows s s' → grows s' s'' → grows s s''
  rely_grows : ∀ i s s', rely i s s' → grows s s'
  guar_grows : ∀ o i l s l' s', guar o i l s l' s' → grows s s'

/-- An outcome of a program with the private and the shared state it ends in. -/
abbrev Post (ε α Loc Shared : Type) := Except ε α → Loc → Shared → Prop

section Safe

variable (M : Machine Op Ret ε Loc Shared Choice Entry β) (C : Contract Op Loc Shared) (i : ℕ)

/-- What one call of thread `i` owes: the invariant, the others' relies, the guarantee. -/
structure Owed (o : Op) (l : Loc) (s : Shared) (l' : Loc) (s' : Shared) : Prop where
  inv : C.inv s'
  rely : ∀ j, j ≠ i → C.rely j s s'
  guar : C.guar o i l s l' s'

/-- The program meets the contract from private state `l`, last seen shared state `s`. -/
def Safe (p : Prog Op Ret ε α) (Q : Post ε α Loc Shared) (l : Loc) (s : Shared) : Prop :=
  match p with
  | .ret a => Q (.ok a) l s
  | .raise e => Q (.error e) l s
  | .call o k =>
    ∀ s₁, C.rely i s s₁ → C.inv s₁ → ∀ ch,
      Owed C i o l s₁ (M.exec o i ch l s₁).2.1 (M.exec o i ch l s₁).2.2 ∧
        Safe (k (M.exec o i ch l s₁).1) Q (M.exec o i ch l s₁).2.1 (M.exec o i ch l s₁).2.2

end Safe

namespace Safe

variable {M : Machine Op Ret ε Loc Shared Choice Entry β} {C : Contract Op Loc Shared} {i : ℕ}
  {γ : Type} {p : Prog Op Ret ε α} {Q Q' : Post ε α Loc Shared} {l : Loc} {s s' : Shared}

theorem mono (h : Safe M C i p Q l s) (hQ : ∀ r l s, Q r l s → Q' r l s) : Safe M C i p Q' l s := by
  induction p generalizing l s with
  | ret a => exact hQ _ _ _ h
  | raise e => exact hQ _ _ _ h
  | call o k ih =>
    intro s₁ hr hi ch
    exact ⟨(h s₁ hr hi ch).1, ih _ (h s₁ hr hi ch).2⟩

/-- Interference before the first call changes nothing, if the postcondition is stable. -/
theorem rely (h : Safe M C i p Q l s) (hr : C.rely i s s') (hi : C.inv s')
    (hQ : ∀ r l s s', Q r l s → C.rely i s s' → C.inv s' → Q r l s') : Safe M C i p Q l s' := by
  cases p with
  | ret a => exact hQ _ _ _ _ h hr hi
  | raise e => exact hQ _ _ _ _ h hr hi
  | call o k => exact fun s₁ hr₁ hi₁ ch => h s₁ (C.trans _ _ _ _ hr hr₁) hi₁ ch

theorem bind {f : α → Prog Op Ret ε γ} {R : Post ε γ Loc Shared}
    (h : Safe M C i p (fun r l s =>
      match r with
      | .ok a => Safe M C i (f a) R l s
      | .error e => R (.error e) l s) l s) : Safe M C i (p.bind f) R l s := by
  induction p generalizing l s with
  | ret a => exact h
  | raise e => exact h
  | call o k ih =>
    intro s₁ hr hi ch
    exact ⟨(h s₁ hr hi ch).1, ih _ (h s₁ hr hi ch).2⟩

theorem attempt {R : Post ε (Except ε α) Loc Shared}
    (h : Safe M C i p (fun r l s => R (.ok r) l s) l s) : Safe M C i p.attempt R l s := by
  induction p generalizing l s with
  | ret a => exact h
  | raise e => exact h
  | call o k ih =>
    intro s₁ hr hi ch
    exact ⟨(h s₁ hr hi ch).1, ih _ (h s₁ hr hi ch).2⟩

theorem catching {hd : ε → Prog Op Ret ε α}
    (h : Safe M C i p (fun r l s =>
      match r with
      | .ok a => Q (.ok a) l s
      | .error e => Safe M C i (hd e) Q l s) l s) : Safe M C i (p.catching hd) Q l s := by
  refine bind (attempt (h.mono fun r l s hQ => ?_))
  cases r <;> exact hQ

/-- The rule for one operation. -/
theorem op {o : Op} {R : Post ε (Ret o) Loc Shared}
    (h : ∀ s₁, C.rely i s s₁ → C.inv s₁ → ∀ ch,
      Owed C i o l s₁ (M.exec o i ch l s₁).2.1 (M.exec o i ch l s₁).2.2 ∧
        R (M.exec o i ch l s₁).1 (M.exec o i ch l s₁).2.1 (M.exec o i ch l s₁).2.2) :
    Safe M C i (Prog.op o) R l s := by
  intro s₁ hr hi ch
  refine ⟨(h s₁ hr hi ch).1, ?_⟩
  have hR := (h s₁ hr hi ch).2
  revert hR
  cases (M.exec o i ch l s₁).1 <;> exact id

theorem of_op {o : Op} {R : Post ε (Ret o) Loc Shared} (h : Safe M C i (Prog.op o) R l s) :
    ∀ s₁, C.rely i s s₁ → C.inv s₁ → ∀ ch,
      Owed C i o l s₁ (M.exec o i ch l s₁).2.1 (M.exec o i ch l s₁).2.2 ∧
        R (M.exec o i ch l s₁).1 (M.exec o i ch l s₁).2.1 (M.exec o i ch l s₁).2.2 := by
  intro s₁ hr hi ch
  refine ⟨(h s₁ hr hi ch).1, ?_⟩
  have hR := (h s₁ hr hi ch).2
  revert hR
  cases (M.exec o i ch l s₁).1 <;> exact id

/-- A loop whose body keeps `K`, or ends it with an exception. -/
theorem forEach {xs : List γ} {body : γ → Prog Op Ret ε Unit} {K : Loc → Shared → Prop}
    {R : Post ε Unit Loc Shared} (hK : K l s)
    (hb : ∀ x ∈ xs, ∀ l s, K l s → Safe M C i (body x) (fun r l s =>
      match r with
      | .ok _ => K l s
      | .error e => R (.error e) l s) l s)
    (hR : ∀ l s, K l s → R (.ok ()) l s) : Safe M C i (Prog.forEach xs body) R l s := by
  induction xs generalizing l s with
  | nil => exact hR l s hK
  | cons x xs ih =>
    refine bind ((hb x List.mem_cons_self l s hK).mono fun r l s hr => ?_)
    cases r with
    | ok _ => exact ih hr fun y hy => hb y (List.mem_cons_of_mem _ hy)
    | error e => exact hr

/-- A stable assertion that the calls a program may make keep holds of the outcome as well. -/
theorem and_of_uses {P : Op → Prop} {K : Loc → Shared → Prop} (h : Safe M C i p Q l s) (hp : p.Uses P)
    (hK : K l s) (hstable : ∀ l s s', K l s → C.rely i s s' → C.inv s' → K l s')
    (hop : ∀ o, P o → ∀ l s, K l s → ∀ ch, K (M.exec o i ch l s).2.1 (M.exec o i ch l s).2.2) :
    Safe M C i p (fun r l s => Q r l s ∧ K l s) l s := by
  induction p generalizing l s with
  | ret a => exact ⟨h, hK⟩
  | raise e => exact ⟨h, hK⟩
  | call o k ih =>
    intro s₁ hr hi ch
    obtain ⟨howed, hrest⟩ := h s₁ hr hi ch
    exact ⟨howed, ih _ hrest (hp.2 _) (hop o hp.1 l s₁ (hstable _ _ _ hK hr hi) ch)⟩

/-- A stable assertion that every call a program may make keeps. -/
theorem of_uses {P : Op → Prop} {K : Loc → Shared → Prop} (hp : p.Uses P) (hK : K l s)
    (hstable : ∀ l s s', K l s → C.rely i s s' → C.inv s' → K l s')
    (hop : ∀ o, P o → ∀ l s, K l s → C.inv s → ∀ ch,
      Owed C i o l s (M.exec o i ch l s).2.1 (M.exec o i ch l s).2.2 ∧
        K (M.exec o i ch l s).2.1 (M.exec o i ch l s).2.2) : Safe M C i p (fun _ => K) l s := by
  induction p generalizing l s with
  | ret a => exact hK
  | raise e => exact hK
  | call o k ih =>
    intro s₁ hr hi ch
    obtain ⟨howed, hK'⟩ := hop o hp.1 l s₁ (hstable _ _ _ hK hr hi) hi ch
    exact ⟨howed, ih _ (hp.2 _) hK'⟩

/-- A program grows the shared state. -/
theorem grows (h : Safe M C i p Q l s) :
    Safe M C i p (fun r l' s' => Q r l' s' ∧ C.grows s s') l s := by
  suffices ∀ s₀, C.grows s₀ s → Safe M C i p (fun r l' s' => Q r l' s' ∧ C.grows s₀ s') l s from
    this s (C.grows_refl s)
  induction p generalizing l s with
  | ret a => exact fun _ hg => ⟨h, hg⟩
  | raise e => exact fun _ hg => ⟨h, hg⟩
  | call o k ih =>
    intro s₀ hg s₁ hr hi ch
    have hs := h s₁ hr hi ch
    have hg₁ := C.grows_trans _ _ _ hg (C.rely_grows _ _ _ hr)
    exact ⟨hs.1, ih _ hs.2 s₀ (C.grows_trans _ _ _ hg₁ (C.guar_grows _ _ _ _ _ _ hs.1.guar))⟩

/-! ### Assertions that hold whatever the outcome -/

section Keeps

variable {W : Type} {w : W} {K : W → Loc → Shared → Prop} {A A' : α → W → Loc → Shared → Prop}
  {B : γ → W → Loc → Shared → Prop}

/-- `K` holds of the outcome for some parameter, and `A` of a result. -/
def Keeps (K : W → Loc → Shared → Prop) (A : α → W → Loc → Shared → Prop) : Post ε α Loc Shared
  | .ok a, l, s => ∃ w, K w l s ∧ A a w l s
  | .error _, l, s => ∃ w, K w l s

theorem keeps_conseq (h : Safe M C i p (Keeps K A) l s)
    (hA : ∀ a w l' s', K w l' s' → C.grows s s' → A a w l' s' → A' a w l' s') :
    Safe M C i p (Keeps K A') l s := by
  refine h.grows.mono fun r l' s' hr => ?_
  obtain ⟨hr, hg⟩ := hr
  cases r with
  | ok a =>
    obtain ⟨w', hK, ha⟩ := hr
    exact ⟨w', hK, hA a w' l' s' hK hg ha⟩
  | error e => exact hr

theorem keeps_bind {f : α → Prog Op Ret ε γ} (hp : Safe M C i p (Keeps K A) l s)
    (hf : ∀ a w l' s', K w l' s' → A a w l' s' → C.grows s s' →
      Safe M C i (f a) (Keeps K B) l' s') : Safe M C i (p.bind f) (Keeps K B) l s := by
  refine bind (hp.grows.mono fun r l' s' hr => ?_)
  obtain ⟨hr, hg⟩ := hr
  cases r with
  | ok a =>
    obtain ⟨w', hK, ha⟩ := hr
    exact hf a w' l' s' hK ha hg
  | error e => exact hr

theorem keeps_attempt (hp : Safe M C i p (Keeps K A) l s) :
    Safe M C i p.attempt (Keeps K fun r w l s => ∀ a, r = .ok a → A a w l s) l s := by
  refine attempt (hp.mono fun r l' s' hr => ?_)
  cases r with
  | ok a =>
    obtain ⟨w', hK, ha⟩ := hr
    exact ⟨w', hK, fun a' he => by cases he; exact ha⟩
  | error e =>
    obtain ⟨w', hK⟩ := hr
    exact ⟨w', hK, fun a' he => by cases he⟩

theorem keeps_catching {hd : ε → Prog Op Ret ε α} (hp : Safe M C i p (Keeps K A) l s)
    (hh : ∀ e w l' s', K w l' s' → C.grows s s' → Safe M C i (hd e) (Keeps K A) l' s') :
    Safe M C i (p.catching hd) (Keeps K A) l s := by
  refine catching (hp.grows.mono fun r l' s' hr => ?_)
  obtain ⟨hr, hg⟩ := hr
  cases r with
  | ok a => exact hr
  | error e =>
    obtain ⟨w', hK⟩ := hr
    exact hh e w' l' s' hK hg

theorem keeps_forEach {xs : List γ} {body : γ → Prog Op Ret ε Unit} (hK : K w l s)
    (hb : ∀ x ∈ xs, ∀ w l' s', K w l' s' → C.grows s s' →
      Safe M C i (body x) (Keeps K fun _ _ _ _ => True) l' s') :
    Safe M C i (Prog.forEach xs body) (Keeps K fun _ _ _ _ => True) l s := by
  induction xs generalizing w l s with
  | nil => exact ⟨w, hK, trivial⟩
  | cons x xs ih =>
    refine keeps_bind (hb x List.mem_cons_self w l s hK (C.grows_refl s)) fun _ w' l' s' hK' _ hg => ?_
    refine ih hK' fun y hy w'' l'' s'' hK'' hg' => ?_
    exact hb y (List.mem_cons_of_mem _ hy) w'' l'' s'' hK'' (C.grows_trans _ _ _ hg hg')

end Keeps

/-! ### Assertions about results only -/

section Returns

variable {A A' : α → Loc → Shared → Prop} {B : γ → Loc → Shared → Prop}

/-- `A` holds of a result; nothing is said of an exception. -/
def Returns (A : α → Loc → Shared → Prop) : Post ε α Loc Shared :=
  fun r l s => ∀ a, r = .ok a → A a l s

theorem returns_ret {a : α} (h : A a l s) : Safe M C i (.ret a : Prog Op Ret ε α) (Returns A) l s := by
  rintro _ ⟨⟩
  exact h

theorem returns_raise (e : ε) : Safe M C i (.raise e : Prog Op Ret ε α) (Returns A) l s :=
  fun _ he => nomatch he

theorem returns_bind {f : α → Prog Op Ret ε γ} (hp : Safe M C i p (Returns A) l s)
    (hf : ∀ a l' s', A a l' s' → Safe M C i (f a) (Returns B) l' s') :
    Safe M C i (p.bind f) (Returns B) l s := by
  refine bind (hp.mono fun r l' s' hr => ?_)
  cases r with
  | ok a => exact hf a l' s' (hr a rfl)
  | error e => exact fun _ he => nomatch he

/-- A loop each round of which adds to what holds. -/
theorem returns_forEach {body : γ → Prog Op Ret ε Unit} {K : List γ → Loc → Shared → Prop}
    {done xs : List γ} (hK : K done l s)
    (hb : ∀ x done' rest l s, done ++ xs = done' ++ x :: rest → K done' l s →
      Safe M C i (body x) (Returns fun _ => K (done' ++ [x])) l s) :
    Safe M C i (Prog.forEach xs body) (Returns fun _ => K (done ++ xs)) l s := by
  induction xs generalizing done l s with
  | nil => exact returns_ret (by simpa using hK)
  | cons x xs ih =>
    refine returns_bind (hb x done xs l s rfl hK) fun _ l' s' hK' => ?_
    rw [List.append_cons] at hb ⊢
    exact ih hK' hb

theorem returns_catching {hd : ε → Prog Op Ret ε α} (hp : Safe M C i p (Returns A) l s)
    (hh : ∀ e l' s', Safe M C i (hd e) (Returns A) l' s') :
    Safe M C i (p.catching hd) (Returns A) l s := by
  refine catching (hp.mono fun r l' s' hr => ?_)
  cases r with
  | ok a => exact hr
  | error e => exact hh e l' s'

end Returns

end Safe

/-! ### Systems of safe threads -/

section System

variable {M : Machine Op Ret ε Loc Shared Choice Entry α} {C : Contract Op Loc Shared}
  {Q : ℕ → Post ε α Loc Shared}

/-- The invariant holds, every thread is safe, and the unused thread numbers are fresh. -/
structure Sound (M : Machine Op Ret ε Loc Shared Choice Entry α) (C : Contract Op Loc Shared)
    (Q : ℕ → Post ε α Loc Shared) (σ : Sys Op Ret ε Loc Shared α) : Prop where
  inv : C.inv σ.shared
  safe : ∀ i th, σ.threads[i]? = some th → Safe M C i th.2 (Q i) th.1 σ.shared
  fresh : ∀ i, σ.threads.length ≤ i → C.fresh i σ.shared

variable {σ σ' : Sys Op Ret ε Loc Shared α}

/-- One step of a sound system is one call of a thread, and it meets the guarantee. -/
theorem Sound.step (h : Sound M C Q σ) {i : ℕ} {ch : Choice} (ha : M.act σ (.step i ch) = some σ') :
    ∃ l o k, σ.threads[i]? = some (l, .call o k) ∧
      σ' = ⟨(M.exec o i ch l σ.shared).2.2,
        σ.threads.set i ((M.exec o i ch l σ.shared).2.1, k (M.exec o i ch l σ.shared).1)⟩ ∧
      Owed C i o l σ.shared (M.exec o i ch l σ.shared).2.1 σ'.shared ∧
      Safe M C i (k (M.exec o i ch l σ.shared).1) (Q i) (M.exec o i ch l σ.shared).2.1 σ'.shared := by
  simp only [Machine.act] at ha
  split at ha
  · rename_i l o k hth
    cases ha
    have hs := h.safe i _ hth σ.shared (C.refl _ _) h.inv ch
    exact ⟨l, o, k, hth, rfl, hs⟩
  · cases ha

/-- The postconditions survive interference, and every entry of `E` is safe when spawned. -/
structure Startable (M : Machine Op Ret ε Loc Shared Choice Entry α) (C : Contract Op Loc Shared)
    (Q : ℕ → Post ε α Loc Shared) (E : Entry → Prop) : Prop where
  stable : ∀ i r l s s', Q i r l s → C.rely i s s' → C.inv s' → Q i r l s'
  start : ∀ e, E e → ∀ i s, C.inv s → C.fresh i s →
    Safe M C i (M.start e i).2 (Q i) (M.start e i).1 s

variable {E : Entry → Prop}

/-- The step lemma: actions that spawn entries of `E` only keep a system sound. -/
theorem Sound.act (h : Sound M C Q σ) (hE : Startable M C Q E) {a : Action Choice Entry}
    (hin : a.Within E) (ha : M.act σ a = some σ') : Sound M C Q σ' := by
  cases a with
  | spawn e =>
    cases ha
    refine ⟨h.inv, fun i th hth => ?_, fun i hi => h.fresh i ?_⟩
    · rcases Nat.lt_or_ge i σ.threads.length with hi | hi
      · exact h.safe i th (by rwa [List.getElem?_append_left hi] at hth)
      · rw [List.getElem?_append_right hi, List.getElem?_singleton] at hth
        split at hth
        · cases hth
          obtain rfl : i = σ.threads.length := by omega
          exact hE.start e hin _ _ h.inv (h.fresh _ (Nat.le_refl _))
        · cases hth
    · simp only [List.length_append, List.length_singleton] at hi
      omega
  | step i ch =>
    obtain ⟨l, o, k, hth, hσ', howed, hsafe⟩ := h.step ha
    have hlt : i < σ.threads.length := (List.getElem?_eq_some_iff.mp hth).1
    refine ⟨howed.inv, fun j th hj => ?_, fun j hj => ?_⟩
    · rw [hσ'] at hj
      by_cases hij : i = j
      · subst hij
        rw [List.getElem?_set_self hlt] at hj
        cases hj
        exact hsafe
      · rw [List.getElem?_set_ne hij] at hj
        exact (h.safe j th hj).rely (howed.rely j (Ne.symm hij)) howed.inv (hE.stable j)
    · have hlen : σ'.threads.length = σ.threads.length := by rw [hσ', List.length_set]
      have hij : j ≠ i := by omega
      exact C.fresh_rely j _ _ (howed.rely j hij) (h.fresh j (hlen ▸ hj))

/-- The run lemma. -/
theorem Sound.run (h : Sound M C Q σ) (hE : Startable M C Q E) {as : List (Action Choice Entry)}
    (hin : ∀ a ∈ as, a.Within E) (hr : M.run σ as = some σ') : Sound M C Q σ' :=
  Machine.along_induction h (fun _ _ _ h hin ha => h.act hE hin ha) (Machine.along_of_forall hin) hr

/-- Conditions on the actions of a run may be exchanged that agree in sound states. -/
theorem Sound.along_imp (h : Sound M C Q σ) (hE : Startable M C Q E)
    {as : List (Action Choice Entry)} (hin : ∀ a ∈ as, a.Within E)
    {A B : Sys Op Ret ε Loc Shared α → Action Choice Entry → Prop}
    (himp : ∀ σ a, Sound M C Q σ → A σ a → B σ a) (ha : M.Along A σ as) : M.Along B σ as :=
  Machine.along_imp h (fun _ _ _ h hA ha => h.act hE hA.1 ha)
    (fun σ a h hA => himp σ a h hA.2) (Machine.along_and (Machine.along_of_forall hin) ha)

end System

end YtScheduler.Threads
