import YtScheduler.Clients.Machine

/-! Which client a statement goes through. Threads that get their clients from decorators and
wrappers behave, however they are interleaved, as threads to which the context and its client are
handed down; no client is used by a thread it was not created for, and within a context
all statements go through one client. -/

namespace YtScheduler.Clients

open Quoting Threads

variable {α : Type} {as : List (Action (Except Exn ℕ) (Entry α))} {σ : ThreadState α}

/-! ### Scopes -/

/-- Threads keep the private state they were started with. -/
theorem scoped_vars {as : List (Action (Except Exn ℕ) (Entry α))} {τ : ScopedState α}
    (h : (scopedMachine α).run noThreads as = some τ) (i : ℕ) (v : Vars) (q : Scoped (Except Exn α))
    (hi : τ.threads[i]? = some (v, q)) : v = Vars.initial v.ident := by
  refine (Machine.each_induction (K := fun _ => True) (J := fun _ th => th.1 = Vars.initial th.1.ident)
    trivial (by simp [noThreads]) (fun e i _ => rfl) ?_ h).2 i _ hi
  intro o i ch l k s _ hl
  exact ⟨trivial, hl⟩

/-- Every run of threads that set and reset their context variables is a run of the threads that
are handed their contexts down: the statements and the clients are the same, and every thread
that has ended has the same outcome, and its variables as they were at first. -/
theorem contexts_are_lexical (h : (machine α).run noThreads as = some σ) :
    ∃ as' τ, as'.Sublist as ∧ (scopedMachine α).run noThreads as' = some τ ∧ τ.shared = σ.shared ∧
      τ.threads.length = σ.threads.length ∧
      ∀ (i : ℕ) (v : Vars) (p : Routine α) (r : Except Exn α), σ.threads[i]? = some (v, p) →
        p.outcome? = some r → τ.threads[i]? = some (v, Prog.ret r) ∧ v = Vars.initial v.ident := by
  obtain ⟨as', τ, hsub, hrun, hR⟩ := run_acts noThreads_acts h
  refine ⟨as', τ, hsub, hrun, hR.shared, hR.length, fun i v p r hi hr => ?_⟩
  have hi' : i < τ.threads.length := by
    rw [hR.length]
    exact (List.getElem?_eq_some_iff.mp hi).1
  have hth := List.getElem?_eq_getElem hi'
  rcases hq : τ.threads[i] with ⟨v', q⟩
  rw [hq] at hth
  obtain ⟨rfl, rfl⟩ := (hR.threads i _ _ hi hth).ended hr
  exact ⟨hth, scoped_vars hrun i v _ hth⟩

/-- The context of a job, and the client of it in the thread 7. -/
def sampleContext : ClientContext := ⟨0, ⟨⟨none, ['/']⟩⟩⟩

def sampleClient : YtClient := ⟨0, sampleContext.agent.key none none 7⟩

/-- Two statements in the context, made by a function that is called by one without a client. -/
def sampleEntry : Entry ℕ :=
  ⟨7, .wrapper { context := some (some sampleContext) } false true
    (.procedure (.function false (.statement 0 fun _ => .statement 1 .ret)))⟩

/-- The first `n` steps of the thread. -/
def sampleRun (n : ℕ) : List (Action (Except Exn ℕ) (Entry ℕ)) :=
  .spawn sampleEntry :: List.replicate n (.step 0 (.ok 0))

theorem contexts_are_lexical_sample : ∃ as' τ, as'.Sublist (sampleRun 16) ∧
    (scopedMachine ℕ).run noThreads as' = some τ ∧
    τ.threads[0]? = some (Vars.initial 7, Prog.ret (.ok 0)) := by
  obtain ⟨σ, h⟩ := Option.isSome_iff_exists.mp
    (show ((machine ℕ).run noThreads (sampleRun 16)).isSome from rfl)
  have hi : ∃ v, v.ident = 7 ∧ σ.threads[0]? = some (v, Prog.ret 0) := by
    cases h
    exact ⟨_, rfl, rfl⟩
  obtain ⟨v, hv, hi⟩ := hi
  obtain ⟨as', τ, hsub, hrun, -, -, hend⟩ := contexts_are_lexical h
  obtain ⟨hth, hvars⟩ := hend 0 v _ _ hi rfl
  exact ⟨as', τ, hsub, hrun, by rw [hth, hvars, hv]⟩

/-! ### Threads and their clients -/

/-- A thread of identity `ident` asks for clients of its own, and uses no others. -/
def confined (ident : ℕ) : Watch ClientOp ClientOp.Ret Exn Unit where
  see _ _ _ := ()
  outcomes
    | .createCached key, r => ∀ c, r = .ok c → c.created = key
    | .use _ _, _ => True
  calls _
    | .createCached key => key.threadId = ident
    | .use c _ => c.created.threadId = ident

/-- The client was created for the thread. -/
def YtClient.BelongsTo (c : YtClient) (ident : ℕ) : Prop := c.created.threadId = ident

/-- The clients of a scope belong to its thread. -/
def Vars.Own (v : Vars) : Prop := ∀ jobId c, v.client jobId = some c → c.BelongsTo v.ident

theorem Vars.Own.within {v : Vars} {ctx : ClientContext} {c : YtClient} (hv : v.Own)
    (hc : c.BelongsTo v.ident) : (v.within ctx c).Own := by
  intro jobId c' h
  by_cases hj : jobId = ctx.jobId
  · subst hj
    rw [Vars.within_client, Function.update_self] at h
    cases h
    exact hc
  · rw [Vars.within_client, Function.update_of_ne hj] at h
    exact hv jobId c' h

theorem brings_createCached {ident : ℕ} {key : ClientKey} (hkey : key.threadId = ident) :
    (Prog.op (ClientOp.createCached key) : Scoped YtClient).Brings (confined ident)
      (fun c _ => c.BelongsTo ident) () := by
  refine Prog.Brings.op hkey fun c hc => ?_
  rw [YtClient.BelongsTo, hc c rfl, hkey]

theorem Vars.Own.brings_clientFor {v : Vars} (hv : v.Own) :
    v.clientFor.Brings (confined v.ident) (fun c _ => c.BelongsTo v.ident) () := by
  unfold Vars.clientFor
  cases v.current with
  | none => exact brings_createCached rfl
  | some job =>
    simp only
    cases hc : v.client job.jobId with
    | some c => exact Prog.Brings.ret (hv _ c hc)
    | none => exact brings_createCached rfl

theorem Script.inScope_confined (s : Script α) (v : Vars) (param : Option YtClient) (hv : v.Own)
    (hparam : ∀ c ∈ param, c.BelongsTo v.ident) :
    (s.inScope v param).Watched (confined v.ident) (fun _ _ => True) () := by
  induction s generalizing v param with
  | ret a => trivial
  | raise e => trivial
  | bind s next ih ihnext =>
    exact Prog.Allowed.bind (fun _ => ih v param hv hparam) (fun a _ => ihnext a v param hv hparam) ()
  | catching s handler ih ihhandler =>
    exact Prog.Allowed.catching (fun _ => ih v param hv hparam)
      (fun e _ => ihhandler e v param hv hparam) ()
  | statement request next ih =>
    cases param with
    | none => trivial
    | some c =>
      refine Prog.Allowed.bind (Prog.Allowed.op fun _ => hparam c rfl) (fun r _ => ?_) ()
      exact ih r v (some c) hv hparam
  | function passes func ih =>
    refine Prog.Allowed.bind_brings (fun _ => hv.brings_clientFor) (fun c _ hc => ?_) ()
    refine ih v _ hv fun c' hc' => ?_
    cases hc'
    cases passes with
    | false => exact hc
    | true =>
      cases param with
      | none => exact hc
      | some c' => exact hparam c' rfl
  | procedure func ih =>
    refine Prog.Allowed.bind_brings (fun _ => hv.brings_clientFor) (fun c _ hc => ?_) ()
    cases v.current with
    | none => exact ih v none hv (by simp)
    | some job => exact ih (v.within job c) none (hv.within hc) (by simp)
  | wrapper args bound passed func ih =>
    show Prog.Watched _ _ _ (Option.elim _ _ _)
    cases v.contextOf args with
    | none => trivial
    | some ctx =>
      simp only [Option.elim_some]
      split_ifs
      · trivial
      · refine Prog.Allowed.bind_brings (fun _ => brings_createCached rfl) (fun c _ hc => ?_) ()
        exact ih (v.within ctx c) param (hv.within hc) hparam

/-- Thread `i`, with the variables `v`, is about to make a statement through `c`. -/
def ThreadState.Uses (σ : ThreadState α) (i : ℕ) (v : Vars) (c : YtClient) : Prop :=
  ∃ (request : ℕ) (k : Except Exn ℕ → Routine α),
    σ.threads[i]? = some (v, Prog.call (Sum.inr (ClientOp.use c request)) k)

/-- No thread uses a client that was created for another thread. -/
theorem clients_stay_with_their_thread (h : (machine α).run noThreads as = some σ) (i : ℕ) (v : Vars)
    (c : YtClient) (huse : σ.Uses i v c) : c.created.threadId = v.ident := by
  obtain ⟨request, k, hi⟩ := huse
  have hJ := (Machine.each_induction (K := Shared.Sound)
    (J := fun _ th => (th.2.localize Vars.exec th.1).Watched (confined th.1.ident) (fun _ _ => True) ())
    Shared.initial_sound (by simp [noThreads]) ?_ ?_ h).2 i _ hi
  · exact hJ.1
  · intro e i _
    have hs := e.script.inScope_confined (Vars.initial e.ident) none
      (fun jobId c hc => by simp [Vars.initial] at hc) (by simp)
    have hacts := e.start_actsAs.2
    rw [Prog.ActsAs] at hacts
    show Prog.Watched _ _ _ (Prog.localize Vars.exec e.start.1 e.start.2)
    rw [hacts]
    exact Prog.Allowed.bind (Prog.Allowed.attempt fun _ => hs) (fun _ => .ret _) ()
  · intro o i ch l k s hs hl
    cases o with
    | inl a =>
      refine ⟨hs, ?_⟩
      show Prog.Watched (confined (l.exec a).2.ident) _ _ _
      rw [Vars.exec_ident]
      exact hl
    | inr o =>
      refine ⟨hs.exec o ch, hl.2 _ ?_⟩
      cases o with
      | createCached key => exact fun c hc => hs.created hc
      | use c request => trivial

theorem sample_uses : ∃ σ : ThreadState ℕ, (machine ℕ).run noThreads (sampleRun 11) = some σ ∧
    σ.Uses 0 ((Vars.initial 7).within sampleContext sampleClient) sampleClient := by
  obtain ⟨σ, h⟩ := Option.isSome_iff_exists.mp
    (show ((machine ℕ).run noThreads (sampleRun 11)).isSome from rfl)
  refine ⟨σ, h, 0, ?_⟩
  cases h
  exact ⟨_, rfl⟩

theorem clients_stay_with_their_thread_sample : sampleClient.created.threadId = 7 := by
  obtain ⟨σ, h, huse⟩ := sample_uses
  exact clients_stay_with_their_thread h 0 _ _ huse

/-! ### A context and its client -/

/-- No wrapper is called. -/
def Script.Plain : Script α → Prop
  | .ret _ => True
  | .raise _ => True
  | .bind s next => s.Plain ∧ ∀ a, (next a).Plain
  | .catching s handler => s.Plain ∧ ∀ e, (handler e).Plain
  | .statement _ next => ∀ r, (next r).Plain
  | .function _ func => func.Plain
  | .procedure func => func.Plain
  | .wrapper _ _ _ _ => False

/-- A statement through `c`. -/
def ClientOp.Through (c : YtClient) : ClientOp → Prop
  | .use c' _ => c' = c
  | .createCached _ => False

theorem Vars.clientFor_eq {v : Vars} {ctx : ClientContext} {c : YtClient} (hctx : v.current = some ctx)
    (hclient : v.client ctx.jobId = some c) : v.clientFor = .ret c := by
  simp [Vars.clientFor, hctx, hclient]

theorem Script.Plain.uses {s : Script α} (hs : s.Plain) {v : Vars} {ctx : ClientContext} {c : YtClient}
    {param : Option YtClient} (hctx : v.current = some ctx) (hclient : v.client ctx.jobId = some c)
    (hparam : ∀ c' ∈ param, c' = c) : (s.inScope v param).Uses (ClientOp.Through c) := by
  induction s generalizing v param with
  | ret a => trivial
  | raise e => trivial
  | bind s next ih ihnext =>
    exact (ih hs.1 hctx hclient hparam).bind fun a => ihnext a (hs.2 a) hctx hclient hparam
  | catching s handler ih ihhandler =>
    exact (ih hs.1 hctx hclient hparam).catching fun e => ihhandler e (hs.2 e) hctx hclient hparam
  | statement request next ih =>
    cases param with
    | none => trivial
    | some c' =>
      refine Prog.Uses.bind (Prog.Uses.op ?_) fun r => ih r (hs r) hctx hclient hparam
      exact hparam c' rfl
  | function passes func ih =>
    show Prog.Uses _ (v.clientFor.bind _)
    rw [v.clientFor_eq hctx hclient]
    refine ih hs hctx hclient fun c' hc' => ?_
    cases hc'
    cases passes with
    | false => rfl
    | true =>
      cases param with
      | none => rfl
      | some c' => exact hparam c' rfl
  | procedure func ih =>
    show Prog.Uses _ (v.clientFor.bind _)
    rw [v.clientFor_eq hctx hclient, Prog.ret_bind, hctx]
    exact ih hs (v := v.within ctx c) rfl (by simp) (by simp)
  | wrapper args bound passed func ih => exact hs.elim

/-- The program asks for the client of `key`, if it has not got it, and makes all its statements
through it. -/
def OneClient (key : ClientKey) (q : Prog ClientOp ClientOp.Ret Exn α) : Prop :=
  (∃ c, c.created = key ∧ q.Uses (ClientOp.Through c)) ∨
  ∃ k, q = .call (.createCached key) k ∧
    ∀ r, (∀ c, r = .ok c → c.created = key) → ∃ c, c.created = key ∧ (k r).Uses (ClientOp.Through c)

theorem OneClient.next {key : ClientKey} {o : ClientOp} {k : Except Exn o.Ret → Prog ClientOp ClientOp.Ret Exn α}
    {s : Shared} {ch : Except Exn ℕ} (h : OneClient key (.call o k)) (hs : s.Sound) :
    OneClient key (k (s.exec o ch).1) := by
  rcases h with ⟨c, hc, huses⟩ | ⟨k', hk, hnext⟩
  · exact Or.inl ⟨c, hc, huses.2 _⟩
  · cases hk
    exact Or.inl (hnext _ fun c h => hs.created h)

/-- A wrapper with a context asks for one client. -/
theorem OneClient.start {args : WrapperArgs} {bound passed : Bool} {func : Script α} {ctx : ClientContext}
    (hargs : args.context.join = some ctx) (hfunc : func.Plain) (v : Vars) :
    OneClient (ctx.agent.key args.proxy.join args.path.join v.ident)
      ((Script.wrapper args bound passed func).inScope v none).attempt := by
  have hctx : v.contextOf args = some ctx := by simp [Vars.contextOf, hargs]
  show OneClient _ (Prog.attempt (Option.elim _ _ _))
  rw [hctx, Option.elim_some]
  split_ifs with heq
  · exact Or.inl ⟨⟨0, _⟩, rfl, trivial⟩
  · refine Or.inr ⟨_, rfl, fun r hr => ?_⟩
    cases r with
    | error e => exact ⟨⟨0, _⟩, rfl, trivial⟩
    | ok c => exact ⟨c, hr c rfl, (hfunc.uses (v := v.within ctx c) rfl (by simp) (by simp)).attempt⟩

theorem OneClient.bind_ret {key : ClientKey} {q : Prog ClientOp ClientOp.Ret Exn α} {β : Type} {f : α → β}
    (h : OneClient key q) : OneClient key (q.bind fun a => .ret (f a)) := by
  rcases h with ⟨c, hc, huses⟩ | ⟨k, rfl, hnext⟩
  · exact Or.inl ⟨c, hc, huses.bind fun _ => trivial⟩
  · refine Or.inr ⟨_, rfl, fun r hr => ?_⟩
    obtain ⟨c, hc, huses⟩ := hnext r hr
    exact ⟨c, hc, huses.bind fun _ => trivial⟩

theorem reachable_sound (h : (machine α).run noThreads as = some σ) : σ.shared.Sound := by
  refine (Machine.each_induction (J := fun _ _ => True) Shared.initial_sound (fun _ _ _ => trivial)
    (fun _ _ _ => trivial) ?_ h).1
  intro o i ch l k s hs _
  cases o with
  | inl a => exact ⟨hs, trivial⟩
  | inr o => exact ⟨hs.exec o ch, trivial⟩

/-- What the shared calls of a thread keep holds of it in every run, whatever it does with its variables. -/
theorem thread_keeps {σ' : ThreadState α} {i : ℕ} {P : Prog ClientOp ClientOp.Ret Exn (Except Exn α × Vars) → Prop}
    (hs : σ.shared.Sound) (hi : i < σ.threads.length)
    (h0 : ∀ th : Vars × Routine α, σ.threads[i]? = some th → P (th.2.localize Vars.exec th.1))
    (hP : ∀ o k s ch, Shared.Sound s → P (.call o k) → P (k (s.exec o ch).1))
    (h : (machine α).run σ as = some σ') :
    σ'.shared.Sound ∧ ∀ th : Vars × Routine α, σ'.threads[i]? = some th →
      P (th.2.localize Vars.exec th.1) := by
  have hrun := Machine.each_induction (K := Shared.Sound)
    (J := fun j th => j = i → P (th.2.localize Vars.exec th.1)) hs ?_ ?_ ?_ h
  · exact ⟨hrun.1, fun th hth => hrun.2 i th hth rfl⟩
  · rintro j th hth rfl
    exact h0 th hth
  · rintro e j hj rfl
    exact absurd hi (by omega)
  · intro o j ch l k s hs hl
    cases o with
    | inl a => exact ⟨hs, hl⟩
    | inr o => exact ⟨hs.exec o ch, fun hj => hP o _ s ch hs (hl hj)⟩

/-- Within a context, whatever functions call each other and whatever is raised, a thread makes all
its statements through one client, created for the arguments of the wrapper and the thread. -/
theorem a_context_has_one_client {args : WrapperArgs} {bound passed : Bool} {func : Script α}
    {ctx : ClientContext} {ident : ℕ} {bs cs : List (Action (Except Exn ℕ) (Entry α))} {σ₁ σ₂ : ThreadState α}
    {v₁ v₂ : Vars} {c₁ c₂ : YtClient} (hargs : args.context.join = some ctx) (hfunc : func.Plain)
    (h : (machine α).run noThreads as = some σ)
    (h₁ : (machine α).run σ (.spawn ⟨ident, .wrapper args bound passed func⟩ :: bs) = some σ₁)
    (h₂ : (machine α).run σ₁ cs = some σ₂)
    (huse₁ : σ₁.Uses σ.threads.length v₁ c₁) (huse₂ : σ₂.Uses σ.threads.length v₂ c₂) :
    c₁ = c₂ ∧ c₁.created = ctx.agent.key args.proxy.join args.path.join ident := by
  obtain ⟨r₁, k₁, hi₁⟩ := huse₁
  obtain ⟨r₂, k₂, hi₂⟩ := huse₂
  set e : Entry α := ⟨ident, .wrapper args bound passed func⟩
  -- up to the first of the two statements the thread has asked for one client
  have hone := (thread_keeps (σ := { σ with threads := σ.threads ++ [e.start] }) (i := σ.threads.length)
    (P := OneClient (ctx.agent.key args.proxy.join args.path.join ident))
    (show σ.shared.Sound from reachable_sound h) (by simp) ?_ (fun o k s ch hs h => h.next hs) h₁)
  · obtain ⟨hs₁, hone⟩ := hone
    rcases hone _ hi₁ with ⟨c, hc, huses⟩ | ⟨k, hk, -⟩
    · obtain rfl : c₁ = c := huses.1
      -- from then on it has no other
      have hthrough := (thread_keeps (P := Prog.Uses (ClientOp.Through c₁)) hs₁
        (List.getElem?_eq_some_iff.mp hi₁).1 (fun th hth => ?_) (fun o k s ch _ h => h.2 _) h₂).2 _ hi₂
      · exact ⟨hthrough.1.symm, hc⟩
      · rw [hi₁] at hth
        cases hth
        exact huses
    · cases hk
  · intro th hth
    simp only [List.getElem?_concat_length, Option.some.injEq] at hth
    subst hth
    rw [e.start_actsAs.2]
    exact (OneClient.start hargs hfunc (Vars.initial ident)).bind_ret

theorem a_context_has_one_client_sample : ∃ (σ₁ σ₂ : ThreadState ℕ) (v : Vars),
    (machine ℕ).run noThreads (sampleRun 11) = some σ₁ ∧
    (machine ℕ).run σ₁ [.step 0 (.ok 0)] = some σ₂ ∧ σ₁.Uses 0 v sampleClient ∧ σ₂.Uses 0 v sampleClient ∧
    (sampleClient = sampleClient ∧ sampleClient.created = sampleContext.agent.key none none 7) := by
  obtain ⟨σ₁, h₁, huse₁⟩ := sample_uses
  have h₂ : ((machine ℕ).run σ₁ [.step 0 (.ok 0)]).isSome := by
    cases h₁
    rfl
  obtain ⟨σ₂, h₂⟩ := Option.isSome_iff_exists.mp h₂
  have huse₂ : ThreadState.Uses σ₂ 0 ((Vars.initial 7).within sampleContext sampleClient) sampleClient := by
    cases h₁
    cases h₂
    exact ⟨1, _, rfl⟩
  exact ⟨σ₁, σ₂, _, h₁, h₂, huse₁, huse₂, a_context_has_one_client rfl (by simp [Script.Plain])
    (show (machine ℕ).run noThreads [] = some noThreads from rfl) h₁ h₂ huse₁ huse₂⟩

end YtScheduler.Clients
