import YtScheduler.Clients.Scripts

/-! Threads that run such programs side by side. They share the cache of clients and the
cluster the statements are made to; their context variables are their own. Beside them
stands the machine whose threads run the same programs in their scopes. -/

namespace YtScheduler.Clients

open Quoting Threads

/-- `lru_cache(maxsize=128)`. -/
def cacheSize : ℕ := 128

/-- The cache of `_create_client_cached`, latest use first, and the statements made, latest first. -/
structure Shared where
  cache : List (ClientKey × YtClient)
  created : ℕ
  log : List (YtClient × ℕ)

namespace Shared

def initial : Shared := ⟨[], 0, []⟩

/-- The environment decides whether a client can be created, and how a statement ends. -/
def exec : (o : ClientOp) → Except Exn ℕ → Shared → Except Exn o.Ret × Shared
  | .createCached key, ch, s =>
    match s.cache.find? (·.1 = key) with
    | some hit => (.ok hit.2, { s with cache := hit :: s.cache.eraseP (·.1 = key) })
    | none =>
      match ch with
      | .error e => (.error e, s)
      | .ok _ =>
        let client := ⟨s.created, key⟩
        (.ok client, { s with cache := ((key, client) :: s.cache).take cacheSize, created := s.created + 1 })
  | .use client request, ch, s => (ch, { s with log := (client, request) :: s.log })

end Shared

/-- A thread, and what it runs. -/
structure Entry (α : Type) where
  ident : ℕ
  script : Script α

abbrev ThreadState (α : Type) :=
  Sys (VarOp ⊕ ClientOp) (Both VarOp.Ret ClientOp.Ret) Exn Vars Shared α

abbrev ScopedState (α : Type) := Sys ClientOp ClientOp.Ret Exn Vars Shared (Except Exn α)

/-- A thread starts outside of every context. -/
def Entry.start (e : Entry α) : Vars × Routine α := (Vars.initial e.ident, e.script.prog none)

def Entry.startScoped (e : Entry α) : Vars × Scoped α :=
  (Vars.initial e.ident, e.script.inScope (Vars.initial e.ident) none)

def machine (α : Type) :
    Machine (VarOp ⊕ ClientOp) (Both VarOp.Ret ClientOp.Ret) Exn Vars Shared (Except Exn ℕ) (Entry α) α :=
  .withPrivate Vars.exec Shared.exec Entry.start

def scopedMachine (α : Type) :
    Machine ClientOp ClientOp.Ret Exn Vars Shared (Except Exn ℕ) (Entry α) (Except Exn α) :=
  .withoutPrivate Shared.exec Entry.startScoped

def noThreads {Op : Type} {Ret : Op → Type} {β : Type} : Sys Op Ret Exn Vars Shared β := ⟨.initial, []⟩

variable {α : Type} {as : List (Action (Except Exn ℕ) (Entry α))} {σ σ' : ThreadState α} {τ : ScopedState α}

theorem Entry.start_actsAs (e : Entry α) :
    e.start.1 = e.startScoped.1 ∧ e.start.2.ActsAs Vars.exec e.start.1 e.startScoped.2 :=
  ⟨rfl, e.script.prog_actsIn (Vars.initial e.ident) none⟩

theorem noThreads_acts : Machine.SysActs Vars.exec (noThreads : ThreadState α) (noThreads : ScopedState α) :=
  ⟨rfl, rfl, fun i th th' h _ => by simp [noThreads] at h⟩

theorem run_acts (hR : Machine.SysActs Vars.exec σ τ) (h : (machine α).run σ as = some σ') :
    ∃ as' τ', as'.Sublist as ∧ (scopedMachine α).run τ as' = some τ' ∧
      Machine.SysActs Vars.exec σ' τ' :=
  hR.run Entry.start_actsAs h

/-! ### The cache -/

/-- A client stands in the cache under the arguments it was created with. -/
def Shared.Sound (s : Shared) : Prop := ∀ e ∈ s.cache, e.2.created = e.1

theorem Shared.initial_sound : initial.Sound := by simp [Sound, initial]

/-- What asking for a client does: it was there, could not be created, or is created. -/
theorem Shared.exec_createCached (s : Shared) (key : ClientKey) (ch : Except Exn ℕ) :
    (∃ hit ∈ s.cache, hit.1 = key ∧ s.exec (.createCached key) ch =
      (.ok hit.2, { s with cache := hit :: s.cache.eraseP (·.1 = key) })) ∨
    (∃ e, s.exec (.createCached key) ch = (.error e, s)) ∨
    s.exec (.createCached key) ch = (.ok ⟨s.created, key⟩,
      { s with cache := ((key, ⟨s.created, key⟩) :: s.cache).take cacheSize, created := s.created + 1 }) := by
  cases h : s.cache.find? (·.1 = key) with
  | some hit =>
    refine Or.inl ⟨hit, List.mem_of_find?_eq_some h, by simpa using List.find?_some h, ?_⟩
    simp [Shared.exec, h]
  | none =>
    cases ch with
    | error e => exact Or.inr (Or.inl ⟨e, by simp [Shared.exec, h]⟩)
    | ok n => exact Or.inr (Or.inr (by simp [Shared.exec, h]))

theorem Shared.Sound.exec {s : Shared} (hs : s.Sound) (o : ClientOp) (ch : Except Exn ℕ) :
    (s.exec o ch).2.Sound := by
  cases o with
  | use c request => exact hs
  | createCached key =>
    rcases s.exec_createCached key ch with ⟨hit, hmem, -, h⟩ | ⟨e, h⟩ | h <;> rw [h]
    · intro e he
      rcases List.mem_cons.mp he with rfl | he
      · exact hs e hmem
      · exact hs e (List.mem_of_mem_eraseP he)
    · exact hs
    · intro e he
      rcases List.mem_cons.mp (List.mem_of_mem_take he) with rfl | he
      · rfl
      · exact hs e he

theorem Shared.Sound.created {s : Shared} {key : ClientKey} {ch : Except Exn ℕ} {c : YtClient}
    (hs : s.Sound) (h : (s.exec (.createCached key) ch).1 = .ok c) : c.created = key := by
  rcases s.exec_createCached key ch with ⟨hit, hmem, hkey, h'⟩ | ⟨e, h'⟩ | h' <;> rw [h'] at h
  · cases h
    exact (hs hit hmem).trans hkey
  · cases h
  · cases h
    rfl

end YtScheduler.Clients
