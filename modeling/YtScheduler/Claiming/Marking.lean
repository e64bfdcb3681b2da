import YtScheduler.Services.Rules
import YtScheduler.System.Accesses

/-! The contract of the threads that claim metas and mark metas as not parsed. A mark is
upserted by a scheduler through its own client, on which no transaction is ever open: the
transaction around the two statements is open on the client that the claiming worker
captured. So a mark is a commit of its own, and all it says is that the meta had no run
id when the scheduler read it. -/

namespace YtScheduler

open Tablet Threads

/-- The meta is marked as not parsed. -/
def DagMetaRow.IsMark (row : DagMetaRow) : Prop := ∃ time, row.runId = some (.parsingFailed time)

instance (row : DagMetaRow) : Decidable row.IsMark :=
  match h : row.runId with
  | some (.parsingFailed time) => .isTrue ⟨time, h⟩
  | some (.run runId) => .isFalse (by simp [DagMetaRow.IsMark, h])
  | none => .isFalse (by simp [DagMetaRow.IsMark, h])

def MarkFree (rows : List Row) : Prop := ∀ row, .dagMeta row ∈ rows → ¬row.IsMark

/-- The metas among the rows have no run id in the tables `db`. -/
def MarksUnclaimed (db : Db) (rows : List Row) : Prop :=
  ∀ row, .dagMeta row ∈ rows → ∃ row₀, db.dagMeta row.id = some row₀ ∧ row₀.runId = none

/-- The client of thread `tid` was captured by a callback of some pool entry. -/
def Captured (s : Shared) (tid : ℕ) : Prop :=
  ∃ e ∈ s.mem.queueables, ∃ svc q, e.callback = some (svc, .setInvalid q (.thread tid))

def ClaimJob : Job → Prop
  | .tryClaimDagruns _ | .trySetMetasInvalid _ => True
  | _ => False

def ClaimCallback (s : Shared) : Callback → Prop
  | .claimed _ => True
  | .setInvalid _ ytClient => ∃ tid, ytClient = .thread tid ∧ Captured s tid
  | _ => False

/-- No open transaction holds a mark, and the memory holds nothing but jobs and callbacks of
claiming. -/
structure MarkOk (s : Shared) : Prop where
  writes : ∀ c, ∀ x ∈ s.opened c, MarkFree x.2.writes
  callbacks : ∀ service ∈ s.mem.services, ∀ cb ∈ service.callbacks, ClaimCallback s cb
  jobs : ∀ e ∈ s.mem.queueables, ClaimJob e.fn
  registered : ∀ e ∈ s.mem.queueables, ∀ svc cb, e.callback = some (svc, cb) → ClaimCallback s cb

structure MarkGrows (s s' : Shared) : Prop where
  store : s.store.Extends s'.store
  mem : Retains s.mem s'.mem

/-- What thread `i` relies on: nobody uses its client unless it was captured. -/
structure MarkRelies (i : ℕ) (s s' : Shared) : Prop where
  store : s.store.Extends s'.store
  mem : Leaves i s.mem s'.mem
  client : ¬Captured s i → s'.opened (.thread i) = s.opened (.thread i) ∧ ¬Captured s' i

/-- A commit holds no mark, or it is an insert of marks for metas that had no run id when the
thread read last. -/
structure MarkGuarantees (o : Op) (l : Loc) (s s' : Shared) : Prop where
  grows : MarkGrows s s'
  commits : ∀ c, s'.store = s.store.append c → MarkFree c.rows ∨ ∃ ts, o = .insert none c.rows ∧
    l.reads.head? = some ts ∧ ts ≤ s.store.now ∧ MarksUnclaimed (s.store.asOf ts) c.rows

variable {i tid : ℕ} {s s' s'' : Shared}

theorem MarkGrows.refl (s : Shared) : MarkGrows s s := ⟨.refl _, .refl _⟩

theorem MarkGrows.trans (h : MarkGrows s s') (h' : MarkGrows s' s'') : MarkGrows s s'' :=
  ⟨h.store.trans h'.store, h.mem.trans h'.mem⟩

theorem Captured.mono (h : Captured s tid) (hm : Retains s.mem s'.mem) : Captured s' tid := by
  obtain ⟨e, he, svc, q, hcb⟩ := h
  obtain ⟨k, hk, rfl⟩ := List.getElem_of_mem he
  obtain ⟨e', he', _, _, _, hc⟩ := hm.entries k _ (List.getElem?_eq_getElem hk)
  exact ⟨e', List.mem_of_getElem? he', svc, q, hc _ hcb⟩

theorem ClaimCallback.mono {cb : Callback} (h : ClaimCallback s cb) (hm : Retains s.mem s'.mem) :
    ClaimCallback s' cb := by
  cases cb with
  | setInvalid q ytClient =>
    obtain ⟨tid, he, hc⟩ := h
    exact ⟨tid, he, hc.mono hm⟩
  | _ => exact h

def marking : Contract Op Loc Shared where
  inv := MarkOk
  grows := MarkGrows
  rely := MarkRelies
  guar o _ l s _ s' := MarkGuarantees o l s s'
  fresh i s := s.opened (.thread i) = [] ∧ ¬Captured s i
  refl i s := ⟨.refl _, .refl i _, fun h => ⟨rfl, h⟩⟩
  trans i s s' s'' h h' := by
    refine ⟨h.store.trans h'.store, h.mem.trans h'.mem, fun hc => ?_⟩
    obtain ⟨ho, hc'⟩ := h.client hc
    obtain ⟨ho', hc''⟩ := h'.client hc'
    exact ⟨ho'.trans ho, hc''⟩
  fresh_rely i s s' h hf := ⟨(h.client hf.2).1.trans hf.1, (h.client hf.2).2⟩
  grows_refl := MarkGrows.refl
  grows_trans _ _ _ := MarkGrows.trans
  rely_grows _ _ _ h := ⟨h.store, h.mem.toRetains⟩
  guar_grows _ _ _ _ _ _ h := h.grows

/-- Thread `i` is between two calls. A scheduler, where `b` is set, has nothing open on its
client, which nobody captured. -/
structure Between (i : ℕ) (b : Bool) (s : Shared) : Prop where
  ok : MarkOk s
  apart : b = true → s.opened (.thread i) = [] ∧ ¬Captured s i

theorem Between.of_relies {b : Bool} (h : Between i b s) (hr : MarkRelies i s s') (hc : MarkOk s') :
    Between i b s' := by
  refine ⟨hc, fun hb => ?_⟩
  obtain ⟨ho, hcap⟩ := h.apart hb
  obtain ⟨ho', hcap'⟩ := hr.client hcap
  exact ⟨ho'.trans ho, hcap'⟩

abbrev MarkSpec {α : Type} (i : ℕ) (p : P α) (Q : Post Exn α Loc Shared) (l : Loc) (s : Shared) :
    Prop := Safe system marking i p Q l s

/-- `Q` holds of a result and of the private state that comes with it. -/
abbrev Stands {α : Type} (i : ℕ) (b : Bool) (Q : α → Loc → Shared → Prop) : Post Exn α Loc Shared :=
  Safe.Keeps (fun w l s => l = w ∧ Between i b s) fun a w _ s => Q a w s

/-- Nothing is said of a result. -/
abbrev Stays {α : Type} (i : ℕ) (b : Bool) : Post Exn α Loc Shared := Stands i b fun _ _ _ => True

namespace MarkSpec

section Composition

variable {α β : Type} {b : Bool} {l : Loc} {p : P α} {Q Q' : α → Loc → Shared → Prop}
  {R : β → Loc → Shared → Prop}

theorem ret {a : α} (hs : Between i b s) (hQ : Q a l s) : MarkSpec i (.ret a) (Stands i b Q) l s :=
  ⟨l, ⟨rfl, hs⟩, hQ⟩

theorem raise {e : Exn} (hs : Between i b s) : MarkSpec i (.raise e : P α) (Stands i b Q) l s :=
  ⟨l, rfl, hs⟩

theorem mono (h : MarkSpec i p (Stands i b Q) l s) (hQ : ∀ a l' s', Q a l' s' → Q' a l' s') :
    MarkSpec i p (Stands i b Q') l s :=
  Safe.keeps_conseq h fun a w _ s' _ _ => hQ a w s'

theorem stays (h : MarkSpec i p (Stands i b Q) l s) : MarkSpec i p (Stays i b) l s :=
  h.mono fun _ _ _ _ => trivial

theorem bind {f : α → P β} (hp : MarkSpec i p (Stands i b Q) l s)
    (hf : ∀ a l' s', Between i b s' → Q a l' s' → MarkGrows s s' →
      MarkSpec i (f a) (Stands i b R) l' s') : MarkSpec i (p.bind f) (Stands i b R) l s := by
  refine Safe.keeps_bind hp fun a w l' s' hK hQ hg => ?_
  obtain ⟨rfl, hs⟩ := hK
  exact hf a l' s' hs hQ hg

theorem attempt (hp : MarkSpec i p (Stands i b Q) l s) : MarkSpec i p.attempt (Stays i b) l s :=
  stays (Safe.keeps_attempt hp)

theorem catching {h : Exn → P α} (hp : MarkSpec i p (Stands i b Q) l s)
    (hh : ∀ e l' s', Between i b s' → MarkGrows s s' → MarkSpec i (h e) (Stands i b Q) l' s') :
    MarkSpec i (p.catching h) (Stands i b Q) l s := by
  refine Safe.keeps_catching hp fun e w l' s' hK hg => ?_
  exact hh e l' s' hK.2 hg

theorem handleExceptions {hasLog : Bool} {onExhaust : Exn → P α} (hs : Between i b s)
    (hp : ∀ l' s', Between i b s' → MarkGrows s s' → MarkSpec i p (Stands i b Q) l' s')
    (hx : ∀ e l' s', Between i b s' → MarkGrows s s' →
      MarkSpec i (onExhaust e) (Stands i b Q) l' s') :
    MarkSpec i (P.handleExceptions hasLog onExhaust p) (Stands i b Q) l s :=
  P.safe_handleExceptions (C := marking) (w := l) ⟨rfl, hs⟩ (fun _ l' s' hK hg => hp l' s' hK.2 hg)
    fun e _ l' s' hK hg => hx e l' s' hK.2 hg

theorem loop {iter : P Unit} {n : ℕ} (hs : Between i b s)
    (hb : ∀ l' s', Between i b s' → MarkGrows s s' → MarkSpec i iter (Stays i b) l' s') :
    MarkSpec i (Pool.loop iter n) (Stays i b) l s :=
  Pool.safe_loop (C := marking) (w := l) ⟨rfl, hs⟩ fun _ l' s' hK hg => hb l' s' hK.2 hg

end Composition

end MarkSpec

/-! ### What a call owes -/

section Owed

variable {b : Bool} {o : Op} {l k : Loc} {t : Shared}

/-- A call that leaves the memory alone. -/
theorem owed_of_opened (h : Between i b s) (hmem : t.mem = s.mem) (hst : s.store.Extends t.store)
    (hcom : ∀ c, t.store = s.store.append c → MarkFree c.rows ∨ ∃ ts, o = .insert none c.rows ∧
      l.reads.head? = some ts ∧ ts ≤ s.store.now ∧ MarksUnclaimed (s.store.asOf ts) c.rows)
    (hwrites : ∀ c, ∀ x ∈ t.opened c, MarkFree x.2.writes)
    (hown : b = true → t.opened (.thread i) = s.opened (.thread i))
    (hother : ∀ j, j ≠ i → ¬Captured s j → t.opened (.thread j) = s.opened (.thread j)) :
    Owed marking i o l s k t ∧ Between i b t := by
  have hret : Retains s.mem t.mem := hmem ▸ .refl _
  have hcap : ∀ {tid}, ¬Captured s tid → ¬Captured t tid := by
    intro tid hc
    rwa [Captured, hmem]
  have hok : MarkOk t := by
    refine ⟨hwrites, ?_, ?_, ?_⟩
    · rw [hmem]
      exact fun service hs cb hcb => (h.ok.callbacks service hs cb hcb).mono hret
    · rw [hmem]
      exact h.ok.jobs
    · rw [hmem]
      exact fun e he svc cb hcb => (h.ok.registered e he svc cb hcb).mono hret
  refine ⟨⟨hok, fun j hj => ⟨hst, hmem ▸ .refl j _, fun hc => ⟨hother j hj hc, hcap hc⟩⟩,
    ⟨⟨hst, hret⟩, hcom⟩⟩, hok, fun hb => ?_⟩
  obtain ⟨hop, hc⟩ := h.apart hb
  exact ⟨(hown hb).trans hop, hcap hc⟩

/-- A call that leaves the store, the transactions and the memory alone. -/
theorem owed_of_same (h : Between i b s) (hst : t.store = s.store) (hop : t.opened = s.opened)
    (hmem : t.mem = s.mem) : Owed marking i o l s k t ∧ Between i b t :=
  owed_of_opened h hmem (hst ▸ .refl _)
    (fun c hc => absurd (hst.symm.trans hc) (Store.ne_append _ c)) (hop ▸ h.ok.writes)
    (fun _ => congrFun hop _) fun _ _ _ => congrFun hop _

/-- The client a thread may open transactions on: its own, unless it is a scheduler, or a captured
one. -/
def Reach (i : ℕ) (b : Bool) (s : Shared) (c : Client) : Prop :=
  (b = false ∧ c = .thread i) ∨ ∃ tid, c = .thread tid ∧ Captured s tid

/-- A call that opens, extends or closes transactions on such a client. -/
theorem owed_of_reach (h : Between i b s) {c : Client} (txs : List (ℕ × Tx Row))
    (hc : Reach i b s c)
    (hst : s.store.Extends t.store)
    (hcom : ∀ c', t.store = s.store.append c' → MarkFree c'.rows)
    (htxs : ∀ x ∈ txs, MarkFree x.2.writes) (hop : t.opened = Function.update s.opened c txs)
    (hmem : t.mem = s.mem) : Owed marking i o l s k t ∧ Between i b t := by
  refine owed_of_opened h hmem hst (fun c' hc' => Or.inl (hcom c' hc')) (fun c' => ?_) (fun hb => ?_)
    fun j hj hcap => ?_
  · rw [hop]
    by_cases he : c' = c
    · subst he
      rw [Function.update_self]
      exact htxs
    · rw [Function.update_of_ne he]
      exact h.ok.writes c'
  · rw [hop, Function.update_of_ne]
    rcases hc with ⟨hb', _⟩ | ⟨tid, rfl, htid⟩
    · rw [hb] at hb'
      cases hb'
    · rintro he
      cases he
      exact (h.apart hb).2 htid
  · rw [hop, Function.update_of_ne]
    rcases hc with ⟨_, rfl⟩ | ⟨tid, rfl, htid⟩
    · simpa using hj
    · rintro he
      cases he
      exact hcap htid

/-- The accesses that claiming makes. -/
def MemOp.ClaimOk (i : ℕ) (b : Bool) (s : Shared) : MemOp → Prop
  | .nextItem _ => False
  | .submit fn => ClaimJob fn
  | .setCallback q _ cb => (∀ e : Queueable, s.mem.queueables[q]? = some e →
      e.owner = i ∧ e.callback = none) ∧
      ((∃ q', cb = .claimed q') ∨ b = false ∧ ∃ q', cb = .setInvalid q' (.thread i))
  | _ => True

theorem MemOp.ClaimOk.handles {o : MemOp} (h : o.ClaimOk i b s) : o.Handles i s.mem := by
  cases o with
  | setCallback q svc cb => exact h.1
  | nextItem f => exact h.elim
  | _ => trivial

variable {p : ℕ}

/-- A client is captured by an access of the thread it belongs to. -/
theorem captured_of_exec {o : MemOp} (h : o.ClaimOk i b s)
    (hc : Captured { s with mem := (s.mem.exec i p o).2 } tid) :
    Captured s tid ∨ tid = i ∧ b = false := by
  obtain ⟨e, he, svc, q, hcb⟩ := hc
  obtain ⟨k, hk, rfl⟩ := List.getElem_of_mem he
  rcases Mem.getElem?_queueables_exec (List.getElem?_eq_getElem hk) with
    ⟨fn, _, _, hnew⟩ | ⟨e₀, he₀, _, _, hcb₀ | ⟨svc', cb, rfl, hset⟩, _⟩
  · rw [hnew] at hcb
    cases hcb
  · exact Or.inl ⟨e₀, List.mem_of_getElem? he₀, svc, q, hcb₀.symm.trans hcb⟩
  · rw [hset] at hcb
    cases hcb
    rcases h.2 with ⟨q', hq⟩ | ⟨hb, q', hq⟩
    · cases hq
    · cases hq
      exact Or.inr ⟨rfl, hb⟩

theorem owed_of_mem {o : MemOp} (h : Between i b s) (ho : o.ClaimOk i b s) (p : ℕ) :
    Owed marking i (.mem o) l s l { s with mem := (s.mem.exec i p o).2 } ∧
      Between i b { s with mem := (s.mem.exec i p o).2 } := by
  have hret := ho.handles.retains p
  have hgrow : ∀ {cb}, ClaimCallback s cb → ClaimCallback { s with mem := (s.mem.exec i p o).2 } cb :=
    fun hcb => hcb.mono hret
  have hok : MarkOk { s with mem := (s.mem.exec i p o).2 } := by
    refine ⟨h.ok.writes, fun service hs cb hcb => ?_, fun e he => ?_, fun e he svc cb hcb => ?_⟩
    · rcases Mem.mem_callbacks_exec hs hcb with ⟨service₀, hs₀, hcb₀⟩ | ⟨q, e, svc, he, hcb, _⟩
      · exact hgrow (h.ok.callbacks service₀ hs₀ cb hcb₀)
      · exact hgrow (h.ok.registered e (List.mem_of_getElem? he) svc cb hcb)
    · obtain ⟨k, hk, rfl⟩ := List.getElem_of_mem he
      rcases Mem.getElem?_queueables_exec (List.getElem?_eq_getElem hk) with
        ⟨fn, rfl, _, hnew⟩ | ⟨e₀, he₀, _, hfn, _⟩
      · rw [hnew]
        exact ho
      · rw [hfn]
        exact h.ok.jobs e₀ (List.mem_of_getElem? he₀)
    · obtain ⟨k, hk, rfl⟩ := List.getElem_of_mem he
      rcases Mem.getElem?_queueables_exec (List.getElem?_eq_getElem hk) with
        ⟨fn, _, _, hnew⟩ | ⟨e₀, he₀, _, _, hcb₀ | ⟨svc', cb', rfl, hset⟩, _⟩
      · rw [hnew] at hcb
        cases hcb
      · exact hgrow (h.ok.registered e₀ (List.mem_of_getElem? he₀) svc cb (hcb₀.symm.trans hcb))
      · have heq := hset.symm.trans hcb
        cases heq
        rcases ho.2 with ⟨q', rfl⟩ | ⟨_, q', rfl⟩
        · trivial
        · exact ⟨i, rfl, _, he, _, _, hcb⟩
  refine ⟨⟨hok, fun j hj => ⟨.refl _, ho.handles.leaves p hj, fun hc => ⟨rfl, fun hc' => ?_⟩⟩,
    ⟨⟨.refl _, hret⟩, fun c hc => absurd hc (Store.ne_append _ c)⟩⟩, hok, fun hb => ?_⟩
  · rcases captured_of_exec ho hc' with hc' | ⟨rfl, _⟩
    · exact hc hc'
    · exact hj rfl
  · obtain ⟨hop, hc⟩ := h.apart hb
    refine ⟨hop, fun hc' => ?_⟩
    rcases captured_of_exec ho hc' with hc' | ⟨_, hb'⟩
    · exact hc hc'
    · rw [hb] at hb'
      cases hb'

end Owed

end YtScheduler
