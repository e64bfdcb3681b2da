import YtScheduler.Adding.Commands
import YtScheduler.Claiming.Claimers

/-! The contract of the calls of `try_add_dag`. A call looks its payload up once and commits
at most once: a DagRef of its payload, under an id of its own, if the lookup found none,
and otherwise a DagMeta for the DagRef that was found. -/

namespace YtScheduler

open Tablet Threads

/-- The one select of a call read the tables as of `ts` and returned `found`. -/
structure Lookup (found : Option DagRefRow) (ts : ℕ) (l : AddLoc) (s : Shared) : Prop where
  reads : l.loc.reads = [ts]
  le_now : ts ≤ s.store.now
  found_eq : found = (dagRefsOfPayload l.payloadHash (s.store.asOf ts)).head?

/-- The one commit of a call: in a transaction or not, and its rows. -/
inductive Adds (l : AddLoc) (s : Shared) : Bool → List Row → Prop
  | creates {ts : ℕ} {ref : DagRefRow} {taskRefs : List TaskRefRow} {row : DagMetaRow}
      (hl : Lookup none ts l s) (hpayload : ref.payloadHash = l.payloadHash)
      (hid : ref.dagId ∈ l.uuids) (hrow : row.dagId = ref.dagId) :
      Adds l s true (.dagRef ref :: (taskRefs.map .taskRef ++ [.dagMeta row]))
  | refers {ts : ℕ} {ref : DagRefRow} {row : DagMetaRow} (hl : Lookup (some ref) ts l s)
      (hrow : row.dagId = ref.dagId) : Adds l s false [.dagMeta row]

/-- A call commits once, and its commit adds. -/
structure AddGuarantees (i : ℕ) (l : AddLoc) (s s' : Shared) : Prop where
  later : Later s s'
  adds : ∀ c, s'.store = s.store.append c →
    c.author = i ∧ s.store.authored i = [] ∧ Adds l s c.inTx c.rows

def adders : Contract Op AddLoc Shared where
  inv _ := True
  grows := Later
  rely := ClaimRelies
  guar _ i l s _ s' := AddGuarantees i l s s'
  fresh i s := s.opened (.thread i) = [] ∧ s.store.authored i = []
  refl := claiming.refl
  trans := claiming.trans
  fresh_rely := claiming.fresh_rely
  grows_refl := Later.refl
  grows_trans _ _ _ := Later.trans
  rely_grows _ _ _ h := h.later
  guar_grows _ _ _ _ _ _ h := h.later

/-- Thread `i` has looked up the payload `hash` and committed nothing, `txs` is what is open on its
client, and it generated the uuids `ids`. -/
structure Adder (i : ℕ) (hash : String) (found : Option DagRefRow) (ts : ℕ) (txs : List (ℕ × Tx Row))
    (ids : List Uuid) (l : AddLoc) (s : Shared) : Prop where
  opened : s.opened (.thread i) = txs
  pending : s.store.authored i = []
  payload : l.payloadHash = hash
  lookup : Lookup found ts l s
  held : ∀ id ∈ ids, id ∈ l.uuids

section

variable {i ts : ℕ} {hash : String} {found : Option DagRefRow} {txs txs' : List (ℕ × Tx Row)} {ids : List Uuid}
  {o : Op} {l l' : AddLoc} {s s' : Shared}

theorem Lookup.of_later (h : Lookup found ts l s) (hs : s.store.Extends s'.store)
    (hreads : l'.loc.reads = l.loc.reads) (hpayload : l'.payloadHash = l.payloadHash) :
    Lookup found ts l' s' where
  reads := hreads.trans h.reads
  le_now := h.le_now.trans hs.now_le
  found_eq := by rw [hpayload, hs.asOf_eq h.le_now, ← h.found_eq]

theorem Adder.of_relies (h : Adder i hash found ts txs ids l s) (hr : ClaimRelies i s s') :
    Adder i hash found ts txs ids l s' :=
  ⟨hr.opened.trans h.opened, hr.authored.trans h.pending, h.payload,
    h.lookup.of_later hr.later.store rfl rfl, h.held⟩

/-- A call other than a select, that leaves the store alone. -/
theorem Adder.of_store (h : Adder i hash found ts txs ids l s) (hs : s'.store = s.store)
    (ho : s'.opened (.thread i) = txs') (hreads : l'.loc.reads = l.loc.reads)
    (hpayload : l'.payloadHash = l.payloadHash) (huuids : l'.uuids = l.uuids) :
    Adder i hash found ts txs' ids l' s' :=
  ⟨ho, hs ▸ h.pending, hpayload.trans h.payload, h.lookup.of_later (hs ▸ .refl _) hreads hpayload, huuids ▸ h.held⟩

/-- A call that leaves the store alone and touches no client but the thread's own. -/
theorem owes_of_store (hs : s'.store = s.store) (hu : s.uuids ≤ s'.uuids)
    (ho : ∀ j, j ≠ i → s'.opened (.thread j) = s.opened (.thread j)) :
    Owed adders i o l s l' s' where
  inv := trivial
  rely j hj := ⟨⟨hs ▸ .refl _, hu⟩, ho j hj, by rw [hs]⟩
  guar := ⟨⟨hs ▸ .refl _, hu⟩, fun c hc => absurd (hs.symm.trans hc) (Store.ne_append _ c)⟩

/-- The commit. -/
theorem owes_of_adds {c : Commit Row} (hpending : s.store.authored i = []) (hc : Adds l s c.inTx c.rows)
    (hi : c.author = i) (hs : s'.store = s.store.append c) (hu : s'.uuids = s.uuids)
    (ho : ∀ j, j ≠ i → s'.opened (.thread j) = s.opened (.thread j)) :
    Owed adders i o l s l' s' where
  inv := trivial
  rely j hj :=
    ⟨⟨hs ▸ .append _ _, hu.ge⟩, ho j hj, by rw [hs, Store.authored_append, if_neg (hi ▸ hj.symm)]⟩
  guar := by
    refine ⟨⟨hs ▸ .append _ _, hu.ge⟩, fun c' hc' => ?_⟩
    rw [← Store.append_inj (hs.symm.trans hc')]
    exact ⟨hi, hpending, hc⟩

end

/-- `p` meets the contract, and `A` holds of a result. -/
abbrev AddSpec {α : Type} (i : ℕ) (p : P α) (A : α → AddLoc → Shared → Prop) (l : AddLoc)
    (s : Shared) : Prop := Safe adding adders i p (Safe.Returns A) l s

namespace AddSpec

variable {α : Type} {i ts : ℕ} {hash : String} {found : Option DagRefRow} {txs : List (ℕ × Tx Row)} {ids : List Uuid}
  {l : AddLoc} {s : Shared}

theorem now (h : Adder i hash found ts txs ids l s) :
    AddSpec i P.nowUtc (fun _ => Adder i hash found ts txs ids) l s := by
  refine Safe.returns_bind (A := fun _ => Adder i hash found ts txs ids) ?_ fun _ _ _ h => Safe.returns_ret h
  refine Safe.op fun s₁ hr _ ch => ⟨owes_of_store rfl (le_refl _) fun _ _ => rfl, ?_⟩
  rintro _ ⟨⟩
  exact (h.of_relies hr).of_store rfl (h.of_relies hr).opened rfl rfl rfl

theorem generateUuid (h : Adder i hash found ts txs ids l s) :
    AddSpec i (P.call .generateUuid) (fun id => Adder i hash found ts txs (id :: ids)) l s := by
  refine Safe.op fun s₁ hr _ ch => ⟨owes_of_store rfl (Nat.le_succ _) fun _ _ => rfl, ?_⟩
  rintro _ ⟨⟩
  have h₁ := h.of_relies hr
  exact ⟨h₁.opened, h₁.pending, h₁.payload, h₁.lookup.of_later (.refl _) rfl rfl,
    List.forall_mem_cons.mpr ⟨List.mem_cons_self, fun id hid => List.mem_cons_of_mem _ (h₁.held id hid)⟩⟩

/-- An insert adds to the open transaction. -/
theorem insert {t : ℕ} {w rows : List Row} (h : Adder i hash found ts [(i, ⟨t, w⟩)] ids l s) :
    AddSpec i (P.upsertRows rows none)
      (fun _ => Adder i hash found ts [(i, ⟨t, w ++ rows⟩)] ids) l s := by
  refine Safe.op fun s₁ hr _ ch => ?_
  have h₁ := h.of_relies hr
  cases hf : ch.fail with
  | some e =>
    simp only [adding, Op.exec, hf]
    exact ⟨owes_of_store rfl (le_refl _) fun _ _ => rfl, fun _ he => by cases he⟩
  | none =>
    simp only [adding, Op.exec, hf, Op.resolve, Option.getD_none, Shared.insert, h₁.opened]
    refine ⟨owes_of_store rfl (le_refl _) fun j hj => by simp [hj], fun _ _ => ?_⟩
    exact h₁.of_store rfl (by simp) rfl rfl rfl

/-- The insert of a call that found a DagRef. -/
theorem refer {ref : DagRefRow} {row : DagMetaRow} (h : Adder i hash (some ref) ts [] ids l s)
    (hrow : row.dagId = ref.dagId) :
    AddSpec i (P.upsertRows [.dagMeta row] none) (fun _ _ _ => True) l s := by
  refine Safe.op fun s₁ hr _ ch => ?_
  have h₁ := h.of_relies hr
  refine ⟨?_, fun _ _ => trivial⟩
  cases hf : ch.fail with
  | some e =>
    simp only [adding, Op.exec, hf]
    exact owes_of_store rfl (le_refl _) fun _ _ => rfl
  | none =>
    simp only [adding, Op.exec, hf, Op.resolve, Option.getD_none, Shared.insert, h₁.opened]
    exact owes_of_adds h₁.pending (.refers h₁.lookup hrow) rfl rfl rfl fun _ _ => rfl

theorem abort (e : Exn) :
    AddSpec i ((P.call (.abortTx none)).bind fun _ => Prog.raise e : P α) (fun _ _ _ => True) l s := by
  refine Safe.returns_bind (A := fun _ _ _ => True) (Safe.op fun s₁ _ _ ch => ?_)
    fun _ _ _ _ => Safe.returns_raise e
  exact ⟨owes_of_store rfl (le_refl _) fun _ => Shared.endTx_other, fun _ _ => trivial⟩

/-- A commit of what adds. -/
theorem commit {t : ℕ} {w : List Row} (h : Adder i hash found ts [(i, ⟨t, w⟩)] ids l s)
    (hw : ∀ l s, Adder i hash found ts [(i, ⟨t, w⟩)] ids l s → Adds l s true w) :
    AddSpec i (P.call (.commitTx none)) (fun _ _ _ => True) l s := by
  refine Safe.op fun s₁ hr _ ch => ?_
  have h₁ := h.of_relies hr
  have htx := Shared.tx?_of_opened h₁.opened
  have hother : ∀ j, j ≠ i →
      (s₁.endTx i (.thread i)).opened (.thread j) = s₁.opened (.thread j) := fun _ => Shared.endTx_other
  refine ⟨?_, fun _ _ => trivial⟩
  simp only [adding, Op.exec, Op.resolve, Option.getD_none, htx]
  split
  · exact owes_of_store rfl (le_refl _) hother
  · split_ifs
    · exact owes_of_store rfl (le_refl _) hother
    · exact owes_of_store rfl (le_refl _) hother
    · exact owes_of_adds h₁.pending (hw l s₁ h₁) rfl rfl rfl hother

/-- Without a logger nothing is retried. -/
theorem handleExceptions {A : α → AddLoc → Shared → Prop} {onExhaust : Exn → P α} {p : P α}
    (hp : AddSpec i p A l s) : AddSpec i (P.handleExceptions false onExhaust p) A l s := by
  refine Safe.returns_catching hp fun e l' s' => ?_
  split_ifs
  · contradiction
  · exact Safe.returns_raise _
  · exact Safe.returns_raise _

theorem beginTx (h : Adder i hash found ts [] ids l s) :
    AddSpec i (P.call (.beginTx none))
      (fun _ l s => ∃ t, Adder i hash found ts [(i, ⟨t, []⟩)] ids l s) l s := by
  refine Safe.op fun s₁ hr _ ch => ?_
  have h₁ := h.of_relies hr
  cases hf : ch.fail with
  | some e =>
    simp only [adding, Op.exec, hf]
    exact ⟨owes_of_store rfl (le_refl _) fun _ _ => rfl, fun _ he => by cases he⟩
  | none =>
    simp only [adding, Op.exec, hf, Op.resolve, Option.getD_none]
    refine ⟨owes_of_store rfl (le_refl _) fun j hj => by simp [Shared.beginTx, hj], fun _ _ => ?_⟩
    exact ⟨s₁.store.now, h₁.of_store rfl (by simp [Shared.beginTx, h₁.opened]) rfl rfl rfl⟩

theorem transaction {body : P Unit} (rows : List Row) (h : Adder i hash found ts [] ids l s)
    (hbody : ∀ t l s, Adder i hash found ts [(i, ⟨t, []⟩)] ids l s →
      AddSpec i body (fun _ => Adder i hash found ts [(i, ⟨t, rows⟩)] ids) l s)
    (hrows : ∀ t l s, Adder i hash found ts [(i, ⟨t, rows⟩)] ids l s → Adds l s true rows) :
    AddSpec i (P.transaction none body) (fun _ _ _ => True) l s := by
  refine Safe.returns_bind (beginTx h) fun _ l₁ s₁ hbegun => ?_
  obtain ⟨t, h₁⟩ := hbegun
  refine Safe.bind (Safe.attempt ((hbody t l₁ s₁ h₁).mono fun r l₂ s₂ hr => ?_))
  cases r with
  | ok a =>
    refine Safe.returns_bind (commit (hr a rfl) (hrows t)) fun _ _ _ _ => Safe.returns_ret trivial
  | error e => exact abort e

/-! ### The call -/

/-- The lookup of a call that has done nothing yet. -/
theorem get (hopened : s.opened (.thread i) = []) (hpending : s.store.authored i = [])
    (hreads : l.loc.reads = []) :
    AddSpec i (DagRefClient.get l.payloadHash) (fun found l' s => ∃ ts, Adder i l.payloadHash found ts [] [] l' s)
      l s := by
  refine handleExceptions (Safe.returns_bind (A := fun rows l' s => ∃ ts, Adder i l.payloadHash rows.head? ts [] [] l' s)
    (Safe.op fun s₁ hr _ ch => ?_) fun _ _ _ h => Safe.returns_ret h)
  have hsnap : s₁.snapshot (.thread i) = s₁.store.now := by
    simp [Shared.snapshot, hr.opened, hopened]
  cases hf : ch.fail with
  | some e =>
    simp only [adding, Op.exec, hf]
    exact ⟨owes_of_store rfl (le_refl _) fun _ _ => rfl, fun _ he => by cases he⟩
  | none =>
    have hok : (Query.dagRefsOfPayload l.payloadHash).fails s₁.engine = false := rfl
    simp only [adding, Op.exec, hf, hok, Bool.false_eq_true, if_false, Op.resolve, Option.getD_none, hsnap]
    refine ⟨owes_of_store rfl (le_refl _) fun _ _ => rfl, ?_⟩
    rintro _ ⟨⟩
    refine ⟨s₁.store.now, hr.opened.trans hopened, hr.authored.trans hpending, rfl,
      ⟨?_, le_refl _, rfl⟩, List.forall_mem_nil _⟩
    show s₁.store.now :: l.loc.reads = _
    rw [hreads]

theorem newDagMeta {dagId : Uuid} (h : Adder i hash found ts txs ids l s) :
    AddSpec i (Commands.newDagMeta dagId)
      (fun row l s => row.dagId = dagId ∧ Adder i hash found ts txs ids l s) l s := by
  refine Safe.returns_bind (generateUuid h) fun id l₁ s₁ h₁ => ?_
  refine Safe.returns_bind (now h₁) fun _ l₂ s₂ h₂ => Safe.returns_ret ⟨rfl, ?_⟩
  exact ⟨h₂.opened, h₂.pending, h₂.payload, h₂.lookup, fun id hid => h₂.held id (List.mem_cons_of_mem _ hid)⟩

theorem newTaskRefs {dagId : Uuid} {tasks : List (String × String × String)}
    (h : Adder i hash found ts txs ids l s) :
    AddSpec i (Commands.newTaskRefs dagId tasks) (fun _ => Adder i hash found ts txs ids) l s := by
  induction tasks generalizing l s with
  | nil => exact Safe.returns_ret h
  | cons task tasks ih =>
    refine Safe.returns_bind (now h) fun _ l₁ s₁ h₁ => ?_
    exact Safe.returns_bind (ih h₁) fun _ _ _ h₂ => Safe.returns_ret h₂

theorem createRefsMetaAtomic {dagRef : DagRefRow} {taskRefs : List TaskRefRow} {row : DagMetaRow}
    (h : Adder i hash none ts [] [dagRef.dagId] l s) (hpayload : dagRef.payloadHash = hash)
    (hrow : row.dagId = dagRef.dagId) :
    AddSpec i (Commands.createRefsMetaAtomic dagRef taskRefs row) (fun _ _ _ => True) l s := by
  refine transaction (.dagRef dagRef :: (taskRefs.map .taskRef ++ [.dagMeta row])) h
    (fun t l s h => ?_) fun t l' s' h' => ?_
  · refine Safe.returns_bind (insert h) fun _ l₁ s₁ h₁ => ?_
    refine Safe.returns_bind (insert h₁) fun _ l₂ s₂ h₂ => ?_
    have h₃ : AddSpec i (P.upsertRows [.dagMeta row] none) _ l₂ s₂ := insert h₂
    simpa using h₃
  · exact .creates h'.lookup (hpayload.trans h'.payload.symm) (h'.held _ List.mem_cons_self) hrow

/-- The call. -/
theorem tryAddDag {dag : AddedDag} (hopened : s.opened (.thread i) = [])
    (hpending : s.store.authored i = []) (hreads : l.loc.reads = [])
    (hpayload : l.payloadHash = (dag.serialized.map Prod.snd).getD "") :
    AddSpec i (Commands.tryAddDag dag) (fun _ _ _ => True) l s := by
  cases hs : dag.serialized with
  | none =>
    rw [Commands.tryAddDag, hs]
    exact Safe.returns_raise _
  | some p =>
    obtain ⟨serializedRepr, payloadHash⟩ := p
    obtain rfl : l.payloadHash = payloadHash := by simpa [hs] using hpayload
    rw [Commands.tryAddDag, hs]
    refine Safe.returns_bind (get hopened hpending hreads) fun found l₁ s₁ ⟨ts, h₁⟩ => ?_
    cases found with
    | none =>
      refine Safe.returns_bind (generateUuid h₁) fun dagId l₂ s₂ h₂ => ?_
      refine Safe.returns_bind (newDagMeta h₂) fun row l₃ s₃ ⟨hrow, h₃⟩ => ?_
      refine Safe.returns_bind (now h₃) fun created l₄ s₄ h₄ => ?_
      refine Safe.returns_bind (newTaskRefs h₄) fun taskRefs l₅ s₅ h₅ => ?_
      refine Safe.returns_bind (handleExceptions (createRefsMetaAtomic h₅ rfl hrow))
        fun _ _ _ _ => Safe.returns_ret trivial
    | some ref =>
      refine Safe.returns_bind (Safe.returns_ret (A := fun dagId l' s => dagId = ref.dagId ∧
        Adder i l.payloadHash (some ref) ts [] [] l' s) ⟨rfl, h₁⟩) fun dagId l₂ s₂ ⟨hid, h₂⟩ => ?_
      refine Safe.returns_bind (newDagMeta h₂) fun row l₃ s₃ ⟨hrow, h₃⟩ => ?_
      exact Safe.returns_bind (handleExceptions (refer h₃ (hrow.trans hid)))
        fun _ _ _ _ => Safe.returns_ret trivial

end AddSpec

end YtScheduler
