import YtScheduler.Adding.Added

/-! One DagRef per payload. A call of `try_add_dag` decides by a lookup outside its
transaction, and the DagRefs of two calls have different keys, so no conflict stops the
second one. There is one DagRef per payload exactly while every call that creates one
commits before any other DagRef of its payload is committed after its lookup. -/

namespace YtScheduler

open Tablet Threads

variable {σ σ' σ₀ : AddState} {a : AddStep} {as : List AddStep} {i ts : ℕ} {l m : AddLoc}

/-- No two DagRefs carry one payload hash. -/
def OneRef (db : Db) : Prop :=
  ∀ id ref, db.dagRef id = some ref → ∀ id' ref', db.dagRef id' = some ref' →
    ref.payloadHash = ref'.payloadHash → id = id'

instance (db : Db) : Decidable (OneRef db) := by
  unfold OneRef
  infer_instance

/-- Every payload has at most one DagRef, which every DagMeta written for the payload refers to. -/
structure OneRefPerPayload (σ : AddState) : Prop where
  unique : OneRef σ.shared.db
  metas : ∀ c ∈ σ.shared.store.log, ∀ row, .dagMeta row ∈ c.rows → ∀ l, locOf σ c.author = some l →
    ∃ ref, σ.shared.db.dagRef row.dagId = some ref ∧ ref.payloadHash = l.payloadHash

/-- The transaction that an action commits, with the private state of its call. -/
def addCommits? (σ : AddState) : AddStep → Option (AddLoc × Tx Row)
  | .spawn _ => none
  | .step i ch =>
    match ch.fail, σ.threads[i]? with
    | none, some (l, .call (.commitTx c) _) =>
      ((σ.shared.tx? i (Op.resolve c i)).filter fun tx =>
        tx.writes ≠ [] ∧ ¬σ.shared.store.Conflict tx.start tx.writes).map fun tx => (l, tx)
    | _, _ => none

/-- When a call commits a DagRef, no DagRef of its payload was committed since its lookup. -/
def LookupCurrent (σ : AddState) (a : AddStep) : Prop :=
  ∀ out, addCommits? σ a = some out → ∀ ref, .dagRef ref ∈ out.2.writes → ∀ ts ∈ out.1.loc.reads,
    ∀ c ∈ σ.shared.store.since ts, ∀ ref', .dagRef ref' ∈ c.rows →
      ref'.payloadHash ≠ ref.payloadHash

instance (σ : AddState) (a : AddStep) : Decidable (LookupCurrent σ a) := by
  unfold LookupCurrent
  infer_instance

theorem act_of_addCommits? {tx : Tx Row} (h : addCommits? σ a = some (l, tx)) :
    ∃ i ch σ', a = .step i ch ∧ adding.act σ a = some σ' ∧ locOf σ i = some l ∧
      σ'.shared.store = σ.shared.store.append ⟨i, true, tx.start, tx.writes⟩ := by
  unfold addCommits? at h
  split at h
  · cases h
  · split at h
    · rename_i i ch _ _ l' c k hf hth
      obtain ⟨tx', htx, he⟩ := Option.map_eq_some_iff.mp h
      cases he
      obtain ⟨htx, hok⟩ := Option.filter_eq_some_iff.mp htx
      simp only [decide_eq_true_eq] at hok
      refine ⟨i, ch, _, rfl, by simp only [Machine.act, hth]; rfl, by rw [locOf, hth]; rfl, ?_⟩
      simp [adding, Op.exec, htx, hf, hok.1, hok.2, Shared.endTx, Shared.commit]
    · cases h

/-- A lookup that found a DagRef found one of the payload. -/
theorem Lookup.found {ref : DagRefRow} {s : Shared} (h : Lookup (some ref) ts l s) :
    Db.dagRef (s.store.asOf ts) ref.dagId = some ref ∧ ref.payloadHash = l.payloadHash := by
  have hmem : ref ∈ dagRefsOfPayload l.payloadHash (s.store.asOf ts) :=
    List.mem_of_mem_head? h.found_eq.symm
  have hmem := List.mem_filter.mp (List.mem_of_mem_take hmem)
  exact ⟨Db.mem_all.mp hmem.1, by simpa using hmem.2⟩

/-- A lookup that found none read tables without a DagRef of the payload. -/
theorem Lookup.none_of {s : Shared} (h : Lookup none ts l s) {id : Uuid} {ref : DagRefRow}
    (href : Db.dagRef (s.store.asOf ts) id = some ref) : ref.payloadHash ≠ l.payloadHash := by
  intro hpayload
  obtain rfl := Db.id_of_get href
  have hmem : ref ∈ (Db.dagRefs (s.store.asOf ts)).filter fun r => r.payloadHash = l.payloadHash :=
    List.mem_filter.mpr ⟨Db.mem_all.mpr href, by simpa using hpayload⟩
  have hnil := List.head?_eq_none_iff.mp h.found_eq.symm
  rw [dagRefsOfPayload, List.take_eq_nil_iff] at hnil
  rcases hnil with hnil | hnil
  · cases hnil
  · rw [hnil] at hmem
    cases hmem

/-- If the lookup found none and no DagRef of the payload was committed since, there is none. -/
theorem Reached.no_ref (h : Reached σ) (hl : Lookup none ts l σ.shared)
    (hsince : ∀ c ∈ σ.shared.store.since ts, ∀ ref, .dagRef ref ∈ c.rows →
      ref.payloadHash ≠ l.payloadHash) {id : Uuid} {ref : DagRefRow}
    (href : σ.shared.db.dagRef id = some ref) : ref.payloadHash ≠ l.payloadHash := by
  by_cases htouched : σ.shared.store.Touched ts (.dagRef id)
  · -- the DagRef was written since the lookup
    obtain ⟨c, hc, row, hrow, hkey⟩ := htouched
    cases row with
    | dagRef ref' =>
      obtain rfl : ref'.dagId = id := by simpa using hkey
      obtain ⟨_, _, hrefs⟩ := h.added.author c (List.mem_of_mem_take hc)
      cases (hrefs ref' hrow).2.symm.trans href
      exact hsince c hc _ hrow
    | _ => simp [Keyed.key] at hkey
  · have hread : Db.dagRef (σ.shared.store.asOf ts) id = some ref := by
      show ((σ.shared.store.asOf ts).find (.dagRef id)).bind RowKind.proj = some ref
      rw [Store.find_asOf_of_not_touched htouched]
      exact href
    exact hl.none_of hread

/-- A commit that writes a DagRef is one of a call that found none. -/
theorem Adds.creates_of_ref {s : Shared} {inTx : Bool} {rows : List Row} {ref : DagRefRow}
    (h : Adds l s inTx rows) (href : .dagRef ref ∈ rows) :
    ∃ ts, Lookup none ts l s ∧ ref.dagId ∈ l.uuids ∧
      ∀ {db : Db}, Db.dagRef (db.upsertAll rows) ref.dagId = some ref := by
  cases h with
  | creates hl hpayload hid hrow =>
    obtain rfl : ref = _ := by simpa using href
    exact ⟨_, hl, hid, fun {_} => by rw [dagRef_of_creates, if_pos rfl]⟩
  | refers hl hrow => simp at href

/-- A commit of a transaction is what an action commits. -/
theorem Reached.commits (h : Reached σ) {ch : Choice} (ha : adding.act σ (.step i ch) = some σ')
    {c : Commit Row} (hc : σ'.shared.store = σ.shared.store.append c) (hin : c.inTx = true) :
    ∃ l tx, addCommits? σ (.step i ch) = some (l, tx) ∧ locOf σ i = some l ∧ c.rows = tx.writes := by
  obtain ⟨l, o, k, hth, rfl, -, -⟩ := h.sound.step ha
  have hc : (o.exec i ch l.loc σ.shared).2.2.store = σ.shared.store.append c := hc
  rcases Op.exec_store o i ch l.loc σ.shared with hs | ⟨_, rows, _, _, _, hs⟩ |
    ⟨ytClient, tx, rfl, hf, htx, hw, hconf, hs⟩
  · exact absurd (hs.symm.trans hc) (Store.ne_append _ c)
  · rw [← Store.append_inj (hs.symm.trans hc)] at hin
    cases hin
  · rw [← Store.append_inj (hs.symm.trans hc)]
    exact ⟨l, tx, by simp [addCommits?, hf, hth, htx, hw, hconf], by rw [locOf, hth]; rfl, rfl⟩

/-- A commit that creates a DagRef keeps the DagRefs unique, if its lookup is current. -/
theorem Reached.creates (hr : Reached σ) (h : OneRef σ.shared.db) (hl : Lookup none ts l σ.shared)
    {ref : DagRefRow} {taskRefs : List TaskRefRow} {row : DagMetaRow}
    (hpayload : ref.payloadHash = l.payloadHash)
    (hsince : ∀ c ∈ σ.shared.store.since ts, ∀ ref', .dagRef ref' ∈ c.rows →
      ref'.payloadHash ≠ ref.payloadHash) :
    OneRef (σ.shared.db.upsertAll (.dagRef ref :: (taskRefs.map .taskRef ++ [.dagMeta row]))) := by
  have hnone : ∀ id ref', σ.shared.db.dagRef id = some ref' → ref'.payloadHash ≠ ref.payloadHash := by
    intro id ref' href'
    rw [hpayload] at hsince ⊢
    exact hr.no_ref hl hsince href'
  intro id ref₁ href₁ id' ref₂ href₂ hsame
  rw [dagRef_of_creates] at href₁ href₂
  split_ifs at href₁ href₂ with hid hid' hid'
  · rw [hid, hid']
  · cases href₁
    exact absurd hsame.symm (hnone id' ref₂ href₂)
  · cases href₂
    exact absurd hsame (hnone id ref₁ href₁)
  · exact h id ref₁ href₁ id' ref₂ href₂ hsame

/-- A DagRef that a commit added or another one kept, for a DagMeta of the commit. -/
theorem Reached.refers (hr : Reached σ) (hs : Stepped σ σ' i l m) {c : Commit Row}
    (hc : σ'.shared.store = σ.shared.store.append c) (hadds : Adds l σ.shared c.inTx c.rows)
    {row : DagMetaRow} (hrow : .dagMeta row ∈ c.rows) :
    ∃ ref, σ'.shared.db.dagRef row.dagId = some ref ∧ ref.payloadHash = l.payloadHash := by
  obtain ⟨author, inTx, start, rows⟩ := c
  cases hadds with
  | creates hl hpayload hid hrow' =>
    obtain rfl : row = _ := by simpa using hrow
    refine ⟨_, ?_, hpayload⟩
    rw [Shared.db, hc, Store.current_append, dagRef_of_creates, if_pos hrow']
  | refers hl hrow' =>
    obtain rfl : row = _ := by simpa using hrow
    obtain ⟨href, hpayload⟩ := hl.found
    exact ⟨_, hrow' ▸ hr.added.keeps hs (hr.added.stay href), hpayload⟩

/-- The step lemma. -/
theorem OneRefPerPayload.act (hr : Reached σ) (h : OneRefPerPayload σ) (hc : LookupCurrent σ a)
    (ha : adding.act σ a = some σ') : OneRefPerPayload σ' := by
  cases a with
  | spawn dag =>
    have hkept := fun j l => loc_spawned (j := j) (l := l) ha
    have hshared : σ'.shared = σ.shared := by
      cases ha
      rfl
    refine ⟨hshared ▸ h.unique, fun c hc row hrow l hl => ?_⟩
    rw [hshared] at hc ⊢
    obtain ⟨l', hl', _⟩ := hr.added.author c hc
    cases (hkept _ _ hl').symm.trans hl
    exact h.metas c hc row hrow l hl'
  | step i ch =>
    obtain ⟨l, m, hs⟩ := stepped_of_act hr.sound ha
    have hold : ∀ c ∈ σ.shared.store.log, ∀ row, .dagMeta row ∈ c.rows → ∀ k,
        locOf σ' c.author = some k →
          ∃ ref, σ'.shared.db.dagRef row.dagId = some ref ∧ ref.payloadHash = k.payloadHash := by
      intro c hc row hrow k hk
      obtain ⟨k', hk', _⟩ := hr.added.author c hc
      obtain ⟨k'', hk'', hsame, _⟩ := hs.loc_grows hk'
      cases hk''.symm.trans hk
      obtain ⟨ref, href, hpayload⟩ := h.metas c hc row hrow k' hk'
      exact ⟨ref, hr.added.keeps hs href, hpayload.trans hsame.symm⟩
    rcases hs.store with hstore | ⟨c, hstore, rfl, _, hadds⟩
    · refine ⟨?_, fun c hc => hold c (hstore ▸ hc)⟩
      rw [Shared.db, hstore]
      exact h.unique
    · refine ⟨?_, fun c' hc' row hrow k hk => ?_⟩
      · rw [Shared.db, hstore, Store.current_append]
        obtain ⟨author, inTx, start, rows⟩ := c
        cases hadds with
        | creates hl hpayload hid hrow =>
          obtain ⟨l', tx, hcommits, hl', hwrites⟩ := hr.commits ha hstore rfl
          obtain rfl : l = l' := Option.some.inj (hs.before.symm.trans hl')
          refine hr.creates h.unique hl hpayload ?_
          exact hc _ hcommits _ (hwrites ▸ List.mem_cons_self) _ (by simp [hl.reads])
        | refers hl hrow =>
          intro id ref href id' ref' href'
          rw [dagRef_of_refers] at href href'
          exact h.unique id ref href id' ref' href'
      · rw [hstore, Store.log_append] at hc'
        rcases List.mem_cons.mp hc' with rfl | hc'
        · cases hs.after_self.symm.trans hk
          rw [hs.payload]
          exact hr.refers hs hstore hadds hrow
        · exact hold c' hc' row hrow k hk

/-- A step after which there is one DagRef per payload had a current lookup. -/
theorem Reached.lookupCurrent (hr : Reached σ)
    (h : ∀ σ', adding.act σ a = some σ' → OneRef σ'.shared.db) : LookupCurrent σ a := by
  rintro ⟨l, tx⟩ hcommits ref href ts hts c hc ref' href' hpayload
  obtain ⟨i, ch, σ', rfl, ha, hloc, hstore⟩ := act_of_addCommits? hcommits
  obtain ⟨l', m, hs⟩ := stepped_of_act hr.sound ha
  obtain rfl : l = l' := Option.some.inj (hloc.symm.trans hs.before)
  rcases hs.store with hsame | ⟨c', hstore', -, hpending, hadds⟩
  · exact absurd (hsame.symm.trans hstore) (Store.ne_append _ _)
  · have hcommit := Store.append_inj (hstore'.symm.trans hstore)
    rw [hcommit] at hadds
    obtain ⟨ts', hl, hid, hnew⟩ := hadds.creates_of_ref href
    obtain rfl : ts = ts' := by simpa [hl.reads] using hts
    -- the DagRef committed since the lookup is still there, under another id
    obtain ⟨_, _, hrefs⟩ := hr.added.author c (List.mem_of_mem_take hc)
    have hother := (hrefs ref' href').2
    have hown : σ'.shared.db.dagRef ref.dagId = some ref := by
      rw [Shared.db, hstore, Store.current_append]
      exact hnew
    have hsame := h σ' ha _ ref' (hr.added.keeps hs hother) _ ref hown hpayload
    rw [hsame] at hother
    cases (hr.added.unused hs.before hid hpending).symm.trans hother

/-- There is one DagRef per payload in every state of a run if and only if every call that commits
a DagRef does so before another DagRef of its payload is committed after its lookup. -/
theorem one_ref_per_payload_iff (h : Unadded σ₀) (hone : OneRef σ₀.shared.db) :
    adding.Always OneRefPerPayload σ₀ as ↔ adding.Along LookupCurrent σ₀ as := by
  constructor
  · intro halways
    rw [Machine.along_iff]
    rintro as₁ a as₂ rfl σ₁ h1
    refine (h.run h1).lookupCurrent fun σ' ha => ?_
    refine (halways (as₁ ++ [a]) as₂ σ' (by simp) ?_).unique
    rw [Machine.run_append, h1]
    simp [Machine.run, ha]
  · rintro hc as₁ as₂ σ₁ rfl h1
    have h0 : OneRefPerPayload σ₀ := ⟨hone, by simp [h.log]⟩
    exact (Machine.along_induction (P := fun σ => Reached σ ∧ OneRefPerPayload σ) ⟨h.reached, h0⟩
      (fun σ a σ' hP hC ha => ⟨hP.1.act ha, hP.2.act hP.1 hC ha⟩) (Machine.along_left hc) h1).2

/-- Nothing has been added yet. -/
def noDags : AddState := ⟨{ store := ⟨.empty, []⟩ }, []⟩

/-- A DAG without tasks. -/
def emptyDag : AddedDag := ⟨some ("repr", "hash"), []⟩

/-- `n` calls of thread `i`. -/
def addCalls (i n : ℕ) : List AddStep := List.replicate n (.step i {})

/-- The DAG is added twice, one call after the other. -/
def addsInTurn : List AddStep :=
  .spawn emptyDag :: addCalls 0 10 ++ .spawn emptyDag :: addCalls 1 4

/-- Both calls look the payload up before either of them commits. -/
def addsAtOnce : List AddStep :=
  .spawn emptyDag :: .spawn emptyDag :: addCalls 0 1 ++ addCalls 1 1 ++ addCalls 0 9 ++ addCalls 1 9

theorem unadded_noDags : Unadded noDags where
  threads := rfl
  log := rfl
  opened _ := rfl
  refs_lt := by decide +kernel

theorem one_ref_added_in_turn : adding.Always OneRefPerPayload noDags addsInTurn :=
  (one_ref_per_payload_iff unadded_noDags (by decide +kernel)).mpr (by decide +kernel)

/-- Two calls that look the payload up before either of them commits leave two DagRefs. -/
theorem two_refs_added_at_once : ¬∀ σ₀ as, Unadded σ₀ → OneRef σ₀.shared.db →
    adding.Always OneRefPerPayload σ₀ as := by
  intro h
  have htwo : ¬adding.Always (fun σ => OneRef σ.shared.db) noDags addsAtOnce :=
    Machine.not_always (by decide +kernel)
  refine htwo fun as₁ as₂ σ₁ has h1 => ?_
  exact (h noDags addsAtOnce unadded_noDags (by decide +kernel) as₁ as₂ σ₁ has h1).unique

end YtScheduler
