import YtScheduler.Dispatching.Threads
import YtScheduler.Laws.Steps

/-! No operation is started before its dependencies are met. An operation is started for a TaskRun
that was QUEUED before, through whatever threads it was handed, and a TaskRun is
QUEUED only as a root of its DAG, or when a snapshot showed the TaskRuns of all its
upstream tasks finished and none of them FAILED, provided the task ids are plain. -/

namespace YtScheduler

open Tablet Threads

variable {s s' : Shared} {σ σ' σ₀ : State} {a : Step} {as : List Step}

/-! ### What growth keeps -/

/-- The TaskRun was QUEUED at some time. -/
def WasQueued (s : Shared) (runId : Uuid) : Prop :=
  ∃ ts t, ts ≤ s.store.now ∧ Db.taskRun (s.store.asOf ts) runId = some t ∧ t.state = .queued

/-- The object stands for a TaskRun that was QUEUED. -/
def HandedOut (s : Shared) (tr : Ref) : Prop := ∃ i, s.trIdent tr = some i ∧ WasQueued s i.runId

/-- The pool entry fetches the TaskRuns to start. -/
def Fetches (s : Shared) (q : ℕ) : Prop := ∃ fn, s.fn? q = some fn ∧ fn.FetchesQueued

/-- One snapshot shows the TaskRuns of all upstream tasks finished, and none FAILED. -/
def Cleared (s : Shared) (t : TaskRunRow) : Prop :=
  ∃ dag, s.dag? t.dagId = some dag ∧ ∃ ts ≤ s.store.now, ∀ u ∈ DagRun.upstream dag t.taskId,
    ∃ id up, Db.taskRun (s.store.asOf ts) id = some up ∧ up.dagrunId = t.dagrunId ∧ up.taskId = u ∧
      (up.state = .success ∨ up.state = .skipped)

theorem WasQueued.of_asOf {ts : ℕ} {id : Uuid} {t : TaskRunRow}
    (h : Db.taskRun (s.store.asOf ts) id = some t) (hst : t.state = .queued) : WasQueued s id := by
  rcases Nat.le_total ts s.store.now with hts | hts
  · exact ⟨ts, t, hts, h, hst⟩
  · refine ⟨s.store.now, t, le_refl _, ?_, hst⟩
    have heq : s.store.asOf ts = s.store.asOf s.store.now := by
      simp [Store.asOf, Nat.sub_eq_zero_of_le hts]
    rwa [← heq]

section Grown

variable (hg : Grows s s')
include hg

theorem WasQueued.mono {id : Uuid} (h : WasQueued s id) : WasQueued s' id := by
  obtain ⟨ts, t, hts, ht, hst⟩ := h
  exact ⟨ts, t, hts.trans hg.store.now_le, (hg.store.asOf_eq hts).symm ▸ ht, hst⟩

theorem HandedOut.mono {tr : Ref} (h : HandedOut s tr) : HandedOut s' tr := by
  obtain ⟨i, hi, hq⟩ := h
  exact ⟨i, hg.taskRuns tr i hi, hq.mono hg⟩

theorem Fetches.mono {q : ℕ} (h : Fetches s q) : Fetches s' q := by
  obtain ⟨fn, hq, hfn⟩ := h
  exact ⟨fn, hg.jobs q fn hq, hfn⟩

theorem Cleared.mono {t : TaskRunRow} (h : Cleared s t) : Cleared s' t := by
  obtain ⟨dag, hdag, ts, hts, hup⟩ := h
  refine ⟨dag, (hg.knows.dag? _).trans hdag, ts, hts.trans hg.store.now_le, ?_⟩
  rw [hg.store.asOf_eq hts]
  exact hup

theorem exists_taskRun_of_grows {id : Uuid} (h : ∃ t, s.db.taskRun id = some t) :
    ∃ t, s'.db.taskRun id = some t := by
  obtain ⟨t, ht⟩ := h
  obtain ⟨t', ht', _⟩ := hg.tables.taskRun id t ht
  exact ⟨t', ht'⟩

end Grown

/-- What identifies a TaskRun tells whether it was cleared. -/
theorem Cleared.of_ident {t t' : TaskRunRow} (h : Cleared s t) (hi : t'.ident = t.ident) :
    Cleared s t' := by
  have hd : t'.dagId = t.dagId := congrArg TaskRunIdent.dagId hi
  have ht : t'.taskId = t.taskId := congrArg TaskRunIdent.taskId hi
  have hr : t'.dagrunId = t.dagrunId := congrArg TaskRunIdent.dagrunId hi
  obtain ⟨dag, hdag, hup⟩ := h
  exact ⟨dag, hd ▸ hdag, by rw [ht, hr]; exact hup⟩

/-! ### What a thread has learnt is so -/

/-- What was learnt in a state is true there. -/
structure Learnt.Holds (s : Shared) (γ : Learnt) : Prop where
  fetched : ∀ t ∈ γ.seen.fetched, ∃ t', s.db.taskRun t.runId = some t'
  objects : ∀ x ∈ γ.seen.objects, ∃ t', s.db.taskRun x.2 = some t'
  queued : ∀ id ∈ γ.queued, WasQueued s id
  handed : ∀ tr ∈ γ.handed, HandedOut s tr
  entries : ∀ q ∈ γ.entries, Fetches s q
  taken : ∀ x ∈ γ.taken, s.fn? x.1 = some x.2

theorem Learnt.Holds.mono (hg : Grows s s') {γ : Learnt} (h : γ.Holds s) : γ.Holds s' where
  fetched t ht := exists_taskRun_of_grows hg (h.fetched t ht)
  objects x hx := exists_taskRun_of_grows hg (h.objects x hx)
  queued id hid := (h.queued id hid).mono hg
  handed tr htr := (h.handed tr htr).mono hg
  entries q hq := (h.entries q hq).mono hg
  taken x hx := hg.jobs _ _ (h.taken x hx)

theorem Learnt.Holds.exists_taskRun {γ : Learnt} (h : γ.Holds s) {id : Uuid} (hk : γ.Knows id) :
    ∃ t, s.db.taskRun id = some t := by
  rcases hk with ⟨t, ht, rfl⟩ | ⟨ref, hx⟩
  · exact h.fetched t ht
  · exact h.objects _ hx

/-- A pool entry starts only what was handed out, returns only such TaskRuns if it fetches them, and
has them started only then. -/
structure Entrusted (s : Shared) (e : Queueable) : Prop where
  starts : ∀ tr ∈ e.fn.starts, HandedOut s tr
  fetches : e.fn.FetchesQueued → ∀ trs, e.result = some (.ok (.taskRuns trs)) →
    ∀ tr ∈ trs, HandedOut s tr
  callback : ∀ svc q, e.callback = some (svc, .startTaskruns q) → Fetches s q

/-- What the threads hand to each other, and what they are about to write. -/
structure Dispatched (s : Shared) : Prop where
  entries : ∀ e ∈ s.mem.queueables, Entrusted s e
  callbacks : ∀ svc ∈ s.mem.services, ∀ q, .startTaskruns q ∈ svc.callbacks → Fetches s q
  written : ∀ c, ∀ x ∈ s.opened c, ∀ t, .taskRun t ∈ x.2.writes → t.state = .queued →
    (∃ t', s.db.taskRun t.runId = some t') ∨ t.IsRoot s.dags

theorem Entrusted.mono (hg : Grows s s') {e : Queueable} (h : Entrusted s e) : Entrusted s' e where
  starts tr htr := (h.starts tr htr).mono hg
  fetches hfn trs hres tr htr := (h.fetches hfn trs hres tr htr).mono hg
  callback svc q hcb := (h.callback svc q hcb).mono hg

section Sees

variable {γ : Learnt} {o : Op} {i : ℕ} {ch : Choice} {l : Loc} {r : Except Exn o.Ret}

/-- The rows that a select of TaskRuns returns are those of a snapshot. -/
theorem rows_of_select {c : Option Client} {w : TaskRunFilter} {rows : List TaskRunRow}
    (hr : ((Op.select c (.taskRuns w)).exec i ch l s).1 = .ok rows) :
    ∃ ts, ∀ t ∈ rows, Db.taskRun (s.store.asOf ts) t.runId = some t ∧ w.accepts s.engine t = true := by
  simp only [Op.exec] at hr
  split at hr
  · cases hr
  · split_ifs at hr
    · cases hr
      exact ⟨_, fun t ht => mem_select_taskRuns ht⟩

/-- The row that is read is in the object. -/
theorem row_of_readTaskRun {tr : Ref} {row : TaskRunRow}
    (hr : ((Op.mem (.readTaskRun tr)).exec i ch l s).1 = .ok row) : s.mem.taskRuns[tr]? = some row := by
  simp only [Op.exec, Mem.exec] at hr
  cases hrow : s.mem.taskRuns[tr]? with
  | none =>
    rw [hrow] at hr
    cases hr
  | some row' =>
    rw [hrow] at hr
    cases hr
    rfl

theorem fetched_see (hc : Consistent s) (h : γ.Holds s) (hr : (o.exec i ch l s).1 = r) :
    ∀ t ∈ (γ.seen.see o r).fetched, ∃ t', s.db.taskRun t.runId = some t' := by
  unfold Seen.see
  split
  · intro t ht
    obtain ⟨ts, hrows⟩ := rows_of_select hr
    obtain ⟨t', ht', _⟩ := (hc.persists ts).taskRun _ t (hrows t ht).1
    exact ⟨t', ht'⟩
  · exact h.fetched
  · exact h.fetched
  · simp
  · exact h.fetched

theorem objects_see (hc : Consistent s) (h : γ.Holds s) (hr : (o.exec i ch l s).1 = r) :
    ∀ x ∈ (γ.seen.see o r).objects, ∃ t', s.db.taskRun x.2 = some t' := by
  unfold Seen.see
  split
  · exact h.objects
  · rw [List.forall_mem_cons]
    refine ⟨?_, h.objects⟩
    obtain ⟨t', ht', _⟩ := hc.mem.taskRuns _ (List.mem_of_getElem? (row_of_readTaskRun hr))
    exact ⟨t', ht'⟩
  · exact h.objects
  · exact h.objects
  · exact h.objects

theorem wasQueued_see (h : γ.Holds s) (hr : (o.exec i ch l s).1 = r) :
    ∀ id ∈ (γ.see o r).queued, WasQueued s id := by
  unfold Learnt.see
  split
  · refine List.forall_mem_append.mpr ⟨fun id hid => ?_, h.queued⟩
    obtain ⟨t, ht, rfl⟩ := List.mem_map.mp hid
    obtain ⟨ht, hst⟩ := List.mem_filter.mp ht
    obtain ⟨ts, hrows⟩ := rows_of_select hr
    exact .of_asOf (hrows t ht).1 (by simpa using hst)
  · exact h.queued
  · next tr row =>
    intro id hid
    dsimp only at hid
    split_ifs at hid with htr
    · rcases List.mem_cons.mp hid with rfl | hid
      · -- the object stands for the TaskRun whose row is in it
        obtain ⟨i, hi, hq⟩ := h.handed tr htr
        rw [Shared.trIdent, row_of_readTaskRun hr] at hi
        cases hi
        exact hq
      · exact h.queued id hid
    · exact h.queued id hid
  · exact h.queued
  · exact h.queued
  · exact h.queued
  · exact h.queued
  · exact h.queued

/-- The objects made of rows stand for them. -/
theorem trIdent_of_newTaskRuns {rows : List TaskRunRow} {refs : List Ref}
    (hr : ((Op.mem (.newTaskRuns rows)).exec i ch l s).1 = .ok refs) {tr : TaskRunObj}
    (htr : tr ∈ List.zipWith TaskRunObj.mk refs rows) :
    ((Op.mem (.newTaskRuns rows)).exec i ch l s).2.2.trIdent tr.ref = some tr.row.ident := by
  cases hr
  obtain ⟨k, row, hk, rfl⟩ := mem_zipWith_range' htr
  have hget : (s.mem.taskRuns ++ rows)[s.mem.taskRuns.length + k]? = some row := by
    rw [List.getElem?_append_right (Nat.le_add_right _ _), Nat.add_sub_cancel_left, hk]
  show ((s.mem.taskRuns ++ rows)[s.mem.taskRuns.length + k]?).map TaskRunRow.ident = _
  rw [hget, Option.map_some]

theorem entry_of_takeJob {q : ℕ} {fn : Job}
    (hr : ((Op.mem .takeJob).exec i ch l s).1 = .ok (some (q, fn))) :
    ∃ e, s.mem.queueables[q]? = some e ∧ e.fn = fn := by
  simp only [Op.exec, Mem.exec] at hr
  split at hr
  · split at hr
    · next e he =>
      cases hr
      exact ⟨e, he, rfl⟩
    · cases hr
  · cases hr

theorem result_of_result {q : ℕ} {r : JobResult} (hr : ((Op.mem (.result q)).exec i ch l s).1 = .ok r) :
    ∃ e, s.mem.queueables[q]? = some e ∧ e.result = some (.ok r) := by
  simp only [Op.exec, Mem.exec] at hr
  cases he : s.mem.queueables[q]? with
  | none =>
    rw [he] at hr
    cases hr
  | some e =>
    rw [he, Option.bind_some] at hr
    cases hres : e.result with
    | none =>
      rw [hres] at hr
      cases hr
    | some res =>
      rw [hres, Option.getD_some] at hr
      exact ⟨e, rfl, by rw [hr] at hres; exact hres⟩

theorem callback_of_takeCallback {svc : ℕ} {cb : Callback}
    (hr : ((Op.mem (.takeCallback svc)).exec i ch l s).1 = .ok (some cb)) :
    ∃ service ∈ s.mem.services, cb ∈ service.callbacks := by
  simp only [Op.exec, Mem.exec, Except.ok.injEq] at hr
  obtain ⟨service, hs, hcb⟩ := Option.bind_eq_some_iff.mp hr
  exact ⟨service, List.mem_of_getElem? hs, List.mem_of_mem_head? hcb⟩

theorem handedOut_see (h : γ.Holds s) (hd : Dispatched s) (hr : (o.exec i ch l s).1 = r)
    (hg : Grows s (o.exec i ch l s).2.2) :
    ∀ tr ∈ (γ.see o r).handed, HandedOut (o.exec i ch l s).2.2 tr := by
  have hold : ∀ tr ∈ γ.handed, HandedOut (o.exec i ch l s).2.2 tr :=
    fun tr htr => (h.handed tr htr).mono hg
  unfold Learnt.see
  split
  · exact hold
  · refine List.forall_mem_append.mpr ⟨fun tr htr => ?_, hold⟩
    obtain ⟨obj, hobj, rfl⟩ := List.mem_map.mp htr
    obtain ⟨hobj, hq⟩ := List.mem_filter.mp hobj
    have hqueued : obj.row.runId ∈ γ.queued := by simpa using hq
    exact ⟨_, trIdent_of_newTaskRuns hr hobj, (h.queued _ hqueued).mono hg⟩
  · exact hold
  · exact hold
  · refine List.forall_mem_append.mpr ⟨fun tr htr => ?_, hold⟩
    obtain ⟨e, he, rfl⟩ := entry_of_takeJob hr
    exact ((hd.entries e (List.mem_of_getElem? he)).starts tr htr).mono hg
  · exact hold
  · next q trs =>
    intro tr htr
    dsimp only at htr
    split_ifs at htr with hq
    · rcases List.mem_append.mp htr with htr | htr
      · -- the entry fetches TaskRuns, and these are its result
        obtain ⟨e, he, hres⟩ := result_of_result hr
        obtain ⟨fn, hfn, hfetch⟩ := h.entries q hq
        rw [Shared.fn?, he] at hfn
        cases hfn
        exact ((hd.entries e (List.mem_of_getElem? he)).fetches hfetch trs hres tr htr).mono hg
      · exact hold tr htr
    · exact hold tr htr
  · exact hold

theorem fetches_see (h : γ.Holds s) (hd : Dispatched s) (hr : (o.exec i ch l s).1 = r)
    (hg : Grows s (o.exec i ch l s).2.2) :
    ∀ q ∈ (γ.see o r).entries, Fetches (o.exec i ch l s).2.2 q := by
  have hold : ∀ q ∈ γ.entries, Fetches (o.exec i ch l s).2.2 q := fun q hq => (h.entries q hq).mono hg
  unfold Learnt.see
  split
  · exact hold
  · exact hold
  · exact hold
  · next shard q =>
    refine List.forall_mem_cons.mpr ⟨?_, hold⟩
    cases hr
    refine ⟨.getExecutableTaskRunsToQueue shard, ?_, trivial⟩
    simp [Shared.fn?, Op.exec, Mem.exec]
  · exact hold
  · refine List.forall_mem_cons.mpr ⟨?_, hold⟩
    obtain ⟨service, hs, hcb⟩ := callback_of_takeCallback hr
    exact (hd.callbacks service hs _ hcb).mono hg
  · exact hold
  · exact hold

theorem fn?_see (h : γ.Holds s) (hr : (o.exec i ch l s).1 = r) (hg : Grows s (o.exec i ch l s).2.2) :
    ∀ x ∈ (γ.see o r).taken, (o.exec i ch l s).2.2.fn? x.1 = some x.2 := by
  have hold : ∀ x ∈ γ.taken, (o.exec i ch l s).2.2.fn? x.1 = some x.2 :=
    fun x hx => hg.jobs _ _ (h.taken x hx)
  unfold Learnt.see
  split
  · exact hold
  · exact hold
  · exact hold
  · exact hold
  · refine List.forall_mem_cons.mpr ⟨?_, hold⟩
    obtain ⟨e, he, rfl⟩ := entry_of_takeJob hr
    exact hg.jobs _ _ (by rw [Shared.fn?, he, Option.map_some])
  · exact hold
  · exact hold
  · exact hold

/-- What the calls of a thread show it is so. -/
theorem Learnt.Holds.see (h : γ.Holds s) (hc : Consistent s) (hd : Dispatched s)
    (hg : Grows s (o.exec i ch l s).2.2) :
    (γ.see o (o.exec i ch l s).1).Holds (o.exec i ch l s).2.2 where
  fetched t ht := by
    rw [Learnt.see_seen] at ht
    exact exists_taskRun_of_grows hg (fetched_see hc h rfl t ht)
  objects x hx := by
    rw [Learnt.see_seen] at hx
    exact exists_taskRun_of_grows hg (objects_see hc h rfl x hx)
  queued id hid := (wasQueued_see h rfl id hid).mono hg
  handed := handedOut_see h hd rfl hg
  entries := fetches_see h hd rfl hg
  taken := fn?_see h rfl hg

end Sees

/-! ### What the threads hand to each other -/

section Step

variable {γ : Learnt} {o : Op} {i : ℕ} {ch : Choice} {l : Loc} {m : MemOp}

/-- No call returns a job or a callback of claiming. -/
theorem Consistent.expects (hc : Consistent s) : o.Expects (o.exec i ch l s).1 := by
  generalize hr : (o.exec i ch l s).1 = r
  unfold Op.Expects
  split
  · obtain ⟨e, he, hfn⟩ := entry_of_takeJob hr
    exact (hfn ▸ (hc.mem.queueables e (List.mem_of_getElem? he)).fn :)
  · obtain ⟨e, he, hfn⟩ := entry_of_takeJob hr
    exact (hfn ▸ (hc.mem.queueables e (List.mem_of_getElem? he)).fn :)
  · obtain ⟨service, hs, hcb⟩ := callback_of_takeCallback hr
    exact (hc.mem.services service hs).callbacks _ hcb
  · trivial

/-- The outcomes are those of a state with its serialized DAGs. -/
theorem Consistent.learnable (hc : Consistent s) : o.Learnable s.dags (o.exec i ch l s).1 := by
  generalize hr : (o.exec i ch l s).1 = r
  unfold Op.Learnable
  split
  · intro hnone t ht
    obtain ⟨ts, hrows⟩ := rows_of_select hr
    have haccepts := (hrows t ht).2
    simp only [TaskRunFilter.accepts_of_taskId_none hnone, TaskRunFilter.agrees,
      Bool.and_eq_true] at haccepts
    exact haccepts.1.1.2
  · simp only [Op.exec] at hr
    split at hr
    · next hdag =>
      cases hr
      exact loaded_of_find? hdag
    · cases hr
  · obtain ⟨e, he, hfn⟩ := entry_of_takeJob hr
    obtain ⟨j, _, hdag⟩ : JobOk s (.queueRunAtomic _ _) :=
      hfn ▸ (hc.mem.queueables e (List.mem_of_getElem? he)).fn
    exact loaded_of_find? hdag
  · trivial

/-- An allowed access to the memory keeps its entries entrusted. -/
theorem entrusted_exec (h : γ.Holds s) (hd : Dispatched s) (ha : γ.Allows s.dags (.mem m))
    (hg : Grows s s') (pick : ℕ) : ∀ e ∈ (s.mem.exec i pick m).2.queueables, Entrusted s' e := by
  intro e he
  obtain ⟨q, he⟩ := List.mem_iff_getElem?.mp he
  rcases Mem.getElem?_queueables_exec he with ⟨fn, rfl, _, rfl⟩ | ⟨e₀, he₀, _, hfn, hcb, hres⟩
  · -- a new entry has no result and no callback
    refine ⟨fun tr htr => ?_, by simp, by simp⟩
    cases fn with
    | startTaskrun svc tr' =>
      obtain rfl : tr = tr' := List.mem_singleton.mp htr
      exact (h.handed tr ha).mono hg
    | _ => cases htr
  · have hold := (hd.entries e₀ (List.mem_of_getElem? he₀)).mono hg
    refine ⟨fun tr htr => hold.starts tr (hfn ▸ htr), fun hfetch trs hr tr htr => ?_,
      fun svc q' hr => ?_⟩
    · rcases hres with hres | ⟨r, rfl, hres⟩
      · exact hold.fetches (hfn ▸ hfetch) trs (hres ▸ hr) tr htr
      · -- the thread has taken this job
        obtain ⟨fn, htaken, htrs⟩ := ha
        have hfn₀ := h.taken _ htaken
        rw [Shared.fn?, he₀] at hfn₀
        obtain rfl : e₀.fn = fn := Option.some.inj hfn₀
        obtain rfl : r = .ok (.taskRuns trs) := Option.some.inj (hres.symm.trans hr)
        exact (h.handed tr (htrs (hfn ▸ hfetch) trs rfl htr)).mono hg
    · rcases hcb with hcb | ⟨svc', cb, rfl, hcb⟩
      · exact hold.callback svc q' (hcb ▸ hr)
      · obtain rfl : cb = .startTaskruns q' := (Prod.ext_iff.mp (Option.some.inj (hcb.symm.trans hr))).2
        exact (h.entries q' ha).mono hg

theorem callbacks_exec (hd : Dispatched s) (hg : Grows s s') (pick : ℕ) :
    ∀ svc ∈ (s.mem.exec i pick m).2.services, ∀ q, .startTaskruns q ∈ svc.callbacks → Fetches s' q := by
  intro svc hsvc q hcb
  rcases Mem.mem_callbacks_exec hsvc hcb with ⟨svc₀, h₀, hcb₀⟩ | ⟨q', e, svc', he, hcb', _⟩
  · exact (hd.callbacks svc₀ h₀ q hcb₀).mono hg
  · exact ((hd.entries e (List.mem_of_getElem? he)).callback svc' q hcb').mono hg

/-- What a transaction is about to write was about to be written, or is inserted. -/
theorem written_exec {c : Client} {x : ℕ × Tx Row} {row : Row} (hx : x ∈ (o.exec i ch l s).2.2.opened c)
    (hrow : row ∈ x.2.writes) :
    (∃ x₀ ∈ s.opened c, row ∈ x₀.2.writes) ∨ ∃ c' rows, o = .insert c' rows ∧ row ∈ rows := by
  by_cases hinsert : ∀ c rows, o = .insert c rows → ch.fail ≠ none ∨ s.opened (Op.resolve c i) = []
  · rcases Op.exec_opened hinsert hx with hx | rfl
    · exact Or.inl ⟨x, hx, hrow⟩
    · cases hrow
  · push Not at hinsert
    obtain ⟨c', rows, rfl, hfail, hopened⟩ := hinsert
    obtain ⟨⟨j, tx⟩, txs, htxs⟩ := List.exists_cons_of_ne_nil hopened
    simp only [Op.exec, hfail, Shared.insert, htxs] at hx
    by_cases hcc : c = Op.resolve c' i
    · subst hcc
      rw [Function.update_self] at hx
      rcases List.mem_cons.mp hx with rfl | hx
      · rcases List.mem_append.mp hrow with hrow | hrow
        · exact Or.inl ⟨(j, tx), by rw [htxs]; exact List.mem_cons_self, hrow⟩
        · exact Or.inr ⟨c', rows, rfl, hrow⟩
      · exact Or.inl ⟨x, by rw [htxs]; exact List.mem_cons_of_mem _ hx, hrow⟩
    · rw [Function.update_of_ne hcc] at hx
      exact Or.inl ⟨x, hx, hrow⟩

theorem Dispatched.exec (hd : Dispatched s) (h : γ.Holds s) (ha : γ.Allows s.dags o)
    (hg : Grows s (o.exec i ch l s).2.2) : Dispatched (o.exec i ch l s).2.2 := by
  have hmem : (∀ e ∈ (o.exec i ch l s).2.2.mem.queueables, Entrusted (o.exec i ch l s).2.2 e) ∧
      ∀ svc ∈ (o.exec i ch l s).2.2.mem.services, ∀ q, .startTaskruns q ∈ svc.callbacks →
        Fetches (o.exec i ch l s).2.2 q := by
    by_cases hm : ∃ m, o = .mem m
    · obtain ⟨m, rfl⟩ := hm
      exact ⟨entrusted_exec h hd ha hg ch.pick, callbacks_exec hd hg ch.pick⟩
    · push Not at hm
      rw [Op.exec_mem hm]
      exact ⟨fun e he => (hd.entries e he).mono hg, fun svc hsvc q hcb => (hd.callbacks svc hsvc q hcb).mono hg⟩
  refine ⟨hmem.1, hmem.2, fun c x hx t ht hst => ?_⟩
  rw [Op.exec_dags]
  have hknown : (∃ t', s.db.taskRun t.runId = some t') ∨ t.IsRoot s.dags := by
    rcases written_exec hx ht with ⟨x₀, hx₀, ht⟩ | ⟨c', rows, rfl, ht⟩
    · exact hd.written c x₀ hx₀ t ht hst
    · exact (ha t ht hst).imp_left h.exists_taskRun
  exact hknown.imp_left (exists_taskRun_of_grows hg)

end Step

/-! ### QUEUED TaskRuns are cleared -/

/-- A TaskRun of a root waits for nothing. -/
theorem TaskRunRow.IsRoot.cleared {t : TaskRunRow} (h : t.IsRoot s.dags) : Cleared s t := by
  obtain ⟨dag, hdag, hdid, task, htask, htid⟩ := h
  refine ⟨dag, hdid ▸ hdag, s.store.now, le_refl _, fun u hu => ?_⟩
  obtain ⟨hmem, hroot⟩ := List.mem_filter.mp htask
  have hfind : dag.task? t.taskId = some task := Dag.task?_eq_some.mpr ⟨hmem, htid.symm⟩
  rw [DagRun.upstream, hfind] at hu
  simp only [Option.map_some, Option.getD_some] at hu
  rw [of_decide_eq_true hroot] at hu
  cases hu

/-- A TaskRun that was found ready had its upstream finished. -/
theorem Ready.cleared (hc : Consistent s) (hplain : s.PlainDags) {i : ℕ} {runId tid : Uuid}
    {tids : List Uuid} (hd : Decided i s runId tids) (htid : tid ∈ tids) :
    ∃ ts t, Db.taskRun (s.store.asOf ts) tid = some t ∧ Cleared s t := by
  obtain ⟨c, _, _, _, hle, run, dag, _, _, ⟨run₀, hrun₀, hi₀⟩, hdag, hready⟩ := hd
  have hplain := hplain dag (Shared.mem_of_dag? hdag)
  have hmem := fun r => (hc.tables c.start).mem_readTrs (t := r) hplain hdag hrun₀ hi₀
  obtain ⟨hnone, t, ht, rfl, _, hup⟩ := hready tid htid
  obtain ⟨hget, hrun⟩ := (hmem t).mp ht
  have hdag₀ : s.dag? t.dagId = some dag := by
    rw [DagRun.readTrs_of_plain hplain, DagRun.mem_taskRuns] at ht
    rw [ht.2.2.1]
    exact hdag
  refine ⟨c.start, t, hget, dag, hdag₀, c.start, hle, fun u hu => ?_⟩
  obtain ⟨up, hup, htask, hst⟩ := hup u hu
  obtain ⟨hupget, huprun⟩ := (hmem up).mp hup
  refine ⟨up.runId, up, hupget, huprun.trans hrun.symm, htask, ?_⟩
  have hnot := hnone up hup
  cases hs : up.state with
  | success => exact Or.inl rfl
  | skipped => exact Or.inr rfl
  | failed => exact absurd hs hnot
  | _ =>
    rw [hs] at hst
    exact absurd hst (by decide)

/-- Every TaskRun that is or was QUEUED. -/
def QueuedCleared (s : Shared) : Prop :=
  ∀ ts id t, Db.taskRun (s.store.asOf ts) id = some t → t.state = .queued → Cleared s t

/-- The step lemma. -/
theorem queuedCleared_of_act (h : SoundState σ) (hplain : σ.shared.PlainDags)
    (hd : Dispatched σ.shared) (hq : QueuedCleared σ.shared) (ha : system.act σ a = some σ') : QueuedCleared σ'.shared := by
  obtain ⟨hg, _⟩ := guarantees_of_act h ha
  have hmap : ∀ {trs : List TaskRunRow} {t}, Row.taskRun t ∈ trs.map Row.taskRun → t ∈ trs := by simp
  -- only the QUEUED rows of a commit are new
  have hcommit : ∀ c, σ'.shared.store = σ.shared.store.append c →
      (∀ t, .taskRun t ∈ c.rows → t.state = .queued → Cleared σ.shared t) → QueuedCleared σ'.shared := by
    intro c hs hrows ts id t ht hst
    rw [hs] at ht
    refine Cleared.mono hg ?_
    rcases Store.asOf_append σ.shared.store c ts with heq | heq
    · exact hq ts id t (heq ▸ ht) hst
    · rw [heq] at ht
      rcases Db.get_upsertAll_cases ht with ⟨hrow, _⟩ | ⟨_, hold⟩
      · exact hrows t hrow hst
      · exact hq σ.shared.store.now id t (by rw [Store.asOf_now]; exact hold) hst
  cases effect_of_act h ha with
  | quiet hs =>
    intro ts id t ht hst
    rw [hs] at ht
    exact (hq ts id t ht hst).mono hg
  | queues h' hc hs =>
    refine hcommit _ hs fun t ht hst => ?_
    have hcreates := h'.creates hc.not_conflict
    obtain ⟨i, c, _, htx, _⟩ := hc
    obtain ⟨x, hx, htx⟩ := Option.map_eq_some_iff.mp htx
    have hrow : .taskRun t ∈ x.2.writes := by rw [htx]; exact ht
    rcases hd.written _ x (List.mem_of_find?_eq_some hx) t hrow hst with ⟨t', ht'⟩ | hroot
    · -- the TaskRun is new
      have hnone := (hcreates.unused t (taskRun_mem_batch.mp ht)).1
      exact absurd (hnone.symm.trans ht') (by simp)
    · exact hroot.cleared
  | verdict _ h' hc hs =>
    refine hcommit _ hs fun t ht hst => ?_
    rw [(h'.skips t (taskRun_mem_batch.mp ht)).1] at hst
    cases hst
  | releases h' hc hs =>
    refine hcommit _ hs fun t ht hst => ?_
    obtain ⟨ts, t₁, ht₁, hcl⟩ :=
      Ready.cleared h.inv hplain h'.decided (List.mem_map_of_mem (hmap ht))
    obtain ⟨_, t₀, ht₀, hident, _⟩ := h'.queues t (hmap ht)
    -- both snapshots show the TaskRun that there is now
    obtain ⟨t₂, ht₂, hi₁, _⟩ := (h.inv.persists _).taskRun _ _ ht₁
    obtain ⟨t₃, ht₃, hi₀, _⟩ := (h.inv.persists _).taskRun _ _ ht₀
    obtain rfl : t₂ = t₃ := Option.some.inj (ht₂.symm.trans ht₃)
    exact hcl.of_ident (hident.trans (hi₀.symm.trans hi₁))
  | setsTaskRuns hne h' _ hs =>
    refine hcommit _ hs fun t ht hst => ?_
    exact absurd ((h' t (hmap ht)).1.symm.trans hst) hne
  | setsDagRun _ _ _ hs =>
    refine hcommit _ hs fun t ht _ => ?_
    simp at ht

/-! ### The runs -/

/-- What the threads of a scheduling run know and hand over. -/
structure Dispatches (dags : List Dag) (σ : State) : Prop where
  same : σ.shared.dags = dags
  plain : σ.shared.PlainDags
  aware : Machine.Aware (dispatching dags) Learnt.Holds σ
  dispatched : Dispatched σ.shared
  cleared : QueuedCleared σ.shared

theorem Learnt.holds_empty (s : Shared) : Learnt.Holds s {} := by
  constructor <;> simp

theorem Dispatches.act {dags : List Dag} (hs : SoundState σ) (h : Dispatches dags σ)
    (hin : a.Within Entry.Schedules) (ha : system.act σ a = some σ') : Dispatches dags σ' := by
  obtain ⟨hg, _⟩ := guarantees_of_act hs ha
  have hdags : σ'.shared.dags = dags := hg.knows.dags.trans h.same
  refine ⟨hdags, h.plain.mono hg.knows, ?_, ?_, queuedCleared_of_act hs h.plain h.dispatched h.cleared ha⟩
  · refine h.aware.act (E := Entry.Schedules) (fun e he i => ⟨{}, Learnt.holds_empty _,
      Dispatching.allowed_prog he {}⟩) hin (fun γ hγ => hγ.mono hg) ?_ ha
    rintro i ch l o k γ rfl hth hγ hallows
    rcases Machine.act_cases ha with ⟨e, he, _⟩ | ⟨i', ch', l', o', k', he, hth', rfl⟩
    · cases he
    · cases he
      rw [hth] at hth'
      cases hth'
      refine ⟨⟨hs.inv.expects, h.same ▸ hs.inv.learnable⟩, hγ.see hs.inv h.dispatched hg⟩
  · rcases Machine.act_cases ha with ⟨e, rfl, rfl⟩ | ⟨i, ch, l, o, k, rfl, hth, rfl⟩
    · exact h.dispatched
    · obtain ⟨γ, hγ, hw⟩ := h.aware i _ hth
      exact h.dispatched.exec hγ (h.same ▸ hw.1) hg

theorem Initial.dispatches (h : Initial σ) (hplain : σ.shared.PlainDags) :
    Dispatches σ.shared.dags σ where
  same := rfl
  plain := hplain
  aware := by simp [Machine.Aware, h.threads]
  dispatched := by
    refine ⟨?_, ?_, ?_⟩
    · simp [h.mem]
    · simp [h.mem]
    · simp [h.opened]
  cleared ts id t ht := by
    rw [h.asOf ts] at ht
    exact absurd ((h.taskRuns id).symm.trans ht) (by simp)

theorem Scheduling.dispatches (h : Scheduling σ₀ as) (hplain : σ₀.shared.PlainDags)
    (hr : system.run σ₀ as = some σ) : SoundState σ ∧ Dispatches σ₀.shared.dags σ :=
  Machine.along_induction (P := fun σ => SoundState σ ∧ Dispatches σ₀.shared.dags σ)
    ⟨h.initial.sound, h.initial.dispatches hplain⟩
    (fun _ _ _ hP hin ha => ⟨hP.1.act schedules_startable hin ha, hP.2.act hP.1 hin ha⟩)
    (Machine.along_of_forall h.within) hr

/-- What a `run_operation` call may rest on: its TaskRun was QUEUED, and is cleared. -/
structure StartsInOrder (s : Shared) (runId : Uuid) : Prop where
  queued : WasQueued s runId
  cleared : ∃ t, s.db.taskRun runId = some t ∧ Cleared s t

theorem Dispatches.startsInOrder {dags : List Dag} (hs : SoundState σ) (h : Dispatches dags σ) {runId : Uuid}
    (hq : WasQueued σ.shared runId) : StartsInOrder σ.shared runId := by
  refine ⟨hq, ?_⟩
  obtain ⟨ts, t₀, _, ht₀, hst⟩ := hq
  obtain ⟨t, ht, hident, _⟩ := (hs.inv.persists ts).taskRun _ _ ht₀
  exact ⟨t, ht, (h.cleared ts runId t₀ ht₀ hst).of_ident hident⟩

theorem exec_operations {o : Op} {i : ℕ} {ch : Choice} {l : Loc} {x : OperationId × Uuid}
    (h : x ∈ (o.exec i ch l s).2.2.operations) : x ∈ s.operations ∨ o = .runOperation x.2 := by
  cases o with
  | runOperation runId =>
    simp only [Op.exec] at h
    split at h
    · exact Or.inl h
    · rcases List.mem_cons.mp h with rfl | h
      · exact Or.inr rfl
      · exact Or.inl h
  | insert c rows =>
    simp only [Op.exec] at h
    split at h
    · exact Or.inl h
    · unfold Shared.insert at h
      split at h <;> exact Or.inl h
  | _ => exact Or.inl (by first | exact h | (simp only [Op.exec] at h; (repeat' split at h) <;> exact h))

/-- In every run over plain task ids, whenever an operation is started, a snapshot has shown all that
the task of its TaskRun depends on finished and not FAILED. -/
theorem operations_follow_dependencies (h : Scheduling σ₀ as) (hplain : σ₀.shared.PlainDags) :
    system.EachStep (fun σ σ' => ∀ x ∈ σ'.shared.operations, x ∉ σ.shared.operations →
      StartsInOrder σ.shared x.2) σ₀ as := by
  rw [Machine.eachStep_iff, Machine.along_iff]
  rintro as₁ a as₂ rfl σ ha σ' hstep x hx hnew
  have hpre : Scheduling σ₀ as₁ := ⟨h.initial, fun a ha => h.within a (List.mem_append_left _ ha)⟩
  obtain ⟨hs, hd⟩ := hpre.dispatches hplain ha
  rcases Machine.act_cases hstep with ⟨e, rfl, rfl⟩ | ⟨i, ch, l, o, k, rfl, hth, rfl⟩
  · exact absurd hx hnew
  · obtain rfl := (exec_operations hx).resolve_left hnew
    -- the thread has learnt that the TaskRun was QUEUED
    obtain ⟨γ, hγ, hw⟩ := hd.aware i _ hth
    exact hd.startsInOrder hs (hγ.queued _ hw.1)

/-- The worker starts the operation of the root. -/
def startsRoot : List Step := submitted ++ .step 2 { pick := 1 } :: calls 2 7

theorem operations_follow_dependencies_startsRoot :
    system.EachStep (fun σ σ' => ∀ x ∈ σ'.shared.operations, x ∉ σ.shared.operations →
      StartsInOrder σ.shared x.2) chainRun startsRoot :=
  operations_follow_dependencies ⟨initial_chainRun, by decide +kernel⟩ plain_chainRun

end YtScheduler
