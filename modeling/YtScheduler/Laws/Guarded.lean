import Mathlib.Data.List.Sublists
import YtScheduler.Services.Machine
import YtScheduler.Services.Seen

/-! `set_state` with requirements against other writers of the same rows. The rows are fetched
inside a transaction, but one of the global client, in which neither the select nor the upsert
takes part: a row that is written in between is overwritten. If nobody writes it in between, the
call is a compare-and-set. -/

namespace YtScheduler

open Tablet Threads

/-- A call of `set_state`, or any other writer. -/
inductive Party
  | setState (rows : List UpdateRow)
  | writer (prog : P JobResult)

namespace Party

def prog : Party → P JobResult
  | .setState rows => do
    let trs ← TaskRun.setState rows
    pure (.taskRuns trs)
  | .writer prog => prog

def seen : Party → Seen
  | .setState rows => { call := some rows }
  | .writer _ => {}

/-- Other writers open transactions on their own client or the global one, and write through their
own. -/
def Fair : Party → Prop
  | .setState _ => True
  | .writer prog => prog.Uses Op.Own

end Party

def parties : Machine Op Op.Ret Exn Loc Shared Choice Party JobResult where
  exec := Op.exec
  start e _ := ({}, e.prog)

/-- The calls of a party. -/
def guarding : Watch Op Op.Ret Exn Seen where
  see := Seen.see
  outcomes _ _ := True
  calls γ o :=
    match γ.call with
    | some us => SetsState us γ o
    | none => o.Own

/-- The parties, with what each has seen. -/
def contending : Machine Op Op.Ret Exn (Loc × Seen) Shared Choice Party JobResult :=
  parties.watch guarding Party.seen

abbrev Contention := Sys Op Op.Ret Exn (Loc × Seen) Shared JobResult

abbrev Party.Step := Action Choice Party

/-- No party and no transaction at first. -/
structure Contends (σ₀ : Contention) (as : List Party.Step) : Prop where
  threads : σ₀.threads = []
  opened : ∀ c, σ₀.shared.opened c = []
  within : ∀ a ∈ as, a.Within Party.Fair

/-! ### The property and the condition -/

/-- An upsert of `set_state` that takes effect: the updates of the call, what it has seen, and the
rows. -/
def setting (σ : Contention) : Party.Step → Option (List UpdateRow × (Loc × Seen) × List Row)
  | .spawn _ => none
  | .step i ch =>
    match ch.fail, σ.threads[i]? with
    | none, some (l, .call (.insert _ rows) _) => l.2.call.map (·, l, rows)
    | _, _ => none

/-- The timestamp a thread selected last at. -/
def Loc.readAt (l : Loc) : ℕ := l.reads.headD 0

/-- The row is written for the update, and if the update has requirements the persisted row meets
them and was not written since it was fetched. -/
def Guards (s : Shared) (l : Loc × Seen) (u : UpdateRow) : Row → Prop
  | .taskRun t => l.2.IsFor u t.runId ∧ (u.requires.nonempty = true →
      (∃ p, s.db.taskRun t.runId = some p ∧ u.requires.isMatched p = true) ∧
        ¬s.store.Touched l.1.readAt (.taskRun t.runId))
  | _ => False

instance (γ : Seen) (u : UpdateRow) (runId : Uuid) : Decidable (γ.IsFor u runId) :=
  match h : u.row with
  | .id id => decidable_of_iff (runId = id) (by rw [Seen.IsFor, h])
  | .obj ref => decidable_of_iff ((ref, runId) ∈ γ.objects) (by rw [Seen.IsFor, h])

instance (s : Shared) (l : Loc × Seen) (u : UpdateRow) : (r : Row) → Decidable (Guards s l u r)
  | .taskRun t => inferInstanceAs (Decidable (l.2.IsFor u t.runId ∧ (u.requires.nonempty = true →
      (∃ p, s.db.taskRun t.runId = some p ∧ u.requires.isMatched p = true) ∧
        ¬s.store.Touched l.1.readAt (.taskRun t.runId))))
  | .dagRun _ | .dagMeta _ | .dagRef _ | .taskRef _ => .isFalse id

/-- The rows a call of `set_state` writes are compared and set at once. -/
def ComparesAndSets (σ : Contention) (a : Party.Step) : Prop :=
  ∀ w, setting σ a = some w →
    ∃ news, news.Sublist w.1 ∧ List.Forall₂ (Guards σ.shared w.2.1) news w.2.2

instance (σ : Contention) (a : Party.Step) : Decidable (ComparesAndSets σ a) :=
  have (w : List UpdateRow × (Loc × Seen) × List Row) :
      Decidable (∃ news, news.Sublist w.1 ∧ List.Forall₂ (Guards σ.shared w.2.1) news w.2.2) :=
    decidable_of_iff (∃ news ∈ w.1.sublists, List.Forall₂ (Guards σ.shared w.2.1) news w.2.2)
      (by simp only [List.mem_sublists])
  inferInstanceAs (Decidable (∀ w, setting σ a = some w → _))

/-- The rows that a step commits, and the thread that commits them. -/
def committing (σ : Contention) : Party.Step → Option (ℕ × List Row)
  | .spawn _ => none
  | .step i ch =>
    match ch.fail, σ.threads[i]? with
    | none, some (_, .call (.insert c rows) _) =>
      if (σ.shared.opened (Op.resolve c i)).isEmpty then some (i, rows) else none
    | none, some (_, .call (.commitTx c) _) =>
      ((σ.shared.tx? i (Op.resolve c i)).filter fun tx =>
        ¬σ.shared.store.Conflict tx.start tx.writes).map fun tx => (i, tx.writes)
    | _, _ => none

/-- The TaskRuns that a thread has fetched, found to meet requirements, and may yet write. -/
def pendingOf : (Loc × Seen) × P JobResult → List TaskRunRow
  | (l, Prog.call _ _) =>
    l.2.fetched.filter fun copy =>
      (l.2.call.getD []).any fun u => u.requires.nonempty && u.requires.isMatched copy
  | _ => []

def pending (σ : Contention) (j : ℕ) : List TaskRunRow := ((σ.threads[j]?).map pendingOf).getD []

/-- Nobody commits a TaskRun that another thread has fetched, found to meet requirements, and may yet
write. -/
def Exclusive (σ : Contention) (a : Party.Step) : Prop :=
  ∀ w, committing σ a = some w → ∀ t, .taskRun t ∈ w.2 →
    ∀ j < σ.threads.length, j ≠ w.1 → ∀ copy ∈ pending σ j, copy.runId ≠ t.runId

instance (σ : Contention) (a : Party.Step) : Decidable (Exclusive σ a) := by
  unfold Exclusive
  infer_instance

variable {σ σ' σ₀ : Contention} {a : Party.Step} {as : List Party.Step}

/-! ### Runs -/

theorem SetsState.apart {us : List UpdateRow} {γ : Seen} {o : Op} (h : SetsState us γ o) : o.Apart := by
  cases o with
  | beginTx c | commitTx c | abortTx c => exact h
  | insert c rows => exact h.1
  | _ => trivial

theorem own_of_guarding {γ : Seen} {o : Op} (h : guarding.calls γ o) : o.Own := by
  unfold guarding at h
  dsimp only at h
  split at h
  · exact h.apart.own
  · exact h

theorem Party.Fair.watched {e : Party} (h : e.Fair) :
    e.prog.Watched guarding (fun _ _ => True) e.seen := by
  have hcall : ∀ {call : Option (List UpdateRow)} (γ : Seen) (o : Op) (r : Except Exn o.Ret),
      γ.call = call → (γ.see o r).call = call := fun γ o r hγ => (γ.see_call o r).trans hγ
  cases e with
  | setState us =>
    refine Prog.Allowed.bind_watched ?_ fun _ => .ret _
    refine (TaskRun.allowed_setState us _).weaken (I := fun γ => γ.call = some us) rfl hcall rfl
      (fun _ _ _ => trivial) fun γ o hγ ho => ?_
    show match γ.call with | some us => SetsState us γ o | none => o.Own
    rw [hγ]
    exact ho
  | writer p =>
    refine Prog.Watched.of_uses (I := fun γ => γ.call = none) h rfl hcall fun γ o hγ ho => ?_
    show match γ.call with | some us => SetsState us γ o | none => o.Own
    rw [hγ]
    exact ho

/-- What a call of `set_state` has fetched after its next call. -/
theorem fetched_step {i : ℕ} (ch : Choice) (l : Loc) {γ : Seen} {s : Shared} {us : List UpdateRow}
    {o : Op} (ho : SetsState us γ o) (hclosed : s.opened (.thread i) = []) :
    (γ.see o (o.exec i ch l s).1).fetched = [] ∧ (o.exec i ch l s).2.1.readAt = l.readAt ∨
    (γ.see o (o.exec i ch l s).1).fetched = γ.fetched ∧ (o.exec i ch l s).2.1.readAt = l.readAt ∨
    (o.exec i ch l s).2.1.readAt = s.store.now ∧
      ∀ copy ∈ (γ.see o (o.exec i ch l s).1).fetched, s.db.taskRun copy.runId = some copy := by
  cases o with
  | insert c rows =>
    refine Or.inl ⟨rfl, ?_⟩
    simp only [Op.exec]
    split <;> rfl
  | select c q =>
    obtain ⟨rfl, w, rfl⟩ := ho
    simp only [Op.exec]
    split
    · exact Or.inr (Or.inl ⟨rfl, rfl⟩)
    · split
      · exact Or.inr (Or.inl ⟨rfl, rfl⟩)
      · have hnow : s.snapshot (.thread i) = s.store.now := by rw [Shared.snapshot, hclosed]
        refine Or.inr (Or.inr ⟨hnow, fun copy hcopy => ?_⟩)
        have hcopy : copy ∈ w.select s.engine (s.store.asOf (s.snapshot (.thread i))) := hcopy
        rw [hnow, Store.asOf_now] at hcopy
        exact (mem_select_taskRuns hcopy).1
  | _ =>
    refine Or.inr (Or.inl ⟨γ.see_fetched (by simp) (by simp) _, ?_⟩)
    rw [Op.exec_loc (by simp)]

/-- The rows a thread has fetched are those of the tables it selected from, and those it may yet write
were not written since. -/
structure UpToDate (s : Shared) (th : (Loc × Seen) × P JobResult) : Prop where
  le : th.1.1.readAt ≤ s.store.now
  fetched : ∀ copy ∈ th.1.2.fetched, Db.taskRun (s.store.asOf th.1.1.readAt) copy.runId = some copy
  untouched : ∀ copy ∈ pendingOf th, ¬s.store.Touched th.1.1.readAt (.taskRun copy.runId)

/-- What holds in every state of an exclusive run. -/
structure Guarded (σ : Contention) : Prop where
  watched : Machine.AllWatched guarding σ
  closed : ∀ j, (∀ th, σ.threads[j]? = some th → th.1.2.call.isSome = true) →
    σ.shared.opened (.thread j) = []
  unwritten : ∀ x ∈ σ.shared.opened .global, x.2.writes = []
  knows : ∀ (j : ℕ) (th : (Loc × Seen) × P JobResult), σ.threads[j]? = some th →
    th.1.2.call.isSome = true → UpToDate σ.shared th

theorem Contends.guarded (h : Contends σ₀ as) : Guarded σ₀ where
  watched i th hth := by simp [h.threads] at hth
  closed j _ := h.opened _
  unwritten := by simp [h.opened]
  knows i th hth := by simp [h.threads] at hth

theorem mem_pendingOf {th : (Loc × Seen) × P JobResult} {copy : TaskRunRow} (h : copy ∈ pendingOf th) :
    th.1.2.call.isSome = true ∧ copy ∈ th.1.2.fetched ∧
      ∀ {l : Loc × Seen} {o : Op} {k : Except Exn o.Ret → P JobResult}, l.2.call = th.1.2.call →
        l.2.fetched = th.1.2.fetched → copy ∈ pendingOf (l, Prog.call o k) := by
  unfold pendingOf at h
  split at h
  · next l o k =>
    obtain ⟨hfetched, hany⟩ := List.mem_filter.mp h
    refine ⟨?_, hfetched, fun hcall hsame => ?_⟩
    · cases hcall : l.2.call with
      | none => simp [hcall] at hany
      | some us => rfl
    · rw [pendingOf, hcall, hsame]
      exact h
  · cases h

theorem UpToDate.start (s : Shared) (e : Party) : UpToDate s (({}, e.seen), e.prog) := by
  have hnil : e.seen.fetched = [] := by cases e <;> rfl
  refine ⟨Nat.zero_le _, ?_, fun copy hcopy => ?_⟩
  · rw [hnil]
    exact List.forall_mem_nil _
  · have hmem := (mem_pendingOf hcopy).2.1
    rw [hnil] at hmem
    cases hmem

namespace Guarded

variable {i : ℕ} {ch : Choice} {l : Loc × Seen} {o : Op} {k : Except Exn o.Ret → P JobResult}

theorem calls (h : Guarded σ) (hth : σ.threads[i]? = some (l, .call o k)) : guarding.calls l.2 o :=
  (h.watched i _ hth).1

theorem setsState (h : Guarded σ) (hth : σ.threads[i]? = some (l, .call o k)) {us : List UpdateRow}
    (hcall : l.2.call = some us) : SetsState us l.2 o := by
  have ho : match l.2.call with | some us => SetsState us l.2 o | none => o.Own := h.calls hth
  rwa [hcall] at ho

theorem closed_of_call (h : Guarded σ) (hth : σ.threads[i]? = some (l, .call o k))
    (hcall : l.2.call.isSome = true) : σ.shared.opened (.thread i) = [] := by
  refine h.closed i fun th he => ?_
  cases hth.symm.trans he
  exact hcall

/-- The commit of a step, which for a call of `set_state` is an insert. -/
theorem commits (h : Guarded σ) (hth : σ.threads[i]? = some (l, .call o k)) (ch : Choice) :
    (o.exec i ch l.1 σ.shared).2.2.store = σ.shared.store ∨
    ∃ c : Commit Row, committing σ (.step i ch) = some (i, c.rows) ∧
      (o.exec i ch l.1 σ.shared).2.2.store = σ.shared.store.append c ∧
      (l.2.call.isSome = true → ∃ c rows, o = .insert c rows) := by
  rcases Op.exec_store o i ch l.1 σ.shared with hs | ⟨c, rows, rfl, hf, hop, hs⟩ |
    ⟨c, tx, rfl, hf, htx, hw, hconf, hs⟩
  · exact Or.inl hs
  · refine Or.inr ⟨_, ?_, hs, fun _ => ⟨c, rows, rfl⟩⟩
    simp only [committing, hf, hth, hop, List.isEmpty_nil, if_true]
  · refine Or.inr ⟨_, ?_, hs, fun hcall => ?_⟩
    · simp [committing, hf, hth, htx, hconf]
    · obtain ⟨us, hus⟩ := Option.isSome_iff_exists.mp hcall
      obtain rfl : c = some .global := h.setsState hth hus
      obtain ⟨x, hx, rfl⟩ := Option.map_eq_some_iff.mp htx
      exact absurd (h.unwritten x (List.mem_of_find?_eq_some hx)) hw

theorem extends_exec (h : Guarded σ) (hth : σ.threads[i]? = some (l, .call o k)) (ch : Choice) :
    σ.shared.store.Extends (o.exec i ch l.1 σ.shared).2.2.store := by
  rcases h.commits hth ch with hs | ⟨c, _, hs, _⟩
  · rw [hs]
    exact .refl _
  · rw [hs]
    exact .append _ c

/-- The other threads stay up to date. -/
theorem others (h : Guarded σ) (hx : Exclusive σ (.step i ch))
    (hth : σ.threads[i]? = some (l, .call o k)) {j : ℕ} (hij : j ≠ i) {th : (Loc × Seen) × P JobResult}
    (hj : σ.threads[j]? = some th) (hcall : th.1.2.call.isSome = true) :
    UpToDate (o.exec i ch l.1 σ.shared).2.2 th := by
  obtain ⟨hle, hfetched, huntouched⟩ := h.knows j th hj hcall
  have hext := h.extends_exec hth ch
  refine ⟨hle.trans hext.now_le, fun copy hcopy => ?_, fun copy hcopy => ?_⟩
  · rw [hext.asOf_eq hle]
    exact hfetched copy hcopy
  · rcases h.commits hth ch with hs | ⟨c, hc, hs, _⟩
    · rw [hs]
      exact huntouched copy hcopy
    · rw [hs, Store.touched_append hle]
      rintro (⟨r, hr, hkey⟩ | ht)
      · obtain ⟨t, rfl⟩ := RowKind.exists_of_key (α := TaskRunRow) hkey
        have hpending : copy ∈ pending σ j := by simpa [pending, hj] using hcopy
        refine hx _ hc t hr j (List.getElem?_eq_some_iff.mp hj).1 hij copy hpending ?_
        exact RowKey.taskRun.inj hkey.symm
      · exact huntouched copy hcopy ht

/-- A call of `set_state` stays up to date by its own steps. -/
theorem self (h : Guarded σ) (hth : σ.threads[i]? = some (l, .call o k))
    (hcall : l.2.call.isSome = true) :
    UpToDate (o.exec i ch l.1 σ.shared).2.2
      (((o.exec i ch l.1 σ.shared).2.1, l.2.see o (o.exec i ch l.1 σ.shared).1),
        k (o.exec i ch l.1 σ.shared).1) := by
  obtain ⟨hle, hfetched, huntouched⟩ := h.knows i _ hth hcall
  have hnone : (l.2.see o (o.exec i ch l.1 σ.shared).1).fetched = [] →
      (o.exec i ch l.1 σ.shared).2.1.readAt = l.1.readAt →
      UpToDate (o.exec i ch l.1 σ.shared).2.2 (((o.exec i ch l.1 σ.shared).2.1,
        l.2.see o (o.exec i ch l.1 σ.shared).1), k (o.exec i ch l.1 σ.shared).1) := by
    intro hnil hat
    refine ⟨hat.le.trans (hle.trans (h.extends_exec hth ch).now_le), ?_, fun copy hcopy => ?_⟩
    · rw [hnil]
      exact List.forall_mem_nil _
    · have hmem := (mem_pendingOf hcopy).2.1
      rw [hnil] at hmem
      cases hmem
  obtain ⟨us, hus⟩ := Option.isSome_iff_exists.mp hcall
  rcases h.commits hth ch with hs | ⟨_, _, _, hinsert⟩
  · rcases fetched_step ch l.1 (h.setsState hth hus) (h.closed_of_call hth hcall) with
      ⟨hnil, hat⟩ | ⟨hsame, hat⟩ | ⟨hat, hrows⟩
    · exact hnone hnil hat
    · refine ⟨?_, fun copy hcopy => ?_, fun copy hcopy => ?_⟩
      · rw [hat, hs]
        exact hle
      · rw [hat, hs]
        exact hfetched copy (hsame ▸ hcopy)
      · rw [hat, hs]
        exact huntouched copy ((mem_pendingOf hcopy).2.2 (l.2.see_call o _).symm hsame.symm)
    · refine ⟨?_, fun copy hcopy => ?_, fun copy _ => ?_⟩
      · rw [hat, hs]
      · rw [hat, hs, Store.asOf_now]
        exact hrows copy hcopy
      · rw [hat, hs]
        exact Store.not_touched_now _ _
  · obtain ⟨c, rows, rfl⟩ := hinsert hcall
    exact hnone rfl (by rw [Op.exec_loc (by simp)])

/-- The step lemma. -/
theorem act (h : Guarded σ) (hin : a.Within Party.Fair) (hx : Exclusive σ a)
    (ha : contending.act σ a = some σ') : Guarded σ' := by
  have hwatched : Machine.AllWatched guarding σ' :=
    Machine.AllWatched.act (M := parties) h.watched (fun e he _ => Party.Fair.watched he) hin
      (fun _ _ _ _ _ _ _ => trivial) ha
  rcases Machine.act_cases ha with ⟨e, rfl, rfl⟩ | ⟨i, ch, l, o, k, rfl, hth, rfl⟩
  · refine ⟨hwatched, fun j hj => h.closed j fun th hth => hj th ?_, h.unwritten, fun j th hj hcall => ?_⟩
    · rw [List.getElem?_append_left (List.getElem?_eq_some_iff.mp hth).1]
      exact hth
    · rw [List.getElem?_append] at hj
      split_ifs at hj
      · exact h.knows j th hj hcall
      · rw [List.getElem?_singleton] at hj
        split_ifs at hj
        cases hj
        exact .start σ.shared e
  · have hown := own_of_guarding (h.calls hth)
    have hlt := (List.getElem?_eq_some_iff.mp hth).1
    refine ⟨hwatched, fun j hj => ?_, hown.unwritten h.unwritten ch l.1, fun j th hj hcall => ?_⟩
    · by_cases hij : j = i
      · subst hij
        have hcall := hj _ (List.getElem?_set_self hlt)
        have hcall : l.2.call.isSome = true := (l.2.see_call o _) ▸ hcall
        obtain ⟨us, hus⟩ := Option.isSome_iff_exists.mp hcall
        exact (h.setsState hth hus).apart.closed (h.closed_of_call hth hcall) ch l.1
      · refine (hown.opened_of_ne hij ch l.1 σ.shared).trans (h.closed j fun th hth => hj th ?_)
        rw [List.getElem?_set_ne (Ne.symm hij)]
        exact hth
    · by_cases hij : i = j
      · subst hij
        rw [List.getElem?_set_self hlt] at hj
        cases hj
        exact h.self hth ((l.2.see_call o _) ▸ hcall)
      · rw [List.getElem?_set_ne hij] at hj
        exact h.others hx hth (Ne.symm hij) hj hcall

/-- What is written for a guarded update. -/
theorem guards (h : Guarded σ) {rows : List Row} {c : Option Client} {us : List UpdateRow}
    {k : Except Exn (Op.insert c rows).Ret → P JobResult}
    (hth : σ.threads[i]? = some (l, .call (.insert c rows) k)) (hcall : l.2.call = some us) :
    ∃ news, news.Sublist us ∧ List.Forall₂ (Guards σ.shared l) news rows := by
  obtain ⟨_, ts, rfl, ⟨news, hsub, hnews⟩, _⟩ := h.setsState hth hcall
  obtain ⟨hle, hfetched, huntouched⟩ := h.knows i _ hth (by rw [hcall]; rfl)
  refine ⟨news, hsub, List.forall₂_map_right_iff.mpr ?_⟩
  refine ((List.forall₂_and_left _ _).mpr ⟨fun u hu => hsub.subset hu, hnews⟩).imp ?_
  rintro u t ⟨hu, copy, hbuilt⟩
  refine ⟨hbuilt.runId ▸ hbuilt.isFor, fun hguarded => ?_⟩
  have hcopy : copy ∈ l.2.fetched := hbuilt.fetched fun _ _ => hguarded
  have hpending : copy ∈ pendingOf (l, Prog.call (.insert c (ts.map .taskRun)) k) := by
    rw [pendingOf, hcall]
    refine List.mem_filter.mpr ⟨hcopy, List.any_eq_true.mpr ⟨u, hu, ?_⟩⟩
    rw [hguarded, hbuilt.matched hguarded]
    rfl
  have hsame := huntouched copy hpending
  have hconflict : ¬σ.shared.store.Conflict l.1.readAt [.taskRun copy] := by
    rintro ⟨r, hr, ht⟩
    rw [List.mem_singleton.mp hr] at ht
    exact hsame ht
  have hpersisted : σ.shared.db.taskRun copy.runId = some copy :=
    get_asOf_of_not_conflict hconflict List.mem_cons_self (hfetched copy hcopy)
  rw [hbuilt.runId]
  exact ⟨⟨copy, hpersisted, hbuilt.matched hguarded⟩, hsame⟩

theorem comparesAndSets (h : Guarded σ) (a : Party.Step) : ComparesAndSets σ a := by
  intro w hw
  unfold setting at hw
  split at hw
  · cases hw
  · split at hw
    · next hth =>
      obtain ⟨us, hcall, rfl⟩ := Option.map_eq_some_iff.mp hw
      exact h.guards hth hcall
    · cases hw

end Guarded

/-- Calls of `set_state` compare and set in every run in which nobody writes a row between the fetch
and the upsert of another call. -/
theorem set_state_compares_and_sets (h : Contends σ₀ as) (hx : contending.Along Exclusive σ₀ as) :
    contending.Along ComparesAndSets σ₀ as :=
  Machine.along_imp h.guarded (fun _ _ _ hg hc ha => hg.act hc.1 hc.2 ha)
    (fun _ a hg _ => hg.comparesAndSets a) (Machine.along_and (Machine.along_of_forall h.within) hx)

/-! ### The other writers of TaskRuns -/

section Writers

theorem TaskRun.Makes.own {us : List UpdateRow} {o : Op} (h : TaskRun.Makes us o) : o.Own := by
  cases o with
  | beginTx c | commitTx c | abortTx c => exact Or.inr h
  | insert c rows => exact h.1
  | _ => trivial

theorem own_transaction {α : Type} {body : P α} (h : body.Uses Op.Own) :
    (P.transaction none body).Uses Op.Own := by
  refine Prog.Uses.bind (.op (Or.inl rfl)) fun _ => h.attempt.bind fun r => ?_
  cases r with
  | ok a => exact Prog.Uses.bind (.op (Or.inl rfl)) fun _ => trivial
  | error e => exact Prog.Uses.bind (.op (Or.inl rfl)) fun _ => trivial

theorem own_fetchTaskRuns (w : TaskRunFilter) : (TaskRun.fetchRows w).Uses Op.Own :=
  Prog.Uses.bind (.op trivial) fun _ => Prog.Uses.bind (.op trivial) fun _ => trivial

theorem own_setState (us : List UpdateRow) : (TaskRun.setState us).Uses Op.Own :=
  (TaskRun.uses_setState us).mono fun _ => TaskRun.Makes.own

theorem own_setDagRunState (self : Ref) (state : DagRunState) :
    (DagRun.setState self state).Uses Op.Own := by
  refine Prog.Uses.bind (.op trivial) fun base => ?_
  have hnow : P.utcnow.Uses Op.Own := Prog.Uses.bind (.op trivial) fun _ => trivial
  exact hnow.bind fun _ => Prog.Uses.bind (.op rfl) fun _ => .op trivial

theorem own_updateState (self : Ref) (dag : Dag) : (DagRun.updateState self dag).Uses Op.Own := by
  have hfetch : (DagRun.fetchTrs self dag).Uses Op.Own :=
    Prog.Uses.bind (.op trivial) fun _ => own_fetchTaskRuns _
  refine own_transaction (hfetch.bind fun trs => Prog.Uses.bind ?_ fun _ => ?_)
  · unfold P.unlessEmpty
    split_ifs
    · trivial
    · exact (own_setState _).bind fun _ => trivial
  · exact (own_setDagRunState _ _).bind fun _ => trivial

theorem own_scheduleTrs (runId : Uuid) (tids : List Uuid) : (DagRun.scheduleTrs runId tids).Uses Op.Own := by
  unfold DagRun.scheduleTrs
  split_ifs
  · trivial
  · refine own_transaction ((own_fetchTaskRuns _).bind fun rows => ?_)
    split_ifs
    · trivial
    · exact (own_setState _).bind fun _ => trivial

end Writers

/-! ### Two calls on one row -/

/-- A RUNNING TaskRun. -/
def runningRow : Contention :=
  ⟨{ store := ⟨⟨[.taskRun { runId := 3, taskId := "load", dagId := 0, dagrunId := 1, state := .running }],
      by decide⟩, []⟩ }, []⟩

/-- Two calls finish the TaskRun of which each requires that it is RUNNING. -/
def finishBoth : List Party.Step :=
  [.spawn (.setState [{ row := .id 3, state := some .failed, requires := { state := some (.eq .running) } }]),
    .spawn (.setState [{ row := .id 3, state := some .success, requires := { state := some (.eq .running) } }])]

/-- The next `n` calls of thread `i`. -/
def partyCalls (i n : ℕ) : List Party.Step := List.replicate n (.step i {})

/-- Both fetch the row before either of them upserts it. -/
def bothFetch : List Party.Step :=
  finishBoth ++ (partyCalls 0 3 ++ partyCalls 1 3 ++ partyCalls 0 2 ++ partyCalls 1 2)

/-- One call after the other. -/
def oneByOneCalls : List Party.Step := finishBoth ++ (partyCalls 0 7 ++ partyCalls 1 4)

theorem within_partyCalls (i n : ℕ) : ∀ a ∈ partyCalls i n, a.Within Party.Fair := by
  intro a ha
  rw [List.eq_of_mem_replicate ha]
  trivial

theorem contends_finishBoth {as : List Party.Step} (h : ∀ a ∈ as, a.Within Party.Fair) :
    Contends runningRow (finishBoth ++ as) := by
  refine ⟨rfl, fun _ => rfl, List.forall_mem_append.mpr ⟨?_, h⟩⟩
  simp [finishBoth, Action.Within, Party.Fair]

theorem contends_bothFetch : Contends runningRow bothFetch := by
  refine contends_finishBoth ?_
  simp only [List.forall_mem_append]
  exact ⟨⟨⟨within_partyCalls 0 3, within_partyCalls 1 3⟩, within_partyCalls 0 2⟩, within_partyCalls 1 2⟩

/-- Both calls set the state: the second one over a row that is not RUNNING any more. -/
theorem set_state_overwrites : ¬∀ σ₀ as, Contends σ₀ as → contending.Along ComparesAndSets σ₀ as :=
  fun h => absurd (h _ _ contends_bothFetch) (by decide +kernel)

theorem one_by_one_compares_and_sets : contending.Along ComparesAndSets runningRow oneByOneCalls :=
  set_state_compares_and_sets
    (contends_finishBoth (List.forall_mem_append.mpr ⟨within_partyCalls 0 7, within_partyCalls 1 4⟩))
    (by decide +kernel)

end YtScheduler
