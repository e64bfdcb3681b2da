import YtScheduler.Orphans.Updates
import YtScheduler.Services.Updates

/-! The threads of a cleanup. A job requests the abortion of the operation of its orphan,
however often it has to, and fails the orphan; the cleanup submits one job for each
orphan with an operation and skips the others. -/

namespace YtScheduler

open Tablet Threads P

/-- Nothing is raised, and `A` holds of the result. -/
def Succeeds {α : Type} (A : α → Hand → Office → Prop) : Post Exn α Hand Office :=
  fun r l s => ∃ a, r = .ok a ∧ A a l s

section Rules

variable {trs : List TaskRunObj} {i : ℕ} {α β : Type} {p : P α} {f : α → P β} {a : α} {l : Hand}
  {s : Office} {A : α → Hand → Office → Prop} {Q : Post Exn β Hand Office}

theorem succeeds_ret (h : A a l s) : Tidy trs i (Prog.ret a) (Succeeds A) l s := ⟨a, rfl, h⟩

theorem succeeds_bind (hp : Tidy trs i p (Succeeds A) l s)
    (hf : ∀ a l' s', A a l' s' → Cleans trs s s' → Tidy trs i (f a) Q l' s') :
    Tidy trs i (p.bind f) Q l s := by
  refine Safe.bind (hp.grows.mono fun r l' s' hr => ?_)
  obtain ⟨⟨a, rfl, ha⟩, hg⟩ := hr
  exact hf a l' s' ha hg

end Rules

section Jobs

variable {trs : List TaskRunObj} {i q : ℕ} {l : Hand} {s : Office} {tr : TaskRunObj}

theorem mem_of_abortable (hq : (abortable trs)[q]? = some tr) : tr ∈ trs ∧ tr.row.Abortable := by
  have h := List.mem_filter.mp (List.mem_of_getElem? hq)
  exact ⟨h.1, of_decide_eq_true h.2⟩

/-- A job reads the orphan it was submitted for. -/
theorem tidy_getCell (hq : (abortable trs)[q]? = some tr) (hjob : l.job = some q) (cell : ℕ) :
    Tidy trs i (P.mem (.getCell cell)) (Succeeds fun ref l' _ => ref = tr.ref ∧ l'.job = some q) l s := by
  refine Safe.op fun s₁ hr hi ch => ?_
  have hexec : (boundCleaning trs).exec (.mem (.getCell cell)) i ch l s₁ = (.ok tr.ref, l, s₁) := by
    simp only [boundCleaning, hjob, Option.bind_some, ownOrphan, hq, Option.map_some, Option.elim_some]
  rw [hexec]
  exact ⟨⟨hi, fun j _ => (cleaningContract trs).refl j s₁, Cleans.refl trs s₁⟩, tr.ref, rfl, rfl, hjob⟩

/-- One attempt at the abortion: it is requested, whatever comes of it. -/
theorem tidy_abort (hlist : OrphanList trs) (hq : (abortable trs)[q]? = some tr) (hjob : l.job = some q)
    (cell : ℕ) :
    Tidy trs i
      (do
        let tr ← mem (.getCell cell)
        let row ← mem (.readTaskRun tr)
        call (.abortOperation row.operationId))
      (fun _ l' s' => l'.job = some q ∧ tr.row.operationId ∈ s'.requested) l s := by
  obtain ⟨htr, _⟩ := mem_of_abortable hq
  refine succeeds_bind (tidy_getCell hq hjob cell) fun ref l₁ s₁ hcell _ => ?_
  obtain ⟨rfl, hjob₁⟩ := hcell
  have hread : Tidy trs i (P.mem (.readTaskRun tr.ref))
      (Succeeds fun row l' _ => row.CopyOf tr ∧ l'.job = some q) l₁ s₁ := by
    refine tidy_call hlist (by simp) fun s₂ _ hi => ⟨trivial, fun ch => ?_⟩
    obtain ⟨row, hrow, hcopy⟩ := hi.objects tr htr
    simp only [Op.exec, Mem.exec, hrow]
    exact ⟨row, rfl, hcopy, hjob₁⟩
  refine succeeds_bind hread fun row l₂ s₂ hrow _ => ?_
  obtain ⟨hcopy, hjob₂⟩ := hrow
  refine tidy_call hlist (by simp) fun s₃ _ _ => ⟨?_, fun ch => ⟨hjob₂, ?_⟩⟩
  · exact ⟨tr, List.mem_of_getElem? hq, hcopy.operationId⟩
  · rw [← hcopy.operationId]
    exact List.mem_cons_self

/-- The retrier gives up silently. -/
theorem tidy_retrier {K : Hand → Office → Prop} {fn : P Unit}
    (hfn : ∀ l s, l.job = some q → Tidy trs i fn (fun _ l' s' => l'.job = some q ∧ K l' s') l s) (n : ℕ)
    (hjob : l.job = some q) :
    Tidy trs i (retrier (fun _ => true) (fun _ => pure ()) fn n)
      (Succeeds fun _ l' s' => l'.job = some q ∧ K l' s') l s := by
  induction n generalizing l s with
  | zero =>
    refine Safe.catching ((hfn l s hjob).mono fun r l' s' hr => ?_)
    cases r with
    | ok _ => exact ⟨(), rfl, hr⟩
    | error e => exact succeeds_ret hr
  | succ n ih =>
    refine Safe.catching ((hfn l s hjob).mono fun r l' s' hr => ?_)
    cases r with
    | ok _ => exact ⟨(), rfl, hr⟩
    | error e => exact ih hr.1

theorem tidiesUp_failed (habortable : tr.row.Abortable) :
    TidiesUp tr { row := .obj tr.ref, state := some .failed, requires := { state := some (.mem [.running]) } } := by
  refine ⟨rfl, ?_, rfl, rfl, fun row _ hstate => ?_⟩
  · rw [TaskRunRow.cleaned, if_pos habortable]
  · simp [Requires.isMatched, hstate, habortable.1]

/-- A job handles the orphan it was submitted for. -/
theorem tidy_tryAbortRun (hlist : OrphanList trs) (hq : (abortable trs)[q]? = some tr)
    (hjob : l.job = some q) (hmay : MayWrite trs i s tr) (cell : ℕ) :
    Tidy trs i (Executor.tryAbortRun cell) (fun _ _ s' => Handled s' tr) l s := by
  obtain ⟨htr, habortable⟩ := mem_of_abortable hq
  refine succeeds_bind (tidy_retrier (fun l s hjob => tidy_abort hlist hq hjob cell) 2 hjob)
    fun _ l₁ s₁ h₁ hs₁ => ?_
  refine succeeds_bind (tidy_getCell hq h₁.1 cell) fun ref l₂ s₂ hcell hs₂ => ?_
  obtain ⟨rfl, _⟩ := hcell
  replace hmay : MayWrite trs i s₂ tr := hs₂.mayWrite (hs₁.mayWrite hmay)
  have hset : Tidy trs i (TaskRunClient.setState
      [{ row := .obj tr.ref, state := some .failed, requires := { state := some (.mem [.running]) } }])
      (OrRefused fun _ s' => ∀ tr' ∈ [tr], Cleaned s' tr') l₂ s₂ :=
    TaskRunClient.tidy_setState hlist (by simpa using htr) (by simpa using hmay)
      (.cons (tidiesUp_failed habortable) .nil)
  refine Safe.bind (hset.grows.mono fun r l₃ s₃ hr => ?_)
  obtain ⟨hr, hs₃⟩ := hr
  have hrequested : tr.row.operationId ∈ s₃.requested := hs₃.requested (hs₂.requested h₁.2)
  cases r with
  | ok _ => exact ⟨hrequested, Or.inr (hr tr List.mem_cons_self)⟩
  | error e => exact ⟨hrequested, Or.inl hr⟩

/-- A worker that has taken a job sets its result when its orphan is handled. -/
theorem tidy_execute (hlist : OrphanList trs) (hq : (abortable trs)[q]? = some tr)
    (hjob : l.job = some q) (hmay : MayWrite trs i s tr) (cell : ℕ) :
    Tidy trs i (Pool.execute q (Job.run (.tryAbortRun cell))) (fun _ _ _ => True) l s := by
  have hrun : Tidy trs i (Job.run (.tryAbortRun cell)) (fun _ _ s' => Handled s' tr) l s := by
    refine Safe.bind ((tidy_tryAbortRun hlist hq hjob hmay cell).mono fun r l' s' hr => ?_)
    cases r with
    | ok _ => exact hr
    | error e => exact hr
  refine Safe.bind (Safe.attempt (hrun.mono fun r l₁ s₁ hr => ?_))
  have hset : Tidy trs i (P.mem (.setResult q r)) (Succeeds fun _ _ _ => True) l₁ s₁ := by
    refine tidy_call hlist (by simp) fun s₂ hs _ => ⟨fun tr' htr' => ?_, fun _ => ⟨(), rfl, trivial⟩⟩
    obtain rfl : tr = tr' := Option.some.inj (hq.symm.trans htr')
    exact hs.1.handled (mem_of_abortable hq).1 hr
  refine succeeds_bind hset fun _ l₂ s₂ _ _ => ?_
  exact tidy_call hlist (by simp) fun _ _ _ => ⟨trivial, fun _ => trivial⟩

theorem tidy_workerIter (hlist : OrphanList trs) :
    Tidy trs i (Pool.workerIter Job.run) (fun _ _ _ => True) l s := by
  have htake : Tidy trs i (P.mem .takeJob) (Succeeds fun taken l' s' => ∀ q fn, taken = some (q, fn) →
      l'.job = some q ∧ q < s'.jobs ∧
        ∃ tr cell, (abortable trs)[q]? = some tr ∧ fn = .tryAbortRun cell) l s := by
    refine tidy_call hlist (by simp) fun s₁ _ hi => ⟨trivial, fun ch => ?_⟩
    simp only [Op.exec, Mem.exec]
    split
    · next q hqueue =>
      split
      · next entry hentry =>
        refine ⟨_, rfl, ?_⟩
        rintro _ _ ⟨⟩
        obtain ⟨tr, htr, ⟨cell, hfn⟩, _⟩ := hi.jobs q entry hentry
        exact ⟨rfl, (List.getElem?_eq_some_iff.mp hentry).1, tr, cell, htr, hfn⟩
      · exact ⟨none, rfl, by simp⟩
    · exact ⟨none, rfl, by simp⟩
  refine succeeds_bind htake fun taken l₁ s₁ htaken _ => ?_
  cases taken with
  | none => trivial
  | some job =>
    obtain ⟨hjob, hlt, tr, cell, hq, hfn⟩ := htaken job.1 job.2 rfl
    show Tidy trs i (Pool.execute job.1 (Job.run job.2)) _ l₁ s₁
    rw [hfn]
    exact tidy_execute hlist hq hjob (Or.inr ⟨job.1, hlt, hq⟩) cell

theorem tidy_worker (hlist : OrphanList trs) (n : ℕ) :
    Tidy trs i (Cleaner.worker n).prog (fun _ _ _ => True) l s := by
  have hloop : Tidy trs i (Pool.loop (Pool.workerIter Job.run) n) (fun _ _ _ => True) l s := by
    induction n generalizing l s with
    | zero => trivial
    | succ n ih =>
      refine Safe.bind ((tidy_workerIter hlist).mono fun r l₁ s₁ _ => ?_)
      cases r with
      | ok _ => exact ih
      | error e => trivial
  refine Safe.bind (hloop.mono fun r l₁ s₁ _ => ?_)
  cases r with
  | ok _ => trivial
  | error e => trivial

end Jobs

/-! ### The cleanup -/

section Sorting

variable {trs : List TaskRunObj} {l : Hand} {s : Office} {cell : ℕ}

theorem abortable_append (xs ys : List TaskRunObj) :
    abortable (xs ++ ys) = abortable xs ++ abortable ys := List.filter_append ..

theorem abortable_singleton (tr : TaskRunObj) :
    abortable [tr] = if tr.row.Abortable then [tr] else [] := by
  simp [abortable, List.filter_singleton]

theorem skippable_singleton (tr : TaskRunObj) :
    skippable [tr] = if tr.row.Abortable then [] else [tr] := by
  by_cases h : tr.row.Abortable <;> simp [skippable, h]

/-- The first orphans are sorted, and the objects of the others are as they were selected. -/
structure Sorting (done rest : List TaskRunObj) (s : Office) : Prop where
  jobs : s.jobs = (abortable done).length
  objects : ∀ tr ∈ rest, s.shared.mem.taskRuns[tr.ref]? = some tr.row

section Round

variable {tr : TaskRunObj} {done rest : List TaskRunObj}

theorem Sorting.not_hasJob (hlist : OrphanList trs) (htrs : trs = done ++ rest) (h : Sorting done rest s)
    (htr : tr ∈ rest) : ¬HasJob trs s tr := by
  rintro ⟨q, hq, hget⟩
  rw [htrs, abortable_append, List.getElem?_append_left (h.jobs ▸ hq)] at hget
  have hdone : tr ∈ done := (List.mem_filter.mp (List.mem_of_getElem? hget)).1
  have hnodup := hlist.refs
  rw [htrs, List.map_append] at hnodup
  exact List.disjoint_of_nodup_append hnodup (List.mem_map_of_mem hdone) (List.mem_map_of_mem htr)

theorem Sorting.mono (hlist : OrphanList trs) (htrs : trs = done ++ rest) (h : Sorting done rest s)
    {s' : Office} (hs : Spares trs s s') : Sorting done rest s' where
  jobs := hs.jobs.trans h.jobs
  objects tr htr := by
    have hmem : tr ∈ trs := by
      rw [htrs]
      exact List.mem_append_right _ htr
    exact (hs.objects tr hmem (h.not_hasJob hlist htrs htr)).trans (h.objects tr htr)

/-- An access of the loop that neither submits nor writes. -/
theorem tidy_aside (hlist : OrphanList trs) (o : MemOp) (hcell : ∀ cell, o ≠ .getCell cell)
    (hok : ∀ s : Office, CleanOk trs 0 s (.mem o)) (hsubmit : ∀ fn, o ≠ .submit fn)
    (hwrite : ∀ ref row, o ≠ .writeTaskRun ref row) (htrs : trs = done ++ rest) (h : Sorting done rest s)
    {A : o.Ret → Prop}
    (hret : ∀ s : Office, Sorting done rest s → ∀ pick, ∃ a, (s.shared.mem.exec 0 pick o).1 = .ok a ∧ A a) :
    Tidy trs 0 (P.mem o) (Succeeds fun a _ s' => A a ∧ Sorting done rest s') l s := by
  refine tidy_call hlist (by simpa using hcell) fun s₁ hs hi => ⟨hok s₁, fun ch => ?_⟩
  have h₁ : Sorting done rest s₁ := h.mono hlist htrs (hs.2 rfl)
  obtain ⟨a, hexec, ha⟩ := hret s₁ h₁ ch.pick
  refine ⟨a, hexec, ha, h₁.mono hlist htrs ?_⟩
  exact spares_exec hlist hi (hok s₁) ch l.loc (fun fn he => hsubmit fn (Op.mem.inj he))
    (fun ref row he => absurd (Op.mem.inj he) (hwrite ref row)) _

/-- The submission of the job of the next orphan. -/
theorem tidy_submit (hlist : OrphanList trs) (htrs : trs = done ++ tr :: rest)
    (h : Sorting done (tr :: rest) s) (habortable : tr.row.Abortable) :
    Tidy trs 0 (P.mem (.submit (.tryAbortRun cell)))
      (Succeeds fun _ _ s' => Sorting (done ++ [tr]) rest s') l s := by
  refine tidy_call hlist (by simp) fun s₁ hs _ => ?_
  have h₁ : Sorting done (tr :: rest) s₁ := h.mono hlist htrs (hs.2 rfl)
  refine ⟨⟨rfl, ⟨cell, rfl⟩, ?_⟩, fun ch => ⟨_, rfl, ?_, fun tr' htr' => ?_⟩⟩
  · rw [h₁.jobs, htrs, ← List.singleton_append, abortable_append, abortable_append, abortable_singleton,
      if_pos habortable, List.length_append, List.length_append, List.length_singleton]
    omega
  · rw [abortable_append, abortable_singleton, if_pos habortable, List.length_append, ← h₁.jobs,
      Office.jobs, shared_after]
    exact List.length_append
  · rw [shared_after]
    exact h₁.objects tr' (List.mem_cons_of_mem _ htr')

/-- The round of one orphan: it submits a job or keeps the orphan to be skipped. -/
theorem tidy_sortOrphan (hlist : OrphanList trs) (htrs : trs = done ++ tr :: rest)
    (h : Sorting done (tr :: rest) s) :
    Tidy trs 0 (Executor.sortOrphan cell tr) (Succeeds fun xs _ s' =>
      xs = skippable [tr] ∧ Sorting (done ++ [tr]) rest s') l s := by
  have hread : Tidy trs 0 (P.mem (.readTaskRun tr.ref))
      (Succeeds fun row _ s' => row = tr.row ∧ Sorting done (tr :: rest) s') l s := by
    refine tidy_aside hlist (.readTaskRun tr.ref) (by simp) (fun _ => trivial) (by simp) (by simp) htrs h
      fun s₁ h₁ pick => ⟨tr.row, ?_, rfl⟩
    simp only [Mem.exec, h₁.objects tr List.mem_cons_self]
    rfl
  refine succeeds_bind hread fun row l₁ s₁ h₁ _ => ?_
  obtain ⟨rfl, h₁⟩ := h₁
  have hkept : ¬tr.row.Abortable → Tidy trs 0 (Prog.ret [tr]) (Succeeds fun xs _ s' =>
      xs = skippable [tr] ∧ Sorting (done ++ [tr]) rest s') l₁ s₁ := by
    intro hnot
    refine succeeds_ret ⟨?_, ?_, fun tr' htr' => h₁.objects tr' (List.mem_cons_of_mem _ htr')⟩
    · rw [skippable_singleton, if_neg hnot]
    · rw [abortable_append, abortable_singleton, if_neg hnot, List.append_nil, h₁.jobs]
  split_ifs with hqueued hrunning hoperation
  · refine hkept fun habortable => ?_
    rw [habortable.1] at hqueued
    cases hqueued
  · have habortable : tr.row.Abortable := ⟨hrunning, hoperation⟩
    refine succeeds_bind (tidy_submit hlist htrs h₁ habortable) fun _ _ _ h₂ _ => succeeds_ret ⟨?_, h₂⟩
    rw [skippable_singleton, if_pos habortable]
  · exact hkept fun habortable => hoperation habortable.2
  · have hmem : tr ∈ trs := by simp [htrs]
    exact absurd (hlist.states tr hmem) (by simp [hqueued, hrunning])

/-- The loop submits a job for each orphan with an operation, in order, and keeps the others. -/
theorem tidy_sortOrphans (hlist : OrphanList trs) (htrs : trs = done ++ rest) (h : Sorting done rest s) :
    Tidy trs 0 (Executor.sortOrphans cell rest) (Succeeds fun xs _ s' =>
      xs = skippable rest ∧ s'.jobs = (abortable trs).length) l s := by
  induction rest generalizing done l s with
  | nil =>
    rw [List.append_nil] at htrs
    exact succeeds_ret ⟨rfl, htrs ▸ h.jobs⟩
  | cons tr rest ih =>
    have hcell : Tidy trs 0 (P.mem (.setCell cell tr.ref))
        (Succeeds fun _ _ s' => True ∧ Sorting done (tr :: rest) s') l s :=
      tidy_aside hlist (.setCell cell tr.ref) (by simp) (fun _ => trivial) (by simp) (by simp) htrs h
        fun _ _ _ => ⟨(), rfl, trivial⟩
    refine succeeds_bind hcell fun _ l₁ s₁ h₁ _ => ?_
    refine succeeds_bind (tidy_sortOrphan hlist htrs h₁.2) fun xs l₂ s₂ h₂ _ => ?_
    have hrest := ih (l := l₂) (s := s₂) (by rw [htrs, List.append_assoc]; rfl) h₂.2
    refine succeeds_bind hrest fun ys l₃ s₃ h₃ _ => succeeds_ret ⟨?_, h₃.2⟩
    rw [h₂.1, h₃.1]
    exact (List.filter_append ..).symm

end Round

theorem tidiesUp_skipped {tr : TaskRunObj} (hstate : tr.row.state = .queued ∨ tr.row.state = .running)
    (hnot : ¬tr.row.Abortable) :
    TidiesUp tr { row := .obj tr.ref, state := some .skipped,
                  requires := { state := some (.mem [.running, .queued]) } } := by
  refine ⟨rfl, ?_, rfl, rfl, fun row _ hrow => ?_⟩
  · rw [TaskRunRow.cleaned, if_neg hnot]
  · rcases hstate with h | h <;> simp [Requires.isMatched, hrow, h]

/-- The cleanup has submitted the jobs, and the other orphans are cleaned unless it was refused. -/
def Sorted (trs : List TaskRunObj) (s : Office) : Prop :=
  s.jobs = (abortable trs).length ∧ (s.refused = true ∨ ∀ tr ∈ skippable trs, Cleaned s tr)

/-- The update of the other orphans submits nothing. -/
theorem tidy_skip (hlist : OrphanList trs) {n : ℕ} (hjobs : s.jobs = n) :
    Tidy trs 0
      (TaskRunClient.setState ((skippable trs).map fun tr =>
        { row := .obj tr.ref, state := some .skipped, requires := { state := some (.mem [.running, .queued]) } }))
      (fun r l s' => OrRefused (fun _ s' => ∀ tr ∈ skippable trs, Cleaned s' tr) r l s' ∧ s'.jobs = n) l s := by
  have hus : List.Forall₂ TidiesUp (skippable trs) ((skippable trs).map fun tr =>
      { row := .obj tr.ref, state := some .skipped, requires := { state := some (.mem [.running, .queued]) } }) := by
    rw [List.forall₂_map_right_iff, List.forall₂_same]
    intro tr htr
    obtain ⟨hmem, hnot⟩ := List.mem_filter.mp htr
    exact tidiesUp_skipped (hlist.states tr hmem) (of_decide_eq_true hnot)
  have hsubset : skippable trs ⊆ trs := fun tr htr => (List.mem_filter.mp htr).1
  have hset := TaskRunClient.tidy_setState (i := 0) (l := l) (s := s) hlist hsubset (fun _ _ => Or.inl rfl) hus
  refine hset.and_of_uses (P.uses_handleExceptions (TaskRun.uses_setState _)) hjobs
    (fun l s s' hs hr _ => (hr.2 rfl).jobs.trans hs) fun o ho l s hs ch => ?_
  have hsubmit : ∀ fn, o ≠ .mem (.submit fn) := by
    rintro fn rfl
    exact ho
  have hcell : ∀ cell, o ≠ .mem (.getCell cell) := by
    rintro cell rfl
    exact ho
  rw [exec_bound hcell]
  exact (jobs_after hsubmit _).trans hs

theorem tidy_cleanUp (hlist : OrphanList trs) (h : Sorting [] trs s) :
    Tidy trs 0 (Executor.cleanUp trs) (fun _ _ s' => Sorted trs s') l s := by
  rw [Executor.cleanUp]
  split_ifs with hempty
  · rw [List.isEmpty_iff.mp hempty]
    exact ⟨h.jobs, Or.inr (by simp [skippable])⟩
  · have htrs : trs = [] ++ trs := rfl
    have hnew : Tidy trs 0 (P.mem .newCell) (Succeeds fun _ _ s' => True ∧ Sorting [] trs s') l s :=
      tidy_aside hlist .newCell (by simp) (fun _ => trivial) (by simp) (by simp) htrs h
        fun _ _ _ => ⟨_, rfl, trivial⟩
    refine succeeds_bind hnew fun cell l₁ s₁ h₁ _ => ?_
    refine succeeds_bind (tidy_sortOrphans hlist htrs h₁.2) fun xs l₂ s₂ h₂ _ => ?_
    obtain ⟨rfl, hjobs₂⟩ := h₂
    rw [unlessEmpty]
    split_ifs with hnone
    · exact ⟨hjobs₂, Or.inr (by rw [List.isEmpty_iff.mp hnone]; simp)⟩
    · have hset := tidy_skip hlist (l := l₂) hjobs₂
      refine Safe.catching (Safe.bind (hset.mono fun r l₃ s₃ hr => ?_))
      obtain ⟨hr, hjobs₃⟩ := hr
      cases r with
      | ok _ => exact ⟨hjobs₃, Or.inr hr⟩
      | error e => exact ⟨hjobs₃, Or.inl hr⟩

end Sorting

end YtScheduler
