import YtScheduler.Consistency.TaskRuns
import YtScheduler.Orphans.Cleaning

/-! `set_state` as the cleanup calls it. Unless a statement is refused, the orphans it is
called for are persisted in the state the cleanup leaves them in: each was updated, or
was found in that state. -/

namespace YtScheduler

open Tablet Threads P

/-! ### Rules -/

/-- `A` holds of a result; an exception is that of a refused statement. -/
def OrRefused {α : Type} (A : α → Office → Prop) : Post Exn α Hand Office
  | .ok a, _, s => A a s
  | .error _, _, s => s.refused = true

/-- Thread `i` of the cleanup runs `p` by the contract. -/
abbrev Tidy {α : Type} (trs : List TaskRunObj) (i : ℕ) (p : P α) (Q : Post Exn α Hand Office) (l : Hand)
    (s : Office) : Prop := Safe (boundCleaning trs) (cleaningContract trs) i p Q l s

section Rules

variable {trs : List TaskRunObj} {i : ℕ} {α β : Type} {p : P α} {f : α → P β} {a : α} {l : Hand}
  {s : Office} {A : α → Office → Prop} {B : β → Office → Prop}

theorem tidy_ret (h : A a s) : Tidy trs i (Prog.ret a) (OrRefused A) l s := h

theorem tidy_raise {e : Exn} (h : s.refused = true) :
    Tidy trs i (Prog.raise e : P α) (OrRefused A) l s := h

theorem tidy_bind (hp : Tidy trs i p (OrRefused A) l s)
    (hf : ∀ a l' s', A a s' → Cleans trs s s' → Tidy trs i (f a) (OrRefused B) l' s') :
    Tidy trs i (p.bind f) (OrRefused B) l s := by
  refine Safe.bind (hp.grows.mono fun r l' s' hr => ?_)
  obtain ⟨hr, hg⟩ := hr
  cases r with
  | ok a => exact hf a l' s' hr hg
  | error e => exact hr

/-- The reading of a cell apart, a call acts as it is. -/
theorem exec_bound {o : Op} (hbound : ∀ cell, o ≠ .mem (.getCell cell)) (ch : Choice) :
    (boundCleaning trs).exec o i ch l s = cleaning.exec o i ch l s := by
  cases o with
  | mem a =>
    cases a with
    | getCell cell => exact absurd rfl (hbound cell)
    | _ => rfl
  | _ => rfl

/-- The rule for a call. -/
theorem tidy_call (hlist : OrphanList trs) {o : Op} {Q : Post Exn o.Ret Hand Office}
    (hbound : ∀ cell, o ≠ .mem (.getCell cell))
    (h : ∀ s₁, (cleaningContract trs).rely i s s₁ → InHand trs s₁ → CleanOk trs i s₁ o ∧ ∀ ch,
      Q (o.exec i ch l.loc s₁.shared).1
        (l.after o (o.exec i ch l.loc s₁.shared).1 (o.exec i ch l.loc s₁.shared).2.1)
        (s₁.after o (o.exec i ch l.loc s₁.shared).1 (o.exec i ch l.loc s₁.shared).2.2)) :
    Tidy trs i (P.call o) Q l s := by
  refine Safe.op fun s₁ hr hi ch => ?_
  obtain ⟨ho, hQ⟩ := h s₁ hr hi
  rw [exec_bound hbound]
  exact ⟨owed_exec hlist hi ho ch l, hQ ch⟩

/-- A reading of an orphan gives a copy of it. -/
theorem tidy_read (hlist : OrphanList trs) {tr : TaskRunObj} (htr : tr ∈ trs) :
    Tidy trs i (P.mem (.readTaskRun tr.ref)) (OrRefused fun row _ => row.CopyOf tr) l s := by
  refine tidy_call hlist (by simp) fun s₁ _ hi => ⟨trivial, fun ch => ?_⟩
  obtain ⟨row, hrow, hcopy⟩ := hi.objects tr htr
  simp only [Op.exec, Mem.exec, hrow]
  exact hcopy

theorem tidy_write (hlist : OrphanList trs) {tr : TaskRunObj} (htr : tr ∈ trs) (hmay : MayWrite trs i s tr)
    {row : TaskRunRow} (hcopy : row.CopyOf tr) :
    Tidy trs i (P.mem (.writeTaskRun tr.ref row)) (OrRefused fun _ _ => True) l s :=
  tidy_call hlist (by simp) fun _ hs _ => ⟨⟨tr, htr, rfl, hcopy, hs.1.mayWrite hmay⟩, fun _ => trivial⟩

/-- A statement that is refused is recorded. -/
theorem orRefused_of_ok {o : Op} (ho : (∃ c, o = .beginTx c) ∨ (∃ c, o = .commitTx c) ∨ ∃ c q, o = .select c q)
    {A : o.Ret → Office → Prop} {r : Except Exn o.Ret} {shared : Shared}
    (h : ∀ a, r = .ok a → A a (s.after o r shared)) : OrRefused A r l (s.after o r shared) := by
  cases r with
  | ok a => exact h a rfl
  | error e => rcases ho with ⟨c, rfl⟩ | ⟨c, rfl⟩ | ⟨c, q, rfl⟩ <;> rfl

/-- A transaction on the global client, which commits nothing. -/
theorem tidy_transaction (hlist : OrphanList trs) (hA : ∀ a s s', A a s → Cleans trs s s' → A a s')
    (hbody : ∀ l' s', Cleans trs s s' → Tidy trs i p (OrRefused A) l' s') :
    Tidy trs i (P.transaction (some .global) p) (OrRefused A) l s := by
  have hbegin : Tidy trs i (P.call (.beginTx (some .global))) (OrRefused fun _ _ => True) l s :=
    tidy_call hlist (by simp) fun _ _ _ => ⟨rfl, fun _ =>
      orRefused_of_ok (Or.inl ⟨_, rfl⟩) fun _ _ => trivial⟩
  refine tidy_bind hbegin fun _ l₁ s₁ _ hs₁ => ?_
  refine Safe.bind (Safe.attempt ((hbody l₁ s₁ hs₁).mono fun r l₂ s₂ hr => ?_))
  cases r with
  | ok a =>
    have hcommit : Tidy trs i (P.call (.commitTx (some .global))) (OrRefused fun _ _ => True) l₂ s₂ :=
      tidy_call hlist (by simp) fun _ _ _ => ⟨rfl, fun _ =>
        orRefused_of_ok (Or.inr (Or.inl ⟨_, rfl⟩)) fun _ _ => trivial⟩
    exact tidy_bind hcommit fun _ _ _ _ hs => tidy_ret (hA a _ _ hr hs)
  | error e =>
    have habort : Tidy trs i (P.call (.abortTx (some .global)))
        (OrRefused fun _ s' => s'.refused = true) l₂ s₂ :=
      tidy_call hlist (by simp) fun _ hs _ => ⟨rfl, fun _ => hs.1.refused hr⟩
    exact tidy_bind habort fun _ _ _ hrefused _ => tidy_raise hrefused

end Rules

/-! ### The updates -/

/-- The update of an orphan to the state the cleanup leaves it in. What it requires of the TaskRun
holds of the orphan as it was. -/
structure TidiesUp (tr : TaskRunObj) (u : UpdateRow) : Prop where
  row : u.row = .obj tr.ref
  state : u.state = some tr.row.cleaned
  operationId : u.operationId = none
  nonempty : u.requires.nonempty = true
  matched : ∀ row : TaskRunRow, row.CopyOf tr → row.state = tr.row.state → u.requires.isMatched row = true

/-- A row that an orphan is updated to. -/
def NewRow (tr : TaskRunObj) (o : TaskRunObj) : Prop :=
  o.ref = tr.ref ∧ o.row.CopyOf tr ∧ o.row.state = tr.row.cleaned

namespace TaskRun

variable {trs targets : List TaskRunObj} {us : List UpdateRow} {u : UpdateRow} {tr : TaskRunObj} {i : ℕ}
  {l : Hand} {s : Office} {fetched : List TaskRunObj}

theorem tidy_fetchableRids (hlist : OrphanList trs) (htargets : targets ⊆ trs)
    (hus : List.Forall₂ TidiesUp targets us) :
    Tidy trs i (fetchableRids us) (OrRefused fun rids _ => rids = targets.map (·.row.runId)) l s := by
  induction hus generalizing l s with
  | nil => exact tidy_ret rfl
  | @cons tr u targets us hu _ ih =>
    rw [List.cons_subset] at htargets
    have hrid : Tidy trs i (fetchableRid u) (OrRefused fun rids _ => rids = [tr.row.runId]) l s := by
      rw [fetchableRid, hu.row]
      dsimp only
      rw [if_pos hu.nonempty]
      refine tidy_bind (tidy_read hlist htargets.1) fun row _ _ hcopy _ => tidy_ret ?_
      rw [hcopy.runId]
    refine tidy_bind hrid fun rids _ _ hrids _ => tidy_bind (ih htargets.2) fun rest _ _ hrest _ => tidy_ret ?_
    rw [hrids, hrest]
    rfl

/-- The row of the orphan that was found: as it was, or the orphan is cleaned. -/
def Found (targets fetched : List TaskRunObj) (s : Office) : Prop :=
  ∀ tr ∈ targets, ∃ o, fetched.find? (·.row.runId = tr.row.runId) = some o ∧ o.row.CopyOf tr ∧
    (o.row.state = tr.row.state ∨ Cleaned s tr)

theorem Found.mono {s s' : Office} (h : Found targets fetched s) (htargets : targets ⊆ trs)
    (hs : Cleans trs s s') : Found targets fetched s' := by
  intro tr htr
  obtain ⟨o, ho, hcopy, hstate⟩ := h tr htr
  exact ⟨o, ho, hcopy, hstate.imp_right (hs.cleaned tr (htargets htr))⟩

/-- One round of the loop. -/
theorem tidy_prepare (hlist : OrphanList trs) (htr : tr ∈ trs) (hmay : MayWrite trs i s tr)
    (hu : TidiesUp tr u) (hfound : Found [tr] fetched s) :
    Tidy trs i (prepare fetched u) (OrRefused fun new s' =>
      (∀ o, new = some o → NewRow tr o) ∧ (new = none → Cleaned s' tr)) l s := by
  obtain ⟨o, ho, hcopy, hstate⟩ := hfound tr List.mem_cons_self
  have htarget : Tidy trs i (target fetched u) (OrRefused fun new _ => new = some ⟨tr.ref, o.row⟩) l s := by
    rw [target, hu.row]
    dsimp only
    refine tidy_bind (tidy_read hlist htr) fun row _ _ hrow hs => ?_
    rw [if_pos hu.nonempty, hrow.runId, ho]
    exact tidy_bind (tidy_write hlist htr (hs.mayWrite hmay) hcopy) fun _ _ _ _ _ => tidy_ret rfl
  refine tidy_bind htarget fun new l' s' hnew hs => ?_
  subst hnew
  dsimp only
  split_ifs with hmatch
  · -- what the update requires is gone
    refine tidy_ret ⟨by simp, fun _ => ?_⟩
    refine hstate.elim (fun hsame => ?_) (hs.cleaned tr htr)
    rw [hu.matched o.row hcopy hsame] at hmatch
    simp at hmatch
  · have hcall : Tidy trs i (P.call .now) (OrRefused fun _ _ => True) l' s' :=
      tidy_call hlist (by simp) fun _ _ _ => ⟨trivial, fun _ => trivial⟩
    have hnow : Tidy trs i P.nowUtc (OrRefused fun _ _ => True) l' s' :=
      tidy_bind hcall fun _ _ _ _ _ => tidy_ret trivial
    refine tidy_bind hnow fun now _ _ _ _ => tidy_ret ⟨?_, by simp⟩
    rintro _ ⟨⟩
    refine ⟨rfl, ⟨?_, ?_⟩, ?_⟩
    · exact (TaskRunRow.runId_of_ident (TaskRunRow.ident_buildRow ..)).trans hcopy.runId
    · rw [hu.operationId]
      exact (TaskRunRow.operationId_buildRow_none ..).trans hcopy.operationId
    · rw [hu.state]
      exact TaskRunRow.state_buildRow ..

/-- The rows to be written, and the orphans that need none. -/
structure Prepared (targets updates : List TaskRunObj) (s : Office) : Prop where
  new : ∀ o ∈ updates, ∃ tr ∈ targets, NewRow tr o
  made : ∀ tr ∈ targets, (∃ o ∈ updates, NewRow tr o) ∨ Cleaned s tr

theorem Prepared.cons {updates : List TaskRunObj} {new : Option TaskRunObj} {s s' : Office}
    (htr : tr ∈ trs) (hnew : (∀ o, new = some o → NewRow tr o) ∧ (new = none → Cleaned s tr))
    (hs : Cleans trs s s') (h : Prepared targets updates s') :
    Prepared (tr :: targets) (new.toList ++ updates) s' where
  new o ho := by
    rcases List.mem_append.mp ho with ho | ho
    · exact ⟨tr, List.mem_cons_self, hnew.1 o (Option.mem_toList.mp ho)⟩
    · obtain ⟨tr', htr', ho⟩ := h.new o ho
      exact ⟨tr', List.mem_cons_of_mem _ htr', ho⟩
  made tr' htr' := by
    rcases List.mem_cons.mp htr' with rfl | htr'
    · cases new with
      | none => exact Or.inr (hs.cleaned tr' htr (hnew.2 rfl))
      | some o => exact Or.inl ⟨o, by simp, hnew.1 o rfl⟩
    · refine (h.made tr' htr').imp_left ?_
      rintro ⟨o, ho, hrow⟩
      exact ⟨o, List.mem_append_right _ ho, hrow⟩

theorem tidy_prepareAll (hlist : OrphanList trs) (htargets : targets ⊆ trs)
    (hmay : ∀ tr ∈ targets, MayWrite trs i s tr) (hus : List.Forall₂ TidiesUp targets us)
    (hfound : Found targets fetched s) :
    Tidy trs i (prepareAll fetched us) (OrRefused fun updates s' => Prepared targets updates s') l s := by
  induction hus generalizing l s with
  | nil => exact tidy_ret ⟨by simp, by simp⟩
  | @cons tr u targets us hu _ ih =>
    rw [List.cons_subset] at htargets
    rw [List.forall_mem_cons] at hmay
    have hfirst : Found [tr] fetched s := fun tr' htr' =>
      hfound tr' (by rw [List.mem_singleton.mp htr']; exact List.mem_cons_self)
    refine tidy_bind (tidy_prepare hlist htargets.1 hmay.1 hu hfirst) fun new l₁ s₁ hnew hs₁ => ?_
    have hrest : Found targets fetched s₁ :=
      Found.mono (fun tr' htr' => hfound tr' (List.mem_cons_of_mem _ htr')) htargets.2 hs₁
    refine tidy_bind (ih htargets.2 (fun tr' htr' => hs₁.mayWrite (hmay.2 tr' htr')) hrest)
      fun updates _ s₂ hupdates hs₂ => tidy_ret ?_
    exact hupdates.cons htargets.1 hnew hs₂

/-- The rows are written, if the statement is not refused. -/
theorem tidy_upsert (hlist : OrphanList trs) (htargets : targets ⊆ trs) {updates : List TaskRunObj}
    (h : Prepared targets updates s) :
    Tidy trs i (P.upsertRows (updates.map fun u => .taskRun u.row) none)
      (OrRefused fun _ s' => ∀ tr ∈ targets, Cleaned s' tr) l s := by
  refine tidy_call (o := .insert none _) hlist (by simp) fun s₁ hs hi => ⟨⟨rfl, ?_⟩, fun ch => ?_⟩
  · intro r hr
    obtain ⟨o, ho, rfl⟩ := List.mem_map.mp hr
    obtain ⟨tr, htr, hrow⟩ := h.new o ho
    exact ⟨tr, htargets htr, o.row, rfl, hrow.2⟩
  · cases hfail : ch.fail with
    | some e =>
      simp only [Op.exec, hfail]
      rfl
    | none =>
      have hclosed : s₁.shared.opened (.thread i) = [] := hi.apart.closed i
      have hdb : ((Op.insert none (updates.map fun u => .taskRun u.row)).exec i ch l.loc
          s₁.shared).2.2.db = s₁.shared.db.upsertAll (updates.map fun u => .taskRun u.row) := by
        simp only [Op.exec, hfail, Op.resolve, Option.getD_none, Shared.insert, hclosed]
        exact Tablet.Store.current_append _ _
      have hok : ((Op.insert none (updates.map fun u => .taskRun u.row)).exec i ch l.loc
          s₁.shared).1 = .ok () := by
        simp only [Op.exec, hfail]
      rw [hok]
      intro tr htr
      rw [Cleaned, shared_after, hdb]
      by_cases hw : ∃ b : TaskRunRow, RowKind.toRow b ∈ updates.map (fun u => Row.taskRun u.row) ∧
          RowKind.id b = tr.row.runId
      · obtain ⟨b, hb, hid, hget⟩ := Db.get_upsertAll_of_written s₁.shared.db hw
        obtain ⟨o, ho, he⟩ := List.mem_map.mp hb
        obtain ⟨tr', htr', -, hcopy, hstate⟩ := h.new o ho
        obtain rfl : o.row = b := by simpa using he
        obtain rfl : tr' = tr := hlist.eq_of_runId (htargets htr') (htargets htr) (hcopy.runId.symm.trans hid)
        exact ⟨o.row, hget, hstate⟩
      · have hmissed : ¬∃ o ∈ updates, NewRow tr o := by
          rintro ⟨o, ho, -, hcopy, -⟩
          exact hw ⟨o.row, List.mem_map_of_mem ho, hcopy.runId⟩
        obtain ⟨row, hrow, hstate⟩ := hs.1.cleaned tr (htargets htr) ((h.made tr htr).resolve_left hmissed)
        refine ⟨row, ?_, hstate⟩
        rw [← hrow]
        exact Db.get_upsertAll_of_not_written fun b hb he => hw ⟨b, hb, he⟩

/-- The orphans are cleaned, and so are the rows that go into their objects. -/
def Done (targets updates : List TaskRunObj) (s : Office) : Prop :=
  (∀ o ∈ updates, ∃ tr ∈ targets, NewRow tr o) ∧ ∀ tr ∈ targets, Cleaned s tr

theorem Done.mono {updates : List TaskRunObj} {s s' : Office} (h : Done targets updates s)
    (htargets : targets ⊆ trs) (hs : Cleans trs s s') : Done targets updates s' :=
  ⟨h.1, fun tr htr => hs.cleaned tr (htargets htr) (h.2 tr htr)⟩

theorem tidy_applyUpdates (hlist : OrphanList trs) (htargets : targets ⊆ trs)
    (hmay : ∀ tr ∈ targets, MayWrite trs i s tr) (hus : List.Forall₂ TidiesUp targets us)
    (hfound : Found targets fetched s) :
    Tidy trs i (applyUpdates fetched us) (OrRefused (Done targets)) l s := by
  refine tidy_bind (tidy_prepareAll hlist htargets hmay hus hfound) fun updates l₁ s₁ hupdates _ => ?_
  have hwrite : Tidy trs i (P.unlessEmpty updates (P.upsertRows (updates.map fun u => .taskRun u.row) none))
      (OrRefused fun _ s' => ∀ tr ∈ targets, Cleaned s' tr) l₁ s₁ := by
    rw [P.unlessEmpty]
    split_ifs with hempty
    · refine tidy_ret fun tr htr => (hupdates.made tr htr).resolve_left ?_
      rw [List.isEmpty_iff.mp hempty]
      simp
    · exact tidy_upsert hlist htargets hupdates
  exact tidy_bind hwrite fun _ _ _ hcleaned _ => tidy_ret ⟨hupdates.new, hcleaned⟩

/-- Rows that were selected for the orphans. -/
structure Selected (targets : List TaskRunObj) (rows : List TaskRunRow) (s : Office) : Prop where
  each : ∀ tr ∈ targets, ∃ r ∈ rows, r.runId = tr.row.runId
  copies : ∀ r ∈ rows, ∀ tr ∈ targets, r.runId = tr.row.runId →
    r.CopyOf tr ∧ (r.state = tr.row.state ∨ Cleaned s tr)

theorem Selected.mono {rows : List TaskRunRow} {s s' : Office} (h : Selected targets rows s)
    (htargets : targets ⊆ trs) (hs : Cleans trs s s') : Selected targets rows s' where
  each := h.each
  copies r hr tr htr hid :=
    (h.copies r hr tr htr hid).imp id (Or.imp_right (hs.cleaned tr (htargets htr)))

theorem Selected.found {s : Office} (h : Selected targets (fetched.map (·.row)) s) :
    Found targets fetched s := by
  intro tr htr
  obtain ⟨r, hr, hid⟩ := h.each tr htr
  obtain ⟨o, ho, rfl⟩ := List.mem_map.mp hr
  have hsome : (fetched.find? (·.row.runId = tr.row.runId)).isSome = true :=
    List.find?_isSome.mpr ⟨o, ho, decide_eq_true hid⟩
  obtain ⟨o', hfind⟩ := Option.isSome_iff_exists.mp hsome
  have hid' := List.find?_some hfind
  exact ⟨o', hfind, h.copies o'.row (List.mem_map_of_mem (List.mem_of_find?_eq_some hfind)) tr htr
    (of_decide_eq_true hid')⟩

theorem selected_of_inHand (h : InHand trs s) (htargets : targets ⊆ trs) :
    Selected targets (TaskRunFilter.select { runId := some (.mem (targets.map (·.row.runId))) }
      s.shared.engine s.shared.db) s where
  each tr htr := by
    obtain ⟨row, hrow, hcopy, _⟩ := h.rows tr (htargets htr)
    refine ⟨row, ?_, hcopy.runId⟩
    rw [TaskRunFilter.select, limited, List.mem_filter]
    refine ⟨Db.mem_taskRuns.mpr (hcopy.runId ▸ hrow), ?_⟩
    simp only [TaskRunFilter.accepts_of_taskId_none, TaskRunFilter.agrees,
      FilterValue.acceptsOpt_none, Bool.and_true,
      FilterValue.acceptsOpt_mem, hcopy.runId, Option.all_none]
    exact List.mem_map_of_mem htr
  copies r hr tr htr hid := by
    obtain ⟨row, hrow, hcopy, hstate⟩ := h.rows tr (htargets htr)
    have hget := Db.mem_taskRuns.mp (List.mem_filter.mp (mem_of_limited hr)).1
    rw [hid, hrow] at hget
    obtain rfl := Option.some.inj hget
    exact ⟨hcopy, hstate.imp_right fun hs => ⟨row, hrow, hs⟩⟩

/-- `fetch_rows` finds the orphans. -/
theorem tidy_fetch (hlist : OrphanList trs) (htargets : targets ⊆ trs) :
    Tidy trs i (fetchRows { runId := some (.mem (targets.map (·.row.runId))) })
      (OrRefused fun fetched s' => Found targets fetched s') l s := by
  have hselect : Tidy trs i
      (P.call (.select none (.taskRuns { runId := some (.mem (targets.map (·.row.runId))) })))
      (OrRefused fun rows s' => Selected targets rows s') l s := by
    refine tidy_call hlist (by simp) fun s₁ _ hi => ⟨trivial, fun ch => ?_⟩
    refine orRefused_of_ok (Or.inr (Or.inr ⟨_, _, rfl⟩)) fun rows hrows => ?_
    have hcurrent : s₁.shared.store.asOf (s₁.shared.snapshot (.thread i)) = s₁.shared.db := by
      rw [Shared.snapshot, hi.apart.closed i]
      exact Tablet.Store.asOf_now _
    have hleft : ((Op.select none (.taskRuns { runId := some (.mem (targets.map (·.row.runId))) })).exec i ch
        l.loc s₁.shared).2.2 = s₁.shared := by
      simp only [Op.exec]
      repeat' split
      all_goals rfl
    have heval : rows = TaskRunFilter.select { runId := some (.mem (targets.map (·.row.runId))) }
        s₁.shared.engine s₁.shared.db := by
      have hrows := hrows
      simp only [Op.exec, Op.resolve, Option.getD_none, hcurrent] at hrows
      split at hrows
      · cases hrows
      · split_ifs at hrows
        exact (Except.ok.inj hrows).symm
    rw [hrows, hleft, heval]
    exact selected_of_inHand hi htargets
  refine tidy_bind hselect fun rows l₁ s₁ hrows _ => ?_
  have hnew : Tidy trs i (P.mem (.newTaskRuns rows))
      (OrRefused fun refs _ => ∃ a, refs = List.range' a rows.length) l₁ s₁ :=
    tidy_call hlist (by simp) fun _ _ _ => ⟨trivial, fun _ => ⟨_, rfl⟩⟩
  refine tidy_bind hnew fun refs _ s₂ hrefs hs => tidy_ret ?_
  obtain ⟨a, rfl⟩ := hrefs
  apply Selected.found
  rw [map_zipWith_range' (fun _ _ => rfl) a rows]
  exact hrows.mono htargets hs

/-- The rows go into the objects of the orphans. -/
theorem tidy_copyAll (hlist : OrphanList trs) (htargets : targets ⊆ trs) {updates : List TaskRunObj}
    (hmay : ∀ tr ∈ targets, MayWrite trs i s tr) (hnew : ∀ o ∈ updates, ∃ tr ∈ targets, NewRow tr o) :
    Tidy trs i (Prog.forEach updates fun u => P.mem (.writeTaskRun u.ref u.row))
      (OrRefused fun _ _ => True) l s := by
  refine Safe.forEach (K := fun _ s => ∀ tr ∈ targets, MayWrite trs i s tr) hmay
    (fun o ho l s hmay => ?_) fun _ _ _ => trivial
  obtain ⟨tr, htr, href, hcopy, _⟩ := hnew o ho
  have hwrite : Tidy trs i (P.mem (.writeTaskRun o.ref o.row)) (OrRefused fun _ _ => True) l s :=
    href ▸ tidy_write hlist (htargets htr) (hmay tr htr) hcopy
  refine hwrite.grows.mono fun r l' s' hr => ?_
  cases r with
  | ok _ => exact fun tr htr => hr.2.mayWrite (hmay tr htr)
  | error e => exact hr.1

/-- `set_state` for the orphans. -/
theorem tidy_setState (hlist : OrphanList trs) (htargets : targets ⊆ trs)
    (hmay : ∀ tr ∈ targets, MayWrite trs i s tr) (hus : List.Forall₂ TidiesUp targets us) :
    Tidy trs i (setState us) (OrRefused fun _ s' => ∀ tr ∈ targets, Cleaned s' tr) l s := by
  refine tidy_bind (tidy_fetchableRids hlist htargets hus) fun rids l₁ s₁ hrids hs₁ => ?_
  replace hmay : ∀ tr ∈ targets, MayWrite trs i s₁ tr := fun tr htr => hs₁.mayWrite (hmay tr htr)
  have happly : Tidy trs i (fetchAndApply rids us) (OrRefused (Done targets)) l₁ s₁ := by
    subst hrids
    rw [fetchAndApply]
    split_ifs with hnone
    · obtain rfl : targets = [] := by simpa using hnone
      exact tidy_applyUpdates hlist htargets hmay hus (by simp [Found])
    · refine tidy_transaction hlist (fun updates s s' h hs => h.mono htargets hs) fun l₂ s₂ hs₂ => ?_
      refine tidy_bind (tidy_fetch hlist htargets) fun fetched _ s₃ hfound hs₃ => ?_
      exact tidy_applyUpdates hlist htargets (fun tr htr => hs₃.mayWrite (hs₂.mayWrite (hmay tr htr))) hus hfound
  refine tidy_bind happly fun updates l₂ s₂ hdone hs₂ => ?_
  have hcopy : Tidy trs i (Prog.forEach updates fun u => P.mem (.writeTaskRun u.ref u.row))
      (OrRefused fun _ _ => True) l₂ s₂ :=
    tidy_copyAll hlist htargets (fun tr htr => hs₂.mayWrite (hmay tr htr)) hdone.1
  exact tidy_bind hcopy fun _ _ _ _ hs => tidy_ret (hdone.mono htargets hs).2

end TaskRun

/-- The client re-raises what it does not retry. -/
theorem TaskRunClient.tidy_setState {trs targets : List TaskRunObj} {us : List UpdateRow} {i : ℕ} {l : Hand}
    {s : Office} (hlist : OrphanList trs) (htargets : targets ⊆ trs)
    (hmay : ∀ tr ∈ targets, MayWrite trs i s tr) (hus : List.Forall₂ TidiesUp targets us) :
    Tidy trs i (TaskRunClient.setState us) (OrRefused fun _ s' => ∀ tr ∈ targets, Cleaned s' tr) l s := by
  refine Safe.catching ((TaskRun.tidy_setState hlist htargets hmay hus).mono fun r l s hr => ?_)
  cases r with
  | ok _ => exact hr
  | error e =>
    simp only [Bool.false_eq_true, if_false]
    split_ifs
    · exact tidy_raise hr
    · exact tidy_raise hr

end YtScheduler
