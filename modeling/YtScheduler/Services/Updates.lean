import YtScheduler.Services.Clients

/-! `set_state` run alone, for any list of updates of different TaskRuns: the rows it has
requirements for are fetched at once, copied into the objects it was given, and the rows
it builds from those that match are written and copied back. -/

namespace YtScheduler

open Tablet Threads

/-! ### Objects of the process -/

/-- The memory after rows were copied into objects, one after the other. -/
def setAll (objs : List TaskRunObj) (heap : List TaskRunRow) : List TaskRunRow :=
  objs.foldl (fun heap o => heap.set o.ref o.row) heap

section SetAll

variable {objs : List TaskRunObj} {heap : List TaskRunRow} {o : TaskRunObj} {ref : Ref}

@[simp] theorem length_setAll : (setAll objs heap).length = heap.length := by
  induction objs generalizing heap with
  | nil => rfl
  | cons o objs ih => exact ih.trans List.length_set

theorem getElem?_setAll_of_not_mem (h : ∀ o ∈ objs, o.ref ≠ ref) :
    (setAll objs heap)[ref]? = heap[ref]? := by
  induction objs generalizing heap with
  | nil => rfl
  | cons o objs ih =>
    rw [List.forall_mem_cons] at h
    exact (ih h.2).trans (List.getElem?_set_ne h.1)

theorem getElem?_setAll_of_mem (hnodup : (objs.map TaskRunObj.ref).Nodup) (ho : o ∈ objs)
    (hlt : o.ref < heap.length) : (setAll objs heap)[o.ref]? = some o.row := by
  induction objs generalizing heap with
  | nil => cases ho
  | cons o' objs ih =>
    rw [List.map_cons, List.nodup_cons] at hnodup
    rcases List.mem_cons.mp ho with rfl | ho
    · have hother : ∀ o' ∈ objs, o'.ref ≠ o.ref := fun o' ho' he =>
        hnodup.1 (he ▸ List.mem_map_of_mem ho')
      exact (getElem?_setAll_of_not_mem hother).trans (List.getElem?_set_self hlt)
    · exact ih hnodup.2 ho (by simpa using hlt)

end SetAll

namespace TaskRun

/-! ### Updates -/

section Pure

variable (heap : List TaskRunRow) (fetched : List TaskRunObj)

/-- The run id of the TaskRun an update is for. -/
def runId? (u : UpdateRow) : Option Uuid :=
  match u.row with
  | .id runId => some runId
  | .obj ref => (heap[ref]?).map TaskRunRow.runId

/-- `fetched[run_id]`. -/
def lookup (runId : Uuid) : Option TaskRunObj := fetched.find? (·.row.runId = runId)

/-- The object a fetched row is copied into. -/
def refreshed (u : UpdateRow) : Option TaskRunObj :=
  match u.row with
  | .id _ => none
  | .obj ref =>
    if u.requires.nonempty then (heap[ref]?).bind fun row =>
      (lookup fetched row.runId).map fun found => ⟨ref, found.row⟩
    else none

/-- The object an update is for, with the row it builds on. -/
def targeted (u : UpdateRow) : Option TaskRunObj :=
  match u.row with
  | .id runId => lookup fetched runId
  | .obj ref =>
    (heap[ref]?).bind fun row =>
      if u.requires.nonempty then (lookup fetched row.runId).map fun found => ⟨ref, found.row⟩
      else some ⟨ref, row⟩

/-- The target of an update whose requirements it meets. -/
def due (u : UpdateRow) : Option TaskRunObj :=
  (targeted heap fetched u).filter fun o => !u.requires.nonempty || u.requires.isMatched o.row

/-- The updates that are made, with their targets. -/
def dues (us : List UpdateRow) : List (UpdateRow × TaskRunObj) :=
  us.filterMap fun u => (due heap fetched u).map (u, ·)

end Pure

/-- The rows built for updates, from time `n` on. -/
def built : ℕ → List (UpdateRow × TaskRunObj) → List TaskRunObj
  | _, [] => []
  | n, (u, o) :: rest => ⟨o.ref, o.row.buildRow u.state u.operationId ⟨n, true⟩⟩ :: built (n + 1) rest

/-- Objects passed to `set_state` exist, and no two updates are for one TaskRun. -/
structure Distinct (heap : List TaskRunRow) (us : List UpdateRow) : Prop where
  known : ∀ u ∈ us, ∀ ref, u.row = .obj ref → ∃ row, heap[ref]? = some row
  nodup : (us.map (runId? heap)).Nodup

section Evaluation

variable {i : ℕ} {s : Shared} {fetched : List TaskRunObj} {u : UpdateRow} {us : List UpdateRow}

/-- The memory with other TaskRun objects. -/
def withHeap (s : Shared) (heap : List TaskRunRow) : Shared :=
  { s with mem := { s.mem with taskRuns := heap } }

theorem yields_target (hknown : ∀ ref, u.row = .obj ref → ∃ row, s.mem.taskRuns[ref]? = some row) :
    Yields i (target fetched u) s (targeted s.mem.taskRuns fetched u)
      (withHeap s (setAll (refreshed s.mem.taskRuns fetched u).toList s.mem.taskRuns)) := by
  unfold target targeted refreshed
  cases hrow : u.row with
  | id runId => exact Yields.ret _ s
  | obj ref =>
    obtain ⟨row, hget⟩ := hknown ref hrow
    have hread : Yields i (P.mem (.readTaskRun ref)) s row s :=
      Yields.mem fun _ => by simp [Mem.exec, hget]
    refine hread.bind ?_
    simp only [hget, Option.bind_some, lookup]
    split_ifs with hrequires
    · cases fetched.find? (·.row.runId = row.runId) with
      | none => exact Yields.ret _ s
      | some found => exact Yields.bind (Yields.mem fun _ => rfl) (Yields.ret _ _)
    · exact Yields.ret _ s

/-- One round of the loop in `_set_state`. -/
theorem yields_prepare (hknown : ∀ ref, u.row = .obj ref → ∃ row, s.mem.taskRuns[ref]? = some row) :
    Yields i (prepare fetched u) s
      ((due s.mem.taskRuns fetched u).map fun o =>
        ⟨o.ref, o.row.buildRow u.state u.operationId ⟨s.clock, true⟩⟩)
      { withHeap s (setAll (refreshed s.mem.taskRuns fetched u).toList s.mem.taskRuns) with
        clock := s.clock + (due s.mem.taskRuns fetched u).toList.length } := by
  refine (yields_target hknown).bind ?_
  rw [due]
  cases targeted s.mem.taskRuns fetched u with
  | none => exact Yields.ret none _
  | some o =>
    have hskip : (u.requires.nonempty && !u.requires.isMatched o.row) =
        !(!u.requires.nonempty || u.requires.isMatched o.row) := by simp
    simp only [hskip, Option.filter_some]
    cases !u.requires.nonempty || u.requires.isMatched o.row with
    | false => exact Yields.ret none _
    | true => exact (Yields.nowUtc _).bind (Yields.ret _ _)

section Congr

variable {heap heap' : List TaskRunRow}

theorem runId?_congr (h : ∀ ref, u.row = .obj ref → heap'[ref]? = heap[ref]?) :
    runId? heap' u = runId? heap u := by
  unfold runId?
  cases hrow : u.row with
  | id runId => rfl
  | obj ref => simp only [h ref hrow]

theorem refreshed_congr (h : ∀ ref, u.row = .obj ref → heap'[ref]? = heap[ref]?) :
    refreshed heap' fetched u = refreshed heap fetched u := by
  unfold refreshed
  cases hrow : u.row with
  | id runId => rfl
  | obj ref => simp only [h ref hrow]

theorem due_congr (h : ∀ ref, u.row = .obj ref → heap'[ref]? = heap[ref]?) :
    due heap' fetched u = due heap fetched u := by
  unfold due targeted
  cases hrow : u.row with
  | id runId => rfl
  | obj ref => simp only [h ref hrow]

theorem ref_of_refreshed {o : TaskRunObj} (h : refreshed heap fetched u = some o) : u.row = .obj o.ref := by
  unfold refreshed at h
  cases hrow : u.row with
  | id runId => simp [hrow] at h
  | obj ref =>
    simp only [hrow] at h
    split_ifs at h
    obtain ⟨row, _, h⟩ := Option.bind_eq_some_iff.mp h
    obtain ⟨found, _, rfl⟩ := Option.map_eq_some_iff.mp h
    rfl

/-- Updates of different TaskRuns are for different objects. -/
theorem Distinct.ref_ne (h : Distinct heap (u :: us)) {u' : UpdateRow} (hu' : u' ∈ us) {ref ref' : Ref}
    (hrow : u.row = .obj ref) (hrow' : u'.row = .obj ref') : ref ≠ ref' := by
  rintro rfl
  have hnodup := h.nodup
  rw [List.map_cons, List.nodup_cons] at hnodup
  refine hnodup.1 (List.mem_map.mpr ⟨u', hu', ?_⟩)
  rw [runId?, runId?, hrow, hrow']

/-- The copy made for one update leaves the objects of the others alone. -/
theorem Distinct.others (h : Distinct heap (u :: us)) {u' : UpdateRow} (hu' : u' ∈ us) {ref' : Ref}
    (hrow' : u'.row = .obj ref') :
    (setAll (refreshed heap fetched u).toList heap)[ref']? = heap[ref']? := by
  apply getElem?_setAll_of_not_mem
  intro o ho
  exact h.ref_ne hu' (ref_of_refreshed (Option.mem_toList.mp ho)) hrow'

theorem Distinct.rest (h : Distinct heap (u :: us)) :
    Distinct (setAll (refreshed heap fetched u).toList heap) us := by
  refine ⟨fun u' hu' ref hrow => ?_, ?_⟩
  · rw [h.others hu' hrow]
    exact h.known u' (List.mem_cons_of_mem _ hu') ref hrow
  · have hnodup := h.nodup
    rw [List.map_cons, List.nodup_cons] at hnodup
    rw [List.map_congr_left fun u' hu' => runId?_congr fun ref hrow => h.others hu' hrow]
    exact hnodup.2

end Congr

theorem built_append (n : ℕ) (xs ys : List (UpdateRow × TaskRunObj)) :
    built n (xs ++ ys) = built n xs ++ built (n + xs.length) ys := by
  induction xs generalizing n with
  | nil => rfl
  | cons x xs ih =>
    obtain ⟨u, o⟩ := x
    rw [List.cons_append, built, ih, built, List.length_cons, Nat.add_right_comm]
    rfl

/-- The other updates are made as if the first one had not been. -/
theorem Distinct.dues_rest {heap : List TaskRunRow} (h : Distinct heap (u :: us)) :
    dues (setAll (refreshed heap fetched u).toList heap) fetched us = dues heap fetched us :=
  List.filterMap_congr fun _ hu' => by rw [due_congr fun _ hrow => h.others hu' hrow]

theorem Distinct.refreshed_rest {heap : List TaskRunRow} (h : Distinct heap (u :: us)) :
    us.filterMap (refreshed (setAll (refreshed heap fetched u).toList heap) fetched) =
      us.filterMap (refreshed heap fetched) :=
  List.filterMap_congr fun _ hu' => refreshed_congr fun _ hrow => h.others hu' hrow

theorem filterMap_cons_toList {α β : Type} (f : α → Option β) (x : α) (xs : List α) :
    (x :: xs).filterMap f = (f x).toList ++ xs.filterMap f := by
  rw [List.filterMap_cons]
  cases f x <;> rfl

/-- The loop in `_set_state`. -/
theorem yields_prepareUpdates (fetched : List TaskRunObj) (h : Distinct s.mem.taskRuns us) :
    Yields i (prepareAll fetched us) s (built s.clock (dues s.mem.taskRuns fetched us))
      { withHeap s (setAll (us.filterMap (refreshed s.mem.taskRuns fetched)) s.mem.taskRuns) with
        clock := s.clock + (dues s.mem.taskRuns fetched us).length } := by
  induction us generalizing s with
  | nil => exact Yields.ret [] s
  | cons u us ih =>
    have hrest := ih (s := { withHeap s (setAll (refreshed s.mem.taskRuns fetched u).toList
      s.mem.taskRuns) with clock := s.clock + (due s.mem.taskRuns fetched u).toList.length }) h.rest
    have hdues : dues s.mem.taskRuns fetched (u :: us) =
        ((due s.mem.taskRuns fetched u).map (u, ·)).toList ++ dues s.mem.taskRuns fetched us :=
      filterMap_cons_toList _ u us
    have hbuilt : built s.clock (dues s.mem.taskRuns fetched (u :: us)) =
        ((due s.mem.taskRuns fetched u).map fun o => ⟨o.ref, o.row.buildRow u.state u.operationId
          ⟨s.clock, true⟩⟩).toList ++ built (s.clock + (due s.mem.taskRuns fetched u).toList.length)
          (dues s.mem.taskRuns fetched us) := by
      rw [hdues, built_append]
      cases due s.mem.taskRuns fetched u <;> rfl
    rw [withHeap, withHeap] at hrest
    simp only [h.dues_rest, h.refreshed_rest] at hrest
    rw [hbuilt, filterMap_cons_toList, setAll, List.foldl_append]
    refine (yields_prepare (h.known u List.mem_cons_self)).bind ?_
    have hlength : (dues s.mem.taskRuns fetched (u :: us)).length =
        (due s.mem.taskRuns fetched u).toList.length + (dues s.mem.taskRuns fetched us).length := by
      rw [hdues, List.length_append]
      cases due s.mem.taskRuns fetched u <;> rfl
    rw [hlength, ← Nat.add_assoc]
    exact hrest.bind (Yields.ret _ _)

/-! ### The whole call -/

/-- The run ids an update makes `set_state` fetch. -/
def rids (heap : List TaskRunRow) (u : UpdateRow) : List Uuid :=
  match u.row with
  | .id runId => [runId]
  | .obj ref => if u.requires.nonempty then ((heap[ref]?).map TaskRunRow.runId).toList else []

theorem yields_rids (hknown : ∀ u ∈ us, ∀ ref, u.row = .obj ref → ∃ row, s.mem.taskRuns[ref]? = some row) :
    Yields i (fetchableRids us) s (us.flatMap (rids s.mem.taskRuns)) s := by
  induction us with
  | nil => exact Yields.ret [] s
  | cons u us ih =>
    rw [List.forall_mem_cons] at hknown
    have hrid : Yields i (fetchableRid u) s (rids s.mem.taskRuns u) s := by
      unfold fetchableRid rids
      cases hrow : u.row with
      | id runId => exact Yields.ret [runId] s
      | obj ref =>
        obtain ⟨row, hget⟩ := hknown.1 ref hrow
        have hread : Yields i (P.mem (.readTaskRun ref)) s row s :=
          Yields.mem fun _ => by simp [Mem.exec, hget]
        simp only [hget, Option.map_some, Option.toList_some]
        split_ifs
        · exact hread.bind (Yields.ret _ s)
        · exact Yields.ret _ s
    exact hrid.bind ((ih hknown.2).bind (Yields.ret _ s))

/-- The rows that `set_state` fetches. -/
def fetchedRows (s : Shared) (us : List UpdateRow) : List TaskRunRow :=
  s.db.taskRuns.filter fun r => r.runId ∈ us.flatMap (rids s.mem.taskRuns)

/-- The updates that are made, on the tables and the memory of `s`. -/
def made (s : Shared) (us : List UpdateRow) : List (UpdateRow × TaskRunObj) :=
  dues s.mem.taskRuns (objects s (fetchedRows s us)) us

/-- The memory after the call. -/
def heapAfter (s : Shared) (us : List UpdateRow) : List TaskRunRow :=
  setAll (built s.clock (made s us))
    (setAll (us.filterMap (refreshed s.mem.taskRuns (objects s (fetchedRows s us))))
      (s.mem.taskRuns ++ fetchedRows s us))

/-- Fetched rows are appended to the memory, which leaves the objects of the updates alone. -/
theorem Distinct.append {heap : List TaskRunRow} (h : Distinct heap us) (rows : List TaskRunRow)
    (fetched : List TaskRunObj) :
    Distinct (heap ++ rows) us ∧ dues (heap ++ rows) fetched us = dues heap fetched us ∧
      us.filterMap (refreshed (heap ++ rows) fetched) = us.filterMap (refreshed heap fetched) := by
  have hsame : ∀ u ∈ us, ∀ ref, u.row = .obj ref → (heap ++ rows)[ref]? = heap[ref]? := by
    intro u hu ref hrow
    obtain ⟨row, hget⟩ := h.known u hu ref hrow
    exact List.getElem?_append_left (List.getElem?_eq_some_iff.mp hget).1
  refine ⟨⟨fun u hu ref hrow => ?_, ?_⟩, ?_, ?_⟩
  · rw [hsame u hu ref hrow]
    exact h.known u hu ref hrow
  · rw [List.map_congr_left fun u hu => runId?_congr (hsame u hu)]
    exact h.nodup
  · exact List.filterMap_congr fun u hu => by rw [due_congr (hsame u hu)]
  · exact List.filterMap_congr fun u hu => refreshed_congr (hsame u hu)

/-- `_set_state` on fetched rows, whose objects were just made. -/
theorem yields_applyUpdates (h : Distinct s.mem.taskRuns us) (s₁ : Shared) {s₂ : Shared}
    (hheap : s₁.mem.taskRuns = s.mem.taskRuns ++ fetchedRows s us) (hclock : s₁.clock = s.clock)
    (hupsert : Yields i (P.unlessEmpty (built s.clock (made s us))
      (P.upsertRows ((built s.clock (made s us)).map fun u => .taskRun u.row) none))
      { withHeap s₁ (setAll (us.filterMap (refreshed s.mem.taskRuns (objects s (fetchedRows s us))))
        (s.mem.taskRuns ++ fetchedRows s us)) with clock := s₁.clock + (made s us).length } () s₂) :
    Yields i (applyUpdates (objects s (fetchedRows s us)) us) s₁ (built s.clock (made s us)) s₂ := by
  obtain ⟨hdistinct, hdues, hrefreshed⟩ :=
    h.append (fetchedRows s us) (objects s (fetchedRows s us))
  rw [← hheap] at hdistinct hdues hrefreshed
  have hprepare := yields_prepareUpdates (i := i) (objects s (fetchedRows s us)) hdistinct
  rw [hdues, hrefreshed, hclock, hheap] at hprepare
  rw [hclock] at hupsert
  exact hprepare.bind (hupsert.bind (Yields.ret _ s₂))

/-- A batch that is not empty is written on its own, outside a transaction. -/
theorem yields_upsertUnlessEmpty (hopen : s.opened (.thread i) = []) (news : List TaskRunObj) :
    ∃ s', Yields i (P.unlessEmpty news (P.upsertRows (news.map fun u => .taskRun u.row) none)) s () s' ∧
      s'.db = s.db.upsertAll (news.map fun u => .taskRun u.row) ∧ s'.opened (.thread i) = [] ∧
      s'.mem = s.mem := by
  cases news with
  | nil => exact ⟨s, Yields.ret () s, rfl, hopen, rfl⟩
  | cons new news => exact ⟨_, Yields.upsertRows hopen _, rfl, hopen, rfl⟩

theorem within_upsertUnlessEmpty {s₁ : Shared} {c : Client} (h : Within i s c s₁ [])
    (news : List TaskRunObj) :
    ∃ s', Yields i (P.unlessEmpty news (P.upsertRows (news.map fun u => .taskRun u.row) none)) s₁ () s' ∧
      Within i s c s' (news.map fun u => .taskRun u.row) ∧ s'.mem = s₁.mem := by
  cases news with
  | nil => exact ⟨s₁, Yields.ret () s₁, h, rfl⟩
  | cons new news =>
    obtain ⟨s₂, hupsert, h₂, hmem, _⟩ := h.upsertRows ((new :: news).map fun u => .taskRun u.row)
    exact ⟨s₂, hupsert, h₂, hmem⟩

theorem yields_fetchAndApply (hopen : s.opened (.thread i) = []) (h : Distinct s.mem.taskRuns us) :
    ∃ s', Yields i (fetchAndApply (us.flatMap (rids s.mem.taskRuns)) us) s (built s.clock (made s us)) s' ∧
      s'.db = s.db.upsertAll ((built s.clock (made s us)).map fun u => .taskRun u.row) ∧
      s'.opened (.thread i) = [] ∧ s'.mem.taskRuns =
        setAll (us.filterMap (refreshed s.mem.taskRuns (objects s (fetchedRows s us))))
          (s.mem.taskRuns ++ fetchedRows s us) := by
  rw [fetchAndApply]
  split_ifs with hnone
  · -- nothing is fetched
    have hrows : fetchedRows s us = [] := by
      rw [fetchedRows, List.isEmpty_iff.mp hnone]
      simp
    obtain ⟨s', hupsert, hdb, hopen', hmem⟩ := yields_upsertUnlessEmpty (i := i)
      (s := { withHeap s (setAll (us.filterMap (refreshed s.mem.taskRuns (objects s (fetchedRows s us))))
        (s.mem.taskRuns ++ fetchedRows s us)) with clock := s.clock + (made s us).length })
      hopen (built s.clock (made s us))
    have happly := yields_applyUpdates h _ (by rw [hrows, List.append_nil]) rfl hupsert
    rw [show objects s (fetchedRows s us) = [] by rw [hrows]; rfl] at happly
    exact ⟨s', happly, hdb, hopen', by rw [hmem]; rfl⟩
  · have hbegin := Within.begin hopen .global
    have hfetch : Yields i (fetchRows { runId := some (.mem (us.flatMap (rids s.mem.taskRuns))) })
        (s.beginTx i .global) (objects s (fetchedRows s us))
        (withObjects (s.beginTx i .global) (fetchedRows s us)) := by
      have hreads : (s.beginTx i .global).reads i = s.db := hbegin.reads (Or.inr rfl)
      have hselect := yields_fetch (i := i) { runId := some (.mem (us.flatMap (rids s.mem.taskRuns))) }
        (s := s.beginTx i .global) rfl rfl
      have hrows : TaskRunFilter.select { runId := some (.mem (us.flatMap (rids s.mem.taskRuns))) }
          (s.beginTx i .global).engine s.db = fetchedRows s us := by
        rw [TaskRunFilter.select, limited, fetchedRows]
        refine List.filter_congr fun r _ => ?_
        simp [TaskRunFilter.accepts_of_taskId_none, TaskRunFilter.agrees, FilterValue.acceptsOpt,
          FilterValue.accepts]
      rw [hreads, hrows] at hselect
      exact hselect
    obtain ⟨s₂, hupsert, h₂, hmem⟩ := within_upsertUnlessEmpty (hbegin.congr
      { withHeap (withObjects (s.beginTx i .global) (fetchedRows s us))
        (setAll (us.filterMap (refreshed s.mem.taskRuns (objects s (fetchedRows s us))))
          (s.mem.taskRuns ++ fetchedRows s us)) with clock := s.clock + (made s us).length }
      rfl rfl rfl) (built s.clock (made s us))
    have happly := yields_applyUpdates h (withObjects (s.beginTx i .global) (fetchedRows s us))
      rfl rfl hupsert
    have htx : ∃ s', Yields i (P.transaction (some .global) do
          let fetched ← fetchRows { runId := some (.mem (us.flatMap (rids s.mem.taskRuns))) }
          applyUpdates fetched us) s (built s.clock (made s us)) s' ∧
        s'.db = s.db.upsertAll ((built s.clock (made s us)).map fun u => .taskRun u.row) ∧
        s'.opened (.thread i) = [] ∧ s'.mem = s₂.mem := by
      have h₂ : Within i s (Op.resolve (some .global) i) s₂ _ := h₂
      refine h₂.transaction_on ?_
      exact hfetch.bind happly
    obtain ⟨s', htx, hdb, hopen', hmem'⟩ := htx
    exact ⟨s', htx, hdb, hopen', by rw [hmem', hmem]; rfl⟩

/-- `set_state` alone. -/
theorem yields_updates (hopen : s.opened (.thread i) = []) (h : Distinct s.mem.taskRuns us) :
    ∃ s', Yields i (setState us) s ((built s.clock (made s us)).map TaskRunObj.ref) s' ∧
      s'.db = s.db.upsertAll ((built s.clock (made s us)).map fun u => .taskRun u.row) ∧
      s'.opened (.thread i) = [] ∧ s'.mem.taskRuns = heapAfter s us := by
  obtain ⟨s₁, happly, hdb, hopen₁, hheap⟩ := yields_fetchAndApply hopen h
  have hcopy : ∀ (objs : List TaskRunObj) (s : Shared),
      Yields i (Prog.forEach objs fun u => P.mem (.writeTaskRun u.ref u.row)) s ()
        (withHeap s (setAll objs s.mem.taskRuns)) := by
    intro objs
    induction objs with
    | nil => exact fun s => Yields.ret () s
    | cons o objs ih =>
      intro s
      have hwrite : Yields i (P.mem (.writeTaskRun o.ref o.row)) s ()
          (withHeap s (s.mem.taskRuns.set o.ref o.row)) := Yields.mem fun _ => rfl
      exact hwrite.bind (ih _)
  refine ⟨withHeap s₁ (setAll (built s.clock (made s us)) s₁.mem.taskRuns), ?_, hdb, hopen₁, ?_⟩
  · exact (yields_rids h.known).bind (happly.bind ((hcopy _ s₁).bind (Yields.ret _ _)))
  · rw [heapAfter, ← hheap]
    rfl

end Evaluation

/-! ### The calls it makes -/

/-- The calls of `set_state`: its transaction is one of the global client, and it writes rows built
for its updates. -/
def Makes (us : List UpdateRow) : Op → Prop
  | .beginTx c | .commitTx c | .abortTx c => c = some .global
  | .select c _ => c = none
  | .insert c rows => c = none ∧ ∀ r ∈ rows, ∃ u ∈ us, ∃ (row : TaskRunRow) (now : Iso),
      r = .taskRun (row.buildRow u.state u.operationId now)
  | .now => True
  | .mem (.newTaskRuns _) | .mem (.readTaskRun _) | .mem (.writeTaskRun _ _) => True
  | _ => False

/-- The rows were built for the updates. -/
def BuiltFor (us : List UpdateRow) (objs : List TaskRunObj) : Prop :=
  ∀ o ∈ objs, ∃ u ∈ us, ∃ (row : TaskRunRow) (now : Iso),
    o.row = row.buildRow u.state u.operationId now

/-- The calls that build the rows. -/
def Prepares : Op → Prop
  | .now | .mem (.readTaskRun _) | .mem (.writeTaskRun _ _) => True
  | _ => False

theorem Prepares.makes {o : Op} (h : Prepares o) (us : List UpdateRow) : Makes us o := by
  cases o with
  | now => trivial
  | mem a => cases a <;> trivial
  | _ => exact absurd h id

theorem uses_target (fetched : List TaskRunObj) (u : UpdateRow) : (target fetched u).Uses Prepares := by
  unfold target
  split
  · trivial
  · refine Prog.Uses.bind (Prog.Uses.op trivial) fun row => ?_
    split_ifs
    · split
      · trivial
      · exact Prog.Uses.bind (Prog.Uses.op trivial) fun _ => trivial
    · trivial

theorem uses_prepareAll (fetched : List TaskRunObj) (us : List UpdateRow) :
    (prepareAll fetched us).Uses Prepares := by
  have hprepare : ∀ u, (prepare fetched u).Uses Prepares := by
    intro u
    refine (uses_target fetched u).bind fun tr => ?_
    cases tr with
    | none => trivial
    | some tr =>
      dsimp only
      split_ifs
      · trivial
      · exact Prog.Uses.bind (Prog.Uses.bind (Prog.Uses.op trivial) fun _ => trivial) fun _ => trivial
  induction us with
  | nil => trivial
  | cons u us ih => exact (hprepare u).bind fun _ => ih.bind fun _ => trivial

theorem gives_prepareAll (fetched : List TaskRunObj) (us : List UpdateRow) :
    (prepareAll fetched us).Gives (BuiltFor us) := by
  have hprepare : ∀ u, (prepare fetched u).Gives fun o => BuiltFor [u] o.toList := by
    intro u
    refine (Prog.gives_true _).bind fun tr _ => ?_
    cases tr with
    | none => exact fun o ho => nomatch ho
    | some tr =>
      dsimp only
      split_ifs
      · exact fun o ho => nomatch ho
      · refine (Prog.gives_true _).bind fun now _ o ho => ?_
        cases List.mem_singleton.mp ho
        exact ⟨u, List.mem_cons_self, tr.row, now, rfl⟩
  induction us with
  | nil => exact fun o ho => nomatch ho
  | cons u us ih =>
    refine (hprepare u).bind fun update hupdate => ih.bind fun rest hrest o ho => ?_
    rcases List.mem_append.mp ho with ho | ho
    · obtain ⟨v, hv, h⟩ := hupdate o ho
      rw [List.mem_singleton.mp hv] at h
      exact ⟨u, List.mem_cons_self, h⟩
    · obtain ⟨v, hv, h⟩ := hrest o ho
      exact ⟨v, List.mem_cons_of_mem _ hv, h⟩

theorem uses_applyUpdates (fetched : List TaskRunObj) (us : List UpdateRow) :
    (applyUpdates fetched us).Uses (Makes us) := by
  have hprepare : (prepareAll fetched us).Uses (Makes us) :=
    (uses_prepareAll fetched us).mono fun o ho => ho.makes us
  refine hprepare.bind_gives (gives_prepareAll fetched us) fun updates hbuilt => ?_
  refine Prog.Uses.bind ?_ fun _ => trivial
  unfold P.unlessEmpty
  split_ifs
  · trivial
  · refine Prog.Uses.op ⟨rfl, fun r hr => ?_⟩
    obtain ⟨o, ho, rfl⟩ := List.mem_map.mp hr
    obtain ⟨u, hu, row, now, hrow⟩ := hbuilt o ho
    exact ⟨u, hu, row, now, congrArg Row.taskRun hrow⟩

theorem uses_fetchableRids {all : List UpdateRow} (us : List UpdateRow) :
    (fetchableRids us).Uses (Makes all) := by
  have hrid : ∀ u, (fetchableRid u).Uses (Makes all) := by
    intro u
    unfold fetchableRid
    split
    · trivial
    · split_ifs
      · exact Prog.Uses.bind (Prog.Uses.op trivial) fun _ => trivial
      · trivial
  induction us with
  | nil => trivial
  | cons u us ih => exact (hrid u).bind fun _ => ih.bind fun _ => trivial

theorem uses_setState (us : List UpdateRow) : (setState us).Uses (Makes us) := by
  refine (uses_fetchableRids us).bind fun rids => ?_
  refine Prog.Uses.bind ?_ fun updates => ?_
  · unfold fetchAndApply
    split_ifs
    · exact uses_applyUpdates [] us
    · refine Prog.Uses.bind (Prog.Uses.op rfl) fun _ => ?_
      refine Prog.Uses.bind (Prog.Uses.attempt ?_) fun r => ?_
      · refine Prog.Uses.bind ?_ fun fetched => uses_applyUpdates fetched us
        exact Prog.Uses.bind (Prog.Uses.op rfl) fun _ => Prog.Uses.bind (Prog.Uses.op trivial)
          fun _ => trivial
      · cases r with
        | ok _ => exact Prog.Uses.bind (Prog.Uses.op rfl) fun _ => trivial
        | error _ => exact Prog.Uses.bind (Prog.Uses.op rfl) fun _ => trivial
  · exact Prog.Uses.bind (Prog.Uses.forEach fun _ _ => Prog.Uses.op trivial) fun _ => trivial

end TaskRun

end YtScheduler
