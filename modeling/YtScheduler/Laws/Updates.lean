import YtScheduler.Laws.Creation
import YtScheduler.Sequences.Indices
import YtScheduler.Services.Updates

/-! What a list of updates asks for, and that `set_state` does it: which rows it writes,
which TaskRuns it returns, what it leaves in the objects it was given, and that the order
of the updates does not matter. -/

namespace YtScheduler

open Tablet Threads

/-! ### What the updates ask for -/

/-- The row an update builds on: the persisted row, or the object as it stands if it was given
without requirements. -/
def UpdateRow.base (s : Shared) (u : UpdateRow) : Option TaskRunRow :=
  match u.row with
  | .id runId => s.db.taskRun runId
  | .obj ref => (s.mem.taskRuns[ref]?).bind fun row =>
    if u.requires.nonempty then s.db.taskRun row.runId else some row

/-- The row an update builds on, if it meets the requirements. -/
def UpdateRow.chosen (s : Shared) (u : UpdateRow) : Option TaskRunRow :=
  (u.base s).filter fun row => !u.requires.nonempty || u.requires.isMatched row

/-- The updates to make, in order. -/
def chosenUpdates (s : Shared) (us : List UpdateRow) : List (UpdateRow × TaskRunRow) :=
  us.filterMap fun u => (u.chosen s).map (u, ·)

/-- The row written for an update. -/
structure Requested (x : UpdateRow × TaskRunRow) (new : TaskRunRow) : Prop where
  ident : new.ident = x.2.ident
  state : new.state = x.1.state.getD x.2.state
  operationId : new.operationId = x.1.operationId.or x.2.operationId

/-- The object returned for an update: the one it was given, or a new one, equal to the row
persisted now. -/
structure HandedBack (s s' : Shared) (x : UpdateRow × TaskRunRow) (ref : Ref) : Prop where
  target : match x.1.row with
    | .id _ => s.mem.taskRuns.length ≤ ref
    | .obj given => ref = given
  persisted : ∃ new, s'.mem.taskRuns[ref]? = some new ∧ s'.db.taskRun x.2.runId = some new

/-- A call from `s` to `s'` that returned `trs` did what the updates ask for. -/
structure Told (s : Shared) (us : List UpdateRow) (trs : List Ref) (s' : Shared) : Prop where
  written : ∃ news, List.Forall₂ Requested (chosenUpdates s us) news ∧
    s'.db = s.db.upsertAll (news.map .taskRun)
  returned : List.Forall₂ (HandedBack s s') (chosenUpdates s us) trs
  refreshed : ∀ u ∈ us, ∀ ref, u.row = .obj ref → u.requires.nonempty = true →
    ∀ row, s.mem.taskRuns[ref]? = some row → (s.db.taskRun row.runId).isSome →
      s'.mem.taskRuns[ref]? = s'.db.taskRun row.runId

/-- The updates made by calls of their own, one after the other, each at its time. -/
inductive OneByOne (i : ℕ) : List (UpdateRow × ℕ) → Shared → Shared → Prop
  | nil (s : Shared) : OneByOne i [] s s
  | cons {u : UpdateRow} {time : ℕ} {us : List (UpdateRow × ℕ)} {s s₁ s' : Shared} {trs : List Ref}
      (first : Yields i (TaskRun.setState [u]) { s with clock := time } trs s₁)
      (rest : OneByOne i us s₁ s') : OneByOne i ((u, time) :: us) s s'

/-- The tables agree, and so do the objects that existed in `s`. -/
structure SameEffect (s s₁ s₂ : Shared) : Prop where
  db : ∀ k, s₁.db.find k = s₂.db.find k
  objects : ∀ ref < s.mem.taskRuns.length, s₁.mem.taskRuns[ref]? = s₂.mem.taskRuns[ref]?

namespace TaskRun

variable {i : ℕ} {s s' : Shared} {u : UpdateRow} {us : List UpdateRow} {id : Uuid}

/-! ### Fetched rows -/

theorem find?_fetchedRows (hid : id ∈ us.flatMap (rids s.mem.taskRuns)) :
    (fetchedRows s us).find? (·.runId = id) = s.db.taskRun id := by
  have hfetched : ∀ {r}, r ∈ fetchedRows s us → r.runId = id → s.db.taskRun id = some r := by
    rintro r hr rfl
    exact Db.mem_taskRuns.mp (List.mem_filter.mp hr).1
  cases hfind : (fetchedRows s us).find? (·.runId = id) with
  | some r =>
    exact (hfetched (List.mem_of_find?_eq_some hfind) (by simpa using List.find?_some hfind)).symm
  | none =>
    symm
    rw [Option.eq_none_iff_forall_ne_some]
    intro r hget
    have hr : r ∈ fetchedRows s us := by
      rw [fetchedRows, List.mem_filter, decide_eq_true_eq, Db.runId_of_taskRun hget]
      exact ⟨Db.mem_taskRuns.mpr (by rwa [Db.runId_of_taskRun hget]), hid⟩
    exact List.find?_eq_none.mp hfind r hr (by simpa using Db.runId_of_taskRun hget)

/-- The objects made of the fetched rows. -/
abbrev fetchedObjects (s : Shared) (us : List UpdateRow) : List TaskRunObj := objects s (fetchedRows s us)

/-- The memory once the rows are fetched. -/
abbrev fetchedHeap (s : Shared) (us : List UpdateRow) : List TaskRunRow :=
  s.mem.taskRuns ++ fetchedRows s us

theorem map_row_lookup (hid : id ∈ us.flatMap (rids s.mem.taskRuns)) :
    (lookup (fetchedObjects s us) id).map (·.row) = s.db.taskRun id := by
  rw [← find?_fetchedRows hid, ← map_row_objects s (fetchedRows s us), List.find?_map]
  rfl

theorem mem_fetched {o : TaskRunObj} (h : lookup (fetchedObjects s us) id = some o) :
    s.mem.taskRuns.length ≤ o.ref ∧ (fetchedHeap s us)[o.ref]? = some o.row ∧ o.row.runId = id := by
  obtain ⟨hfresh, hget⟩ := mem_objects (List.mem_of_find?_eq_some h)
  exact ⟨hfresh, hget, by simpa using List.find?_some h⟩

/-! ### Targets -/

/-- Where an object of an update comes from: it was fetched for its run id, or it was given. -/
structure Origin (s : Shared) (us : List UpdateRow) (u : UpdateRow) (o : TaskRunObj) : Prop where
  runId : runId? s.mem.taskRuns u = some o.row.runId
  held : ((fetchedHeap s us)[o.ref]?).map TaskRunRow.runId = some o.row.runId
  target : match u.row with
    | .id _ => s.mem.taskRuns.length ≤ o.ref
    | .obj given => o.ref = given

theorem mem_rids_of_obj (hu : u ∈ us) {ref : Ref} (hrow : u.row = .obj ref) {row : TaskRunRow}
    (hget : s.mem.taskRuns[ref]? = some row) (hrequires : u.requires.nonempty = true) :
    row.runId ∈ us.flatMap (rids s.mem.taskRuns) := by
  refine List.mem_flatMap.mpr ⟨u, hu, ?_⟩
  simp [rids, hrow, hget, hrequires]

theorem mem_rids_of_id (hu : u ∈ us) (hrow : u.row = .id id) :
    id ∈ us.flatMap (rids s.mem.taskRuns) := by
  refine List.mem_flatMap.mpr ⟨u, hu, ?_⟩
  simp [rids, hrow]

theorem map_row_targeted (hu : u ∈ us) :
    (targeted s.mem.taskRuns (fetchedObjects s us) u).map (·.row) = u.base s := by
  unfold targeted UpdateRow.base
  cases hrow : u.row with
  | id runId => exact map_row_lookup (mem_rids_of_id hu hrow)
  | obj ref =>
    cases hget : s.mem.taskRuns[ref]? with
    | none => simp only [hget, Option.bind_none, Option.map_none]
    | some row =>
      simp only [hget, Option.bind_some]
      split_ifs with hrequires
      · rw [Option.map_map]
        exact map_row_lookup (mem_rids_of_obj hu hrow hget hrequires)
      · rfl

/-- The updates that are made are the chosen ones. -/
theorem map_row_due (hu : u ∈ us) :
    (due s.mem.taskRuns (fetchedObjects s us) u).map (·.row) = u.chosen s := by
  rw [UpdateRow.chosen, ← map_row_targeted hu, due]
  cases targeted s.mem.taskRuns (fetchedObjects s us) u with
  | none => rfl
  | some o =>
    rw [Option.map_some, Option.filter_some, Option.filter_some]
    split_ifs <;> rfl

theorem origin_of_targeted {o : TaskRunObj}
    (h : targeted s.mem.taskRuns (fetchedObjects s us) u = some o) : Origin s us u o := by
  unfold targeted at h
  cases hrow : u.row with
  | id runId =>
    rw [hrow] at h
    obtain ⟨hfresh, hget, hid⟩ := mem_fetched h
    refine ⟨?_, ?_, ?_⟩
    · rw [runId?, hrow, hid]
    · rw [hget, Option.map_some]
    · simpa only [hrow] using hfresh
  | obj ref =>
    simp only [hrow] at h
    obtain ⟨row, hget, h⟩ := Option.bind_eq_some_iff.mp h
    have hheld : (fetchedHeap s us)[ref]? = some row := by
      rwa [List.getElem?_append_left (List.getElem?_eq_some_iff.mp hget).1]
    have hid : o.ref = ref ∧ o.row.runId = row.runId := by
      split_ifs at h
      · obtain ⟨found, hfound, rfl⟩ := Option.map_eq_some_iff.mp h
        exact ⟨rfl, (mem_fetched hfound).2.2⟩
      · obtain rfl := Option.some.inj h
        exact ⟨rfl, rfl⟩
    refine ⟨?_, ?_, ?_⟩
    · simp only [runId?, hrow, hget, Option.map_some, hid.2]
    · rw [hid.1, hheld, Option.map_some, hid.2]
    · simpa only [hrow] using hid.1

theorem origin_of_due {o : TaskRunObj} (h : due s.mem.taskRuns (fetchedObjects s us) u = some o) :
    Origin s us u o :=
  origin_of_targeted (Option.filter_eq_some_iff.mp h).1

theorem origin_of_refreshed {o : TaskRunObj}
    (h : refreshed s.mem.taskRuns (fetchedObjects s us) u = some o) : Origin s us u o := by
  apply origin_of_targeted
  unfold refreshed at h
  unfold targeted
  cases hrow : u.row with
  | id runId => simp [hrow] at h
  | obj ref =>
    simp only [hrow] at h ⊢
    split_ifs at h with hrequires
    simpa only [hrequires, if_true] using h

/-- Objects of different TaskRuns are different objects. -/
theorem Origin.ref_ne {u' : UpdateRow} {o o' : TaskRunObj} (h : Origin s us u o) (h' : Origin s us u' o')
    (hne : runId? s.mem.taskRuns u ≠ runId? s.mem.taskRuns u') : o.ref ≠ o'.ref := by
  intro href
  rw [h.runId, h'.runId, ← h.held, ← h'.held, href] at hne
  exact hne rfl

/-! ### A batch -/

/-- The updates with the times at which their rows are built, from `n` on. -/
def timed (s : Shared) (fetched : List TaskRunObj) : ℕ → List UpdateRow → List (UpdateRow × ℕ)
  | _, [] => []
  | n, u :: us => (u, n) :: timed s fetched (n + (due s.mem.taskRuns fetched u).toList.length) us

/-- The row built for an update, with the object it goes to. -/
def builtFor (s : Shared) (fetched : List TaskRunObj) (x : UpdateRow × ℕ) : Option TaskRunObj :=
  (due s.mem.taskRuns fetched x.1).map fun o =>
    ⟨o.ref, o.row.buildRow x.1.state x.1.operationId ⟨x.2, true⟩⟩

theorem map_fst_timed (fetched : List TaskRunObj) (n : ℕ) (us : List UpdateRow) :
    (timed s fetched n us).map Prod.fst = us := by
  induction us generalizing n with
  | nil => rfl
  | cons u us ih => rw [timed, List.map_cons, ih]

theorem built_dues (fetched : List TaskRunObj) (n : ℕ) :
    built n (dues s.mem.taskRuns fetched us) = (timed s fetched n us).filterMap (builtFor s fetched) := by
  induction us generalizing n with
  | nil => rfl
  | cons u us ih =>
    rw [dues, filterMap_cons_toList, built_append, timed, filterMap_cons_toList]
    have hlength : ((due s.mem.taskRuns fetched u).map (u, ·)).toList.length =
        (due s.mem.taskRuns fetched u).toList.length := by
      cases due s.mem.taskRuns fetched u <;> rfl
    rw [hlength]
    refine congrArg₂ (· ++ ·) ?_ (ih _)
    rw [builtFor]
    cases due s.mem.taskRuns fetched u <;> rfl

/-- What updates made at these times leave behind, row by row and object by object. -/
structure Made (i : ℕ) (s : Shared) (xs : List (UpdateRow × ℕ)) (s' : Shared) : Prop where
  opened : s'.opened (.thread i) = []
  row : ∀ x ∈ xs, ∀ id, runId? s.mem.taskRuns x.1 = some id → s'.db.taskRun id =
    ((x.1.chosen s).map fun row => row.buildRow x.1.state x.1.operationId ⟨x.2, true⟩).or
      (s.db.taskRun id)
  otherRows : ∀ k, (∀ x ∈ xs, ∀ id, runId? s.mem.taskRuns x.1 = some id → k ≠ .taskRun id) →
    s'.db.find k = s.db.find k
  object : ∀ x ∈ xs, ∀ ref, x.1.row = .obj ref → ∀ old, s.mem.taskRuns[ref]? = some old →
    s'.mem.taskRuns[ref]? = (s'.db.taskRun old.runId).or (some old)
  otherObjects : ∀ ref < s.mem.taskRuns.length, (∀ x ∈ xs, x.1.row ≠ .obj ref) →
    s'.mem.taskRuns[ref]? = s.mem.taskRuns[ref]?
  length : s.mem.taskRuns.length ≤ s'.mem.taskRuns.length

section Batch

/-- The rows a call builds, with their objects. -/
abbrev news (s : Shared) (us : List UpdateRow) : List TaskRunObj := built s.clock (made s us)

theorem mem_news {o : TaskRunObj} : o ∈ news s us ↔
    ∃ x ∈ timed s (fetchedObjects s us) s.clock us, builtFor s (fetchedObjects s us) x = some o := by
  rw [news, made, built_dues, List.mem_filterMap]

theorem mem_of_mem_timed {x : UpdateRow × ℕ} {n : ℕ} (hx : x ∈ timed s (fetchedObjects s us) n us) :
    x.1 ∈ us := by
  have hmem := List.mem_map_of_mem (f := Prod.fst) hx
  rwa [map_fst_timed] at hmem

theorem origin_of_built {x : UpdateRow × ℕ} {o : TaskRunObj}
    (h : builtFor s (fetchedObjects s us) x = some o) : Origin s us x.1 o := by
  obtain ⟨o, hdue, rfl⟩ := Option.map_eq_some_iff.mp h
  have horigin := origin_of_due hdue
  have hid := TaskRunRow.runId_of_ident
    (TaskRunRow.ident_buildRow o.row x.1.state x.1.operationId ⟨x.2, true⟩)
  exact ⟨by rw [hid]; exact horigin.runId, by rw [hid]; exact horigin.held, horigin.target⟩

theorem nodup_timed (h : Distinct s.mem.taskRuns us) (n : ℕ) :
    ((timed s (fetchedObjects s us) n us).map fun x => runId? s.mem.taskRuns x.1).Nodup := by
  have hmap : ((timed s (fetchedObjects s us) n us).map fun x => runId? s.mem.taskRuns x.1) =
      ((timed s (fetchedObjects s us) n us).map Prod.fst).map (runId? s.mem.taskRuns) := by
    rw [List.map_map]
    rfl
  rw [hmap, map_fst_timed]
  exact h.nodup

/-- The objects written to are different ones. -/
theorem nodup_refs_news (h : Distinct s.mem.taskRuns us) : ((news s us).map TaskRunObj.ref).Nodup := by
  rw [news, made, built_dues, List.Nodup, List.pairwise_map]
  refine (List.pairwise_map.mp (nodup_timed h s.clock)).filterMap _ fun x y hne o ho o' ho' => ?_
  exact (origin_of_built ho).ref_ne (origin_of_built ho') hne

theorem nodup_keys_news (h : Distinct s.mem.taskRuns us) :
    (((news s us).map fun u => Row.taskRun u.row).map Keyed.key).Nodup := by
  rw [news, made, built_dues, List.map_map, List.Nodup, List.pairwise_map]
  refine (List.pairwise_map.mp (nodup_timed h s.clock)).filterMap _ fun x y hne o ho o' ho' => ?_
  intro hkey
  have hid : o.row.runId = o'.row.runId := by simpa using hkey
  rw [(origin_of_built ho).runId, (origin_of_built ho').runId, hid] at hne
  exact hne rfl

theorem nodup_refs_refreshed (h : Distinct s.mem.taskRuns us) :
    ((us.filterMap (refreshed s.mem.taskRuns (fetchedObjects s us))).map TaskRunObj.ref).Nodup := by
  rw [List.Nodup, List.pairwise_map]
  refine (List.pairwise_map.mp h.nodup).filterMap _ fun u u' hne o ho o' ho' => ?_
  exact (origin_of_refreshed ho).ref_ne (origin_of_refreshed ho') hne

/-- The row written for a TaskRun is persisted. -/
theorem taskRun_of_mem_news (h : Distinct s.mem.taskRuns us) {o : TaskRunObj} (ho : o ∈ news s us) :
    Db.taskRun (s.db.upsertAll ((news s us).map fun u => .taskRun u.row)) o.row.runId = some o.row := by
  rw [Db.taskRun, Db.get_eq_some]
  exact Table.find_upsertAll_of_nodup (nodup_keys_news h) (List.mem_map_of_mem ho) s.db

theorem find_of_not_written {k : RowKey} (hk : ∀ o ∈ news s us, k ≠ .taskRun o.row.runId) :
    Table.find (s.db.upsertAll ((news s us).map fun u => .taskRun u.row)) k = s.db.find k := by
  apply Table.find_upsertAll_of_not_written
  intro r hr hkey
  obtain ⟨o, ho, rfl⟩ := List.mem_map.mp hr
  exact hk o ho hkey.symm

/-- An object written to holds the row written last. -/
theorem heapAfter_of_mem_news (h : Distinct s.mem.taskRuns us) {o : TaskRunObj} (ho : o ∈ news s us) :
    (heapAfter s us)[o.ref]? = some o.row := by
  apply getElem?_setAll_of_mem (nodup_refs_news h) ho
  obtain ⟨x, _, hbuilt⟩ := mem_news.mp ho
  obtain ⟨row, hget, _⟩ := Option.map_eq_some_iff.mp (origin_of_built hbuilt).held
  rw [length_setAll]
  exact (List.getElem?_eq_some_iff.mp hget).1

theorem mem_us_of_news {o : TaskRunObj} (ho : o ∈ news s us) :
    ∃ u ∈ us, Origin s us u o := by
  obtain ⟨x, hx, hbuilt⟩ := mem_news.mp ho
  exact ⟨x.1, mem_of_mem_timed hx, origin_of_built hbuilt⟩

/-- An object of an update that is not made is left equal to the persisted row, if there is one. -/
theorem refreshed_or_kept (h : Distinct s.mem.taskRuns us) (hu : u ∈ us) {ref : Ref}
    (hobj : u.row = .obj ref) {old : TaskRunRow} (hget : s.mem.taskRuns[ref]? = some old)
    (hdue : due s.mem.taskRuns (fetchedObjects s us) u = none) :
    (setAll (us.filterMap (refreshed s.mem.taskRuns (fetchedObjects s us))) (fetchedHeap s us))[ref]? =
      (s.db.taskRun old.runId).or (some old) := by
  have hrequires : u.requires.nonempty = true := by
    by_contra hnone
    rw [Bool.not_eq_true] at hnone
    simp [due, targeted, hobj, hget, hnone] at hdue
  have hlt := (List.getElem?_eq_some_iff.mp hget).1
  have hlookup := map_row_lookup (mem_rids_of_obj hu hobj hget hrequires)
  have hrefreshed : refreshed s.mem.taskRuns (fetchedObjects s us) u =
      (lookup (fetchedObjects s us) old.runId).map fun found => ⟨ref, found.row⟩ := by
    simp [refreshed, hobj, hget, hrequires]
  cases hfound : lookup (fetchedObjects s us) old.runId with
  | some found =>
    rw [hfound, Option.map_some] at hlookup hrefreshed
    rw [← hlookup]
    refine getElem?_setAll_of_mem (o := ⟨ref, found.row⟩) (nodup_refs_refreshed h)
      (List.mem_filterMap.mpr ⟨u, hu, hrefreshed⟩) ?_
    rw [List.length_append]
    exact Nat.lt_add_right _ hlt
  | none =>
    rw [hfound, Option.map_none] at hlookup hrefreshed
    rw [← hlookup, Option.none_or, getElem?_setAll_of_not_mem fun o ho href => ?_,
      List.getElem?_append_left hlt, hget]
    obtain ⟨u', hu', ho⟩ := List.mem_filterMap.mp ho
    have hobj' := ref_of_refreshed ho
    rw [href] at hobj'
    have hsame : u' = u := List.inj_on_of_nodup_map h.nodup hu' hu (by rw [runId?, runId?, hobj, hobj'])
    rw [hsame, hrefreshed] at ho
    cases ho

/-- What is built for a run id is built for the one update of it. -/
theorem builtFor_of_runId (h : Distinct s.mem.taskRuns us) {x : UpdateRow × ℕ} {o : TaskRunObj}
    (hx : x ∈ timed s (fetchedObjects s us) s.clock us) (ho : o ∈ news s us)
    (hid : runId? s.mem.taskRuns x.1 = some o.row.runId) :
    builtFor s (fetchedObjects s us) x = some o := by
  obtain ⟨y, hy, hbuilt⟩ := mem_news.mp ho
  rwa [List.inj_on_of_nodup_map (nodup_timed h s.clock) hx hy
    (hid.trans (origin_of_built hbuilt).runId.symm)]

theorem builtFor_of_ref (h : Distinct s.mem.taskRuns us) {x : UpdateRow × ℕ} {o : TaskRunObj}
    (hx : x ∈ timed s (fetchedObjects s us) s.clock us) (ho : o ∈ news s us)
    (hrow : x.1.row = .obj o.ref) : builtFor s (fetchedObjects s us) x = some o := by
  apply builtFor_of_runId h hx ho
  obtain ⟨old, hget⟩ := h.known x.1 (mem_of_mem_timed hx) o.ref hrow
  obtain ⟨u, _, horigin⟩ := mem_us_of_news ho
  have hheld := horigin.held
  rw [List.getElem?_append_left (List.getElem?_eq_some_iff.mp hget).1] at hheld
  simpa only [runId?, hrow] using hheld

/-- The persisted row of an update is the one that is built for it. -/
theorem taskRun_of_call (h : Distinct s.mem.taskRuns us)
    (hdb : s'.db = s.db.upsertAll ((news s us).map fun u => .taskRun u.row)) {x : UpdateRow × ℕ}
    (hx : x ∈ timed s (fetchedObjects s us) s.clock us) (hid : runId? s.mem.taskRuns x.1 = some id) :
    s'.db.taskRun id = ((x.1.chosen s).map fun row => row.buildRow x.1.state x.1.operationId ⟨x.2, true⟩).or
      (s.db.taskRun id) := by
  have hmap := map_row_due (s := s) (mem_of_mem_timed hx)
  cases hdue : due s.mem.taskRuns (fetchedObjects s us) x.1 with
  | some o =>
    rw [hdue] at hmap
    have hbuilt : builtFor s (fetchedObjects s us) x =
        some ⟨o.ref, o.row.buildRow x.1.state x.1.operationId ⟨x.2, true⟩⟩ := by
      rw [builtFor, hdue, Option.map_some]
    have hrun := (origin_of_built hbuilt).runId
    rw [hid, Option.some.injEq] at hrun
    rw [← hmap, hdb, hrun, taskRun_of_mem_news h (mem_news.mpr ⟨x, hx, hbuilt⟩)]
    rfl
  | none =>
    rw [hdue] at hmap
    rw [← hmap, Option.map_none, Option.map_none, Option.none_or, hdb, Db.taskRun, Db.get,
      find_of_not_written fun o ho hkey => ?_]
    · rfl
    · have hbuilt := builtFor_of_runId h hx ho (hid.trans (congrArg some (RowKey.taskRun.inj hkey)))
      rw [builtFor, hdue] at hbuilt
      cases hbuilt

/-- The object of an update holds the persisted row. -/
theorem object_of_call (h : Distinct s.mem.taskRuns us)
    (hdb : s'.db = s.db.upsertAll ((news s us).map fun u => .taskRun u.row)) {x : UpdateRow × ℕ}
    (hx : x ∈ timed s (fetchedObjects s us) s.clock us) {ref : Ref} (hobj : x.1.row = .obj ref)
    {old : TaskRunRow} (hget : s.mem.taskRuns[ref]? = some old) :
    (heapAfter s us)[ref]? = (s'.db.taskRun old.runId).or (some old) := by
  have hid : runId? s.mem.taskRuns x.1 = some old.runId := by
    simp only [runId?, hobj, hget, Option.map_some]
  cases hbuilt : builtFor s (fetchedObjects s us) x with
  | some o =>
    have ho : o ∈ news s us := mem_news.mpr ⟨x, hx, hbuilt⟩
    have horigin := origin_of_built hbuilt
    have hrun := horigin.runId
    have href := horigin.target
    rw [hid, Option.some.injEq] at hrun
    simp only [hobj] at href
    rw [hdb, hrun, taskRun_of_mem_news h ho, ← href, heapAfter_of_mem_news h ho]
    rfl
  | none =>
    have hdue : due s.mem.taskRuns (fetchedObjects s us) x.1 = none := by
      simpa [builtFor] using hbuilt
    have hkept : (heapAfter s us)[ref]? =
        (setAll (us.filterMap (refreshed s.mem.taskRuns (fetchedObjects s us))) (fetchedHeap s us))[ref]? := by
      apply getElem?_setAll_of_not_mem
      rintro o ho rfl
      rw [builtFor_of_ref h hx ho hobj] at hbuilt
      cases hbuilt
    rw [hkept, taskRun_of_call h hdb hx hid, ← map_row_due (mem_of_mem_timed hx), hdue, Option.map_none,
      Option.map_none, Option.none_or]
    exact refreshed_or_kept h (mem_of_mem_timed hx) hobj hget hdue

/-- An object that no update is given stays. -/
theorem heapAfter_of_not_given {ref : ℕ} (hlt : ref < s.mem.taskRuns.length)
    (hother : ∀ u ∈ us, u.row ≠ .obj ref) : (heapAfter s us)[ref]? = s.mem.taskRuns[ref]? := by
  have hgiven : ∀ {u o}, u ∈ us → Origin s us u o → o.ref ≠ ref := by
    rintro u o hu horigin rfl
    have htarget := horigin.target
    cases hobj : u.row with
    | id runId =>
      simp only [hobj] at htarget
      omega
    | obj given =>
      simp only [hobj] at htarget
      exact hother u hu (htarget ▸ hobj)
  rw [heapAfter, getElem?_setAll_of_not_mem fun o ho => ?_, getElem?_setAll_of_not_mem fun o ho => ?_,
    List.getElem?_append_left hlt]
  · obtain ⟨u, hu, hrefreshed⟩ := List.mem_filterMap.mp ho
    exact hgiven hu (origin_of_refreshed hrefreshed)
  · obtain ⟨u, hu, horigin⟩ := mem_us_of_news ho
    exact hgiven hu horigin

/-- A call makes its updates, each at the time its row is built. -/
theorem made_of_call (h : Distinct s.mem.taskRuns us) (hopen : s'.opened (.thread i) = [])
    (hdb : s'.db = s.db.upsertAll ((news s us).map fun u => .taskRun u.row))
    (hheap : s'.mem.taskRuns = heapAfter s us) :
    Made i s (timed s (fetchedObjects s us) s.clock us) s' where
  opened := hopen
  row x hx id hid := taskRun_of_call h hdb hx hid
  otherRows k hk := by
    rw [hdb]
    refine find_of_not_written fun o ho => ?_
    obtain ⟨x, hx, hbuilt⟩ := mem_news.mp ho
    exact hk x hx _ (origin_of_built hbuilt).runId
  object x hx ref hobj old hget := by
    rw [hheap]
    exact object_of_call h hdb hx hobj hget
  otherObjects ref hlt hother := by
    rw [hheap]
    refine heapAfter_of_not_given hlt fun u hu => ?_
    have hfst : u ∈ (timed s (fetchedObjects s us) s.clock us).map Prod.fst := by rwa [map_fst_timed]
    obtain ⟨x, hx, rfl⟩ := List.mem_map.mp hfst
    exact hother x hx
  length := by
    rw [hheap, heapAfter, length_setAll, length_setAll, List.length_append]
    exact Nat.le_add_right _ _

theorem requested_buildRow (u : UpdateRow) (row : TaskRunRow) (now : Iso) :
    Requested (u, row) (row.buildRow u.state u.operationId now) := by
  refine ⟨TaskRunRow.ident_buildRow _ _ _ _, ?_, ?_⟩
  · show _ = u.state.getD row.state
    cases u.state with
    | none => exact TaskRunRow.state_buildRow_none _ _ _
    | some state => exact TaskRunRow.state_buildRow _ _ _ _
  · show _ = u.operationId.or row.operationId
    cases u.operationId with
    | none => exact TaskRunRow.operationId_buildRow_none _ _ _
    | some operation => exact TaskRunRow.operationId_buildRow _ _ _ _

/-- What is built and returned matches the updates to make. -/
theorem chosen_news (h : Distinct s.mem.taskRuns us)
    (hdb : s'.db = s.db.upsertAll ((news s us).map fun u => .taskRun u.row))
    (hheap : s'.mem.taskRuns = heapAfter s us) :
    List.Forall₂ (fun x o => Requested x o.row ∧ HandedBack s s' x o.ref)
      (chosenUpdates s us) (news s us) := by
  have hchosen : chosenUpdates s us = (timed s (fetchedObjects s us) s.clock us).filterMap
      fun x => (x.1.chosen s).map (x.1, ·) := by
    calc chosenUpdates s us
        = ((timed s (fetchedObjects s us) s.clock us).map Prod.fst).filterMap
            fun u => (u.chosen s).map (u, ·) := by rw [map_fst_timed]; rfl
      _ = _ := List.filterMap_map
  rw [hchosen, news, made, built_dues]
  refine Sequences.forall₂_filterMap fun x hx => ?_
  rw [← map_row_due (mem_of_mem_timed hx)]
  cases hdue : due s.mem.taskRuns (fetchedObjects s us) x.1 with
  | none =>
    rw [builtFor, hdue]
    exact .none
  | some o =>
    have hbuilt : builtFor s (fetchedObjects s us) x =
        some ⟨o.ref, o.row.buildRow x.1.state x.1.operationId ⟨x.2, true⟩⟩ := by
      rw [builtFor, hdue, Option.map_some]
    have ho := mem_news.mpr ⟨x, hx, hbuilt⟩
    rw [hbuilt, Option.map_some, Option.map_some]
    refine .some ⟨requested_buildRow _ _ _, (origin_of_due hdue).target,
      o.row.buildRow x.1.state x.1.operationId ⟨x.2, true⟩, ?_, ?_⟩
    · rw [hheap]
      exact heapAfter_of_mem_news h ho
    · have hpersisted := taskRun_of_mem_news h ho
      rw [TaskRunRow.runId_of_ident (TaskRunRow.ident_buildRow _ _ _ _)] at hpersisted
      rw [hdb]
      exact hpersisted

/-- `set_state` alone does what its updates ask for. -/
theorem told_of_call (h : Distinct s.mem.taskRuns us)
    (hdb : s'.db = s.db.upsertAll ((news s us).map fun u => .taskRun u.row))
    (hheap : s'.mem.taskRuns = heapAfter s us) (hmade : Made i s (timed s (fetchedObjects s us) s.clock us) s') :
    Told s us ((news s us).map TaskRunObj.ref) s' := by
  have hnews := chosen_news h hdb hheap
  refine ⟨⟨(news s us).map (·.row), ?_, ?_⟩, ?_, ?_⟩
  · exact List.forall₂_map_right_iff.mpr (hnews.imp fun _ _ => And.left)
  · rw [hdb, List.map_map]
    rfl
  · exact List.forall₂_map_right_iff.mpr (hnews.imp fun _ _ => And.right)
  · intro u hu ref hobj _ row hget hpersisted
    have hfst : u ∈ (timed s (fetchedObjects s us) s.clock us).map Prod.fst := by rwa [map_fst_timed]
    obtain ⟨x, hx, rfl⟩ := List.mem_map.mp hfst
    have hid : runId? s.mem.taskRuns x.1 = some row.runId := by
      simp only [runId?, hobj, hget, Option.map_some]
    obtain ⟨old, hold⟩ := Option.isSome_iff_exists.mp hpersisted
    rw [hmade.object x hx ref hobj row hget, hmade.row x hx _ hid, hold]
    cases x.1.chosen s <;> rfl

end Batch

/-! ### One at a time -/

section OneByOne

variable {xs ys : List (UpdateRow × ℕ)} {x : UpdateRow × ℕ} {s₁ s₂ : Shared}

/-- The first update leaves the TaskRuns of the others, and their objects, alone. -/
theorem Made.others (h : Made i s [x] s₁) (hd : Distinct s.mem.taskRuns (x.1 :: us)) (hu : u ∈ us) :
    (∀ ref, u.row = .obj ref → s₁.mem.taskRuns[ref]? = s.mem.taskRuns[ref]?) ∧
      ∀ id, runId? s.mem.taskRuns u = some id → s₁.db.taskRun id = s.db.taskRun id := by
  constructor
  · intro ref hobj
    obtain ⟨old, hget⟩ := hd.known u (List.mem_cons_of_mem _ hu) ref hobj
    refine h.otherObjects ref (List.getElem?_eq_some_iff.mp hget).1 ?_
    rw [List.forall_mem_singleton]
    exact fun hx => hd.ref_ne hu hx hobj rfl
  · intro id hid
    have hnodup := hd.nodup
    rw [List.map_cons, List.nodup_cons] at hnodup
    have hfind := h.otherRows (.taskRun id) (by
      rw [List.forall_mem_singleton]
      rintro id' hid' hkey
      rw [← RowKey.taskRun.inj hkey, ← hid] at hid'
      exact hnodup.1 (hid' ▸ List.mem_map_of_mem hu))
    exact congrArg (fun row => Option.bind row RowKind.proj) hfind

theorem Made.chosen_eq (h : Made i s [x] s₁) (hd : Distinct s.mem.taskRuns (x.1 :: us)) (hu : u ∈ us) :
    u.chosen s₁ = u.chosen s := by
  obtain ⟨hobjects, hrows⟩ := h.others hd hu
  rw [UpdateRow.chosen, UpdateRow.chosen, UpdateRow.base, UpdateRow.base]
  cases hrow : u.row with
  | id runId => simp only [hrows runId (by rw [runId?, hrow])]
  | obj ref =>
    simp only [hobjects ref hrow]
    cases hget : s.mem.taskRuns[ref]? with
    | none => rfl
    | some row =>
      simp only [Option.bind_some, hrows row.runId (by simp only [runId?, hrow, hget, Option.map_some])]

theorem Made.runId?_eq (h : Made i s [x] s₁) (hd : Distinct s.mem.taskRuns (x.1 :: us)) (hu : u ∈ us) :
    runId? s₁.mem.taskRuns u = runId? s.mem.taskRuns u := runId?_congr (h.others hd hu).1

theorem Made.distinct (h : Made i s [x] s₁) (hd : Distinct s.mem.taskRuns (x.1 :: us)) :
    Distinct s₁.mem.taskRuns us := by
  refine ⟨fun u hu ref hobj => ?_, ?_⟩
  · rw [(h.others hd hu).1 ref hobj]
    exact hd.known u (List.mem_cons_of_mem _ hu) ref hobj
  · rw [List.map_congr_left fun u hu => h.runId?_eq hd hu]
    exact (List.nodup_cons.mp hd.nodup).2

/-- The others leave the TaskRun of the first update alone. -/
theorem Made.first_kept (h : Made i s [x] s₁) (hrest : Made i s₁ xs s₂)
    (hd : Distinct s.mem.taskRuns (x.1 :: xs.map Prod.fst)) {id : Uuid}
    (hid : runId? s.mem.taskRuns x.1 = some id) : s₂.db.taskRun id = s₁.db.taskRun id := by
  have hnodup := hd.nodup
  rw [List.map_cons, List.nodup_cons] at hnodup
  have hfind := hrest.otherRows (.taskRun id) (by
    intro y hy id' hid' hkey
    have hmem := List.mem_map_of_mem (f := Prod.fst) hy
    rw [h.runId?_eq hd hmem, ← RowKey.taskRun.inj hkey, ← hid] at hid'
    exact hnodup.1 (hid' ▸ List.mem_map_of_mem hmem))
  exact congrArg (fun row => Option.bind row RowKind.proj) hfind

theorem Made.cons (h : Made i s [x] s₁) (hrest : Made i s₁ xs s₂)
    (hd : Distinct s.mem.taskRuns (x.1 :: xs.map Prod.fst)) : Made i s (x :: xs) s₂ := by
  have hx : x ∈ [x] := List.mem_singleton_self x
  refine ⟨hrest.opened, ?_, ?_, ?_, ?_, h.length.trans hrest.length⟩
  · intro y hy id hid
    rcases List.mem_cons.mp hy with rfl | hy
    · rw [h.first_kept hrest hd hid]
      exact h.row y hx id hid
    · have hmem := List.mem_map_of_mem (f := Prod.fst) hy
      rw [hrest.row y hy id ((h.runId?_eq hd hmem).trans hid), h.chosen_eq hd hmem,
        (h.others hd hmem).2 id hid]
  · intro k hk
    rw [List.forall_mem_cons] at hk
    rw [hrest.otherRows k fun y hy id hid => ?_, h.otherRows k (List.forall_mem_singleton.mpr hk.1)]
    rw [h.runId?_eq hd (List.mem_map_of_mem hy)] at hid
    exact hk.2 y hy id hid
  · intro y hy ref hobj old hget
    rcases List.mem_cons.mp hy with rfl | hy
    · have hlt := (List.getElem?_eq_some_iff.mp hget).1
      rw [h.first_kept hrest hd (by simp only [runId?, hobj, hget, Option.map_some]),
        hrest.otherObjects ref (hlt.trans_le h.length) fun z hz hobj' => ?_]
      · exact h.object y hx ref hobj old hget
      · exact hd.ref_ne (List.mem_map_of_mem hz) hobj hobj' rfl
    · rw [← (h.others hd (List.mem_map_of_mem hy)).1 ref hobj] at hget
      exact hrest.object y hy ref hobj old hget
  · intro ref hlt hother
    rw [List.forall_mem_cons] at hother
    rw [hrest.otherObjects ref (hlt.trans_le h.length) hother.2,
      h.otherObjects ref hlt (List.forall_mem_singleton.mpr hother.1)]

/-- The updates can be made one at a time, at any times. -/
theorem oneByOne_makes (hopen : s.opened (.thread i) = [])
    (hd : Distinct s.mem.taskRuns (xs.map Prod.fst)) :
    ∃ s', OneByOne i xs s s' ∧ Made i s xs s' := by
  induction xs generalizing s with
  | nil =>
    exact ⟨s, .nil s, hopen, fun x hx => (nomatch hx), fun _ _ => rfl, fun x hx => (nomatch hx),
      fun _ _ _ => rfl, le_rfl⟩
  | cons x xs ih =>
    obtain ⟨u, time⟩ := x
    have hone : Distinct s.mem.taskRuns [u] := by
      refine ⟨fun v hv => hd.known v ?_, List.nodup_singleton _⟩
      rw [List.mem_singleton.mp hv]
      exact List.mem_cons_self
    obtain ⟨s₁, hcall, hdb, hopen₁, hheap⟩ := yields_updates (i := i) (s := { s with clock := time })
      hopen hone
    have hcalled := made_of_call (s := { s with clock := time }) hone hopen₁ hdb hheap
    have hmade : Made i s [(u, time)] s₁ := ⟨hcalled.opened, hcalled.row, hcalled.otherRows,
      hcalled.object, hcalled.otherObjects, hcalled.length⟩
    obtain ⟨s₂, hcalls, hrest⟩ := ih hopen₁ (hmade.distinct hd)
    exact ⟨s₂, .cons hcall hcalls, hmade.cons hrest hd⟩

/-- Updates of different TaskRuns have the same effect in any order. -/
theorem Made.sameEffect (h₁ : Made i s xs s₁) (h₂ : Made i s ys s₂) (hperm : xs.Perm ys)
    (hd : Distinct s.mem.taskRuns (xs.map Prod.fst)) : SameEffect s s₁ s₂ := by
  have hrow : ∀ y ∈ xs, ∀ id, runId? s.mem.taskRuns y.1 = some id →
      s₁.db.taskRun id = s₂.db.taskRun id := by
    intro y hy id hid
    rw [h₁.row y hy id hid, h₂.row y (hperm.mem_iff.mp hy) id hid]
  have hfind : ∀ (db : Db) (id : Uuid), db.find (.taskRun id) = (db.taskRun id).map .taskRun := by
    intro db id
    cases hget : db.taskRun id with
    | some r => exact Db.get_eq_some.mp hget
    | none =>
      rw [Option.map_none, Option.eq_none_iff_forall_ne_some]
      intro r hr
      obtain ⟨a, rfl⟩ := RowKind.exists_of_key (α := TaskRunRow) (Table.key_of_find hr)
      rw [Db.taskRun, Db.get_eq_some.mpr hr] at hget
      cases hget
  constructor
  · intro k
    by_cases hk : ∃ y ∈ xs, ∃ id, runId? s.mem.taskRuns y.1 = some id ∧ k = .taskRun id
    · obtain ⟨y, hy, id, hid, rfl⟩ := hk
      rw [hfind, hfind, hrow y hy id hid]
    · push Not at hk
      rw [h₁.otherRows k hk, h₂.otherRows k fun y hy => hk y (hperm.mem_iff.mpr hy)]
  · intro ref hlt
    by_cases hobj : ∃ y ∈ xs, y.1.row = .obj ref
    · obtain ⟨y, hy, hobj⟩ := hobj
      obtain ⟨old, hget⟩ := hd.known y.1 (List.mem_map_of_mem hy) ref hobj
      rw [h₁.object y hy ref hobj old hget, h₂.object y (hperm.mem_iff.mp hy) ref hobj old hget,
        hrow y hy _ (by simp only [runId?, hobj, hget, Option.map_some])]
    · push Not at hobj
      rw [h₁.otherObjects ref hlt hobj,
        h₂.otherObjects ref hlt fun y hy => hobj y (hperm.mem_iff.mpr hy)]

end OneByOne

/-! ### A refused upsert -/

/-- The upsert raises. -/
def Refused {κ : Type} (env : Environment Op Choice κ) (o : Op) (t : κ × Loc × Shared) : Prop :=
  ∀ c rows, o = .insert c rows → (env.choose t.1 o).fail ≠ none

/-- The tables are those of `s`, and no transaction of thread `i` on the global client has writes. -/
def Untouched (i : ℕ) (s s' : Shared) : Prop :=
  s'.store = s.store ∧ ∀ x ∈ s'.opened .global, x.1 = i → x.2.writes = []

theorem Untouched.step {κ : Type} {env : Environment Op Choice κ} {o : Op} {t : κ × Loc × Shared}
    (ho : Makes us o) (hrefused : Refused env o t) (h : Untouched i s t.2.2) :
    Untouched i s (system.alone i env o t).2.2.2 := by
  constructor
  · rcases Op.exec_store o i (env.choose t.1 o) t.2.1 t.2.2 with
      hsame | ⟨c, rows, rfl, hok, _⟩ | ⟨c, tx, rfl, _, htx, hwrites, _⟩
    · exact hsame.trans h.1
    · exact absurd hok (hrefused c rows rfl)
    · obtain rfl : c = some .global := ho
      obtain ⟨x, hx, rfl⟩ := Option.map_eq_some_iff.mp htx
      have hmine : x.1 = i := by simpa using List.find?_some hx
      exact absurd (h.2 x (List.mem_of_find?_eq_some hx) hmine) hwrites
  · intro x hx hmine
    rcases Op.exec_opened (fun c rows ho => Or.inl (hrefused c rows ho)) hx with hx | rfl
    · exact h.2 x hx hmine
    · rfl

/-- If the upsert raises, the tables are unchanged. -/
theorem store_of_refused {κ : Type} {env : Environment Op Choice κ} {k k' : κ} {l l' : Loc}
    {r : Except Exn (List Ref)} (hglobal : ∀ x ∈ s.opened .global, x.1 ≠ i)
    (hends : (setState us).Ends (system.alone i env) (k, l, s) r (k', l', s'))
    (hrefused : (setState us).Sure (system.alone i env) (Refused env) (k, l, s)) :
    s'.store = s.store := by
  have huntouched : Untouched i s s' :=
    hends.keeps_of_sure (P := fun t => Untouched i s t.2.2)
      (fun o t ho hc ht => ht.step ho hc) (uses_setState us) hrefused
      ⟨rfl, fun x hx hmine => absurd hmine (hglobal x hx)⟩
  exact huntouched.1

end TaskRun

/-- `set_state`, called by a thread that runs alone and is in no transaction, with updates of
different TaskRuns, does what they ask for; making them one at a time, in any order and at the times
at which the call builds their rows, has the same effect; and if the upsert raises the tables are
unchanged. -/
theorem set_state_does_as_told {i : ℕ} {s : Shared} {us : List UpdateRow}
    (hopen : s.opened (.thread i) = []) (hglobal : ∀ x ∈ s.opened .global, x.1 ≠ i)
    (h : TaskRun.Distinct s.mem.taskRuns us) :
    (∃ trs s', Yields i (TaskRun.setState us) s trs s' ∧ Told s us trs s' ∧
      ∃ timed : List (UpdateRow × ℕ), timed.map Prod.fst = us ∧ ∀ order : List (UpdateRow × ℕ),
        order.Perm timed → ∃ s'', OneByOne i order s s'' ∧ SameEffect s s' s'') ∧
    ∀ (κ : Type) (env : Environment Op Choice κ) k l r k' l' s',
      (TaskRun.setState us).Ends (system.alone i env) (k, l, s) r (k', l', s') →
      (TaskRun.setState us).Sure (system.alone i env) (TaskRun.Refused env) (k, l, s) →
      s'.store = s.store := by
  constructor
  · obtain ⟨s', hcall, hdb, hopen', hheap⟩ := TaskRun.yields_updates (i := i) hopen h
    have hmade := TaskRun.made_of_call h hopen' hdb hheap
    refine ⟨_, s', hcall, TaskRun.told_of_call h hdb hheap hmade,
      TaskRun.timed s (TaskRun.fetchedObjects s us) s.clock us, TaskRun.map_fst_timed _ _ _, ?_⟩
    intro order hperm
    have hfst : (order.map Prod.fst).Perm us := by
      have hmap := hperm.map Prod.fst
      rwa [TaskRun.map_fst_timed] at hmap
    have hd : TaskRun.Distinct s.mem.taskRuns (order.map Prod.fst) :=
      ⟨fun u hu => h.known u (hfst.mem_iff.mp hu), ((hfst.map _).nodup_iff).mpr h.nodup⟩
    obtain ⟨s'', hcalls, hmade'⟩ := TaskRun.oneByOne_makes hopen hd
    refine ⟨s'', hcalls, hmade.sameEffect hmade' hperm.symm ?_⟩
    rwa [TaskRun.map_fst_timed]
  · intro κ env k l r k' l' s' hends hrefused
    exact TaskRun.store_of_refused hglobal hends hrefused

/-- A batch for a persisted TaskRun by its id, for a TaskRun object with requirements, and for one
without. -/
def mixedUpdates : List UpdateRow :=
  [{ row := .id 3, state := some .queued },
   { row := .obj 0, state := some .running, operationId := some 9,
     requires := { state := some (.mem [.queued, .scheduled]) } },
   { row := .obj 1, state := some .failed }]

def mixedTaskRuns : Shared where
  store :=
    ⟨⟨[.taskRun { runId := 2, taskId := "extract", dagId := 0, dagrunId := 1, state := .success },
      .taskRun { runId := 3, taskId := "load", dagId := 0, dagrunId := 1, state := .scheduled }],
      by decide⟩, []⟩
  mem :=
    { taskRuns :=
        [{ runId := 2, taskId := "extract", dagId := 0, dagrunId := 1, state := .queued },
         { runId := 7, taskId := "extract", dagId := 0, dagrunId := 6, state := .running }] }

theorem mixedUpdates_done :
    (∃ trs s', Yields 0 (TaskRun.setState mixedUpdates) mixedTaskRuns trs s' ∧
      Told mixedTaskRuns mixedUpdates trs s' ∧
      ∃ timed : List (UpdateRow × ℕ), timed.map Prod.fst = mixedUpdates ∧
        ∀ order : List (UpdateRow × ℕ), order.Perm timed →
          ∃ s'', OneByOne 0 order mixedTaskRuns s'' ∧ SameEffect mixedTaskRuns s' s'') ∧
    ∀ (κ : Type) (env : Environment Op Choice κ) k l r k' l' s',
      (TaskRun.setState mixedUpdates).Ends (system.alone 0 env) (k, l, mixedTaskRuns) r (k', l', s') →
      (TaskRun.setState mixedUpdates).Sure (system.alone 0 env) (TaskRun.Refused env)
        (k, l, mixedTaskRuns) →
      s'.store = mixedTaskRuns.store := by
  refine set_state_does_as_told rfl (fun x hx => nomatch hx) ⟨?_, by decide⟩
  intro u hu ref hobj
  rw [← Option.isSome_iff_exists]
  simp only [mixedUpdates, List.mem_cons, List.not_mem_nil, or_false] at hu
  rcases hu with rfl | rfl | rfl
  · cases hobj
  · cases hobj
    decide
  · cases hobj
    decide

end YtScheduler
