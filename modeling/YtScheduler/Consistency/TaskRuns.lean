import YtScheduler.Consistency.Statements

/-! What the statements of TaskRuns do: fetched objects stand for the rows of one
snapshot, and `set_state` writes for each update the row it names, in the state the
update sets. Outside a transaction its batch is one commit that replaces rows. -/

namespace YtScheduler

open Tablet Threads

variable {i : ℕ} {m : Option ℕ} {w : List Row} {l : Loc} {s s' : Shared}

section Zip

variable {α β : Type}

theorem mem_zipWith_range' {f : ℕ → α → β} {a : ℕ} {rows : List α} {x : β}
    (h : x ∈ List.zipWith f (List.range' a rows.length) rows) :
    ∃ k row, rows[k]? = some row ∧ x = f (a + k) row := by
  obtain ⟨k, hk, rfl⟩ := List.getElem_of_mem h
  have hk' : k < rows.length := by simpa using hk
  exact ⟨k, rows[k], List.getElem?_eq_getElem hk', by simp⟩

theorem map_zipWith_range' {f : ℕ → α → β} {g : β → α} (hg : ∀ n x, g (f n x) = x) (a : ℕ)
    (rows : List α) : (List.zipWith f (List.range' a rows.length) rows).map g = rows := by
  refine List.ext_getElem (by simp) fun n h1 h2 => ?_
  simp [hg]

end Zip

/-- The objects were built from the rows a filter selects in the tables of time `ts`. -/
structure Fetched (s : Shared) (ts : ℕ) (flt : TaskRunFilter) (trs : List TaskRunObj) : Prop where
  rows : trs.map TaskRunObj.row = flt.select s.engine (s.store.asOf ts)
  refs : ∀ tr ∈ trs, s.trIdent tr.ref = some tr.row.ident
  le_now : ts ≤ s.store.now
  persists : Persists (s.store.asOf ts) s.db

namespace Fetched

variable {ts : ℕ} {flt : TaskRunFilter} {trs : List TaskRunObj}

theorem mono (h : Fetched s ts flt trs) (hg : Grows s s') : Fetched s' ts flt trs := by
  have heq := hg.store.asOf_eq h.le_now
  refine ⟨?_, fun tr htr => hg.taskRuns _ _ (h.refs tr htr), h.le_now.trans hg.store.now_le, ?_⟩
  · rw [heq, hg.knows.engine]
    exact h.rows
  · rw [heq]
    exact h.persists.trans hg.tables

theorem mem (h : Fetched s ts flt trs) {tr : TaskRunObj} (htr : tr ∈ trs) :
    Db.taskRun (s.store.asOf ts) tr.row.runId = some tr.row ∧ flt.accepts s.engine tr.row = true :=
  mem_select_taskRuns (h.rows ▸ List.mem_map_of_mem htr)

theorem hasTaskRun (h : Fetched s ts flt trs) {tr : TaskRunObj} (htr : tr ∈ trs) :
    HasTaskRun s tr.row.ident := by
  obtain ⟨t, ht, hi, _⟩ := h.persists.taskRun _ _ (h.mem htr).1
  exact ⟨t, ht, hi⟩

theorem exists_mem (h : Fetched s ts flt trs) (hlim : flt.limit = none) {id : Uuid}
    {t : TaskRunRow} (ht : Db.taskRun (s.store.asOf ts) id = some t)
    (hacc : flt.accepts s.engine t = true) : ∃ tr ∈ trs, tr.row = t := by
  have hmem : t ∈ trs.map TaskRunObj.row := by
    rw [h.rows, TaskRunFilter.select, hlim]
    have hid := Db.runId_of_taskRun ht
    exact List.mem_filter.mpr ⟨Db.mem_taskRuns.mpr (hid ▸ ht), hacc⟩
  simpa using hmem

end Fetched

namespace Spec

/-- New objects stand for the rows they are built from. -/
theorem newTaskRuns {rows : List TaskRunRow} (hs : Stmt i m w s)
    (hrows : ∀ row ∈ rows, HasTaskRun s row.ident) :
    Spec i (P.mem (.newTaskRuns rows)) (Ends i m fun refs w' s' => w' = w ∧
      (List.zipWith TaskRunObj.mk refs rows).map TaskRunObj.row = rows ∧
      ∀ tr ∈ List.zipWith TaskRunObj.mk refs rows, s'.trIdent tr.ref = some tr.row.ident) l s := by
  refine (mem (o := .newTaskRuns rows) hs fun s₁ hg _ row hrow =>
    (hrows row hrow).mono hg.grows).mono fun refs w' s' _ h => ?_
  obtain ⟨hw, s₁, pick, _, _, rfl, hres⟩ := h
  simp only [Mem.exec, Except.ok.injEq] at hres
  subst hres
  refine ⟨hw, map_zipWith_range' (fun _ _ => rfl) _ _, fun tr htr => ?_⟩
  obtain ⟨k, row, hk, rfl⟩ := mem_zipWith_range' htr
  simp [Shared.trIdent, Mem.exec, List.getElem?_append_right, hk]

theorem fetchRows {flt : TaskRunFilter} (hs : Stmt i m w s) :
    Spec i (TaskRun.fetchRows flt) (Ends i m fun trs w' s' => w' = w ∧
      ∃ ts, ReadAt m s s' ts ∧ Fetched s' ts flt trs) l s := by
  refine bind (select hs) fun rows w₁ l₁ s₁ hs₁ h₁ _ => ?_
  obtain ⟨hw₁, ts, hle, hm, hp, hout⟩ := h₁
  have hrow : ∀ row ∈ rows, HasTaskRun s₁ row.ident := by
    intro row hrow
    rw [hout] at hrow
    obtain ⟨t, ht, hi, _⟩ := hp.taskRun _ _ (mem_select_taskRuns hrow).1
    exact ⟨t, ht, hi⟩
  refine bind (newTaskRuns hs₁ hrow) fun refs w₂ l₂ s₂ hs₂ h₂ hg₂ => ?_
  obtain ⟨hw₂, hmap, hrefs⟩ := h₂
  have heq := hg₂.store.asOf_eq hle
  refine ret hs₂ ⟨hw₂.trans hw₁, ts, ⟨hm.start, fun hn => heq ▸ hm.present hn⟩,
    ⟨?_, hrefs, hle.trans hg₂.store.now_le, ?_⟩⟩
  · rw [hmap, hout, hg₂.knows.engine, heq]
    rfl
  · rw [heq]
    exact hp.trans hg₂.tables

/-! ### `set_state` -/

end Spec

/-- The row written for an update: the row of the run it names, in the state it sets. -/
structure Updated (s : Shared) (u : UpdateRow) (tr : TaskRunObj) : Prop where
  state : u.state = some tr.row.state
  persisted : HasTaskRun s tr.row.ident
  names : Names s tr.row.runId u.row
  ref : s.trIdent tr.ref = some tr.row.ident
  operation : ∀ op, u.operationId = some op → tr.row.operationId = some op

def UpdateRow.OfObj (u : UpdateRow) : Prop := ∃ ref, u.row = .obj ref

/-- The rows written for updates, and a row for each unconditional update that meets `F`. -/
structure AllUpdated (s : Shared) (F : UpdateRow → Prop) (us : List UpdateRow)
    (trs : List TaskRunObj) : Prop where
  sound : ∀ tr ∈ trs, ∃ u ∈ us, Updated s u tr
  complete : ∀ u ∈ us, F u → u.requires.nonempty = false → ∃ tr ∈ trs, Updated s u tr

theorem AllUpdated.weaken {F F' : UpdateRow → Prop} {us : List UpdateRow} {trs : List TaskRunObj}
    (h : AllUpdated s F us trs) (hF : ∀ u ∈ us, F' u → F u) : AllUpdated s F' us trs :=
  ⟨h.sound, fun u hu hu' hreq => h.complete u hu (hF u hu hu') hreq⟩

section Updates

variable (hg : Grows s s')
include hg

theorem Updated.mono {u : UpdateRow} {tr : TaskRunObj} (h : Updated s u tr) : Updated s' u tr :=
  ⟨h.state, h.persisted.mono hg, h.names.mono hg, hg.taskRuns _ _ h.ref, h.operation⟩

theorem AllUpdated.mono {F : UpdateRow → Prop} {us : List UpdateRow} {trs : List TaskRunObj}
    (h : AllUpdated s F us trs) : AllUpdated s' F us trs := by
  refine ⟨fun tr htr => ?_, fun u hu hF hreq => ?_⟩
  · obtain ⟨u, hu, hup⟩ := h.sound tr htr
    exact ⟨u, hu, hup.mono hg⟩
  · obtain ⟨tr, htr, hup⟩ := h.complete u hu hF hreq
    exact ⟨tr, htr, hup.mono hg⟩

end Updates

theorem Names.unique {runId runId' : Uuid} {target : Target} (h : Names s runId target)
    (h' : Names s runId' target) : runId = runId' := by
  cases target with
  | id rid => exact h.symm.trans h'
  | obj tr =>
    obtain ⟨i, hi, rfl⟩ := h
    obtain ⟨i', hi', rfl⟩ := h'
    rw [hi] at hi'
    cases hi'
    rfl

theorem HasTaskRun.unique {j j' : TaskRunIdent} (h : HasTaskRun s j) (h' : HasTaskRun s j')
    (hid : j.runId = j'.runId) : j = j' := by
  obtain ⟨t, ht, rfl⟩ := h
  obtain ⟨t', ht', rfl⟩ := h'
  rw [hid, ht'] at ht
  cases ht
  rfl

/-- A row written for an acceptable update replaces the row of the same run. -/
theorem Updated.sets {st : TaskRunState} {u : UpdateRow} {tr : TaskRunObj} (h : Updated s u tr)
    (hu : UpdateOk s st u) : tr.row.state = st ∧ SetsTaskRun s tr.row := by
  obtain ⟨t, ht, hi⟩ := h.persisted
  obtain ⟨hst, hne, hrun⟩ := hu
  have hstate : tr.row.state = st := Option.some.inj (h.state.symm.trans hst)
  refine ⟨hstate, ⟨t, ht, hi.symm⟩, hstate ▸ hne, fun hr => ?_⟩
  obtain ⟨runId, hn, op, hop, hmem⟩ := hrun (hstate ▸ hr)
  rw [h.names.unique hn]
  exact ⟨op, h.operation op hop, hmem⟩

namespace Spec

theorem fetchableRid {u : UpdateRow} (hs : Stmt i m w s) :
    Spec i (TaskRun.fetchableRid u) (Ends i m fun rids w' _ => w' = w ∧
      ∀ rid, u.row = .id rid → rid ∈ rids) l s := by
  unfold TaskRun.fetchableRid
  split
  · rename_i runId hrow
    exact ret hs ⟨rfl, fun rid hid => by rw [hrow] at hid; cases hid; exact List.mem_singleton_self _⟩
  · rename_i ref hrow
    have hno : ∀ (rids : List Uuid) rid, u.row = .id rid → rid ∈ rids := by
      intro rids rid hid
      rw [hrow] at hid
      cases hid
    split
    · exact bind (readTaskRun hs) fun row w₁ l₁ s₁ hs₁ h₁ _ => ret hs₁ ⟨h₁.1, hno _⟩
    · exact ret hs ⟨rfl, hno _⟩

theorem fetchableRids {us : List UpdateRow} (hs : Stmt i m w s) :
    Spec i (TaskRun.fetchableRids us) (Ends i m fun rids w' _ => w' = w ∧
      ∀ u ∈ us, ∀ rid, u.row = .id rid → rid ∈ rids) l s := by
  induction us generalizing w l s with
  | nil => exact ret hs ⟨rfl, by simp⟩
  | cons u us ih =>
    refine bind (fetchableRid hs) fun rids w₁ l₁ s₁ hs₁ h₁ _ => ?_
    obtain ⟨rfl, hu⟩ := h₁
    refine bind (ih hs₁) fun rest w₂ l₂ s₂ hs₂ h₂ _ => ret hs₂ ⟨h₂.1, ?_⟩
    rw [List.forall_mem_cons]
    exact ⟨fun rid hid => List.mem_append_left _ (hu rid hid),
      fun u' hu' rid hid => List.mem_append_right _ (h₂.2 u' hu' rid hid)⟩

/-- The fetched rows `set_state` works with. -/
def FetchedOk (s : Shared) (fetched : List TaskRunObj) : Prop :=
  ∀ tr ∈ fetched, HasTaskRun s tr.row.ident ∧ s.trIdent tr.ref = some tr.row.ident

theorem FetchedOk.mono {fetched : List TaskRunObj} (h : FetchedOk s fetched) (hg : Grows s s') :
    FetchedOk s' fetched := fun tr htr => ⟨(h tr htr).1.mono hg, hg.taskRuns _ _ (h tr htr).2⟩

/-- The run of the update was fetched, unless it names an object. -/
def Finds (fetched : List TaskRunObj) (u : UpdateRow) : Prop :=
  ∀ rid, u.row = .id rid → ∃ tr ∈ fetched, tr.row.runId = rid

theorem target {fetched : List TaskRunObj} {u : UpdateRow} (hs : Stmt i m w s)
    (hf : FetchedOk s fetched) :
    Spec i (TaskRun.target fetched u) (Ends i m fun res w' s' => w' = w ∧
      (∀ tr, res = some tr → HasTaskRun s' tr.row.ident ∧ s'.trIdent tr.ref = some tr.row.ident ∧
        Names s' tr.row.runId u.row) ∧
      (Finds fetched u → u.requires.nonempty = false → res ≠ none)) l s := by
  unfold TaskRun.target
  split
  · rename_i runId hrow
    refine ret hs ⟨rfl, fun tr htr => ?_, fun hfind _ hn => ?_⟩
    swap
    · obtain ⟨tr, htr, hid⟩ := hfind runId hrow
      exact absurd hid (by simpa using List.find?_eq_none.mp hn tr htr)
    have hid : tr.row.runId = runId := by simpa using List.find?_some htr
    obtain ⟨h1, h2⟩ := hf tr (List.mem_of_find?_eq_some htr)
    exact ⟨h1, h2, by rw [hrow]; exact hid.symm⟩
  · rename_i ref hrow
    refine bind (readTaskRun hs) fun row w₁ l₁ s₁ hs₁ h₁ hg₁ => ?_
    obtain ⟨rfl, hrow₁, href₁⟩ := h₁
    split
    · rename_i hreq
      split
      · exact ret hs₁ ⟨rfl, by simp, fun _ hn => by rw [hreq] at hn; cases hn⟩
      · rename_i found hfound
        have hid : found.row.runId = row.runId := by simpa using List.find?_some hfound
        obtain ⟨hh, _⟩ := hf.mono hg₁ found (List.mem_of_find?_eq_some hfound)
        have hident : row.ident = found.row.ident := hrow₁.unique hh hid.symm
        refine bind (mem (o := .writeTaskRun ref found.row) hs₁ fun s₂ hg₂ _ =>
          ⟨hh.mono hg₂.grows, hg₂.grows.taskRuns _ _ (hident ▸ href₁)⟩) fun _ w₂ l₂ s₂ hs₂ h₂ hg₂ => ?_
        have href₂ := hg₂.taskRuns _ _ (hident ▸ href₁)
        refine ret hs₂ ⟨h₂.1, fun tr htr => ?_, by simp⟩
        cases htr
        exact ⟨hh.mono hg₂, href₂, by rw [hrow]; exact ⟨_, href₂, rfl⟩⟩
    · refine ret hs₁ ⟨rfl, fun tr htr => ?_, by simp⟩
      cases htr
      exact ⟨hrow₁, href₁, by rw [hrow]; exact ⟨_, href₁, rfl⟩⟩

theorem prepare {fetched : List TaskRunObj} {u : UpdateRow} (hs : Stmt i m w s)
    (hf : FetchedOk s fetched) (hu : u.state ≠ none) :
    Spec i (TaskRun.prepare fetched u) (Ends i m fun res w' s' => w' = w ∧
      (∀ tr, res = some tr → Updated s' u tr) ∧
      (Finds fetched u → u.requires.nonempty = false → res ≠ none)) l s := by
  refine bind (target hs hf) fun res w₁ l₁ s₁ hs₁ h₁ hg₁ => ?_
  obtain ⟨rfl, hsome, htotal⟩ := h₁
  split
  · exact ret hs₁ ⟨rfl, by simp, htotal⟩
  · rename_i tr
    obtain ⟨hh, href, hn⟩ := hsome tr rfl
    split
    · rename_i hreq
      refine ret hs₁ ⟨rfl, by simp, fun _ hn => ?_⟩
      rw [hn] at hreq
      cases hreq
    · refine bind (Q := fun _ w' _ => w' = w₁) ?_ fun now w₂ l₂ s₂ hs₂ hw₂ hg₂ => ?_
      · exact bind (Spec.now hs₁) fun t w₂ l₂ s₂ hs₂ hw₂ _ => ret hs₂ hw₂
      · refine ret hs₂ ⟨hw₂, fun tr' htr' => ?_, by simp⟩
        cases htr'
        obtain ⟨st, hst⟩ := Option.ne_none_iff_exists'.mp hu
        have hrid : (tr.row.buildRow u.state u.operationId now).runId = tr.row.runId :=
          TaskRunRow.runId_of_ident (by simp)
        refine ⟨?_, ?_, ?_, ?_, ?_⟩
        · rw [hst]
          simp
        · simpa using hh.mono hg₂
        · rw [hrid]
          exact hn.mono hg₂
        · simpa using hg₂.taskRuns _ _ href
        · intro op hop
          rw [hop]
          simp

theorem prepareAll {fetched : List TaskRunObj} {us : List UpdateRow} (hs : Stmt i m w s)
    (hf : FetchedOk s fetched) (hu : ∀ u ∈ us, u.state ≠ none) :
    Spec i (TaskRun.prepareAll fetched us) (Ends i m fun trs w' s' => w' = w ∧
      AllUpdated s' (Finds fetched) us trs) l s := by
  induction us generalizing w l s with
  | nil => exact ret hs ⟨rfl, by simp, by simp⟩
  | cons u us ih =>
    rw [List.forall_mem_cons] at hu
    refine bind (prepare hs hf hu.1) fun update w₁ l₁ s₁ hs₁ h₁ hg₁ => ?_
    obtain ⟨rfl, hsome, htotal⟩ := h₁
    refine bind (ih hs₁ (hf.mono hg₁) hu.2) fun rest w₂ l₂ s₂ hs₂ h₂ hg₂ => ?_
    refine ret hs₂ ⟨h₂.1, fun tr htr => ?_, fun u' hu' hfind hreq => ?_⟩
    · rcases List.mem_append.mp htr with htr | htr
      · exact ⟨u, List.mem_cons_self, (hsome tr (by simpa using htr)).mono hg₂⟩
      · obtain ⟨u', hu', hup⟩ := h₂.2.sound tr htr
        exact ⟨u', List.mem_cons_of_mem _ hu', hup⟩
    · rcases List.mem_cons.mp hu' with rfl | hu'
      · obtain ⟨tr, htr⟩ := Option.ne_none_iff_exists'.mp (htotal hfind hreq)
        exact ⟨tr, List.mem_append_left _ (by simp [htr]), (hsome tr htr).mono hg₂⟩
      · obtain ⟨tr, htr, hup⟩ := h₂.2.complete u' hu' hfind hreq
        exact ⟨tr, List.mem_append_right _ htr, hup⟩

/-- The batch is added to the open transaction; outside of one it may not queue TaskRuns. -/
theorem applyUpdates {fetched : List TaskRunObj} {st : TaskRunState} {us : List UpdateRow}
    (hs : Stmt i m w s) (hf : FetchedOk s fetched) (hst : m = none → st ≠ .queued)
    (hu : ∀ u ∈ us, UpdateOk s st u) :
    Spec i (TaskRun.applyUpdates fetched us) (Ends i m fun trs w' s' =>
      w' = w ++ trs.map (fun tr => .taskRun tr.row) ∧ AllUpdated s' (Finds fetched) us trs) l s := by
  have hne : ∀ u ∈ us, u.state ≠ none := by
    intro u huu
    simp [(hu u huu).1]
  refine bind (prepareAll hs hf hne) fun trs w₁ l₁ s₁ hs₁ h₁ hg₁ => ?_
  obtain ⟨rfl, hall⟩ := h₁
  refine bind (unlessEmpty_insert hs₁ (fun hnil => by simp [hnil]) fun hm s₂ hg₂ _ => ?_)
    fun _ w₂ l₂ s₂ hs₂ hw₂ hg₂ => ret hs₂ ⟨hw₂, hall.mono hg₂⟩
  have hsets : ∀ t ∈ trs.map TaskRunObj.row, t.state = st ∧ SetsTaskRun s₂ t := by
    intro t ht
    obtain ⟨tr, htr, rfl⟩ := List.mem_map.mp ht
    obtain ⟨u, huu, hup⟩ := hall.sound tr htr
    exact (hup.mono hg₂).sets ((hu u huu).mono (hg₁.trans hg₂))
  simpa [List.map_map, Function.comp_def] using Committed.setsTaskRuns (hst hm) hsets

/-- The update has an object, or names a row that a select outside a transaction finds. -/
def Reached (m : Option ℕ) (s : Shared) (u : UpdateRow) : Prop := u.OfObj ∨ m = none ∧ Targets s u

theorem Reached.mono {u : UpdateRow} (h : Reached m s u) (hg : Grows s s') : Reached m s' u :=
  h.imp_right fun ⟨hm, ht⟩ => ⟨hm, ht.mono hg⟩

theorem Finds.of_reached {fetched : List TaskRunObj} {u : UpdateRow} (h : Reached m s u)
    (hf : ∀ rid t, u.row = .id rid → m = none → s.db.taskRun rid = some t →
      ∃ tr ∈ fetched, tr.row.runId = rid) : Finds fetched u := by
  intro rid hrow
  rcases h with ⟨ref, hobj⟩ | ⟨hm, runId, t, hn, ht⟩
  · rw [hrow] at hobj
    cases hobj
  · rw [hrow] at hn
    obtain rfl : rid = runId := hn
    exact hf rid t hrow hm ht

theorem fetchAndApply {rids : List Uuid} {st : TaskRunState} {us : List UpdateRow}
    (hs : Stmt i m w s) (hst : m = none → st ≠ .queued) (hu : ∀ u ∈ us, UpdateOk s st u)
    (hrids : ∀ u ∈ us, ∀ rid, u.row = .id rid → rid ∈ rids) :
    Spec i (TaskRun.fetchAndApply rids us) (Ends i m fun trs w' s' =>
      w' = w ++ trs.map (fun tr => .taskRun tr.row) ∧ AllUpdated s' (Reached m s) us trs) l s := by
  unfold TaskRun.fetchAndApply
  split
  · rename_i hnil
    refine (applyUpdates hs (fun _ h => by simp at h) hst hu).mono fun trs w' s' _ h =>
      ⟨h.1, h.2.weaken fun u huu hr => .of_reached hr fun rid t hrow _ _ => ?_⟩
    have hmem := hrids u huu rid hrow
    rw [List.isEmpty_iff.mp hnil] at hmem
    cases hmem
  · refine transaction_global hs (fun l₁ s₁ hs₁ hg₁ => ?_) fun trs w' s' s'' h hg =>
      ⟨h.1, h.2.mono hg⟩
    refine bind (fetchRows hs₁) fun fetched w₂ l₂ s₂ hs₂ h₂ hg₂ => ?_
    obtain ⟨rfl, ts, hread, hfetched⟩ := h₂
    refine (applyUpdates hs₂ (fun tr htr => ⟨hfetched.hasTaskRun htr, hfetched.refs tr htr⟩) hst
      fun u huu => (hu u huu).mono (hg₁.trans hg₂)).mono fun trs w' s' _ h =>
        ⟨h.1, h.2.weaken fun u huu hr => .of_reached hr fun rid t hrow hm ht => ?_⟩
    obtain ⟨t₁, ht₁, _⟩ := hg₁.tables.taskRun _ t ht
    obtain ⟨t₂, ht₂, _⟩ := (hread.present hm).taskRun _ t₁ ht₁
    have hid := Db.runId_of_taskRun ht₂
    obtain ⟨tr, htr, rfl⟩ := hfetched.exists_mem rfl ht₂ (by
      simpa [TaskRunFilter.accepts_of_taskId_none, TaskRunFilter.agrees, hid] using
        hrids u huu rid hrow)
    exact ⟨tr, htr, hid⟩

/-- The objects of written rows are updated afterwards. -/
theorem writeBack {us : List UpdateRow} {trs : List TaskRunObj} (hs : Stmt i m w s)
    (hall : ∀ tr ∈ trs, ∃ u ∈ us, Updated s u tr) :
    Spec i (Prog.forEach trs fun u => P.mem (.writeTaskRun u.ref u.row))
      (Ends i m fun _ w' _ => w' = w) l s := by
  induction trs generalizing l s with
  | nil => exact ret hs rfl
  | cons tr trs ih =>
    rw [List.forall_mem_cons] at hall
    obtain ⟨u, _, hup⟩ := hall.1
    refine bind (mem (o := .writeTaskRun tr.ref tr.row) hs fun s₁ hg₁ _ =>
      ⟨(hup.mono hg₁.grows).persisted, (hup.mono hg₁.grows).ref⟩) fun _ w₁ l₁ s₁ hs₁ h₁ hg₁ => ?_
    obtain rfl : w₁ = w := h₁.1
    refine ih hs₁ fun tr' htr' => ?_
    obtain ⟨u', hu', hup'⟩ := hall.2 tr' htr'
    exact ⟨u', hu', hup'.mono hg₁⟩

/-- The spec of `set_state`: its batch holds the rows of its updates. -/
theorem setState (st : TaskRunState) {us : List UpdateRow} (hs : Stmt i m w s)
    (hst : m = none → st ≠ .queued) (hu : ∀ u ∈ us, UpdateOk s st u) :
    Spec i (TaskRun.setState us) (Ends i m fun _ w' s' => ∃ trs,
      w' = w ++ trs.map (fun tr => .taskRun tr.row) ∧ AllUpdated s' (Reached m s) us trs) l s := by
  refine bind (fetchableRids hs) fun rids w₁ l₁ s₁ hs₁ h₁ hg₁ => ?_
  obtain ⟨rfl, hrids⟩ := h₁
  refine bind (fetchAndApply hs₁ hst (fun u huu => (hu u huu).mono hg₁) hrids)
    fun trs w₂ l₂ s₂ hs₂ h₂ hg₂ => bind (writeBack hs₂ h₂.2.sound)
      fun _ w₃ l₃ s₃ hs₃ hw₃ hg₃ => ret hs₃ ⟨trs, hw₃.trans h₂.1,
        (h₂.2.mono hg₃).weaken fun u _ hr => hr.mono hg₁⟩

end Spec

end YtScheduler
