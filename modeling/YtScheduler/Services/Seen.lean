import Mathlib.Data.List.Infix
import YtScheduler.Services.Updates
import YtScheduler.Threads.Watch

/-! What a thread has seen of TaskRuns: the rows its last select returned, and the copies it
read or wrote last. `set_state` writes rows it built from those. -/

namespace YtScheduler

open Threads

/-- The call of `set_state` that a thread makes, if it makes one, the run ids of the objects it has
read, the rows of its last select of TaskRuns, and the copies that it holds: those rows, or the
object it read or wrote since. An insert ends what rows and copies are for. -/
structure Seen where
  call : Option (List UpdateRow) := none
  objects : List (Ref × Uuid) := []
  fetched : List TaskRunRow := []
  held : List TaskRunRow := []

namespace Seen

def see (γ : Seen) (o : Op) (r : Except Exn o.Ret) : Seen :=
  match o, r with
  | .select _ (.taskRuns _), .ok rows => { γ with fetched := rows, held := rows }
  | .mem (.readTaskRun ref), .ok row =>
    { γ with objects := (ref, row.runId) :: γ.objects, held := [row] }
  | .mem (.writeTaskRun _ row), _ => { γ with held := [row] }
  | .insert _ _, _ => { γ with fetched := [], held := [] }
  | _, _ => γ

theorem see_call (γ : Seen) (o : Op) (r : Except Exn o.Ret) : (γ.see o r).call = γ.call := by
  unfold see
  split <;> rfl

/-- Selects and inserts apart, what was fetched stays. -/
theorem see_fetched (γ : Seen) {o : Op} (hselect : ∀ c q, o ≠ .select c q)
    (hinsert : ∀ c rows, o ≠ .insert c rows) (r : Except Exn o.Ret) :
    (γ.see o r).fetched = γ.fetched := by
  unfold see
  split
  · exact absurd rfl (hselect _ _)
  · rfl
  · rfl
  · exact absurd rfl (hinsert _ _)
  · rfl

/-- More objects were read. -/
structure Since (γ γ' : Seen) : Prop where
  fetched : γ'.fetched = γ.fetched
  objects : γ.objects ⊆ γ'.objects

theorem Since.refl (γ : Seen) : γ.Since γ := ⟨rfl, List.Subset.refl _⟩

theorem Since.trans {γ γ' γ'' : Seen} (h : γ.Since γ') (h' : γ'.Since γ'') : γ.Since γ'' :=
  ⟨h'.fetched.trans h.fetched, List.Subset.trans h.objects h'.objects⟩

/-- The update is for the TaskRun with this run id. -/
def IsFor (γ : Seen) (u : UpdateRow) (runId : Uuid) : Prop :=
  match u.row with
  | .id id => runId = id
  | .obj ref => (ref, runId) ∈ γ.objects

theorem IsFor.since {γ γ' : Seen} {u : UpdateRow} {runId : Uuid} (h : γ.IsFor u runId)
    (hs : γ.Since γ') : γ'.IsFor u runId := by
  unfold IsFor at h ⊢
  split
  · next hrow => rwa [hrow] at h
  · next hrow =>
    rw [hrow] at h
    exact hs.objects h

/-- The row was built for the update from a copy: one that was fetched, and matched, if there are
requirements or only a run id. -/
structure BuiltFrom (γ : Seen) (u : UpdateRow) (copy row : TaskRunRow) : Prop where
  built : ∃ now, row = copy.buildRow u.state u.operationId now
  fetched : (∀ ref, u.row = .obj ref → u.requires.nonempty = true) → copy ∈ γ.fetched
  isFor : γ.IsFor u copy.runId
  matched : u.requires.nonempty = true → u.requires.isMatched copy = true

theorem BuiltFrom.since {γ γ' : Seen} {u : UpdateRow} {copy row : TaskRunRow}
    (h : γ.BuiltFrom u copy row) (hs : γ.Since γ') : γ'.BuiltFrom u copy row :=
  ⟨h.built, fun hu => hs.fetched ▸ h.fetched hu, h.isFor.since hs, h.matched⟩

theorem BuiltFrom.runId {γ : Seen} {u : UpdateRow} {copy row : TaskRunRow} (h : γ.BuiltFrom u copy row) :
    row.runId = copy.runId := by
  obtain ⟨now, rfl⟩ := h.built
  exact congrArg TaskRunIdent.runId (TaskRunRow.ident_buildRow copy u.state u.operationId now)

/-- The rows were built for updates of the call, in their order, and a row that is built for a single
update is built from the copy that is held. -/
structure Wrote (us : List UpdateRow) (γ : Seen) (rows : List TaskRunRow) : Prop where
  built : ∃ news, news.Sublist us ∧
    List.Forall₂ (fun u row => ∃ copy, γ.BuiltFrom u copy row) news rows
  single : ∀ u, us = [u] → ∀ t ∈ rows, rows = [t] ∧
    ∃ copy, γ.held.find? (·.runId = copy.runId) = some copy ∧ γ.BuiltFrom u copy t

end Seen

/-- The calls of `set_state`. -/
def SetsState (us : List UpdateRow) (γ : Seen) : Op → Prop
  | .beginTx c | .commitTx c | .abortTx c => c = some .global
  | .select c q => c = none ∧ ∃ w, q = .taskRuns w
  | .insert c rows => c = none ∧ ∃ ts : List TaskRunRow, rows = ts.map .taskRun ∧ γ.Wrote us ts
  | .now => True
  | .mem (.newTaskRuns _) | .mem (.readTaskRun _) | .mem (.writeTaskRun _ _) => True
  | _ => False

def settingState (us : List UpdateRow) : Watch Op Op.Ret Exn Seen where
  see := Seen.see
  outcomes _ _ := True
  calls := SetsState us

namespace TaskRun

variable {us all : List UpdateRow} {u : UpdateRow} {γ : Seen} {fetched : List TaskRunObj}

/-- The row found among the objects is found among the rows. -/
theorem find?_row_fetched (h : fetched.map (·.row) <+: γ.fetched) {p : TaskRunRow → Bool} {o : TaskRunObj}
    (ho : fetched.find? (fun o => p o.row) = some o) : γ.fetched.find? p = some o.row := by
  have hcomp : (p ∘ fun o : TaskRunObj => o.row) = fun o => p o.row := rfl
  refine h.find?_eq_some ?_
  rw [List.find?_map, hcomp, ho, Option.map_some]

/-- What is known of the copy that an update is made from. -/
structure Copied (γ γ' : Seen) (u : UpdateRow) (copy : TaskRunRow) : Prop where
  held : γ.held = γ.fetched ∨ (∃ ref, u.row = .obj ref) →
    γ'.held.find? (·.runId = copy.runId) = some copy
  fetched : (∀ ref, u.row = .obj ref → u.requires.nonempty = true) → copy ∈ γ.fetched
  isFor : γ'.IsFor u copy.runId

theorem brings_target (h : fetched.map (·.row) <+: γ.fetched) :
    (target fetched u).Brings (settingState all) (fun x γ' => γ.Since γ' ∧
      ∀ o, x = some o → Copied γ γ' u o.row) γ := by
  have hself : ∀ {row : TaskRunRow}, [row].find? (fun r => decide (r.runId = row.runId)) = some row := by
    simp
  unfold target
  split
  · next runId hrow =>
    refine .ret ⟨.refl γ, fun o ho => ?_⟩
    have hid : o.row.runId = runId := by simpa using List.find?_some ho
    have hfind := find?_row_fetched (p := fun r => decide (r.runId = runId)) h ho
    refine ⟨fun hheld => ?_, fun _ => List.mem_of_find?_eq_some hfind, ?_⟩
    · rcases hheld with hheld | ⟨ref, he⟩
      · rw [hheld, hid]
        exact hfind
      · rw [hrow] at he
        cases he
    · rw [Seen.IsFor, hrow]
      exact hid
  · next ref hrow =>
    have hfor : ∀ {γ' : Seen} {runId : Uuid}, (ref, runId) ∈ γ'.objects → γ'.IsFor u runId := by
      intro γ' runId hmem
      rw [Seen.IsFor, hrow]
      exact hmem
    refine .bind (A := fun row γ' => γ.Since γ' ∧ (ref, row.runId) ∈ γ'.objects ∧ γ'.held = [row])
      (.op trivial fun row _ => ⟨⟨rfl, List.subset_cons_self _ _⟩, List.mem_cons_self, rfl⟩)
      fun row γ₁ h₁ => ?_
    obtain ⟨hsince, hobject, hheld⟩ := h₁
    split
    · split
      · exact .ret ⟨hsince, by simp⟩
      · next found hfound =>
        refine .bind (A := fun _ γ' => γ.Since γ' ∧ (ref, row.runId) ∈ γ'.objects ∧
          γ'.held = [found.row]) (.op trivial fun _ _ => ⟨⟨hsince.fetched, hsince.objects⟩, hobject, rfl⟩)
          fun _ γ₂ h₂ => .ret ⟨h₂.1, ?_⟩
        rintro _ ⟨⟩
        have hid : found.row.runId = row.runId := by simpa using List.find?_some hfound
        refine ⟨fun _ => ?_, fun _ => ?_, hfor (hid ▸ h₂.2.1)⟩
        · rw [h₂.2.2]
          exact hself
        · have hmem : found.row ∈ γ.fetched := List.mem_of_find?_eq_some
            (find?_row_fetched (p := fun r => decide (r.runId = row.runId)) h hfound)
          exact hmem
    · next hreq =>
      refine .ret ⟨hsince, ?_⟩
      rintro _ ⟨⟩
      refine ⟨fun _ => ?_, fun hall => absurd (hall ref hrow) hreq, hfor hobject⟩
      rw [hheld]
      exact hself

/-- The row of an update is built from a copy that is held, and that matches. -/
theorem brings_prepare (h : fetched.map (·.row) <+: γ.fetched) :
    (prepare fetched u).Brings (settingState all) (fun x γ' => γ.Since γ' ∧
      ∀ o, x = some o → ∃ copy, Copied γ γ' u copy ∧ γ'.BuiltFrom u copy o.row) γ := by
  refine .bind (brings_target h) fun x γ₁ h₁ => ?_
  cases x with
  | none => exact .ret ⟨h₁.1, by simp⟩
  | some tr =>
    have hcopied := h₁.2 tr rfl
    dsimp only
    split
    · exact .ret ⟨h₁.1, by simp⟩
    · next hmatch =>
      have hnow : (P.nowUtc).Brings (settingState all) (fun _ γ' => γ' = γ₁) γ₁ :=
        .bind (A := fun _ γ' => γ' = γ₁) (.op trivial fun _ _ => rfl) fun _ _ hγ => .ret hγ
      refine .bind hnow fun now γ₂ hγ₂ => .ret ?_
      subst hγ₂
      refine ⟨h₁.1, ?_⟩
      rintro _ ⟨⟩
      refine ⟨tr.row, hcopied, ⟨now, rfl⟩, fun hu => ?_, hcopied.isFor, fun hreq => ?_⟩
      · rw [h₁.1.fetched]
        exact hcopied.fetched hu
      · simpa [hreq] using hmatch

/-- The rows of a list of updates. A single one that has no copy of its own is made from the rows
that were fetched last. -/
theorem brings_prepareAll (h : fetched.map (·.row) <+: γ.fetched) :
    (prepareAll fetched us).Brings (settingState all) (fun os γ' => γ.Since γ' ∧
      (∃ news, news.Sublist us ∧
        List.Forall₂ (fun u o => ∃ copy, γ'.BuiltFrom u copy o.row) news os) ∧
      ∀ u, us = [u] → ∀ o ∈ os, os = [o] ∧
        ∃ copy, Copied γ γ' u copy ∧ γ'.BuiltFrom u copy o.row) γ := by
  induction us generalizing γ with
  | nil => exact .ret ⟨.refl γ, ⟨[], .refl _, .nil⟩, fun _ he => absurd he (List.cons_ne_nil _ _).symm⟩
  | cons u us ih =>
    refine .bind (brings_prepare h) fun x γ₁ h₁ => ?_
    obtain ⟨hsince, hx⟩ := h₁
    have h' : fetched.map (·.row) <+: γ₁.fetched := by rwa [hsince.fetched]
    have hbuilt : ∀ {news os γ'}, γ₁.Since γ' → news.Sublist us →
        List.Forall₂ (fun u (o : TaskRunObj) => ∃ copy, γ'.BuiltFrom u copy o.row) news os →
        ∃ news', news'.Sublist (u :: us) ∧ List.Forall₂
          (fun u o => ∃ copy, γ'.BuiltFrom u copy o.row) news' (x.toList ++ os) := by
      intro news os γ' hs hsub hnews
      cases x with
      | none => exact ⟨news, hsub.cons u, hnews⟩
      | some o =>
        obtain ⟨copy, _, hcopy⟩ := hx o rfl
        exact ⟨u :: news, hsub.cons_cons u, .cons ⟨copy, hcopy.since hs⟩ hnews⟩
    cases us with
    | nil =>
      refine .ret ⟨hsince, hbuilt (.refl _) (.refl _) .nil, fun v hv o ho => ?_⟩
      cases hv
      rw [List.append_nil] at ho ⊢
      have hxo : x = some o := Option.mem_toList.mp ho
      exact ⟨by rw [hxo]; rfl, hx o hxo⟩
    | cons v us =>
      refine .bind (ih h') fun rest γ₂ h₂ => .ret ⟨hsince.trans h₂.1, ?_, fun _ he => nomatch he⟩
      obtain ⟨news, hsub, hnews⟩ := h₂.2.1
      exact hbuilt h₂.1 hsub hnews

theorem watched_applyUpdates (h : fetched.map (·.row) <+: γ.fetched)
    (hheld : ∀ u, us = [u] → γ.held = γ.fetched ∨ ∃ ref, u.row = .obj ref) :
    (applyUpdates fetched us).Watched (settingState us) (fun _ _ => True) γ := by
  have hwrote : (prepareAll fetched us).Brings (settingState us)
      (fun os γ' => γ'.Wrote us (os.map (·.row))) γ := by
    refine (brings_prepareAll h).mono fun os γ' ⟨_, ⟨news, hsub, hnews⟩, hsingle⟩ => ⟨?_, ?_⟩
    · exact ⟨news, hsub, List.forall₂_map_right_iff.mpr hnews⟩
    · intro u hu
      rw [List.forall_mem_map]
      intro o ho
      obtain ⟨rfl, copy, hcopied, hbuilt⟩ := hsingle u hu o ho
      exact ⟨rfl, copy, hcopied.held (hheld u hu), hbuilt⟩
  refine Prog.Watched.bind (Prog.Watched.mono hwrote fun r γ' hr => ?_)
  cases r with
  | error e => trivial
  | ok os =>
    have hrows := hr os rfl
    refine Prog.Allowed.bind_watched ?_ fun _ => .ret _
    unfold P.unlessEmpty
    split_ifs
    · trivial
    · refine Prog.Watched.op ⟨rfl, _, ?_, hrows⟩ fun _ _ => trivial
      rw [List.map_map]
      rfl

theorem allowed_transaction {α : Type} {W : Watch Op Op.Ret Exn Γ} {c : Option Client} {body : P α}
    (hb : ∀ γ, W.calls γ (.beginTx c)) (hc : ∀ γ, W.calls γ (.commitTx c))
    (ha : ∀ γ, W.calls γ (.abortTx c)) (h : body.Allowed W) : (P.transaction c body).Allowed W := by
  refine (Prog.Allowed.op hb).bind fun _ => h.attempt.bind fun r => ?_
  cases r with
  | ok a => exact (Prog.Allowed.op hc).bind fun _ => .ret a
  | error e => exact (Prog.Allowed.op ha).bind fun _ => .raise e

theorem isPrefix_zipWith (refs : List Ref) (rows : List TaskRunRow) :
    List.zipWith (fun _ row => row) refs rows <+: rows := by
  induction refs generalizing rows with
  | nil => exact List.nil_prefix
  | cons ref refs ih =>
    cases rows with
    | nil => exact List.nil_prefix
    | cons row rows => exact List.cons_prefix_cons.mpr ⟨rfl, ih rows⟩

theorem brings_fetchRows (w : TaskRunFilter) :
    (fetchRows w).Brings (settingState us)
      (fun fetched γ' => fetched.map (·.row) <+: γ'.fetched ∧ γ'.held = γ'.fetched) γ := by
  refine .bind (A := fun rows γ' => γ'.fetched = rows ∧ γ'.held = rows)
    (.op ⟨rfl, w, rfl⟩ fun rows _ => ⟨rfl, rfl⟩) fun rows γ₁ h₁ => ?_
  refine .bind (A := fun _ γ' => γ'.fetched = rows ∧ γ'.held = rows)
    (.op trivial fun refs _ => h₁) fun refs γ₂ h₂ => .ret ⟨?_, h₂.2.trans h₂.1.symm⟩
  rw [h₂.1, List.map_zipWith]
  exact isPrefix_zipWith refs rows

theorem allowed_fetchableRids : (fetchableRids us).Allowed (settingState all) := by
  have hrid : ∀ u, (fetchableRid u).Allowed (settingState all) := by
    intro u
    unfold fetchableRid
    split
    · exact .ret _
    · split_ifs
      · exact Prog.Allowed.bind (.op fun _ => trivial) fun _ => .ret _
      · exact .ret _
  induction us with
  | nil => exact .ret _
  | cons u us ih => exact (hrid u).bind fun _ => ih.bind fun _ => .ret _

/-- What is not fetched is an object. -/
theorem brings_fetchableRids :
    (fetchableRids us).Brings (settingState all)
      (fun rids _ => ∀ u, us = [u] → rids = [] → ∃ ref, u.row = .obj ref) γ := by
  by_cases hobj : ∀ u, us = [u] → ∃ ref, u.row = .obj ref
  · exact Prog.Watched.mono (allowed_fetchableRids γ) fun _ _ _ _ _ u hu _ => hobj u hu
  · push Not at hobj
    obtain ⟨u, rfl, hu⟩ := hobj
    cases hrow : u.row with
    | obj ref => exact absurd hrow (hu ref)
    | id runId =>
      rw [fetchableRids, fetchableRid, hrow]
      exact .ret fun _ _ hnil => by cases hnil

/-- The calls of `set_state`. -/
theorem allowed_setState (us : List UpdateRow) : (setState us).Allowed (settingState us) := by
  refine Prog.Allowed.bind_brings (fun _ => brings_fetchableRids) fun rids γ hrids => ?_
  refine Prog.Allowed.bind_watched ?_ fun updates => ?_
  · unfold fetchAndApply
    split_ifs with hnil
    · refine watched_applyUpdates (List.nil_prefix) fun u hu => Or.inr ?_
      exact hrids u hu (List.isEmpty_iff.mp hnil)
    · refine allowed_transaction (fun _ => rfl) (fun _ => rfl) (fun _ => rfl) ?_ γ
      refine Prog.Allowed.bind_brings (fun _ => brings_fetchRows _) fun fetched γ h => ?_
      exact watched_applyUpdates h.1 fun _ _ => Or.inl h.2
  · refine Prog.Allowed.bind ?_ fun _ => .ret _
    exact Prog.Allowed.forEach fun _ _ => .op fun _ => trivial

end TaskRun

end YtScheduler
