import YtScheduler.Dags.Specs
import YtScheduler.Dags.Storage

/-! A DAG that is stored and read back. The user specs come back equal, so that their
tables are prepared as before and name the same paths, and the relations that are
resolved from the paths are the same. -/

namespace YtScheduler

open Serialization

namespace Dags

/-- Preparing the tables of a user spec twice is preparing them once, and equal specs are prepared
alike and name the same tables. -/
structure Builders.Lawful (B : Builders) : Prop where
  idempotent : ∀ (workDir operationType : String) (spec spec' : Entries),
    B.prepareTables workDir operationType spec = .ok spec' →
    B.prepareTables workDir operationType spec' = .ok spec'
  respects : ∀ (workDir operationType : String) (spec other prepared : Entries),
    (spec.map Prod.fst).Nodup → SameDict spec other →
    B.prepareTables workDir operationType spec = .ok prepared →
    ∃ prepared', B.prepareTables workDir operationType other = .ok prepared' ∧
      SameDict prepared prepared'
  inputs : ∀ (operationType : String) (spec other : Entries), (spec.map Prod.fst).Nodup →
    SameDict spec other → ∀ path, path ∈ B.getInputTablePaths operationType spec ↔
      path ∈ B.getInputTablePaths operationType other
  outputs : ∀ (operationType : String) (spec other : Entries), (spec.map Prod.fst).Nodup →
    SameDict spec other → ∀ path, path ∈ B.getOutputTablePaths operationType spec ↔
      path ∈ B.getOutputTablePaths operationType other

/-- The same task, up to the order of dictionaries and sets in its user spec. -/
structure SameTask (t t' : Task) : Prop where
  taskId : t'.taskId = t.taskId
  operationType : t'.operationType = t.operationType
  userSpec : SameDict t.userSpec t'.userSpec
  preceding : t'.precedingTaskIds = t.precedingTaskIds
  succeeding : t'.succeedingTaskIds = t.succeedingTaskIds

variable {B : Builders} {workDir : String}

/-! ### Preparing again -/

theorem keys_nodup {es : Entries} (h : Val.Storable (.dict es)) : (es.map Prod.fst).Nodup := by
  cases h with
  | dict _ hd => exact hd

/-- The tasks that were read are prepared to equal ones. -/
theorem prepareTasks_restored (hB : B.Lawful) {ts ts' : List Task} {dagId : Option Uuid}
    (hall : List.Forall₂ Restored ts ts')
    (hprep : ∀ t ∈ ts, ∃ spec, B.prepareTables workDir t.operationType spec = .ok t.userSpec)
    (h : ∀ t ∈ ts, Val.Storable (.dict t.userSpec)) (hdag : ∀ t' ∈ ts', t'.dagId = dagId) :
    ∃ ts'', prepareTasks B workDir ts' = .ok ts'' ∧ List.Forall₂ Restored ts ts'' ∧
      ∀ t'' ∈ ts'', t''.dagId = dagId := by
  induction hall with
  | nil => exact ⟨[], rfl, .nil, List.forall_mem_nil _⟩
  | @cons t t' ts ts' hrestored _ ih =>
    rw [List.forall_mem_cons] at hprep h hdag
    obtain ⟨spec, hspec⟩ := hprep.1
    obtain ⟨prepared, hprepared, hsame⟩ := hB.respects _ _ _ _ _ (keys_nodup h.1)
      hrestored.userSpec (hB.idempotent _ _ _ _ hspec)
    obtain ⟨ts'', hts'', hall, hdags⟩ := ih hprep.2 h.2 hdag.2
    refine ⟨{ t' with userSpec := prepared } :: ts'', ?_, .cons ?_ hall, ?_⟩
    · rw [prepareTasks, Task.prepareUserSpec, hrestored.operationType, hprepared, hts'']
      rfl
    · exact ⟨hrestored.taskId, hrestored.operationType, hsame, hrestored.preceding,
        hrestored.succeeding⟩
    · rw [List.forall_mem_cons]
      exact ⟨hdag.1, hdags⟩

/-- Equal tasks feed each other alike. -/
theorem feeds_restored (hB : B.Lawful) {t t' u u' : Task} (ht : Restored t t') (hu : Restored u u')
    (hst : Val.Storable (.dict t.userSpec)) (hsu : Val.Storable (.dict u.userSpec)) :
    u'.Feeds B t' ↔ u.Feeds B t := by
  rw [Task.Feeds, Task.Feeds, Task.getOutputTablePaths, Task.getOutputTablePaths,
    Task.getInputTablePaths, Task.getInputTablePaths, ht.operationType, hu.operationType]
  refine exists_congr fun path => and_congr ?_ ?_
  · exact (hB.outputs _ _ _ (keys_nodup hsu) hu.userSpec path).symm
  · exact (hB.inputs _ _ _ (keys_nodup hst) ht.userSpec path).symm

theorem restored_bare {t b t' : Task} (h : Restored t t') (hb : t.bare = b.bare) :
    Restored b t' where
  taskId := h.taskId.trans (congrArg Task.taskId hb :)
  operationType := h.operationType.trans (congrArg Task.operationType hb :)
  userSpec := by
    have hspec : t.userSpec = b.userSpec := (congrArg Task.userSpec hb :)
    rw [← hspec]
    exact h.userSpec
  preceding := h.preceding
  succeeding := h.succeeding

/-- Equal tasks are tied alike to tasks that are equal. -/
theorem sameTask_tied (hB : B.Lawful) {base ts : List Task} (hall : List.Forall₂ Restored base ts)
    (hspec : ∀ b ∈ base, Val.Storable (.dict b.userSpec)) {t t' : Task} (hr : Restored t t')
    (hst : Val.Storable (.dict t.userSpec)) : SameTask (t.tied B base) (t'.tied B ts) := by
  have hexists : ∀ b ∈ base, ∃ t ∈ ts, Restored b t := Val.exists_of_forall₂ hall
  have hback : ∀ t ∈ ts, ∃ b ∈ base, Restored b t := Val.exists_of_forall₂ hall.flip
  refine ⟨hr.taskId, hr.operationType, hr.userSpec, ?_, ?_⟩
  · ext u
    rw [mem_preceding_tied, mem_preceding_tied]
    constructor
    · rintro ⟨tp, htp, hfeeds, hid⟩
      obtain ⟨bp, hbp, hrp⟩ := hback tp htp
      exact ⟨bp, hbp, (feeds_restored hB hr hrp hst (hspec _ hbp)).mp hfeeds, hrp.taskId.symm.trans hid⟩
    · rintro ⟨bp, hbp, hfeeds, hid⟩
      obtain ⟨tp, htp, hrp⟩ := hexists bp hbp
      exact ⟨tp, htp, (feeds_restored hB hr hrp hst (hspec _ hbp)).mpr hfeeds, hrp.taskId.trans hid⟩
  · ext u
    rw [mem_succeeding_tied, mem_succeeding_tied]
    constructor
    · rintro ⟨td, htd, hfeeds, hid⟩
      obtain ⟨bd, hbd, hrd⟩ := hback td htd
      exact ⟨bd, hbd, (feeds_restored hB hrd hr (hspec _ hbd) hst).mp hfeeds, hrd.taskId.symm.trans hid⟩
    · rintro ⟨bd, hbd, hfeeds, hid⟩
      obtain ⟨td, htd, hrd⟩ := hexists bd hbd
      exact ⟨td, htd, (feeds_restored hB hrd hr (hspec _ hbd) hst).mpr hfeeds, hrd.taskId.trans hid⟩

theorem fresh_restored {base ts : List Task} {dagId : Option Uuid} (hall : List.Forall₂ Restored base ts)
    (hdag : ∀ t ∈ ts, t.dagId = dagId) : Fresh ts := by
  have hback : ∀ t ∈ ts, ∃ b ∈ base, Restored b t := Val.exists_of_forall₂ hall.flip
  refine ⟨?_, ?_, fun t ht u hu => (hdag u hu).trans (hdag t ht).symm⟩
  · intro t ht
    obtain ⟨b, _, hr⟩ := hback t ht
    exact hr.preceding
  · intro t ht
    obtain ⟨b, _, hr⟩ := hback t ht
    exact hr.succeeding

/-- Resolving the tasks that were read gives the tasks that were stored. -/
theorem sameTask_resolve (hB : B.Lawful) {base ts : List Task} {dagId : Option Uuid}
    (hfresh : Fresh base) (hspec : ∀ b ∈ base, Val.Storable (.dict b.userSpec))
    (hall : List.Forall₂ Restored base ts) (hdag : ∀ t ∈ ts, t.dagId = dagId) :
    List.Forall₂ SameTask (resolveTasksDependencies B base) (resolveTasksDependencies B ts) := by
  rw [resolve_eq hfresh, resolve_eq (fresh_restored hall hdag), List.forall₂_map_left_iff,
    List.forall₂_map_right_iff]
  have hboth : List.Forall₂ (fun b t => Val.Storable (.dict b.userSpec) ∧ Restored b t) base ts :=
    (List.forall₂_and_left _ _).mpr ⟨hspec, hall⟩
  exact hboth.imp fun b t h => sameTask_tied hB hall hspec h.2 h.1

theorem restored_of_bare {base tasks ts : List Task}
    (hbare : tasks.map Task.bare = base.map Task.bare) (hall : List.Forall₂ Restored tasks ts) :
    List.Forall₂ Restored base ts := by
  have hmap : List.Forall₂ Restored (tasks.map Task.bare) ts := by
    rw [List.forall₂_map_left_iff]
    exact hall.imp fun t _ h => restored_bare (b := t.bare) h rfl
  rw [hbare, List.forall₂_map_left_iff] at hmap
  exact hmap.imp fun b _ h => restored_bare (t := b.bare) (b := b) h rfl

end Dags

/-! ### The law -/

open Dags

namespace Dags

theorem text?_of_same {v w : Val} (h : Val.Same v w) : w.text? = v.text? := by
  cases v with
  | prim p =>
    cases w with
    | prim q => cases (show p = q from h); rfl
    | _ => exact h.elim
  | attr t =>
    cases w with
    | attr u => cases (show t = u from h); rfl
    | _ => exact h.elim
  | _ =>
    cases w with
    | prim q => exact h.elim
    | attr u => exact h.elim
    | _ => rfl

/-- Equal dictionaries have equal values under each key. -/
theorem lookup_same {spec other : Entries} (hkeys : (spec.map Prod.fst).Nodup)
    (h : SameDict spec other) (k : String) :
    spec.lookup k = none ∧ other.lookup k = none ∨
      ∃ v w, spec.lookup k = some v ∧ other.lookup k = some w ∧ Val.Same v w := by
  obtain ⟨hperm, hentries⟩ := h
  rw [Val.sameEntries_iff] at hentries
  have hkeys' := hperm.nodup_iff.mp hkeys
  cases hv : spec.lookup k with
  | some v =>
    obtain ⟨w, hw, hsame⟩ := hentries _ ((lookup_eq_some_iff hkeys).mp hv)
    exact Or.inr ⟨v, w, rfl, (lookup_eq_some_iff hkeys').mpr hw, hsame⟩
  | none =>
    left
    refine ⟨rfl, ?_⟩
    cases hw : other.lookup k with
    | none => rfl
    | some w =>
      have hmem := List.mem_map_of_mem (f := Prod.fst) ((lookup_eq_some_iff hkeys').mp hw)
      obtain ⟨e, he, hek⟩ := List.mem_map.mp (hperm.mem_iff.mpr hmem)
      have hsome := (lookup_eq_some_iff (v := e.2) hkeys).mpr he
      rw [hek, hv] at hsome
      cases hsome

theorem texts_same {spec other : Entries} (hkeys : (spec.map Prod.fst).Nodup)
    (h : SameDict spec other) (k : String) : texts (other.lookup k) = texts (spec.lookup k) := by
  rcases lookup_same hkeys h k with ⟨hv, hw⟩ | ⟨v, w, hv, hw, hsame⟩
  · rw [hv, hw]
  · rw [hv, hw]
    cases v with
    | list xs =>
      cases w with
      | list ys =>
        have hall := Val.sameList_iff.mp (show Val.SameList xs ys from hsame)
        clear * - hall
        induction hall with
        | nil => rfl
        | cons hxy _ ih =>
          simp only [texts, List.filterMap_cons, text?_of_same hxy] at ih ⊢
          rw [ih]
      | _ => exact hsame.elim
    | _ =>
      cases w with
      | list ys => exact hsame.elim
      | _ => rfl

theorem mapBuilder_lawful : mapBuilder.Lawful where
  idempotent _ _ spec spec' h := by
    rw [mapBuilder] at h ⊢
    simp only at h ⊢
    split_ifs at h with hsome
    cases h
    rw [if_pos hsome]
  respects _ _ spec other prepared hkeys hsame h := by
    have hiff : ∀ k, (other.lookup k).isSome = (spec.lookup k).isSome := by
      intro k
      rcases lookup_same hkeys hsame k with ⟨hv, hw⟩ | ⟨v, w, hv, hw, _⟩
      · rw [hv, hw]
      · rw [hv, hw]
        rfl
    rw [mapBuilder] at h ⊢
    simp only [hiff] at h ⊢
    split_ifs at h with hsome
    cases h
    exact ⟨other, by rw [if_pos hsome], hsame⟩
  inputs _ spec other hkeys hsame path := by
    show path ∈ texts _ ↔ path ∈ texts _
    rw [texts_same hkeys hsame]
  outputs _ spec other hkeys hsame path := by
    show path ∈ texts _ ↔ path ∈ texts _
    rw [texts_same hkeys hsame]

end Dags

open Dags

theorem catDag_storable : ∀ t ∈ catDag.tasks, Val.Storable (.dict t.userSpec) := by
  have hpath : ∀ s : String, Val.Storable (.list [.prim (.str s)]) := by
    intro s
    refine .list ?_
    simp only [List.forall_mem_cons]
    exact ⟨.prim rfl, List.forall_mem_nil _⟩
  have hlimits : Val.Storable (.dict [("__var", .tuple [.prim (.int 1), .prim .null]),
      ("__type", .set [.prim (.str "b"), .prim (.str "a")])]) := by
    refine .dict ?_ (by decide)
    simp only [List.forall_mem_cons]
    refine ⟨.tuple ?_, .set ?_ (by decide) (by decide), List.forall_mem_nil _⟩
    · simp only [List.forall_mem_cons]
      exact ⟨.prim rfl, .prim rfl, List.forall_mem_nil _⟩
    · simp only [List.forall_mem_cons]
      exact ⟨.prim rfl, .prim rfl, List.forall_mem_nil _⟩
  simp only [catDag, List.forall_mem_cons]
  refine ⟨.dict ?_ (by decide), .dict ?_ (by decide), List.forall_mem_nil _⟩
  · simp only [List.forall_mem_cons]
    exact ⟨hpath _, hpath _, hlimits, List.forall_mem_nil _⟩
  · simp only [List.forall_mem_cons]
    exact ⟨hpath _, hpath _, .timedelta _, List.forall_mem_nil _⟩

end YtScheduler
