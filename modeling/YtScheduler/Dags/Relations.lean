import Mathlib.Data.Finset.Lattice.Basic
import YtScheduler.Dags.Tasks

/-! The relations that `resolve_tasks_dependencies` leaves. Whatever the order of its
loops, and however often a rule is applied, a task is upstream of another one exactly
if it writes a table the other one reads. -/

namespace YtScheduler.Dags

/-- A task without its relations. -/
def Task.bare (t : Task) : Task := { t with precedingTaskIds := ∅, succeedingTaskIds := ∅ }

/-- Task `u` writes a table that `t` reads. -/
def Task.Feeds (B : Builders) (u t : Task) : Prop :=
  ∃ path ∈ u.getOutputTablePaths B, path ∈ t.getInputTablePaths B

/-- The tasks `ts` are those of `base`, with the relations that `L` lists between places in
addition. -/
structure Related (base : List Task) (L : ℕ → ℕ → Prop) (ts : List Task) : Prop where
  bare : ∀ i : ℕ, (ts[i]?).map Task.bare = (base[i]?).map Task.bare
  preceding : ∀ (i : ℕ) (t t' : Task), base[i]? = some t → ts[i]? = some t' → ∀ u,
    u ∈ t'.precedingTaskIds ↔ u ∈ t.precedingTaskIds ∨
      ∃ (p : ℕ) (tp : Task), L i p ∧ base[p]? = some tp ∧ tp.dagId = t.dagId ∧ tp.taskId = u
  succeeding : ∀ (i : ℕ) (t t' : Task), base[i]? = some t → ts[i]? = some t' → ∀ u,
    u ∈ t'.succeedingTaskIds ↔ u ∈ t.succeedingTaskIds ∨
      ∃ (s : ℕ) (td : Task), L s i ∧ base[s]? = some td ∧ td.dagId = t.dagId ∧ td.taskId = u

section Relate

variable {base ts : List Task} {L : ℕ → ℕ → Prop}

/-- The tasks and the relations between their places determine what the tasks become. -/
theorem Related.unique {ts' : List Task} (h : Related base L ts) (h' : Related base L ts') :
    ts = ts' := by
  apply List.ext_getElem?
  intro i
  cases hb : base[i]? with
  | none =>
    have hout : ∀ {us : List Task}, Related base L us → us[i]? = none := by
      intro us hus
      simpa [hb] using hus.bare i
    rw [hout h, hout h']
  | some t =>
    have hin : ∀ {us : List Task}, Related base L us → ∃ t', us[i]? = some t' ∧ t'.bare = t.bare := by
      intro us hus
      have hbare := hus.bare i
      rw [hb, Option.map_some] at hbare
      exact Option.map_eq_some_iff.mp hbare
    obtain ⟨u, hu, hubare⟩ := hin h
    obtain ⟨u', hu', hubare'⟩ := hin h'
    have hpre : u.precedingTaskIds = u'.precedingTaskIds := by
      ext x
      rw [h.preceding i t u hb hu, h'.preceding i t u' hb hu']
    have hsuc : u.succeedingTaskIds = u'.succeedingTaskIds := by
      ext x
      rw [h.succeeding i t u hb hu, h'.succeeding i t u' hb hu']
    have hsame := hubare.trans hubare'.symm
    simp only [Task.bare, Task.mk.injEq] at hsame
    rw [hu, hu']
    congr 1
    cases u
    cases u'
    simp_all

theorem Related.refl (base : List Task) : Related base (fun _ _ => False) base where
  bare _ := rfl
  preceding i t t' hb hi u := by
    cases Option.some.inj (hb.symm.trans hi)
    simp
  succeeding i t t' hb hi u := by
    cases Option.some.inj (hb.symm.trans hi)
    simp

theorem Related.congr {L' : ℕ → ℕ → Prop} (h : Related base L ts) (hL : ∀ i p, L i p ↔ L' i p) :
    Related base L' ts := by
  have he : L = L' := by
    funext i p
    exact propext (hL i p)
  rwa [← he]

/-- The task at a place, before and after. -/
theorem Related.task (h : Related base L ts) {i : ℕ} {t' : Task} (hi : ts[i]? = some t') :
    ∃ t, base[i]? = some t ∧ t.taskId = t'.taskId ∧ t.dagId = t'.dagId := by
  have hbare := h.bare i
  rw [hi, Option.map_some] at hbare
  obtain ⟨t, ht, he⟩ := Option.map_eq_some_iff.mp hbare.symm
  refine ⟨t, ht, ?_, ?_⟩
  · exact (congrArg Task.taskId he :)
  · exact (congrArg Task.dagId he :)

theorem Related.task_after (h : Related base L ts) {i : ℕ} {t : Task} (hi : base[i]? = some t) :
    ∃ t', ts[i]? = some t' ∧ t'.bare = t.bare := by
  have hbare := h.bare i
  rw [hi, Option.map_some] at hbare
  exact Option.map_eq_some_iff.mp hbare

/-- A relation between tasks of different DAGs, or with a place beyond the tasks, is none. -/
theorem Related.apart (h : Related base L ts) {a b : ℕ}
    (hab : ∀ ta tb, base[a]? = some ta → base[b]? = some tb → tb.dagId ≠ ta.dagId) :
    Related base (fun i p => L i p ∨ i = a ∧ p = b) ts where
  bare := h.bare
  preceding i t t' hi hi' u := by
    rw [h.preceding i t t' hi hi' u]
    refine or_congr_right (exists_congr fun p => exists_congr fun tp => ?_)
    constructor
    · exact fun ⟨hL, hp⟩ => ⟨Or.inl hL, hp⟩
    · rintro ⟨hL | ⟨rfl, rfl⟩, hp, hd, hid⟩
      · exact ⟨hL, hp, hd, hid⟩
      · exact absurd hd (hab t tp hi hp)
  succeeding i t t' hi hi' u := by
    rw [h.succeeding i t t' hi hi' u]
    refine or_congr_right (exists_congr fun s => exists_congr fun td => ?_)
    constructor
    · exact fun ⟨hL, hs⟩ => ⟨Or.inl hL, hs⟩
    · rintro ⟨hL | ⟨rfl, rfl⟩, hs, hd, hid⟩
      · exact ⟨hL, hs, hd, hid⟩
      · exact absurd hd.symm (hab td t hs hi)

/-- Each of two tasks of a DAG gets the id of the other. -/
theorem Related.link (h : Related base L ts) {a b : ℕ} {ta tb : Task} (hta : base[a]? = some ta)
    (htb : base[b]? = some tb) (hsame : tb.dagId = ta.dagId) :
    Related base (fun i p => L i p ∨ i = a ∧ p = b)
      ((ts.modify b fun t => { t with succeedingTaskIds := insert ta.taskId t.succeedingTaskIds }).modify a
        fun t => { t with precedingTaskIds := insert tb.taskId t.precedingTaskIds }) := by
  have hget : ∀ i : ℕ, ((ts.modify b fun t =>
      { t with succeedingTaskIds := insert ta.taskId t.succeedingTaskIds }).modify a fun t =>
      { t with precedingTaskIds := insert tb.taskId t.precedingTaskIds })[i]? =
      (ts[i]?).map fun t =>
        { t with
          succeedingTaskIds := if b = i then insert ta.taskId t.succeedingTaskIds
            else t.succeedingTaskIds
          precedingTaskIds := if a = i then insert tb.taskId t.precedingTaskIds
            else t.precedingTaskIds } := by
    intro i
    rw [List.getElem?_modify, List.getElem?_modify]
    cases ts[i]? with
    | none => rfl
    | some t => by_cases hai : a = i <;> by_cases hbi : b = i <;> simp [hai, hbi]
  refine ⟨?_, ?_, ?_⟩
  · intro i
    rw [hget, ← h.bare i, Option.map_map]
    rfl
  · intro i t t' hi hi' u
    rw [hget] at hi'
    obtain ⟨t₁, ht₁, rfl⟩ := Option.map_eq_some_iff.mp hi'
    have hold := h.preceding i t t₁ hi ht₁ u
    by_cases hai : a = i
    · subst hai
      cases Option.some.inj (hi.symm.trans hta)
      simp only [if_true, Finset.mem_insert, hold]
      constructor
      · rintro (rfl | hu | ⟨p, tp, hL, hp⟩)
        · exact Or.inr ⟨b, tb, Or.inr ⟨trivial, rfl⟩, htb, hsame, rfl⟩
        · exact Or.inl hu
        · exact Or.inr ⟨p, tp, Or.inl hL, hp⟩
      · rintro (hu | ⟨p, tp, hL | ⟨_, rfl⟩, hp, hd, hid⟩)
        · exact Or.inr (Or.inl hu)
        · exact Or.inr (Or.inr ⟨p, tp, hL, hp, hd, hid⟩)
        · cases Option.some.inj (hp.symm.trans htb)
          exact Or.inl hid.symm
    · simp only [if_neg hai, hold]
      refine or_congr_right (exists_congr fun p => exists_congr fun tp => and_congr_left' ?_)
      simp [Ne.symm hai]
  · intro i t t' hi hi' u
    rw [hget] at hi'
    obtain ⟨t₁, ht₁, rfl⟩ := Option.map_eq_some_iff.mp hi'
    have hold := h.succeeding i t t₁ hi ht₁ u
    by_cases hbi : b = i
    · subst hbi
      cases Option.some.inj (hi.symm.trans htb)
      simp only [if_true, Finset.mem_insert, hold]
      constructor
      · rintro (rfl | hu | ⟨p, tp, hL, hp⟩)
        · exact Or.inr ⟨a, ta, Or.inr ⟨rfl, trivial⟩, hta, hsame.symm, rfl⟩
        · exact Or.inl hu
        · exact Or.inr ⟨p, tp, Or.inl hL, hp⟩
      · rintro (hu | ⟨p, tp, hL | ⟨rfl, _⟩, hp, hd, hid⟩)
        · exact Or.inr (Or.inl hu)
        · exact Or.inr (Or.inr ⟨p, tp, hL, hp, hd, hid⟩)
        · cases Option.some.inj (hp.symm.trans hta)
          exact Or.inl hid.symm
    · simp only [if_neg hbi, hold]
      refine or_congr_right (exists_congr fun p => exists_congr fun tp => and_congr_left' ?_)
      simp [Ne.symm hbi]

/-- One more relation. -/
theorem Related.set (h : Related base L ts) (a b : ℕ) :
    Related base (fun i p => L i p ∨ i = a ∧ p = b) (setRelative a ts b) := by
  rw [setRelative]
  split
  · next self task ha hb =>
    obtain ⟨ta, hta, haid, hadag⟩ := h.task ha
    obtain ⟨tb, htb, hbid, hbdag⟩ := h.task hb
    rw [← haid, ← hbid, ← hadag, ← hbdag]
    split_ifs with hdag
    · refine h.apart fun ta' tb' hta' htb' => ?_
      cases Option.some.inj (hta.symm.trans hta')
      cases Option.some.inj (htb.symm.trans htb')
      exact hdag
    · exact h.link hta htb (not_not.mp hdag)
  · next hnone =>
    refine h.apart fun ta tb hta htb => ?_
    obtain ⟨ta', hta', _⟩ := h.task_after hta
    obtain ⟨tb', htb', _⟩ := h.task_after htb
    exact absurd htb' (hnone ta' tb' hta')

/-- Relations set one after the other. -/
theorem Related.foldl (h : Related base L ts) (es : List (ℕ × ℕ)) :
    Related base (fun i p => L i p ∨ (i, p) ∈ es) (es.foldl (fun ts e => setRelative e.1 ts e.2) ts) := by
  induction es generalizing L ts with
  | nil => exact h.congr fun i p => by simp
  | cons e es ih =>
    refine (ih (h.set e.1 e.2)).congr fun i p => ?_
    rw [List.mem_cons, Prod.ext_iff, or_assoc]

end Relate

section Resolve

variable {B : Builders} {base ts : List Task}

/-- The relations one rule sets, in its order. -/
def edges (B : Builders) (tasks : List Task) : List (ℕ × ℕ) :=
  tasks.zipIdx.flatMap fun (t, i) =>
    (t.getInputTablePaths B).flatMap fun path => (producers B tasks path).map fun p => (i, p)

theorem applyRule_eq (tasks : List Task) :
    applyRule B tasks = (edges B tasks).foldl (fun ts e => setRelative e.1 ts e.2) tasks := by
  have hpath : ∀ (i : ℕ) (ts : List Task) (path : String),
      (if (producers B tasks path).isEmpty then ts else setUpstream i (producers B tasks path) ts) =
        ((producers B tasks path).map fun p => (i, p)).foldl
          (fun ts e => setRelative e.1 ts e.2) ts := by
    intro i ts path
    rw [List.foldl_map]
    split_ifs with hempty
    · rw [List.isEmpty_iff.mp hempty]
      rfl
    · rfl
  rw [applyRule, edges, List.foldl_flatMap]
  simp only [List.foldl_flatMap, hpath]

theorem mem_producers {tasks : List Task} {path : String} {p : ℕ} :
    p ∈ producers B tasks path ↔ ∃ tp, tasks[p]? = some tp ∧ path ∈ tp.getOutputTablePaths B := by
  simp only [producers, List.mem_flatMap, List.mem_map, List.mem_filter, decide_eq_true_eq,
    Prod.exists, List.mem_zipIdx_iff_getElem?]
  constructor
  · rintro ⟨t, i, hi, q, ⟨hq, rfl⟩, rfl⟩
    exact ⟨t, hi, hq⟩
  · rintro ⟨t, hp, hpath⟩
    exact ⟨t, p, hp, path, ⟨hpath, rfl⟩, rfl⟩

theorem mem_edges {tasks : List Task} {i p : ℕ} :
    (i, p) ∈ edges B tasks ↔
      ∃ t tp, tasks[i]? = some t ∧ tasks[p]? = some tp ∧ tp.Feeds B t := by
  simp only [edges, List.mem_flatMap, List.mem_map, Prod.exists, Prod.mk.injEq,
    List.mem_zipIdx_iff_getElem?, mem_producers]
  constructor
  · rintro ⟨t, i', hi, path, hpath, p', ⟨tp, hp, hout⟩, rfl, rfl⟩
    exact ⟨t, tp, hi, hp, path, hout, hpath⟩
  · rintro ⟨t, tp, hi, hp, path, hout, hpath⟩
    exact ⟨t, i, hi, path, hpath, p, ⟨tp, hp, hout⟩, rfl, rfl⟩

theorem feeds_bare {t t' u u' : Task} (ht : t'.bare = t.bare) (hu : u'.bare = u.bare) :
    u'.Feeds B t' ↔ u.Feeds B t := by
  have hin : ∀ {t : Task}, t.bare.getInputTablePaths B = t.getInputTablePaths B := rfl
  have hout : ∀ {t : Task}, t.bare.getOutputTablePaths B = t.getOutputTablePaths B := rfl
  rw [Task.Feeds, Task.Feeds, ← hin, ← hout, ht, hu]
  rfl

/-- The rule sets the same relations on tasks that have relations already. -/
theorem Related.mem_edges_iff {L : ℕ → ℕ → Prop} (h : Related base L ts) {i p : ℕ} :
    (i, p) ∈ edges B ts ↔ (i, p) ∈ edges B base := by
  rw [mem_edges, mem_edges]
  constructor
  · rintro ⟨t, tp, hi, hp, hfeeds⟩
    obtain ⟨t₀, ht₀, _⟩ := h.task hi
    obtain ⟨tp₀, htp₀, _⟩ := h.task hp
    obtain ⟨t', ht', hbare⟩ := h.task_after ht₀
    obtain ⟨tp', htp', hbarep⟩ := h.task_after htp₀
    cases Option.some.inj (hi.symm.trans ht')
    cases Option.some.inj (hp.symm.trans htp')
    exact ⟨t₀, tp₀, ht₀, htp₀, (feeds_bare hbare hbarep).mp hfeeds⟩
  · rintro ⟨t, tp, hi, hp, hfeeds⟩
    obtain ⟨t', ht', hbare⟩ := h.task_after hi
    obtain ⟨tp', htp', hbarep⟩ := h.task_after hp
    exact ⟨t', tp', ht', htp', (feeds_bare hbare hbarep).mpr hfeeds⟩

/-- Rules applied once for every task on a list leave the relations of one application. -/
theorem related_rules {L : ℕ → ℕ → Prop} (h : Related base L ts) (rules : List Task)
    (hL : ∀ i p, L i p → (i, p) ∈ edges B base) :
    Related base (fun i p => L i p ∨ rules ≠ [] ∧ (i, p) ∈ edges B base)
      (rules.foldl (fun ts _ => applyRule B ts) ts) := by
  induction rules generalizing L ts with
  | nil => exact h.congr fun i p => by simp
  | cons r rules ih =>
    have hrule : Related base (fun i p => L i p ∨ (i, p) ∈ edges B base) (applyRule B ts) := by
      rw [applyRule_eq]
      exact (h.foldl _).congr fun i p => by rw [h.mem_edges_iff]
    refine (ih hrule fun i p => ?_).congr fun i p => ?_
    · rintro (hold | hnew)
      · exact hL i p hold
      · exact hnew
    · constructor
      · rintro ((hold | hnew) | ⟨_, hnew⟩)
        · exact Or.inl hold
        · exact Or.inr ⟨List.cons_ne_nil _ _, hnew⟩
        · exact Or.inr ⟨List.cons_ne_nil _ _, hnew⟩
      · rintro (hold | ⟨_, hnew⟩)
        · exact Or.inl (Or.inl hold)
        · exact Or.inl (Or.inr hnew)

/-- Before any relation is set, all tasks being of one DAG. -/
structure Fresh (base : List Task) : Prop where
  preceding : ∀ t ∈ base, t.precedingTaskIds = ∅
  succeeding : ∀ t ∈ base, t.succeedingTaskIds = ∅
  dagId : ∀ t ∈ base, ∀ u ∈ base, u.dagId = t.dagId

/-- What `resolve_tasks_dependencies` leaves: the tasks, and between them the relations of their
tables. -/
theorem resolve_spec (h : Fresh base) {i : ℕ} {t : Task} (hi : base[i]? = some t) :
    ∃ t', (resolveTasksDependencies B base)[i]? = some t' ∧ t'.bare = t.bare ∧
      (∀ u, u ∈ t'.precedingTaskIds ↔ ∃ tp ∈ base, tp.Feeds B t ∧ tp.taskId = u) ∧
      ∀ u, u ∈ t'.succeedingTaskIds ↔ ∃ td ∈ base, t.Feeds B td ∧ td.taskId = u := by
  have hmem := List.mem_of_getElem? hi
  have hrel := related_rules (B := B) (Related.refl base) base fun _ _ h => h.elim
  obtain ⟨t', ht', hbare⟩ := hrel.task_after hi
  have hne : base ≠ [] := List.ne_nil_of_mem hmem
  refine ⟨t', ht', hbare, ?_, ?_⟩
  · intro u
    rw [hrel.preceding i t t' hi ht' u, h.preceding t hmem]
    simp only [Finset.notMem_empty, false_or, hne, ne_eq, not_false_eq_true, true_and, mem_edges]
    constructor
    · rintro ⟨p, tp, ⟨t₀, tp₀, ht₀, htp₀, hfeeds⟩, hp, _, hid⟩
      cases Option.some.inj (hi.symm.trans ht₀)
      cases Option.some.inj (hp.symm.trans htp₀)
      exact ⟨tp, List.mem_of_getElem? hp, hfeeds, hid⟩
    · rintro ⟨tp, hp, hfeeds, hid⟩
      obtain ⟨p, hp'⟩ := List.mem_iff_getElem?.mp hp
      exact ⟨p, tp, ⟨t, tp, hi, hp', hfeeds⟩, hp', h.dagId t hmem tp hp, hid⟩
  · intro u
    rw [hrel.succeeding i t t' hi ht' u, h.succeeding t hmem]
    simp only [Finset.notMem_empty, false_or, hne, ne_eq, not_false_eq_true, true_and, mem_edges]
    constructor
    · rintro ⟨s, td, ⟨td₀, t₀, htd₀, ht₀, hfeeds⟩, hs, _, hid⟩
      cases Option.some.inj (hi.symm.trans ht₀)
      cases Option.some.inj (hs.symm.trans htd₀)
      exact ⟨td, List.mem_of_getElem? hs, hfeeds, hid⟩
    · rintro ⟨td, hd, hfeeds, hid⟩
      obtain ⟨s, hs⟩ := List.mem_iff_getElem?.mp hd
      exact ⟨s, td, ⟨td, t, hs, hi, hfeeds⟩, hs, h.dagId t hmem td hd, hid⟩

instance (u t : Task) : Decidable (u.Feeds B t) :=
  inferInstanceAs (Decidable (∃ path ∈ _, path ∈ _))

/-- A task with the relations its tables have to those of the tasks `base`. -/
def Task.tied (B : Builders) (base : List Task) (t : Task) : Task :=
  { t with
    precedingTaskIds := ((base.filter fun p => p.Feeds B t).map Task.taskId).toFinset
    succeedingTaskIds := ((base.filter fun c => t.Feeds B c).map Task.taskId).toFinset }

theorem mem_preceding_tied {t : Task} {u : String} :
    u ∈ (t.tied B base).precedingTaskIds ↔ ∃ p ∈ base, p.Feeds B t ∧ p.taskId = u := by
  simp [Task.tied, and_assoc]

theorem mem_succeeding_tied {t : Task} {u : String} :
    u ∈ (t.tied B base).succeedingTaskIds ↔ ∃ c ∈ base, t.Feeds B c ∧ c.taskId = u := by
  simp [Task.tied, and_assoc]

/-- A task and what it is tied to depend on the other tasks, not on their order. -/
theorem tied_congr {base' : List Task} (h : ∀ t, t ∈ base' ↔ t ∈ base) (t : Task) :
    t.tied B base' = t.tied B base := by
  have hpre : (t.tied B base').precedingTaskIds = (t.tied B base).precedingTaskIds := by
    ext u
    simp only [mem_preceding_tied, h]
  have hsuc : (t.tied B base').succeedingTaskIds = (t.tied B base).succeedingTaskIds := by
    ext u
    simp only [mem_succeeding_tied, h]
  exact Task.mk.injEq .. |>.mpr ⟨rfl, rfl, rfl, rfl, hpre, hsuc⟩

/-- `resolve_tasks_dependencies` ties every task to the others by their tables. -/
theorem resolve_eq (h : Fresh base) :
    resolveTasksDependencies B base = base.map (Task.tied B base) := by
  apply List.ext_getElem?
  intro i
  rw [List.getElem?_map]
  cases hi : base[i]? with
  | none =>
    have hbare := (related_rules (B := B) (Related.refl base) base fun _ _ h => h.elim).bare i
    rw [hi, Option.map_none, Option.map_eq_none_iff] at hbare
    exact hbare
  | some t =>
    obtain ⟨t', ht', hbare, hpre, hsuc⟩ := resolve_spec (B := B) h hi
    have hpre' : t'.precedingTaskIds = (t.tied B base).precedingTaskIds := by
      ext u
      rw [hpre, mem_preceding_tied]
    have hsuc' : t'.succeedingTaskIds = (t.tied B base).succeedingTaskIds := by
      ext u
      rw [hsuc, mem_succeeding_tied]
    simp only [Task.bare, Task.mk.injEq] at hbare
    rw [ht', Option.map_some]
    congr 1
    cases t'
    simp_all [Task.tied]

/-- A second run finds every relation set. -/
theorem resolve_again :
    resolveTasksDependencies B (resolveTasksDependencies B base) =
      resolveTasksDependencies B base := by
  have hrel := related_rules (B := B) (Related.refl base) base fun _ _ h => h.elim
  have hagain := related_rules (B := B) hrel (resolveTasksDependencies B base) fun i p h =>
    h.elim False.elim And.right
  refine hagain.unique (hrel.congr fun i p => ?_)
  constructor
  · exact Or.inl
  · rintro (hold | ⟨hne, hedge⟩)
    · exact hold
    · refine Or.inr ⟨fun hnil => hne ?_, hedge⟩
      rw [hnil]
      rfl

/-- The tasks stay what they are. -/
theorem map_bare_resolve :
    (resolveTasksDependencies B base).map Task.bare = base.map Task.bare := by
  have hrel := related_rules (B := B) (Related.refl base) base fun _ _ h => h.elim
  apply List.ext_getElem?
  intro i
  rw [List.getElem?_map, List.getElem?_map]
  exact hrel.bare i

end Resolve

end YtScheduler.Dags
