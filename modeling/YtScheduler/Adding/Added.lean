import YtScheduler.Adding.Adders

/-! The tables while DAGs are added. No two calls generate one uuid, so every DagRef is
written under an id nothing was written under before, and stays as it was written. -/

namespace YtScheduler

open Tablet Threads

variable {σ σ' : AddState} {a : AddStep} {i j ts : ℕ} {l m : AddLoc} {id : Uuid} {ref : DagRefRow}

/-- The private state of a thread. -/
def locOf (σ : AddState) (i : ℕ) : Option AddLoc := (σ.threads[i]?).map Prod.fst

/-- What is known of the tables and of the uuids. -/
structure Added (σ : AddState) : Prop where
  held : ∀ i l, locOf σ i = some l → ∀ id ∈ l.uuids,
    id < σ.shared.uuids ∧ Db.dagRef σ.shared.store.init id = none
  distinct : ∀ i j l m, locOf σ i = some l → locOf σ j = some m →
    ∀ id ∈ l.uuids, id ∈ m.uuids → i = j
  init_lt : ∀ id ref, Db.dagRef σ.shared.store.init id = some ref → id < σ.shared.uuids
  init_stay : ∀ id ref, Db.dagRef σ.shared.store.init id = some ref →
    σ.shared.db.dagRef id = some ref
  author : ∀ c ∈ σ.shared.store.log, ∃ l, locOf σ c.author = some l ∧
    ∀ ref, .dagRef ref ∈ c.rows → ref.dagId ∈ l.uuids ∧ σ.shared.db.dagRef ref.dagId = some ref

namespace Added

/-- A DagRef of a snapshot is still in the tables. -/
theorem stay (h : Added σ) (href : Db.dagRef (σ.shared.store.asOf ts) id = some ref) :
    σ.shared.db.dagRef id = some ref := by
  rcases get_asOf_cases href with hinit | ⟨c, hc, hrow⟩
  · exact h.init_stay id ref hinit
  · obtain ⟨l, _, hrefs⟩ := h.author c hc
    rw [← Db.id_of_get href]
    exact (hrefs ref hrow).2

/-- A thread that has committed nothing has its uuids for itself. -/
theorem unused (h : Added σ) (hloc : locOf σ i = some l) (hid : id ∈ l.uuids)
    (hpending : σ.shared.store.authored i = []) : σ.shared.db.dagRef id = none := by
  refine Option.eq_none_iff_forall_ne_some.mpr fun ref href => ?_
  rw [Shared.db, ← Store.asOf_now] at href
  rcases get_asOf_cases href with hinit | ⟨c, hc, hrow⟩
  · cases (h.held i l hloc id hid).2.symm.trans hinit
  · obtain ⟨m, hm, hrefs⟩ := h.author c hc
    have hown := (hrefs ref hrow).1
    rw [show ref.dagId = id from Db.id_of_get href] at hown
    have hauthor := h.distinct _ _ m l hm hloc id hown hid
    have hmem : c ∈ σ.shared.store.authored i := by simp [Store.authored, hc, hauthor]
    rw [hpending] at hmem
    cases hmem

end Added

/-! ### One step -/

theorem exec_uuids (o : Op) (i : ℕ) (ch : Choice) (l : Loc) (s : Shared) :
    (o.exec i ch l s).2.2.uuids =
      match o with
      | .generateUuid => s.uuids + 1
      | _ => s.uuids := by
  cases o with
  | insert c rows =>
    simp only [Op.exec]
    split
    · rfl
    · unfold Shared.insert
      split <;> rfl
  | _ => first | rfl | (simp only [Op.exec]; (repeat' split) <;> rfl)

/-- What a step of thread `i` does to its private state, the uuids and the tables. -/
structure Stepped (σ σ' : AddState) (i : ℕ) (l l' : AddLoc) : Prop where
  before : locOf σ i = some l
  after : ∀ j, locOf σ' j = if j = i then some l' else locOf σ j
  payload : l'.payloadHash = l.payloadHash
  uuids : l'.uuids = l.uuids ∧ σ'.shared.uuids = σ.shared.uuids ∨
    l'.uuids = σ.shared.uuids :: l.uuids ∧ σ'.shared.uuids = σ.shared.uuids + 1
  store : σ'.shared.store = σ.shared.store ∨ ∃ c, σ'.shared.store = σ.shared.store.append c ∧
    c.author = i ∧ σ.shared.store.authored i = [] ∧ Adds l σ.shared c.inTx c.rows

abbrev AddSound (σ : AddState) : Prop :=
  Sound adding adders (fun _ => Safe.Returns fun _ _ _ => True) σ

theorem stepped_of_act (h : AddSound σ) {ch : Choice} (ha : adding.act σ (.step i ch) = some σ') :
    ∃ l l', Stepped σ σ' i l l' := by
  obtain ⟨l, o, k, hth, rfl, howed, _⟩ := h.step ha
  have hlt := (List.getElem?_eq_some_iff.mp hth).1
  refine ⟨l, (adding.exec o i ch l σ.shared).2.1, ?_, fun j => ?_, rfl, ?_, ?_⟩
  · rw [locOf, hth]
    rfl
  · rw [locOf]
    by_cases hj : j = i
    · subst hj
      simp [hlt]
    · simp [hj, List.getElem?_set_ne (Ne.symm hj), locOf]
  · have hu := exec_uuids o i ch l.loc σ.shared
    cases o with
    | generateUuid => exact Or.inr ⟨rfl, hu⟩
    | _ => exact Or.inl ⟨rfl, hu⟩
  · rcases Op.exec_store o i ch l.loc σ.shared with hs | ⟨c, rows, _, _, _, hs⟩ | ⟨c, tx, _, _, _, _, _, hs⟩
    · exact Or.inl hs
    · exact Or.inr ⟨_, hs, howed.guar.adds _ hs⟩
    · exact Or.inr ⟨_, hs, howed.guar.adds _ hs⟩

/-! ### What a commit adds -/

section

variable {db : Db}

/-- The DagRefs after the commit of a call that found none. -/
theorem dagRef_of_creates {taskRefs : List TaskRefRow} {row : DagMetaRow} :
    Db.dagRef (db.upsertAll (.dagRef ref :: (taskRefs.map .taskRef ++ [.dagMeta row]))) id =
      if id = ref.dagId then some ref else db.dagRef id := by
  have hmem : ∀ r : DagRefRow,
      RowKind.toRow r ∈ Row.dagRef ref :: (taskRefs.map .taskRef ++ [.dagMeta row]) ↔ r = ref := by
    intro r
    show Row.dagRef r ∈ _ ↔ _
    simp
  split_ifs with hid
  · subst hid
    obtain ⟨r, hr, _, hget⟩ := Db.get_upsertAll_of_written db ⟨ref, (hmem ref).mpr rfl, rfl⟩
    rw [(hmem r).mp hr] at hget
    exact hget
  · refine Db.get_upsertAll_of_not_written fun r hr hrid => hid ?_
    rw [(hmem r).mp hr] at hrid
    exact hrid.symm

/-- A DagMeta alone leaves the DagRefs alone. -/
theorem dagRef_of_refers {row : DagMetaRow} :
    Db.dagRef (db.upsertAll [.dagMeta row]) id = db.dagRef id := by
  refine Db.get_upsertAll_of_not_written fun r hr _ => ?_
  have hr : Row.dagRef r ∈ [Row.dagMeta row] := hr
  simp at hr

end

/-- A step keeps every DagRef. -/
theorem Added.keeps (h : Added σ) (hs : Stepped σ σ' i l m) (href : σ.shared.db.dagRef id = some ref) :
    σ'.shared.db.dagRef id = some ref := by
  rcases hs.store with hstore | ⟨⟨author, inTx, start, rows⟩, hstore, _, hpending, hadds⟩
  · rw [Shared.db, hstore]
    exact href
  · rw [Shared.db, hstore, Store.current_append]
    cases hadds with
    | creates hl hpayload hid hrow =>
      rw [dagRef_of_creates, if_neg]
      · exact href
      · rintro rfl
        cases (h.unused hs.before hid hpending).symm.trans href
    | refers hl hrow =>
      rw [dagRef_of_refers]
      exact href

theorem Stepped.after_self (hs : Stepped σ σ' i l m) : locOf σ' i = some m := by
  rw [hs.after, if_pos rfl]

theorem Stepped.init_eq (hs : Stepped σ σ' i l m) : σ'.shared.store.init = σ.shared.store.init := by
  rcases hs.store with hstore | ⟨c, hstore, _⟩
  · rw [hstore]
  · rw [hstore]
    rfl

theorem Stepped.uuids_le (hs : Stepped σ σ' i l m) : σ.shared.uuids ≤ σ'.shared.uuids := by
  rcases hs.uuids with ⟨_, hu⟩ | ⟨_, hu⟩ <;> omega

/-- A uuid that a thread holds after the step it held before, or it is the one just generated. -/
theorem Stepped.held_cases (hs : Stepped σ σ' i l m) {k : AddLoc} (hloc : locOf σ' j = some k)
    (hid : id ∈ k.uuids) :
    (∃ k', locOf σ j = some k' ∧ id ∈ k'.uuids) ∨
      (j = i ∧ id = σ.shared.uuids ∧ σ'.shared.uuids = σ.shared.uuids + 1) := by
  rw [hs.after] at hloc
  split_ifs at hloc with hj
  · cases hloc
    subst hj
    rcases hs.uuids with ⟨hu, _⟩ | ⟨hu, hs'⟩
    · exact Or.inl ⟨l, hs.before, hu ▸ hid⟩
    · rw [hu] at hid
      rcases List.mem_cons.mp hid with rfl | hid
      · exact Or.inr ⟨rfl, rfl, hs'⟩
      · exact Or.inl ⟨l, hs.before, hid⟩
  · exact Or.inl ⟨k, hloc, hid⟩

/-- The thread of a private state, after the step. -/
theorem Stepped.loc_grows (hs : Stepped σ σ' i l m) {k : AddLoc} (hloc : locOf σ j = some k) :
    ∃ k', locOf σ' j = some k' ∧ k'.payloadHash = k.payloadHash ∧ ∀ id ∈ k.uuids, id ∈ k'.uuids := by
  by_cases hj : j = i
  · subst hj
    cases hs.before.symm.trans hloc
    refine ⟨m, hs.after_self, hs.payload, fun id hid => ?_⟩
    rcases hs.uuids with ⟨hu, _⟩ | ⟨hu, _⟩
    · exact hu ▸ hid
    · rw [hu]
      exact List.mem_cons_of_mem _ hid
  · exact ⟨k, by rw [hs.after, if_neg hj, hloc], rfl, fun _ hid => hid⟩

/-- The step lemma. -/
theorem Added.step (h : Added σ) (hs : Stepped σ σ' i l m) : Added σ' where
  held j k hloc id hid := by
    rw [hs.init_eq]
    rcases hs.held_cases hloc hid with ⟨k', hloc', hid'⟩ | ⟨_, rfl, hu⟩
    · exact ⟨(h.held j k' hloc' id hid').1.trans_le hs.uuids_le, (h.held j k' hloc' id hid').2⟩
    · refine ⟨hu ▸ Nat.lt_succ_self _, Option.eq_none_iff_forall_ne_some.mpr fun ref href => ?_⟩
      exact absurd (h.init_lt _ ref href) (lt_irrefl _)
  distinct j j' k k' hloc hloc' id hid hid' := by
    rcases hs.held_cases hloc hid with ⟨n, hn, hidn⟩ | ⟨rfl, rfl, _⟩ <;>
      rcases hs.held_cases hloc' hid' with ⟨n', hn', hidn'⟩ | ⟨hj', hid'', _⟩
    · exact h.distinct j j' n n' hn hn' id hidn hidn'
    · subst hid''
      exact absurd (h.held j n hn _ hidn).1 (lt_irrefl _)
    · exact absurd (h.held j' n' hn' _ hidn').1 (lt_irrefl _)
    · exact hj'.symm
  init_lt id ref href := by
    rw [hs.init_eq] at href
    exact (h.init_lt id ref href).trans_le hs.uuids_le
  init_stay id ref href := by
    rw [hs.init_eq] at href
    exact h.keeps hs (h.init_stay id ref href)
  author c hc := by
    have hold : ∀ c ∈ σ.shared.store.log, ∃ l, locOf σ' c.author = some l ∧ ∀ ref,
        .dagRef ref ∈ c.rows → ref.dagId ∈ l.uuids ∧ σ'.shared.db.dagRef ref.dagId = some ref := by
      intro c hc
      obtain ⟨k, hk, hrefs⟩ := h.author c hc
      obtain ⟨k', hk', _, huuids⟩ := hs.loc_grows hk
      exact ⟨k', hk', fun ref href => ⟨huuids _ (hrefs ref href).1, h.keeps hs (hrefs ref href).2⟩⟩
    rcases hs.store with hstore | ⟨⟨author, inTx, start, rows⟩, hstore, rfl, _, hadds⟩
    · rw [hstore] at hc
      exact hold c hc
    · rw [hstore, Store.log_append] at hc
      rcases List.mem_cons.mp hc with rfl | hc
      · obtain ⟨k', hk', _, huuids⟩ := hs.loc_grows hs.before
        refine ⟨k', hk', fun ref href => ?_⟩
        rw [Shared.db, hstore, Store.current_append]
        cases hadds with
        | creates hl hpayload hid hrow =>
          obtain rfl : ref = _ := by simpa using href
          exact ⟨huuids _ hid, by rw [dagRef_of_creates, if_pos rfl]⟩
        | refers hl hrow => simp at href
      · exact hold c hc

/-- A thread that is spawned holds no uuid. -/
theorem loc_of_spawn {dag : AddedDag} (ha : adding.act σ (.spawn dag) = some σ')
    (hloc : locOf σ' j = some l) : locOf σ j = some l ∨ l.uuids = [] := by
  cases ha
  rw [locOf] at hloc
  obtain ⟨th, hth, rfl⟩ := Option.map_eq_some_iff.mp hloc
  rcases Nat.lt_or_ge j σ.threads.length with hj | hj
  · rw [List.getElem?_append_left hj] at hth
    exact Or.inl (by rw [locOf, hth]; rfl)
  · rw [List.getElem?_append_right hj, List.getElem?_singleton] at hth
    split_ifs at hth
    cases hth
    exact Or.inr rfl

theorem loc_spawned {dag : AddedDag} (ha : adding.act σ (.spawn dag) = some σ')
    (hloc : locOf σ j = some l) : locOf σ' j = some l := by
  cases ha
  obtain ⟨th, hth, rfl⟩ := Option.map_eq_some_iff.mp hloc
  rw [locOf, List.getElem?_append_left (List.getElem?_eq_some_iff.mp hth).1, hth]
  rfl

theorem Added.spawn (h : Added σ) {dag : AddedDag} (ha : adding.act σ (.spawn dag) = some σ') :
    Added σ' := by
  have hloc := fun j l => loc_of_spawn (j := j) (l := l) ha
  have hkept := fun j l => loc_spawned (j := j) (l := l) ha
  have hshared : σ'.shared = σ.shared := by
    cases ha
    rfl
  refine ⟨fun j k hk id hid => ?_, fun j j' k k' hk hk' id hid hid' => ?_, ?_, ?_, fun c hc => ?_⟩
  · rw [hshared]
    rcases hloc j k hk with hk | hnil
    · exact h.held j k hk id hid
    · rw [hnil] at hid
      cases hid
  · rcases hloc j k hk with hk | hnil
    · rcases hloc j' k' hk' with hk' | hnil
      · exact h.distinct j j' k k' hk hk' id hid hid'
      · rw [hnil] at hid'
        cases hid'
    · rw [hnil] at hid
      cases hid
  · rw [hshared]
    exact h.init_lt
  · rw [hshared]
    exact h.init_stay
  · rw [hshared] at hc ⊢
    obtain ⟨l, hl, hrefs⟩ := h.author c hc
    exact ⟨l, hkept _ _ hl, hrefs⟩

/-! ### Runs -/

/-- Where adding starts: nothing runs, and the DagRefs there are have uuids in use. -/
structure Unadded (σ : AddState) : Prop where
  threads : σ.threads = []
  log : σ.shared.store.log = []
  opened : ∀ c, σ.shared.opened c = []
  refs_lt : ∀ id ref, σ.shared.db.dagRef id = some ref → id < σ.shared.uuids

theorem adds_startable : Startable adding adders (fun _ => Safe.Returns fun _ _ _ => True)
    fun _ : AddedDag => True where
  stable _ _ _ _ _ h _ _ := h
  start _ _ _ _ _ hf := AddSpec.tryAddDag hf.1 hf.2 rfl rfl

theorem Unadded.sound (h : Unadded σ) : AddSound σ where
  inv := trivial
  safe := by simp [h.threads]
  fresh i _ := ⟨h.opened _, by simp [Store.authored, h.log]⟩

theorem Unadded.added (h : Unadded σ) : Added σ := by
  have hloc : ∀ {j l}, locOf σ j ≠ some l := by
    intro j l
    simp [locOf, h.threads]
  have hdb : σ.shared.store.init = σ.shared.db := by
    rw [Shared.db, Store.current, h.log]
    rfl
  refine ⟨fun _ _ hl => absurd hl hloc, fun _ _ _ _ hl => absurd hl hloc, ?_, ?_, ?_⟩
  · rw [hdb]
    exact h.refs_lt
  · rw [hdb]
    exact fun _ _ href => href
  · simp [h.log]

/-- The states of a run are sound, and what is known of the tables holds in them. -/
structure Reached (σ : AddState) : Prop where
  sound : AddSound σ
  added : Added σ

theorem Unadded.reached (h : Unadded σ) : Reached σ := ⟨h.sound, h.added⟩

theorem Reached.act (h : Reached σ) (ha : adding.act σ a = some σ') : Reached σ' := by
  refine ⟨h.sound.act adds_startable (a := a) (by cases a <;> trivial) ha, ?_⟩
  cases a with
  | spawn dag => exact h.added.spawn ha
  | step i ch =>
    obtain ⟨l, l', hs⟩ := stepped_of_act h.sound ha
    exact h.added.step hs

theorem Unadded.run {σ₀ : AddState} {as : List AddStep} (h : Unadded σ₀)
    (hr : adding.run σ₀ as = some σ) : Reached σ :=
  Machine.run_induction h.reached (fun _ _ _ h ha => h.act ha) hr

end YtScheduler
