import YtScheduler.Sharding.Standing

/-! Shards of the jobs of one type. A call that finds its job active takes the place of
the job in the dict, a call that registers its job again takes its place in sorted
order. The calls over one set of jobs partition the row keys exactly when the two
orders do not give one place twice, and when there is a fresh job to begin with. -/

namespace YtScheduler

open Sequences

/-- The set of active jobs a call computed over. -/
def ShardCall.over (c : ShardCall) : Finset Uuid := c.jobs.toFinset

/-- Calls over one set of `n` jobs return `n` and different indices below it, and once all of
its jobs have computed over it, each row key belongs to exactly one. -/
structure Partitioned (calls : List ShardCall) : Prop where
  numShards : ∀ c ∈ calls, c.numShards = c.over.card
  index : ∀ c ∈ calls, c.index < c.over.card
  apart : calls.Pairwise fun c d => c.over = d.over → c.index ≠ d.index
  covers : ∀ jobs : Finset Uuid, jobs.Nonempty →
    (∀ j ∈ jobs, ∃ c ∈ calls, c.jobId = j ∧ c.over = jobs) →
    ∀ numVirtualShards farmHash key, ∃! j, j ∈ jobs ∧ ∃ c ∈ calls, c.jobId = j ∧
      (JobContext.determineShardOptions numVirtualShards c).selects farmHash key = true

/-- What the calls over one set return makes them cover it. -/
theorem Partitioned.of_apart {calls : List ShardCall} (hid : (calls.map ShardCall.jobId).Nodup)
    (hnum : ∀ c ∈ calls, c.numShards = c.over.card) (hindex : ∀ c ∈ calls, c.index < c.over.card)
    (hapart : calls.Pairwise fun c d => c.over = d.over → c.index ≠ d.index) :
    Partitioned calls := by
  refine ⟨hnum, hindex, hapart, ?_⟩
  intro jobs hne hover nvs farmHash key
  choose! call hcall hjob hover using hover
  have hinj : Set.InjOn (fun j => (call j).index) {j | j ∈ jobs.toList} := by
    intro j hj k hk hjk
    replace hj := Finset.mem_toList.mp hj
    replace hk := Finset.mem_toList.mp hk
    by_contra hne
    have hcne : call j ≠ call k := fun he => hne (by rw [← hjob j hj, he, hjob k hk])
    have hsymm : Std.Symm fun c d : ShardCall => c.over = d.over → c.index ≠ d.index :=
      ⟨fun c d h he => (h he.symm).symm⟩
    exact hapart.forall (hcall j hj) (hcall k hk) hcne ((hover j hj).trans (hover k hk).symm) hjk
  have hlt : ∀ j ∈ jobs.toList, (call j).index < jobs.toList.length := by
    intro j hj
    rw [Finset.mem_toList] at hj
    rw [Finset.length_toList, ← hover j hj]
    exact hindex _ (hcall j hj)
  have hpos : 0 < jobs.toList.length := by simpa using hne
  have hplace := existsUnique_place jobs.nodup_toList hinj hlt
    (v := farmHash key % nvs % jobs.toList.length) (Nat.mod_lt _ hpos)
  have hselects : ∀ j ∈ jobs, (JobContext.determineShardOptions nvs (call j)).selects farmHash key
      = true ↔ (call j).index = farmHash key % nvs % jobs.toList.length := by
    intro j hj
    rw [ShardingOptions.selects, decide_eq_true_eq, Finset.length_toList]
    rw [JobContext.determineShardOptions, hnum _ (hcall j hj), hover j hj]
    exact eq_comm
  obtain ⟨j, ⟨hj, hjv⟩, huniq⟩ := hplace
  rw [Finset.mem_toList] at hj
  refine ⟨j, ⟨hj, call j, hcall j hj, hjob j hj, (hselects j hj).mpr hjv⟩, ?_⟩
  rintro k ⟨hk, c, hc, hck, hsel⟩
  have hck : c = call k := List.inj_on_of_nodup_map hid hc (hcall k hk) (by rw [hck, hjob k hk])
  subst hck
  exact huniq k ⟨by rwa [Finset.mem_toList], (hselects k hk).mp hsel⟩

namespace Rollcall

variable (ctx : JobContext) (r : Rollcall)

/-- The calls of the roll call, in order. -/
def calls : List ShardCall := trace (JobContext.shardCall r.ts) ctx r.jobs

/-- `s` registers again after the calls of `as`, only fresh jobs call until `x` does, and the
place of `x` in the dict is the place of `s` in sorted order. -/
def Clashes (as : List Uuid) (s : Uuid) (bs : List Uuid) (x : Uuid) : Prop :=
  s ∉ r.fresh ctx ∧ (∀ j ∈ bs ++ [x], j ∈ r.fresh ctx) ∧
    (r.standing ctx (as ++ [s])).idxOf x =
      ((r.standing ctx (as ++ [s])).insertionSort (· ≤ ·)).idxOf s

/-- Some job is fresh when a job calls, and no two callers clash. -/
structure Agrees : Prop where
  someFresh : r.jobs ≠ [] → r.fresh ctx ≠ []
  places : ∀ as s bs x cs, r.jobs.map JobBase.jobId = as ++ s :: (bs ++ x :: cs) →
    ¬r.Clashes ctx as s bs x

variable {ctx r} {as bs : List Uuid}

theorem mem_seats {j k : Uuid} :
    k ∈ r.seats ctx as j ↔ k ∈ r.fresh ctx ∨ k ∈ as ++ [j] := by
  rw [seats]
  split_ifs
  · exact mem_standing
  · rw [List.mem_insertionSort]
    exact mem_standing

theorem nodup_seats {j : Uuid} (h : (as ++ [j]).Nodup) : (r.seats ctx as j).Nodup := by
  rw [seats]
  split_ifs
  · exact nodup_standing h
  · exact (List.perm_insertionSort _ _).nodup_iff.mpr (nodup_standing h)

theorem over_answer {j : Uuid} :
    (Called.answer ctx r as j).over = (r.standing ctx (as ++ [j])).toFinset := by
  apply Finset.ext
  intro k
  rw [ShardCall.over, List.mem_toFinset, List.mem_toFinset, mem_standing]
  exact mem_seats

/-- The calls after `as` compute over the same jobs as long as only fresh jobs call. -/
theorem standing_toFinset_eq_iff (h : (as ++ bs).Nodup) :
    (r.standing ctx as).toFinset = (r.standing ctx (as ++ bs)).toFinset ↔
      ∀ j ∈ bs, j ∈ r.fresh ctx := by
  constructor
  · intro he j hj
    have hmem : j ∈ (r.standing ctx as).toFinset := by
      rw [he, List.mem_toFinset, mem_standing]
      exact Or.inr (List.mem_append_right _ hj)
    rw [List.mem_toFinset, mem_standing] at hmem
    exact hmem.resolve_right fun has => List.disjoint_of_nodup_append h has hj
  · intro hfresh
    rw [standing_append_fresh hfresh]

theorem jobIds_calls : (r.calls ctx).map ShardCall.jobId = r.jobs.map JobBase.jobId :=
  map_trace (JobContext.shardCall r.ts) (fun _ _ => rfl) ctx r.jobs

theorem mem_calls (hne : r.fresh ctx ≠ []) {c : ShardCall} : c ∈ r.calls ctx ↔
    ∃ cs job ds, r.jobs = cs ++ job :: ds ∧
      c = Called.answer ctx r (cs.map JobBase.jobId) job.jobId := by
  rw [calls, mem_trace]
  constructor
  · rintro ⟨cs, job, ds, hr, rfl⟩
    exact ⟨cs, job, ds, hr, call_eq hne hr⟩
  · rintro ⟨cs, job, ds, hr, rfl⟩
    exact ⟨cs, job, ds, hr, (call_eq hne hr).symm⟩

theorem numShards_calls (hne : r.fresh ctx ≠ []) :
    ∀ c ∈ r.calls ctx, c.numShards = c.over.card := by
  intro c hc
  obtain ⟨cs, job, ds, hr, rfl⟩ := (mem_calls hne).mp hc
  have hnodup : (cs.map JobBase.jobId ++ [job.jobId]).Nodup :=
    r.nodup.sublist (by rw [hr]; simp)
  exact (List.toFinset_card_of_nodup (nodup_seats hnodup)).symm

theorem index_calls (hne : r.fresh ctx ≠ []) : ∀ c ∈ r.calls ctx, c.index < c.over.card := by
  intro c hc
  have hnum := numShards_calls hne c hc
  obtain ⟨cs, job, ds, hr, rfl⟩ := (mem_calls hne).mp hc
  rw [← hnum]
  exact List.idxOf_lt_length_of_mem (mem_seats.mpr (Or.inr (by simp)))

/-- Two calls over one set get different places, unless the first is a new registration that
takes the place of the second. -/
theorem apart_iff {s x : Uuid} (h : (as ++ s :: (bs ++ [x])).Nodup) :
    ((Called.answer ctx r as s).over = (Called.answer ctx r (as ++ s :: bs) x).over →
      (Called.answer ctx r as s).index ≠ (Called.answer ctx r (as ++ s :: bs) x).index) ↔
    ¬r.Clashes ctx as s bs x := by
  have happend : as ++ s :: bs ++ [x] = (as ++ [s]) ++ (bs ++ [x]) := by simp
  have hnodup : ((as ++ [s]) ++ (bs ++ [x])).Nodup := by simpa using h
  rw [over_answer, over_answer, happend, standing_toFinset_eq_iff hnodup]
  -- over one set, `x` is fresh and its list is the one the dict is left with after `s`
  have hseats : (∀ j ∈ bs ++ [x], j ∈ r.fresh ctx) →
      r.seats ctx (as ++ s :: bs) x = r.standing ctx (as ++ [s]) := by
    intro hfresh
    rw [seats, if_pos (hfresh x (by simp)), happend, standing_append_fresh hfresh]
  have hne : s ≠ x := by
    intro he
    exact List.disjoint_of_nodup_append hnodup (a := s) (by simp) (by simp [he])
  constructor
  · rintro hsame ⟨hstale, hfresh, hplace⟩
    apply hsame hfresh
    rw [Called.answer, Called.answer, hseats hfresh, seats, if_neg hstale, hplace]
  · intro hplace hfresh
    rw [Called.answer, Called.answer, hseats hfresh, seats]
    split_ifs with hs
    · exact idxOf_ne_of_mem (mem_standing.mpr (Or.inl hs)) hne
    · exact fun hidx => hplace ⟨hs, hfresh, hidx.symm⟩

theorem apart_calls_iff (hne : r.fresh ctx ≠ []) :
    (r.calls ctx).Pairwise (fun c d => c.over = d.over → c.index ≠ d.index) ↔
      ∀ as s bs x cs, r.jobs.map JobBase.jobId = as ++ s :: (bs ++ x :: cs) →
        ¬r.Clashes ctx as s bs x := by
  have hnodup : ∀ {as s bs x cs}, r.jobs.map JobBase.jobId = as ++ s :: (bs ++ x :: cs) →
      (as ++ s :: (bs ++ [x])).Nodup := by
    intro as s bs x cs hr
    exact r.nodup.sublist (by rw [hr]; simp)
  have hanswer : ∀ {cs s ds x es}, r.jobs = cs ++ s :: (ds ++ x :: es) →
      (JobContext.shardCall r.ts (after (JobContext.shardCall r.ts) ctx (cs ++ s :: ds)) x).1 =
        Called.answer ctx r (cs.map JobBase.jobId ++ s.jobId :: ds.map JobBase.jobId) x.jobId := by
    intro cs s ds x es hr
    rw [call_eq hne (show r.jobs = (cs ++ s :: ds) ++ x :: es by rw [hr]; simp), List.map_append, List.map_cons]
  rw [calls, pairwise_trace]
  constructor
  · intro h as s bs x cs hr
    obtain ⟨as, _, hjobs, rfl, hrest⟩ := List.map_eq_append_iff.mp hr
    obtain ⟨s, _, rfl, rfl, hlater⟩ := List.map_eq_cons_iff.mp hrest
    obtain ⟨bs, _, rfl, rfl, hlast⟩ := List.map_eq_append_iff.mp hlater
    obtain ⟨x, cs, rfl, rfl, rfl⟩ := List.map_eq_cons_iff.mp hlast
    have hcall := h as s bs x cs hjobs
    rw [call_eq hne hjobs, hanswer hjobs] at hcall
    exact (apart_iff (hnodup hr)).mp hcall
  · intro h cs s ds x es hr
    have hids : r.jobs.map JobBase.jobId = cs.map JobBase.jobId ++
        s.jobId :: (ds.map JobBase.jobId ++ x.jobId :: es.map JobBase.jobId) := by rw [hr]; simp
    rw [call_eq hne hr, hanswer hr]
    exact (apart_iff (hnodup hids)).mpr (h _ _ _ _ _ hids)

/-- Without a fresh job the first call returns no shard at all. -/
theorem not_partitioned (hjobs : r.jobs ≠ []) (hfresh : r.fresh ctx = []) :
    ¬Partitioned (r.calls ctx) := by
  intro h
  obtain ⟨job, jobs, hjobs⟩ := List.exists_cons_of_ne_nil hjobs
  have hcall : (JobContext.shardCall r.ts ctx job).1 = ⟨job.jobId, 0, 0, []⟩ := by
    have hname : job.name = r.name := r.name_eq job (by simp [hjobs])
    rw [JobContext.shardCall, JobContext.computeShardIndex_of_none (by rwa [hname])]
  have hmem : (JobContext.shardCall r.ts ctx job).1 ∈ r.calls ctx := by
    rw [calls, hjobs, trace]
    exact List.mem_cons_self
  have hindex := h.index _ hmem
  rw [hcall] at hindex
  exact Nat.not_lt_zero _ hindex

end Rollcall

/-- The calls of a roll call partition the row keys exactly when the two orders agree. -/
theorem shards_partition_iff (ctx : JobContext) (r : Rollcall) :
    Partitioned (r.calls ctx) ↔ r.Agrees ctx := by
  by_cases hfresh : r.fresh ctx = []
  · by_cases hjobs : r.jobs = []
    · constructor
      · intro _
        exact ⟨fun h => absurd hjobs h, fun as s bs x cs hr => by simp [hjobs] at hr⟩
      · intro _
        rw [Rollcall.calls, hjobs]
        exact Partitioned.of_apart (by simp [trace]) (by simp [trace]) (by simp [trace])
          (by simp [trace])
    · constructor
      · intro h
        exact absurd h (Rollcall.not_partitioned hjobs hfresh)
      · intro h
        exact absurd hfresh (h.someFresh hjobs)
  · constructor
    · intro h
      exact ⟨fun _ => hfresh, (Rollcall.apart_calls_iff hfresh).mp h.apart⟩
    · intro h
      apply Partitioned.of_apart
      · rw [Rollcall.jobIds_calls]
        exact r.nodup
      · exact Rollcall.numShards_calls hfresh
      · exact Rollcall.index_calls hfresh
      · exact (Rollcall.apart_calls_iff hfresh).mpr h.places

section Example

def shardJob (jobId : Uuid) : JobBase := ⟨"executor", jobId, "host", jobId⟩

/-- Job 2 registers before job 1; at time 40 only job 2 has a fresh heartbeat. -/
def lateJob : JobContext :=
  JobContext.empty.touchAll [(0, (shardJob 2).runOptions), (0, (shardJob 1).runOptions),
    (30, (shardJob 2).runOptions)]

/-- Job 1 computes its shard, then job 2. -/
def lateCalls : Rollcall := ⟨40, "executor", [shardJob 1, shardJob 2], by decide, by decide⟩

/-- Both get index 0 of 2. -/
theorem shards_overlap : ¬Partitioned (lateCalls.calls lateJob) := by
  intro h
  exact absurd h.apart (by decide +kernel)

end Example

end YtScheduler
