import YtScheduler.Sharding.Heartbeats
import YtScheduler.Sequences.Trace

/-! The list of active jobs while a roll call goes on. It stays in the order of the
dict; a call of a job without a fresh heartbeat adds that job, and no other call
changes it. -/

namespace YtScheduler

open Tablet Sequences

namespace JobContext

variable {ctx : JobContext} {t : Timestamp} {name : String} {b : JobBase} {j : Uuid}

/-- The job ids of one type, in the order of their registration. -/
def jobIds (ctx : JobContext) (name : String) : List Uuid :=
  (ctx.getAllJobs name).map JobRunInfo.jobId

theorem nodup_jobIds (ctx : JobContext) (name : String) : (ctx.jobIds name).Nodup :=
  (ctx.activeJobs name).nodup

theorem mem_getActiveJobs : j ∈ ctx.getActiveJobs t name ↔
    ∃ run, (ctx.activeJobs name).find j = some run ∧ t - run.lastSeen ≤ heartbeatTtl := by
  simp only [getActiveJobs, getAllJobs, List.mem_map, List.mem_filter, Table.find_eq_some,
    decide_eq_true_eq]
  constructor
  · rintro ⟨run, ⟨hrun, hts⟩, rfl⟩
    exact ⟨run, ⟨hrun, rfl⟩, hts⟩
  · rintro ⟨run, ⟨hrun, rfl⟩, hts⟩
    exact ⟨run, ⟨hrun, hts⟩, rfl⟩

/-- The active jobs stand in registration order. -/
theorem getActiveJobs_eq_filter :
    ctx.getActiveJobs t name =
      (ctx.jobIds name).filter fun j => j ∈ ctx.getActiveJobs t name := by
  rw [jobIds, List.filter_map, getActiveJobs]
  congr 1
  apply List.filter_congr
  intro run hrun
  have hfind := Table.mem_rows.mp hrun
  apply decide_eq_decide.mpr
  constructor
  · intro hts
    exact mem_getActiveJobs.mpr ⟨run, hfind, hts⟩
  · intro hmem
    obtain ⟨run', hrun', hts⟩ := mem_getActiveJobs.mp hmem
    cases Option.some.inj (hfind.symm.trans hrun')
    exact hts

theorem mem_jobIds_of_active (h : j ∈ ctx.getActiveJobs t name) : j ∈ ctx.jobIds name := by
  rw [getActiveJobs_eq_filter] at h
  exact List.mem_of_mem_filter h

/-! ### One heartbeat -/

theorem jobId_touched (o : HeartbeatOptions) (row : Option JobRunInfo) :
    (touched t o row).jobId = o.jobId := by cases row <;> rfl

theorem lastSeen_touched (o : HeartbeatOptions) (row : Option JobRunInfo) :
    (touched t o row).lastSeen = t := by cases row <;> rfl

theorem activeJobs_touchJob (o : HeartbeatOptions) :
    (ctx.touchJob t o).activeJobs o.jobType = (ctx.activeJobs o.jobType).upsert
      (touched t o ((ctx.activeJobs o.jobType).find o.jobId)) := by
  simp [touchJob]

variable (ctx) in
/-- A job new to the dict is put last, every other keeps its place. -/
theorem jobIds_touchJob (o : HeartbeatOptions) :
    (ctx.touchJob t o).jobIds o.jobType =
      if o.jobId ∈ ctx.jobIds o.jobType then ctx.jobIds o.jobType
      else ctx.jobIds o.jobType ++ [o.jobId] := by
  have hkeys := Table.keys_put (touched t o ((ctx.activeJobs o.jobType).find o.jobId))
    (ctx.activeJobs o.jobType).rows
  rw [show Keyed.key (touched t o _) = o.jobId from jobId_touched o _] at hkeys
  rw [jobIds, getAllJobs, activeJobs_touchJob]
  exact hkeys

variable (ctx) in
theorem mem_getActiveJobs_touchJob (o : HeartbeatOptions) :
    j ∈ (ctx.touchJob t o).getActiveJobs t o.jobType ↔
      j ∈ ctx.getActiveJobs t o.jobType ∨ j = o.jobId := by
  rw [mem_getActiveJobs, mem_getActiveJobs, activeJobs_touchJob, Table.find_upsert,
    show Keyed.key (touched t o _) = o.jobId from jobId_touched o _]
  by_cases hj : j = o.jobId
  · subst hj
    have hts : t - (touched t o ((ctx.activeJobs o.jobType).find o.jobId)).lastSeen ≤
        heartbeatTtl := by
      rw [lastSeen_touched, sub_self]
      decide
    exact ⟨fun _ => Or.inr rfl, fun _ => ⟨_, if_pos rfl, hts⟩⟩
  · simp [hj, Ne.symm hj]

/-! ### One call -/

theorem computeShardIndex_of_none (h : ctx.getActiveJobs t b.name = []) :
    ctx.computeShardIndex t b = ((0, 0, []), ctx) := by
  simp [computeShardIndex, h]

variable (ctx) in
theorem computeShardIndex_of_fresh (h : b.jobId ∈ ctx.getActiveJobs t b.name) :
    ctx.computeShardIndex t b =
      (((ctx.getActiveJobs t b.name).idxOf b.jobId,
        (ctx.getActiveJobs t b.name).length, ctx.getActiveJobs t b.name), ctx) := by
  simp [computeShardIndex, h, List.ne_nil_of_mem h]

variable (ctx) in
theorem computeShardIndex_of_stale (hne : ctx.getActiveJobs t b.name ≠ [])
    (h : b.jobId ∉ ctx.getActiveJobs t b.name) :
    ctx.computeShardIndex t b =
      let jobs := (ctx.getActiveJobs t b.name ++ [b.jobId]).insertionSort (· ≤ ·)
      ((jobs.idxOf b.jobId, jobs.length, jobs), ctx.touchJob t b.runOptions) := by
  simp [computeShardIndex, h, hne]

end JobContext

/-! ### A roll call -/

namespace Rollcall

variable (ctx : JobContext) (r : Rollcall)

/-- The jobs with a heartbeat before the roll call. -/
def fresh : List Uuid := ctx.getActiveJobs r.ts r.name

/-- The active jobs after the calls of `as`: the fresh jobs of the dict and those of its jobs
that have called, then the callers new to it. -/
def standing (as : List Uuid) : List Uuid :=
  (ctx.jobIds r.name).filter (fun j => j ∈ r.fresh ctx ∨ j ∈ as) ++
    as.filter (fun j => j ∉ ctx.jobIds r.name)

/-- The list a call of `j` after those of `as` computes over: sorted when `j` had to register
again. -/
def seats (as : List Uuid) (j : Uuid) : List Uuid :=
  if j ∈ r.fresh ctx then r.standing ctx (as ++ [j])
  else (r.standing ctx (as ++ [j])).insertionSort (· ≤ ·)

variable {ctx r} {as bs : List Uuid} {j : Uuid}

theorem fresh_subset (h : j ∈ r.fresh ctx) : j ∈ ctx.jobIds r.name :=
  JobContext.mem_jobIds_of_active h

theorem mem_standing : j ∈ r.standing ctx as ↔ j ∈ r.fresh ctx ∨ j ∈ as := by
  simp only [standing, List.mem_append, List.mem_filter, decide_eq_true_eq]
  constructor
  · rintro (⟨-, h⟩ | ⟨h, -⟩)
    · exact h
    · exact Or.inr h
  · intro h
    by_cases hj : j ∈ ctx.jobIds r.name
    · exact Or.inl ⟨hj, h⟩
    · exact Or.inr ⟨h.resolve_left fun hf => hj (fresh_subset hf), hj⟩

theorem nodup_standing (has : as.Nodup) : (r.standing ctx as).Nodup := by
  apply List.Nodup.append
  · exact (JobContext.nodup_jobIds ctx r.name).filter _
  · exact has.filter _
  · intro j hj hj'
    simp only [List.mem_filter, decide_eq_true_eq] at hj hj'
    exact hj'.2 hj.1

/-- Calls of fresh jobs change nothing. -/
theorem standing_append_fresh (h : ∀ j ∈ bs, j ∈ r.fresh ctx) :
    r.standing ctx (as ++ bs) = r.standing ctx as := by
  have hnew : bs.filter (fun j => j ∉ ctx.jobIds r.name) = [] := by
    apply List.filter_eq_nil_iff.mpr
    intro j hj
    simpa using fresh_subset (h j hj)
  rw [standing, List.filter_append, hnew, List.append_nil, standing]
  congr 1
  apply List.filter_congr
  intro j _
  apply decide_eq_decide.mpr
  rw [List.mem_append]
  constructor
  · rintro (hj | hj | hj)
    · exact Or.inl hj
    · exact Or.inr hj
    · exact Or.inl (h j hj)
  · rintro (hj | hj)
    · exact Or.inl hj
    · exact Or.inr (Or.inl hj)

/-! ### The context during a roll call -/

/-- The dict after the calls of `as`: the callers new to it stand last, and the callers have
joined the fresh jobs. -/
structure Called (ctx : JobContext) (r : Rollcall) (as : List Uuid) (ctx' : JobContext) : Prop where
  jobIds : ctx'.jobIds r.name =
    ctx.jobIds r.name ++ as.filter fun j => j ∉ ctx.jobIds r.name
  active : ∀ j, j ∈ ctx'.getActiveJobs r.ts r.name ↔ j ∈ r.fresh ctx ∨ j ∈ as

namespace Called

variable {ctx' : JobContext} {job : JobBase}

theorem start : Called ctx r [] ctx := ⟨by simp, by simp [fresh]⟩

theorem getActiveJobs (h : Called ctx r as ctx') :
    ctx'.getActiveJobs r.ts r.name = r.standing ctx as := by
  rw [JobContext.getActiveJobs_eq_filter, h.jobIds, List.filter_append, standing]
  congr 1
  · apply List.filter_congr
    intro j _
    exact decide_eq_decide.mpr (h.active j)
  · apply List.filter_eq_self.mpr
    intro j hj
    exact decide_eq_true ((h.active j).mpr (Or.inr (List.mem_of_mem_filter hj)))

/-- What a call returns. -/
def answer (ctx : JobContext) (r : Rollcall) (as : List Uuid) (j : Uuid) : ShardCall :=
  ⟨j, (r.seats ctx as j).idxOf j, (r.seats ctx as j).length, r.seats ctx as j⟩

theorem call_of_fresh (h : Called ctx r as ctx') (hname : job.name = r.name)
    (hfresh : job.jobId ∈ r.fresh ctx) :
    (ctx'.shardCall r.ts job).1 = answer ctx r as job.jobId ∧
      Called ctx r (as ++ [job.jobId]) (ctx'.shardCall r.ts job).2 := by
  have hstanding : r.standing ctx (as ++ [job.jobId]) = r.standing ctx as :=
    standing_append_fresh (by simpa using hfresh)
  have hcall := JobContext.computeShardIndex_of_fresh ctx' (t := r.ts) (b := job)
    (by rw [hname, h.getActiveJobs]; exact mem_standing.mpr (Or.inl hfresh))
  rw [hname, h.getActiveJobs] at hcall
  rw [JobContext.shardCall, hcall, answer, seats, if_pos hfresh, hstanding]
  constructor
  · rfl
  · constructor
    · rw [h.jobIds, List.filter_append]
      simp [fresh_subset hfresh]
    · intro j
      rw [h.active, List.mem_append, List.mem_singleton]
      constructor
      · exact Or.imp_right Or.inl
      · rintro (hj | hj | rfl)
        · exact Or.inl hj
        · exact Or.inr hj
        · exact Or.inl hfresh

theorem jobIds_register (h : Called ctx r as ctx') (hname : job.name = r.name)
    (hnew : job.jobId ∉ as) :
    (ctx'.touchJob r.ts job.runOptions).jobIds r.name =
      ctx.jobIds r.name ++ (as ++ [job.jobId]).filter fun j => j ∉ ctx.jobIds r.name := by
  have htouch := JobContext.jobIds_touchJob ctx' (t := r.ts) job.runOptions
  rw [show job.runOptions.jobType = r.name from hname,
    show job.runOptions.jobId = job.jobId from rfl] at htouch
  rw [htouch, h.jobIds, List.filter_append]
  by_cases hj : job.jobId ∈ ctx.jobIds r.name
  · simp [hj]
  · have hmem : job.jobId ∉ ctx.jobIds r.name ++ as.filter fun j => j ∉ ctx.jobIds r.name := by
      rw [List.mem_append, List.mem_filter]
      exact fun hm => hm.elim hj fun hm => hnew hm.1
    rw [if_neg hmem]
    simp [hj]

theorem active_register (h : Called ctx r as ctx') (hname : job.name = r.name) (j : Uuid) :
    j ∈ (ctx'.touchJob r.ts job.runOptions).getActiveJobs r.ts r.name ↔
      j ∈ r.fresh ctx ∨ j ∈ as ++ [job.jobId] := by
  have htouch := JobContext.mem_getActiveJobs_touchJob ctx' (t := r.ts) (j := j)
    job.runOptions
  rw [show job.runOptions.jobType = r.name from hname,
    show job.runOptions.jobId = job.jobId from rfl] at htouch
  rw [htouch, h.active, List.mem_append, List.mem_singleton, or_assoc]

theorem call_of_stale (h : Called ctx r as ctx') (hne : r.fresh ctx ≠ [])
    (hname : job.name = r.name) (hnew : (as ++ [job.jobId]).Nodup)
    (hstale : job.jobId ∉ r.fresh ctx) :
    (ctx'.shardCall r.ts job).1 = answer ctx r as job.jobId ∧
      Called ctx r (as ++ [job.jobId]) (ctx'.shardCall r.ts job).2 := by
  have has : as.Nodup := hnew.sublist (List.sublist_append_left _ _)
  have hnotin : job.jobId ∉ as := fun hm =>
    List.disjoint_of_nodup_append hnew hm (List.mem_singleton_self _)
  have hout : job.jobId ∉ r.standing ctx as := fun hm => (mem_standing.mp hm).elim hstale hnotin
  have hsome : r.standing ctx as ≠ [] := by
    obtain ⟨j, hj⟩ := List.exists_mem_of_ne_nil _ hne
    exact List.ne_nil_of_mem (mem_standing.mpr (Or.inl hj))
  -- the list sorted in the call has the elements of the list the dict is left with
  have hperm : (r.standing ctx as ++ [job.jobId]).Perm (r.standing ctx (as ++ [job.jobId])) := by
    apply (List.perm_ext_iff_of_nodup ?_ (nodup_standing hnew)).mpr
    · intro j
      simp only [List.mem_append, mem_standing, or_assoc]
    · exact (nodup_standing has).append (List.nodup_singleton _) (by simpa using hout)
  have hcall := JobContext.computeShardIndex_of_stale ctx' (t := r.ts) (b := job)
    (by rwa [hname, h.getActiveJobs]) (by rwa [hname, h.getActiveJobs])
  rw [hname, h.getActiveJobs, insertionSort_eq_of_perm hperm] at hcall
  rw [JobContext.shardCall, hcall, answer, seats, if_neg hstale]
  exact ⟨rfl, h.jobIds_register hname hnotin, h.active_register hname⟩

/-- What a call returns and leaves, when some job is fresh. -/
theorem call (h : Called ctx r as ctx') (hne : r.fresh ctx ≠ []) (hname : job.name = r.name)
    (hnew : (as ++ [job.jobId]).Nodup) :
    (ctx'.shardCall r.ts job).1 = answer ctx r as job.jobId ∧
      Called ctx r (as ++ [job.jobId]) (ctx'.shardCall r.ts job).2 := by
  by_cases hfresh : job.jobId ∈ r.fresh ctx
  · exact h.call_of_fresh hname hfresh
  · exact h.call_of_stale hne hname hnew hfresh

end Called

/-- After any of its calls. -/
theorem called_after (hne : r.fresh ctx ≠ []) {cs ds : List JobBase} (hr : r.jobs = cs ++ ds) :
    Called ctx r (cs.map JobBase.jobId) (after (JobContext.shardCall r.ts) ctx cs) := by
  induction cs using List.reverseRecOn generalizing ds with
  | nil => exact Called.start
  | append_singleton cs job ih =>
    have hnodup : ((cs ++ [job]).map JobBase.jobId).Nodup :=
      r.nodup.sublist (by rw [hr]; exact ((List.sublist_append_left _ _).map _))
    rw [after_append, List.map_append]
    rw [List.map_append] at hnodup
    exact ((ih (by rw [hr, List.append_assoc])).call hne
      (r.name_eq job (by simp [hr])) hnodup).2

/-- The call a job makes. -/
theorem call_eq (hne : r.fresh ctx ≠ []) {cs ds : List JobBase} {job : JobBase}
    (hr : r.jobs = cs ++ job :: ds) :
    (JobContext.shardCall r.ts (after (JobContext.shardCall r.ts) ctx cs) job).1 =
      Called.answer ctx r (cs.map JobBase.jobId) job.jobId := by
  have hnodup : ((cs ++ [job]).map JobBase.jobId).Nodup :=
    r.nodup.sublist (by rw [hr]; simp)
  rw [List.map_append] at hnodup
  exact ((called_after hne hr).call hne (r.name_eq job (by simp [hr])) hnodup).1

end Rollcall

end YtScheduler
