import YtScheduler.Sharding.Standing

/-! The jobs of all types, and how they are flushed. The rows of a `JobContext` are objects
that heartbeats change in place: a flush takes the objects first and writes them batch by
batch, each as it stands when its batch is written. -/

namespace YtScheduler.Commands

open Tablet

/-! ### Batches -/

/-- The loop of `_chunked`: it ends with the first slice that is empty. -/
def chunkedLoop (size : ℕ) : ℕ → List α → List (List α)
  | 0, _ => []
  | n + 1, xs => if (xs.take size).isEmpty then [] else xs.take size :: chunkedLoop size n (xs.drop size)

/-- `_chunked`. Every slice but the last takes something, so that there are no more rounds than elements. -/
def chunked (size : ℕ) (xs : List α) : List (List α) := chunkedLoop size xs.length xs

theorem chunkedLoop_flatten {size n : ℕ} {xs : List α} (hsize : 0 < size) (hn : xs.length ≤ n) :
    (chunkedLoop size n xs).flatten = xs := by
  induction n generalizing xs with
  | zero => exact (List.eq_nil_of_length_eq_zero (by omega)).symm
  | succ n ih =>
    rw [chunkedLoop]
    split_ifs with h
    · rw [List.isEmpty_iff, List.take_eq_nil_iff] at h
      exact (h.resolve_left (by omega)).symm
    · rw [List.flatten_cons, ih, List.take_append_drop]
      rw [List.length_drop]
      omega

/-- The batches hold what was to be written, in order. -/
theorem chunked_flatten {size : ℕ} (hsize : 0 < size) (xs : List α) : (chunked size xs).flatten = xs :=
  chunkedLoop_flatten hsize (Nat.le_refl _)

/-! ### Jobs of all types -/

/-- The object of a job: its type and its id. -/
structure RunRef where
  jobType : String
  jobId : Uuid
  deriving DecidableEq

/-- `_active_jobs` with its types in the order of their insertion. -/
structure Registry where
  types : List String
  jobs : JobContext
  listed : ∀ t, t ∉ types → (jobs.activeJobs t).rows = []

theorem activeJobs_touchJob_of_ne {ctx : JobContext} {ts : Timestamp} {o : HeartbeatOptions} {t : String}
    (h : t ≠ o.jobType) : (ctx.touchJob ts o).activeJobs t = ctx.activeJobs t :=
  Function.update_of_ne h _ _

namespace Registry

def empty : Registry := ⟨[], .empty, fun _ _ => rfl⟩

/-- `touch_job`. -/
def touchJob (r : Registry) (ts : Timestamp) (o : HeartbeatOptions) : Registry where
  types := if o.jobType ∈ r.types then r.types else r.types ++ [o.jobType]
  jobs := r.jobs.touchJob ts o
  listed := by
    intro t ht
    have hne : t ≠ o.jobType := by
      rintro rfl
      split_ifs at ht with h
      · exact ht h
      · simp at ht
    rw [activeJobs_touchJob_of_ne hne]
    refine r.listed t fun hmem => ht ?_
    split_ifs
    · exact hmem
    · exact List.mem_append_left _ hmem

/-- The row of an object, as it stands. -/
def find (r : Registry) (ref : RunRef) : Option JobRunInfo := (r.jobs.activeJobs ref.jobType).find ref.jobId

/-- `get_all_jobs()`: the objects of all types. -/
def getAllJobs (r : Registry) : List RunRef :=
  r.types.flatMap fun t => (r.jobs.jobIds t).map fun jobId => ⟨t, jobId⟩

variable {r : Registry} {ts : Timestamp} {o : HeartbeatOptions} {ref : RunRef}

theorem find_touchJob : (r.touchJob ts o).find ref =
    if o.jobType = ref.jobType ∧ o.jobId = ref.jobId then some (JobContext.touched ts o (r.find ref))
    else r.find ref := by
  by_cases ht : ref.jobType = o.jobType
  · by_cases hj : o.jobId = ref.jobId
    · rw [if_pos ⟨ht.symm, hj⟩, find, touchJob, ht, JobContext.activeJobs_touchJob, Table.find_upsert,
        find, ht, ← hj]
      exact if_pos (JobContext.jobId_touched o _)
    · rw [if_neg fun h => hj h.2, find, touchJob, ht, JobContext.activeJobs_touchJob, Table.find_upsert,
        find, ht]
      exact if_neg fun h => hj ((JobContext.jobId_touched o _).symm.trans h)
  · rw [if_neg fun h => ht h.1.symm, find, touchJob, activeJobs_touchJob_of_ne ht, find]

theorem jobId_of_find {row : JobRunInfo} (h : r.find ref = some row) : row.jobId = ref.jobId :=
  Table.key_of_find h

/-- Every object with a row is among those of all types. -/
theorem mem_getAllJobs {row : JobRunInfo} (h : r.find ref = some row) : ref ∈ r.getAllJobs := by
  have hrow := (Table.find_eq_some.mp h).1
  rw [getAllJobs, List.mem_flatMap]
  refine ⟨ref.jobType, ?_, List.mem_map.mpr ⟨ref.jobId, ?_, rfl⟩⟩
  · by_contra ht
    rw [r.listed _ ht] at hrow
    cases hrow
  · exact List.mem_map.mpr ⟨row, hrow, jobId_of_find h⟩

end Registry

end YtScheduler.Commands
