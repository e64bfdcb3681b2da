import YtScheduler.Sharding.Standing

/-! The shards that go into queries. A caller without a fresh heartbeat registers again
and counts itself, but only where another job of its type is still active. -/

namespace YtScheduler

/-- A shard that a query can select by. -/
structure ShardingOptions.Valid (shard : ShardingOptions) : Prop where
  numShards_pos : 1 ≤ shard.numShards
  index_lt : shard.shardIndex < shard.numShards
  divides : shard.numVirtualShards ≠ 0 → ∀ q : Query, q.shard? = some shard → q.dividesByZero = false

theorem ShardingOptions.Valid.of_index_lt {shard : ShardingOptions}
    (h : shard.shardIndex < shard.numShards) : shard.Valid where
  numShards_pos := by omega
  index_lt := h
  divides := by
    intro hvirtual q hq
    have hne : shard.numShards ≠ 0 := by omega
    simp [Query.dividesByZero, hq, hvirtual, hne]

namespace JobContext

variable {ctx : JobContext} {t : Timestamp} {b : JobBase}

/-- Some job of the caller's type was seen within the ttl. -/
def SomeActive (ctx : JobContext) (t : Timestamp) (name : String) : Prop :=
  ∃ run ∈ ctx.getAllJobs name, t - run.lastSeen ≤ heartbeatTtl

instance (ctx : JobContext) (t : Timestamp) (name : String) : Decidable (ctx.SomeActive t name) :=
  inferInstanceAs (Decidable (∃ run ∈ _, _))

theorem getActiveJobs_ne_nil_iff {name : String} :
    ctx.getActiveJobs t name ≠ [] ↔ ctx.SomeActive t name := by
  simp only [getActiveJobs, SomeActive, ne_eq, List.map_eq_nil_iff, List.filter_eq_nil_iff,
    decide_eq_true_eq, not_forall, not_not, exists_prop]

/-- The caller has a place in the list the index is taken from. -/
theorem index_lt_numShards (h : ctx.SomeActive t b.name) :
    (ctx.shardCall t b).1.index < (ctx.shardCall t b).1.numShards := by
  have hne := getActiveJobs_ne_nil_iff.mpr h
  by_cases hmem : b.jobId ∈ ctx.getActiveJobs t b.name
  · rw [shardCall, computeShardIndex_of_fresh ctx hmem]
    exact List.idxOf_lt_length_iff.mpr hmem
  · rw [shardCall, computeShardIndex_of_stale ctx hne hmem]
    apply List.idxOf_lt_length_iff.mpr
    simp

end JobContext

open JobContext

/-- The shard that `determine_shard_options` returns is valid exactly when some job of the
caller's type is active. -/
theorem shard_valid_iff (ctx : JobContext) (history : List (Timestamp × HeartbeatOptions))
    (t : Timestamp) (job : JobBase) (numVirtualShards : ℕ) :
    (determineShardOptions numVirtualShards ((ctx.touchAll history).shardCall t job).1).Valid ↔
      (ctx.touchAll history).SomeActive t job.name := by
  constructor
  · intro hvalid
    rw [← getActiveJobs_ne_nil_iff]
    intro hnil
    have hpos := hvalid.numShards_pos
    rw [shardCall, computeShardIndex_of_none hnil] at hpos
    exact Nat.not_succ_le_zero 0 hpos
  · intro hactive
    exact .of_index_lt (index_lt_numShards hactive)

/-- A scheduler whose last pass took longer than the ttl. -/
def slowScheduler : JobBase := ⟨"scheduler", 1, "host", 1⟩

/-- It gets index 0 of 0 shards, and the query for the QUEUED DagRuns of that shard fails. -/
theorem slow_pass_divides_by_zero :
    ¬∀ (ctx : JobContext) (history : List (Timestamp × HeartbeatOptions)) (t : Timestamp)
      (job : JobBase) (numVirtualShards : ℕ), (∀ h ∈ history, h.1 ≤ t) →
      (determineShardOptions numVirtualShards ((ctx.touchAll history).shardCall t job).1).Valid := by
  intro h
  have hvalid := h .empty [(0, slowScheduler.runOptions)] 31 slowScheduler 500 (by decide)
  exact absurd hvalid.index_lt (by decide +kernel)

end YtScheduler
