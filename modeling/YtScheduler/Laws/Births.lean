import YtScheduler.Consistency.Memory
import YtScheduler.Laws.Guarded
import YtScheduler.Laws.Traces

/-! The TaskRuns that `queue_run_atomic` creates, as its transaction leaves them: persisted in their
initial state, while no process holds an object of one. The timestamps of a TaskRun are followed
from there on. -/

namespace YtScheduler

open Tablet Threads

variable {i : ℕ} {s s' : Shared}

/-- A thread without an open transaction leaves the clients apart once its program ended without
one. -/
theorem Comes.apart {α : Type} {p : P α} {r : Except Exn α} (hp : Comes i p s r s')
    (huses : p.Uses Op.Own) (hopened : s'.opened (.thread i) = []) (h : s.Apart) : s'.Apart where
  closed j := by
    by_cases hij : j = i
    · rwa [hij]
    · refine hp.keeps (K := fun s₁ => s₁.opened (.thread j) = []) huses (fun o ch l s₁ ho hj => ?_) (h.closed j)
      exact (ho.opened_of_ne hij ch l s₁).trans hj
  unwritten := hp.keeps (K := fun s₁ => ∀ x ∈ s₁.opened .global, x.2.writes = []) huses
    (fun _ ch l _ ho hx => ho.unwritten hx ch l) h.unwritten

namespace DagRun

/-- A task that no existing TaskRun is for is created one. -/
theorem exists_mem_missing {dag : Dag} {existing : List TaskRunObj} {dagrunId : Uuid} {n : ℕ} {t : Task}
    (ht : t ∈ dag.tasks) (hnew : ∀ tr ∈ existing, tr.row.taskId ≠ t.taskId) :
    ∃ r ∈ missing dag existing dagrunId n,
      r = newTaskRun dagrunId t t.initialState r.runId := by
  have hcount : ((missing dag existing dagrunId n).map TaskRunRow.taskId).count t.taskId = 1 := by
    rw [count_missing ht, if_neg (by simpa using hnew)]
  have hmem : t.taskId ∈ (missing dag existing dagrunId n).map TaskRunRow.taskId :=
    List.count_pos_iff.mp (by rw [hcount]; exact Nat.one_pos)
  obtain ⟨r, hr, hid⟩ := List.mem_map.mp hmem
  obtain ⟨t', ht', hnewRun⟩ := exists_of_mem_missing hr
  have hsame : t'.taskId = t.taskId := by rw [← hid, hnewRun]; rfl
  obtain rfl : t' = t := List.inj_on_of_nodup_map dag.nodup ht' ht hsame
  exact ⟨r, hr, hnewRun⟩

/-- Rows with different run ids are persisted as they were written. -/
theorem taskRun_upsertAll_missing {db : Db} {dag : Dag} {existing : List TaskRunObj} {dagrunId : Uuid}
    {n : ℕ} {r : TaskRunRow} (hr : r ∈ missing dag existing dagrunId n) (new : DagRunRow) :
    Db.taskRun (db.upsertAll ((missing dag existing dagrunId n).map .taskRun ++ [.dagRun new])) r.runId =
      some r := by
  have hrow : ∀ a : TaskRunRow, RowKind.toRow a ∈
      (missing dag existing dagrunId n).map Row.taskRun ++ [.dagRun new] ↔
        a ∈ missing dag existing dagrunId n := by
    intro a
    simp [RowKind.toRow]
  obtain ⟨a, ha, hid, hget⟩ := Db.get_upsertAll_of_written db ⟨r, (hrow r).mpr hr, rfl⟩
  have hnodup : ((missing dag existing dagrunId n).map TaskRunRow.runId).Nodup := by
    rw [map_runId_missing]
    exact List.nodup_range'
  rwa [List.inj_on_of_nodup_map hnodup ((hrow a).mp ha) hr hid] at hget

end DagRun

/-- In a consistent state no TaskRun has a run id that is still to be drawn. -/
theorem MemOk.taskRun_lt (hm : MemOk s s.mem) (ht : Tables s s.db) :
    ∀ row ∈ s.mem.taskRuns, row.runId < s.uuids := by
  intro row hrow
  obtain ⟨t, hget, hident⟩ := hm.taskRuns row hrow
  exact ht.taskRun_lt _ t hget

/-- Queueing a SCHEDULED DagRun of a consistent state creates a TaskRun for each task for which the
query finds none. -/
theorem born_of_queueRunAtomic (hapart : s.Apart) (ht : Tables s s.db) (hm : MemOk s s.mem) {self : Ref}
    {row run : DagRunRow} (hself : s.mem.dagRuns[self]? = some row)
    (hrun : s.db.dagRun row.runId = some run) (hstate : run.state = .scheduled) {dag : Dag}
    (hexisting : ((DagRun.existingFilter row dag).read s.engine).isSome = true) :
    ∃ s', Yields i (DagRun.queueRunAtomic self dag) s () s' ∧
      ∀ t ∈ dag.tasks, ¬Looked s.engine s.db row dag t.taskId →
        ∃ runId, Born s' t row.runId runId := by
  obtain ⟨existing, new, s₁, hexist, hbody, hin, _, _, hobjects⟩ :=
    DagRun.yields_queueBody (Inside.begin (hapart.closed i)) hself hrun hstate hexisting
  obtain ⟨s', htx, happlied, hmem⟩ := Yields.transaction hbody hin
  refine ⟨s', htx, fun t htask hlooked => ?_⟩
  have hnone : ∀ tr ∈ existing, tr.row.taskId ≠ t.taskId := by
    intro tr htr hid
    refine hlooked ⟨tr.row, ?_, hid⟩
    rw [← hexist]
    exact List.mem_map_of_mem htr
  obtain ⟨r, hr, hborn⟩ : ∃ r ∈ DagRun.missing dag existing row.runId s.uuids,
      r = DagRun.newTaskRun row.runId t t.initialState r.runId := DagRun.exists_mem_missing htask hnone
  have hunused : s.uuids ≤ r.runId := by
    have hid := List.mem_map_of_mem (f := TaskRunRow.runId) hr
    rw [DagRun.map_runId_missing] at hid
    exact (List.mem_range'_1.mp hid).1
  refine ⟨r.runId, ⟨?_, fun ref old hold hid => ?_, ?_⟩⟩
  · rw [← hborn, happlied.db]
    exact DagRun.taskRun_upsertAll_missing hr new
  · -- The objects are as old as the tables and the memory were.
    have hlt : old.runId < s.uuids := by
      have hmem' := List.mem_of_getElem? hold
      rw [hmem, hobjects, List.mem_append] at hmem'
      rcases hmem' with hmem' | hmem'
      · exact hm.taskRun_lt ht old hmem'
      · rw [hexist] at hmem'
        exact ht.taskRun_lt _ old (mem_select_taskRuns hmem').1
    rw [hid] at hlt
    exact absurd hlt hunused.not_gt
  · refine Comes.apart htx ?_ happlied.opened hapart
    exact own_transaction ((DagRun.joins_queueBody self dag).mono fun _ ho => ho.own)

/-- No TaskRun of a consistent state carries the run id of a DagRun as its own. -/
theorem Tables.not_looked (ht : Tables s s.db) {row run : DagRunRow}
    (hrun : s.db.dagRun row.runId = some run) {dag : Dag} (hplain : dag.Plain) {taskId : String}
    (hid : taskId ∈ dag.taskIds) : ¬Looked s.engine s.db row dag taskId := by
  rw [looked_iff_of_plain hplain hid]
  rintro ⟨r, hr, hsame, _⟩
  have hnone := ht.disjoint _ r (Db.mem_taskRuns.mp hr)
  rw [hsame, hrun] at hnone
  cases hnone

/-- With plain task ids every task of the DAG gets its TaskRun. -/
theorem each_task_born (hapart : s.Apart) (ht : Tables s s.db) (hm : MemOk s s.mem) {self : Ref}
    {row run : DagRunRow} (hself : s.mem.dagRuns[self]? = some row)
    (hrun : s.db.dagRun row.runId = some run) (hstate : run.state = .scheduled) {dag : Dag}
    (hplain : dag.Plain) (hne : dag.tasks ≠ []) :
    ∃ s', Yields i (DagRun.queueRunAtomic self dag) s () s' ∧
      ∀ t ∈ dag.tasks, ∃ runId, Born s' t row.runId runId := by
  obtain ⟨s', hqueue, hborn⟩ := born_of_queueRunAtomic (i := i) hapart ht hm hself hrun hstate
    (DagRun.readable_existingFilter hplain hne)
  exact ⟨s', hqueue, fun t htask =>
    hborn t htask (ht.not_looked hrun hplain (List.mem_map_of_mem htask))⟩

end YtScheduler
