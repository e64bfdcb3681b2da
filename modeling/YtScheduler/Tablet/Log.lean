import Mathlib.Data.Nat.Notation
import Mathlib.Data.List.Infix
import Mathlib.Algebra.BigOperators.Group.Finset.Piecewise
import Mathlib.Algebra.GroupWithZero.Nat
import YtScheduler.Tablet.Table

/-! A multi-version store as the log of its commits. The timestamp of a moment is
the number of commits so far, a snapshot is the table after that many commits, and
a transaction conflicts when a later commit wrote one of its rows. The facts the
clients need are that snapshots are stable and that a key without a later write
has the same row now as in the snapshot. -/

namespace YtScheduler.Tablet

open Keyed

/-- The rows one transaction or one single statement wrote, the timestamp its
reads refer to, and the thread that issued it. -/
structure Commit (Row : Type) where
  author : ℕ
  inTx : Bool
  start : ℕ
  rows : List Row

/-- An open transaction: its start timestamp and its buffered writes. -/
structure Tx (Row : Type) where
  start : ℕ
  writes : List Row

/-- Newest commit first. -/
structure Store (Row : Type) {Key : Type} [Keyed Row Key] where
  init : Table Row
  log : List (Commit Row)

variable {Row Key : Type} [Keyed Row Key]

def Commit.Writes (c : Commit Row) (k : Key) : Prop := ∃ r ∈ c.rows, key r = k

namespace Store

def now (s : Store Row) : ℕ := s.log.length

def append (s : Store Row) (c : Commit Row) : Store Row := { s with log := c :: s.log }

/-- The commits after timestamp `ts`. -/
def since (s : Store Row) (ts : ℕ) : List (Commit Row) := s.log.take (s.now - ts)

/-- Some commit after `ts` wrote the row of key `k`. -/
def Touched (s : Store Row) (ts : ℕ) (k : Key) : Prop := ∃ c ∈ s.since ts, c.Writes k

def Conflict (s : Store Row) (ts : ℕ) (rows : List Row) : Prop := ∃ r ∈ rows, s.Touched ts (key r)

/-- The commits one thread issued. -/
def authored (s : Store Row) (i : ℕ) : List (Commit Row) := s.log.filter (fun c => c.author = i)

@[simp] theorem now_append (s : Store Row) (c : Commit Row) : (s.append c).now = s.now + 1 := by
  simp [now, append]

@[simp] theorem log_append (s : Store Row) (c : Commit Row) : (s.append c).log = c :: s.log := rfl

theorem ne_append (s : Store Row) (c : Commit Row) : s ≠ s.append c := by
  intro h
  have := congrArg now h
  rw [now_append] at this
  omega

theorem since_append {s : Store Row} {ts : ℕ} (h : ts ≤ s.now) (c : Commit Row) :
    (s.append c).since ts = c :: s.since ts := by
  rw [since, since, now_append, Nat.succ_sub h]
  rfl

theorem touched_append {s : Store Row} {ts : ℕ} (h : ts ≤ s.now) {c : Commit Row} {k : Key} :
    (s.append c).Touched ts k ↔ c.Writes k ∨ s.Touched ts k := by
  rw [Touched, since_append h, List.exists_mem_cons_iff]
  rfl

theorem not_touched_now (s : Store Row) (k : Key) : ¬s.Touched s.now k := by
  simp [Touched, since]

theorem append_inj {s : Store Row} {c c' : Commit Row} (h : s.append c = s.append c') : c = c' := by
  simpa [append] using h

theorem authored_append (s : Store Row) (c : Commit Row) (i : ℕ) :
    (s.append c).authored i = if c.author = i then c :: s.authored i else s.authored i := by
  by_cases h : c.author = i <;> simp [authored, h]

/-- What is counted over all commits is counted thread by thread. -/
theorem sum_authored {s : Store Row} {n : ℕ} (h : ∀ c ∈ s.log, c.author < n)
    (f : Commit Row → ℕ) :
    ∑ i ∈ Finset.range n, ((s.authored i).map f).sum = (s.log.map f).sum := by
  obtain ⟨init, log⟩ := s
  induction log with
  | nil => simp [authored]
  | cons c cs ih =>
    rw [List.forall_mem_cons] at h
    have hsum : ∀ i, (((⟨init, c :: cs⟩ : Store Row).authored i).map f).sum =
        (if c.author = i then f c else 0) + (((⟨init, cs⟩ : Store Row).authored i).map f).sum := by
      intro i
      by_cases hc : c.author = i <;> simp [authored, hc]
    simp only [hsum, Finset.sum_add_distrib, ih h.2, List.map_cons, List.sum_cons]
    rw [Finset.sum_ite_eq, if_pos (Finset.mem_range.mpr h.1)]

variable [DecidableEq Key]

instance (c : Commit Row) (k : Key) : Decidable (c.Writes k) :=
  inferInstanceAs (Decidable (∃ r ∈ c.rows, key r = k))

instance (s : Store Row) (ts : ℕ) (k : Key) : Decidable (s.Touched ts k) :=
  inferInstanceAs (Decidable (∃ c ∈ s.since ts, c.Writes k))

instance (s : Store Row) (ts : ℕ) (rows : List Row) : Decidable (s.Conflict ts rows) :=
  inferInstanceAs (Decidable (∃ r ∈ rows, s.Touched ts (key r)))

/-- The table after the commits of a log. -/
def replay (init : Table Row) : List (Commit Row) → Table Row
  | [] => init
  | c :: cs => (replay init cs).upsertAll c.rows

def current (s : Store Row) : Table Row := replay s.init s.log

/-- The snapshot at timestamp `ts`. -/
def asOf (s : Store Row) (ts : ℕ) : Table Row := replay s.init (s.log.drop (s.now - ts))

@[simp] theorem asOf_now (s : Store Row) : s.asOf s.now = s.current := by simp [asOf, current]

@[simp] theorem current_append (s : Store Row) (c : Commit Row) :
    (s.append c).current = s.current.upsertAll c.rows := rfl

/-- The snapshots of a store with one more commit. -/
theorem asOf_append (s : Store Row) (c : Commit Row) (ts : ℕ) :
    (s.append c).asOf ts = s.asOf ts ∨ (s.append c).asOf ts = s.current.upsertAll c.rows := by
  rcases Nat.lt_or_ge s.now ts with hts | hts
  · right
    rw [asOf, now_append, Nat.sub_eq_zero_of_le hts]
    rfl
  · left
    rw [asOf, asOf, now_append, Nat.succ_sub hts]
    rfl

/-- A key that no commit after `ts` wrote has the same row now as at `ts`. -/
theorem find_asOf_of_not_touched {s : Store Row} {ts : ℕ} {k : Key} (h : ¬s.Touched ts k) :
    (s.asOf ts).find k = s.current.find k := by
  suffices ∀ (n : ℕ) (cs : List (Commit Row)), (∀ c ∈ cs.take n, ¬c.Writes k) →
      (replay s.init (cs.drop n)).find k = (replay s.init cs).find k from
    this _ _ (fun c hc hw => h ⟨c, hc, hw⟩)
  intro n cs
  induction cs generalizing n with
  | nil => intro _; simp
  | cons c cs ih =>
    intro hn
    cases n with
    | zero => rfl
    | succ n =>
      rw [List.take_succ_cons, List.forall_mem_cons] at hn
      rw [List.drop_succ_cons, ih n hn.2, replay, Table.find_upsertAll_of_not_written]
      exact fun r hr hk => hn.1 ⟨r, hr, hk⟩

/-- A successful commit sees, for the rows it writes, the rows of its snapshot. -/
theorem find_asOf_of_not_conflict {s : Store Row} {ts : ℕ} {rows : List Row}
    (h : ¬s.Conflict ts rows) {r : Row} (hr : r ∈ rows) :
    (s.asOf ts).find (key r) = s.current.find (key r) :=
  find_asOf_of_not_touched fun ht => h ⟨r, hr, ht⟩

/-! ### Growth -/

omit [DecidableEq Key] in
/-- The store grew by commits only. -/
def Extends (s s' : Store Row) : Prop := s'.init = s.init ∧ s.log <:+ s'.log

namespace Extends

omit [DecidableEq Key]

theorem refl (s : Store Row) : s.Extends s := ⟨rfl, List.suffix_refl _⟩

theorem trans {s s' s'' : Store Row} (h : s.Extends s') (h' : s'.Extends s'') : s.Extends s'' :=
  ⟨h'.1.trans h.1, h.2.trans h'.2⟩

theorem append (s : Store Row) (c : Commit Row) : s.Extends (s.append c) :=
  ⟨rfl, List.suffix_cons _ _⟩

theorem now_le {s s' : Store Row} (h : s.Extends s') : s.now ≤ s'.now := h.2.length_le

theorem mem_log {s s' : Store Row} (h : s.Extends s') {c : Commit Row} (hc : c ∈ s.log) :
    c ∈ s'.log := h.2.mem hc

theorem touched {s s' : Store Row} (h : s.Extends s') {ts : ℕ} (hts : ts ≤ s.now) {k : Key}
    (ht : s.Touched ts k) : s'.Touched ts k := by
  obtain ⟨c, hc, hw⟩ := ht
  obtain ⟨_, pre, hl⟩ := h
  refine ⟨c, ?_, hw⟩
  have hn : s'.now - ts = pre.length + (s.now - ts) := by
    simp only [now, ← hl, List.length_append] at hts ⊢
    omega
  rw [since, ← hl, hn, List.take_length_add_append]
  exact List.mem_append_right _ hc

variable [DecidableEq Key]

theorem asOf_eq {s s' : Store Row} (h : s.Extends s') {ts : ℕ} (hts : ts ≤ s.now) :
    s'.asOf ts = s.asOf ts := by
  obtain ⟨hi, pre, hl⟩ := h
  have hn : s'.now - ts = pre.length + (s.now - ts) := by
    simp only [now, ← hl, List.length_append] at hts ⊢
    omega
  unfold asOf
  rw [hi, ← hl, hn, List.drop_append, List.drop_eq_nil_of_le (by omega), List.nil_append,
    Nat.add_sub_cancel_left]

end Extends

end Store

end YtScheduler.Tablet
