import Mathlib.Data.List.Nodup

/-! Keyed tables. A table is a list of rows without two rows of one key; a write
is an upsert, which replaces the row of its key or appends. Lookup by key is the
reference reading: every other fact about a table is stated through `find`. -/

namespace YtScheduler.Tablet

/-- Rows that carry their own key. -/
class Keyed (Row : Type) (Key : outParam Type) where
  key : Row → Key

open Keyed

variable {Row Key : Type} [Keyed Row Key]

/-- Rows with pairwise distinct keys. -/
structure Table (Row : Type) {Key : Type} [Keyed Row Key] where
  rows : List Row
  nodup : (rows.map key).Nodup

namespace Table

def empty : Table Row := ⟨[], by simp⟩

@[ext] theorem ext {t u : Table Row} (h : t.rows = u.rows) : t = u := by
  cases t; cases u; subst h; rfl

variable [DecidableEq Key]

/-- Replace the first row with the key of `row`, or append `row`. -/
def put (row : Row) : List Row → List Row
  | [] => [row]
  | r :: rs => if key r = key row then row :: rs else r :: put row rs

theorem mem_put {row r : Row} {rs : List Row} (h : r ∈ put row rs) : r = row ∨ r ∈ rs := by
  induction rs with
  | nil => exact Or.inl (by simpa [put] using h)
  | cons r' rs ih =>
    simp only [put] at h
    split_ifs at h with hk
    · rcases List.mem_cons.mp h with h | h
      · exact Or.inl h
      · exact Or.inr (List.mem_cons_of_mem _ h)
    · rcases List.mem_cons.mp h with h | h
      · exact Or.inr (h ▸ List.mem_cons_self)
      · exact (ih h).imp_right (List.mem_cons_of_mem _)

theorem mem_put_self (row : Row) (rs : List Row) : row ∈ put row rs := by
  induction rs with
  | nil => exact List.mem_cons_self
  | cons r rs ih =>
    simp only [put]
    split_ifs
    · exact List.mem_cons_self
    · exact List.mem_cons_of_mem _ ih

theorem keys_put (row : Row) (rs : List Row) :
    (put row rs).map key =
      if key row ∈ rs.map key then rs.map key else rs.map key ++ [key row] := by
  induction rs with
  | nil => simp [put]
  | cons r rs ih =>
    by_cases h : key r = key row
    · simp [put, h]
    · have hne : ¬key row = key r := fun he => h he.symm
      simp only [put, h, if_false, List.map_cons, ih, List.mem_cons, hne, false_or]
      split_ifs <;> rfl

theorem nodup_put (row : Row) {rs : List Row} (h : (rs.map key).Nodup) :
    ((put row rs).map key).Nodup := by
  rw [keys_put]
  split_ifs with hm
  · exact h
  · exact h.append (List.nodup_singleton _) (by simpa using hm)

def upsert (t : Table Row) (row : Row) : Table Row := ⟨put row t.rows, nodup_put row t.nodup⟩

/-- Writes of one batch, in order. -/
def upsertAll (t : Table Row) (rows : List Row) : Table Row := rows.foldl upsert t

@[simp] theorem upsertAll_nil (t : Table Row) : t.upsertAll [] = t := rfl

@[simp] theorem upsertAll_cons (t : Table Row) (row : Row) (rows : List Row) :
    t.upsertAll (row :: rows) = (t.upsert row).upsertAll rows := rfl

theorem upsertAll_append (t : Table Row) (rows rows' : List Row) :
    t.upsertAll (rows ++ rows') = (t.upsertAll rows).upsertAll rows' := List.foldl_append

def find (t : Table Row) (k : Key) : Option Row := t.rows.find? (fun r => decide (key r = k))

theorem find_eq_some {t : Table Row} {k : Key} {r : Row} :
    t.find k = some r ↔ r ∈ t.rows ∧ key r = k := by
  constructor
  · intro h
    exact ⟨List.mem_of_find?_eq_some h, by simpa using List.find?_some h⟩
  · rintro ⟨hr, rfl⟩
    obtain ⟨r', hr'⟩ : ∃ r', t.find (key r) = some r' := by
      rw [← Option.isSome_iff_exists, find, List.find?_isSome]
      exact ⟨r, hr, by simp⟩
    have hk : key r' = key r := by simpa using List.find?_some hr'
    have hmem := List.mem_of_find?_eq_some hr'
    rwa [List.inj_on_of_nodup_map t.nodup hmem hr hk] at hr'

theorem key_of_find {t : Table Row} {k : Key} {r : Row} (h : t.find k = some r) : key r = k :=
  (find_eq_some.mp h).2

theorem mem_rows {t : Table Row} {r : Row} : r ∈ t.rows ↔ t.find (key r) = some r := by
  simp [find_eq_some]

theorem find?_put (row : Row) (rs : List Row) (k : Key) :
    (put row rs).find? (fun r => decide (key r = k)) =
      if key row = k then some row else rs.find? (fun r => decide (key r = k)) := by
  induction rs with
  | nil => by_cases h : key row = k <;> simp [put, h]
  | cons r rs ih =>
    simp only [put]
    split_ifs with hr hk hk
    · simp [hk]
    · have : key r ≠ k := by rwa [hr]
      simp [hk, this]
    · have : key r ≠ k := fun he => hr (he.trans hk.symm)
      simp [this, ih, hk]
    · by_cases hrk : key r = k <;> simp [hrk, ih, hk]

@[simp] theorem find_upsert (t : Table Row) (row : Row) (k : Key) :
    (t.upsert row).find k = if key row = k then some row else t.find k :=
  find?_put row t.rows k

theorem find_upsertAll_of_not_written {rows : List Row} {k : Key}
    (h : ∀ r ∈ rows, key r ≠ k) (t : Table Row) : (t.upsertAll rows).find k = t.find k := by
  induction rows generalizing t with
  | nil => rfl
  | cons r rs ih =>
    rw [List.forall_mem_cons] at h
    rw [upsertAll_cons, ih h.2, find_upsert, if_neg h.1]

/-- A key of the batch is found with the last row the batch wrote for it. -/
theorem find_upsertAll_of_written {rows : List Row} {k : Key} (h : ∃ r ∈ rows, key r = k)
    (t : Table Row) : ∃ r ∈ rows, key r = k ∧ (t.upsertAll rows).find k = some r := by
  induction rows generalizing t with
  | nil => simp at h
  | cons r rs ih =>
    by_cases hrs : ∃ r ∈ rs, key r = k
    · obtain ⟨r', hm, hk, hf⟩ := ih hrs (t.upsert r)
      exact ⟨r', List.mem_cons_of_mem _ hm, hk, hf⟩
    · have hr : key r = k := by
        obtain ⟨r', hm, hk⟩ := h
        rcases List.mem_cons.mp hm with rfl | hm
        · exact hk
        · exact absurd ⟨r', hm, hk⟩ hrs
      refine ⟨r, List.mem_cons_self, hr, ?_⟩
      rw [upsertAll_cons, find_upsertAll_of_not_written (fun r' hm hk => hrs ⟨r', hm, hk⟩),
        find_upsert, if_pos hr]

/-- After a batch, a found row is one of the batch or an old row left alone. -/
theorem find_upsertAll_cases {t : Table Row} {rows : List Row} {k : Key} {r : Row}
    (h : (t.upsertAll rows).find k = some r) :
    (r ∈ rows ∧ key r = k) ∨ ((∀ r' ∈ rows, key r' ≠ k) ∧ t.find k = some r) := by
  by_cases hw : ∃ r' ∈ rows, key r' = k
  · obtain ⟨r', hm, hk, hf⟩ := find_upsertAll_of_written hw t
    rw [hf] at h
    cases h
    exact Or.inl ⟨hm, hk⟩
  · have hn : ∀ r' ∈ rows, key r' ≠ k := fun r' hm hk => hw ⟨r', hm, hk⟩
    exact Or.inr ⟨hn, by rwa [find_upsertAll_of_not_written hn] at h⟩

/-- A row of a new key is appended. -/
theorem put_of_not_mem {row : Row} {rs : List Row} (h : ∀ r ∈ rs, key r ≠ key row) :
    put row rs = rs ++ [row] := by
  induction rs with
  | nil => rfl
  | cons r rs ih =>
    rw [List.forall_mem_cons] at h
    rw [put, if_neg h.1, ih h.2, List.cons_append]

/-- A selection that takes neither the row nor any row of its key does not see the upsert. -/
theorem filterMap_put {β : Type} {g : Row → Option β} {row : Row} (rs : List Row)
    (hrow : g row = none) (hold : ∀ r ∈ rs, key r = key row → g r = none) :
    (put row rs).filterMap g = rs.filterMap g := by
  induction rs with
  | nil => simp [put, hrow]
  | cons r rs ih =>
    rw [List.forall_mem_cons] at hold
    rw [put]
    split_ifs with hk
    · rw [List.filterMap_cons_none hrow, List.filterMap_cons_none (hold.1 hk)]
    · simp only [List.filterMap_cons, ih hold.2]

/-- With distinct keys in the batch, every row of the batch is found. -/
theorem find_upsertAll_of_nodup {rows : List Row} (hn : (rows.map key).Nodup) {r : Row}
    (hr : r ∈ rows) (t : Table Row) : (t.upsertAll rows).find (key r) = some r := by
  obtain ⟨r', hm, hk, hf⟩ := find_upsertAll_of_written ⟨r, hr, rfl⟩ t
  rwa [List.inj_on_of_nodup_map hn hm hr hk] at hf

end Table

end YtScheduler.Tablet
