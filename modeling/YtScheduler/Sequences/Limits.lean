import Mathlib.Data.List.Perm.Subperm
import Mathlib.Data.List.Nodup

/-! Answers to a query with a limit. They hold some of the entries that were found, as many
as the limit allows; all of them, in some order, if the limit allows so many. -/

namespace YtScheduler

variable {α β : Type} {limit : Option ℕ} {found rows : List α}

structure Limited (limit : Option ℕ) (found rows : List α) : Prop where
  subperm : rows.Subperm found
  le : ∀ n, limit = some n → rows.length ≤ n
  all : (∀ n, limit = some n → found.length ≤ n) → rows.Perm found

namespace Limited

theorem nil (h : Limited limit [] rows) : rows = [] := List.subperm_nil.mp h.subperm

/-- What is found alone is answered, unless the limit is zero. -/
theorem singleton {a : α} {n : ℕ} (h : Limited (some (n + 1)) [a] rows) : rows = [a] := by
  refine List.perm_singleton.mp (h.all ?_)
  rintro m ⟨⟩
  exact Nat.le_add_left 1 n

/-- Under the limit one an answer is empty or one entry that was found. -/
theorem of_one (h : Limited (some 1) found rows) : rows = [] ∨ ∃ a ∈ found, rows = [a] := by
  have hlength := h.le 1 rfl
  match rows with
  | [] => exact Or.inl rfl
  | [a] => exact Or.inr ⟨a, h.subperm.subset (List.mem_singleton_self a), rfl⟩
  | _ :: _ :: _ => simp at hlength

/-- The first entries are an answer. -/
theorem take (found : List α) (n : ℕ) : Limited (some n) found (found.take n) where
  subperm := (List.take_sublist n found).subperm
  le := by
    rintro m ⟨⟩
    exact List.length_take_le n found
  all h := by rw [List.take_of_length_le (h n rfl)]

/-- Everything that was found is an answer if the limit allows it. -/
theorem self (h : ∀ n, limit = some n → found.length ≤ n) : Limited limit found found where
  subperm := List.Subperm.refl found
  le := h
  all _ := List.Perm.refl found

/-- More entries than the limit allows may be answered with none. -/
theorem nil_of_lt {n : ℕ} (h : n < found.length) : Limited (some n) found [] where
  subperm := List.nil_subperm
  le _ _ := Nat.zero_le _
  all hle := absurd (hle n rfl) (by omega)

end Limited

/-- Among entries with distinct keys at most one has a given key. -/
theorem length_filter_le_one {key : α → β} {entries : List α} {p : α → Bool} {k : β}
    (hnodup : (entries.map key).Nodup) (h : ∀ a ∈ entries, p a = true → key a = k) :
    (entries.filter p).length ≤ 1 := by
  have hkeys : ((entries.filter p).map key).Nodup := hnodup.sublist (List.filter_sublist.map key)
  have hsame : (entries.filter p).map key = List.replicate (entries.filter p).length k := by
    rw [← List.length_map (f := key)]
    refine List.eq_replicate_length.mpr ?_
    rintro b hb
    obtain ⟨a, ha, rfl⟩ := List.mem_map.mp hb
    exact h a (List.mem_filter.mp ha).1 (List.mem_filter.mp ha).2
  rw [hsame, List.nodup_replicate] at hkeys
  exact hkeys

end YtScheduler
