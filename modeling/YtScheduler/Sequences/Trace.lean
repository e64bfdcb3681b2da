import Mathlib.Data.List.Sort
import Mathlib.Data.Finset.Card
import Mathlib.Data.Fintype.Card

/-! Calls made one after the other on a state, and places in a list. A trace holds
what each call returned; a call is known by the calls before it, so every fact about
a trace is a fact about the splits of the list of calls. -/

namespace YtScheduler.Sequences

variable {α β σ : Type}

section Trace

variable (step : σ → α → β × σ)

/-- The state after a list of calls. -/
def after (s : σ) (xs : List α) : σ := xs.foldl (fun s x => (step s x).2) s

/-- What the calls returned, in order. -/
def trace : σ → List α → List β
  | _, [] => []
  | s, x :: xs => (step s x).1 :: trace (step s x).2 xs

@[simp] theorem after_nil (s : σ) : after step s [] = s := rfl

@[simp] theorem after_cons (s : σ) (x : α) (xs : List α) :
    after step s (x :: xs) = after step (step s x).2 xs := rfl

theorem after_append (s : σ) (xs ys : List α) :
    after step s (xs ++ ys) = after step (after step s xs) ys := by
  simp [after, List.foldl_append]

theorem mem_trace {s : σ} {xs : List α} {b : β} :
    b ∈ trace step s xs ↔ ∃ as x bs, xs = as ++ x :: bs ∧ b = (step (after step s as) x).1 := by
  induction xs generalizing s with
  | nil => simp [trace]
  | cons x xs ih =>
    rw [trace, List.mem_cons, ih]
    constructor
    · rintro (rfl | ⟨as, y, bs, rfl, rfl⟩)
      · exact ⟨[], x, xs, rfl, rfl⟩
      · exact ⟨x :: as, y, bs, rfl, rfl⟩
    · rintro ⟨as, y, bs, he, rfl⟩
      cases as with
      | nil =>
        simp only [List.nil_append, List.cons.injEq] at he
        exact Or.inl (by rw [he.1]; rfl)
      | cons a as =>
        simp only [List.cons_append, List.cons.injEq] at he
        obtain ⟨rfl, rfl⟩ := he
        exact Or.inr ⟨as, y, bs, rfl, rfl⟩

theorem map_trace {γ : Type} {f : β → γ} {g : α → γ} (h : ∀ s x, f (step s x).1 = g x) (s : σ)
    (xs : List α) : (trace step s xs).map f = xs.map g := by
  induction xs generalizing s with
  | nil => rfl
  | cons x xs ih => rw [trace, List.map_cons, List.map_cons, h, ih]

theorem pairwise_trace {R : β → β → Prop} {s : σ} {xs : List α} :
    (trace step s xs).Pairwise R ↔ ∀ as x bs y cs, xs = as ++ x :: (bs ++ y :: cs) →
      R (step (after step s as) x).1 (step (after step s (as ++ x :: bs)) y).1 := by
  induction xs generalizing s with
  | nil => simp [trace]
  | cons x xs ih =>
    rw [trace, List.pairwise_cons, ih]
    constructor
    · rintro ⟨hx, hxs⟩ as y bs z cs he
      cases as with
      | nil =>
        simp only [List.nil_append, List.cons.injEq] at he
        obtain ⟨rfl, rfl⟩ := he
        exact hx _ ((mem_trace step).mpr ⟨bs, z, cs, rfl, rfl⟩)
      | cons a as =>
        simp only [List.cons_append, List.cons.injEq] at he
        obtain ⟨rfl, rfl⟩ := he
        exact hxs as y bs z cs rfl
    · intro h
      constructor
      · intro b hb
        obtain ⟨bs, z, cs, rfl, rfl⟩ := (mem_trace step).mp hb
        exact h [] x bs z cs rfl
      · intro as y bs z cs he
        exact h (x :: as) y bs z cs (by rw [he]; rfl)

end Trace

/-! ### Places -/

variable {xs ys : List α} {x y : α}

theorem idxOf_ne_of_mem [DecidableEq α] (hx : x ∈ xs) (hne : x ≠ y) : xs.idxOf x ≠ xs.idxOf y := by
  intro h
  exact hne ((List.idxOf_inj hx).mp h)

/-- Two arrangements of the same elements are sorted to one list. -/
theorem insertionSort_eq_of_perm [LinearOrder α] (h : xs.Perm ys) :
    xs.insertionSort (· ≤ ·) = ys.insertionSort (· ≤ ·) := by
  apply List.Perm.eq_of_pairwise' (r := (· ≤ ·))
  · exact List.pairwise_insertionSort _ _
  · exact List.pairwise_insertionSort _ _
  · exact (List.perm_insertionSort _ xs).trans (h.trans (List.perm_insertionSort _ ys).symm)

/-- Different places below the number of elements: each place has exactly one element. -/
theorem existsUnique_place [DecidableEq α] (hxs : xs.Nodup) {f : α → ℕ} (hf : Set.InjOn f {x | x ∈ xs})
    (hlt : ∀ x ∈ xs, f x < xs.length) {v : ℕ} (hv : v < xs.length) : ∃! x, x ∈ xs ∧ f x = v := by
  have himage : xs.toFinset.image f = Finset.range xs.length := by
    apply Finset.eq_of_subset_of_card_le
    · intro n hn
      obtain ⟨x, hx, rfl⟩ := Finset.mem_image.mp hn
      exact Finset.mem_range.mpr (hlt x (List.mem_toFinset.mp hx))
    · rw [Finset.card_image_of_injOn (by simpa using hf), List.toFinset_card_of_nodup hxs,
        Finset.card_range]
  have hmem : v ∈ xs.toFinset.image f := by rw [himage]; exact Finset.mem_range.mpr hv
  obtain ⟨x, hx, rfl⟩ := Finset.mem_image.mp hmem
  have hx := List.mem_toFinset.mp hx
  exact ⟨x, ⟨hx, rfl⟩, fun y hy => hf hy.1 hx hy.2⟩

end YtScheduler.Sequences
