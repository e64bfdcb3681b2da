import Mathlib.Data.List.Basic
import Mathlib.Data.List.Forall2
import Mathlib.Data.List.Nodup
import Mathlib.Data.List.Perm.Basic
import Mathlib.Order.Basic

/-! The places of a list at which a predicate holds, listed once each in any order,
and what becomes of such a list of places when one entry changes or is added. -/

namespace YtScheduler.Sequences

variable {α : Type}

/-- `js` lists, once each, the places of `xs` at which `P` holds. -/
structure Lists (xs : List α) (P : α → Prop) (js : List ℕ) : Prop where
  nodup : js.Nodup
  mem : ∀ j, j ∈ js ↔ ∃ c, xs[j]? = some c ∧ P c

namespace Lists

variable {xs : List α} {P : α → Prop} {js ks : List ℕ} {j : ℕ} {c c' : α}

theorem perm (h : Lists xs P js) (hp : js.Perm ks) : Lists xs P ks :=
  ⟨hp.nodup_iff.mp h.nodup, fun j => hp.mem_iff.symm.trans (h.mem j)⟩

theorem holds (h : Lists xs P js) (hj : j ∈ js) (hc : xs[j]? = some c) : P c := by
  obtain ⟨c', hc', hP⟩ := (h.mem j).mp hj
  cases Option.some.inj (hc.symm.trans hc')
  exact hP

/-- An entry changes and `P` holds of it as before. -/
theorem set (h : Lists xs P js) (hc : xs[j]? = some c) (hP : P c' ↔ P c) :
    Lists (xs.set j c') P js := by
  refine ⟨h.nodup, fun i => ?_⟩
  rw [h.mem, List.getElem?_set]
  split_ifs with hij hlt
  · subst hij
    simp [hc, hP]
  · subst hij
    exact absurd (List.getElem?_eq_some_iff.mp hc).1 hlt
  · rfl

/-- `P` holds of an entry no longer. -/
theorem remove (h : Lists xs P (j :: js)) (hc : xs[j]? = some c) (hP : ¬P c') :
    Lists (xs.set j c') P js := by
  have hnodup := List.nodup_cons.mp h.nodup
  refine ⟨hnodup.2, fun i => ?_⟩
  rw [List.getElem?_set]
  split_ifs with hij hlt
  · subst hij
    simp [hnodup.1, hP]
  · subst hij
    exact absurd (List.getElem?_eq_some_iff.mp hc).1 hlt
  · rw [← h.mem, List.mem_cons]
    simp [Ne.symm hij]

/-- `P` holds of an entry from now on. -/
theorem insert (h : Lists xs P js) (hc : xs[j]? = some c) (hnot : ¬P c) (hP : P c') :
    Lists (xs.set j c') P (j :: js) := by
  have hj : j ∉ js := fun hj => hnot (h.holds hj hc)
  refine ⟨List.nodup_cons.mpr ⟨hj, h.nodup⟩, fun i => ?_⟩
  rw [List.mem_cons, List.getElem?_set]
  split_ifs with hij hlt
  · subst hij
    simp [hP]
  · subst hij
    exact absurd (List.getElem?_eq_some_iff.mp hc).1 hlt
  · rw [h.mem]
    simp [Ne.symm hij]

theorem lt_length (h : Lists xs P js) (hj : j ∈ js) : j < xs.length := by
  obtain ⟨c, hc, _⟩ := (h.mem j).mp hj
  exact (List.getElem?_eq_some_iff.mp hc).1

/-- A new entry of which `P` does not hold. -/
theorem append_not (h : Lists xs P js) (hP : ¬P c) : Lists (xs ++ [c]) P js := by
  refine ⟨h.nodup, fun i => ?_⟩
  rw [h.mem, List.getElem?_append]
  split_ifs with hi
  · rfl
  · rw [List.getElem?_eq_none (by omega)]
    cases hk : i - xs.length with
    | zero => simp [hP]
    | succ k => simp

/-- A new entry of which `P` holds. -/
theorem append (h : Lists xs P js) (hP : P c) : Lists (xs ++ [c]) P (xs.length :: js) := by
  have hnot : xs.length ∉ js := fun hj => absurd (h.lt_length hj) (Nat.lt_irrefl _)
  refine ⟨List.nodup_cons.mpr ⟨hnot, h.nodup⟩, fun i => ?_⟩
  rw [List.mem_cons, List.getElem?_append]
  split_ifs with hi
  · rw [h.mem]
    simp [Nat.ne_of_lt hi]
  · cases hk : i - xs.length with
    | zero =>
      have hi : i = xs.length := by omega
      simp [hi, hP]
    | succ k =>
      have hout : i ∉ js := fun hj => hi (h.lt_length hj)
      have hne : i ≠ xs.length := by omega
      simp [hout, hne]

end Lists

/-! ### One entry of many -/

/-- The entries that a function reads off a list, with those of one place first. -/
theorem exists_perm_flatMap {β : Type} (f : α → List β) {xs : List α} {i : ℕ} {x : α}
    (h : xs[i]? = some x) : ∃ rest, (xs.flatMap f).Perm (f x ++ rest) ∧
      ∀ y, ((xs.set i y).flatMap f).Perm (f y ++ rest) := by
  obtain ⟨hi, rfl⟩ := List.getElem?_eq_some_iff.mp h
  refine ⟨(xs.eraseIdx i).flatMap f, ?_, fun y => ?_⟩
  · exact ((List.getElem_cons_eraseIdx_perm hi).symm.flatMap_right f)
  · exact ((List.set_perm_cons_eraseIdx hi y).flatMap_right f)

/-- An entry after one entry was set is that one, or the entry before. -/
theorem getElem?_set_cases {xs : List α} {i j : ℕ} {x y z : α} (h : xs[j]? = some x)
    (h' : (xs.set i y)[j]? = some z) : i = j ∧ z = y ∨ i ≠ j ∧ z = x := by
  rw [List.getElem?_set] at h'
  split_ifs at h' with hij hlt
  · cases h'
    exact Or.inl ⟨hij, rfl⟩
  · exact Or.inr ⟨hij, Option.some.inj (h'.symm.trans h)⟩

theorem getElem?_append_left {xs ys : List α} {j : ℕ} {x z : α} (h : xs[j]? = some x)
    (h' : (xs ++ ys)[j]? = some z) : z = x := by
  rw [List.getElem?_append_left (List.getElem?_eq_some_iff.mp h).1, h] at h'
  exact (Option.some.inj h').symm

theorem modify_eq_set {xs : List α} {i : ℕ} {x : α} (f : α → α) (h : xs[i]? = some x) :
    xs.modify i f = xs.set i (f x) := by
  rw [List.modify_eq_set_getElem?]
  simp [h]

/-- How many entries a predicate holds of, after one was set. -/
theorem countP_set_add {xs : List α} {i : ℕ} {x : α} (P : α → Bool) (h : xs[i]? = some x) (y : α) :
    (xs.set i y).countP P + (P x).toNat = xs.countP P + (P y).toNat := by
  obtain ⟨rest, hx, hy⟩ := exists_perm_flatMap (fun z => [z]) h
  have hself : ∀ zs : List α, zs.flatMap (fun z => [z]) = zs := by
    intro zs
    induction zs with
    | nil => rfl
    | cons z zs ih => rw [List.flatMap_cons, ih, List.singleton_append]
  have hcount : ∀ z, ([z] ++ rest).countP P = (P z).toNat + rest.countP P := by
    intro z
    rw [List.singleton_append, List.countP_cons]
    cases P z <;> simp [Nat.add_comm]
  have hx' := hx.countP_eq P
  have hy' := (hy y).countP_eq P
  rw [hself, hcount] at hx' hy'
  omega

/-! ### Lists related entry by entry -/

theorem exists_right {β : Type} {R : α → β → Prop} {xs : List α} {ys : List β}
    (h : List.Forall₂ R xs ys) {x : α} (hx : x ∈ xs) : ∃ y ∈ ys, R x y := by
  induction h with
  | nil => cases hx
  | cons hxy _ ih =>
    rcases List.mem_cons.mp hx with rfl | hx
    · exact ⟨_, List.mem_cons_self, hxy⟩
    · obtain ⟨y, hy, hR⟩ := ih hx
      exact ⟨y, List.mem_cons_of_mem _ hy, hR⟩

theorem exists_left {β : Type} {R : α → β → Prop} {xs : List α} {ys : List β}
    (h : List.Forall₂ R xs ys) {y : β} (hy : y ∈ ys) : ∃ x ∈ xs, R x y :=
  exists_right (R := fun y x => R x y) h.flip hy

/-- Two selections from one list that select at the same places. -/
theorem forall₂_filterMap {β γ : Type} {f : α → Option β} {g : α → Option γ} {R : β → γ → Prop}
    {xs : List α} (h : ∀ x ∈ xs, Option.Rel R (f x) (g x)) :
    List.Forall₂ R (xs.filterMap f) (xs.filterMap g) := by
  induction xs with
  | nil => exact .nil
  | cons x xs ih =>
    rw [List.forall_mem_cons] at h
    rw [List.filterMap_cons, List.filterMap_cons]
    cases hf : f x with
    | none =>
      cases hg : g x with
      | none => exact ih h.2
      | some c =>
        have hrel := h.1
        rw [hf, hg] at hrel
        cases hrel
    | some b =>
      cases hg : g x with
      | none =>
        have hrel := h.1
        rw [hf, hg] at hrel
        cases hrel
      | some c =>
        have hrel := h.1
        rw [hf, hg] at hrel
        cases hrel with
        | some hR => exact .cons hR (ih h.2)

end YtScheduler.Sequences
