import Mathlib.Data.Fintype.EquivFin
import Mathlib.Logic.Relation
import Mathlib.Order.WellFounded

/-! Relations without a cycle. Among finitely many points such a relation leaves one
without a predecessor. -/

namespace YtScheduler.Graphs

variable {α : Type}

/-- No chain of the relation leads from a point back to it. -/
def Acyclic (r : α → α → Prop) : Prop := ∀ a, ¬Relation.TransGen r a a

theorem Acyclic.mono {r s : α → α → Prop} (h : Acyclic s) (hrs : ∀ a b, r a b → s a b) :
    Acyclic r := fun a hr => h a (Relation.TransGen.mono hrs a a hr)

theorem Acyclic.comap {β : Type} {r : β → β → Prop} (h : Acyclic r) (f : α → β) :
    Acyclic fun a b => r (f a) (f b) :=
  fun a ha => h (f a) (Relation.TransGen.lift f (fun _ _ hab => hab) _ _ ha)

/-- A relation that only leads upwards. -/
theorem acyclic_of_lt {r : α → α → Prop} (f : α → ℕ) (h : ∀ a b, r a b → f a < f b) : Acyclic r := by
  have hlt : ∀ {a b}, Relation.TransGen r a b → f a < f b := by
    intro a b hab
    induction hab with
    | single hab => exact h _ _ hab
    | tail _ hbc ih => exact ih.trans (h _ _ hbc)
  exact fun a ha => lt_irrefl _ (hlt ha)

/-- A loop of one point. -/
theorem not_acyclic_of_self {r : α → α → Prop} {a : α} (h : r a a) : ¬Acyclic r :=
  fun hr => hr a (.single h)

/-- Some point of a finite set has no predecessor in it. -/
theorem Acyclic.exists_minimal {r : α → α → Prop} (h : Acyclic r) {s : List α} (hs : s ≠ []) :
    ∃ m ∈ s, ∀ a ∈ s, ¬r a m := by
  classical
  have hfinite : Finite {a // a ∈ s} := Finite.of_surjective (fun i : Fin s.length => ⟨s[i], List.getElem_mem _⟩) (by
      rintro ⟨a, ha⟩
      obtain ⟨i, hi, rfl⟩ := List.mem_iff_getElem.mp ha
      exact ⟨⟨i, hi⟩, rfl⟩)
  let below : {a // a ∈ s} → {a // a ∈ s} → Prop := fun a b => Relation.TransGen r a.1 b.1
  have htrans : IsTrans _ below := ⟨fun _ _ _ hab hbc => Relation.TransGen.trans hab hbc⟩
  have hirrefl : Std.Irrefl below := ⟨fun a ha => h a.1 ha⟩
  have hwf : WellFounded below := Finite.wellFounded_of_trans_of_irrefl below
  obtain ⟨a, ha⟩ := List.exists_mem_of_ne_nil s hs
  obtain ⟨m, _, hmin⟩ := hwf.has_min Set.univ ⟨⟨a, ha⟩, trivial⟩
  exact ⟨m.1, m.2, fun b hb hr => hmin ⟨b, hb⟩ trivial (.single hr)⟩

end YtScheduler.Graphs
