import YtScheduler.Store.Clauses
import YtScheduler.Store.Rendering

/-! The query engine. It hashes keys and reads the text of a where clause, which becomes a test of
rows if the text can be read. Of the texts it is known only that a clause of plain values selects
what its filters say, and that it cannot be read if a list has no values. -/

namespace YtScheduler

open Filters Quoting

/-- The values given to the filters hold no quote and no backslash. -/
def Filters.Kwargs.IsPlain (kwargs : Kwargs) : Prop :=
  ∀ f ∈ given kwargs, ∀ v ∈ f.2.values, Filters.IsPlain v

theorem Filters.Kwargs.isPlain_of_args {kwargs : Kwargs}
    (h : ∀ arg ∈ kwargs.args, ∀ value, arg.2 = some value → ∀ v ∈ value.values, Filters.IsPlain v) :
    kwargs.IsPlain := by
  intro f hf
  obtain ⟨arg, harg, hmap⟩ := List.mem_filterMap.mp hf
  obtain ⟨value, hvalue, rfl⟩ := Option.map_eq_some_iff.mp hmap
  exact h arg harg value hvalue

structure Engine where
  farmHash : Uuid → ℕ := id
  rendering : Lookups.Rendering := default
  readWhere : Text → Option (Quoting.Row → Bool)
  readWhere_plain : ∀ kwargs : Kwargs, kwargs.IsPlain →
    ∃ test, readWhere (whereClause kwargs) = some test ∧ ∀ row, test row = true ↔ Selected kwargs row
  readWhere_empty : ∀ (column : Column) (kwargs kwargs' : Kwargs), kwargs.IsPlain → kwargs'.IsPlain →
    readWhere (clauseOf (filters kwargs ++ (column, .list, flatten []) :: filters kwargs')) = none

/-- An engine that reads clauses in the query language. -/
def Engine.reading (x : Escaping) : Engine where
  readWhere text := (Quoting.readWhere x.escapes text).map fun o row => selects row o
  readWhere_plain kwargs h := by
    obtain ⟨o, hread, hselects⟩ := selects_of_plain (x := x) h
    exact ⟨_, by rw [hread]; rfl, hselects⟩
  readWhere_empty column kwargs kwargs' h h' := by
    rw [readWhere_of_empty column h h']
    rfl

instance : Inhabited Engine := ⟨.reading keeping⟩

end YtScheduler
