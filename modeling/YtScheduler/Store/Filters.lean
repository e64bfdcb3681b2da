import YtScheduler.Quoting.Conditions

/-! The where clause of `make_formatted_select`. Values are pasted between quotes as they
are. A shard, which adds a comparison of numbers, is left out. -/

namespace YtScheduler.Filters

open Quoting

def quote : Char := Char.ofNat 39

def backslash : Char := Char.ofNat 92

/-- A text without a quote and a backslash. -/
def IsPlain (t : Text) : Prop := ∀ c ∈ t, c ≠ quote ∧ c ≠ backslash

instance (t : Text) : Decidable (IsPlain t) :=
  List.decidableBAll (fun c => c ≠ quote ∧ c ≠ backslash) t

/-- What the query language makes of an escaped character, other than to keep a quote or a
backslash as it is. -/
structure Escaping where
  of : Char → Char
  of_ne : ∀ c, c ≠ quote → c ≠ backslash → of c ≠ quote ∧ of c ≠ backslash

def Escaping.escapes (x : Escaping) : Escapes Char where
  quote := quote
  backslash := backslash
  of := x.of
  quote_ne := by decide
  of_ne := x.of_ne

/-- A backslash keeps the character after it. -/
def keeping : Escaping := ⟨id, fun _ hq hb => ⟨hq, hb⟩⟩

/-- The name of a column. -/
structure Column where
  name : Text
  ne_nil : name ≠ []
  isWord : ∀ c ∈ name, isWord c = true
  not_keyword : isKeyword name = false

/-- A filter argument that is not `None`. -/
inductive FilterValue
  | str (v : Text)
  | list (vs : {vs : List Text // vs ≠ []})
  | tuple (vs : {vs : List Text // vs ≠ []})

/-- The strings that a filter argument allows. -/
def FilterValue.values : FilterValue → List Text
  | .str v => [v]
  | .list vs => vs
  | .tuple vs => vs

/-- The keyword arguments of `make_formatted_select`. -/
structure Kwargs where
  args : List (Column × Option FilterValue)
  nodup : (args.map fun arg => arg.1.name).Nodup

/-- `type(value)`. -/
inductive ValueType
  | str
  | list
  | tuple

def ValueType.isListLike : ValueType → Bool
  | .str => false
  | .list => true
  | .tuple => true

/-- `f"'{v}'"`. -/
def quoteValue (v : Text) : Text := quote :: (v ++ [quote])

/-- `f"({flatten})"`. -/
def flatten (vs : List Text) : Text :=
  "(".toList ++ (", ".toList.intercalate (vs.map quoteValue) ++ ")".toList)

def processFilterValue : FilterValue → ValueType × Text
  | .str v => (.str, quoteValue v)
  | .list vs => (.list, flatten vs)
  | .tuple vs => (.tuple, flatten vs)

abbrev Params := List (Column × ValueType × Text)

/-- `set_param` with the transform `process_filter_value`, for a new name. -/
def setParam (params : Params) (name : Column) (value : Option FilterValue) : Params :=
  match value with
  | some value => params ++ [(name, processFilterValue value)]
  | none => params

def filters (kwargs : Kwargs) : Params :=
  kwargs.args.foldl (fun params arg => setParam params arg.1 arg.2) []

/-- `f"{name} {'in' if _is_list_like(val_type) else '='} {val}"`. -/
def comparisonText (filter : Column × ValueType × Text) : Text :=
  filter.1.name ++ (" ".toList ++
    ((if filter.2.1.isListLike then "in".toList else "=".toList) ++ (" ".toList ++ filter.2.2)))

/-- The where clause of some filters. -/
def clauseOf : Params → Text
  | [] => []
  | params => "where ".toList ++ " and ".toList.intercalate (params.map comparisonText)

/-- The where clause of the query. -/
def whereClause (kwargs : Kwargs) : Text := clauseOf (filters kwargs)

/-- What the filters say of a row. -/
def Selected (kwargs : Kwargs) (row : Row) : Prop :=
  ∀ arg ∈ kwargs.args, ∀ value, arg.2 = some value → ∃ v ∈ value.values, row arg.1.name = some v

end YtScheduler.Filters
